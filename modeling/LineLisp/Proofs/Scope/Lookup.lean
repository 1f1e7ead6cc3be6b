import LineLisp.Proofs.Scope.Bindings
import LineLisp.Scope

/-!
Look-ups in scopes. Writing and entering a frame change the answers for the names that they bind
and no others, so scopes may be compared by their answers alone. In particular a chain of frames
answers like the single frame in which inner bindings hide outer ones.
-/

namespace LineLisp

namespace Bindings

variable {α : Type}

@[simp]
theorem get?_empty (name : Bytes) : (empty : Bindings α).get? name = none := rfl

/-- The bindings of `inner` and, for other names, those of `outer`. -/
def shadowing (inner outer : Bindings α) : Bindings α :=
  inner.entries.foldr (fun entry b => b.insert entry.1 entry.2) outer

theorem get?_shadowing (inner outer : Bindings α) (name : Bytes) :
    (inner.shadowing outer).get? name = (inner.get? name).or (outer.get? name) := by
  unfold shadowing get?
  induction inner.entries with
  | nil => rfl
  | cons entry rest ih =>
      obtain ⟨key, value⟩ := entry
      change ((rest.foldr _ outer).insert key value).get? name = _
      rw [get?_insert, get?, ih, List.lookup_cons]
      by_cases h : name = key
      · simp [h]
      · simp [h, beq_false_of_ne h]

end Bindings

/-- The bindings of one frame in front of those of another, in both namespaces. -/
def Frame.shadowing (inner outer : Frame) : Frame :=
  ⟨inner.vars.shadowing outer.vars, inner.funcs.shadowing outer.funcs⟩

namespace Scope

/-- All frames in one. -/
def flat (s : Scope) : Frame :=
  s.frames.foldr Frame.shadowing .empty

section answers

variable (s : Scope) (name other : Bytes)

theorem value?_eq_or : s.value? name =
    (s.frame.vars.get? name).or (s.outer.findSome? (·.vars.get? name)) := by
  unfold value? frames
  rw [List.findSome?_cons]
  cases s.frame.vars.get? name <;> rfl

theorem function?_eq_or : s.function? name =
    (s.frame.funcs.get? name).or (s.outer.findSome? (·.funcs.get? name)) := by
  unfold function? frames
  rw [List.findSome?_cons]
  cases s.frame.funcs.get? name <;> rfl

@[simp]
theorem value?_assign (v : Value) :
    (s.assign name v).value? other = if other = name then some v else s.value? other := by
  rw [value?_eq_or, value?_eq_or]
  by_cases h : other = name
  · simp [assign, h]
  · simp [assign, h]

@[simp]
theorem function?_assign (v : Value) : (s.assign name v).function? other = s.function? other := rfl

@[simp]
theorem value?_define (f : Function) : (s.define name f).value? other = s.value? other := rfl

@[simp]
theorem function?_define (f : Function) :
    (s.define name f).function? other = if other = name then some f else s.function? other := by
  rw [function?_eq_or, function?_eq_or]
  by_cases h : other = name
  · simp [define, h]
  · simp [define, h]

@[simp]
theorem value?_enter (frame : Frame) :
    (s.enter frame).value? name = (frame.vars.get? name).or (s.value? name) :=
  value?_eq_or ..

@[simp]
theorem function?_enter (frame : Frame) :
    (s.enter frame).function? name = (frame.funcs.get? name).or (s.function? name) :=
  function?_eq_or ..

end answers

private theorem get?_foldr_shadowing (frames : List Frame) (name : Bytes) :
    (frames.foldr Frame.shadowing .empty).vars.get? name = frames.findSome? (·.vars.get? name) ∧
      (frames.foldr Frame.shadowing .empty).funcs.get? name =
        frames.findSome? (·.funcs.get? name) := by
  induction frames with
  | nil => exact ⟨rfl, rfl⟩
  | cons frame rest ih =>
      simp only [List.foldr_cons, Frame.shadowing, Bindings.get?_shadowing, ih, List.findSome?_cons]
      constructor
      · cases frame.vars.get? name <;> rfl
      · cases frame.funcs.get? name <;> rfl

@[simp]
theorem value?_root_flat (s : Scope) (name : Bytes) :
    (root s.flat).value? name = s.value? name := by
  have hflat : s.flat.vars.get? name = s.value? name := (get?_foldr_shadowing s.frames name).1
  rw [value?_eq_or]
  simpa [root] using hflat

@[simp]
theorem function?_root_flat (s : Scope) (name : Bytes) :
    (root s.flat).function? name = s.function? name := by
  have hflat : s.flat.funcs.get? name = s.function? name := (get?_foldr_shadowing s.frames name).2
  rw [function?_eq_or]
  simpa [root] using hflat

end Scope

end LineLisp
