import LineLisp.Proofs.Scope.Bindings
import LineLisp.Scope

/-!
Scopes in which every binding is as described. Whatever the description, look-ups find nothing else,
and a scope stays as described when frames come and go and when what is written is as described.
-/

namespace LineLisp

/-- Whether all variables and all functions in a frame are as described, each with its name. -/
structure Frame.Each (var : Bytes → Value → Prop) (func : Bytes → Function → Prop)
    (f : Frame) : Prop where
  vars : ∀ x v, (x, v) ∈ f.vars.entries → var x v
  funcs : ∀ x fn, (x, fn) ∈ f.funcs.entries → func x fn

/-- Whether all frames of a scope are as described. -/
def Scope.Each (var : Bytes → Value → Prop) (func : Bytes → Function → Prop) (s : Scope) : Prop :=
  ∀ f ∈ s.frames, f.Each var func

section each

variable {var var' : Bytes → Value → Prop} {func func' : Bytes → Function → Prop}

namespace Frame.Each

variable {f : Frame}

theorem empty : Frame.empty.Each var func :=
  ⟨by simp [Frame.empty, Bindings.empty], by simp [Frame.empty, Bindings.empty]⟩

theorem imp (h : f.Each var func) (hvar : ∀ x v, var x v → var' x v)
    (hfunc : ∀ x fn, func x fn → func' x fn) : f.Each var' func' :=
  ⟨fun x v hx => hvar x v (h.vars x v hx), fun x fn hx => hfunc x fn (h.funcs x fn hx)⟩

theorem insertVar (h : f.Each var func) {name : Bytes} {v : Value} (hv : var name v) :
    Frame.Each var func ⟨f.vars.insert name v, f.funcs⟩ := by
  refine ⟨?_, h.funcs⟩
  intro x u hx
  rcases Bindings.mem_place hx with heq | hx
  · cases heq
    exact hv
  · exact h.vars x u hx

theorem insertFunc (h : f.Each var func) {name : Bytes} {fn : Function} (hfn : func name fn) :
    Frame.Each var func ⟨f.vars, f.funcs.insert name fn⟩ := by
  refine ⟨h.vars, ?_⟩
  intro x g hx
  rcases Bindings.mem_place hx with heq | hx
  · cases heq
    exact hfn
  · exact h.funcs x g hx

end Frame.Each

namespace Scope.Each

variable {s : Scope}

theorem root {frame : Frame} (h : frame.Each var func) : (Scope.root frame).Each var func := by
  simpa [Scope.Each, Scope.root, Scope.frames] using h

theorem imp (h : s.Each var func) (hvar : ∀ x v, var x v → var' x v)
    (hfunc : ∀ x fn, func x fn → func' x fn) : s.Each var' func' :=
  fun f hf => (h f hf).imp hvar hfunc

theorem enter (h : s.Each var func) {frame : Frame} (hframe : frame.Each var func) :
    (s.enter frame).Each var func := by
  intro f hf
  rcases List.mem_cons.mp hf with rfl | hf
  · exact hframe
  · exact h f hf

theorem leave (h : s.Each var func) : s.leave.Each var func := by
  obtain ⟨frame, outer⟩ := s
  cases outer with
  | nil => exact h
  | cons next outer => exact fun f hf => h f (List.mem_cons_of_mem _ hf)

theorem assign (h : s.Each var func) {name : Bytes} {v : Value} (hv : var name v) :
    (s.assign name v).Each var func := by
  intro f hf
  rcases List.mem_cons.mp hf with rfl | hf
  · exact (h s.frame (List.mem_cons_self ..)).insertVar hv
  · exact h f (List.mem_cons_of_mem _ hf)

theorem define (h : s.Each var func) {name : Bytes} {fn : Function} (hfn : func name fn) :
    (s.define name fn).Each var func := by
  intro f hf
  rcases List.mem_cons.mp hf with rfl | hf
  · exact (h s.frame (List.mem_cons_self ..)).insertFunc hfn
  · exact h f (List.mem_cons_of_mem _ hf)

theorem value (h : s.Each var func) {name : Bytes} {v : Value} (hv : s.value? name = some v) :
    var name v := by
  obtain ⟨f, hf, hget⟩ := List.exists_of_findSome?_eq_some hv
  exact (h f hf).vars name v (Bindings.mem_entries_of_get? hget)

theorem function (h : s.Each var func) {name : Bytes} {fn : Function}
    (hfn : s.function? name = some fn) : func name fn := by
  obtain ⟨f, hf, hget⟩ := List.exists_of_findSome?_eq_some hfn
  exact (h f hf).funcs name fn (Bindings.mem_entries_of_get? hget)

end Scope.Each

end each

end LineLisp
