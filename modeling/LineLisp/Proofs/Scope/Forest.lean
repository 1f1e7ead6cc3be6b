import LineLisp.Scope.Forest

/-!
Forests of frames. A chain goes from a frame to ever smaller numbers, so writing back a scope
whose outer frames are as before changes the frame that it starts from and nothing else.
-/

namespace LineLisp.Forest

theorem chain_eq_cons (f : Forest) (i : Nat) : f.chain i = i :: (f.chain i).tail := by
  unfold chain
  split
  · rfl
  · split <;> rfl

theorem lt_of_mem_chain_tail (f : Forest) (i : Nat) : ∀ j ∈ (f.chain i).tail, j < i := by
  induction i using Nat.strongRecOn with
  | ind i ih =>
      intro j hj
      rw [chain] at hj
      split at hj
      · simp at hj
      · rename_i p hp
        split at hj
        · rename_i hlt
          rw [List.tail_cons, chain_eq_cons] at hj
          rcases List.mem_cons.mp hj with rfl | hj
          · exact hlt
          · exact Nat.lt_trans (ih p hlt j hj) hlt
        · simp at hj

@[simp]
theorem size_setFrame (f : Forest) (i : Nat) (frame : Frame) :
    (f.setFrame i frame).size = f.size := by
  simp [setFrame, size]

@[simp]
theorem parent?_setFrame (f : Forest) (i j : Nat) (frame : Frame) :
    (f.setFrame i frame).parent? j = f.parent? j := by
  simp only [setFrame, parent?, List.getElem?_modify]
  cases f.nodes[j]? with
  | none => rfl
  | some node => by_cases h : i = j <;> simp [h]

theorem frame_setFrame (f : Forest) (i j : Nat) (frame : Frame) :
    (f.setFrame i frame).frame j = if i = j ∧ i < f.size then frame else f.frame j := by
  simp only [setFrame, Forest.frame, List.getElem?_modify, size]
  by_cases h : i = j
  · subst h
    by_cases hlt : i < f.nodes.length
    · simp [hlt]
    · simp [hlt]
  · simp [h]

theorem setFrame_frame (f : Forest) (i : Nat) : f.setFrame i (f.frame i) = f := by
  obtain ⟨nodes⟩ := f
  simp only [setFrame, Forest.frame, mk.injEq]
  apply List.ext_getElem?
  intro j
  rw [List.getElem?_modify]
  by_cases h : i = j
  · subst h
    cases nodes[i]? with
    | none => rfl
    | some node => simp
  · simp [h]

theorem setFrame_setFrame (f : Forest) (i : Nat) (frame frame' : Frame) :
    (f.setFrame i frame).setFrame i frame' = f.setFrame i frame' := by
  obtain ⟨nodes⟩ := f
  simp only [setFrame, mk.injEq]
  apply List.ext_getElem?
  intro j
  simp only [List.getElem?_modify]
  by_cases h : i = j
  · subst h
    cases nodes[i]? <;> simp
  · simp [h]

/-- Writing back what the frames hold already changes nothing. -/
private theorem foldl_setFrame_same (f : Forest) (numbers : List Nat) (g : Forest)
    (h : ∀ j ∈ numbers, g.frame j = f.frame j) :
    (numbers.zip (numbers.map f.frame)).foldl (fun f (j, frame) => f.setFrame j frame) g = g := by
  induction numbers with
  | nil => rfl
  | cons j rest ih =>
      have hj : g.frame j = f.frame j := h j (by simp)
      simp only [List.map_cons, List.zip_cons_cons, List.foldl_cons]
      rw [← hj, setFrame_frame]
      exact ih fun j hj => h j (by simp [hj])

theorem update_eq_setFrame (f : Forest) (i : Nat) (s : Scope)
    (h : s.outer = (f.scope i).outer) : f.update i s = f.setFrame i s.frame := by
  unfold update
  rw [chain_eq_cons, Scope.frames, h, scope, List.zip_cons_cons, List.foldl_cons]
  apply foldl_setFrame_same
  intro j hj
  have hlt := f.lt_of_mem_chain_tail i j hj
  rw [frame_setFrame, if_neg]
  omega

theorem assign_eq_setFrame (f : Forest) (i : Nat) (name : Bytes) (v : Value) :
    f.assign i name v = f.setFrame i ⟨(f.frame i).vars.insert name v, (f.frame i).funcs⟩ :=
  f.update_eq_setFrame i _ rfl

theorem define_eq_setFrame (f : Forest) (i : Nat) (name : Bytes) (fn : Function) :
    f.define i name fn = f.setFrame i ⟨(f.frame i).vars, (f.frame i).funcs.insert name fn⟩ :=
  f.update_eq_setFrame i _ rfl

@[simp]
theorem chain_setFrame (f : Forest) (i j : Nat) (frame : Frame) :
    (f.setFrame i frame).chain j = f.chain j := by
  induction j using Nat.strongRecOn with
  | ind j ih =>
      unfold chain
      rw [parent?_setFrame]
      split
      · rfl
      · split
        · rename_i p _ hlt
          rw [ih p hlt]
        · rfl

/-- The scope at a frame that is written anew. -/
theorem scope_setFrame {f : Forest} {i : Nat} (hi : i < f.size) (frame : Frame) :
    (f.setFrame i frame).scope i = ⟨frame, (f.scope i).outer⟩ := by
  have houter : ∀ j ∈ (f.chain i).tail, (f.setFrame i frame).frame j = f.frame j := by
    intro j hj
    have hlt := f.lt_of_mem_chain_tail i j hj
    rw [frame_setFrame, if_neg]
    omega
  unfold scope
  rw [frame_setFrame, if_pos ⟨rfl, hi⟩, chain_setFrame, List.map_congr_left houter]

/-- Scopes that are written back one after the other, each with the outer frames from before, come
to the last of them. -/
theorem update_update (f : Forest) (i : Nat) {s t : Scope} (hs : s.outer = (f.scope i).outer)
    (ht : t.outer = (f.scope i).outer) (hi : i < f.size) :
    (f.update i s).scope i = s ∧ (f.update i s).update i t = f.update i t := by
  have hscope : (f.update i s).scope i = s := by
    rw [f.update_eq_setFrame i s hs, scope_setFrame hi, ← hs]
  refine ⟨hscope, ?_⟩
  rw [update_eq_setFrame _ i t (by rw [hscope, hs, ht]), f.update_eq_setFrame i s hs,
    f.update_eq_setFrame i t ht, setFrame_setFrame]

theorem frames_scope (f : Forest) (i : Nat) : (f.scope i).frames = (f.chain i).map f.frame := by
  rw [chain_eq_cons]
  rfl

/-- A frame that answers like the one in its place changes no look-up, from wherever it starts. -/
theorem findSome?_setFrame {α : Type} (get : Frame → Option α) {f : Forest} {k : Nat}
    {frame : Frame} (h : get frame = get (f.frame k)) (i : Nat) :
    ((f.setFrame k frame).scope i).frames.findSome? get = (f.scope i).frames.findSome? get := by
  have hframe : ∀ j, get ((f.setFrame k frame).frame j) = get (f.frame j) := by
    intro j
    rw [frame_setFrame]
    split
    · rename_i hj
      rw [h, hj.1]
    · rfl
  rw [frames_scope, frames_scope, chain_setFrame, List.findSome?_map, List.findSome?_map]
  exact congrArg (List.findSome? · _) (funext hframe)

end LineLisp.Forest
