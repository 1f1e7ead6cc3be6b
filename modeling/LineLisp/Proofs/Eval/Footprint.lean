import LineLisp.Proofs.Eval.Contract
import LineLisp.Proofs.Expr.Parts
import LineLisp.Proofs.Scope.Bindings
import LineLisp.Proofs.Scope.Forest

/-!
The footprint of an evaluation. Whatever the functions called on the way do, and however the
evaluation ends, it writes to the frame that it starts from and to no other, only to names that
the expression itself assigns or defines, and it never takes a binding away.
-/

namespace LineLisp.Eval

/-- The names that a run may write, by namespace. -/
structure Writes where
  vars : Bytes → Prop
  funcs : Bytes → Prop

/-- No restriction on the names. -/
def Writes.any : Writes :=
  ⟨fun _ => True, fun _ => True⟩

/-- The names that an expression assigns or defines somewhere. -/
def Writes.of (e : Expr) : Writes :=
  ⟨(· ∈ e.targets .setq), (· ∈ e.targets .defun)⟩

/-- Whether all that an expression assigns or defines is among the names. -/
structure Writes.Cover (w : Writes) (e : Expr) : Prop where
  vars : ∀ x ∈ e.targets .setq, w.vars x
  funcs : ∀ x ∈ e.targets .defun, w.funcs x

theorem Writes.cover_of (e : Expr) : (Writes.of e).Cover e :=
  ⟨fun _ hx => hx, fun _ hx => hx⟩

theorem Writes.cover_any (e : Expr) : Writes.any.Cover e :=
  ⟨fun _ _ => trivial, fun _ _ => trivial⟩

/-- `after` differs from `before` in its innermost frame only, there only at the names of `w`,
and no binding is gone. -/
structure Footprint (w : Writes) (before after : Scope) : Prop where
  outer : after.outer = before.outer
  vars : ∀ x, ¬ w.vars x → after.frame.vars.get? x = before.frame.vars.get? x
  funcs : ∀ x, ¬ w.funcs x → after.frame.funcs.get? x = before.frame.funcs.get? x
  varsBound : ∀ x, (before.frame.vars.get? x).isSome → (after.frame.vars.get? x).isSome
  funcsBound : ∀ x, (before.frame.funcs.get? x).isSome → (after.frame.funcs.get? x).isSome

namespace Footprint

variable {w : Writes} {before after : Scope}

theorem refl (w : Writes) (s : Scope) : Footprint w s s :=
  ⟨rfl, fun _ _ => rfl, fun _ _ => rfl, fun _ h => h, fun _ h => h⟩

theorem assign (h : Footprint w before after) {name : Bytes} (hname : w.vars name) (v : Value) :
    Footprint w before (after.assign name v) where
  outer := h.outer
  vars x hx := by
    have hne : x ≠ name := fun heq => hx (heq ▸ hname)
    simpa [Scope.assign, hne] using h.vars x hx
  funcs := h.funcs
  varsBound x hx := by
    by_cases hne : x = name
    · simp [Scope.assign, hne]
    · simpa [Scope.assign, hne] using h.varsBound x hx
  funcsBound := h.funcsBound

theorem define (h : Footprint w before after) {name : Bytes} (hname : w.funcs name)
    (f : Function) : Footprint w before (after.define name f) where
  outer := h.outer
  vars := h.vars
  funcs x hx := by
    have hne : x ≠ name := fun heq => hx (heq ▸ hname)
    simpa [Scope.define, hne] using h.funcs x hx
  varsBound := h.varsBound
  funcsBound x hx := by
    by_cases hne : x = name
    · simp [Scope.define, hne]
    · simpa [Scope.define, hne] using h.funcsBound x hx

/-- Leaving a frame after a run in it gives back the scope from before, whatever was written. -/
theorem leave_enter {s : Scope} {frame : Frame} (h : Footprint w (s.enter frame) after) :
    after.leave = s := by
  obtain ⟨inner, outer⟩ := after
  obtain rfl : outer = s.frames := h.outer
  rfl

end Footprint

/-- The contract of staying within a footprint from the scope `start` on. -/
def Footprint.contract (w : Writes) (start : Scope) : Contract where
  scope := Footprint w start
  value _ := True
  function _ := True
  failure _ := True
  unfinished := True

/-- A call leaves no mark on the scopes below its own frame: what its body does is covered by
the footprint without restriction, and that frame is dropped. -/
theorem inside_keeps_footprint {w : Writes} {start : Scope} {frame : Frame} {x : Run Value}
    (hx : ∀ s, Run.Keeps (Footprint.contract .any s) (fun _ => True) x) :
    Run.Keeps (Footprint.contract w start) (fun _ => True) (Run.inside frame x) := by
  apply Run.Keeps.inside
  intro s hs
  refine ⟨Footprint.contract .any (s.enter frame), hx _, Footprint.refl _ _, ?_, fun _ => id, id⟩
  intro after hafter
  rw [Footprint.leave_enter hafter]
  exact hs

theorem footprint_sustained (w : Writes) (start : Scope) {inner : Self} (calls : List Bytes)
    (hinner : ∀ w start calls e, w.Cover e →
      Run.Keeps (Footprint.contract w start) (fun _ => True) (inner calls e)) :
    (Footprint.contract w start).Sustained inner calls w.Cover where
  elem hform he :=
    ⟨fun x hx => hform.vars x (Expr.mem_targets_of_elem he hx),
      fun x hx => hform.funcs x (Expr.mem_targets_of_elem he hx)⟩
  eval he := hinner w start calls _ he
  data _ := trivial
  int _ := trivial
  bool _ := trivial
  nil := trivial
  list _ := trivial
  failure _ _ := trivial
  value _ _ := trivial
  function _ _ := trivial
  assign hform _ hs :=
    Footprint.assign hs (hform.vars _ (Expr.target_mem_targets .setq ..)) _
  define hform _ _ hs :=
    Footprint.define hs (hform.funcs _ (Expr.target_mem_targets .defun ..)) _
  call _ _ _ := inside_keeps_footprint fun s =>
    body_keeps (c := Footprint.contract .any s)
      (fun e _ => hinner .any s _ e (Writes.cover_any e)) trivial

theorem eval_footprint (o : Options) (fuel depth : Nat) (calls : List Bytes) (e : Expr)
    (w : Writes) (start : Scope) (he : w.Cover e) :
    Run.Keeps (Footprint.contract w start) (fun _ => True) (eval o fuel depth calls e) := by
  induction fuel generalizing depth calls e w start with
  | zero => exact Run.Keeps.stop trivial
  | succ fuel ih =>
      have hsustained := footprint_sustained w start calls
        fun w start calls e he => ih (depth + 1) calls e w start he
      exact eval_keeps (fun _ => hsustained) he (fun _ _ => trivial) (fun _ _ _ => trivial)
        (fun _ => trivial)

theorem evaluate_footprint (o : Options) (e : Expr) (s : Scope) :
    Footprint (.of e) s (evaluate o e s).2 :=
  (evaluate_keeps (c := Footprint.contract (.of e) s)
    (eval_footprint o o.fuel 0 [] e (.of e) s (Writes.cover_of e)) (Footprint.refl _ _)).1

/-- An expression that assigns and defines nothing leaves the scope as it was. -/
theorem Footprint.eq_of_no_targets {e : Expr} {before after : Scope}
    (h : Footprint (.of e) before after) (hvars : ∀ x, x ∉ e.targets .setq)
    (hfuncs : ∀ x, x ∉ e.targets .defun) : after = before := by
  obtain ⟨⟨vars, funcs⟩, outer⟩ := after
  obtain ⟨⟨vars', funcs'⟩, outer'⟩ := before
  have hv : vars = vars' := Bindings.ext_get? fun x => h.vars x (hvars x)
  have hf : funcs = funcs' := Bindings.ext_get? fun x => h.funcs x (hfuncs x)
  have ho : outer = outer' := h.outer
  rw [hv, hf, ho]

/-- A form with no operator at its front assigns and defines only what its operands do. -/
theorem no_targets_of_args {op : Operator} {span head : Span} {name : Bytes} {args : List Expr}
    (hname : Operator.ofName? name = none) (hargs : ∀ e ∈ args, e.targets op = []) (x : Bytes) :
    x ∉ (Expr.form span (.symbol head name :: args)).targets op := by
  intro hx
  have hne : name ≠ op.name := by
    intro heq
    have hfound : Operator.ofName? op.name ≠ none := by
      rcases op with (_ | _ | _ | _) | (_ | _ | _ | _) | _ | _ | _ | _ | _ | _ | _ <;> decide
    exact hfound (heq ▸ hname)
  obtain ⟨e, he, hxe⟩ := Expr.mem_targets_form hne hx
  simp [hargs e he] at hxe

end LineLisp.Eval

namespace LineLisp.Forest

theorem evaluate_eq_setFrame (o : Eval.Options) (f : Forest) (i : Nat) (e : Expr) :
    (f.evaluate o i e).2 = f.setFrame i (Eval.evaluate o e (f.scope i)).2.frame :=
  f.update_eq_setFrame i _ (Eval.evaluate_footprint o e (f.scope i)).outer

/-- The scope that an evaluation leaves behind is the one found in its place. -/
theorem scope_evaluate (o : Eval.Options) {f : Forest} {i : Nat} (hi : i < f.size) (e : Expr) :
    (f.evaluate o i e).2.scope i = (Eval.evaluate o e (f.scope i)).2 := by
  have houter := (Eval.evaluate_footprint o e (f.scope i)).outer
  rw [evaluate_eq_setFrame, scope_setFrame hi, ← houter]

theorem frame_evaluate_of_ne (o : Eval.Options) (f : Forest) {i j : Nat} (e : Expr)
    (hj : j ≠ i) : (f.evaluate o i e).2.frame j = f.frame j := by
  rw [evaluate_eq_setFrame, frame_setFrame, if_neg]
  exact fun h => hj h.1.symm

/-- The footprint in the frame that an evaluation starts from. A number without a frame stays
without one. -/
theorem frame_evaluate_footprint (o : Eval.Options) (f : Forest) (i : Nat) (e : Expr) :
    Eval.Footprint (.of e) (.root (f.frame i)) (.root ((f.evaluate o i e).2.frame i)) := by
  have hprint := Eval.evaluate_footprint o e (f.scope i)
  rw [evaluate_eq_setFrame, frame_setFrame]
  by_cases h : i < f.size
  · simp only [h, and_self, if_true]
    exact ⟨rfl, hprint.vars, hprint.funcs, hprint.varsBound, hprint.funcsBound⟩
  · simp only [h, and_false, if_false]
    exact Eval.Footprint.refl _ _

/-- Evaluation in a frame of a forest, however it ends, keeps the forest and every other frame,
changes variables and functions of its own frame only at names for which the expression has a
`(setq x ...)` or `(defun x ...)`, and unbinds nothing. A call of a function is thus without
effect on all frames when its operands have neither. -/
theorem evaluate_writes_own_targets (o : Eval.Options) (f : Forest) (i : Nat) (e : Expr) :
    let after := (f.evaluate o i e).2
    (after.size = f.size ∧ ∀ j, after.parent? j = f.parent? j) ∧
    (∀ j, j ≠ i → after.frame j = f.frame j) ∧
    (∀ x, x ∉ e.targets .setq →
      (after.frame i).vars.get? x = (f.frame i).vars.get? x) ∧
    (∀ x, x ∉ e.targets .defun →
      (after.frame i).funcs.get? x = (f.frame i).funcs.get? x) ∧
    (∀ x, ((f.frame i).vars.get? x).isSome → ((after.frame i).vars.get? x).isSome) ∧
    (∀ x, ((f.frame i).funcs.get? x).isSome → ((after.frame i).funcs.get? x).isSome) ∧
    (∀ span head name args, e = .form span (.symbol head name :: args) →
      Operator.ofName? name = none →
      (∀ a ∈ args, a.targets .setq = [] ∧ a.targets .defun = []) →
      ∀ j, after.frame j = f.frame j) := by
  intro after
  have hprint := f.frame_evaluate_footprint o i e
  refine ⟨⟨?_, ?_⟩, fun j hj => f.frame_evaluate_of_ne o e hj, hprint.vars, hprint.funcs,
    hprint.varsBound, hprint.funcsBound, ?_⟩
  · simp [after, evaluate_eq_setFrame]
  · simp [after, evaluate_eq_setFrame]
  · intro span head name args he hname hargs j
    by_cases hj : j = i
    · subst hj he
      have hsame := hprint.eq_of_no_targets
        (Eval.no_targets_of_args hname fun a ha => (hargs a ha).1)
        (Eval.no_targets_of_args hname fun a ha => (hargs a ha).2)
      exact congrArg Scope.frame hsame
    · exact f.frame_evaluate_of_ne o e hj

/-- A function that assigns `x` when it is called from a child frame writes to neither frame. -/
theorem evaluate_writes_own_targets_call :
    let call : Expr := .form .zero [.symbol .zero (utf8 "f")]
    let assign : Expr := .form .zero [.symbol .zero (utf8 "setq"), .symbol .zero (utf8 "x"),
      .int .zero 1]
    let f := ((Forest.empty.addRoot.define 0 (utf8 "f") ⟨utf8 "f", [], [assign]⟩).addChild 0)
    Operator.ofName? (utf8 "f") = none ∧
      ∀ j, (f.evaluate .standard 1 call).2.frame j = f.frame j := by
  have hname : Operator.ofName? (utf8 "f") = none := by decide +kernel
  refine ⟨hname, ?_⟩
  exact (evaluate_writes_own_targets .standard _ 1 _).2.2.2.2.2.2 .zero .zero (utf8 "f") [] rfl
    hname (by simp)

end LineLisp.Forest
