import LineLisp.Proofs.Eval.Footprint
import LineLisp.Proofs.Eval.Strict
import LineLisp.Proofs.Scope.Unplaced

/-!
The names of operators. A function may be defined under the name of an operator, but a form that
begins with that name never comes to it, and it is seen nowhere else either, except that a strict
evaluation tells of an unbound symbol whether there is a function of its name. So scopes that differ
in such functions only cannot be told apart, and whatever is defined in them in the course of an
evaluation, they do not come to differ in anything else.
-/

namespace LineLisp

/-- Whether two frames bind the same, apart from functions under the names of operators. -/
structure Frame.SameButOperators (first second : Frame) : Prop where
  vars : first.vars = second.vars
  funcs : ∀ name, Operator.ofName? name = none → first.funcs.get? name = second.funcs.get? name

namespace Scope

/-- Whether two chains of frames bind the same, frame by frame, apart from functions under the names
of operators. -/
def SameButOperators (s t : Scope) : Prop :=
  List.Forall₂ Frame.SameButOperators s.frames t.frames

namespace SameButOperators

variable {s t : Scope}

theorem value? (h : s.SameButOperators t) (name : Bytes) : s.value? name = t.value? name :=
  findSome?_eq_of_forall₂ (h.imp fun _ _ hframe => by rw [hframe.vars])

theorem function? (h : s.SameButOperators t) {name : Bytes} (hname : Operator.ofName? name = none) :
    s.function? name = t.function? name :=
  findSome?_eq_of_forall₂ (h.imp fun _ _ hframe => hframe.funcs name hname)

theorem assign (h : s.SameButOperators t) (name : Bytes) (v : Value) :
    (s.assign name v).SameButOperators (t.assign name v) := by
  obtain - | ⟨hframe, houter⟩ := h
  refine .cons ⟨?_, hframe.funcs⟩ houter
  exact congrArg (Bindings.insert · name v) hframe.vars

theorem define (h : s.SameButOperators t) (name : Bytes) (f : Function) :
    (s.define name f).SameButOperators (t.define name f) := by
  obtain - | ⟨hframe, houter⟩ := h
  refine .cons ⟨hframe.vars, fun other hother => ?_⟩ houter
  simp only [Scope.define, Bindings.get?_insert, hframe.funcs other hother]

theorem enter (h : s.SameButOperators t) (frame : Frame) :
    (s.enter frame).SameButOperators (t.enter frame) :=
  .cons ⟨rfl, fun _ _ => rfl⟩ h

theorem leave (h : s.SameButOperators t) : s.leave.SameButOperators t.leave :=
  forall₂_leave h

end SameButOperators

end Scope

namespace Eval

/-- Whether two failures are the same, or are for the same unbound symbol and differ in whether
there is a function of its name. -/
inductive Failure.SameButFunction : Failure → Failure → Prop where
  | refl (failure : Failure) : SameButFunction failure failure
  | unbound (name : Bytes) (isFunction isFunction' : Bool) (span : Span) (calls : List Bytes) :
      SameButFunction ⟨.unbound name isFunction, span, calls⟩
        ⟨.unbound name isFunction', span, calls⟩

theorem Failure.SameButFunction.diagnostic {first second : Failure}
    (h : first.SameButFunction second) :
    second.diagnostic = { first.diagnostic with hint := second.diagnostic.hint } := by
  cases h with
  | refl => rfl
  | unbound => rfl

/-- Only for an unbound symbol is there a difference. -/
theorem Failure.SameButFunction.eq {first second : Failure} (h : first.SameButFunction second)
    (hkind : first.fault.kind ≠ .unboundVariable) : first = second := by
  cases h with
  | refl => rfl
  | unbound => exact absurd rfl hkind

/-- The pairing of runs in scopes that differ in functions under the names of operators only. -/
def Pairing.butOperators : Pairing where
  scope := Scope.SameButOperators
  function := Eq
  failure := Failure.SameButFunction
  excused _ := False
  lenient := False

theorem butOperators_exact : Pairing.butOperators.Exact :=
  ⟨fun _ => id, id⟩

theorem butOperators_sustained {inner inner' : Self} (calls : List Bytes)
    (hinner : ∀ calls e, Run.Matches .butOperators (inner calls e) (inner' calls e)) :
    Pairing.butOperators.Sustained inner inner' calls Eq where
  alike := by
    rintro e _ rfl
    exact identity_alike e
  eval := by
    rintro e _ rfl
    exact hinner calls e
  data := by
    rintro e _ rfl
    rfl
  failure := by
    rintro fault fault' e _ hfault rfl
    rw [hfault.eq id]
    exact .refl _
  value _ hst := Scope.SameButOperators.value? hst _
  function := by
    intro span span' name s t _ hname hst
    rw [Scope.SameButOperators.function? hst hname]
    cases t.function? name with
    | none => exact .none
    | some f => exact .some rfl
  unbound := by
    rintro span _ name s t ⟨⟩ -
    exact .unbound ..
  assign _ hst := Scope.SameButOperators.assign hst _ _
  define := by
    intro span span' name names body body' s t _ hbody hst
    rw [List.forall₂_eq_eq_eq] at hbody
    rw [hbody]
    exact Scope.SameButOperators.define hst _ _
  signature := by
    rintro f _ rfl
    exact ⟨rfl, rfl⟩
  call := by
    rintro f _ rfl vs
    refine Run.Matches.inside fun s t hst =>
      ⟨.butOperators, ?_, ?_, ?_, fun _ _ => id, fun _ => id, id⟩
    · exact body_matches (List.forall₂_same.mpr fun e _ => hinner _ e) .nil
    · exact Scope.SameButOperators.enter hst _
    · exact fun s' t' hst' => Scope.SameButOperators.leave hst'

/-- Functions under the names of operators do not change how an evaluation goes. -/
theorem eval_butOperators (o : Options) (fuel depth : Nat) (calls : List Bytes) (e : Expr) :
    Run.Matches .butOperators (eval o fuel depth calls e) (eval o fuel depth calls e) := by
  induction fuel generalizing depth calls e with
  | zero => exact fun _ _ _ => .inr rfl
  | succ fuel ih =>
      refine eval_matches Eq rfl ?_ ?_ (fun _ _ => .inr) id
      · intro hcrossed
        exact ⟨hcrossed, butOperators_sustained calls fun calls e => ih (depth + 1) calls e⟩
      · intro n hcrossed
        exact .inr ⟨hcrossed, .refl _⟩

/-- Only strict symbols can be unbound. -/
theorem strict_of_unbound {o : Options} {e : Expr} {s : Scope} {d : Diagnostic}
    (h : (evaluate o e s).1 = .failure d) (hkind : d.kind = .unboundVariable) :
    o.strict = true := by
  obtain ⟨strict, limit⟩ := o
  cases strict with
  | true => rfl
  | false =>
      have hkeeps := eval_lax_keeps limit (Options.fuel ⟨false, limit⟩) 0 [] e
      obtain ⟨failure, hnot, rfl⟩ := evaluate_fails (c := neverUnbound) hkeeps trivial h
      exact absurd hkind hnot

end Eval

namespace Forest

open Eval (Options eval)

/-- Functions cannot take the place of operators. Let two frames be at the front of chains that bind
the same, frame by frame, apart from functions under the names of operators. Under any fuel,
evaluation ends for both or for neither. A whole evaluation gives the same result, except that the
diagnostics of a strict one for an unbound variable may differ in their hint. The chains that it
leaves behind bind the same again apart from such functions. -/
theorem functions_never_replace_operators (o : Options) (e : Expr) {f g : Forest} {i j : Nat}
    (hi : i < f.size) (hj : j < g.size) (hscopes : (f.scope i).SameButOperators (g.scope j)) :
    let first := f.evaluate o i e
    let second := g.evaluate o j e
    (∀ fuel, eval o fuel 0 [] e (f.scope i) = .unfinished ↔
      eval o fuel 0 [] e (g.scope j) = .unfinished) ∧
    (first.1 = second.1 ∨ o.strict = true ∧ ∃ d hint, first.1 = .failure d ∧
      d.kind = .unboundVariable ∧ second.1 = .failure { d with hint := hint }) ∧
    (first.2.scope i).SameButOperators (second.2.scope j) := by
  intro first second
  have hmatches := fun fuel => Eval.eval_butOperators o fuel 0 [] e
  have hends := fun fuel => (hmatches fuel _ _ hscopes).unfinished_iff Eval.butOperators_exact
  obtain ⟨hresult, hafter⟩ :=
    Eval.evaluate_matches Eval.butOperators_exact (hmatches o.fuel) hscopes
  rw [← scope_evaluate o hi, ← scope_evaluate o hj] at hafter
  change first.1.Matches Eval.Pairing.butOperators second.1 at hresult
  refine ⟨hends, ?_, hafter⟩
  cases hfirst : first.1 with
  | value v =>
      rw [hfirst] at hresult
      exact .inl hresult.symm
  | unfinished =>
      rw [hfirst] at hresult
      exact .inl hresult.symm
  | failure d =>
      rw [hfirst] at hresult
      obtain ⟨failure, failure', rfl, hsecond, hfailure⟩ := hresult
      -- The kind of the failure decides which of the two holds; a lax evaluation has no unbound ones.
      by_cases hkind : failure.fault.kind = .unboundVariable
      · refine .inr ⟨?_, _, failure'.diagnostic.hint, rfl, hkind, hfailure.diagnostic ▸ hsecond⟩
        exact Eval.strict_of_unbound hfirst hkind
      · rw [hsecond, hfailure.eq hkind]
        exact .inl rfl

/-- A function under the name of addition is not called by a sum. A strict symbol of that name is
unbound with it as without it, for which there are two hints. -/
theorem functions_never_replace_operators_sum :
    let plus : Expr := .symbol .zero (utf8 "+")
    let sum : Expr := .form .zero [plus, .int .zero 1, .int .zero 2]
    let f := empty.addRoot.define 0 (utf8 "+") ⟨utf8 "+", [], [.int .zero 0]⟩
    let g := empty.addRoot
    let strict : Options := ⟨true, .standard⟩
    (f.scope 0).SameButOperators (g.scope 0) ∧ (f.function? 0 (utf8 "+")).isSome ∧
      (g.evaluate .standard 0 sum).1 = .value (.int 3) ∧
      (f.evaluate .standard 0 sum).1 = .value (.int 3) ∧
      ∃ d hint, (f.evaluate strict 0 plus).1 = .failure d ∧ hint ≠ d.hint ∧
        (g.evaluate strict 0 plus).1 = .failure { d with hint := hint } := by
  intro plus sum f g strict
  let funcs : Bindings Function :=
    Bindings.empty.insert (utf8 "+") ⟨utf8 "+", [], [.int .zero 0]⟩
  have hf : f.scope 0 = ⟨⟨.empty, funcs⟩, []⟩ := by with_unfolding_all rfl
  have hg : g.scope 0 = ⟨.empty, []⟩ := by with_unfolding_all rfl
  have hscopes : (f.scope 0).SameButOperators (g.scope 0) := by
    rw [hf, hg]
    refine .cons ⟨rfl, fun name hname => ?_⟩ .nil
    have hne : name ≠ utf8 "+" := by
      rintro rfl
      revert hname
      decide
    simp [funcs, hne, Frame.empty]
  have hi : 0 < f.size := by decide +kernel
  have hj : 0 < g.size := by decide +kernel
  have hsum : (g.evaluate .standard 0 sum).1 = .value (.int 3) := by with_unfolding_all rfl
  have hwith : (f.evaluate strict 0 plus).1 = .failure ⟨.unboundVariable,
      utf8 "undefined variable '+'", .zero, utf8 "'+' is a function; call it as (+ ...)", []⟩ := by
    with_unfolding_all rfl
  have hwithout : (g.evaluate strict 0 plus).1 = .failure ⟨.unboundVariable,
      utf8 "undefined variable '+'", .zero, utf8 "use '+ to write a symbol", []⟩ := by
    with_unfolding_all rfl
  have hhints : utf8 "use '+ to write a symbol" ≠ utf8 "'+' is a function; call it as (+ ...)" := by
    decide
  obtain ⟨-, hsame | ⟨hlax, -⟩, -⟩ := functions_never_replace_operators .standard sum hi hj hscopes
  · obtain ⟨-, hplus | ⟨-, d, hint, hfirst, -, hsecond⟩, -⟩ :=
      functions_never_replace_operators strict plus hi hj hscopes
    · rw [hwith, hwithout, Eval.Result.failure.injEq] at hplus
      exact absurd (congrArg Diagnostic.hint hplus).symm hhints
    · obtain rfl := Eval.Result.failure.inj (hwith.symm.trans hfirst)
      obtain rfl := congrArg Diagnostic.hint (Eval.Result.failure.inj (hwithout.symm.trans hsecond))
      refine ⟨hscopes, ?_, hsum, hsame.trans hsum, _, _, hfirst, hhints, hsecond⟩
      simp [function?, hf, Scope.function?_eq_or, funcs]
  · cases hlax

end Forest

end LineLisp
