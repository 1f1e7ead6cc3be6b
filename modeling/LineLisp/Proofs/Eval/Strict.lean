import LineLisp.Proofs.Eval.Depth

/-!
Strict symbols. Evaluation with strict symbols differs from evaluation without at one place, an
unbound symbol, and there it fails at once. The failure is passed on as it is by everything around
it, so a strict evaluation that comes to anything else has gone the same way as a lax one. A lax
evaluation never fails for an unbound symbol.
-/

namespace LineLisp.Eval

variable {limit : DepthLimit} {fuel depth : Nat} {calls : List Bytes} {e : Expr} {s : Scope}

theorem Options.strict_extends (limit : DepthLimit) :
    Options.Extends (· = .unboundVariable) ⟨true, limit⟩ ⟨false, limit⟩ where
  within := id
  beyond := .inr
  strict _ := .inl rfl
  lax := nofun

/-- A strict run fails for an unbound symbol or is the lax run. -/
theorem eval_strict_cases :
    (∃ failure s', eval ⟨true, limit⟩ fuel depth calls e s = .failed failure s' ∧
      failure.fault.kind = .unboundVariable) ∨
    eval ⟨true, limit⟩ fuel depth calls e s = eval ⟨false, limit⟩ fuel depth calls e s := by
  -- With the same fuel on both sides nothing is excused but the failure for a symbol.
  let p : Pairing := { Pairing.identity (· = .unboundVariable) with lenient := False }
  have hmatches : (eval ⟨true, limit⟩ fuel depth calls e s).Matches p
      (eval ⟨false, limit⟩ fuel depth calls e s) :=
    (Options.strict_extends limit).eval_matches (.inl rfl) depth calls e s s rfl
  cases hrun : eval ⟨true, limit⟩ fuel depth calls e s with
  | done v s' =>
      rw [hrun] at hmatches
      obtain ⟨_, hsecond, rfl⟩ := hmatches
      exact .inr hsecond.symm
  | failed failure s' =>
      rw [hrun] at hmatches
      rcases hmatches with hunbound | ⟨_, _, hsecond, rfl, rfl⟩
      · exact .inl ⟨failure, s', rfl, hunbound⟩
      · exact .inr hsecond.symm
  | unfinished =>
      rw [hrun] at hmatches
      rcases hmatches with hlenient | hsecond
      · exact hlenient.elim
      · exact .inr hsecond.symm

/-- The contract of runs that never fail for an unbound symbol. -/
def neverUnbound : Contract :=
  .ends (fun failure => failure.fault.kind ≠ .unboundVariable) True

theorem Fault.kind_ne_unbound_of_isOfForm {fault : Fault} (h : fault.isOfForm) :
    fault.kind ≠ .unboundVariable := by
  cases fault <;> simp_all [Fault.isOfForm, Fault.kind]

theorem eval_lax_keeps (limit : DepthLimit) (fuel depth : Nat) (calls : List Bytes) (e : Expr) :
    Run.Keeps neverUnbound (fun _ => True) (eval ⟨false, limit⟩ fuel depth calls e) := by
  induction fuel generalizing depth calls e with
  | zero => exact .stop trivial
  | succ fuel ih =>
      have hlevel : neverUnbound.Sustained (eval ⟨false, limit⟩ fuel (depth + 1)) calls
          fun _ => True :=
        ends_sustained (fun _ _ => Fault.kind_ne_unbound_of_isOfForm) fun calls e =>
          ih (depth + 1) calls e
      exact eval_keeps (fun _ => hlevel) trivial (fun _ _ => nofun) nofun fun _ => nofun

theorem eval_lax_not_unbound {failure : Failure} {s' : Scope}
    (h : eval ⟨false, limit⟩ fuel depth calls e s = .failed failure s') :
    failure.fault.kind ≠ .unboundVariable := by
  have hkeeps := eval_lax_keeps limit fuel depth calls e s trivial
  unfold Run.Ensures at hkeeps
  rw [h] at hkeeps
  exact hkeeps.1

end LineLisp.Eval

namespace LineLisp.Forest

open Eval (eval)

/-- Strict symbols only add failures for unbound variables. Under any limit, an evaluation in a
frame of a forest with strict symbols either fails for an unbound variable or has the result of the
evaluation without and leaves the same forest behind, and the latter never fails for an unbound
variable. The same holds under any fuel, so that of two evaluations without a limit the strict one
ends whenever the other does, and without such a failure also the other way round. -/
theorem strict_symbols_only_add_unbound (limit : DepthLimit) (f : Forest) (i : Nat) (e : Expr) :
    let strict := f.evaluate ⟨true, limit⟩ i e
    let lax := f.evaluate ⟨false, limit⟩ i e
    ((∃ d, strict.1 = .failure d ∧ d.kind = .unboundVariable) ∨ strict = lax) ∧
    (∀ d, lax.1 = .failure d → d.kind ≠ .unboundVariable) ∧
    ∀ fuel,
      let strictRun := eval ⟨true, limit⟩ fuel 0 [] e (f.scope i)
      let laxRun := eval ⟨false, limit⟩ fuel 0 [] e (f.scope i)
      ((∃ failure s, strictRun = .failed failure s ∧ failure.fault.kind = .unboundVariable) ∨
        strictRun = laxRun) ∧
      ∀ failure s, laxRun = .failed failure s → failure.fault.kind ≠ .unboundVariable := by
  intro strict lax
  refine ⟨?_, ?_, fun fuel => ⟨Eval.eval_strict_cases, fun _ _ => Eval.eval_lax_not_unbound⟩⟩
  · have hcases : (∃ failure s', Eval.run ⟨true, limit⟩ e (f.scope i) = .failed failure s' ∧
        failure.fault.kind = .unboundVariable) ∨
        Eval.run ⟨true, limit⟩ e (f.scope i) = Eval.run ⟨false, limit⟩ e (f.scope i) :=
      Eval.eval_strict_cases
    rcases hcases with ⟨failure, s', hrun, hunbound⟩ | hsame
    · refine .inl ⟨failure.diagnostic, ?_, hunbound⟩
      simp only [strict, evaluate, Eval.evaluate, hrun]
    · right
      simp only [strict, lax, evaluate, Eval.evaluate, hsame]
  · intro d hd
    change (Eval.evaluate ⟨false, limit⟩ e (f.scope i)).1 = .failure d at hd
    unfold Eval.evaluate at hd
    cases hrun : Eval.run ⟨false, limit⟩ e (f.scope i) with
    | done v s' => simp [hrun] at hd
    | failed failure s' =>
        obtain rfl : failure.diagnostic = d := by simpa [hrun] using hd
        exact Eval.eval_lax_not_unbound hrun
    | unfinished => simp [hrun] at hd

end LineLisp.Forest
