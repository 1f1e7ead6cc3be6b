import LineLisp.Proofs.Eval.Equations
import LineLisp.Proofs.Eval.Footprint
import LineLisp.Proofs.Expr.Grammar

/-!
The clauses of a `cond`. Their tests are evaluated in order, each in the scope that the tests before
it leave behind, up to the first that is truthy. So clauses that select one of them, or fail, never
come to the clauses after them, which may be anything, and clauses that are all passed over count
for nothing but the scope that their tests leave behind.
-/

namespace LineLisp.Eval

/-- Whether clauses are all passed over: their tests, evaluated in order from `s` on, come to values
that are not truthy, and leave `t` behind. -/
inductive Passes (self : Expr → Run Value) : List Expr → (s t : Scope) → Prop where
  | nil (s : Scope) : Passes self [] s s
  | cons {span : Span} {test : Expr} {rest more : List Expr} {v : Value} {s t u : Scope}
      (htest : self test s = .done v t) (hfalsy : v.isTruthy = false)
      (hmore : Passes self more t u) : Passes self (.form span (test :: rest) :: more) s u

/-- Whether one of the clauses is selected: those before it are passed over, and its test is
truthy. -/
def Selects (self : Expr → Run Value) (clauses : List Expr) (s : Scope) : Prop :=
  ∃ before span test rest after, clauses = before ++ .form span (test :: rest) :: after ∧
    ∃ t v u, Passes self before s t ∧ self test t = .done v u ∧ v.isTruthy = true

section clauses

variable {self : Self} {calls : List Bytes} {cs : List Expr} {s t : Scope}

theorem clauses_of_falsy {test : Expr} {v : Value} (htest : self calls test s = .done v t)
    (hfalsy : v.isTruthy = false) (span : Span) (rest more : List Expr) :
    clauses self calls (.form span (test :: rest) :: more) s = clauses self calls more t := by
  rw [clauses, bind_of_done htest, hfalsy]
  rfl

theorem clauses_of_truthy {test : Expr} {v : Value} (htest : self calls test s = .done v t)
    (htruthy : v.isTruthy = true) (span : Span) (rest more : List Expr) :
    clauses self calls (.form span (test :: rest) :: more) s = body (self calls) v rest t := by
  rw [clauses, bind_of_done htest, htruthy]
  rfl

theorem Passes.clauses_append (h : Passes (self calls) cs s t) (ds : List Expr) :
    clauses self calls (cs ++ ds) s = clauses self calls ds t := by
  induction h with
  | nil s => rfl
  | cons htest hfalsy _ ih =>
      rw [List.cons_append, clauses_of_falsy htest hfalsy]
      exact ih

theorem Selects.clauses_append (h : Selects (self calls) cs s) (ds : List Expr) :
    clauses self calls (cs ++ ds) s = clauses self calls cs s := by
  obtain ⟨before, span, test, rest, after, rfl, t, v, u, hbefore, htest, htruthy⟩ := h
  rw [List.append_assoc, hbefore.clauses_append, hbefore.clauses_append, List.cons_append,
    clauses_of_truthy htest htruthy, clauses_of_truthy htest htruthy]

theorem Selects.cons {span : Span} {test : Expr} {rest : List Expr} {v : Value}
    (htest : self calls test s = .done v t) (hfalsy : v.isTruthy = false)
    (h : Selects (self calls) cs t) : Selects (self calls) (.form span (test :: rest) :: cs) s := by
  obtain ⟨before, span', test', rest', after, rfl, u, v', w, hbefore, htest', htruthy⟩ := h
  exact ⟨_ :: before, span', test', rest', after, rfl, u, v', w, .cons htest hfalsy hbefore, htest',
    htruthy⟩

/-- Whether a run ends without a value, or does not end. -/
def Outcome.Stops {α : Type} : Outcome α → Prop
  | .done _ _ => False
  | .failed _ _ | .unfinished => True

/-- Clauses that neither select one nor are all passed over stop on the way, before whatever clauses
follow. -/
theorem clauses_cases (self : Self) (calls : List Bytes) (cs : List Expr) (s : Scope) :
    Selects (self calls) cs s ∨ (∃ t, Passes (self calls) cs s t) ∨
      ((clauses self calls cs s).Stops ∧
        ∀ ds, clauses self calls (cs ++ ds) s = clauses self calls cs s) := by
  induction cs generalizing s with
  | nil => exact .inr (.inl ⟨s, .nil s⟩)
  | cons c cs ih =>
      cases c with
      | form span elems =>
          cases elems with
          | nil => exact .inr (.inr ⟨trivial, fun ds => rfl⟩)
          | cons test rest =>
              cases htest : self calls test s with
              | done v t =>
                  cases htruthy : v.isTruthy with
                  | true =>
                      exact .inl ⟨[], span, test, rest, cs, rfl, s, v, t, .nil s, htest, htruthy⟩
                  | false =>
                      rcases ih t with hselects | ⟨u, hpasses⟩ | ⟨hstops, hsame⟩
                      · exact .inl (hselects.cons htest htruthy)
                      · exact .inr (.inl ⟨u, .cons htest htruthy hpasses⟩)
                      · refine .inr (.inr ?_)
                        simp only [List.cons_append, clauses_of_falsy htest htruthy]
                        exact ⟨hstops, hsame⟩
              | failed failure t =>
                  refine .inr (.inr ?_)
                  simp only [List.cons_append, clauses, bind_of_failed htest]
                  exact ⟨trivial, fun _ => trivial⟩
              | unfinished =>
                  refine .inr (.inr ?_)
                  simp only [List.cons_append, clauses, bind_of_unfinished htest]
                  exact ⟨trivial, fun _ => trivial⟩
      | int span n => exact .inr (.inr ⟨trivial, fun ds => rfl⟩)
      | symbol span name => exact .inr (.inr ⟨trivial, fun ds => rfl⟩)
      | absent => exact .inr (.inr ⟨trivial, fun ds => rfl⟩)

end clauses

section cond

variable {o : Options} {fuel depth : Nat} {calls : List Bytes} {cs : List Expr} {s t : Scope}

/-- A `cond` that is too deep fails whatever its clauses are. -/
theorem eval_cond (o : Options) (fuel depth : Nat) (calls : List Bytes) (span head : Span)
    (cs : List Expr) :
    eval o (fuel + 1) depth calls (.form span (.symbol head Operator.cond.name :: cs)) =
      match o.limit.crossed (depth + 1) with
      | some n => Run.fail calls (.tooDeep n) span
      | none => clauses (eval o fuel (depth + 1)) calls cs := by
  cases hcrossed : o.limit.crossed (depth + 1) with
  | some n =>
      rw [eval_crossed hcrossed]
      rfl
  | none => exact eval_operator hcrossed span head .cond cs

/-- Whatever has a value stands at a depth that the limit allows. -/
theorem not_crossed_of_done {e : Expr} {v : Value} (h : eval o fuel depth calls e s = .done v t) :
    o.limit.crossed (depth + 1) = none := by
  cases fuel with
  | zero => cases h
  | succ fuel =>
      cases hcrossed : o.limit.crossed (depth + 1) with
      | none => rfl
      | some n =>
          rw [eval_crossed hcrossed] at h
          cases h

theorem Selects.eval_cond (h : Selects (eval o fuel (depth + 1) calls) cs s) (span head head' : Span)
    (ds : List Expr) :
    eval o (fuel + 1) depth calls (.form span (.symbol head Operator.cond.name :: (cs ++ ds))) s =
      eval o (fuel + 1) depth calls (.form span (.symbol head' Operator.cond.name :: cs)) s := by
  rw [Eval.eval_cond, Eval.eval_cond]
  cases o.limit.crossed (depth + 1) with
  | some n => rfl
  | none => exact h.clauses_append ds

theorem Passes.eval_cond (h : Passes (eval o fuel (depth + 1) calls) cs s t) (span head head' : Span)
    (ds : List Expr) :
    eval o (fuel + 1) depth calls (.form span (.symbol head Operator.cond.name :: (cs ++ ds))) s =
      eval o (fuel + 1) depth calls (.form span (.symbol head' Operator.cond.name :: ds)) t := by
  have hclauses := h.clauses_append ds
  rw [Eval.eval_cond, Eval.eval_cond]
  cases h with
  | nil s => rfl
  | cons htest _ _ =>
      have hcrossed := DepthLimit.not_crossed_mono (Nat.le_succ _) (not_crossed_of_done htest)
      rw [hcrossed]
      exact hclauses

/-- A `cond` that neither selects a clause nor passes over all of them stops, and so it does with
more clauses at its end. -/
theorem eval_cond_cases (o : Options) (fuel depth : Nat) (calls : List Bytes) (span : Span)
    (cs : List Expr) (s : Scope) :
    let cond (head : Span) (clauses : List Expr) :=
      eval o (fuel + 1) depth calls (.form span (.symbol head Operator.cond.name :: clauses))
    let tests := eval o fuel (depth + 1) calls
    Selects tests cs s ∨ (∃ t, Passes tests cs s t ∧ ∀ head, cond head cs s = .done .nil t) ∨
      ∀ head, (cond head cs s).Stops ∧ ∀ head' ds, cond head' (cs ++ ds) s = cond head cs s := by
  intro cond tests
  simp only [cond, eval_cond]
  cases o.limit.crossed (depth + 1) with
  | some n => exact .inr (.inr fun _ => ⟨trivial, fun _ _ => rfl⟩)
  | none =>
      rcases clauses_cases (eval o fuel (depth + 1)) calls cs s with
        hselects | ⟨t, hpasses⟩ | ⟨hstops, hsame⟩
      · exact .inl hselects
      · have hclauses := hpasses.clauses_append []
        rw [List.append_nil] at hclauses
        exact .inr (.inl ⟨t, hpasses, fun _ => hclauses⟩)
      · exact .inr (.inr fun _ => ⟨hstops, fun _ ds => hsame ds⟩)

/-- What the first clauses of a `cond` come to decides how it goes on. -/
theorem eval_cond_splits (o : Options) (fuel depth : Nat) (calls : List Bytes)
    (span here there whole : Span) (cs ds : List Expr) (s : Scope) :
    let cond (head : Span) (clauses : List Expr) :=
      eval o (fuel + 1) depth calls (.form span (.symbol head Operator.cond.name :: clauses))
    let tests := eval o fuel (depth + 1) calls
    let fails := ∃ failure t, cond here cs s = .failed failure t
    (Selects tests cs s ∨ fails → cond whole (cs ++ ds) s = cond here cs s) ∧
      (∀ t, Passes tests cs s t → cond whole (cs ++ ds) s = cond there ds t) ∧
      (cond here cs s ≠ .unfinished → Selects tests cs s ∨ fails ∨ ∃ t, Passes tests cs s t) := by
  intro cond tests fails
  have hcases := eval_cond_cases o fuel depth calls span cs s
  refine ⟨?_, fun t hpasses => hpasses.eval_cond span whole there ds, ?_⟩
  · rintro (hselects | ⟨failure, t, hfails⟩)
    · exact hselects.eval_cond span whole here ds
    · rcases hcases with hselects | ⟨u, -, hdone⟩ | hstops
      · exact hselects.eval_cond span whole here ds
      · cases hfails.symm.trans (hdone here)
      · exact (hstops here).2 whole ds
  · intro hends
    rcases hcases with hselects | ⟨t, hpasses, -⟩ | hstops
    · exact .inl hselects
    · exact .inr (.inr ⟨t, hpasses⟩)
    · have hfirst : (cond here cs s).Stops := (hstops here).1
      cases hrun : cond here cs s with
      | done v t =>
          rw [hrun] at hfirst
          exact absurd hfirst id
      | failed failure t => exact .inr (.inl ⟨failure, t, hrun⟩)
      | unfinished => exact absurd hrun hends

/-- Tests leave the outer frames as they are. -/
theorem Passes.outer_eq (h : Passes (eval o fuel depth calls) cs s t) : t.outer = s.outer := by
  induction h with
  | nil s => rfl
  | @cons span test rest more v s t u htest _ _ ih =>
      have hprint := eval_footprint o fuel depth calls test .any s (Writes.cover_any test) s
        (Footprint.refl .any s)
      unfold Run.Ensures at hprint
      rw [htest] at hprint
      exact ih.trans hprint.2.outer

end cond

end LineLisp.Eval

namespace LineLisp.Forest

open Eval (Options Passes Selects eval)

section runs

variable {o : Options} {f : Forest} {i : Nat} {e e' : Expr}

theorem evaluate_congr (h : Eval.run o e (f.scope i) = Eval.run o e' (f.scope i)) :
    f.evaluate o i e = f.evaluate o i e' := by
  unfold evaluate Eval.evaluate
  rw [h]

/-- An evaluation that goes on like another one from a later scope, with the outer frames from
before, is that other one in the forest that has the scope written back. -/
theorem evaluate_resumed (hi : i < f.size) {t : Scope} (houter : t.outer = (f.scope i).outer)
    (h : Eval.run o e (f.scope i) = Eval.run o e' t)
    (hends : Eval.run o e (f.scope i) ≠ .unfinished) :
    f.evaluate o i e = (f.update i t).evaluate o i e' := by
  have hsame : Eval.evaluate o e (f.scope i) = Eval.evaluate o e' t := by
    unfold Eval.evaluate
    rw [h] at hends ⊢
    cases hrun : Eval.run o e' t with
    | done v u => rfl
    | failed failure u => rfl
    | unfinished => exact absurd hrun hends
  have hprint := (Eval.evaluate_footprint o e (f.scope i)).outer
  obtain ⟨hscope, hupdate⟩ := f.update_update i houter hprint hi
  unfold evaluate
  rw [hscope, ← hsame]
  exact congrArg (Prod.mk _) hupdate.symm

end runs

/-- A `cond` splits over its clauses. When the first clauses select one of them, or fail, the whole
`cond` has the same outcome and leaves the same behind, whatever clauses follow. When they are all
passed over, it does what the `cond` of the other clauses does where their tests left off. One of
these happens whenever the `cond` of the first clauses ends. This holds at any depth, inside any
calls, and for whole evaluations in the frames of a forest. -/
theorem cond_splits_over_clauses (o : Options) (span here there whole : Span)
    (cs ds : List Expr) :
    let cond (head : Span) (clauses : List Expr) : Expr :=
      .form span (.symbol head (utf8 "cond") :: clauses)
    (∀ (fuel depth : Nat) (calls : List Bytes) (s : Scope),
      let run := eval o (fuel + 1) depth calls
      let tests := eval o fuel (depth + 1) calls
      let first := run (cond here cs) s
      let both := run (cond whole (cs ++ ds)) s
      let fails := ∃ failure t, first = .failed failure t
      (Selects tests cs s ∨ fails → both = first) ∧
      (∀ t, Passes tests cs s t → both = run (cond there ds) t) ∧
      (first ≠ .unfinished → Selects tests cs s ∨ fails ∨ ∃ t, Passes tests cs s t)) ∧
    ∀ (f : Forest) (i : Nat), i < f.size →
      let tests := eval o (o.fuel - 1) 1 []
      let first := f.evaluate o i (cond here cs)
      let both := f.evaluate o i (cond whole (cs ++ ds))
      let fails := ∃ d, first.1 = .failure d
      (Selects tests cs (f.scope i) ∨ fails → both = first) ∧
      (∀ t, Passes tests cs (f.scope i) t → both.1 ≠ .unfinished →
        both = (f.update i t).evaluate o i (cond there ds)) ∧
      (first.1 ≠ .unfinished →
        Selects tests cs (f.scope i) ∨ fails ∨ ∃ t, Passes tests cs (f.scope i) t) := by
  intro cond
  refine ⟨fun fuel depth calls s =>
    Eval.eval_cond_splits o fuel depth calls span here there whole cs ds s, ?_⟩
  intro f i hi tests first both fails
  obtain ⟨hdecided, hpassed, hcases⟩ :=
    Eval.eval_cond_splits o (o.fuel - 1) 0 [] span here there whole cs ds (f.scope i)
  simp only [← Eval.run_eq_eval] at hdecided hpassed hcases
  have hfails : fails ↔ ∃ failure t, Eval.run o (cond here cs) (f.scope i) = .failed failure t :=
    Eval.exists_failure_iff
  refine ⟨fun hfirst => ?_, fun t hpasses hends => ?_, fun hends => ?_⟩
  · exact evaluate_congr (hdecided (hfirst.imp_right hfails.mp))
  · apply evaluate_resumed hi hpasses.outer_eq (hpassed t hpasses)
    exact fun hrun => hends (Eval.evaluate_eq_unfinished_iff.mpr hrun)
  · rcases hcases (fun hrun => hends (Eval.evaluate_eq_unfinished_iff.mpr hrun)) with
      hselects | hfailed | hpasses
    · exact .inl hselects
    · exact .inr (.inl (hfails.mpr hfailed))
    · exact .inr (.inr hpasses)

/-- A test that is passed over assigns `x`, which the test of the next clause asks for. What follows
these two is no clause, but never looked at. -/
theorem cond_splits_over_clauses_assigned :
    let symbol (name : String) : Expr := .symbol .zero (utf8 name)
    let form (elems : List Expr) : Expr := .form .zero elems
    let passed := form [form [symbol "setq", symbol "x", symbol "nil"], .int .zero 1]
    let selected := form [form [symbol "equal", symbol "x", symbol "nil"], .int .zero 7]
    let cond (clauses : List Expr) := form (symbol "cond" :: clauses)
    let o : Options := ⟨true, some 4⟩
    let f := empty.addRoot
    let t := (f.scope 0).assign (utf8 "x") .nil
    let tests := eval o 4 1 []
    0 < f.size ∧ Passes tests [passed] (f.scope 0) t ∧
      Selects tests [passed, selected] (f.scope 0) ∧
      (f.evaluate o 0 (cond [passed, selected])).1 = .value (.int 7) ∧
      f.evaluate o 0 (cond [passed, selected]) = (f.update 0 t).evaluate o 0 (cond [selected]) ∧
      f.evaluate o 0 (cond [passed, selected, .int .zero 3]) =
        f.evaluate o 0 (cond [passed, selected]) := by
  intro symbol form passed selected cond o f t tests
  have hsize : 0 < f.size := Nat.zero_lt_one
  have hpasses : Passes tests [passed] (f.scope 0) t :=
    .cons (v := .nil) (by with_unfolding_all rfl) rfl (.nil t)
  have hselects : Selects tests [passed, selected] (f.scope 0) :=
    ⟨[passed], _, _, _, [], rfl, t, .bool true, t, hpasses, by with_unfolding_all rfl, rfl⟩
  have hvalue : (f.evaluate o 0 (cond [passed, selected])).1 = .value (.int 7) := by
    with_unfolding_all rfl
  refine ⟨hsize, hpasses, hselects, hvalue, ?_, ?_⟩
  · apply ((cond_splits_over_clauses o .zero .zero .zero .zero [passed] [selected]).2 f 0 hsize).2.1
      t hpasses
    change (f.evaluate o 0 (cond [passed, selected])).1 ≠ .unfinished
    simp [hvalue]
  · exact ((cond_splits_over_clauses o .zero .zero .zero .zero [passed, selected]
      [.int .zero 3]).2 f 0 hsize).1 (.inl hselects)

end LineLisp.Forest
