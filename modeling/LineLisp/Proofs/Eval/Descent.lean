import LineLisp.Proofs.Eval.Calculations
import LineLisp.Proofs.Eval.Sound

/-!
How deep an evaluation goes. An evaluation that changes nothing and has a value goes down to some
level and no further; under a limit it has that value exactly if the limit allows the level, and
fails for its depth otherwise. The level is known from those of the parts, one above the deepest
of them, so it can be counted along an expression and through the bodies of the functions that are
called.
-/

namespace LineLisp.Eval

variable {α β : Type}

/-- Whether a run from `s` leaves `s` as it is and goes down to the level `deepest`: it comes to `a`
unless the limit is above that level, and then it fails for its depth. -/
def Run.Descends (limit : DepthLimit) (deepest : Nat) (s : Scope) (a : α) (x : Run α) : Prop :=
  match limit.crossed deepest with
  | none => x s = .done a s
  | some n => ∃ span calls, x s = .failed ⟨.tooDeep n, span, calls⟩ s

namespace Run.Descends

variable {limit : DepthLimit} {m n : Nat} {s : Scope} {a : α} {b : β}

theorem of_done (hcrossed : limit.crossed n = none) {x : Run α} (h : x s = .done a s) :
    Run.Descends limit n s a x := by
  unfold Run.Descends
  rw [hcrossed]
  exact h

theorem of_failed {limited : Nat} (hcrossed : limit.crossed n = some limited) {x : Run α}
    {span : Span} {calls : List Bytes} (h : x s = .failed ⟨.tooDeep limited, span, calls⟩ s) :
    Run.Descends limit n s a x := by
  unfold Run.Descends
  rw [hcrossed]
  exact ⟨span, calls, h⟩

theorem congr {x y : Run α} (hxy : x s = y s) (hy : Run.Descends limit n s a y) :
    Run.Descends limit n s a x := by
  unfold Run.Descends at hy ⊢
  rw [hxy]
  exact hy

/-- Nothing goes down to level zero, which every limit allows. -/
theorem pure (a : α) : Run.Descends limit 0 s a (Pure.pure a) := by
  apply of_done
  · exact DepthLimit.crossed_eq_none_iff.mpr fun n _ => Nat.zero_le n
  · rfl

/-- One run after the other goes as deep as the deeper of them. -/
theorem bind {x : Run α} {f : α → Run β} (hx : Run.Descends limit m s a x)
    (hf : Run.Descends limit n s b (f a)) : Run.Descends limit (max m n) s b (x >>= f) := by
  unfold Run.Descends at hx
  cases hfirst : limit.crossed m with
  | some limited =>
      rw [hfirst] at hx
      obtain ⟨span, calls, hx⟩ := hx
      apply of_failed (DepthLimit.crossed_mono (Nat.le_max_left m n) hfirst)
      exact bind_of_failed hx f
  | none =>
      rw [hfirst] at hx
      unfold Run.Descends at hf
      cases hsecond : limit.crossed n with
      | some limited =>
          rw [hsecond] at hf
          obtain ⟨span, calls, hf⟩ := hf
          apply of_failed (DepthLimit.crossed_mono (Nat.le_max_right m n) hsecond)
          rw [bind_of_done hx, hf]
      | none =>
          rw [hsecond] at hf
          apply of_done
          · rw [DepthLimit.crossed_eq_none_iff] at hfirst hsecond ⊢
            intro limited hlimit
            exact Nat.max_le.mpr ⟨hfirst limited hlimit, hsecond limited hlimit⟩
          · rw [bind_of_done hx, hf]

theorem inside {frame : Frame} {x : Run α} (h : Run.Descends limit n (s.enter frame) a x) :
    Run.Descends limit n s a (Run.inside frame x) := by
  unfold Run.Descends at h
  cases hcrossed : limit.crossed n with
  | none =>
      rw [hcrossed] at h
      apply of_done hcrossed
      rw [Run.inside, h]
      rfl
  | some limited =>
      rw [hcrossed] at h
      obtain ⟨span, calls, h⟩ := h
      apply of_failed hcrossed
      rw [Run.inside, h]
      rfl

theorem number {self : Self} {calls : List Bytes} {e : Expr} {i : Int64} (op : Operator)
    (h : Run.Descends limit n s (.int i) (self calls e)) :
    Run.Descends limit n s i (number self calls op e) := by
  have hbind : Run.Descends limit (max n 0) s i (Eval.number self calls op e) := by
    unfold Eval.number
    exact h.bind (pure i)
  rwa [Nat.max_zero] at hbind

end Run.Descends

theorem Options.Lasts.above {o : Options} {fuel depth : Nat} (h : o.Lasts fuel (depth + 1)) :
    o.Lasts (fuel + 1) depth := by
  intro n hlimit
  have hless := (h n hlimit).2
  omega

/-- Whether evaluating an expression in `s` comes to `v`, changes nothing and takes as many levels,
at whatever depth it starts and inside whatever calls. -/
def Takes (o : Options) (s : Scope) (levels : Nat) (e : Expr) (v : Value) : Prop :=
  ∀ fuel depth calls, o.Lasts fuel depth →
    Run.Descends o.limit (depth + levels) s v (eval o fuel depth calls e)

section takes

variable {o : Options} {s : Scope} {m n : Nat} {v : Value}

/-- What an expression takes is a level for itself and those that it goes down from there. -/
theorem takes_of_level (hlimit : o.limit ≠ none) {e : Expr}
    (h : ∀ fuel depth calls, o.limit.crossed (depth + 1) = none → o.Lasts fuel (depth + 1) →
      Run.Descends o.limit (depth + 1 + n) s v (eval o (fuel + 1) depth calls e)) :
    Takes o s (n + 1) e v := by
  intro fuel depth calls hfuel
  obtain ⟨limit, hsome⟩ := Option.ne_none_iff_exists'.mp hlimit
  have hpos := (hfuel limit hsome).1
  obtain ⟨fuel, rfl⟩ : ∃ rest, fuel = rest + 1 := ⟨fuel - 1, by omega⟩
  have hdeepest : depth + (n + 1) = depth + 1 + n := by omega
  rw [hdeepest]
  cases hcrossed : o.limit.crossed (depth + 1) with
  | none => exact h fuel depth calls hcrossed (hfuel.below hcrossed)
  | some limited =>
      apply Run.Descends.of_failed (DepthLimit.crossed_mono (Nat.le_add_right _ n) hcrossed)
      rw [eval_crossed hcrossed]
      rfl

variable (hlimit : o.limit ≠ none)
include hlimit

theorem takes_int (span : Span) (i : Int64) : Takes o s 1 (.int span i) (.int i) := by
  apply takes_of_level hlimit (n := 0)
  intro fuel depth calls hcrossed _
  apply Run.Descends.of_done hcrossed
  rw [eval_int hcrossed]
  rfl

theorem takes_symbol {name : Bytes} (h : s.value? name = some v) (span : Span) :
    Takes o s 1 (.symbol span name) v := by
  apply takes_of_level hlimit (n := 0)
  intro fuel depth calls hcrossed _
  apply Run.Descends.of_done hcrossed
  rw [eval_symbol hcrossed, symbol, bind_scope, h]
  rfl

theorem takes_constant {name : Bytes} (hfree : s.value? name = none) (h : constant? name = some v)
    (span : Span) : Takes o s 1 (.symbol span name) v := by
  apply takes_of_level hlimit (n := 0)
  intro fuel depth calls hcrossed _
  apply Run.Descends.of_done hcrossed
  rw [eval_symbol hcrossed, symbol, bind_scope, hfree, h]
  rfl

section operands

variable {x y : Expr} {i j : Int64}
variable (hx : Takes o s m x (.int i)) (hy : Takes o s n y (.int j)) (span head : Span)
include hx hy

omit hlimit in
/-- Two operands are evaluated from left to right, and then there is nothing further down. -/
theorem numbers_descend (op : Operator) {fuel depth : Nat} (hfuel : o.Lasts fuel depth)
    (calls : List Bytes) {f : Int64 → Int64 → Run Value} (hf : f i j = pure v) :
    Run.Descends o.limit (depth + max m n) s v (do
      let a ← number (eval o fuel depth) calls op x
      let b ← number (eval o fuel depth) calls op y
      f a b) := by
  have hleft := (hx fuel depth calls hfuel).number op
  have hright := (hy fuel depth calls hfuel).number op
  have hdeepest : depth + max m n = max (depth + m) (max (depth + n) 0) := by omega
  rw [hdeepest]
  refine hleft.bind (hright.bind ?_)
  rw [hf]
  exact .pure v

theorem takes_arithmetic {op : Arithmetic} (hop : op = .div → j ≠ 0) :
    Takes o s (max m n + 1) (.form span [.symbol head (Operator.arithmetic op).name, x, y])
      (.int (op.perform i j)) := by
  apply takes_of_level hlimit
  intro fuel depth calls hcrossed hfuel
  rw [eval_operator hcrossed]
  exact numbers_descend hx hy _ hfuel calls (calculate_perform hop calls y.span i)

theorem takes_comparison (op : Comparison) :
    Takes o s (max m n + 1) (.form span [.symbol head (Operator.comparison op).name, x, y])
      (.bool (op.holds i j)) := by
  apply takes_of_level hlimit
  intro fuel depth calls hcrossed hfuel
  rw [eval_operator hcrossed]
  exact numbers_descend hx hy _ hfuel calls rfl

end operands

section clauses

variable {test : Expr} {truth : Value} (htest : Takes o s m test truth) (span head place : Span)
include htest

/-- A clause with one expression behind its test, which is truthy. -/
theorem takes_selected (htruthy : truth.isTruthy = true) {e : Expr} (he : Takes o s n e v)
    (more : List Expr) :
    Takes o s (max m n + 1)
      (.form span (.symbol head Operator.cond.name :: .form place [test, e] :: more)) v := by
  apply takes_of_level hlimit
  intro fuel depth calls hcrossed hfuel
  have hdeepest : depth + 1 + max m n = max (depth + 1 + m) (max (depth + 1 + n) 0) := by omega
  rw [eval_operator hcrossed, operate, clauses, hdeepest]
  refine (htest fuel (depth + 1) calls hfuel).bind ?_
  rw [htruthy]
  exact (he fuel (depth + 1) calls hfuel).bind (.pure v)

/-- A clause that is passed over. -/
theorem takes_passed (hfalsy : truth.isTruthy = false) {more : List Expr}
    (hmore : Takes o s (n + 1) (.form span (.symbol head Operator.cond.name :: more)) v)
    (rest : List Expr) :
    Takes o s (max m n + 1)
      (.form span (.symbol head Operator.cond.name :: .form place (test :: rest) :: more)) v := by
  apply takes_of_level hlimit
  intro fuel depth calls hcrossed hfuel
  have hothers := hmore (fuel + 1) depth calls hfuel.above
  have hlevels : depth + (n + 1) = depth + 1 + n := by omega
  have hdeepest : depth + 1 + max m n = max (depth + 1 + m) (depth + 1 + n) := by omega
  rw [eval_operator hcrossed, operate, hlevels] at hothers
  rw [eval_operator hcrossed, operate, clauses, hdeepest]
  refine (htest fuel (depth + 1) calls hfuel).bind ?_
  rw [hfalsy]
  exact hothers

end clauses

/-- A call with one argument of a function whose body is one expression. -/
theorem takes_call {name param : Bytes} {arg e : Expr} {given : Value}
    (hname : Operator.ofName? name = none) (hfree : s.value? name = none) {own : Bytes}
    (hfunction : s.function? name = some ⟨own, [param], [e]⟩) (harg : Takes o s m arg given)
    (he : Takes o (s.enter (arguments [param] [given])) n e v) (span head : Span) :
    Takes o s (max m n + 1) (.form span [.symbol head name, arg]) v := by
  apply takes_of_level hlimit
  intro fuel depth calls hcrossed hfuel
  have hgiven := harg fuel (depth + 1) calls hfuel
  have hbody := he fuel (depth + 1) (own :: calls) hfuel
  have hdeepest : depth + 1 + max m n =
      max (max (depth + 1 + m) 0) (max (depth + 1 + n) 0) := by omega
  rw [hdeepest]
  apply Run.Descends.congr (eval_call hcrossed hname hfree hfunction span head [arg])
  refine Run.Descends.bind (a := [given]) ?_ ?_
  · exact hgiven.bind (.pure [given])
  · exact .inside (hbody.bind (.pure v))

end takes

/-- A whole evaluation has its value exactly if the limit allows the levels that it takes. -/
theorem Takes.evaluate {o : Options} {s : Scope} {levels : Nat} {e : Expr} {v : Value}
    (h : Takes o s levels e v) {limit : Nat} (hlimit : o.limit = some limit) :
    (levels ≤ limit → evaluate o e s = (.value v, s)) ∧
      (limit < levels → ∃ d, evaluate o e s = (.failure d, s) ∧ d.kind = .stackLimitExceeded) := by
  have hrun := h o.fuel 0 [] o.lasts_fuel
  rw [Nat.zero_add, Run.Descends, hlimit] at hrun
  constructor
  · intro hle
    have hcrossed : DepthLimit.crossed (some limit) levels = none := if_neg (by omega)
    rw [hcrossed] at hrun
    exact evaluate_of_done hrun
  · intro hlt
    have hcrossed : DepthLimit.crossed (some limit) levels = some limit := if_pos hlt
    rw [hcrossed] at hrun
    obtain ⟨span, calls, hrun⟩ := hrun
    exact ⟨_, evaluate_of_failed hrun, rfl⟩

end LineLisp.Eval
