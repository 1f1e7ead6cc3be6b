import LineLisp.Proofs.Eval.Equations
import LineLisp.Proofs.Expr.Spans
import Mathlib.Algebra.Group.Nat.Defs

/-!
Calculations: expressions of integers and arithmetic forms with two operands. Each operation is
reduced to 64 bits, yet without divisions this comes to one reduction of the exact value at the end.
Divisions do not commute with reduction; they are described on reduced operands, and the first of
them by zero, in the order of evaluation, ends the calculation at the place of its divisor. Nothing
is read from the scope or written to it.
-/

namespace LineLisp

namespace Arithmetic

/-- The operation on integers of any size. -/
def exact : Arithmetic → Int → Int → Int
  | .add, a, b => a + b
  | .sub, a, b => a - b
  | .mul, a, b => a * b
  | .div, a, b => a.tdiv b

/-- The operation on signed integers of 64 bits. A quotient goes toward zero, and all but one are in
the range of their operands: the least integer by minus one is the least integer again. -/
def wrapped (op : Arithmetic) (a b : Int) : Int :=
  match op with
  | .div => if a = -2 ^ 63 ∧ b = -1 then -2 ^ 63 else a.tdiv b
  | _ => (op.exact a b).bmod (2 ^ 64)

/-- The operation of the machine. -/
def perform : Arithmetic → Int64 → Int64 → Int64
  | .add, a, b => a + b
  | .sub, a, b => a - b
  | .mul, a, b => a * b
  | .div, a, b => a / b

theorem toInt_perform (op : Arithmetic) (a b : Int64) :
    (op.perform a b).toInt = op.wrapped a.toInt b.toInt := by
  cases op with
  | add => exact Int64.toInt_add a b
  | sub => exact Int64.toInt_sub a b
  | mul => exact Int64.toInt_mul a b
  | div =>
      have hleast : Int64.minValue.toInt = -2 ^ 63 := Int64.toInt_minValue
      have hone : (-1 : Int64).toInt = -1 := by decide
      rw [perform, wrapped]
      split
      · rename_i hoverflow
        rw [Int64.toInt_div, hoverflow.1, hoverflow.2]
        decide
      · rename_i hrange
        rcases Classical.not_and_iff_not_or_not.mp hrange with ha | hb
        · apply Int64.toInt_div_of_ne_left
          rintro rfl
          exact ha hleast
        · apply Int64.toInt_div_of_ne_right
          rintro rfl
          exact hb hone

/-- Without a division the operands may be reduced before or after. -/
theorem wrapped_bmod {op : Arithmetic} (h : op ≠ .div) (a b : Int) :
    op.wrapped (a.bmod (2 ^ 64)) (b.bmod (2 ^ 64)) = (op.exact a b).bmod (2 ^ 64) := by
  cases op with
  | add => simp only [wrapped, exact, Int.bmod_add_bmod, Int.add_bmod_bmod]
  | sub => simp only [wrapped, exact, Int.bmod_sub_bmod, Int.sub_bmod_bmod]
  | mul => simp only [wrapped, exact, Int.bmod_mul_bmod, Int.mul_bmod_bmod]
  | div => exact absurd rfl h

end Arithmetic

/-- A calculation, with the place of each of its parts. -/
inductive Calculation where
  | literal (span : Span) (n : Int64)
  | operation (span head : Span) (op : Arithmetic) (left right : Calculation)

namespace Calculation

def expr : Calculation → Expr
  | .literal span n => .int span n
  | .operation span head op left right =>
      .form span [.symbol head (Operator.arithmetic op).name, left.expr, right.expr]

/-- The value in integers of any size. -/
def exact : Calculation → Int
  | .literal _ n => n.toInt
  | .operation _ _ op left right => op.exact left.exact right.exact

/-- The value when each operation is reduced to 64 bits. -/
def wrapped : Calculation → Int
  | .literal _ n => n.toInt
  | .operation _ _ op left right => op.wrapped left.wrapped right.wrapped

/-- The divisors of all divisions, in the order in which the divisions are carried out. -/
def divisors : Calculation → List Calculation
  | .literal _ _ => []
  | .operation _ _ op left right =>
      left.divisors ++ right.divisors ++ if op = .div then [right] else []

/-- The value that the machine has for a calculation. -/
def value : Calculation → Int64
  | .literal _ n => n
  | .operation _ _ op left right => op.perform left.value right.value

theorem toInt_value (c : Calculation) : c.value.toInt = c.wrapped := by
  induction c with
  | literal span n => rfl
  | operation span head op left right ihl ihr =>
      rw [value, Arithmetic.toInt_perform, ihl, ihr, wrapped]

theorem value_eq_zero_iff {c : Calculation} : c.value = 0 ↔ c.wrapped = 0 := by
  rw [← c.toInt_value, ← Int64.toInt_inj, Int64.toInt_zero]

/-- Without divisions all reductions come to one at the end. -/
theorem wrapped_eq_bmod {c : Calculation} (h : c.divisors = []) :
    c.wrapped = c.exact.bmod (2 ^ 64) := by
  induction c with
  | literal span n => exact (Int64.toInt_bmod n).symm
  | operation span head op left right ihl ihr =>
      simp only [divisors, List.append_eq_nil_iff, ite_eq_right_iff, List.cons_ne_nil,
        imp_false] at h
      obtain ⟨⟨hleft, hright⟩, hop⟩ := h
      rw [wrapped, ihl hleft, ihr hright, Arithmetic.wrapped_bmod hop, exact]

/-- The divisor of the first division by zero. -/
def zero? (c : Calculation) : Option Calculation :=
  c.divisors.find? fun d => d.wrapped = 0

/-- What evaluating a calculation comes to. -/
def outcome (calls : List Bytes) (c : Calculation) (s : Scope) : Eval.Outcome Value :=
  match c.zero? with
  | none => .done (.int c.value) s
  | some d => .failed ⟨.divisionByZero, d.expr.span, calls⟩ s

theorem zero?_operation (span head : Span) (op : Arithmetic) (left right : Calculation) :
    (operation span head op left right).zero? = left.zero?.or
      (right.zero?.or (if op = .div ∧ right.wrapped = 0 then some right else none)) := by
  have hlast : (if op = .div then [right] else []).find? (fun d => decide (d.wrapped = 0)) =
      if op = .div ∧ right.wrapped = 0 then some right else none := by
    by_cases hop : op = .div <;> by_cases hzero : right.wrapped = 0 <;> simp [hop, hzero]
  rw [zero?, divisors, List.find?_append, List.find?_append, hlast, Option.or_assoc]
  rfl

end Calculation

namespace Eval

theorem calculate_perform {op : Arithmetic} {b : Int64} (h : op = .div → b ≠ 0)
    (calls : List Bytes) (divisor : Span) (a : Int64) :
    calculate calls op divisor a b = pure (.int (op.perform a b)) := by
  cases op with
  | div => exact if_neg (h rfl)
  | _ => rfl

/-- Fuel and a limit for as many levels as a calculation has are enough for it. -/
theorem eval_calculation {o : Options} (c : Calculation) {fuel depth : Nat}
    (hfuel : c.expr.height ≤ fuel) (hlimit : o.limit.crossed (depth + c.expr.height) = none)
    (calls : List Bytes) (s : Scope) :
    eval o fuel depth calls c.expr s = c.outcome calls s := by
  induction c generalizing fuel depth with
  | literal span n =>
      obtain ⟨fuel, rfl⟩ : ∃ rest, fuel = rest + 1 := ⟨fuel - 1, by
        have hpos := Expr.height_pos (Calculation.literal span n).expr
        omega⟩
      rw [Calculation.expr, eval_int hlimit]
      rfl
  | operation span head op left right ihl ihr =>
      let elems := [.symbol head (Operator.arithmetic op).name, left.expr, right.expr]
      have hheight : (Calculation.operation span head op left right).expr.height =
          Expr.heightAll elems + 1 := rfl
      have hbelow : ∀ e ∈ elems, e.height ≤ Expr.heightAll elems := fun _ =>
        Expr.height_le_heightAll
      have hl := hbelow left.expr (by simp [elems])
      have hr := hbelow right.expr (by simp [elems])
      rw [hheight] at hfuel hlimit
      obtain ⟨fuel, rfl⟩ : ∃ rest, fuel = rest + 1 := ⟨fuel - 1, by omega⟩
      have hcrossed := DepthLimit.not_crossed_mono (show depth + 1 ≤ _ by omega) hlimit
      -- The operands stand a level deeper, and the form leaves at least their heights below it.
      have hleft : eval o fuel (depth + 1) calls left.expr s = left.outcome calls s :=
        ihl (by omega) (DepthLimit.not_crossed_mono (by omega) hlimit)
      have hright : eval o fuel (depth + 1) calls right.expr s = right.outcome calls s :=
        ihr (by omega) (DepthLimit.not_crossed_mono (by omega) hlimit)
      rw [Calculation.expr, eval_operator hcrossed, operate]
      unfold Calculation.outcome at hleft hright ⊢
      rw [Calculation.zero?_operation]
      cases hzero : left.zero? with
      | some d =>
          rw [hzero] at hleft
          exact bind_of_failed (number_of_failed hleft _) _
      | none =>
          rw [hzero] at hleft
          rw [bind_of_done (number_of_int hleft _)]
          cases hzero' : right.zero? with
          | some d =>
              rw [hzero'] at hright
              exact bind_of_failed (number_of_failed hright _) _
          | none =>
              rw [hzero'] at hright
              rw [bind_of_done (number_of_int hright _)]
              by_cases hdivision : op = .div ∧ right.wrapped = 0
              · obtain ⟨rfl, hwrapped⟩ := hdivision
                simp [calculate, Calculation.value_eq_zero_iff, hwrapped, Run.fail]
              · rw [calculate_perform, if_neg hdivision]
                · rfl
                · intro hop hvalue
                  exact hdivision ⟨hop, Calculation.value_eq_zero_iff.mp hvalue⟩

end Eval

namespace Forest

open Eval (Options eval)

/-- Calculations in 64 bits. Let the limit, if there is one, allow the height of a calculation. When
none of its divisors comes to zero, it has in every frame the value that comes of reducing each
operation, and that is the exact value, reduced once, if it has no divisions. Else it fails where
the first divisor that comes to zero stands. Any fuel for as many levels is enough, and a whole
evaluation, which without a limit has it for 2 ^ 63 levels, leaves the forest as it is. -/
theorem calculations_in_64_bits (o : Options) (f : Forest) (i : Nat) (c : Calculation)
    (hlimit : ∀ n, o.limit = some n → c.expr.height ≤ n) :
    let first := c.divisors.find? fun d => d.wrapped = 0
    let run (fuel : Nat) := eval o fuel 0 [] c.expr (f.scope i)
    let lasts := o.limit = none → c.expr.height ≤ 2 ^ 63
    (first = none → ∃ n : Int64, n.toInt = c.wrapped ∧
      (c.divisors = [] → n.toInt = c.exact.bmod (2 ^ 64)) ∧
      (∀ fuel, c.expr.height ≤ fuel → run fuel = .done (.int n) (f.scope i)) ∧
      (lasts → f.evaluate o i c.expr = (.value (.int n), f))) ∧
    ∀ d, first = some d →
      (∀ fuel, c.expr.height ≤ fuel →
        run fuel = .failed ⟨.divisionByZero, d.expr.span, []⟩ (f.scope i)) ∧
      (lasts → f.evaluate o i c.expr =
        (.failure ⟨.divisionByZero, utf8 "division by zero", d.expr.span, [], []⟩, f)) := by
  intro first run lasts
  have hcrossed : o.limit.crossed (0 + c.expr.height) = none := by
    rw [Nat.zero_add]
    exact DepthLimit.crossed_eq_none_iff.mpr hlimit
  have hrun : ∀ fuel, c.expr.height ≤ fuel → run fuel = c.outcome [] (f.scope i) :=
    fun fuel hfuel => Eval.eval_calculation c hfuel hcrossed [] (f.scope i)
  have hfuel : lasts → c.expr.height ≤ o.fuel := by
    intro hlasts
    unfold Options.fuel
    cases hcase : o.limit with
    | some n => exact Nat.le_succ_of_le (hlimit n hcase)
    | none => exact hlasts hcase
  constructor
  · intro hfirst
    have hzero : c.zero? = none := hfirst
    simp only [Calculation.outcome, hzero] at hrun
    refine ⟨c.value, c.toInt_value, ?_, hrun, ?_⟩
    · intro hdivisors
      rw [c.toInt_value, c.wrapped_eq_bmod hdivisors]
    · intro hlasts
      exact evaluate_unchanged (Eval.evaluate_of_done (hrun o.fuel (hfuel hlasts)))
  · intro d hfirst
    have hzero : c.zero? = some d := hfirst
    simp only [Calculation.outcome, hzero] at hrun
    refine ⟨hrun, fun hlasts => ?_⟩
    exact evaluate_unchanged (Eval.evaluate_of_failed (hrun o.fuel (hfuel hlasts)))

/-- The greatest integer squared leaves one after reduction, the least one by minus one stays the
least, and a divisor may come to zero by reduction alone, before another that is zero as it
stands. -/
theorem calculations_in_64_bits_overflow :
    let literal (n : Int64) := Calculation.literal .zero n
    let operation := Calculation.operation .zero .zero
    let square := operation .mul (literal 9223372036854775807) (literal 9223372036854775807)
    let least := operation .div (literal (-9223372036854775808))
      (operation .sub (literal 0) (literal 1))
    let divisor := Calculation.operation (.of 1 8 33) .zero .mul (literal 4294967296)
      (literal 4294967296)
    let fails := operation .add (operation .div (literal 1) divisor)
      (operation .div (literal 1) (literal 0))
    let f := empty.addRoot
    let evaluate (c : Calculation) := f.evaluate ⟨false, some 4⟩ 0 c.expr
    evaluate square = (.value (.int 1), f) ∧
      square.exact = 85070591730234615847396907784232501249 ∧
      evaluate least = (.value (.int (-9223372036854775808)), f) ∧
      evaluate fails =
        (.failure ⟨.divisionByZero, utf8 "division by zero", .of 1 8 33, [], []⟩, f) := by
  intro literal operation square least divisor fails f evaluate
  have hlimit : ∀ (c : Calculation), c.expr.height ≤ 4 →
      ∀ n, (⟨false, some 4⟩ : Options).limit = some n → c.expr.height ≤ n := by
    rintro c hheight n ⟨⟩
    exact hheight
  have hvalue : ∀ (c : Calculation) (n : Int64), c.expr.height ≤ 4 → c.wrapped = n.toInt →
      (c.divisors.find? fun d => d.wrapped = 0) = none → evaluate c = (.value (.int n), f) := by
    intro c n hheight hwrapped hfirst
    obtain ⟨m, hm, -, -, hevaluate⟩ :=
      (calculations_in_64_bits ⟨false, some 4⟩ f 0 c (hlimit c hheight)).1 hfirst
    obtain rfl : m = n := Int64.toInt_inj.mp (hm.trans hwrapped)
    exact hevaluate (by simp)
  refine ⟨?_, by decide, ?_, ?_⟩
  · exact hvalue square 1 (by decide) (by decide) rfl
  · exact hvalue least (-9223372036854775808) (by decide) (by decide) rfl
  · exact ((calculations_in_64_bits ⟨false, some 4⟩ f 0 fails (hlimit fails (by decide))).2 divisor
      rfl).2 (by simp)

end Forest

end LineLisp
