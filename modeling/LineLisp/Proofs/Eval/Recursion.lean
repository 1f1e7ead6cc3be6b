import LineLisp.Proofs.Eval.Descent
import LineLisp.Proofs.Scope.Lookup
import LineLisp.Proofs.Value.Quotation
import Mathlib.Data.Nat.Factorial.Basic

/-!
Recursion, by the example of the factorial. Each call has a frame of its own in which `n` hides the
`n` of the caller, and evaluates the next call three levels further down, as an operand of a form in
a clause. So the deepest level of a call for `k` is known exactly, and with it the limits under which
the call has a value; that value is the factorial as far as 64 bits hold it.
-/

namespace LineLisp

open Eval

namespace Factorial

/-- The body of the function, with its parts at any places. -/
def body (place : Nat → Span) : Expr :=
  .form (place 0) [.symbol (place 1) (utf8 "cond"),
    .form (place 2) [.form (place 3) [.symbol (place 4) (utf8 "<="), .symbol (place 5) (utf8 "n"),
      .int (place 6) 1], .int (place 7) 1],
    .form (place 8) [.symbol (place 9) (utf8 "true"), .form (place 10) [.symbol (place 11) (utf8 "*"),
      .symbol (place 12) (utf8 "n"), .form (place 13) [.symbol (place 14) (utf8 "fact"),
        .form (place 15) [.symbol (place 16) (utf8 "-"), .symbol (place 17) (utf8 "n"),
          .int (place 18) 1]]]]]

def definition (place : Nat → Span) : Expr :=
  .form (place 19) [.symbol (place 20) (utf8 "defun"), .symbol (place 21) (utf8 "fact"),
    .form (place 22) [.symbol (place 23) (utf8 "n")], body place]

example (place : Nat → Span) : (definition place).text =
    utf8 "(defun fact (n) (cond ((<= n 1) 1) (true (* n (fact (- n 1))))))" := by
  with_unfolding_all rfl

def function (place : Nat → Span) : Function :=
  ⟨utf8 "fact", [utf8 "n"], [body place]⟩

/-- Whether the function can be called from a scope: no variable hides a name that it uses. -/
structure Callable (place : Nat → Span) (s : Scope) : Prop where
  free : s.value? (utf8 "fact") = none
  constant : s.value? (utf8 "true") = none
  found : s.function? (utf8 "fact") = some (function place)

variable {place : Nat → Span} {s : Scope}

/-- The frame of a call hides nothing but `n`. -/
theorem Callable.enter (h : Callable place s) (v : Value) :
    Callable place (s.enter (arguments [utf8 "n"] [v])) := by
  have hvalue : ∀ name, name ≠ utf8 "n" →
      (s.enter (arguments [utf8 "n"] [v])).value? name = s.value? name := by
    intro name hname
    simp [arguments, hname]
  refine ⟨?_, ?_, ?_⟩
  · rw [hvalue _ (by decide)]
    exact h.free
  · rw [hvalue _ (by decide)]
    exact h.constant
  · simpa [arguments] using h.found

theorem value?_enter_argument (s : Scope) (v : Value) :
    (s.enter (arguments [utf8 "n"] [v])).value? (utf8 "n") = some v := by
  simp [arguments]

variable {o : Options} (hlimit : o.limit ≠ none)
include hlimit

/-- What the test of the first clause takes. -/
theorem test_takes {k : Nat} (hk : k < 2 ^ 63)
    (hn : s.value? (utf8 "n") = some (.int (.ofNat k))) :
    Takes o s 2 (.form (place 3) [.symbol (place 4) (utf8 "<="), .symbol (place 5) (utf8 "n"),
      .int (place 6) 1]) (.bool (decide (k ≤ 1))) := by
  have hholds : Comparison.lessEq.holds (.ofNat k) 1 = decide (k ≤ 1) := by
    rw [Comparison.holds, decide_eq_decide, Int64.le_iff_toInt_le, Int64.toInt_ofNat_of_lt hk,
      Int64.toInt_one]
    omega
  rw [← hholds]
  exact takes_comparison hlimit (takes_symbol hlimit hn _) (takes_int hlimit _ _) _ _ .lessEq

/-- The body takes three levels for each number from `k` down to one. -/
theorem body_takes {k : Nat} (hone : 1 ≤ k) (hk : k < 2 ^ 63) (hs : Callable place s)
    (hn : s.value? (utf8 "n") = some (.int (.ofNat k))) :
    Takes o s (3 * k) (body place) (.int (.ofNat k.factorial)) := by
  induction k, hone using Nat.le_induction generalizing s with
  | base =>
      exact takes_selected hlimit (test_takes hlimit hk hn) _ _ _ rfl (takes_int hlimit _ 1) _
  | succ k hone ih =>
      have hpred : Arithmetic.sub.perform (.ofNat (k + 1)) 1 = .ofNat k := by
        rw [Arithmetic.perform, Int64.ofNat_add]
        exact Int64.add_sub_cancel _ _
      have hproduct : Arithmetic.mul.perform (.ofNat (k + 1)) (.ofNat k.factorial) =
          .ofNat (k + 1).factorial := by
        rw [Nat.factorial_succ, Int64.ofNat_mul]
        rfl
      have hsub : Arithmetic.sub = .div → (1 : Int64) ≠ 0 := by simp
      have hmul : Arithmetic.mul = .div → Int64.ofNat k.factorial ≠ 0 := by simp
      have hargument := takes_arithmetic hlimit (takes_symbol hlimit hn (place 17))
        (takes_int hlimit (place 18) 1) (place 15) (place 16) hsub
      rw [hpred] at hargument
      -- The frame of the next call holds its own `n` and leads on to the rest of the induction.
      have hnext := ih (by omega) (hs.enter (.int (.ofNat k))) (value?_enter_argument s _)
      have hcall := takes_call hlimit (by decide) hs.free hs.found hargument hnext (place 13)
        (place 14)
      have hform := takes_arithmetic hlimit (takes_symbol hlimit hn (place 12)) hcall (place 10)
        (place 11) hmul
      rw [hproduct] at hform
      have hclause := takes_selected hlimit (takes_constant hlimit hs.constant rfl (place 9))
        (place 0) (place 1) (place 8) rfl hform []
      have hlevels : 3 * (k + 1) = max 2 (max 1 (max 1 (max 2 (3 * k) + 1) + 1)) + 1 := by omega
      rw [hlevels]
      apply takes_passed hlimit (test_takes hlimit hk hn)
      · exact decide_eq_false (by omega)
      · exact hclause

/-- A call takes a level more than the body in the frame of the call. -/
theorem call_takes {k : Nat} (hone : 1 ≤ k) (hk : k < 2 ^ 63) (hs : Callable place s)
    (span head argument : Span) :
    Takes o s (3 * k + 1)
      (.form span [.symbol head (utf8 "fact"), .int argument (.ofNat k)])
      (.int (.ofNat k.factorial)) := by
  have hbody := body_takes hlimit hone hk (hs.enter (.int (.ofNat k))) (value?_enter_argument s _)
  have hcall := takes_call hlimit (by decide) hs.free hs.found
    (takes_int hlimit argument (.ofNat k)) hbody span head
  have hlevels : max 1 (3 * k) = 3 * k := by omega
  rwa [hlevels] at hcall

end Factorial

namespace Forest

/-- The definition is evaluated under any limit. -/
theorem evaluate_definition (strict : Bool) (limit : Int) (place : Nat → Span) :
    empty.addRoot.evaluate ⟨strict, .ofInt limit⟩ 0 (Factorial.definition place) =
      (.value (.symbol (utf8 "fact")),
        empty.addRoot.define 0 (utf8 "fact") (Factorial.function place)) := by
  have hrun : Eval.run ⟨strict, .ofInt limit⟩ (Factorial.definition place)
      (empty.addRoot.scope 0) = .done (.symbol (utf8 "fact"))
        ((empty.addRoot.scope 0).define (utf8 "fact") (Factorial.function place)) := by
    rw [run_eq_eval]
    exact congrFun (eval_operator (DepthLimit.crossed_one_ofInt limit) _ _ .defun _) _
  rw [evaluate, evaluate_of_done hrun]
  rfl

/-- Recursion takes three levels for each call. Define the factorial in a fresh frame and call it
for any positive integer of 64 bits: under a limit of `3 * k + 1` levels or more the call comes to
the factorial, reduced to 64 bits, and under any smaller limit it fails for its depth. Either way
the frame is left without variables and with this one function. -/
theorem recursion_takes_three_levels_a_call (place : Nat → Span) (strict strict' : Bool)
    (limit : Int) {limit' : Int} (hlimit' : 0 < limit') {k : Int64} (hk : 1 ≤ k)
    (span head argument : Span) :
    let defined := empty.addRoot.evaluate ⟨strict, .ofInt limit⟩ 0 (Factorial.definition place)
    let called := defined.2.evaluate ⟨strict', .ofInt limit'⟩ 0
      (.form span [.symbol head (utf8 "fact"), .int argument k])
    let root := called.2.frame 0
    defined.1 = .value (.symbol (utf8 "fact")) ∧
    (3 * k.toInt + 1 ≤ limit' → ∃ n : Int64, called.1 = .value (.int n) ∧
      n.toInt = (k.toInt.toNat.factorial : Int).bmod (2 ^ 64)) ∧
    (limit' < 3 * k.toInt + 1 → ∃ d, called.1 = .failure d ∧ d.kind = .stackLimitExceeded) ∧
    called.2 = defined.2 ∧ root.vars = .empty ∧
    root.funcs.entries = [(utf8 "fact", ⟨utf8 "fact", [utf8 "n"], [Factorial.body place]⟩)] := by
  rw [evaluate_definition]
  intro defined called root
  let f := empty.addRoot.define 0 (utf8 "fact") (Factorial.function place)
  have hscope : f.scope 0 = .root ⟨.empty, Bindings.empty.insert (utf8 "fact")
      (Factorial.function place)⟩ := by with_unfolding_all rfl
  have hcallable : Factorial.Callable place (f.scope 0) := by
    rw [hscope]
    exact ⟨rfl, rfl, rfl⟩
  have hlimit : (⟨strict', .ofInt limit'⟩ : Options).limit = some limit'.toNat := by
    simp [DepthLimit.ofInt, hlimit']
  have hpos : 1 ≤ k.toInt := Int64.le_iff_toInt_le.mp hk
  have hless := k.toInt_lt
  obtain ⟨n, hn⟩ : ∃ n : Nat, k.toInt = n := ⟨k.toInt.toNat, by omega⟩
  obtain rfl : k = .ofNat n := by
    rw [← Int64.toInt_inj, hn, Int64.toInt_ofNat_of_lt (by omega)]
  have hcall := Factorial.call_takes (o := ⟨strict', .ofInt limit'⟩) (k := n)
    (Option.ne_none_iff_exists'.mpr ⟨_, hlimit⟩) (by omega) (by omega) hcallable span head argument
  obtain ⟨hvalue, hfails⟩ := hcall.evaluate hlimit
  have hleft : called.2 = f := by
    by_cases hdeep : limit'.toNat < 3 * n + 1
    · obtain ⟨d, hd, -⟩ := hfails hdeep
      exact congrArg Prod.snd (evaluate_unchanged hd)
    · exact congrArg Prod.snd (evaluate_unchanged (hvalue (by omega)))
  have hroot : root = (f.scope 0).frame := congrArg (frame · 0) hleft
  rw [hscope] at hroot
  rw [hroot, hn, Int.toNat_natCast]
  refine ⟨rfl, fun hle => ?_, fun hlt => ?_, hleft, rfl, rfl⟩
  · exact ⟨_, congrArg Prod.fst (evaluate_unchanged (hvalue (by omega))), Int64.toInt_ofNat'⟩
  · obtain ⟨d, hd, hkind⟩ := hfails (by omega)
    exact ⟨d, congrArg Prod.fst (evaluate_unchanged hd), hkind⟩

/-- The factorial of 21 does not fit into 64 bits. It takes 64 levels, and 63 are not enough. -/
theorem recursion_takes_three_levels_a_call_wrapped :
    let place (_ : Nat) := Span.zero
    let defined := empty.addRoot.evaluate .standard 0 (Factorial.definition place)
    let call : Expr := .form .zero [.symbol .zero (utf8 "fact"), .int .zero 21]
    let under (limit : Int) := defined.2.evaluate ⟨false, .ofInt limit⟩ 0 call
    under 64 = (.value (.int (-4249290049419214848)), defined.2) ∧
      (∃ d, (under 63).1 = .failure d ∧ d.kind = .stackLimitExceeded) ∧
      (under 63).2 = defined.2 := by
  intro place defined call under
  obtain ⟨-, hvalue, -, hleft, -⟩ := recursion_takes_three_levels_a_call place false false 10000
    (show (0 : Int) < 64 by decide) (show (1 : Int64) ≤ 21 by decide) .zero .zero .zero
  obtain ⟨-, -, hfails, hleft', -⟩ := recursion_takes_three_levels_a_call place false false 10000
    (show (0 : Int) < 63 by decide) (show (1 : Int64) ≤ 21 by decide) .zero .zero .zero
  obtain ⟨n, hn, hwrapped⟩ := hvalue (by decide)
  obtain rfl : n = -4249290049419214848 := by
    rw [← Int64.toInt_inj, hwrapped]
    decide
  exact ⟨Prod.ext hn hleft, hfails (by decide), hleft'⟩

end Forest

end LineLisp
