import LineLisp.Proofs.Eval.Equations
import LineLisp.Proofs.Value.Quotation

/-!
Equality of values. Values without absent parts are the same exactly if they are equal trees.
Expressions without absent parts become data without losing anything but places: the data is written
as the expression is, and tells expressions apart just as they differ themselves. So comparing two
quoted expressions compares the expressions.
-/

namespace LineLisp

namespace Value

theorem sameAll_iff {xs ys : List Value}
    (h : ∀ x ∈ xs, ∀ y, x.same y ↔ x.isWhole ∧ x = y) :
    sameAll xs ys ↔ areWhole xs ∧ xs = ys := by
  induction xs generalizing ys with
  | nil => cases ys <;> simp [sameAll, areWhole]
  | cons x xs ih =>
      cases ys with
      | nil => simp [sameAll]
      | cons y ys =>
          have hfirst := h x (by simp) y
          have hrest : sameAll xs ys ↔ areWhole xs ∧ xs = ys := ih fun x hx => h x (by simp [hx])
          simp only [sameAll, areWhole, Bool.and_eq_true, hfirst, hrest, List.cons.injEq]
          exact and_and_and_comm

/-- Values are the same when they are equal and nothing in them is absent. -/
theorem same_iff {x y : Value} : x.same y ↔ x.isWhole ∧ x = y := by
  induction x using induct generalizing y with
  | list elems ih =>
      cases y with
      | list elems' =>
          rw [same, isWhole, sameAll_iff fun x hx y => ih x hx]
          simp
      | _ => simp [same]
  | absent => simp [same, isWhole]
  | _ => cases y <;> simp [same, isWhole]

end Value

namespace Expr

variable {a b : Expr}

/-- Writing the data of an expression back as an expression loses its places only. -/
theorem quotation_ofExpr (ha : a.isWhole) : (Value.ofExpr a).quotation = a.unplaced := by
  induction a using induct with
  | form span elems ih =>
      have helems : elems.map (Value.quotation ∘ Value.ofExpr) = elems.map unplaced :=
        List.map_congr_left fun e he => ih e he (areWhole_iff.mp ha e he)
      rw [Value.ofExpr, Value.ofExprs_eq, List.reverse_nil, List.nil_append, Value.quotation,
        Value.quotations_eq_map, List.map_map, helems, unplaced_form]
  | absent => cases ha
  | _ => rfl

theorem text_ofExpr (ha : a.isWhole) : (Value.ofExpr a).text = a.text := by
  rw [← Value.text_quotation, quotation_ofExpr ha, text_unplaced]

theorem ofExpr_eq_iff (ha : a.isWhole) (hb : b.isWhole) :
    Value.ofExpr a = Value.ofExpr b ↔ a.unplaced = b.unplaced := by
  constructor
  · intro hdata
    rw [← quotation_ofExpr ha, hdata, quotation_ofExpr hb]
  · intro hplaces
    rw [← ofExpr_unplaced, hplaces, ofExpr_unplaced]

theorem same_ofExpr (ha : a.isWhole) (hb : b.isWhole) :
    (Value.ofExpr a).same (Value.ofExpr b) = a.same b := by
  rw [Bool.eq_iff_iff, Value.same_iff, same_iff_unplaced, ofExpr_eq_iff ha hb]
  simp [ha, Value.isWhole_ofExpr]

end Expr

namespace Eval

variable {o : Options}

theorem eval_quote {fuel depth : Nat} (h : o.limit.crossed (depth + 1) = none) (calls : List Bytes)
    (span head : Span) (e : Expr) (s : Scope) :
    eval o (fuel + 1) depth calls (.form span [.symbol head Operator.quote.name, e]) s =
      .done (.ofExpr e) s := by
  rw [eval_operator h]
  rfl

/-- The form that compares two quoted expressions goes two levels deep. -/
theorem evaluate_equal_quoted (h : o.limit.crossed 2 = none)
    (span head span₁ head₁ span₂ head₂ : Span) (a b : Expr) (s : Scope) :
    evaluate o (.form span [.symbol head Operator.equal.name,
        .form span₁ [.symbol head₁ Operator.quote.name, a],
        .form span₂ [.symbol head₂ Operator.quote.name, b]]) s =
      (.value (.bool ((Value.ofExpr a).same (.ofExpr b))), s) := by
  have hone : o.limit.crossed 1 = none := DepthLimit.not_crossed_mono (by omega) h
  obtain ⟨fuel, hfuel⟩ : ∃ fuel, o.fuel = fuel + 1 + 1 := by
    unfold Options.fuel
    cases hlimit : o.limit with
    | none => exact ⟨0x7FFFFFFFFFFFFFFE, rfl⟩
    | some n =>
        have htwo : 2 ≤ n := DepthLimit.crossed_eq_none_iff.mp h n hlimit
        exact ⟨n - 1, show n + 1 = n - 1 + 1 + 1 by omega⟩
  apply evaluate_of_done
  rw [run, hfuel, eval_operator hone, operate, bind_of_done (eval_quote h [] span₁ head₁ a s),
    bind_of_done (eval_quote h [] span₂ head₂ b s)]
  rfl

end Eval

/-- Equality of quoted expressions. Data made of expressions without absent parts is the same
exactly if the expressions are, is written like them, and is what `equal` compares in any frame,
where nothing changes, under every limit of two levels or more. Values without absent parts are the
same exactly if they are one tree; so they fall into classes, and none has members of two types. -/
theorem Forest.quoted_equality_is_structural :
    (∀ a b : Expr, a.isWhole → b.isWhole →
      (Value.ofExpr a).same (.ofExpr b) = a.same b ∧
      (Value.ofExpr a).text = a.text ∧
      ∀ (o : Eval.Options) (f : Forest) (i : Nat) (span head span₁ head₁ span₂ head₂ : Span),
        (∀ n, o.limit = some n → 2 ≤ n) →
        f.evaluate o i (.form span [.symbol head (utf8 "equal"),
            .form span₁ [.symbol head₁ (utf8 "quote"), a],
            .form span₂ [.symbol head₂ (utf8 "quote"), b]]) =
          (.value (.bool (a.same b)), f)) ∧
    (∀ x y : Value, x.isWhole → y.isWhole → (x.same y ↔ x = y)) ∧
    (Equivalence fun x y : { v : Value // v.isWhole } => x.val.same y.val) ∧
    ∀ x y : Value, x.same y → x.typeName = y.typeName := by
  have hvalues : ∀ x y : Value, x.isWhole → y.isWhole → (x.same y ↔ x = y) := by
    intro x y hx _
    rw [Value.same_iff, and_iff_right hx]
  refine ⟨?_, hvalues, ⟨?_, ?_, ?_⟩, ?_⟩
  · intro a b ha hb
    refine ⟨Expr.same_ofExpr ha hb, Expr.text_ofExpr ha, ?_⟩
    intro o f i span head span₁ head₁ span₂ head₂ hlimit
    have htwo : o.limit.crossed 2 = none := DepthLimit.crossed_eq_none_iff.mpr hlimit
    rw [← Expr.same_ofExpr ha hb]
    exact evaluate_unchanged (Eval.evaluate_equal_quoted htwo ..)
  · rintro ⟨x, hx⟩
    exact (hvalues x x hx hx).mpr rfl
  · rintro ⟨x, hx⟩ ⟨y, hy⟩ hsame
    exact (hvalues y x hy hx).mpr ((hvalues x y hx hy).mp hsame).symm
  · rintro ⟨x, hx⟩ ⟨y, hy⟩ ⟨z, hz⟩ hxy hyz
    exact (hvalues x z hx hz).mpr (((hvalues x y hx hy).mp hxy).trans ((hvalues y z hy hz).mp hyz))
  · intro x y hsame
    rw [(Value.same_iff.mp hsame).2]

/-- Two forms that were read at different places are equal once quoted, also where a variable has
the name in them; neither equals the form with the number written as a symbol. -/
theorem Forest.quoted_equality_is_structural_places :
    let form (line : Int) (number : Expr) : Expr :=
      .form (.of line 0 9) [.symbol (.of line 1 2) (utf8 "x"), .form (.of line 3 5) [], number]
    let equal (a b : Expr) : Expr := .form .zero [.symbol .zero (utf8 "equal"),
      .form .zero [.symbol .zero (utf8 "quote"), a], .form .zero [.symbol .zero (utf8 "quote"), b]]
    let f := empty.addRoot.assign 0 (utf8 "x") (.int 7)
    let o : Eval.Options := ⟨true, some 2⟩
    f.evaluate o 0 (equal (form 1 (.int .zero 1)) (form 2 (.int .zero 1))) =
      (.value (.bool true), f) ∧
    f.evaluate o 0 (equal (form 1 (.int .zero 1)) (form 1 (.symbol .zero (utf8 "1")))) =
      (.value (.bool false), f) ∧
    ¬ Value.nil.same (.list []) ∧ ¬ (Value.bool true).same (.symbol (utf8 "true")) := by
  intro form equal f o
  obtain ⟨hexprs, hvalues, -, -⟩ := quoted_equality_is_structural
  have hlimit : ∀ n, o.limit = some n → 2 ≤ n := by
    rintro n ⟨⟩
    exact Nat.le_refl 2
  refine ⟨?_, ?_, ?_, ?_⟩
  · exact (hexprs (form 1 (.int .zero 1)) (form 2 (.int .zero 1)) (by decide) (by decide)).2.2
      o f 0 .zero .zero .zero .zero .zero .zero hlimit
  · exact (hexprs (form 1 (.int .zero 1)) (form 1 (.symbol .zero (utf8 "1"))) (by decide)
      (by decide)).2.2 o f 0 .zero .zero .zero .zero .zero .zero hlimit
  · rw [hvalues .nil (.list []) rfl rfl]
    simp
  · rw [hvalues (.bool true) (.symbol (utf8 "true")) rfl rfl]
    simp

end LineLisp
