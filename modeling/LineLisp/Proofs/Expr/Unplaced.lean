import LineLisp.Proofs.Expr.RoundTrip
import LineLisp.Proofs.Scope.Sound
import Mathlib.Data.List.Forall2

/-!
Expressions without their places. Forgetting the places keeps the text of an expression and the
data that it is taken for, and expressions are the same exactly when nothing in them is absent and
only their places differ. Places may also be compared, by a relation that has to hold between each
place and the place of the same part in the other expression.
-/

namespace LineLisp.Expr

mutual

/-- The expression with every place forgotten. -/
def unplaced : Expr → Expr
  | .int _ value => .int .zero value
  | .symbol _ name => .symbol .zero name
  | .form _ elems => .form .zero (unplacedAll elems)
  | .absent => .absent

def unplacedAll : List Expr → List Expr
  | [] => []
  | e :: es => unplaced e :: unplacedAll es

end

theorem unplacedAll_eq_map (es : List Expr) : unplacedAll es = es.map unplaced := by
  induction es with
  | nil => rfl
  | cons e es ih => simp [unplacedAll, ih]

@[simp]
theorem unplaced_int (span : Span) (value : Int64) :
    (int span value).unplaced = .int .zero value := rfl

@[simp]
theorem unplaced_symbol (span : Span) (name : Bytes) :
    (symbol span name).unplaced = .symbol .zero name := rfl

@[simp]
theorem unplaced_form (span : Span) (elems : List Expr) :
    (form span elems).unplaced = .form .zero (elems.map unplaced) := by
  rw [unplaced, unplacedAll_eq_map]

@[simp]
theorem unplaced_absent : absent.unplaced = .absent := rfl

theorem text_unplaced (e : Expr) : e.unplaced.text = e.text := by
  induction e using induct with
  | int span value => rw [unplaced_int, text_int, text_int]
  | symbol span name => rw [unplaced_symbol, text_symbol, text_symbol]
  | form span elems ih =>
      have helems : elems.map (text ∘ unplaced) = elems.map text := List.map_congr_left ih
      rw [unplaced_form, text_form, text_form, List.map_map, helems]
  | absent => rfl

theorem isWhole_unplaced (e : Expr) : e.unplaced.isWhole = e.isWhole := by
  induction e using induct with
  | form span elems ih =>
      rw [unplaced_form, Bool.eq_iff_iff, isWhole, isWhole, areWhole_iff, areWhole_iff,
        List.forall_mem_map]
      exact forall₂_congr fun e he => by rw [ih e he]
  | _ => rfl

theorem ofExpr_unplaced (e : Expr) : Value.ofExpr e.unplaced = Value.ofExpr e := by
  induction e using induct with
  | form span elems ih =>
      have helems : elems.map (Value.ofExpr ∘ unplaced) = elems.map Value.ofExpr :=
        List.map_congr_left ih
      rw [unplaced_form, Value.ofExpr, Value.ofExpr, Value.ofExprs_eq, Value.ofExprs_eq,
        List.map_map, helems]
  | _ => rfl

private theorem sameAll_iff {es es' : List Expr}
    (h : ∀ e ∈ es, ∀ e', e.same e' ↔ e.isWhole ∧ e.unplaced = e'.unplaced) :
    sameAll es es' ↔ areWhole es ∧ es.map unplaced = es'.map unplaced := by
  induction es generalizing es' with
  | nil => cases es' <;> simp [sameAll, areWhole]
  | cons e es ih =>
      cases es' with
      | nil => simp [sameAll]
      | cons e' es' =>
          have hfirst := h e (by simp) e'
          have hrest : sameAll es es' ↔ areWhole es ∧ es.map unplaced = es'.map unplaced :=
            ih fun e he => h e (by simp [he])
          simp only [sameAll, areWhole, Bool.and_eq_true, hfirst, hrest, List.map_cons,
            List.cons.injEq]
          exact and_and_and_comm

/-- Expressions are the same when nothing in them is absent and they differ in places only. -/
theorem same_iff_unplaced {e e' : Expr} :
    e.same e' ↔ e.isWhole ∧ e.unplaced = e'.unplaced := by
  induction e using induct generalizing e' with
  | int span value => cases e' <;> simp [same, isWhole]
  | symbol span name => cases e' <;> simp [same, isWhole]
  | form span elems ih =>
      cases e' with
      | form span' elems' =>
          rw [same, isWhole, sameAll_iff fun e he e' => ih e he, unplaced_form, unplaced_form]
          simp
      | _ => simp [same]
  | absent => simp [same, isWhole]

theorem map_unplaced_eq_iff {es es' : List Expr} :
    es.map unplaced = es'.map unplaced ↔
      List.Forall₂ (fun e e' => e.unplaced = e'.unplaced) es es' := by
  rw [← List.forall₂_eq_eq_eq, List.forall₂_map_left_iff, List.forall₂_map_right_iff]

private theorem partsAll_unplaced {es : List Expr}
    (h : ∀ e ∈ es, e.unplaced.parts = e.parts.map unplaced) :
    partsAll (es.map unplaced) = (partsAll es).map unplaced := by
  induction es with
  | nil => rfl
  | cons e es ih =>
      rw [List.map_cons, partsAll, partsAll, List.map_append, h e (by simp),
        ih fun e he => h e (by simp [he])]

theorem parts_unplaced (e : Expr) : e.unplaced.parts = e.parts.map unplaced := by
  induction e using induct with
  | form span elems ih =>
      rw [unplaced_form, parts, parts, List.map_cons, unplaced_form, partsAll_unplaced ih]
  | _ => rfl

/-- Expressions that differ in places only have the same parts, up to places. -/
theorem length_parts_eq {e e' : Expr} (h : e.unplaced = e'.unplaced) :
    e.parts.length = e'.parts.length := by
  rw [← List.length_map unplaced, ← parts_unplaced, h, parts_unplaced, List.length_map]

/-- Whether two expressions differ in places only, and each place is related to its counterpart. -/
inductive SameUpTo (R : Span → Span → Prop) : Expr → Expr → Prop where
  | int {span span' : Span} (h : R span span') (value : Int64) :
      SameUpTo R (.int span value) (.int span' value)
  | symbol {span span' : Span} (h : R span span') (name : Bytes) :
      SameUpTo R (.symbol span name) (.symbol span' name)
  | form {span span' : Span} (h : R span span') {elems elems' : List Expr}
      (helems : List.Forall₂ (SameUpTo R) elems elems') :
      SameUpTo R (.form span elems) (.form span' elems')
  | absent : SameUpTo R .absent .absent

namespace SameUpTo

variable {R R' : Span → Span → Prop}

theorem refl (hR : ∀ span, R span span) (e : Expr) : SameUpTo R e e := by
  induction e using induct with
  | int span value => exact .int (hR span) value
  | symbol span name => exact .symbol (hR span) name
  | form span elems ih => exact .form (hR span) (List.forall₂_same.mpr ih)
  | absent => exact .absent

theorem imp (hR : ∀ span span', R span span' → R' span span') {e e' : Expr}
    (h : SameUpTo R e e') : SameUpTo R' e e' := by
  induction e using induct generalizing e' with
  | int span value =>
      cases h with
      | int h => exact .int (hR _ _ h) value
  | symbol span name =>
      cases h with
      | symbol h => exact .symbol (hR _ _ h) name
  | form span elems ih =>
      cases h with
      | form h helems =>
          refine .form (hR _ _ h) ?_
          rw [List.forall₂_iff_zip] at helems ⊢
          exact ⟨helems.1, fun hzip => ih _ (List.of_mem_zip hzip).1 (helems.2 hzip)⟩
  | absent =>
      cases h
      exact .absent

/-- An absent expression has a place too, the same one always. -/
theorem span (hR : ∀ span, R span span) {e e' : Expr} (h : SameUpTo R e e') :
    R e.span e'.span := by
  cases h with
  | int h => exact h
  | symbol h => exact h
  | form h => exact h
  | absent => exact hR _

theorem unplaced {e e' : Expr} (h : SameUpTo R e e') : e.unplaced = e'.unplaced := by
  induction e using induct generalizing e' with
  | form span elems ih =>
      cases h with
      | form h helems =>
          rw [unplaced_form, unplaced_form, map_unplaced_eq_iff.mpr]
          rw [List.forall₂_iff_zip] at helems ⊢
          exact ⟨helems.1, fun hzip => ih _ (List.of_mem_zip hzip).1 (helems.2 hzip)⟩
  | _ =>
      cases h
      rfl

private theorem all_of_unplaced {es es' : List Expr}
    (h : ∀ e ∈ es, ∀ {e'}, e.unplaced = e'.unplaced →
      (∀ parts ∈ e.parts.zip e'.parts, R parts.1.span parts.2.span) → SameUpTo R e e')
    (hsame : List.Forall₂ (fun e e' => e.unplaced = e'.unplaced) es es')
    (hR : ∀ parts ∈ (partsAll es).zip (partsAll es'), R parts.1.span parts.2.span) :
    List.Forall₂ (SameUpTo R) es es' := by
  induction hsame with
  | nil => exact .nil
  | @cons e e' es es' he _ ih =>
      rw [partsAll, partsAll, List.zip_append (length_parts_eq he)] at hR
      refine .cons (h e (by simp) he fun parts hparts => hR parts ?_) ?_
      · exact List.mem_append_left _ hparts
      · exact ih (fun e he => h e (by simp [he])) fun parts hparts =>
          hR parts (List.mem_append_right _ hparts)

/-- It is enough to relate the places of the parts in their order. -/
theorem of_unplaced {e e' : Expr} (h : e.unplaced = e'.unplaced)
    (hR : ∀ parts ∈ e.parts.zip e'.parts, R parts.1.span parts.2.span) : SameUpTo R e e' := by
  induction e using induct generalizing e' with
  | int span value =>
      cases e' with
      | int span' value' =>
          obtain ⟨-, rfl⟩ := Expr.int.inj h
          exact .int (hR (_, _) (List.mem_singleton.mpr rfl)) value
      | _ => simp at h
  | symbol span name =>
      cases e' with
      | symbol span' name' =>
          obtain ⟨-, rfl⟩ := Expr.symbol.inj h
          exact .symbol (hR (_, _) (List.mem_singleton.mpr rfl)) name
      | _ => simp at h
  | form span elems ih =>
      cases e' with
      | form span' elems' =>
          rw [unplaced_form, unplaced_form] at h
          rw [parts, parts, List.zip_cons_cons] at hR
          refine .form (hR _ (List.mem_cons_self ..)) ?_
          exact all_of_unplaced ih (map_unplaced_eq_iff.mp (Expr.form.inj h).2)
            fun parts hparts => hR parts (List.mem_cons_of_mem _ hparts)
      | _ => simp at h
  | absent =>
      cases e' with
      | absent => exact .absent
      | _ => simp at h

/-- Lists of expressions that differ in places only, with the places of their parts related. -/
theorem forall₂_of_unplaced {es es' : List Expr} (h : es.map Expr.unplaced = es'.map Expr.unplaced)
    (hR : ∀ parts ∈ (partsAll es).zip (partsAll es'), R parts.1.span parts.2.span) :
    List.Forall₂ (SameUpTo R) es es' :=
  all_of_unplaced (fun _ _ => of_unplaced) (map_unplaced_eq_iff.mp h) hR

end SameUpTo

end LineLisp.Expr
