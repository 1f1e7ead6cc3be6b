import LineLisp.Expr.Tree
import LineLisp.Proofs.Expr.Sound

/-!
How deeply the tree of an expression is nested. A form has an object for itself and a list for its
elements, and the innermost objects are the positions of spans. So a tree takes two levels for each
level of the expression and one more, and a bound on the levels of a document is a bound on the
height of the expressions in it.
-/

namespace LineLisp

namespace Json

variable {n : Nat}

theorem depthOfItems_le_iff {found : Nat} {items : List Json} :
    depthOfItems found items ≤ n ↔ found ≤ n ∧ ∀ item ∈ items, item.depth ≤ n := by
  induction items generalizing found with
  | nil => simp [depthOfItems]
  | cons item items ih =>
      rw [depthOfItems, ih, List.forall_mem_cons, Nat.max_le, and_assoc]

theorem depthOfFields_eq (found : Nat) (fields : List (String × Json)) :
    depthOfFields found fields = depthOfItems found (fields.map (·.2)) := by
  induction fields generalizing found with
  | nil => rfl
  | cons field fields ih =>
      obtain ⟨key, value⟩ := field
      exact ih _

theorem depth_list_le_iff {items : List Json} :
    (list items).depth ≤ n + 1 ↔ ∀ item ∈ items, item.depth ≤ n := by
  rw [depth, Nat.add_le_add_iff_right, depthOfItems_le_iff, and_iff_right (Nat.zero_le n)]

theorem depth_object_le_iff {fields : List (String × Json)} :
    (object fields).depth ≤ n + 1 ↔ ∀ field ∈ fields, field.2.depth ≤ n := by
  rw [depth, depthOfFields_eq, Nat.add_le_add_iff_right, depthOfItems_le_iff,
    and_iff_right (Nat.zero_le n), List.forall_mem_map]

/-- The order of fields does not matter. -/
theorem depth_sorted_le_iff {fields : List (String × Json)} :
    (sorted fields).depth ≤ n + 1 ↔ ∀ field ∈ fields, field.2.depth ≤ n := by
  rw [sorted, depth_object_le_iff]
  exact forall_congr' fun field => imp_congr_left List.mem_mergeSort

end Json

/-- A span is an object of two positions. -/
theorem Span.depth_json_le_iff {span : Span} {n : Nat} :
    (span.json .sorted).depth ≤ n ↔ 2 ≤ n := by
  have hposition : ∀ {m : Nat} (p : Position), (Json.sorted p.fields).depth ≤ m ↔ 1 ≤ m := by
    intro m p
    cases m with
    | zero => simp [Json.sorted, Json.depth]
    | succ m => simp [Json.depth_sorted_le_iff, Position.fields, Json.depth]
  cases n with
  | zero => simp [Span.json, Json.sorted, Json.depth]
  | succ n => simp [Span.json, Json.depth_sorted_le_iff, hposition]

namespace Expr

theorem trees_eq (done : List Json) (es : List Expr) :
    trees done es = done.reverse ++ es.map tree := by
  induction es generalizing done with
  | nil => simp [trees]
  | cons e es ih => simp [trees, ih]

/-- The tree of a whole expression takes two levels for each of its levels and one more. -/
theorem depth_tree_le_iff {e : Expr} (h : e.isWhole) {n : Nat} :
    e.tree.depth ≤ n ↔ 2 * e.height + 1 ≤ n := by
  induction e using induct generalizing n with
  | int span value | symbol span name =>
      cases n with
      | zero => simp [tree, Json.sorted, Json.depth]
      | succ n => simp [tree, Json.depth_sorted_le_iff, Json.depth, Span.depth_json_le_iff, height]
  | form span elems ih =>
      have hwhole : ∀ e ∈ elems, e.isWhole := areWhole_iff.mp h
      have helems : ∀ {k : Nat}, Json.depthOfItems 0 (trees [] elems) ≤ k ↔
          ∀ e ∈ elems, 2 * e.height + 1 ≤ k := by
        intro k
        rw [Json.depthOfItems_le_iff, and_iff_right (Nat.zero_le k), trees_eq, List.reverse_nil,
          List.nil_append, List.forall_mem_map]
        exact forall₂_congr fun e he => ih e he (hwhole e he)
      have hall : ∀ {k : Nat}, 1 ≤ k →
          ((∀ e ∈ elems, 2 * e.height + 1 ≤ k) ↔ 2 * heightAll elems + 1 ≤ k) := by
        intro k hk
        have hhalf : ∀ h : Nat, 2 * h + 1 ≤ k ↔ h ≤ (k - 1) / 2 := by omega
        simp only [hhalf, heightAll_le_iff]
      rcases n with _ | _ | k
      · simp [tree, Json.sorted, Json.depth]
      · simp [tree, Json.depth_sorted_le_iff, Json.depth, height]
      · have hfields : (form span elems).tree.depth ≤ k + 2 ↔
            1 ≤ k ∧ ∀ e ∈ elems, 2 * e.height + 1 ≤ k := by
          simp [tree, Json.depth_sorted_le_iff, Json.depth, Span.depth_json_le_iff, helems]
        rw [hfields, and_congr_right hall, height]
        omega
  | absent => cases h

end Expr

end LineLisp
