import LineLisp.Operator
import LineLisp.Value

/-!
The parts of an expression: itself and everything that stands in it at any depth. Symbol names
and the targets of assignments and definitions are read off the parts. Induction over
expressions goes from the elements of a form to the form.
-/

namespace LineLisp.Expr

/-- Induction over expressions, with the hypothesis for every element of a form. -/
@[elab_as_elim]
theorem induct {motive : Expr → Prop}
    (int : ∀ span value, motive (.int span value))
    (symbol : ∀ span name, motive (.symbol span name))
    (form : ∀ span elems, (∀ e ∈ elems, motive e) → motive (.form span elems))
    (absent : motive .absent) (e : Expr) : motive e :=
  @Expr.rec motive (fun es => ∀ e ∈ es, motive e) int symbol form absent
    (by simp)
    (by
      intro e es he hes x hx
      rcases List.mem_cons.mp hx with rfl | hx
      · exact he
      · exact hes x hx)
    e

mutual

/-- The expression and everything in it. -/
def parts : Expr → List Expr
  | .form span elems => .form span elems :: partsAll elems
  | e => [e]

def partsAll : List Expr → List Expr
  | [] => []
  | e :: es => parts e ++ partsAll es

end

theorem self_mem_parts (e : Expr) : e ∈ e.parts := by
  cases e <;> simp [parts]

theorem mem_partsAll {p : Expr} {es : List Expr} :
    p ∈ partsAll es ↔ ∃ e ∈ es, p ∈ e.parts := by
  induction es with
  | nil => simp [partsAll]
  | cons e es ih => simp [partsAll, ih]

theorem mem_parts_form {p : Expr} {span : Span} {elems : List Expr} :
    p ∈ (form span elems).parts ↔ p = .form span elems ∨ ∃ e ∈ elems, p ∈ e.parts := by
  simp [parts, mem_partsAll]

/-- The name that follows `op` in a form `(op name ...)`. -/
def target? (op : Operator) : Expr → Option Bytes
  | .form _ (.symbol _ head :: .symbol _ name :: _) => if head = op.name then some name else none
  | _ => none

/-- The names `x` for which a form `(op x ...)` occurs in an expression. -/
def targets (op : Operator) (e : Expr) : List Bytes :=
  e.parts.filterMap (target? op)

theorem mem_targets_of_elem {op : Operator} {name : Bytes} {span : Span} {elems : List Expr}
    {e : Expr} (he : e ∈ elems) (h : name ∈ e.targets op) :
    name ∈ (form span elems).targets op := by
  obtain ⟨p, hp, htarget⟩ := List.mem_filterMap.mp h
  exact List.mem_filterMap.mpr ⟨p, mem_parts_form.mpr (.inr ⟨e, he, hp⟩), htarget⟩

theorem target_mem_targets (op : Operator) (span head place : Span) (name : Bytes)
    (rest : List Expr) :
    name ∈ (form span (.symbol head op.name :: .symbol place name :: rest)).targets op := by
  refine List.mem_filterMap.mpr ⟨_, mem_parts_form.mpr (.inl rfl), ?_⟩
  simp [target?]

/-- A form with another name at its front has no targets beyond those of its elements. -/
theorem mem_targets_form {op : Operator} {x name : Bytes} {span head : Span} {args : List Expr}
    (hname : name ≠ op.name) (h : x ∈ (form span (.symbol head name :: args)).targets op) :
    ∃ e ∈ args, x ∈ e.targets op := by
  obtain ⟨p, hp, htarget⟩ := List.mem_filterMap.mp h
  rcases mem_parts_form.mp hp with rfl | ⟨e, he, hpe⟩
  · cases args with
    | nil => simp [target?] at htarget
    | cons arg rest =>
        cases arg <;> simp [target?, hname] at htarget
  · rcases List.mem_cons.mp he with rfl | he
    · simp only [parts, List.mem_singleton] at hpe
      subst hpe
      simp [target?] at htarget
    · exact ⟨e, he, List.mem_filterMap.mpr ⟨p, hpe, htarget⟩⟩

end LineLisp.Expr
