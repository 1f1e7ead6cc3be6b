import LineLisp.Proofs.Expr.Derivation
import LineLisp.Proofs.Token.Lines

/-!
Parentheses in expressions. Whatever has a derivation closes the parentheses that it opens and no
others, and a form keeps its own parenthesis open up to its last token.
-/

namespace LineLisp

namespace Token

/-- Whether tokens close as many parentheses as they open, and at no place more. -/
structure Balanced (tokens : List Token) : Prop where
  settled : parenBalance tokens = 0
  covered : ∀ front back, tokens = front ++ back → 0 ≤ parenBalance front

namespace Balanced

variable {first second : List Token}

theorem nil : Balanced [] := by
  refine ⟨rfl, ?_⟩
  intro front back h
  obtain ⟨rfl, -⟩ := List.append_eq_nil_iff.mp h.symm
  exact Int.le_refl _

theorem append (h : Balanced first) (h' : Balanced second) : Balanced (first ++ second) := by
  refine ⟨by rw [parenBalance_append, h.settled, h'.settled]; rfl, ?_⟩
  intro front back heq
  rcases List.append_eq_append_iff.mp heq with ⟨more, rfl, hsecond⟩ | ⟨more, hfirst, -⟩
  · rw [parenBalance_append, h.settled, Int.zero_add]
    exact h'.covered more back hsecond
  · exact h.covered front more hfirst

theorem cons_neutral {t : Token} (ht : parenBalance.weight t.kind = 0) (h : Balanced second) :
    Balanced (t :: second) := by
  refine ⟨by rw [parenBalance_cons, ht, h.settled]; rfl, ?_⟩
  intro front back heq
  cases front with
  | nil => exact Int.le_refl _
  | cons first front =>
      obtain ⟨rfl, hrest⟩ := List.cons.inj heq
      rw [parenBalance_cons, ht, Int.zero_add]
      exact h.covered front back hrest

section enclosed

variable {opened closed : Token} (hopened : opened.kind = .lparen) (hclosed : closed.kind = .rparen)
include hopened

/-- Between its ends an enclosed text has a parenthesis open. -/
theorem enclosed_pos (h : Balanced first) {front back : List Token} (hfront : front ≠ [])
    (hback : back ≠ []) (heq : opened :: (first ++ [closed]) = front ++ back) :
    0 < parenBalance front := by
  cases front with
  | nil => exact absurd rfl hfront
  | cons t front =>
      obtain ⟨rfl, hrest⟩ := List.cons.inj heq
      have hinner : ∃ more, first = front ++ more := by
        rcases List.append_eq_append_iff.mp hrest with ⟨more, hmore, hlast⟩ | ⟨more, hfirst, -⟩
        · have hnone : more = [] := by
            cases more with
            | nil => rfl
            | cons _ _ => simp_all
          exact ⟨[], by rw [hmore, hnone]; simp⟩
        · exact ⟨more, hfirst⟩
      obtain ⟨more, hfirst⟩ := hinner
      have hcovered := h.covered front more hfirst
      rw [parenBalance_cons, hopened]
      simp only [parenBalance.weight]
      omega

include hclosed

theorem enclosed (h : Balanced first) : Balanced (opened :: (first ++ [closed])) := by
  have hsettled : parenBalance (opened :: (first ++ [closed])) = 0 := by
    rw [parenBalance_cons, parenBalance_append, parenBalance_cons, hopened, hclosed, h.settled]
    rfl
  refine ⟨hsettled, ?_⟩
  intro front back heq
  by_cases hfront : front = []
  · subst hfront
    exact Int.le_refl _
  by_cases hback : back = []
  · rw [hback, List.append_nil] at heq
    exact Int.le_of_eq (heq ▸ hsettled.symm)
  · have hpos := h.enclosed_pos hopened hfront hback heq
    omega

end enclosed

end Balanced

end Token

namespace Derivation

open Token (Balanced)

theorem balanced_tokensAll {ds : List Derivation} (h : ∀ d ∈ ds, Balanced d.tokens) :
    Balanced (tokensAll ds) := by
  induction ds with
  | nil => exact .nil
  | cons d ds ih =>
      have hrest := ih fun x hx => h x (by simp [hx])
      exact (h d (by simp)).append hrest

/-- Every derivation closes what it opens. -/
theorem balanced_tokens (d : Derivation) : Balanced d.tokens := by
  induction d using induct with
  | atom t h =>
      have hweight : Token.parenBalance.weight t.kind = 0 := by
        cases hkind : t.kind <;> simp_all [Token.isAtom, Token.parenBalance.weight]
      exact .cons_neutral hweight .nil
  | form opened closed hopened hclosed elems ih =>
      exact (balanced_tokensAll ih).enclosed hopened hclosed
  | quote mark hmark inner ih =>
      exact .cons_neutral (by rw [hmark]; rfl) ih

/-- An expression that begins with a parenthesis has it open before each of its later tokens. -/
theorem parenBalance_pos {d : Derivation} (hd : d.tokens.head?.map (·.kind) = some .lparen)
    {front back : List Token} (hfront : front ≠ []) (hback : back ≠ [])
    (heq : d.tokens = front ++ back) : 0 < Token.parenBalance front := by
  cases d with
  | atom t h =>
      simp only [tokens, List.head?_cons, Option.map_some, Option.some.injEq] at hd
      simp [Token.isAtom, hd] at h
  | form opened closed hopened hclosed elems =>
      have helems : Balanced (tokensAll elems) := balanced_tokensAll fun d _ => d.balanced_tokens
      exact helems.enclosed_pos hopened hfront hback heq
  | quote mark hmark inner =>
      simp only [tokens, List.head?_cons, Option.map_some, Option.some.injEq] at hd
      simp [hd] at hmark

end Derivation

end LineLisp
