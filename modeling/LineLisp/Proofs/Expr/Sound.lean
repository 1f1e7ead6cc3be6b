import LineLisp.Proofs.Expr.Grammar
import LineLisp.Proofs.Expr.Parts
import LineLisp.Proofs.Token.Scan

/-!
Sound expressions: nothing in them is absent, and every symbol has a name that the scanner finds
as one token and that is no integer. Whatever is read from a line is sound.
-/

namespace LineLisp

/-- The names that a symbol read from a line can have. -/
structure Scan.IsName (name : Bytes) : Prop where
  nonempty : name ≠ []
  scanned : ∃ t, Token.body (Scan.tokens 1 name) = [t] ∧
    (t.kind = .word ∨ t.kind = .operator) ∧ t.lexeme = name
  notInteger : ∀ k : Int64, ¬ Decimal.Denotes name k.toInt

/-- A lexeme of a word or an operator is found as one token. -/
theorem Scan.scans_lexeme {kind : Token.Kind} {lexeme : Bytes}
    (hkind : kind = .word ∨ kind = .operator) (h : Scan.isLexeme kind lexeme) :
    Scan.Scans lexeme [(kind, lexeme)] := by
  rcases hkind with rfl | rfl
  · exact Scan.scans_word h
  · exact Scan.scans_operator h

theorem Scan.isName_of_isLexeme {kind : Token.Kind} {name : Bytes}
    (hkind : kind = .word ∨ kind = .operator) (hlexeme : Scan.isLexeme kind name)
    (hnot : Decimal.toInt64? name = none) : Scan.IsName name := by
  have hscans := Scan.scans_lexeme hkind hlexeme
  refine ⟨?_, ?_, ?_⟩
  · rintro rfl
    rcases hkind with rfl | rfl
    · simp [Scan.isLexeme, Scan.isWord] at hlexeme
    · simp [Scan.isLexeme, Scan.isOperatorText] at hlexeme
  · have hbody := hscans.body_tokens 1
    rw [List.map_eq_singleton_iff] at hbody
    obtain ⟨t, ht, hpair⟩ := hbody
    simp only [Prod.mk.injEq] at hpair
    exact ⟨t, ht, hpair.1 ▸ hkind, hpair.2⟩
  · intro k hk
    rw [Decimal.toInt64?_eq_some_iff.mpr hk] at hnot
    cases hnot

/-- A name is scanned as itself wherever a token may begin. -/
theorem Scan.IsName.scans {name : Bytes} (h : Scan.IsName name) :
    ∃ kind, (kind = .word ∨ kind = .operator) ∧ Scan.Scans name [(kind, name)] := by
  obtain ⟨t, ht, hkind, rfl⟩ := h.scanned
  have hmem : t ∈ Token.body (Scan.tokensOf false 1 t.lexeme) := by
    simp [Scan.tokensOf, ht]
  exact ⟨t.kind, hkind, Scan.scans_lexeme hkind (Scan.isLexeme_of_mem_body hmem)⟩

theorem Scan.isName_quoteName : Scan.IsName Token.quoteName :=
  Scan.isName_of_isLexeme (.inl rfl) (by decide +kernel) (by decide +kernel)

namespace Expr

def name? : Expr → Option Bytes
  | .symbol _ name => some name
  | _ => none

/-- The names of the symbols in an expression. -/
def names (e : Expr) : List Bytes :=
  e.parts.filterMap name?

structure Sound (e : Expr) : Prop where
  whole : e.isWhole
  names : ∀ x ∈ e.names, Scan.IsName x

theorem areWhole_iff {es : List Expr} : areWhole es ↔ ∀ e ∈ es, e.isWhole := by
  induction es with
  | nil => simp [areWhole]
  | cons e es ih => simp [areWhole, ih]

theorem mem_names_form {x : Bytes} {span : Span} {elems : List Expr} :
    x ∈ (form span elems).names ↔ ∃ e ∈ elems, x ∈ e.names := by
  constructor
  · intro h
    obtain ⟨p, hp, hx⟩ := List.mem_filterMap.mp h
    rcases mem_parts_form.mp hp with rfl | ⟨e, he, hpe⟩
    · simp [name?] at hx
    · exact ⟨e, he, List.mem_filterMap.mpr ⟨p, hpe, hx⟩⟩
  · rintro ⟨e, he, h⟩
    obtain ⟨p, hp, hx⟩ := List.mem_filterMap.mp h
    exact List.mem_filterMap.mpr ⟨p, mem_parts_form.mpr (.inr ⟨e, he, hp⟩), hx⟩

theorem sound_int (span : Span) (n : Int64) : (int span n).Sound :=
  ⟨rfl, by simp [names, parts, name?]⟩

theorem sound_symbol_iff {span : Span} {name : Bytes} :
    (symbol span name).Sound ↔ Scan.IsName name := by
  constructor
  · intro h
    exact h.names name (by simp [names, parts, name?])
  · intro h
    exact ⟨rfl, by simpa [names, parts, name?] using h⟩

theorem sound_form_iff {span : Span} {elems : List Expr} :
    (form span elems).Sound ↔ ∀ e ∈ elems, e.Sound := by
  constructor
  · intro h e he
    have hwhole : areWhole elems := h.whole
    exact ⟨areWhole_iff.mp hwhole e he,
      fun x hx => h.names x (mem_names_form.mpr ⟨e, he, hx⟩)⟩
  · intro h
    refine ⟨areWhole_iff.mpr fun e he => (h e he).whole, ?_⟩
    intro x hx
    obtain ⟨e, he, hxe⟩ := mem_names_form.mp hx
    exact (h e he).names x hxe

theorem not_sound_absent : ¬ absent.Sound := by
  intro h
  exact absurd h.whole (by simp [isWhole])

end Expr

namespace Derivation

theorem mem_tokensAll {t : Token} {ds : List Derivation} :
    t ∈ tokensAll ds ↔ ∃ d ∈ ds, t ∈ d.tokens := by
  induction ds with
  | nil => simp [tokensAll]
  | cons d ds ih => simp [tokensAll, ih]

/-- Among the tokens of a line, words and operators are the atoms. -/
theorem kind_of_isAtom {t : Token} (hatom : t.isAtom) (hlexeme : Scan.isLexeme t.kind t.lexeme) :
    t.kind = .word ∨ t.kind = .operator := by
  cases hcase : t.kind <;> simp_all [Token.isAtom, Scan.isLexeme]

theorem atom_sound {t : Token} (hatom : t.isAtom) (hlexeme : Scan.isLexeme t.kind t.lexeme) :
    (Read.atom t).Sound := by
  unfold Read.atom
  split
  · exact Expr.sound_int _ _
  · rename_i hnot
    have hkind := kind_of_isAtom hatom hlexeme
    exact Expr.sound_symbol_iff.mpr (Scan.isName_of_isLexeme hkind hlexeme hnot)

/-- What is derived from scanned tokens is sound. -/
theorem expr_sound (d : Derivation) (h : ∀ t ∈ d.tokens, Scan.isLexeme t.kind t.lexeme) :
    d.expr.Sound := by
  induction d using induct with
  | atom t hatom => exact atom_sound hatom (h t (by simp [tokens]))
  | form opened closed hopened hclosed elems ih =>
      rw [expr, Expr.sound_form_iff, exprs_eq_map]
      intro e he
      obtain ⟨d, hd, rfl⟩ := List.mem_map.mp he
      apply ih d hd
      intro t ht
      apply h t
      simp only [tokens, List.mem_cons, List.mem_append, mem_tokensAll]
      exact .inr (.inl ⟨d, hd, ht⟩)
  | quote mark hmark inner ih =>
      have hinner : inner.expr.Sound := ih fun t ht => h t (by simp [tokens, ht])
      rw [expr, Expr.sound_form_iff]
      intro e he
      simp only [List.mem_cons, List.not_mem_nil, or_false] at he
      rcases he with rfl | rfl
      · exact Expr.sound_symbol_iff.mpr Scan.isName_quoteName
      · exact hinner

end Derivation

/-- Whatever is read from a line is sound. -/
theorem Read.one_sound {limit : DepthLimit} {skipWord : Bool} {line : Int} {source : Bytes}
    {e : Expr} (h : Read.one limit (Scan.tokensOf skipWord line source) = .ok e) : e.Sound := by
  obtain ⟨d, htokens, rfl, -⟩ := Read.one_eq_ok_iff.mp h
  apply d.expr_sound
  intro t ht
  rw [htokens] at ht
  exact Scan.isLexeme_of_mem_body ht

end LineLisp
