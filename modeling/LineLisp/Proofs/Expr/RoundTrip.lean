import LineLisp.Proofs.Expr.Sound

/-!
Writing an expression and reading it again. The written text of a sound expression is scanned
token by token as it was written, and its tokens have a derivation of the same expression. Places
are not kept, so the expression read again is the same up to them, which is enough to have the
same text and the same height.
-/

namespace LineLisp

/-- A written integer is one word, its sign included. -/
theorem Scan.isWord_of_denotes {text : Bytes} {n : Int} (h : Decimal.Denotes text n) :
    Scan.isWord text := by
  have hplain : ∀ digits : Bytes, (∀ d ∈ digits, Decimal.isDigit d) →
      digits.all fun b => !Scan.isDelimiter b := by
    intro digits hdigits
    rw [List.all_eq_true]
    intro d hd
    simp [Scan.not_isDelimiter_of_isDigit (hdigits d hd)]
  have hsigned : ∀ (sign : UInt8) (digits : Bytes), Scan.isSign sign → digits ≠ [] →
      (∀ d ∈ digits, Decimal.isDigit d) → Scan.isWord (sign :: digits) := by
    intro sign digits hsign hne hdigits
    obtain ⟨d, rest, rfl⟩ := List.exists_cons_of_ne_nil hne
    have hd : Decimal.isDigit d := hdigits d (by simp)
    have hrest := hplain (d :: rest) hdigits
    simp only [Scan.isWord, hsign, List.head?_cons, Option.any_some, hd, Bool.and_self,
      Bool.or_true, Bool.true_and]
    exact hrest
  cases h with
  | minus hne hdigits => exact hsigned 0x2D _ (by decide) hne hdigits
  | plus hne hdigits => exact hsigned 0x2B _ (by decide) hne hdigits
  | unsigned hne hdigits =>
      obtain ⟨d, rest, rfl⟩ := List.exists_cons_of_ne_nil hne
      have hd := Scan.not_isDelimiter_of_isDigit (hdigits d (by simp))
      have hrest := hplain rest fun d hd => hdigits d (by simp [hd])
      simp only [Scan.isWord, hd, Bool.not_false, Bool.true_or, Bool.true_and]
      exact hrest

namespace Expr

/-- Elements after the first are written with a space before each. -/
theorem pushRest_eq {es : List Expr}
    (h : ∀ e ∈ es, ∀ written, push written e = e.text.reverse ++ written) (written : Bytes) :
    pushRest written es = (es.flatMap fun e => 0x20 :: e.text).reverse ++ written := by
  induction es generalizing written with
  | nil => simp [pushRest]
  | cons e es ih =>
      rw [pushRest, ih (fun e he => h e (by simp [he])), h e (by simp)]
      simp

/-- Writing goes on from what was written before. -/
theorem push_eq (written : Bytes) (e : Expr) : push written e = e.text.reverse ++ written := by
  induction e using induct generalizing written with
  | int span value => simp [text, push]
  | symbol span name => simp [text, push]
  | absent => simp [text, push]
  | form span elems ih =>
      cases elems with
      | nil => simp [text, push]
      | cons e es =>
          have hrest : ∀ written, pushRest written es =
              (es.flatMap fun e => 0x20 :: e.text).reverse ++ written :=
            pushRest_eq fun e he written => ih e (by simp [he]) written
          have hfirst := ih e (by simp)
          rw [text, push, push, hrest, hrest, hfirst, hfirst]
          simp

theorem text_int (span : Span) (value : Int64) : (int span value).text = Decimal.ofInt64 value := by
  simp [text, push]

theorem text_symbol (span : Span) (name : Bytes) : (symbol span name).text = name := by
  simp [text, push]

theorem join_cons (e : Expr) (es : List Expr) :
    Bytes.join [0x20] ((e :: es).map text) = e.text ++ es.flatMap fun e => 0x20 :: e.text := by
  induction es generalizing e with
  | nil => simp [Bytes.join]
  | cons next es ih =>
      have hjoin := ih next
      simp only [Bytes.join, List.map_cons, List.intercalate_cons_cons] at hjoin ⊢
      simp [hjoin]

/-- A form is written in parentheses, its elements divided by one space. -/
theorem text_form (span : Span) (elems : List Expr) :
    (form span elems).text = 0x28 :: (Bytes.join [0x20] (elems.map text) ++ [0x29]) := by
  cases elems with
  | nil => simp [text, push, Bytes.join]
  | cons e es =>
      rw [join_cons, text, push, pushRest_eq fun e _ written => push_eq written e, push_eq]
      simp

theorem sameAll_map {es es' : List Expr} {α : Type} {f : Expr → α}
    (hf : ∀ e ∈ es, ∀ e', e.same e' → f e = f e') (h : sameAll es es') :
    es.map f = es'.map f := by
  induction es generalizing es' with
  | nil =>
      cases es' with
      | nil => rfl
      | cons e' es' => simp [sameAll] at h
  | cons e es ih =>
      cases es' with
      | nil => simp [sameAll] at h
      | cons e' es' =>
          simp only [sameAll, Bool.and_eq_true] at h
          rw [List.map_cons, List.map_cons, hf e (by simp) e' h.1,
            ih (fun e he => hf e (by simp [he])) h.2]

/-- The same expressions have the same text, wherever they were read. -/
theorem text_eq_of_same {e e' : Expr} (h : e.same e') : e.text = e'.text := by
  induction e using induct generalizing e' with
  | int span value =>
      cases e' <;> simp only [same, beq_iff_eq, Bool.false_eq_true] at h
      rw [text_int, text_int, h]
  | symbol span name =>
      cases e' <;> simp only [same, beq_iff_eq, Bool.false_eq_true] at h
      rw [text_symbol, text_symbol, h]
  | form span elems ih =>
      cases e' <;> simp only [same, Bool.false_eq_true] at h
      rw [text_form, text_form, sameAll_map (fun e he e' hsame => ih e he hsame) h]
  | absent => simp [same] at h

theorem heightAll_eq_foldr (es : List Expr) : heightAll es = (es.map height).foldr max 0 := by
  induction es with
  | nil => rfl
  | cons e es ih => simp [heightAll, ih]

theorem height_eq_of_same {e e' : Expr} (h : e.same e') : e.height = e'.height := by
  induction e using induct generalizing e' with
  | int span value => cases e' <;> simp_all [same, height]
  | symbol span name => cases e' <;> simp_all [same, height]
  | form span elems ih =>
      cases e' <;> simp only [same, Bool.false_eq_true] at h
      rw [height, height, heightAll_eq_foldr, heightAll_eq_foldr,
        sameAll_map (fun e he e' hsame => ih e he hsame) h]
  | absent => simp [same] at h

/-- Whether a text is scanned as tokens that derive given expressions, wherever they stand. -/
def Spells (text : Bytes) (es : List Expr) : Prop :=
  ∃ lexemes, Scan.Scans text lexemes ∧
    ∀ tokens : List Token, (tokens.map fun t => (t.kind, t.lexeme)) = lexemes →
      ∃ ds, Derivation.tokensAll ds = tokens ∧ sameAll es (Derivation.exprs ds)

theorem sameAll_append {es es' fs fs' : List Expr} (h : sameAll es fs) (h' : sameAll es' fs') :
    sameAll (es ++ es') (fs ++ fs') := by
  induction es generalizing fs with
  | nil =>
      cases fs with
      | nil => exact h'
      | cons f fs => simp [sameAll] at h
  | cons e es ih =>
      cases fs with
      | nil => simp [sameAll] at h
      | cons f fs =>
          simp only [sameAll, Bool.and_eq_true] at h
          simp [sameAll, h.1, ih h.2]

theorem Spells.space {text text' : Bytes} {es es' : List Expr} (h : Spells text es)
    (h' : Spells text' es') : Spells (text ++ 0x20 :: text') (es ++ es') := by
  obtain ⟨lexemes, hscans, hderived⟩ := h
  obtain ⟨lexemes', hscans', hderived'⟩ := h'
  refine ⟨lexemes ++ lexemes', hscans.space hscans', ?_⟩
  intro tokens htokens
  obtain ⟨first, second, rfl, hfirst, hsecond⟩ := List.map_eq_append_iff.mp htokens
  obtain ⟨ds, hds, hsame⟩ := hderived first hfirst
  obtain ⟨ds', hds', hsame'⟩ := hderived' second hsecond
  refine ⟨ds ++ ds', by rw [Derivation.tokensAll_append, hds, hds'], ?_⟩
  simp only [Derivation.exprs_eq_map, List.map_append] at hsame hsame' ⊢
  exact sameAll_append hsame hsame'

/-- A single token spells the atom that it is read as. -/
theorem spells_atom {text : Bytes} {kind : Token.Kind} {e : Expr}
    (hkind : kind = .word ∨ kind = .operator) (hscans : Scan.Scans text [(kind, text)])
    (hsame : ∀ t : Token, t.lexeme = text → e.same (Read.atom t)) : Spells text [e] := by
  refine ⟨_, hscans, ?_⟩
  intro tokens htokens
  obtain ⟨t, rfl, hpair⟩ := List.map_eq_singleton_iff.mp htokens
  simp only [Prod.mk.injEq] at hpair
  have hatom : t.isAtom := by
    rcases hkind with rfl | rfl <;> simp [Token.isAtom, hpair.1]
  refine ⟨[.atom t hatom], by simp [Derivation.tokens], ?_⟩
  simp [Derivation.exprs, Derivation.expr, sameAll, hsame t hpair.2]

theorem spells_int (span : Span) (value : Int64) :
    Spells (int span value).text [int span value] := by
  rw [text_int]
  have hword := Scan.isWord_of_denotes (Decimal.denotes_ofInt value.toInt)
  refine spells_atom (.inl rfl) (Scan.scans_word hword) ?_
  intro t ht
  have hatom : Read.atom t = .int t.span value := by
    rw [Read.atom, ht, Decimal.toInt64?_ofInt64]
  rw [hatom]
  simp [same]

theorem spells_symbol (span : Span) {name : Bytes} (h : Scan.IsName name) :
    Spells (symbol span name).text [symbol span name] := by
  rw [text_symbol]
  obtain ⟨kind, hkind, hscans⟩ := h.scans
  refine spells_atom hkind hscans ?_
  intro t ht
  rw [Read.atom_eq_symbol (by simpa [ht] using h.notInteger)]
  simp [same, ht]

/-- Tokens between parentheses derive a form of what they derive. -/
theorem exists_form_derivation {tokens : List Token} {lexemes : List (Token.Kind × Bytes)}
    (span : Span) {es : List Expr}
    (htokens : (tokens.map fun t => (t.kind, t.lexeme)) =
      (.lparen, [0x28]) :: (lexemes ++ [(.rparen, [0x29])]))
    (hderived : ∀ inner : List Token, (inner.map fun t => (t.kind, t.lexeme)) = lexemes →
      ∃ ds, Derivation.tokensAll ds = inner ∧ sameAll es (Derivation.exprs ds)) :
    ∃ ds, Derivation.tokensAll ds = tokens ∧ sameAll [form span es] (Derivation.exprs ds) := by
  obtain ⟨opened, rest, rfl, hopened, hrest⟩ := List.map_eq_cons_iff.mp htokens
  obtain ⟨inner, last, rfl, hinner, hlast⟩ := List.map_eq_append_iff.mp hrest
  obtain ⟨closed, rfl, hclosed⟩ := List.map_eq_singleton_iff.mp hlast
  simp only [Prod.mk.injEq] at hopened hclosed
  obtain ⟨ds, hds, hsame⟩ := hderived inner hinner
  refine ⟨[.form opened closed hopened.1 hclosed.1 ds], by simp [Derivation.tokens, hds], ?_⟩
  simp [Derivation.exprs, Derivation.expr, sameAll, same, hsame]

/-- Elements divided by spaces spell themselves when each of them does. -/
theorem spells_elems {e : Expr} {es : List Expr} (h : ∀ x ∈ e :: es, Spells x.text [x]) :
    Spells (Bytes.join [0x20] ((e :: es).map text)) (e :: es) := by
  induction es generalizing e with
  | nil => simpa [Bytes.join] using h e (by simp)
  | cons next es ih =>
      have hrest := ih (e := next) fun x hx => h x (List.mem_cons_of_mem _ hx)
      have hjoin : Bytes.join [0x20] ((e :: next :: es).map text) =
          e.text ++ 0x20 :: Bytes.join [0x20] ((next :: es).map text) := by
        simp [Bytes.join]
      rw [hjoin]
      exact (h e (by simp)).space hrest

theorem spells_form (span : Span) {elems : List Expr} (h : ∀ e ∈ elems, Spells e.text [e]) :
    Spells (form span elems).text [form span elems] := by
  rw [text_form]
  cases elems with
  | nil =>
      refine ⟨_, Scan.scans_empty_form, fun tokens htokens => ?_⟩
      have hnone : ∀ inner : List Token, (inner.map fun t => (t.kind, t.lexeme)) = [] →
          ∃ ds, Derivation.tokensAll ds = inner ∧ sameAll [] (Derivation.exprs ds) := by
        intro inner hinner
        rw [List.map_eq_nil_iff] at hinner
        exact ⟨[], hinner.symm, rfl⟩
      exact exists_form_derivation span htokens hnone
  | cons e es =>
      obtain ⟨lexemes, hscans, hderived⟩ := spells_elems h
      exact ⟨_, hscans.parens, fun tokens htokens => exists_form_derivation span htokens hderived⟩

/-- The text of a sound expression spells it. -/
theorem Sound.spells {e : Expr} (h : e.Sound) : Spells e.text [e] := by
  induction e using induct with
  | int span value => exact spells_int span value
  | symbol span name => exact spells_symbol span (sound_symbol_iff.mp h)
  | form span elems ih => exact spells_form span fun e he => ih e he (sound_form_iff.mp h e he)
  | absent => exact absurd h not_sound_absent

/-- The text of a single expression has a derivation of it. -/
theorem Spells.exists_derivation {text : Bytes} {e : Expr} (h : Spells text [e]) :
    ∃ lexemes, Scan.Scans text lexemes ∧
      ∀ tokens : List Token, (tokens.map fun t => (t.kind, t.lexeme)) = lexemes →
        ∃ d : Derivation, d.tokens = tokens ∧ e.same d.expr := by
  obtain ⟨lexemes, hscans, hderived⟩ := h
  refine ⟨lexemes, hscans, fun tokens htokens => ?_⟩
  obtain ⟨ds, hds, hsame⟩ := hderived tokens htokens
  match ds with
  | [] => simp [Derivation.exprs, sameAll] at hsame
  | _ :: _ :: _ => simp [Derivation.exprs, sameAll] at hsame
  | [d] => exact ⟨d, by simpa using hds, by simpa [Derivation.exprs, sameAll] using hsame⟩

/-- The text of a sound expression is read as the same expression where the limit allows its
height. -/
theorem Sound.exists_read {e : Expr} (h : e.Sound) {limit : DepthLimit}
    (hheight : limit.crossed e.height = none) (line : Int) :
    ∃ e', Read.one limit (Scan.tokens line e.text) = .ok e' ∧ e.same e' := by
  obtain ⟨lexemes, hscans, hderived⟩ := h.spells.exists_derivation
  obtain ⟨d, htokens, hsame⟩ := hderived _ (hscans.body_tokens line)
  refine ⟨d.expr, Read.one_eq_ok_iff.mpr ⟨d, htokens, rfl, ?_⟩, hsame⟩
  rwa [← height_eq_of_same hsame]

end Expr

/-- An expression read from any line, with or without the first word of that line, is written as
a text that is read under the same limit as the same expression, which is written the same way
again. -/
theorem read_again_from_text {limit : DepthLimit} {skipWord : Bool} {line : Int} {source : Bytes}
    {e : Expr} (h : Read.one limit (Scan.tokensOf skipWord line source) = .ok e) (line' : Int) :
    ∃ e', Read.one limit (Scan.tokens line' e.text) = .ok e' ∧
      e.same e' = true ∧ e'.text = e.text := by
  obtain ⟨-, -, -, hheight⟩ := Read.one_eq_ok_iff.mp h
  obtain ⟨e', hread, hsame⟩ := (Read.one_sound h).exists_read hheight line'
  exact ⟨e', hread, hsame, (Expr.text_eq_of_same hsame).symm⟩

set_option maxRecDepth 4000 in
/-- Signs, numbers at and beyond the least of 64 bits, an empty form, an operator and a byte that
is no text, after a first word that is left out. -/
theorem read_again_from_text_after_word :
    ∃ e e', Read.one (some 3) (Scan.tokensOf true 1
        (utf8 "eval '(+5x -9223372036854775808 99999999999999999999 () + " ++ [0xFF, 0x29])) =
          .ok e ∧
      e.text = utf8 "(quote (+5x -9223372036854775808 99999999999999999999 () + "
        ++ [0xFF, 0x29, 0x29] ∧
      Read.one (some 3) (Scan.tokens 7 e.text) = .ok e' ∧ e.same e' = true ∧ e'.text = e.text := by
  have hread : Read.one (some 3) (Scan.tokensOf true 1
      (utf8 "eval '(+5x -9223372036854775808 99999999999999999999 () + " ++ [0xFF, 0x29])) = .ok
      (.form (.of 1 5 60) [.symbol (.of 1 5 6) Token.quoteName, .form (.of 1 6 60)
        [.symbol (.of 1 7 10) (utf8 "+5x"), .int (.of 1 11 31) (-9223372036854775808),
         .symbol (.of 1 32 52) (utf8 "99999999999999999999"), .form (.of 1 53 55) [],
         .symbol (.of 1 56 57) (utf8 "+"), .symbol (.of 1 58 59) [0xFF]]]) := by rfl
  obtain ⟨e', hagain⟩ := read_again_from_text hread 7
  exact ⟨_, e', hread, by decide +kernel, hagain⟩

end LineLisp
