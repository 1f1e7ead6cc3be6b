import LineLisp.Proofs.Expr.RoundTrip
import LineLisp.Proofs.Token.Excerpts

/-!
Where expressions stand. What is read from a line covers its tokens, from the start of the first to
the end of the last, and the elements of a form stand in it one after the other. The text at the
place of an expression, by itself, is read as the same expression; only the symbol that a quote
mark stands for has a text that is none.
-/

namespace LineLisp

open Token (Placed)

namespace Span

/-- Whether a span lies in another. -/
def Inside (inner outer : Span) : Prop :=
  outer.start.offset ≤ inner.start.offset ∧ inner.stop.offset ≤ outer.stop.offset

/-- Whether a span ends before another begins. -/
def Before (a b : Span) : Prop :=
  a.stop.offset ≤ b.start.offset

theorem Inside.trans {a b c : Span} (h : a.Inside b) (h' : b.Inside c) : a.Inside c :=
  ⟨Int.le_trans h'.1 h.1, Int.le_trans h.2 h'.2⟩

section offsets

variable {line line' : Int} {first last first' last' : Nat}

theorem inside_of_iff :
    (of line first last).Inside (of line' first' last') ↔ first' ≤ first ∧ last ≤ last' := by
  simp [Inside, of, Position.onLine]

theorem before_of_iff : (of line first last).Before (of line' first' last') ↔ last ≤ first' := by
  simp [Before, of, Position.onLine]

/-- What ends where a span begins stands before all that lies in the span. -/
theorem before_of_inside {s : Span} (h : s.Inside (of line' first' last')) (hlast : last ≤ first') :
    (of line first last).Before s :=
  Int.le_trans (Int.ofNat_le.mpr hlast) h.1

end offsets

theorem cover_of (line : Int) {first first' last last' : Nat} (hfirst : first ≤ first')
    (hlast : last ≤ last') : (of line first last).cover (of line first' last') =
      of line first last' := by
  have hstart : ¬ (first' : Int) < first := by omega
  by_cases heq : last = last'
  · simp [cover, of, Position.onLine, hstart, heq]
  · have hstop : (last : Int) < last' := by omega
    simp [cover, of, Position.onLine, hstart, hstop]

end Span

theorem Read.span_atom (t : Token) : (Read.atom t).span = t.span := by
  unfold Read.atom
  split <;> rfl

theorem Expr.height_le_heightAll {e : Expr} {es : List Expr} (h : e ∈ es) :
    e.height ≤ Expr.heightAll es :=
  Expr.heightAll_le_iff.mp (Nat.le_refl _) e h

namespace Derivation

/-- Whether a derivation stands in another, at any depth. -/
inductive Part (part : Derivation) : Derivation → Prop where
  | refl : Part part part
  | elem {opened closed : Token} {hopened : opened.kind = .lparen} {hclosed : closed.kind = .rparen}
      {elems : List Derivation} {d : Derivation} (hd : d ∈ elems) (h : Part part d) :
      Part part (.form opened closed hopened hclosed elems)
  | inner {mark : Token} {hmark : mark.kind = .quote} {d : Derivation} (h : Part part d) :
      Part part (.quote mark hmark d)

theorem exists_tokensAll_of_mem {d : Derivation} {ds : List Derivation} (h : d ∈ ds) :
    ∃ front back, tokensAll ds = front ++ d.tokens ++ back := by
  obtain ⟨before, after, rfl⟩ := List.append_of_mem h
  refine ⟨tokensAll before, tokensAll after, ?_⟩
  rw [tokensAll_append, tokensAll, List.append_assoc]

namespace Part

variable {part d : Derivation}

/-- The tokens of a part stand together. -/
theorem tokens (h : part.Part d) : ∃ front back, d.tokens = front ++ part.tokens ++ back := by
  induction h with
  | refl => exact ⟨[], [], by simp⟩
  | @elem opened closed _ _ _ _ hd _ ih =>
      obtain ⟨front, back, heq⟩ := ih
      obtain ⟨before, after, helems⟩ := exists_tokensAll_of_mem hd
      refine ⟨opened :: (before ++ front), back ++ (after ++ [closed]), ?_⟩
      rw [Derivation.tokens, helems, heq]
      simp
  | @inner mark _ _ _ ih =>
      obtain ⟨front, back, heq⟩ := ih
      refine ⟨mark :: front, back, ?_⟩
      rw [Derivation.tokens, heq]
      simp

theorem height_le (h : part.Part d) : part.expr.height ≤ d.expr.height := by
  induction h with
  | refl => exact Nat.le_refl _
  | @elem _ _ _ _ elems d hd _ ih =>
      have hmem : d.expr ∈ exprs elems := by
        rw [exprs_eq_map]
        exact List.mem_map_of_mem hd
      have hle := Expr.height_le_heightAll hmem
      rw [expr, Expr.height]
      omega
  | inner _ ih =>
      rw [expr_quote, Expr.height_quoted]
      omega

end Part

/-- The parts of an expression are those of its derivation, and the symbols that quote marks stand
for. -/
theorem mem_parts_expr {d : Derivation} {x : Expr} (h : x ∈ d.expr.parts) :
    (∃ part : Derivation, part.Part d ∧ x = part.expr) ∨
    ∃ mark hmark inner, (Derivation.quote mark hmark inner).Part d ∧
      x = .symbol mark.span Token.quoteName := by
  induction d using induct with
  | atom t hatom =>
      have hx : x = Read.atom t := by
        rw [expr] at h
        unfold Read.atom at h ⊢
        split at h <;> simpa [Expr.parts] using h
      exact .inl ⟨_, .refl, hx⟩
  | form opened closed hopened hclosed elems ih =>
      rw [expr, Expr.mem_parts_form, exprs_eq_map] at h
      rcases h with rfl | ⟨e, he, hx⟩
      · exact .inl ⟨_, .refl, by rw [expr, exprs_eq_map]⟩
      · obtain ⟨d, hd, rfl⟩ := List.mem_map.mp he
        rcases ih d hd hx with ⟨part, hpart, heq⟩ | ⟨mark, hmark, inner, hpart, heq⟩
        · exact .inl ⟨part, hpart.elem hd, heq⟩
        · exact .inr ⟨mark, hmark, inner, hpart.elem hd, heq⟩
  | quote mark hmark inner ih =>
      rw [expr, Expr.mem_parts_form] at h
      rcases h with rfl | ⟨e, he, hx⟩
      · exact .inl ⟨_, .refl, by rw [expr]⟩
      · simp only [List.mem_cons, List.not_mem_nil, or_false] at he
        rcases he with rfl | rfl
        · exact .inr ⟨mark, hmark, inner, .refl, by simpa [Expr.parts] using hx⟩
        · rcases ih hx with ⟨part, hpart, heq⟩ | ⟨mark', hmark', inner', hpart, heq⟩
          · exact .inl ⟨part, hpart.inner, heq⟩
          · exact .inr ⟨mark', hmark', inner', hpart.inner, heq⟩

theorem Part.mem_parts {part d : Derivation} (h : part.Part d) : part.expr ∈ d.expr.parts := by
  induction h with
  | refl =>
      cases part.expr <;> simp [Expr.parts]
  | elem hd _ ih =>
      rw [expr, Expr.mem_parts_form, exprs_eq_map]
      exact .inr ⟨_, List.mem_map_of_mem hd, ih⟩
  | inner _ ih =>
      rw [expr, Expr.mem_parts_form]
      exact .inr ⟨_, by simp, ih⟩

/-- Whether the expression of a derivation covers its tokens from the start of the first. -/
structure Covers (line : Int) (first last : Nat) (d : Derivation) : Prop where
  span : d.expr.span = .of line first last
  placed : Placed line first d.tokens last
  head : ∃ t rest stop, d.tokens = t :: rest ∧ t.span = .of line first stop

/-- Wherever the tokens of a derivation stand in order, its expression covers them. -/
theorem exists_covers {line : Int} {lower upper : Nat} {d : Derivation}
    (h : Placed line lower d.tokens upper) :
    ∃ first last, d.Covers line first last ∧ lower ≤ first ∧ last ≤ upper := by
  induction d using induct generalizing lower with
  | atom t hatom =>
      obtain ⟨first, last, hspan, hlower, hsize, hupper⟩ := h
      refine ⟨first, last, ⟨?_, ?_, ?_⟩, hlower, hupper⟩
      · rw [expr, Read.span_atom, hspan]
      · exact ⟨first, last, hspan, Nat.le_refl _, hsize, Nat.le_refl _⟩
      · exact ⟨t, [], last, rfl, hspan⟩
  | form opened closed hopened hclosed elems =>
      obtain ⟨first, stop, hspan, hlower, hsize, hrest⟩ := h
      obtain ⟨middle, helems, start, last, hspan', hstart, hsize', hupper⟩ := hrest.exists_of_append
      have hmiddle := helems.le
      refine ⟨first, last, ⟨?_, ?_, ?_⟩, hlower, hupper⟩
      · rw [expr, Expr.span, hspan, hspan', Span.cover_of line (by omega) (by omega)]
      · exact ⟨first, stop, hspan, Nat.le_refl _, hsize,
          helems.append ⟨start, last, hspan', hstart, hsize', Nat.le_refl _⟩⟩
      · exact ⟨opened, _, stop, rfl, hspan⟩
  | quote mark hmark inner ih =>
      obtain ⟨first, stop, hspan, hlower, hsize, hrest⟩ := h
      obtain ⟨first', last, hinner, hle, hupper⟩ := ih hrest
      have hlast := hinner.placed.le
      refine ⟨first, last, ⟨?_, ?_, ?_⟩, hlower, hupper⟩
      · rw [expr, Expr.span, hspan, hinner.span, Span.cover_of line (by omega) (by omega)]
      · have hgap : Placed line stop [] first' := hle
        exact ⟨first, stop, hspan, Nat.le_refl _, hsize, hgap.append hinner.placed⟩
      · exact ⟨mark, _, stop, rfl, hspan⟩

theorem Covers.lt {line : Int} {first last : Nat} {d : Derivation} (h : d.Covers line first last) :
    first < last := by
  obtain ⟨t, rest, stop, htokens, hspan⟩ := h.head
  have hplaced := h.placed
  rw [htokens] at hplaced
  obtain ⟨start, stop', -, hstart, hsize, hrest⟩ := hplaced
  have hlast := hrest.le
  omega

/-- Derived expressions stand one after the other where their tokens stand. -/
theorem exprs_placed {line : Int} {lower upper : Nat} {ds : List Derivation}
    (h : Placed line lower (tokensAll ds) upper) :
    (∀ e ∈ exprs ds, e.span.Inside (.of line lower upper)) ∧
      (exprs ds).Pairwise fun x y => x.span.Before y.span := by
  induction ds generalizing lower with
  | nil => simp [exprs]
  | cons d ds ih =>
      obtain ⟨middle, hd, hds⟩ := h.exists_of_append
      obtain ⟨first, last, hcovers, hlower, hlast⟩ := exists_covers hd
      obtain ⟨hinside, hordered⟩ := ih hds
      have hmiddle := hds.le
      have hsize := hcovers.lt
      simp only [exprs, List.forall_mem_cons, List.pairwise_cons, hcovers.span]
      refine ⟨⟨?_, ?_⟩, ?_, hordered⟩
      · exact Span.inside_of_iff.mpr ⟨hlower, by omega⟩
      · intro e he
        exact (hinside e he).trans (Span.inside_of_iff.mpr ⟨by omega, Nat.le_refl _⟩)
      · intro e he
        exact Span.before_of_inside (hinside e he) hlast

/-- The elements of a derived form stand in it, one after the other. -/
theorem Covers.elems {line : Int} {first last : Nat} {d : Derivation} (h : d.Covers line first last)
    {span : Span} {elems : List Expr} (hform : d.expr = .form span elems) :
    (∀ x ∈ elems, x.span.Inside span) ∧ elems.Pairwise fun x y => x.span.Before y.span := by
  have hspan : span = .of line first last := by
    rw [← h.span, hform]
    rfl
  subst hspan
  have hplaced := h.placed
  cases d with
  | atom t hatom =>
      rw [expr] at hform
      unfold Read.atom at hform
      split at hform <;> cases hform
  | form opened closed hopened hclosed ds =>
      obtain ⟨start, stop, -, hstart, hsize, hrest⟩ := hplaced
      obtain ⟨middle, hds, hclose⟩ := hrest.exists_of_append
      obtain ⟨hinside, hordered⟩ := exprs_placed hds
      have hlast := hclose.le
      obtain ⟨-, rfl⟩ := Expr.form.inj hform
      refine ⟨fun x hx => (hinside x hx).trans ?_, hordered⟩
      exact Span.inside_of_iff.mpr ⟨by omega, hlast⟩
  | quote mark hmark inner =>
      obtain ⟨start, stop, hspan, hstart, hsize, hrest⟩ := hplaced
      obtain ⟨first', last', hinner, hfirst, hlast⟩ := exists_covers hrest
      have hsize' := hinner.lt
      obtain ⟨-, rfl⟩ := Expr.form.inj hform
      have hsymbol : (Expr.symbol mark.span Token.quoteName).span = .of line start stop := hspan
      simp only [List.forall_mem_cons, List.pairwise_cons, hinner.span, hsymbol,
        Span.inside_of_iff, Span.before_of_iff]
      refine ⟨⟨?_, ?_, by simp⟩, ⟨hfirst, by simp⟩, by simp⟩
      · omega
      · omega

theorem exists_relabelled_all {ds : List Derivation}
    (h : ∀ d ∈ ds, ∀ tokens : List Token,
      (tokens.map fun t => (t.kind, t.lexeme)) = d.tokens.map (fun t => (t.kind, t.lexeme)) →
      ∃ again : Derivation, again.tokens = tokens ∧ d.expr.same again.expr)
    {tokens : List Token}
    (htokens : (tokens.map fun t => (t.kind, t.lexeme)) =
      (tokensAll ds).map fun t => (t.kind, t.lexeme)) :
    ∃ again, tokensAll again = tokens ∧ Expr.sameAll (exprs ds) (exprs again) := by
  induction ds generalizing tokens with
  | nil =>
      rw [tokensAll, List.map_nil, List.map_eq_nil_iff] at htokens
      exact ⟨[], htokens.symm, rfl⟩
  | cons d ds ih =>
      rw [tokensAll, List.map_append, List.map_eq_append_iff] at htokens
      obtain ⟨front, back, rfl, hfront, hback⟩ := htokens
      obtain ⟨again, rfl, hsame⟩ := h d (by simp) front hfront
      obtain ⟨more, rfl, hmore⟩ := ih (fun d hd => h d (by simp [hd])) hback
      exact ⟨again :: more, rfl, by simp [exprs, Expr.sameAll, hsame, hmore]⟩

/-- Tokens of the same kinds and lexemes, wherever they stand, derive the same expression. -/
theorem exists_relabelled (d : Derivation) {tokens : List Token}
    (h : (tokens.map fun t => (t.kind, t.lexeme)) = d.tokens.map fun t => (t.kind, t.lexeme)) :
    ∃ again : Derivation, again.tokens = tokens ∧ d.expr.same again.expr := by
  induction d using induct generalizing tokens with
  | atom t hatom =>
      obtain ⟨t', rfl, hpair⟩ := List.map_eq_singleton_iff.mp h
      obtain ⟨hkind, hlexeme⟩ := Prod.mk.inj hpair
      refine ⟨.atom t' (by simpa [Token.isAtom, hkind] using hatom), rfl, ?_⟩
      simp only [expr, Read.atom, hlexeme]
      split <;> simp [Expr.same]
  | form opened closed hopened hclosed elems ih =>
      rw [Derivation.tokens, List.map_cons, List.map_append] at h
      obtain ⟨opened', rest, rfl, hopened', hrest⟩ := List.map_eq_cons_iff.mp h
      obtain ⟨inner, last, rfl, hinner, hlast⟩ := List.map_eq_append_iff.mp hrest
      obtain ⟨closed', rfl, hclosed'⟩ := List.map_eq_singleton_iff.mp hlast
      obtain ⟨again, rfl, hsame⟩ := exists_relabelled_all (fun d hd _ => ih d hd) hinner
      have hkind := (Prod.mk.inj hopened').1.trans hopened
      have hkind' := (Prod.mk.inj hclosed').1.trans hclosed
      exact ⟨.form opened' closed' hkind hkind' again, rfl, by simpa [expr, Expr.same] using hsame⟩
  | quote mark hmark inner ih =>
      rw [Derivation.tokens, List.map_cons] at h
      obtain ⟨mark', rest, rfl, hmark', hrest⟩ := List.map_eq_cons_iff.mp h
      obtain ⟨again, rfl, hsame⟩ := ih hrest
      have hkind := (Prod.mk.inj hmark').1.trans hmark
      refine ⟨.quote mark' hkind again, rfl, ?_⟩
      simp [expr, Expr.same, Expr.sameAll, hsame]

/-- Whether a derivation has the tokens of a line from `first` up to `last`. -/
structure StandsIn (line : Int) (source : Bytes) (first last : Nat) (d : Derivation) : Prop where
  covers : d.Covers line first last
  around : ∃ front back, Token.body (Scan.tokens line source) = front ++ d.tokens ++ back ∧
    Placed line 0 front first ∧ Placed line last back source.length

theorem Part.exists_standsIn {part d : Derivation} (h : part.Part d) {line : Int} {source : Bytes}
    (htokens : d.tokens = Token.body (Scan.tokens line source)) :
    ∃ first last, part.StandsIn line source first last := by
  obtain ⟨front, back, heq⟩ := h.tokens
  have hplaced := Scan.placed_body_tokens line source
  rw [← htokens, heq] at hplaced
  obtain ⟨upper, hinner, hback⟩ := hplaced.exists_of_append
  obtain ⟨lower, hfront, hpart⟩ := hinner.exists_of_append
  obtain ⟨first, last, hcovers, hfirst, hlast⟩ := Derivation.exists_covers hpart
  have hbefore : Placed line lower [] first := hfirst
  have hafter : Placed line last [] upper := hlast
  refine ⟨first, last, hcovers, front, back, by rw [← htokens, heq], ?_, hafter.append hback⟩
  simpa using hfront.append hbefore

namespace StandsIn

variable {line : Int} {source : Bytes} {first last : Nat} {d : Derivation}

theorem last_le (h : d.StandsIn line source first last) : last ≤ source.length := by
  obtain ⟨front, back, -, -, hback⟩ := h.around
  exact hback.le

theorem mem_body (h : d.StandsIn line source first last) {t : Token} (ht : t ∈ d.tokens) :
    t ∈ Token.body (Scan.tokens line source) := by
  obtain ⟨front, back, hbody, -⟩ := h.around
  simp [hbody, ht]

/-- The text of an expression has the tokens of the expression by itself. What begins with an
opening parenthesis or a quote mark may be cut off before it; an atom is its own text. -/
theorem lexemes_eq (h : d.StandsIn line source first last) :
    Scan.lexemes (source.slice first last) = d.tokens.map fun t => (t.kind, t.lexeme) := by
  obtain ⟨front, back, hbody, hfront, hback⟩ := h.around
  obtain ⟨t, rest, stop, htokens, hspan⟩ := h.covers.head
  have hplaced := h.covers.placed
  have hlexeme : ∀ t ∈ d.tokens, Scan.isLexeme t.kind t.lexeme := by
    intro t ht
    have hmem : t ∈ Token.body (Scan.tokensOf false line source) := h.mem_body ht
    exact Scan.isLexeme_of_mem_body hmem
  have hcut : t.source = [0x28] ∨ t.source = [0x27] →
      Scan.lexemes (source.slice first last) = d.tokens.map fun t => (t.kind, t.lexeme) := by
    rw [htokens] at hbody hplaced ⊢
    exact Scan.lexemes_slice hbody hfront hplaced hback hspan
  cases d with
  | atom t' hatom =>
      have hmem : t' ∈ (Derivation.atom t' hatom).tokens := by simp [tokens]
      have hkind := kind_of_isAtom hatom (hlexeme t' hmem)
      have hspan' : t'.span = .of line first last := by
        rw [← Read.span_atom t', ← h.covers.span, expr]
      have hnot : t'.kind ≠ .quote := by
        rcases hkind with hkind | hkind <;> simp [hkind]
      rw [Scan.slice_eq_source (h.mem_body hmem) hspan', Token.source_eq_lexeme hnot]
      exact (Scan.scans_lexeme hkind (hlexeme t' hmem)).body_tokens 1
  | form opened closed hopened hclosed elems =>
      apply hcut
      left
      obtain rfl : opened = t := (List.cons.inj htokens).1
      have hopen := hlexeme opened (by simp [tokens])
      rw [Token.source_eq_lexeme (by simp [hopened])]
      simpa [Scan.isLexeme, hopened] using hopen
  | quote mark hmark inner =>
      apply hcut
      right
      obtain rfl : mark = t := (List.cons.inj htokens).1
      simp [Token.source, hmark]

/-- The symbol that a quote mark stands for has the mark as its text. -/
theorem mark {mark : Token} {hmark : mark.kind = .quote} {inner : Derivation}
    (h : (Derivation.quote mark hmark inner).StandsIn line source first last) :
    ∃ stop, mark.span = .of line first stop ∧ first < stop ∧ stop ≤ source.length ∧
      source.slice first stop = [0x27] := by
  obtain ⟨t, rest, stop, htokens, hspan⟩ := h.covers.head
  obtain rfl : mark = t := (List.cons.inj htokens).1
  have hmem : mark ∈ Token.body (Scan.tokens line source) := h.mem_body (by simp [tokens])
  have hbetween := (Scan.placed_body_tokens line source).between hmem
  simp only [hspan, Span.of, Position.onLine] at hbetween
  refine ⟨stop, hspan, by omega, by omega, ?_⟩
  rw [Scan.slice_eq_source hmem hspan]
  simp [Token.source, hmark]

/-- The text of an expression is read as the same expression. -/
theorem exists_read (h : d.StandsIn line source first last) {limit : DepthLimit}
    (hlimit : limit.crossed d.expr.height = none) (line' : Int) :
    ∃ y, Read.one limit (Scan.tokens line' (source.slice first last)) = .ok y ∧
      d.expr.same y := by
  have hmap := Scan.map_body_tokens line' (source.slice first last)
  rw [h.lexemes_eq] at hmap
  obtain ⟨again, htokens, hsame⟩ := d.exists_relabelled hmap
  refine ⟨again.expr, Read.one_eq_ok_iff.mpr ⟨again, htokens, rfl, ?_⟩, hsame⟩
  rwa [← Expr.height_eq_of_same hsame]

end StandsIn

end Derivation

namespace Expr

/-- Whether `x` is the symbol that a quote mark in a line stands for: the mark is the text of `x`,
and a form of `e` that begins with the mark has `x` at its front. -/
structure StandsForMark (line : Int) (source : Bytes) (x e : Expr) : Prop where
  symbol : x = .symbol x.span Token.quoteName
  mark : ∃ first last, x.span = .of line first last ∧ source.slice first last = [0x27]
  front : ∃ span inner, .form span [x, inner] ∈ e.parts ∧ span.start = x.span.start

/-- Whether the parts of an expression that was read from a line tell where they stand in it. -/
structure Located (limit : DepthLimit) (line : Int) (source : Bytes) (e : Expr) : Prop where
  /-- Every part has a place on the line that is not empty. -/
  onLine : ∀ x ∈ e.parts, ∃ first last, x.span = .of line first last ∧ first < last ∧
    last ≤ source.length
  /-- The elements of every form stand in it, one after the other. -/
  nested : ∀ span elems, .form span elems ∈ e.parts →
    (∀ x ∈ elems, x.span.Inside span) ∧ elems.Pairwise fun x y => x.span.Before y.span
  /-- The text at the place of a part, by itself, is read as the same expression. -/
  cited : ∀ x ∈ e.parts, x.StandsForMark line source e ∨ ∀ first last,
    x.span = .of line first last → ∀ line', ∃ y,
      Read.one limit (Scan.tokens line' (source.slice first last)) = .ok y ∧ x.same y

end Expr

/-- Everything that is read from a line stands where it says it does. -/
theorem parts_located {limit : DepthLimit} {line : Int} {source : Bytes} {e : Expr}
    (h : Read.one limit (Scan.tokens line source) = .ok e) : e.Located limit line source := by
  obtain ⟨d, htokens, rfl, hlimit⟩ := Read.one_eq_ok_iff.mp h
  refine ⟨?_, ?_, ?_⟩
  · intro x hx
    rcases Derivation.mem_parts_expr hx with ⟨part, hpart, rfl⟩ | ⟨mark, hmark, inner, hpart, rfl⟩
    · obtain ⟨first, last, hstands⟩ := hpart.exists_standsIn htokens
      exact ⟨first, last, hstands.covers.span, hstands.covers.lt, hstands.last_le⟩
    · obtain ⟨first, last, hstands⟩ := hpart.exists_standsIn htokens
      obtain ⟨stop, hspan, hsize, hstop, -⟩ := hstands.mark
      exact ⟨first, stop, hspan, hsize, hstop⟩
  · intro span elems hx
    rcases Derivation.mem_parts_expr hx with ⟨part, hpart, hform⟩ | ⟨mark, hmark, inner, hpart, heq⟩
    · obtain ⟨first, last, hstands⟩ := hpart.exists_standsIn htokens
      exact hstands.covers.elems hform.symm
    · cases heq
  · intro x hx
    rcases Derivation.mem_parts_expr hx with ⟨part, hpart, rfl⟩ | ⟨mark, hmark, inner, hpart, rfl⟩
    · obtain ⟨first, last, hstands⟩ := hpart.exists_standsIn htokens
      right
      intro first' last' hspan
      obtain ⟨rfl, rfl⟩ := Span.of_offsets (hstands.covers.span.symm.trans hspan)
      exact hstands.exists_read (DepthLimit.not_crossed_mono hpart.height_le hlimit)
    · obtain ⟨first, last, hstands⟩ := hpart.exists_standsIn htokens
      obtain ⟨stop, hspan, -, -, hslice⟩ := hstands.mark
      left
      refine ⟨rfl, ⟨first, stop, hspan, hslice⟩, _, inner.expr, hpart.mem_parts, ?_⟩
      have hform := hstands.covers.span
      rw [Derivation.expr, Expr.span] at hform
      rw [hform, Expr.span, hspan]
      rfl

set_option maxRecDepth 4000 in
/-- Signs that belong to a number and one that does not, quote marks in a row, an empty form and a
comment, at just the depth allowed. -/
theorem parts_located_quotes :
    ∃ e, Read.one (some 4) (Scan.tokens 3 (utf8 " (f 1-2 '(-5 ()) ''x) ; )")) = .ok e ∧
      e.text = utf8 "(f 1 - 2 (quote (-5 ())) (quote (quote x)))" ∧
      e.Located (some 4) 3 (utf8 " (f 1-2 '(-5 ()) ''x) ; )") := by
  have hread : Read.one (some 4) (Scan.tokens 3 (utf8 " (f 1-2 '(-5 ()) ''x) ; )")) = .ok
      (.form (.of 3 1 21) [.symbol (.of 3 2 3) (utf8 "f"), .int (.of 3 4 5) 1,
        .symbol (.of 3 5 6) (utf8 "-"), .int (.of 3 6 7) 2,
        .form (.of 3 8 16) [.symbol (.of 3 8 9) Token.quoteName,
          .form (.of 3 9 16) [.int (.of 3 10 12) (-5), .form (.of 3 13 15) []]],
        .form (.of 3 17 20) [.symbol (.of 3 17 18) Token.quoteName,
          .form (.of 3 18 20) [.symbol (.of 3 18 19) Token.quoteName,
            .symbol (.of 3 19 20) (utf8 "x")]]]) := by rfl
  exact ⟨_, hread, by decide +kernel, parts_located hread⟩

end LineLisp
