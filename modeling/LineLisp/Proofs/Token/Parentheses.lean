import LineLisp.Proofs.Token.Spacing

/-!
Blanks beside a parenthesis. A parenthesis ends the token before it just as a blank does, so blanks
in front of it change no token. Behind an opening parenthesis anything may begin, as it may behind a
blank. Behind a closing one a sign is an operator, where behind a blank it would begin a number: so
blanks there change the tokens exactly where a sign and then a digit follow at once.
-/

namespace LineLisp.Scan

/-- Whether a text begins with a sign and a digit. -/
def BeginsSigned (text : Bytes) : Prop :=
  ∃ b d rest, text = b :: d :: rest ∧ isSign b ∧ Decimal.isDigit d

section stale

variable {s : State}

/-- What has been found between tokens stays found. -/
theorem exists_read_foldl (hs : s.mode.start? = none) (text : Bytes) :
    ∃ more, (text.foldl State.step s).read = s.read ++ more := by
  obtain ⟨tail, hfound, -⟩ := exists_placed_foldl hs text
  refine ⟨tail.map fun t => (t.kind, t.lexeme), ?_⟩
  rw [State.read, hfound, List.map_append, State.read, flush_of_start?_none hs]

/-- A word in progress is the next token to be found. -/
theorem exists_read_foldl_word {start : Nat} {bytes : Bytes} (hs : s.mode = .word start bytes)
    (text : Bytes) :
    ∃ w more, (text.foldl State.step s).read =
      (s.found.reverse.map fun t => (t.kind, t.lexeme)) ++ (.word, w) :: more := by
  induction text generalizing s bytes with
  | nil => exact ⟨bytes.reverse, [], (read_of_word hs).2⟩
  | cons b rest ih =>
      by_cases hb : isDelimiter b
      · have hgap := (read_of_word hs).1
        have hstep : s.step b = s.flush.step b := by simp [State.step, hs, hb, hgap]
        have hread : s.flush.read = s.read := by rw [State.read, flush_of_gap hgap, State.read]
        obtain ⟨more, hmore⟩ := exists_read_foldl (flush_start? s) (b :: rest)
        rw [List.foldl_cons, ← hstep, hread, (read_of_word hs).2, List.append_assoc] at hmore
        exact ⟨bytes.reverse, more, hmore⟩
      · have hstep : s.step b = s.skip (.word start (b :: bytes)) := by simp [State.step, hs, hb]
        rw [List.foldl_cons, hstep]
        exact ih rfl

/-- Where no sign may begin a number, any other byte is read as elsewhere. -/
theorem step_stale (hs : s.mode = .gap false) {b : UInt8} (hb : isSign b = false) :
    s.step b = ({ s with mode := .gap true } : State).step b := by
  simp only [State.step, hs, State.start, hb, Bool.and_false]
  rfl

/-- A sign that is an operator here is one where it might have begun a number, too, if it ends
there. -/
theorem step_stale_sign (hs : s.mode = .gap false) {b : UInt8} (hb : isSign b) :
    s.step b = (({ s with mode := .gap true } : State).step b).flush := by
  have hoperator := Lexical.isOperator_iff.mp (isOperator_of_isSign hb)
  rw [step_sign (s := { s with mode := .gap true }) rfl hb]
  simp only [State.step, hs]
  rw [start_operator s hoperator (Bool.false_and _)]
  rfl

/-- A token in progress may be ended early where the next byte does not go on with it. -/
theorem read_foldl_flush {text : Bytes} (h : ∀ b, text.head? = some b → s.step b = s.flush.step b) :
    (text.foldl State.step s.flush).read = (text.foldl State.step s).read := by
  cases text with
  | nil =>
      rw [List.foldl_nil, State.read, flush_of_start?_none (flush_start? s), State.read]
      rfl
  | cons b rest => rw [List.foldl_cons, List.foldl_cons, h b rfl]

/-- Where no sign may begin a number, a text without a sign and a digit at its front is found as by
itself. -/
theorem read_foldl_stale (hs : s.mode = .gap false) {text : Bytes} (h : ¬ BeginsSigned text) :
    (text.foldl State.step s).read = s.read ++ lexemes text := by
  let fresh : State := { s with mode := .gap true }
  have hread : fresh.read = s.read := by rw [read_of_gap (s := fresh) rfl, read_of_gap hs]
  rw [← hread, ← read_foldl_of_gap (s := fresh) rfl]
  cases text with
  | nil => exact hread.symm
  | cons b rest =>
      rw [List.foldl_cons, List.foldl_cons]
      cases hb : isSign b with
      | false => rw [step_stale hs hb]
      | true =>
          rw [step_stale_sign hs hb]
          apply read_foldl_flush
          intro d hd
          obtain ⟨tail, rfl⟩ : ∃ tail, rest = d :: tail := by
            cases rest with
            | nil => cases hd
            | cons c tail => exact ⟨tail, by rw [Option.some.inj hd]⟩
          have hdigit : Decimal.isDigit d = false := by
            cases hcase : Decimal.isDigit d with
            | false => rfl
            | true => exact absurd ⟨b, d, tail, rfl, hb, hcase⟩ h
          rw [step_sign rfl hb]
          simp [State.step, State.flush, hdigit]

/-- There a sign is an operator even before a digit, where by itself it would begin a word. -/
theorem read_foldl_stale_ne (hs : s.mode = .gap false) {text : Bytes} (h : BeginsSigned text) :
    (text.foldl State.step s).read ≠ s.read ++ lexemes text := by
  obtain ⟨b, d, rest, rfl, hb, hd⟩ := h
  let fresh : State := { s with mode := .gap true }
  have hread : fresh.read = s.read := by rw [read_of_gap (s := fresh) rfl, read_of_gap hs]
  have hword : ((fresh.step b).step d).mode = .word s.offset [d, b] ∧
      ((fresh.step b).step d).found = s.found := by
    rw [step_sign rfl hb]
    simp [State.step, hd, fresh]
  have hoperator : s.step b = s.flush.single .operator [b] false := by
    rw [flush_of_gap hs]
    simp only [State.step, hs]
    exact start_operator s (Lexical.isOperator_iff.mp (isOperator_of_isSign hb)) (Bool.false_and _)
  obtain ⟨w, more, hfirst⟩ := exists_read_foldl_word hword.1 rest
  obtain ⟨more', hsecond⟩ := exists_read_foldl (s := s.step b) (by rw [hoperator]; rfl) (d :: rest)
  rw [hword.2, ← read_of_gap hs] at hfirst
  rw [hoperator, read_single, List.append_assoc, ← hoperator] at hsecond
  rw [← hread, ← read_foldl_of_gap (s := fresh) rfl]
  intro heq
  rw [List.foldl_cons, hsecond, List.foldl_cons, List.foldl_cons, hfirst] at heq
  have hhead := List.append_cancel_left heq
  simp at hhead

end stale

section beside

variable {s : State} {gap : Bytes} {b : UInt8}

/-- A parenthesis ends the token before it; a sign may begin a number only behind an opening one. -/
theorem step_paren (hs : s.mode ≠ .comment) (hb : b = 0x28 ∨ b = 0x29) :
    s.step b = s.flush.single (if b = 0x28 then .lparen else .rparen) [b] (b == 0x28) := by
  rcases hb with rfl | rfl
  · rw [step_eq_start hs (by decide) (by decide)]
    rfl
  · rw [step_eq_start hs (by decide) (by decide)]
    rfl

theorem read_foldl_blanks_before (hs : s.mode ≠ .comment) (hgap : gap ≠ [])
    (hblank : ∀ c ∈ gap, Blank.isSpace c) (hb : b = 0x28 ∨ b = 0x29) (rest : Bytes) :
    ((gap ++ b :: rest).foldl State.step s).read = ((b :: rest).foldl State.step s).read := by
  rw [List.foldl_append, foldl_blanks hs hgap hblank]
  let apart : State := { s.flush with offset := s.offset + gap.length, mode := .gap true }
  have hfound : State.Trails [] (s.step b) (apart.step b) := by
    rw [step_paren hs hb, step_paren (s := apart) (by simp [apart]) hb]
    exact ⟨rfl, by simp [State.single, State.emit, State.flush, apart]⟩
  exact (hfound.foldl rest).read

/-- Blanks behind a token leave the text after them as it is by itself. -/
theorem read_foldl_blanks_after {fresh : Bool} (hs : s.mode = .gap fresh) (hgap : gap ≠ [])
    (hblank : ∀ c ∈ gap, Blank.isSpace c) (text : Bytes) :
    ((gap ++ text).foldl State.step s).read = s.read ++ lexemes text := by
  rw [List.foldl_append, foldl_blanks (by simp [hs]) hgap hblank, flush_of_gap hs,
    read_foldl_of_gap rfl, read_of_gap rfl, read_of_gap hs]

/-- So the blanks behind a parenthesis make a difference only where a sign and a digit follow, and
only behind a closing one. -/
theorem read_foldl_blanks_after_iff (hs : s.mode ≠ .comment) (hgap : gap ≠ [])
    (hblank : ∀ c ∈ gap, Blank.isSpace c) (hb : b = 0x28 ∨ b = 0x29) (rest : Bytes) :
    ((b :: (gap ++ rest)).foldl State.step s).read = ((b :: rest).foldl State.step s).read ↔
      ¬ (b = 0x29 ∧ BeginsSigned rest) := by
  have hmode : (s.step b).mode = .gap (b == 0x28) := by
    rw [step_paren hs hb]
    rfl
  rw [List.foldl_cons, List.foldl_cons, read_foldl_blanks_after hmode hgap hblank, eq_comm]
  rcases hb with rfl | rfl
  · simp [read_foldl_of_gap hmode]
  · by_cases hsigned : BeginsSigned rest
    · simp [hsigned, read_foldl_stale_ne hmode hsigned]
    · simp [hsigned, read_foldl_stale hmode hsigned]

end beside

section places

variable {line : Int} {source : Bytes} {t : Token}

/-- A parenthesis among the tokens of a line is a byte of the line, outside its comment. -/
theorem exists_paren (ht : t ∈ Token.body (tokens line source))
    (hkind : t.kind = .lparen ∨ t.kind = .rparen) :
    ∃ first b rest, t.span = .of line first (first + 1) ∧ source.drop first = b :: rest ∧
      (b = 0x28 ∨ b = 0x29) ∧ (b = 0x29 ↔ t.kind = .rparen) ∧
      ((source.take first).foldl State.step (initial line 0 (.gap true))).mode ≠ .comment := by
  obtain ⟨b, hlexeme, hb, hclose⟩ : ∃ b, t.lexeme = [b] ∧ (b = 0x28 ∨ b = 0x29) ∧
      (b = 0x29 ↔ t.kind = .rparen) := by
    have hfits := (fits_of_mem_body ht).1
    rcases hkind with hkind | hkind
    · rw [hkind] at hfits ⊢
      exact ⟨0x28, by simpa [isLexeme] using hfits, .inl rfl, by decide⟩
    · rw [hkind] at hfits ⊢
      exact ⟨0x29, by simpa [isLexeme] using hfits, .inr rfl, by decide⟩
  have hquote : t.kind ≠ .quote := by
    rcases hkind with hkind | hkind <;> simp [hkind]
  obtain ⟨front, back, hbody⟩ := List.append_of_mem ht
  have hplaced := placed_body_tokens line source
  rw [hbody] at hplaced
  obtain ⟨middle, hfront, first, last, hspan, hlower, hsize, hback⟩ := hplaced.exists_of_append
  have hslice := slice_eq_source ht hspan
  rw [Token.source_eq_lexeme hquote, hlexeme] at hslice
  obtain ⟨hplace, rfl, -⟩ := Bytes.slice_eq_cons hback.le hslice
  obtain ⟨rest, hdrop⟩ := Bytes.exists_drop hplace
  refine ⟨first, b, rest, hspan, hdrop, hb, hclose, ?_⟩
  have hgap : Token.Placed line middle [] first := hlower
  have hbefore : Token.Placed line 0 front first := by simpa using hfront.append hgap
  have htake := body_tokens_take hbody hbefore ⟨first, _, hspan, Nat.le_refl _, hsize, hback⟩
  apply mode_ne_comment_of_found (source.drop first)
  rw [List.take_append_drop, hbody, htake]
  simp

/-- Blanks beside a parenthesis. Put in front of a parenthesis, or behind an opening one, they leave
the kinds and lexemes of all tokens as they are; put behind a closing one they do so unless a sign
and a digit follow at once, which would become a number. -/
theorem blanks_beside_parentheses (ht : t ∈ tokens line source)
    (hkind : t.kind = .lparen ∨ t.kind = .rparen) {gap : Bytes} (hgap : gap ≠ [])
    (hblank : ∀ b ∈ gap, Blank.isSpace b) :
    let found (text : Bytes) := (tokens line text).map fun t => (t.kind, t.lexeme)
    ∃ first : Nat, t.span = .of line first (first + 1) ∧
      found (source.take first ++ gap ++ source.drop first) = found source ∧
      (found (source.take (first + 1) ++ gap ++ source.drop (first + 1)) = found source ↔
        ¬ (t.kind = .rparen ∧ BeginsSigned (source.drop (first + 1)))) := by
  intro found
  have hbody : t ∈ Token.body (tokens line source) := by
    obtain ⟨span, heq⟩ := tokens_eq_body line source
    rw [heq, List.mem_append, List.mem_singleton] at ht
    refine ht.resolve_right ?_
    rintro rfl
    simp at hkind
  obtain ⟨first, b, rest, hspan, hdrop, hb, hclose, hmode⟩ := exists_paren hbody hkind
  refine ⟨first, hspan, ?_⟩
  have hnext : source.drop (first + 1) = rest := Bytes.drop_succ_of_drop hdrop
  have htake : source.take (first + 1) = source.take first ++ [b] := by
    rw [List.take_add_one, Bytes.getElem?_of_drop hdrop]
    rfl
  have hwhole : source.take first ++ b :: rest = source := by rw [← hdrop, List.take_append_drop]
  let s := (source.take first).foldl State.step (initial line 0 (.gap true))
  have hfound : ∀ text, found (source.take first ++ text) = found source ↔
      (text.foldl State.step s).read = ((b :: rest).foldl State.step s).read := by
    intro text
    rw [← List.foldl_append, ← List.foldl_append, ← map_body_tokens_eq_read,
      ← map_body_tokens_eq_read, map_body_tokens, map_body_tokens, hwhole]
    simp only [found, map_tokens, List.append_cancel_right_eq]
  constructor
  · rw [List.append_assoc, hfound, hdrop]
    exact read_foldl_blanks_before hmode hgap hblank hb rest
  · rw [htake, hnext, List.append_assoc, List.append_assoc, hfound, List.singleton_append,
      read_foldl_blanks_after_iff hmode hgap hblank hb, hclose]

/-- A sign behind a closing parenthesis is an operator anyway before a name, with blanks or without;
before a digit it is one only without blanks. -/
theorem blanks_beside_parentheses_signs :
    let close : Token := ⟨.rparen, utf8 ")", .of 1 2 3⟩
    let found (text : Bytes) := (tokens 1 text).map fun t => (t.kind, t.lexeme)
    (close ∈ tokens 1 (utf8 "(f)-x") ∧ found (utf8 "(f\t )-x") = found (utf8 "(f)-x") ∧
      found (utf8 "(f)\t -x") = found (utf8 "(f)-x")) ∧
    close ∈ tokens 1 (utf8 "(f)-1") ∧ found (utf8 "(f\t )-1") = found (utf8 "(f)-1") ∧
      found (utf8 "(f)\t -1") ≠ found (utf8 "(f)-1") := by
  intro close found
  have hblank : utf8 "\t " ≠ [] ∧ ∀ b ∈ utf8 "\t ", Blank.isSpace b := by decide +kernel
  have hname : close ∈ tokens 1 (utf8 "(f)-x") := by decide +kernel
  have hdigit : close ∈ tokens 1 (utf8 "(f)-1") := by decide +kernel
  have hplace : ∀ {first : Nat}, close.span = .of 1 first (first + 1) → first = 2 := fun h =>
    (Span.of_offsets h).1.symm
  obtain ⟨first, hspan, hbefore, hafter⟩ :=
    blanks_beside_parentheses hname (.inr rfl) hblank.1 hblank.2
  obtain ⟨first', hspan', hbefore', hafter'⟩ :=
    blanks_beside_parentheses hdigit (.inr rfl) hblank.1 hblank.2
  obtain rfl := hplace hspan
  obtain rfl := hplace hspan'
  refine ⟨⟨hname, hbefore, hafter.mpr ?_⟩, hdigit, hbefore', fun heq => hafter'.mp heq ⟨rfl, ?_⟩⟩
  · rintro ⟨-, b, d, rest, hrest, -, hd⟩
    have hdrop : [0x2D, 0x78] = b :: d :: rest := hrest
    cases hdrop
    exact absurd hd (by decide)
  · exact ⟨0x2D, 0x31, [], rfl, by decide, by decide⟩

/-- A blank behind the parenthesis of `(f)-1` turns an operator and a word into a number. -/
theorem blank_behind_close_joins_sign :
    let source := utf8 "(f)-1"
    let found (text : Bytes) := (tokens 1 text).map fun t => (t.kind, t.lexeme)
    ⟨.rparen, utf8 ")", .of 1 2 3⟩ ∈ tokens 1 source ∧
      found (source.take 3 ++ utf8 " " ++ source.drop 3) ≠ found source := by
  decide +kernel

end places

end LineLisp.Scan
