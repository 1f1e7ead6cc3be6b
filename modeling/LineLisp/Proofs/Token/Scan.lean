import LineLisp.Token.Scan

/-!
What the scanner finds. Every token has a lexeme of the class of its kind, wherever the scanner
starts; conversely a word or an operator that stands by itself, or between separators, is found
as one token. The state of the scanner is compared after ending the token in progress, since the
byte after a text decides nothing about it but where it ends.
-/

namespace LineLisp.Scan

/-- The texts of words: bytes that end no word, or a sign with a digit and such bytes. -/
def isWord : Bytes → Bool
  | [] => false
  | b :: rest =>
      (!isDelimiter b || isSign b && rest.head?.any Decimal.isDigit) &&
        rest.all fun b => !isDelimiter b

/-- The texts of operators. -/
def isOperatorText : Bytes → Bool
  | [b] => isOperator b
  | _ => false

/-- Whether a text is a lexeme of tokens of a kind. -/
def isLexeme (kind : Token.Kind) (lexeme : Bytes) : Bool :=
  match kind with
  | .eof => lexeme == []
  | .lparen => lexeme == [0x28]
  | .rparen => lexeme == [0x29]
  | .quote => lexeme == Token.quoteName
  | .operator => isOperatorText lexeme
  | .word => isWord lexeme
  | .other _ => false

section bytes

variable {b : UInt8}

theorem isDelimiter_of_isOperator (h : isOperator b) : isDelimiter b := by
  simp [isDelimiter, h]

theorem isOperator_of_isSign (h : isSign b) : isOperator b := by
  simp only [isSign, Bool.or_eq_true, beq_iff_eq] at h
  rcases h with rfl | rfl <;> decide

theorem not_isDelimiter_of_isDigit (h : Decimal.isDigit b) : isDelimiter b = false := by
  simp only [Decimal.isDigit, Bool.and_eq_true, decide_eq_true_eq, UInt8.le_iff_toNat_le] at h
  simp [isDelimiter, Blank.isSpace, isOperator, ← UInt8.toNat_inj, UInt8.le_iff_toNat_le] at h ⊢
  omega

end bytes

theorem isWord_append {w : Bytes} {b : UInt8} (hw : isWord w) (hb : isDelimiter b = false) :
    isWord (w ++ [b]) := by
  cases w with
  | nil => simp [isWord] at hw
  | cons first rest =>
      cases rest <;> simp_all [isWord]

theorem isWord_of_sign {sign d : UInt8} (hsign : isSign sign) (hd : Decimal.isDigit d) :
    isWord [sign, d] := by
  simp [isWord, hsign, hd, not_isDelimiter_of_isDigit hd]

/-- What is in progress may become a lexeme. -/
def Mode.Fits : Mode → Prop
  | .sign _ byte => isSign byte
  | .word _ bytes => isWord bytes.reverse
  | .gap _ | .comment => True

structure State.Fits (s : State) : Prop where
  found : ∀ t ∈ s.found, isLexeme t.kind t.lexeme ∧ t.isEof = false
  mode : s.mode.Fits

namespace State

variable {s : State}

@[simp]
theorem skip_found (s : State) (mode : Mode) : (s.skip mode).found = s.found := rfl

@[simp]
theorem skip_mode (s : State) (mode : Mode) : (s.skip mode).mode = mode := rfl

@[simp]
theorem single_mode (s : State) (kind : Token.Kind) (lexeme : Bytes) (fresh : Bool) :
    (s.single kind lexeme fresh).mode = .gap fresh := rfl

theorem Fits.skip (h : s.Fits) {mode : Mode} (hmode : mode.Fits) : (s.skip mode).Fits :=
  ⟨h.found, hmode⟩

theorem Fits.emit (h : s.Fits) {kind : Token.Kind} {start : Nat} {lexeme : Bytes}
    (hlexeme : isLexeme kind lexeme) (hkind : kind ≠ .eof) : (s.emit kind start lexeme).Fits := by
  refine ⟨?_, h.mode⟩
  intro t ht
  rcases List.mem_cons.mp ht with rfl | ht
  · exact ⟨hlexeme, by simpa [Token.isEof] using hkind⟩
  · exact h.found t ht

theorem Fits.flush (h : s.Fits) : s.flush.Fits := by
  have hmode := h.mode
  unfold State.flush
  split
  · rename_i start byte hsign
    rw [hsign] at hmode
    have hlexeme : isLexeme .operator [byte] := isOperator_of_isSign hmode
    exact ⟨(h.emit hlexeme (by simp)).found, trivial⟩
  · rename_i start bytes hword
    rw [hword] at hmode
    have hlexeme : isLexeme .word bytes.reverse := hmode
    exact ⟨(h.emit hlexeme (by simp)).found, trivial⟩
  · exact h
  · exact h

theorem Fits.single (h : s.Fits) {kind : Token.Kind} {lexeme : Bytes} {fresh : Bool}
    (hlexeme : isLexeme kind lexeme) (hkind : kind ≠ .eof) : (s.single kind lexeme fresh).Fits :=
  (h.skip (by trivial)).emit hlexeme hkind

/-- All that reading a byte between tokens can do. -/
theorem start_cases (s : State) (fresh : Bool) (b : UInt8) :
    (Blank.isSpace b ∧ s.start fresh b = s.skip (.gap true)) ∨
    (b = 0x3B ∧ s.start fresh b = s.skip .comment) ∨
    (b = 0x28 ∧ s.start fresh b = s.single .lparen [0x28] true) ∨
    (b = 0x29 ∧ s.start fresh b = s.single .rparen [0x29] false) ∨
    (b = 0x27 ∧ s.start fresh b = s.single .quote Token.quoteName true) ∨
    (isSign b ∧ fresh = true ∧ s.start fresh b = s.skip (.sign s.offset b)) ∨
    (isOperator b ∧ (isSign b → fresh = false) ∧
      s.start fresh b = s.single .operator [b] false) ∨
    (isDelimiter b = false ∧ s.start fresh b = s.skip (.word s.offset [b])) := by
  unfold State.start
  by_cases hspace : Blank.isSpace b
  · exact .inl ⟨hspace, if_pos hspace⟩
  by_cases hcomment : b = 0x3B
  · subst hcomment
    exact .inr (.inl ⟨rfl, rfl⟩)
  by_cases hopen : b = 0x28
  · subst hopen
    exact .inr (.inr (.inl ⟨rfl, rfl⟩))
  by_cases hclose : b = 0x29
  · subst hclose
    exact .inr (.inr (.inr (.inl ⟨rfl, rfl⟩)))
  by_cases hquote : b = 0x27
  · subst hquote
    exact .inr (.inr (.inr (.inr (.inl ⟨rfl, rfl⟩))))
  rw [if_neg hspace, if_neg hcomment, if_neg hopen, if_neg hclose, if_neg hquote]
  by_cases hsign : fresh && isSign b
  · rw [Bool.and_eq_true] at hsign
    exact .inr (.inr (.inr (.inr (.inr (.inl ⟨hsign.2, hsign.1, by simp [hsign]⟩)))))
  rw [if_neg hsign]
  by_cases hoperator : isOperator b
  · have hstale : isSign b → fresh = false := by
      intro hb
      simpa [hb] using hsign
    exact .inr (.inr (.inr (.inr (.inr (.inr (.inl ⟨hoperator, hstale, if_pos hoperator⟩))))))
  · have hword : isDelimiter b = false := by
      simp [isDelimiter, hspace, hcomment, hopen, hclose, hquote, hoperator]
    exact .inr (.inr (.inr (.inr (.inr (.inr (.inr ⟨hword, if_neg hoperator⟩))))))

theorem Fits.start (h : s.Fits) (fresh : Bool) (b : UInt8) : (s.start fresh b).Fits := by
  rcases s.start_cases fresh b with ⟨-, heq⟩ | ⟨-, heq⟩ | ⟨-, heq⟩ | ⟨-, heq⟩ | ⟨-, heq⟩ |
    ⟨hsign, -, heq⟩ | ⟨hoperator, -, heq⟩ | ⟨hword, heq⟩ <;> rw [heq]
  · exact h.skip trivial
  · exact h.skip trivial
  · exact h.single (by decide) (by simp)
  · exact h.single (by decide) (by simp)
  · exact h.single (by simp [isLexeme]) (by simp)
  · exact h.skip hsign
  · exact h.single hoperator (by simp)
  · exact h.skip (by simp [Mode.Fits, isWord, hword])

theorem Fits.step (h : s.Fits) (b : UInt8) : (s.step b).Fits := by
  have hmode := h.mode
  unfold State.step
  split
  · exact h.skip trivial
  · exact h.start _ b
  · rename_i start bytes hword
    rw [hword] at hmode
    split
    · exact h.flush.start false b
    · rename_i hdelimiter
      have hlonger : isWord (bytes.reverse ++ [b]) :=
        isWord_append hmode (by simpa using hdelimiter)
      exact h.skip (by simpa [Mode.Fits] using hlonger)
  · rename_i start byte hsign
    rw [hsign] at hmode
    split
    · rename_i hdigit
      exact h.skip (by simpa [Mode.Fits] using isWord_of_sign hmode hdigit)
    · exact h.flush.start false b

theorem Fits.foldl (h : s.Fits) (source : Bytes) : (source.foldl State.step s).Fits := by
  induction source generalizing s with
  | nil => exact h
  | cons b rest ih => exact ih (h.step b)

/-- The tokens before the end of the line are those found, the one in progress included. -/
theorem Fits.body_finish (h : s.Fits) : Token.body s.finish = s.flush.found.reverse := by
  have hfound : ∀ t ∈ s.flush.found.reverse, (!t.isEof) = true := by
    intro t ht
    simp [(h.flush.found t (List.mem_reverse.mp ht)).2]
  simp only [State.finish, State.emit, Token.body, List.reverse_cons]
  rw [List.takeWhile_append_of_pos hfound]
  simp [Token.isEof]

end State

theorem initial_fits (line : Int) (offset : Nat) (fresh : Bool) :
    (initial line offset (.gap fresh)).Fits :=
  ⟨by simp [initial], trivial⟩

/-- The tokens of a line, with or without its first word. -/
def tokensOf (skipWord : Bool) (line : Int) (source : Bytes) : List Token :=
  if skipWord then tokensAfterWord line source else tokens line source

/-- Every token before the end of the line has a lexeme of its kind. -/
theorem isLexeme_of_mem_body {skipWord : Bool} {line : Int} {source : Bytes} {t : Token}
    (h : t ∈ Token.body (tokensOf skipWord line source)) : isLexeme t.kind t.lexeme := by
  have hfits : ∀ s : State, s.Fits → t ∈ Token.body s.finish → isLexeme t.kind t.lexeme := by
    intro s hs ht
    rw [hs.body_finish] at ht
    exact (hs.flush.found t (List.mem_reverse.mp ht)).1
  cases skipWord with
  | true => exact hfits _ ((initial_fits ..).foldl _) h
  | false => exact hfits _ ((initial_fits ..).foldl _) h

/-- The kinds and lexemes found by a state, the token in progress included. -/
def State.read (s : State) : List (Token.Kind × Bytes) :=
  s.flush.found.reverse.map fun t => (t.kind, t.lexeme)

/-- Whether a text, from wherever a sign may begin a number, is found as the given lexemes. -/
def Scans (text : Bytes) (lexemes : List (Token.Kind × Bytes)) : Prop :=
  ∀ s : State, s.mode = .gap true →
    (text.foldl State.step s).flush.mode = .gap false ∧
      (text.foldl State.step s).read = s.read ++ lexemes

theorem flush_of_gap {s : State} {fresh : Bool} (h : s.mode = .gap fresh) : s.flush = s := by
  simp [State.flush, h]

/-- A byte that ends a word and is no sign is read from between tokens, wherever it stands. -/
theorem step_eq_start {s : State} {b : UInt8} (hmode : s.mode ≠ .comment) (hb : isDelimiter b)
    (hsign : isSign b = false) : s.step b = s.flush.start false b := by
  have hdigit : Decimal.isDigit b = false := by
    cases hdigit : Decimal.isDigit b with
    | false => rfl
    | true => simp [not_isDelimiter_of_isDigit hdigit] at hb
  cases hcase : s.mode with
  | comment => exact absurd hcase hmode
  | gap fresh => simp [State.step, hcase, flush_of_gap hcase, State.start, hsign]
  | word start bytes => simp [State.step, hcase, hb]
  | sign start byte => simp [State.step, hcase, hdigit]

theorem mode_ne_comment {s : State} {fresh : Bool} (h : s.flush.mode = .gap fresh) :
    s.mode ≠ .comment := by
  intro hcomment
  simp [State.flush, hcomment] at h

theorem step_space {s : State} {fresh : Bool} (h : s.flush.mode = .gap fresh) :
    s.step 0x20 = s.flush.skip (.gap true) := by
  rw [step_eq_start (mode_ne_comment h) (by decide) (by decide)]
  simp [State.start, show Blank.isSpace 0x20 = true by decide]

theorem step_close {s : State} {fresh : Bool} (h : s.flush.mode = .gap fresh) :
    s.step 0x29 = s.flush.single .rparen [0x29] false := by
  rw [step_eq_start (mode_ne_comment h) (by decide) (by decide)]
  simp [State.start, show Blank.isSpace 0x29 = false by decide]

theorem step_open {s : State} (h : s.mode = .gap true) :
    s.step 0x28 = s.single .lparen [0x28] true := by
  simp [State.step, h, State.start, show Blank.isSpace 0x28 = false by decide]

theorem step_mark {s : State} {fresh : Bool} (h : s.mode = .gap fresh) :
    s.step 0x27 = s.single .quote Token.quoteName true := by
  simp only [State.step, h]
  rfl

/-- Inside a word, bytes that do not end it are collected. -/
theorem foldl_word {s : State} {start : Nat} {bytes : Bytes} (rest : Bytes)
    (hmode : s.mode = .word start bytes) (hrest : rest.all fun b => !isDelimiter b) :
    (rest.foldl State.step s).mode = .word start (rest.reverse ++ bytes) ∧
      (rest.foldl State.step s).found = s.found := by
  induction rest generalizing s bytes with
  | nil => exact ⟨hmode, rfl⟩
  | cons b rest ih =>
      simp only [List.all_cons, Bool.and_eq_true, Bool.not_eq_true'] at hrest
      have hstep : s.step b = s.skip (.word start (b :: bytes)) := by
        simp [State.step, hmode, hrest.1]
      have hmore := ih (s := s.skip (.word start (b :: bytes))) rfl (by simpa using hrest.2)
      simpa [hstep] using hmore

/-- A state that ends a word has found it. -/
theorem read_of_word {s : State} {start : Nat} {bytes : Bytes} (h : s.mode = .word start bytes) :
    s.flush.mode = .gap false ∧
      s.read = (s.found.reverse.map fun t => (t.kind, t.lexeme)) ++ [(.word, bytes.reverse)] := by
  simp [State.read, State.flush, h, State.emit]

theorem read_of_gap {s : State} {fresh : Bool} (h : s.mode = .gap fresh) :
    s.read = s.found.reverse.map fun t => (t.kind, t.lexeme) := by
  simp [State.read, flush_of_gap h]

theorem read_single (s : State) (kind : Token.Kind) (lexeme : Bytes) (fresh : Bool) :
    (s.flush.single kind lexeme fresh).read = s.read ++ [(kind, lexeme)] := by
  rw [read_of_gap (State.single_mode ..)]
  simp [State.single, State.emit, State.read]

/-- Reading the first byte of a word that is not signed. -/
theorem step_word {s : State} {fresh : Bool} {b : UInt8} (hmode : s.mode = .gap fresh)
    (hb : isDelimiter b = false) : s.step b = s.skip (.word s.offset [b]) := by
  have hsign : isSign b = false := by
    cases hsign : isSign b with
    | false => rfl
    | true => simp [isDelimiter_of_isOperator (isOperator_of_isSign hsign)] at hb
  simp only [isDelimiter, Bool.or_eq_false_iff, beq_eq_false_iff_ne] at hb
  simp [State.step, hmode, State.start, hb, hsign]

theorem step_sign {s : State} {b : UInt8} (hmode : s.mode = .gap true) (hb : isSign b) :
    s.step b = s.skip (.sign s.offset b) := by
  simp only [isSign, Bool.or_eq_true, beq_iff_eq] at hb
  rcases hb with rfl | rfl
  · simp only [State.step, hmode]
    rfl
  · simp only [State.step, hmode]
    rfl

theorem step_operator {s : State} {fresh : Bool} {b : UInt8} (hmode : s.mode = .gap fresh)
    (hb : isOperator b) (hsign : isSign b = false) : s.step b = s.single .operator [b] false := by
  have hcases : b = 0x2A ∨ b = 0x2F := by
    simp_all [isOperator, isSign]
  simp only [State.step, hmode]
  rcases hcases with rfl | rfl
  · cases fresh <;> rfl
  · cases fresh <;> rfl

theorem scans_word {w : Bytes} (hw : isWord w) : Scans w [(.word, w)] := by
  intro s hs
  have hend : ∀ (u : State) (start : Nat) (bytes rest : Bytes), u.mode = .word start bytes →
      u.found = s.found → (rest.all fun b => !isDelimiter b) → bytes.reverse ++ rest = w →
      (rest.foldl State.step u).flush.mode = .gap false ∧
        (rest.foldl State.step u).read = s.read ++ [(.word, w)] := by
    intro u start bytes rest hmode hfound hrest htext
    obtain ⟨hlast, hsame⟩ := foldl_word rest hmode hrest
    have hread := read_of_word hlast
    rw [read_of_gap hs, ← hfound, ← hsame]
    simpa [htext] using hread
  cases w with
  | nil => simp [isWord] at hw
  | cons b rest =>
      simp only [isWord, Bool.and_eq_true, Bool.or_eq_true, Bool.not_eq_true'] at hw
      obtain ⟨hfirst | ⟨hsign, hdigit⟩, hrest⟩ := hw
      · rw [List.foldl_cons, step_word hs hfirst]
        exact hend _ s.offset [b] rest rfl rfl hrest rfl
      · cases rest with
        | nil => simp at hdigit
        | cons d rest =>
            have hd : Decimal.isDigit d := by simpa using hdigit
            have hstep : (s.skip (.sign s.offset b)).step d =
                (s.skip (.sign s.offset b)).skip (.word s.offset [d, b]) := by
              simp [State.step, hd]
            rw [List.foldl_cons, step_sign hs hsign, List.foldl_cons, hstep]
            refine hend _ s.offset [d, b] rest rfl rfl ?_ rfl
            simp only [List.all_cons, Bool.and_eq_true] at hrest
            exact hrest.2

theorem scans_operator {w : Bytes} (hw : isOperatorText w) : Scans w [(.operator, w)] := by
  intro s hs
  match w with
  | [] | _ :: _ :: _ => simp [isOperatorText] at hw
  | [b] =>
      have hoperator : isOperator b := hw
      cases hsign : isSign b with
      | true =>
          rw [List.foldl_cons, List.foldl_nil, step_sign hs hsign, read_of_gap hs]
          simp [State.flush, State.read, State.emit]
      | false =>
          rw [List.foldl_cons, List.foldl_nil, step_operator hs hoperator hsign]
          refine ⟨by rw [flush_of_gap (State.single_mode ..)]; rfl, ?_⟩
          have hread := read_single s .operator [b] false
          rwa [flush_of_gap hs] at hread

/-- Two texts with a space between them are found one after the other. -/
theorem Scans.space {text text' : Bytes} {lexemes lexemes' : List (Token.Kind × Bytes)}
    (h : Scans text lexemes) (h' : Scans text' lexemes') :
    Scans (text ++ 0x20 :: text') (lexemes ++ lexemes') := by
  intro s hs
  obtain ⟨hmode, hread⟩ := h s hs
  rw [List.foldl_append, List.foldl_cons, step_space hmode]
  obtain ⟨hmode', hread'⟩ := h' ((text.foldl State.step s).flush.skip (.gap true)) rfl
  refine ⟨hmode', ?_⟩
  rw [hread', read_of_gap (State.skip_mode ..), State.skip_found, ← List.append_assoc, ← hread]
  rfl

/-- A text in parentheses is found between them. -/
theorem Scans.parens {text : Bytes} {lexemes : List (Token.Kind × Bytes)} (h : Scans text lexemes) :
    Scans (0x28 :: (text ++ [0x29])) ((.lparen, [0x28]) :: (lexemes ++ [(.rparen, [0x29])])) := by
  intro s hs
  obtain ⟨hmode, hread⟩ := h (s.single .lparen [0x28] true) rfl
  rw [List.foldl_cons, step_open hs, List.foldl_append, List.foldl_cons, List.foldl_nil,
    step_close hmode]
  refine ⟨by rw [flush_of_gap (State.single_mode ..)]; rfl, ?_⟩
  have hopen := read_single s .lparen [0x28] true
  rw [flush_of_gap hs] at hopen
  rw [read_single, hread, hopen]
  simp

theorem scans_empty_form : Scans [0x28, 0x29] [(.lparen, [0x28]), (.rparen, [0x29])] := by
  intro s hs
  have hmode : (s.single .lparen [0x28] true).flush.mode = .gap true := by
    rw [flush_of_gap (State.single_mode ..)]
    rfl
  rw [List.foldl_cons, step_open hs, List.foldl_cons, List.foldl_nil, step_close hmode]
  refine ⟨by rw [flush_of_gap (State.single_mode ..)]; rfl, ?_⟩
  have hopen := read_single s .lparen [0x28] true
  rw [flush_of_gap hs] at hopen
  rw [read_single, hopen]
  simp

/-- The tokens of a line by itself, when its text is found as given lexemes. -/
theorem Scans.body_tokens {text : Bytes} {lexemes : List (Token.Kind × Bytes)}
    (h : Scans text lexemes) (line : Int) :
    (Token.body (tokens line text)).map (fun t => (t.kind, t.lexeme)) = lexemes := by
  have hfits := (initial_fits line 0 true).foldl text
  obtain ⟨-, hread⟩ := h (initial line 0 (.gap true)) rfl
  unfold tokens
  rw [hfits.body_finish]
  simpa [State.read, initial, State.flush] using hread

end LineLisp.Scan
