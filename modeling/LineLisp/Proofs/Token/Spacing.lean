import LineLisp.Proofs.Token.Lexical

/-!
Texts that blanks set apart. After blanks outside a comment the scanner goes on as at the start of
a line, only further along it. So a text behind another one and blanks has the tokens that it has
by itself, each moved by as much as stands before. Each token is found by itself, too, so tokens may
be written out anew with any blanks between them.
-/

namespace LineLisp

section moved

/-- The position that is `n` bytes further along its line. -/
def Position.moved (n : Nat) (p : Position) : Position :=
  { p with offset := p.offset + n, column := p.column + n }

def Span.moved (n : Nat) (s : Span) : Span :=
  ⟨s.start.moved n, s.stop.moved n⟩

/-- The token as it is found `n` bytes further along its line. -/
def Token.moved (n : Nat) (t : Token) : Token :=
  { t with span := t.span.moved n }

theorem Span.moved_of (n : Nat) (line : Int) (first last : Nat) :
    (Span.of line first last).moved n = .of line (first + n) (last + n) := by
  simp only [Span.moved, Span.of, Position.moved, Position.onLine, Int.natCast_add,
    Int.add_right_comm]

end moved

namespace Scan

def Mode.moved (n : Nat) : Mode → Mode
  | .sign start byte => .sign (start + n) byte
  | .word start bytes => .word (start + n) bytes
  | .gap fresh => .gap fresh
  | .comment => .comment

namespace State

/-- The scanner `n` bytes further along its line, where it has found `before` already. -/
def moved (n : Nat) (before : List Token) (s : State) : State where
  line := s.line
  offset := s.offset + n
  mode := s.mode.moved n
  found := s.found.map (Token.moved n) ++ before

variable (n : Nat) (before : List Token) (s : State)

theorem moved_skip (mode : Mode) :
    (s.skip mode).moved n before = (s.moved n before).skip (mode.moved n) := by
  simp only [skip, moved, Nat.add_right_comm]

theorem moved_emit (kind : Token.Kind) (start : Nat) (lexeme : Bytes) :
    (s.emit kind start lexeme).moved n before =
      (s.moved n before).emit kind (start + n) lexeme := by
  simp only [emit, moved, Token.moved, Span.moved_of, List.map_cons, List.cons_append]

theorem moved_single (kind : Token.Kind) (lexeme : Bytes) (fresh : Bool) :
    (s.single kind lexeme fresh).moved n before =
      (s.moved n before).single kind lexeme fresh := by
  rw [single, moved_emit, moved_skip]
  rfl

theorem moved_flush : s.flush.moved n before = (s.moved n before).flush := by
  obtain ⟨line, offset, mode, found⟩ := s
  cases mode with
  | gap fresh => rfl
  | comment => rfl
  | sign start byte =>
      simp only [flush, moved, emit, Mode.moved, Token.moved, Span.moved_of, List.map_cons,
        List.cons_append]
  | word start bytes =>
      simp only [flush, moved, emit, Mode.moved, Token.moved, Span.moved_of, List.map_cons,
        List.cons_append]

theorem moved_start (fresh : Bool) (b : UInt8) :
    (s.start fresh b).moved n before = (s.moved n before).start fresh b := by
  simp only [start, apply_ite (moved n before), moved_skip, moved_single]
  rfl

theorem moved_step (b : UInt8) : (s.step b).moved n before = (s.moved n before).step b := by
  have hmode : (s.moved n before).mode = s.mode.moved n := rfl
  unfold step
  rw [hmode]
  cases s.mode with
  | comment => exact moved_skip ..
  | gap fresh => exact moved_start ..
  | word start bytes =>
      simp only [apply_ite (moved n before), moved_start, moved_flush, moved_skip]
      rfl
  | sign start byte =>
      simp only [apply_ite (moved n before), moved_start, moved_flush, moved_skip]
      rfl

theorem moved_foldl (text : Bytes) :
    (text.foldl step s).moved n before = text.foldl step (s.moved n before) := by
  induction text generalizing s with
  | nil => rfl
  | cons b rest ih => rw [List.foldl_cons, ih, moved_step, List.foldl_cons]

/-- The tokens at the end of the line, those found earlier and the others moved. -/
theorem finish_moved :
    (s.moved n before).finish = before.reverse ++ s.finish.map (Token.moved n) := by
  have hend : (s.moved n before).flush.emit .eof (s.moved n before).flush.offset [] =
      (s.flush.emit .eof s.flush.offset []).moved n before := by
    rw [moved_emit, moved_flush, ← moved_flush]
    rfl
  have hfound := congrArg (fun u : State => u.found.reverse) hend
  simpa [finish, moved] using hfound

end State

section blanks

variable {line : Int} {first gap : Bytes}

/-- Blanks outside a comment end the token in progress, and then anything may begin. -/
theorem foldl_blanks {s : State} (hs : s.mode ≠ .comment) (hgap : gap ≠ [])
    (hblank : ∀ b ∈ gap, Blank.isSpace b) :
    gap.foldl State.step s =
      { s.flush with offset := s.offset + gap.length, mode := .gap true } := by
  induction gap generalizing s with
  | nil => exact absurd rfl hgap
  | cons b rest ih =>
      -- The first blank ends the token; the others find the scanner in a gap.
      have hstep : s.step b = s.flush.skip (.gap true) := step_blank_eq hs (hblank b (by simp))
      have hoffset : (s.flush.skip (.gap true)).offset = s.offset + 1 :=
        congrArg (· + 1) (flush_offset s)
      rw [List.foldl_cons, hstep]
      by_cases hrest : rest = []
      · subst hrest
        simp [State.skip, flush_offset]
      · rw [ih (by simp) hrest fun c hc => hblank c (by simp [hc]), hoffset,
          flush_of_gap (State.skip_mode ..), List.length_cons, Nat.add_assoc, Nat.add_comm 1]
        rfl

/-- A text without a comment and the blanks behind it leave the scanner as at the start of a line,
with the tokens of the text found. -/
theorem foldl_append_blanks (line : Int) (hfirst : 0x3B ∉ first) (hgap : gap ≠ [])
    (hblank : ∀ b ∈ gap, Blank.isSpace b) :
    (first ++ gap).foldl State.step (initial line 0 (.gap true)) =
      (initial line 0 (.gap true)).moved (first.length + gap.length)
        (Token.body (tokens line first)).reverse := by
  have hmode : (first.foldl State.step (initial line 0 (.gap true))).mode ≠ .comment :=
    mode_ne_comment_of_not_mem hfirst (by simp [initial])
  have hline : (first.foldl State.step (initial line 0 (.gap true))).flush.line = line := by
    rw [flush_line, foldl_line]
    rfl
  have hoffset : (first.foldl State.step (initial line 0 (.gap true))).offset = first.length := by
    rw [foldl_offset]
    exact Nat.zero_add _
  rw [List.foldl_append, foldl_blanks hmode hgap hblank, body_tokens_eq, List.reverse_reverse]
  generalize first.foldl State.step (initial line 0 (.gap true)) = s at hline hoffset
  simp [State.moved, Mode.moved, initial, hline, hoffset]

/-- A text behind another one and blanks has the tokens that it has by itself, further along. -/
theorem tokens_append_blanks (line : Int) (hfirst : 0x3B ∉ first) (hgap : gap ≠ [])
    (hblank : ∀ b ∈ gap, Blank.isSpace b) (second : Bytes) :
    tokens line (first ++ gap ++ second) = Token.body (tokens line first) ++
      (tokens line second).map (Token.moved (first.length + gap.length)) := by
  rw [tokens, List.foldl_append, foldl_append_blanks line hfirst hgap hblank,
    ← State.moved_foldl, State.finish_moved, List.reverse_reverse]
  rfl

theorem fits_of_mem_body {line : Int} {source : Bytes} {t : Token}
    (h : t ∈ Token.body (tokens line source)) : isLexeme t.kind t.lexeme ∧ t.isEof = false := by
  rw [body_tokens_eq, List.mem_reverse] at h
  exact ((initial_fits line 0 true).foldl source).flush.found t h

theorem lexemes_append_blanks (hfirst : 0x3B ∉ first) (hgap : gap ≠ [])
    (hblank : ∀ b ∈ gap, Blank.isSpace b) (second : Bytes) :
    lexemes (first ++ gap ++ second) = lexemes first ++ lexemes second := by
  have hbody : ∀ t ∈ Token.body (tokens 1 first), (!t.isEof) = true := by
    intro t ht
    rw [(fits_of_mem_body ht).2]
    rfl
  have hmoved : Token.body ((tokens 1 second).map (Token.moved (first.length + gap.length))) =
      (Token.body (tokens 1 second)).map (Token.moved (first.length + gap.length)) :=
    List.takeWhile_map ..
  unfold lexemes
  rw [tokens_append_blanks 1 hfirst hgap hblank, Token.body, List.takeWhile_append_of_pos hbody,
    List.map_append, ← Token.body, hmoved, List.map_map]
  rfl

end blanks

section written

variable {t : Token}

/-- A token that is written by itself is found again. -/
theorem lexemes_source (h : isLexeme t.kind t.lexeme) (heof : t.isEof = false) :
    lexemes t.source = [(t.kind, t.lexeme)] := by
  obtain ⟨kind, lexeme, span⟩ := t
  cases kind with
  | eof => simp [Token.isEof] at heof
  | other number => simp [isLexeme] at h
  | word => exact (scans_word h).body_tokens 1
  | operator => exact (scans_operator h).body_tokens 1
  | lparen =>
      obtain rfl : lexeme = [0x28] := by simpa [isLexeme] using h
      rfl
  | rparen =>
      obtain rfl : lexeme = [0x29] := by simpa [isLexeme] using h
      rfl
  | quote =>
      obtain rfl : lexeme = Token.quoteName := by simpa [isLexeme] using h
      rfl

theorem not_mem_of_isWord {w : Bytes} (h : isWord w) : 0x3B ∉ w := by
  cases w with
  | nil => simp
  | cons b rest =>
      have hsemicolon : isDelimiter 0x3B = true ∧ isSign 0x3B = false := by decide
      simp only [isWord, Bool.and_eq_true, List.all_eq_true] at h
      rintro (_ | ⟨_, hmem⟩)
      · simp [hsemicolon] at h
      · simpa [hsemicolon] using h.2 _ hmem

theorem not_mem_of_isOperatorText {w : Bytes} (h : isOperatorText w) : 0x3B ∉ w := by
  match w with
  | [] | _ :: _ :: _ => simp [isOperatorText] at h
  | [b] =>
      have hsemicolon : isOperator 0x3B = false := by decide
      rintro (_ | ⟨_, hmem⟩)
      · simp [isOperatorText, hsemicolon] at h
      · cases hmem

/-- No token begins a comment. -/
theorem not_mem_source (h : isLexeme t.kind t.lexeme) : 0x3B ∉ t.source := by
  obtain ⟨kind, lexeme, span⟩ := t
  cases kind with
  | other number => simp [isLexeme] at h
  | word => exact not_mem_of_isWord h
  | operator => exact not_mem_of_isOperatorText h
  | quote => simp [Token.source]
  | eof =>
      obtain rfl : lexeme = [] := by simpa [isLexeme] using h
      simp [Token.source]
  | lparen =>
      obtain rfl : lexeme = [0x28] := by simpa [isLexeme] using h
      simp [Token.source]
  | rparen =>
      obtain rfl : lexeme = [0x29] := by simpa [isLexeme] using h
      simp [Token.source]

end written

end Scan

/-- The tokens written in order, each but the last with a gap behind it; gaps are numbered from the
last one. -/
def Token.written (gap : Nat → Bytes) : List Token → Bytes
  | [] => []
  | [t] => t.source
  | t :: next :: rest => t.source ++ gap rest.length ++ written gap (next :: rest)

namespace Scan

theorem lexemes_written {gap : Nat → Bytes} (hgap : ∀ i, gap i ≠ [] ∧ ∀ b ∈ gap i, Blank.isSpace b)
    {ts : List Token} (h : ∀ t ∈ ts, isLexeme t.kind t.lexeme ∧ t.isEof = false) :
    lexemes (Token.written gap ts) = ts.map fun t => (t.kind, t.lexeme) := by
  induction ts with
  | nil => rfl
  | cons t rest ih =>
      obtain ⟨hlexeme, heof⟩ := h t (by simp)
      have hrest := ih fun u hu => h u (by simp [hu])
      cases rest with
      | nil => exact lexemes_source hlexeme heof
      | cons next rest =>
          obtain ⟨hne, hblank⟩ := hgap rest.length
          rw [Token.written, lexemes_append_blanks (not_mem_source hlexeme) hne hblank, hrest,
            lexemes_source hlexeme heof]
          rfl

/-- The kinds and lexemes of a line, the end of the line included, are those of its tokens and the
end. -/
theorem map_tokens (line : Int) (source : Bytes) :
    ((tokens line source).map fun t => (t.kind, t.lexeme)) = lexemes source ++ [(.eof, [])] := by
  obtain ⟨span, heq⟩ := tokens_eq_body line source
  rw [heq, List.map_append, map_body_tokens]
  rfl

/-- Where blanks stand between two texts, the first without a comment, the tokens are those of each
text, the second's moved. The tokens of a line that are written with any blanks between them are
found again, up to their places. -/
theorem tokens_respaced (line : Int) :
    (∀ first gap second : Bytes, 0x3B ∉ first → gap ≠ [] → (∀ b ∈ gap, Blank.isSpace b) →
      tokens line (first ++ gap ++ second) = Token.body (tokens line first) ++
        (tokens line second).map (Token.moved (first.length + gap.length))) ∧
    ∀ (source : Bytes) (gap : Nat → Bytes), (∀ i, gap i ≠ [] ∧ ∀ b ∈ gap i, Blank.isSpace b) →
      ((tokens line (Token.written gap (Token.body (tokens line source)))).map fun t =>
        (t.kind, t.lexeme)) = (tokens line source).map fun t => (t.kind, t.lexeme) := by
  constructor
  · intro first gap second hfirst hgap hblank
    exact tokens_append_blanks line hfirst hgap hblank second
  · intro source gap hgap
    rw [map_tokens, map_tokens, lexemes_written hgap fun _ => fits_of_mem_body, map_body_tokens]

theorem tokens_respaced_signs :
    tokens 1 (utf8 "(1-'" ++ utf8 "\t\n" ++ utf8 "-2 ;)") = Token.body (tokens 1 (utf8 "(1-'")) ++
      (tokens 1 (utf8 "-2 ;)")).map (Token.moved 6) ∧
    Token.written (fun i => if i = 0 then utf8 "\r\n" else utf8 " ")
      (Token.body (tokens 1 (utf8 "'1-2;3"))) = utf8 "' 1 -\r\n2" ∧
    ((tokens 1 (utf8 "' 1 -\r\n2")).map fun t => (t.kind, t.lexeme)) =
      (tokens 1 (utf8 "'1-2;3")).map fun t => (t.kind, t.lexeme) := by
  have hwritten : Token.written (fun i => if i = 0 then utf8 "\r\n" else utf8 " ")
      (Token.body (tokens 1 (utf8 "'1-2;3"))) = utf8 "' 1 -\r\n2" := by
    decide +kernel
  have hblank : ∀ b ∈ utf8 "\t\n", Blank.isSpace b := by decide +kernel
  refine ⟨?_, hwritten, ?_⟩
  · exact (tokens_respaced 1).1 _ _ _ (by decide) (by decide) hblank
  · rw [← hwritten]
    apply (tokens_respaced 1).2
    intro i
    split
    · decide +kernel
    · decide +kernel

end Scan

end LineLisp
