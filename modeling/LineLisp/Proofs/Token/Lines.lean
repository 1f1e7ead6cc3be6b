import LineLisp.Proofs.Token.Scan
import LineLisp.Line
import Mathlib.Algebra.Ring.Int.Defs
import Mathlib.Tactic.SplitIfs

/-!
Scanning a text piece by piece. What the scanner finds after a blank depends on nothing before it
but a comment, so texts joined by blanks have the tokens of the texts one after the other. A
comment adds no tokens, and one blank is as good as another, down to the places of all tokens.
-/

namespace LineLisp.Scan

/-- The kinds and lexemes of the tokens of a line. -/
def lexemes (source : Bytes) : List (Token.Kind × Bytes) :=
  (Token.body (tokens 1 source)).map fun t => (t.kind, t.lexeme)

/-- What the scanner is in the middle of, wherever that began. -/
def Mode.shape : Mode → Mode
  | .sign _ byte => .sign 0 byte
  | .word _ bytes => .word 0 bytes
  | mode => mode

/-- Whether `t` is in the middle of the same as `s` and has found `before` in front of what `s` has
found, whatever the places. -/
structure State.Trails (before : List (Token.Kind × Bytes)) (s t : State) : Prop where
  mode : t.mode.shape = s.mode.shape
  found : (t.found.reverse.map fun t => (t.kind, t.lexeme)) =
    before ++ s.found.reverse.map fun t => (t.kind, t.lexeme)

namespace State.Trails

variable {before : List (Token.Kind × Bytes)} {s t : State}

theorem skip (h : Trails before s t) {mode mode' : Mode} (hmode : mode'.shape = mode.shape) :
    Trails before (s.skip mode) (t.skip mode') :=
  ⟨hmode, h.found⟩

theorem emit (h : Trails before s t) (kind : Token.Kind) (start start' : Nat) (lexeme : Bytes) :
    Trails before (s.emit kind start lexeme) (t.emit kind start' lexeme) :=
  ⟨h.mode, by simp [State.emit, h.found]⟩

theorem single (h : Trails before s t) (kind : Token.Kind) (lexeme : Bytes) (fresh : Bool) :
    Trails before (s.single kind lexeme fresh) (t.single kind lexeme fresh) :=
  (h.skip rfl).emit kind _ _ lexeme

/-- The two states are in the middle of the same, so that one case split serves both. -/
theorem cases (h : Trails before s t) :
    (∃ fresh, s.mode = .gap fresh ∧ t.mode = .gap fresh) ∨
    (∃ start start' byte, s.mode = .sign start byte ∧ t.mode = .sign start' byte) ∨
    (∃ start start' bytes, s.mode = .word start bytes ∧ t.mode = .word start' bytes) ∨
    (s.mode = .comment ∧ t.mode = .comment) := by
  have hmode := h.mode
  cases hs : s.mode <;> cases ht : t.mode <;> simp_all [Mode.shape]

theorem flush (h : Trails before s t) : Trails before s.flush t.flush := by
  rcases h.cases with ⟨fresh, hs, ht⟩ | ⟨start, start', byte, hs, ht⟩ |
    ⟨start, start', bytes, hs, ht⟩ | ⟨hs, ht⟩
  · simpa [State.flush, hs, ht] using h
  · have hemit := h.emit .operator start start' [byte]
    simp only [State.flush, hs, ht]
    exact ⟨rfl, hemit.found⟩
  · have hemit := h.emit .word start start' bytes.reverse
    simp only [State.flush, hs, ht]
    exact ⟨rfl, hemit.found⟩
  · simpa [State.flush, hs, ht] using h

theorem start (h : Trails before s t) (fresh : Bool) (b : UInt8) :
    Trails before (s.start fresh b) (t.start fresh b) := by
  unfold State.start
  split_ifs
  · exact h.skip rfl
  · exact h.skip rfl
  · exact h.single ..
  · exact h.single ..
  · exact h.single ..
  · exact h.skip rfl
  · exact h.single ..
  · exact h.skip rfl

theorem step (h : Trails before s t) (b : UInt8) : Trails before (s.step b) (t.step b) := by
  rcases h.cases with ⟨fresh, hs, ht⟩ | ⟨start, start', byte, hs, ht⟩ |
    ⟨start, start', bytes, hs, ht⟩ | ⟨hs, ht⟩
  · simp only [State.step, hs, ht]
    exact h.start fresh b
  · simp only [State.step, hs, ht]
    split_ifs
    · exact h.skip rfl
    · exact h.flush.start false b
  · simp only [State.step, hs, ht]
    split_ifs
    · exact h.flush.start false b
    · exact h.skip rfl
  · simp only [State.step, hs, ht]
    exact h.skip rfl

theorem foldl (h : Trails before s t) (text : Bytes) :
    Trails before (text.foldl State.step s) (text.foldl State.step t) := by
  induction text generalizing s t with
  | nil => exact h
  | cons b rest ih => exact ih (h.step b)

theorem read (h : Trails before s t) : t.read = before ++ s.read :=
  h.flush.found

end State.Trails

/-- The tokens before the end of a line, with their places. -/
theorem body_tokens_eq (line : Int) (source : Bytes) :
    Token.body (tokens line source) =
      (source.foldl State.step (initial line 0 (.gap true))).flush.found.reverse :=
  ((initial_fits line 0 true).foldl source).body_finish

theorem map_body_tokens_eq_read (line : Int) (source : Bytes) :
    ((Token.body (tokens line source)).map fun t => (t.kind, t.lexeme)) =
      (source.foldl State.step (initial line 0 (.gap true))).read := by
  rw [body_tokens_eq]
  rfl

theorem lexemes_eq_read (source : Bytes) :
    lexemes source = (source.foldl State.step (initial 1 0 (.gap true))).read :=
  map_body_tokens_eq_read 1 source

/-- From a place where a sign may begin a number, a text is found as it is by itself. -/
theorem read_foldl_of_gap {s : State} (hs : s.mode = .gap true) (text : Bytes) :
    (text.foldl State.step s).read = s.read ++ lexemes text := by
  have htrails : State.Trails s.read (initial 1 0 (.gap true)) s := by
    refine ⟨by rw [hs]; rfl, ?_⟩
    simp [initial, read_of_gap hs]
  rw [lexemes_eq_read]
  exact (htrails.foldl text).read

/-- The number of a line decides nothing but places. -/
theorem map_body_tokens (line : Int) (source : Bytes) :
    ((Token.body (tokens line source)).map fun t => (t.kind, t.lexeme)) = lexemes source := by
  rw [map_body_tokens_eq_read]
  exact read_foldl_of_gap (s := initial line 0 (.gap true)) rfl source

section comments

theorem foldl_comment {s : State} (hs : s.mode = .comment) (text : Bytes) :
    (text.foldl State.step s).mode = .comment ∧ (text.foldl State.step s).found = s.found := by
  induction text generalizing s with
  | nil => exact ⟨hs, rfl⟩
  | cons b rest ih =>
      have hstep : s.step b = s.skip .comment := by simp [State.step, hs]
      rw [List.foldl_cons, hstep]
      exact ih rfl

theorem step_semicolon (s : State) :
    (s.step 0x3B).mode = .comment ∧ (s.step 0x3B).found = s.flush.found := by
  by_cases hs : s.mode = .comment
  · simp [State.step, hs, State.flush]
  · rw [step_eq_start hs (by decide) (by decide)]
    have hspace : Blank.isSpace 0x3B = false := by decide
    simp [State.start, hspace]

theorem flush_found_of_comment {s : State} (hs : s.mode = .comment) : s.flush.found = s.found := by
  simp [State.flush, hs]

/-- A comment finds nothing beyond the token that it ends. -/
theorem flush_found_comment (s : State) (comment : Bytes) :
    ((0x3B :: comment).foldl State.step s).flush.found = s.flush.found := by
  obtain ⟨hmode, hfound⟩ := step_semicolon s
  obtain ⟨hmode', hfound'⟩ := foldl_comment hmode comment
  rw [List.foldl_cons, flush_found_of_comment hmode', hfound', hfound]

theorem step_mode_ne_comment {s : State} {b : UInt8} (hs : s.mode ≠ .comment) (hb : b ≠ 0x3B) :
    (s.step b).mode ≠ .comment := by
  have hstart : ∀ (u : State) (fresh : Bool), (u.start fresh b).mode ≠ .comment := by
    intro u fresh
    rcases u.start_cases fresh b with ⟨-, heq⟩ | ⟨hsemicolon, -⟩ | ⟨-, heq⟩ | ⟨-, heq⟩ | ⟨-, heq⟩ |
      ⟨-, -, heq⟩ | ⟨-, -, heq⟩ | ⟨-, heq⟩
    · simp [heq]
    · exact absurd hsemicolon hb
    all_goals simp [heq]
  unfold State.step
  split
  · rename_i hmode
    exact absurd hmode hs
  · exact hstart _ _
  · split
    · exact hstart _ _
    · simp
  · split
    · simp
    · exact hstart _ _

theorem mode_ne_comment_of_not_mem {text : Bytes} (h : 0x3B ∉ text) {s : State}
    (hs : s.mode ≠ .comment) : (text.foldl State.step s).mode ≠ .comment := by
  induction text generalizing s with
  | nil => exact hs
  | cons b rest ih =>
      rw [List.mem_cons, not_or] at h
      exact ih h.2 (step_mode_ne_comment hs (Ne.symm h.1))

theorem exists_gap_of_ne_comment {s : State} (hs : s.mode ≠ .comment) :
    ∃ fresh, s.flush.mode = .gap fresh := by
  unfold State.flush
  split
  · exact ⟨false, rfl⟩
  · exact ⟨false, rfl⟩
  · rename_i fresh hmode
    exact ⟨fresh, hmode⟩
  · rename_i hmode
    exact absurd hmode hs

end comments

/-- All blanks are read alike. -/
theorem step_blank (s : State) {b : UInt8} (hb : Blank.isSpace b) : s.step b = s.step 0x20 := by
  have hspace : Blank.isSpace 0x20 = true := by decide
  have hstart : ∀ (u : State) (fresh : Bool), u.start fresh b = u.start fresh 0x20 := by
    intro u fresh
    simp [State.start, hb, hspace]
  have hdelimiter : ∀ c, Blank.isSpace c → isDelimiter c = true := by
    intro c hc
    simp [isDelimiter, hc]
  have hdigit : ∀ c, Blank.isSpace c → Decimal.isDigit c = false := by
    intro c hc
    cases hcase : Decimal.isDigit c with
    | false => rfl
    | true => simpa [hdelimiter c hc] using not_isDelimiter_of_isDigit hcase
  unfold State.step
  split
  · rfl
  · exact hstart _ _
  · simp only [hdelimiter b hb, hdelimiter 0x20 hspace, if_true]
    exact hstart _ _
  · simp only [hdigit b hb, hdigit 0x20 hspace]
    exact hstart _ _

/-- After a blank outside a comment the scanner has found what it was in the middle of and may
begin anything. -/
theorem step_blank_eq {s : State} (hs : s.mode ≠ .comment) {b : UInt8} (hb : Blank.isSpace b) :
    s.step b = s.flush.skip (.gap true) := by
  obtain ⟨fresh, hfresh⟩ := exists_gap_of_ne_comment hs
  rw [step_blank s hb, step_space hfresh]

theorem read_step_blank {s : State} (hs : s.mode ≠ .comment) {b : UInt8} (hb : Blank.isSpace b) :
    (s.step b).read = s.read := by
  rw [step_blank_eq hs hb, read_of_gap (State.skip_mode ..)]
  rfl

/-- A blank at the end of a line adds nothing. -/
theorem body_tokens_snoc_blank (line : Int) (source : Bytes) {b : UInt8} (hb : Blank.isSpace b) :
    Token.body (tokens line (source ++ [b])) = Token.body (tokens line source) := by
  rw [body_tokens_eq, body_tokens_eq, List.foldl_append, List.foldl_cons, List.foldl_nil]
  generalize source.foldl State.step (initial line 0 (.gap true)) = s
  by_cases hs : s.mode = .comment
  · obtain ⟨hmode, hfound⟩ := foldl_comment hs [b]
    rw [List.foldl_cons, List.foldl_nil] at hmode hfound
    rw [flush_found_of_comment hmode, flush_found_of_comment hs, hfound]
  · rw [step_blank_eq hs hb, flush_of_gap (State.skip_mode ..)]
    rfl

theorem lexemes_append_blank {first : Bytes} (hfirst : 0x3B ∉ first) {b : UInt8}
    (hb : Blank.isSpace b) (second : Bytes) :
    lexemes (first ++ b :: second) = lexemes first ++ lexemes second := by
  have hstart : (initial 1 0 (.gap true)).mode ≠ .comment := by simp [initial]
  have hmode := mode_ne_comment_of_not_mem hfirst hstart
  have hgap : ((first.foldl State.step (initial 1 0 (.gap true))).step b).mode = .gap true := by
    rw [step_blank_eq hmode hb]
    rfl
  rw [lexemes_eq_read, List.foldl_append, List.foldl_cons, read_foldl_of_gap hgap,
    read_step_blank hmode hb, ← lexemes_eq_read]

theorem lexemes_join {texts : List Bytes} (h : ∀ text ∈ texts, 0x3B ∉ text) :
    lexemes (Bytes.join [0x20] texts) = texts.flatMap lexemes := by
  induction texts with
  | nil => rfl
  | cons first rest ih =>
      have hrest := ih fun text htext => h text (by simp [htext])
      cases rest with
      | nil => simp [Bytes.join]
      | cons next rest =>
          have hjoin : Bytes.join [0x20] (first :: next :: rest) =
              first ++ 0x20 :: Bytes.join [0x20] (next :: rest) := by
            simp [Bytes.join]
          rw [hjoin, lexemes_append_blank (h first (by simp)) (by decide), hrest]
          simp

theorem tokens_eq_body (line : Int) (source : Bytes) :
    ∃ span, tokens line source = Token.body (tokens line source) ++ [⟨.eof, [], span⟩] := by
  let s := (source.foldl State.step (initial line 0 (.gap true))).flush
  refine ⟨.of s.line s.offset s.offset, ?_⟩
  rw [body_tokens_eq]
  exact List.reverse_cons

theorem body_tokens_comment (line : Int) (text comment : Bytes) :
    Token.body (tokens line (text ++ 0x3B :: comment)) = Token.body (tokens line text) := by
  rw [body_tokens_eq, body_tokens_eq, List.foldl_append, flush_found_comment]

/-- A line is the part before its comment, and the comment if it has one. -/
theorem before_cases (line : Bytes) :
    0x3B ∉ Bytes.before 0x3B line ∧ (line = Bytes.before 0x3B line ∨
      ∃ comment, line = Bytes.before 0x3B line ++ 0x3B :: comment) := by
  induction line with
  | nil => simp [Bytes.before]
  | cons b rest ih =>
      by_cases hb : b = 0x3B
      · subst hb
        simp [Bytes.before]
      · have hbefore : Bytes.before 0x3B (b :: rest) = b :: Bytes.before 0x3B rest := by
          simp [Bytes.before, hb]
        rw [hbefore]
        refine ⟨by simp [Ne.symm hb, ih.1], ?_⟩
        rcases ih.2 with hwhole | ⟨comment, hcut⟩
        · exact .inl (by rw [← hwhole])
        · exact .inr ⟨comment, by rw [List.cons_append, ← hcut]⟩

theorem before_append_comment (text comment : Bytes) :
    Bytes.before 0x3B (text ++ 0x3B :: comment) = Bytes.before 0x3B text := by
  induction text with
  | nil => rfl
  | cons b rest ih =>
      unfold Bytes.before at ih ⊢
      rw [List.cons_append, List.takeWhile_cons, List.takeWhile_cons, ih]

theorem before_of_not_mem {text : Bytes} (h : 0x3B ∉ text) : Bytes.before 0x3B text = text := by
  rcases (before_cases text).2 with hwhole | ⟨comment, hcut⟩
  · exact hwhole.symm
  · exact absurd (by rw [hcut]; simp) h

theorem flush_found_before (s : State) (text : Bytes) :
    ((Bytes.before 0x3B text).foldl State.step s).flush.found =
      (text.foldl State.step s).flush.found := by
  rcases (before_cases text).2 with hwhole | ⟨comment, hcut⟩
  · rw [← hwhole]
  · have hcomment :=
      flush_found_comment ((Bytes.before 0x3B text).foldl State.step s) comment
    rw [← List.foldl_append, ← hcut] at hcomment
    exact hcomment.symm

/-- Cutting a line at its comment keeps its tokens. -/
theorem body_tokens_before (number : Int) (line : Bytes) :
    Token.body (tokens number (Bytes.before 0x3B line)) = Token.body (tokens number line) := by
  rw [body_tokens_eq, body_tokens_eq, flush_found_before]

theorem lexemes_before (line : Bytes) : lexemes (Bytes.before 0x3B line) = lexemes line := by
  unfold lexemes
  rw [body_tokens_before]

end LineLisp.Scan

namespace LineLisp

/-- How many parentheses lexemes open beyond those that they close. -/
def Token.excess (lexemes : List (Token.Kind × Bytes)) : Int :=
  (lexemes.map fun l => Token.parenBalance.weight l.1).sum

theorem Token.excess_append (first second : List (Token.Kind × Bytes)) :
    Token.excess (first ++ second) = Token.excess first + Token.excess second := by
  simp [Token.excess]

theorem Token.excess_eq_countP (lexemes : List (Token.Kind × Bytes)) :
    Token.excess lexemes =
      lexemes.countP (·.1 = .lparen) - lexemes.countP (·.1 = .rparen) := by
  induction lexemes with
  | nil => rfl
  | cons l rest ih =>
      have hcons : Token.excess (l :: rest) = parenBalance.weight l.1 + Token.excess rest := by
        simp [Token.excess]
      rw [hcons, ih, List.countP_cons, List.countP_cons]
      cases hkind : l.1 <;> simp [parenBalance.weight] <;> omega

theorem Token.parenBalance_eq_sum (tokens : List Token) :
    Token.parenBalance tokens = (tokens.map fun t => Token.parenBalance.weight t.kind).sum := by
  have hfold : ∀ (tokens : List Token) (n : Int),
      tokens.foldl (fun n t => n + Token.parenBalance.weight t.kind) n =
        n + (tokens.map fun t => Token.parenBalance.weight t.kind).sum := by
    intro tokens
    induction tokens with
    | nil => simp
    | cons t rest ih =>
        intro n
        rw [List.foldl_cons, ih, List.map_cons, List.sum_cons]
        omega
  unfold Token.parenBalance
  rw [hfold, Int.zero_add]

theorem Token.excess_map (tokens : List Token) :
    Token.excess (tokens.map fun t => (t.kind, t.lexeme)) = Token.parenBalance tokens := by
  rw [Token.parenBalance_eq_sum, Token.excess, List.map_map]
  rfl

theorem Token.parenBalance_cons (t : Token) (rest : List Token) :
    parenBalance (t :: rest) = parenBalance.weight t.kind + parenBalance rest := by
  simp [parenBalance_eq_sum]

theorem Token.parenBalance_append (first second : List Token) :
    parenBalance (first ++ second) = parenBalance first + parenBalance second := by
  simp [parenBalance_eq_sum]

/-- The end of a line has no weight. -/
theorem Line.balance_eq_body (line : Bytes) :
    Line.balance line = Token.parenBalance (Token.body (Scan.tokens 1 line)) := by
  obtain ⟨span, htokens⟩ := Scan.tokens_eq_body 1 line
  have hbalance := congrArg Token.parenBalance htokens
  have heof : Token.parenBalance [⟨.eof, [], span⟩] = 0 := rfl
  rw [Token.parenBalance_append, heof, Int.add_zero] at hbalance
  exact hbalance

theorem Line.balance_eq_excess (line : Bytes) :
    Line.balance line = Token.excess (Scan.lexemes line) := by
  rw [Line.balance_eq_body, Scan.lexemes, Token.excess_map]

theorem Line.balance_eq_of_body {first second : Bytes}
    (h : Token.body (Scan.tokens 1 first) = Token.body (Scan.tokens 1 second)) :
    Line.balance first = Line.balance second := by
  rw [Line.balance_eq_body, Line.balance_eq_body, h]

end LineLisp
