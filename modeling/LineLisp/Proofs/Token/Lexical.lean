import LineLisp.Proofs.Token.Excerpts

/-!
The lexical grammar of a line, said of places in the line and without a scanner. Between tokens
stand only blanks, and behind the last one blanks and perhaps a comment; a token is a parenthesis,
a quote mark, an operator or a word, and a sign belongs to the word after it where it begins a
number. Every line has tokens by this grammar and only one list of them, and the scanner finds it.
-/

namespace LineLisp

namespace Bytes

variable {source rest : Bytes} {i : Nat} {b : UInt8}

theorem getElem?_of_drop (h : source.drop i = b :: rest) : source[i]? = some b := by
  have hhead : (source.drop i)[0]? = some b := by rw [h]; rfl
  simpa using hhead

theorem drop_succ_of_drop (h : source.drop i = b :: rest) : source.drop (i + 1) = rest := by
  rw [← List.tail_drop, h, List.tail_cons]

theorem exists_drop (h : source[i]? = some b) : ∃ rest, source.drop i = b :: rest := by
  obtain ⟨hlt, rfl⟩ := List.getElem?_eq_some_iff.mp h
  exact ⟨_, List.drop_eq_getElem_cons hlt⟩

/-- A text that stands at an offset is the slice from there on. -/
theorem slice_of_drop (text : Bytes) (h : source.drop i = text ++ rest) :
    source.slice i (i + text.length) = text ∧ source.drop (i + text.length) = rest := by
  constructor
  · rw [Bytes.slice, List.drop_take, h, Nat.add_sub_cancel_left, List.take_left]
  · rw [← List.drop_drop, h, List.drop_left]

theorem drop_eq_slice (source : Bytes) {first last : Nat} (h : first ≤ last) :
    source.drop first = source.slice first last ++ source.drop last := by
  have hlast : source.drop last = (source.drop first).drop (last - first) := by
    rw [List.drop_drop, Nat.add_sub_cancel' h]
  rw [Bytes.slice, List.drop_take, hlast, List.take_append_drop]

theorem length_slice (first : Nat) {last : Nat} (h : last ≤ source.length) :
    (source.slice first last).length = last - first := by
  rw [Bytes.slice, List.length_drop, List.length_take_of_le h]

theorem slice_eq_cons {first last : Nat} (hlast : last ≤ source.length)
    (h : source.slice first last = b :: rest) :
    source[first]? = some b ∧ last = first + 1 + rest.length ∧
      source.slice (first + 1) last = rest := by
  have hlength := length_slice first hlast
  rw [h, List.length_cons] at hlength
  have hdrop := drop_eq_slice source (show first ≤ last by omega)
  rw [h, List.cons_append] at hdrop
  refine ⟨getElem?_of_drop hdrop, by omega, ?_⟩
  rw [Bytes.slice, ← List.tail_drop, ← Bytes.slice, h, List.tail_cons]

end Bytes

namespace Lexical

/-- Space, tab, line feed, carriage return, vertical tab and form feed. -/
def blanks : Bytes :=
  [0x20, 0x09, 0x0A, 0x0D, 0x0B, 0x0C]

/-- `+`, `-`, `*` and `/`. -/
def operators : Bytes :=
  [0x2B, 0x2D, 0x2A, 0x2F]

/-- `+` and `-`. -/
def signs : Bytes :=
  [0x2B, 0x2D]

def digits : Bytes :=
  [0x30, 0x31, 0x32, 0x33, 0x34, 0x35, 0x36, 0x37, 0x38, 0x39]

/-- The bytes that belong to no word: blanks, parentheses, the quote mark, the semicolon and the
operators. -/
def delimiters : Bytes :=
  blanks ++ [0x28, 0x29, 0x27, 0x3B] ++ operators

/-- Whether a sign at an offset may begin a number: at the start of the line, and after a blank, an
opening parenthesis or a quote mark. -/
def AtBoundary (source : Bytes) (i : Nat) : Prop :=
  i = 0 ∨ ∃ b ∈ 0x28 :: 0x27 :: blanks, source[i - 1]? = some b

/-- Whether a sign stands at an offset that belongs to the number after it. -/
structure BeginsNumber (source : Bytes) (i : Nat) : Prop where
  sign : ∃ b ∈ signs, source[i]? = some b
  digit : ∃ b ∈ digits, source[i + 1]? = some b
  boundary : AtBoundary source i

/-- The lexemes, by kind, that a line has from `first` up to `last`. -/
inductive Lexeme (source : Bytes) (first last : Nat) : Token.Kind → Bytes → Prop where
  | lparen (h : source.slice first last = [0x28]) : Lexeme source first last .lparen [0x28]
  | rparen (h : source.slice first last = [0x29]) : Lexeme source first last .rparen [0x29]
  | quote (h : source.slice first last = [0x27]) :
      Lexeme source first last .quote (utf8 "quote")
  | operator {b : UInt8} (h : source.slice first last = [b]) (hb : b ∈ operators)
      (hsign : ¬ BeginsNumber source first) : Lexeme source first last .operator [b]
  | word {w : Bytes} (h : source.slice first last = w) (hw : ∀ b ∈ w, b ∉ delimiters)
      (hend : ∀ b, source[last]? = some b → b ∈ delimiters) : Lexeme source first last .word w
  | number {b : UInt8} {w : Bytes} (h : source.slice first last = b :: w)
      (hsign : BeginsNumber source first) (hw : ∀ b ∈ w, b ∉ delimiters)
      (hend : ∀ b, source[last]? = some b → b ∈ delimiters) :
      Lexeme source first last .word (b :: w)

/-- Whether a line has just these tokens from an offset on. -/
def Tokens (line : Int) (source : Bytes) (lower : Nat) : List Token → Prop
  | [] => ∃ gap, (∀ b ∈ gap, b ∈ blanks) ∧
      (source.drop lower = gap ∨ ∃ comment, source.drop lower = gap ++ 0x3B :: comment)
  | t :: rest => ∃ first last, t.span = .of line first last ∧
      lower ≤ first ∧ first < last ∧ last ≤ source.length ∧
      (∀ b ∈ source.slice lower first, b ∈ blanks) ∧ Lexeme source first last t.kind t.lexeme ∧
      Tokens line source last rest

section bytes

variable {b : UInt8}

theorem isSpace_iff : Blank.isSpace b ↔ b ∈ blanks := by
  simp only [Blank.isSpace, blanks, Bool.or_eq_true, beq_iff_eq, Bool.and_eq_true,
    decide_eq_true_eq, List.mem_cons, List.not_mem_nil, or_false, UInt8.le_iff_toNat_le,
    ← UInt8.toNat_inj, UInt8.reduceToNat]
  omega

theorem isSpace_eq_false_iff : Blank.isSpace b = false ↔ b ∉ blanks := by
  rw [← isSpace_iff, Bool.not_eq_true]

theorem isDigit_iff : Decimal.isDigit b ↔ b ∈ digits := by
  simp only [Decimal.isDigit, digits, Bool.and_eq_true, decide_eq_true_eq, List.mem_cons,
    List.not_mem_nil, or_false, UInt8.le_iff_toNat_le, ← UInt8.toNat_inj, UInt8.reduceToNat]
  omega

theorem isSign_iff : Scan.isSign b ↔ b ∈ signs := by
  simp [Scan.isSign, signs]

theorem isOperator_iff : Scan.isOperator b ↔ b ∈ operators := by
  simp [Scan.isOperator, operators, or_assoc]

theorem isDelimiter_iff : Scan.isDelimiter b ↔ b ∈ delimiters := by
  simp [Scan.isDelimiter, delimiters, isSpace_iff, isOperator_iff, or_assoc]

theorem isDelimiter_eq_false_iff : Scan.isDelimiter b = false ↔ b ∉ delimiters := by
  rw [← isDelimiter_iff, Bool.not_eq_true]

end bytes

open Bytes

section places

variable {source text : Bytes} {i : Nat} {b : UInt8}

theorem atBoundary_succ_iff (h : source[i]? = some b) :
    AtBoundary source (i + 1) ↔ b ∈ 0x28 :: 0x27 :: blanks := by
  constructor
  · rintro (hzero | ⟨c, hc, hplace⟩)
    · omega
    · rw [Nat.add_sub_cancel, h, Option.some.injEq] at hplace
      exact hplace ▸ hc
  · intro hb
    exact .inr ⟨b, hb, by rwa [Nat.add_sub_cancel]⟩

/-- Behind a byte of a word no sign begins a number. -/
theorem not_atBoundary_of_slice {first last : Nat} (before : Bytes) (hlast : last ≤ source.length)
    (h : source.slice first last = before ++ text) (hne : text ≠ [])
    (htext : ∀ b ∈ text, b ∉ delimiters) : ¬ AtBoundary source last := by
  obtain ⟨front, b, rfl⟩ := (List.eq_nil_or_concat text).resolve_left hne
  have hb := htext b (by simp)
  rw [List.concat_eq_append, ← List.append_assoc] at h
  have hlength := length_slice first hlast
  rw [h, List.length_append, List.length_singleton] at hlength
  have hdrop := drop_eq_slice source (show first ≤ last by omega)
  rw [h, List.append_assoc] at hdrop
  have hplace : source[last - 1]? = some b := by
    have hend := (slice_of_drop _ hdrop).2
    have hindex : first + (before ++ front).length = last - 1 := by omega
    rw [hindex] at hend
    exact getElem?_of_drop hend
  obtain ⟨k, rfl⟩ : ∃ k, last = k + 1 := ⟨last - 1, by omega⟩
  rw [Nat.add_sub_cancel] at hplace
  rw [atBoundary_succ_iff hplace]
  intro hmem
  apply hb
  simp only [List.mem_cons] at hmem
  rcases hmem with rfl | rfl | hblank
  · decide
  · decide
  · simp [delimiters, hblank]

end places

end Lexical

namespace Scan

open Bytes Lexical

/-- Whether a state stands between tokens at an offset of a line, knowing whether a sign may begin
a number there. -/
structure State.At (line : Int) (source : Bytes) (i : Nat) (s : State) : Prop where
  onLine : s.line = line
  offset : s.offset = i
  gap : ∃ fresh, s.mode = .gap fresh ∧ (fresh = true ↔ AtBoundary source i)

/-- Whether `u` has found a token beyond what `s` has found, at its end: the next byte does not go
on with it. -/
structure State.Finds (line : Int) (source : Bytes) (first last : Nat) (kind : Token.Kind)
    (lexeme : Bytes) (s u : State) : Prop where
  at_last : u.flush.At line source last
  found : u.flush.found = ⟨kind, lexeme, .of line first last⟩ :: s.found
  ended : ∀ b, source[last]? = some b → u.step b = u.flush.step b

section lines

theorem start_line (s : State) (fresh : Bool) (b : UInt8) : (s.start fresh b).line = s.line := by
  rcases s.start_cases fresh b with ⟨-, heq⟩ | ⟨-, heq⟩ | ⟨-, heq⟩ | ⟨-, heq⟩ | ⟨-, heq⟩ |
    ⟨-, -, heq⟩ | ⟨-, -, heq⟩ | ⟨-, heq⟩ <;> rw [heq] <;> rfl

theorem step_line (s : State) (b : UInt8) : (s.step b).line = s.line := by
  unfold State.step
  split
  · rfl
  · exact start_line ..
  · split
    · rw [start_line, flush_line]
    · rfl
  · split
    · rfl
    · rw [start_line, flush_line]

theorem foldl_line (s : State) (text : Bytes) : (text.foldl State.step s).line = s.line := by
  induction text generalizing s with
  | nil => rfl
  | cons b rest ih => rw [List.foldl_cons, ih, step_line]

end lines

section finding

variable {line : Int} {source : Bytes} {first last : Nat} {s u : State}

theorem State.At.skip_blank (h : s.At line source first) {b : UInt8}
    (hplace : source[first]? = some b) (hb : b ∈ blanks) :
    (s.step b).At line source (first + 1) ∧ (s.step b).found = s.found := by
  obtain ⟨fresh, hmode, -⟩ := h.gap
  have hne : s.mode ≠ .comment := by simp [hmode]
  rw [step_blank_eq hne (isSpace_iff.mpr hb), flush_of_gap hmode]
  have hboundary : AtBoundary source (first + 1) := by
    rw [atBoundary_succ_iff hplace]
    simp [hb]
  refine ⟨⟨h.onLine, congrArg (· + 1) h.offset, true, rfl, ?_⟩, rfl⟩
  simp [hboundary]

/-- Blanks change nothing but the offset. -/
theorem State.At.skip_blanks (h : s.At line source first) {gap rest : Bytes}
    (hdrop : source.drop first = gap ++ rest) (hgap : ∀ b ∈ gap, b ∈ blanks) :
    (gap.foldl State.step s).At line source (first + gap.length) ∧
      (gap.foldl State.step s).found = s.found := by
  induction gap generalizing s first with
  | nil => exact ⟨h, rfl⟩
  | cons b gap ih =>
      obtain ⟨hnext, hfound⟩ := h.skip_blank (getElem?_of_drop hdrop) (hgap b (by simp))
      obtain ⟨hat, hmore⟩ := ih hnext (drop_succ_of_drop hdrop) fun c hc => hgap c (by simp [hc])
      rw [List.foldl_cons, List.length_cons]
      have hindex : first + (gap.length + 1) = first + 1 + gap.length := by omega
      rw [hindex]
      exact ⟨hat, hmore.trans hfound⟩

/-- A byte that is a token by itself. -/
theorem State.At.finds_single (h : s.At line source first) {b : UInt8} {kind : Token.Kind}
    {lexeme : Bytes} {fresh : Bool} (hplace : source[first]? = some b)
    (hstep : s.step b = s.single kind lexeme fresh)
    (hfresh : fresh = true ↔ b ∈ 0x28 :: 0x27 :: blanks) :
    State.Finds line source first (first + 1) kind lexeme s (s.step b) := by
  have hflush : (s.single kind lexeme fresh).flush = s.single kind lexeme fresh :=
    flush_of_gap (State.single_mode ..)
  rw [hstep]
  refine ⟨?_, ?_, ?_⟩
  · rw [hflush]
    refine ⟨h.onLine, congrArg (· + 1) h.offset, fresh, rfl, ?_⟩
    rw [atBoundary_succ_iff hplace, hfresh]
  · rw [hflush, ← h.onLine, ← h.offset]
    rfl
  · intro c _
    rw [hflush]

/-- A sign that does not begin a number. -/
theorem State.At.finds_sign (h : s.At line source first) {b : UInt8}
    (hplace : source[first]? = some b) (hb : isSign b) (hmode : s.mode = .gap true)
    (hnot : ¬ BeginsNumber source first) :
    State.Finds line source first (first + 1) .operator [b] s (s.step b) := by
  have hboundary : AtBoundary source first := by
    obtain ⟨fresh, hfresh, hiff⟩ := h.gap
    rw [hmode] at hfresh
    cases hfresh
    exact hiff.mp rfl
  rw [step_sign hmode hb]
  refine ⟨⟨h.onLine, congrArg (· + 1) h.offset, false, rfl, ?_⟩, ?_, ?_⟩
  · rw [atBoundary_succ_iff hplace]
    rcases List.mem_cons.mp (isSign_iff.mp hb) with rfl | hminus
    · decide
    · rw [List.mem_singleton] at hminus
      subst hminus
      decide
  · rw [← h.onLine, ← h.offset]
    rfl
  · intro c hc
    have hdigit : Decimal.isDigit c = false := by
      cases hcase : Decimal.isDigit c with
      | false => rfl
      | true =>
          have hsign : BeginsNumber source first :=
            ⟨⟨b, isSign_iff.mp hb, hplace⟩, ⟨c, isDigit_iff.mp hcase, hc⟩, hboundary⟩
          exact absurd hsign hnot
    simp [State.step, State.flush, hdigit]

/-- A word whose first bytes are taken goes on up to the next delimiter. -/
theorem finds_word (bytes : Bytes) {tail : Bytes} (hline : u.line = line)
    (hmode : u.mode = .word first bytes) (hfound : u.found = s.found)
    (hoffset : u.offset + tail.length = last) (htail : ∀ b ∈ tail, b ∉ delimiters)
    (hplace : ¬ AtBoundary source last)
    (hend : ∀ b, source[last]? = some b → b ∈ delimiters) :
    State.Finds line source first last .word (bytes.reverse ++ tail) s
      (tail.foldl State.step u) := by
  have hplain : tail.all fun b => !isDelimiter b := by
    rw [List.all_eq_true]
    intro c hc
    simp [isDelimiter_eq_false_iff.mpr (htail c hc)]
  obtain ⟨hend_mode, hend_found⟩ := foldl_word tail hmode hplain
  have hend_offset : (tail.foldl State.step u).offset = last := by rw [foldl_offset, hoffset]
  have hend_line : (tail.foldl State.step u).line = line := by rw [foldl_line, hline]
  generalize tail.foldl State.step u = v at *
  refine ⟨⟨?_, ?_, false, ?_, ?_⟩, ?_, ?_⟩
  · rw [flush_line, hend_line]
  · rw [flush_offset, hend_offset]
  · exact (read_of_word hend_mode).1
  · simpa using hplace
  · simp [State.flush, hend_mode, State.emit, hend_found, hfound, hend_line, hend_offset]
  · intro c hc
    have hdelimiter : isDelimiter c := isDelimiter_iff.mpr (hend c hc)
    simp [State.step, hend_mode, State.flush, hdelimiter]

theorem start_operator (s : State) {fresh : Bool} {b : UInt8} (hb : b ∈ operators)
    (hsign : (fresh && isSign b) = false) : s.start fresh b = s.single .operator [b] false := by
  simp only [operators, List.mem_cons, List.not_mem_nil, or_false] at hb
  rcases hb with rfl | rfl | rfl | rfl
  · obtain rfl : fresh = false := by simpa [isSign] using hsign
    rfl
  · obtain rfl : fresh = false := by simpa [isSign] using hsign
    rfl
  · cases fresh <;> rfl
  · cases fresh <;> rfl

/-- An operator, be it a sign or not. -/
theorem State.At.finds_operator (h : s.At line source first) {b : UInt8}
    (hplace : source[first]? = some b) (hb : b ∈ operators) (hnot : ¬ BeginsNumber source first) :
    State.Finds line source first (first + 1) .operator [b] s (s.step b) := by
  obtain ⟨fresh, hmode, -⟩ := h.gap
  cases hcase : fresh && isSign b with
  | true =>
      rw [Bool.and_eq_true] at hcase
      obtain ⟨rfl, hsign⟩ := hcase
      exact h.finds_sign hplace hsign hmode hnot
  | false =>
      have hstep : s.step b = s.single .operator [b] false := by
        simp only [State.step, hmode]
        exact start_operator s hb hcase
      have hplain : b ∉ 0x28 :: 0x27 :: blanks := by
        simp only [operators, List.mem_cons, List.not_mem_nil, or_false] at hb
        rcases hb with rfl | rfl | rfl | rfl <;> decide
      exact h.finds_single hplace hstep (by simpa using hplain)

/-- A word that does not begin with a sign. -/
theorem State.At.finds_plain_word (h : s.At line source first) {b : UInt8} {tail : Bytes}
    (hlast : last ≤ source.length) (hslice : source.slice first last = b :: tail)
    (hw : ∀ c ∈ b :: tail, c ∉ delimiters) (hend : ∀ c, source[last]? = some c → c ∈ delimiters) :
    State.Finds line source first last .word (b :: tail) s
      ((b :: tail).foldl State.step s) := by
  obtain ⟨fresh, hmode, -⟩ := h.gap
  obtain ⟨-, heq, -⟩ := slice_eq_cons hlast hslice
  have hb : isDelimiter b = false := isDelimiter_eq_false_iff.mpr (hw b (by simp))
  have hafter := not_atBoundary_of_slice [] hlast hslice (by simp) hw
  rw [List.foldl_cons, step_word hmode hb, h.offset]
  refine finds_word [b] h.onLine rfl rfl ?_ ?_ hafter hend
  · simp only [State.skip, h.offset]
    omega
  · intro c hc
    exact hw c (by simp [hc])

/-- A word that begins with the sign of a number. -/
theorem State.At.finds_number (h : s.At line source first) {b : UInt8} {tail : Bytes}
    (hlast : last ≤ source.length) (hslice : source.slice first last = b :: tail)
    (hsign : BeginsNumber source first) (hw : ∀ c ∈ tail, c ∉ delimiters)
    (hend : ∀ c, source[last]? = some c → c ∈ delimiters) :
    State.Finds line source first last .word (b :: tail) s
      ((b :: tail).foldl State.step s) := by
  obtain ⟨fresh, hmode, hfresh⟩ := h.gap
  obtain ⟨hplace, heq, hrest⟩ := slice_eq_cons hlast hslice
  obtain ⟨sign, hsigns, hat⟩ := hsign.sign
  obtain ⟨d, hdigit, hnext⟩ := hsign.digit
  obtain rfl : b = sign := Option.some.inj (hplace.symm.trans hat)
  obtain rfl : fresh = true := hfresh.mpr hsign.boundary
  cases tail with
  | nil =>
      -- A lone sign would be followed by its digit, which is no delimiter.
      rw [heq] at hend
      have hd := not_isDelimiter_of_isDigit (isDigit_iff.mpr hdigit)
      exact absurd (hend d hnext) (isDelimiter_eq_false_iff.mp hd)
  | cons c tail =>
      obtain rfl : c = d := Option.some.inj ((slice_eq_cons hlast hrest).1.symm.trans hnext)
      have hafter := not_atBoundary_of_slice [b] hlast hslice (by simp) hw
      have hstep : (s.skip (.sign s.offset b)).step c =
          (s.skip (.sign s.offset b)).skip (.word s.offset [c, b]) := by
        simp [State.step, isDigit_iff.mpr hdigit]
      rw [List.foldl_cons, step_sign hmode (isSign_iff.mpr hsigns), List.foldl_cons, hstep,
        h.offset]
      refine finds_word [c, b] h.onLine rfl rfl ?_ ?_ hafter hend
      · simp only [State.skip, List.length_cons, h.offset] at heq ⊢
        omega
      · intro x hx
        exact hw x (by simp [hx])

/-- The scanner finds each lexeme of the grammar. -/
theorem State.At.finds (h : s.At line source first) {kind : Token.Kind} {lexeme : Bytes}
    (hsize : first < last) (hlast : last ≤ source.length)
    (hlexeme : Lexeme source first last kind lexeme) :
    State.Finds line source first last kind lexeme s
      ((source.slice first last).foldl State.step s) := by
  obtain ⟨fresh, hmode, -⟩ := h.gap
  cases hlexeme with
  | lparen hslice =>
      obtain ⟨hplace, rfl, -⟩ := slice_eq_cons hlast hslice
      have hstep : s.step 0x28 = s.single .lparen [0x28] true := by
        simp only [State.step, hmode]
        rfl
      rw [hslice]
      exact h.finds_single hplace hstep (by decide)
  | rparen hslice =>
      obtain ⟨hplace, rfl, -⟩ := slice_eq_cons hlast hslice
      have hstep : s.step 0x29 = s.single .rparen [0x29] false := by
        simp only [State.step, hmode]
        rfl
      rw [hslice]
      exact h.finds_single hplace hstep (by decide)
  | quote hslice =>
      obtain ⟨hplace, rfl, -⟩ := slice_eq_cons hlast hslice
      rw [hslice]
      exact h.finds_single hplace (step_mark hmode) (by decide)
  | operator hslice hb hnot =>
      obtain ⟨hplace, rfl, -⟩ := slice_eq_cons hlast hslice
      rw [hslice]
      exact h.finds_operator hplace hb hnot
  | word hslice hw hend =>
      cases lexeme with
      | nil =>
          have hlength := length_slice first hlast
          rw [hslice, List.length_nil] at hlength
          omega
      | cons b tail =>
          rw [hslice]
          exact h.finds_plain_word hlast hslice hw hend
  | number hslice hsign hw hend =>
      rw [hslice]
      exact h.finds_number hlast hslice hsign hw hend

theorem State.Finds.foldl_flush {kind : Token.Kind} {lexeme : Bytes}
    (h : State.Finds line source first last kind lexeme s u) :
    ((source.drop last).foldl State.step u).flush =
      ((source.drop last).foldl State.step u.flush).flush := by
  cases hdrop : source.drop last with
  | nil => exact (flush_of_start?_none (flush_start? u)).symm
  | cons b rest => rw [List.foldl_cons, List.foldl_cons, h.ended b (getElem?_of_drop hdrop)]

/-- Whatever tokens a line has by the grammar, the scanner finds. -/
theorem State.At.found_eq {ts : List Token} {lower : Nat} (h : s.At line source lower)
    (hts : Tokens line source lower ts) :
    ((source.drop lower).foldl State.step s).flush.found.reverse = s.found.reverse ++ ts := by
  induction ts generalizing lower s with
  | nil =>
      obtain ⟨gap, hgap, htail⟩ := hts
      have hskip : (gap.foldl State.step s).flush.found = s.found := by
        obtain ⟨rest, hdrop⟩ : ∃ rest, source.drop lower = gap ++ rest := by
          rcases htail with htail | ⟨comment, htail⟩
          · exact ⟨[], by rw [htail, List.append_nil]⟩
          · exact ⟨_, htail⟩
        obtain ⟨⟨-, -, fresh, hmode, -⟩, hfound⟩ := h.skip_blanks hdrop hgap
        rw [flush_of_gap hmode, hfound]
      rcases htail with htail | ⟨comment, htail⟩
      · rw [htail, hskip, List.append_nil]
      · rw [htail, List.foldl_append, flush_found_comment, hskip, List.append_nil]
  | cons t ts ih =>
      obtain ⟨first, last, hspan, hlower, hsize, hlast, hgap, hlexeme, hrest⟩ := hts
      have hdrop := drop_eq_slice source hlower
      have hlength : lower + (source.slice lower first).length = first := by
        rw [length_slice _ (by omega)]
        omega
      obtain ⟨hat, hfound⟩ := h.skip_blanks hdrop hgap
      rw [hlength] at hat
      have hfinds := hat.finds hsize hlast hlexeme
      have hmore := ih hfinds.at_last hrest
      rw [hdrop, drop_eq_slice source (Nat.le_of_lt hsize), List.foldl_append, List.foldl_append,
        hfinds.foldl_flush, hmore, hfinds.found, hfound, ← hspan]
      simp

end finding

end Scan

namespace Lexical

open Bytes

variable {line : Int} {source : Bytes} {lower : Nat}

theorem Tokens.blank {b : UInt8} {rest : Bytes} {ts : List Token}
    (hdrop : source.drop lower = b :: rest) (hb : b ∈ blanks)
    (h : Tokens line source (lower + 1) ts) : Tokens line source lower ts := by
  have hnext := drop_succ_of_drop hdrop
  cases ts with
  | nil =>
      obtain ⟨gap, hgap, htail⟩ := h
      refine ⟨b :: gap, List.forall_mem_cons.mpr ⟨hb, hgap⟩, ?_⟩
      rw [hnext] at htail
      rw [hdrop]
      rcases htail with rfl | ⟨comment, rfl⟩
      · exact .inl rfl
      · exact .inr ⟨comment, rfl⟩
  | cons t ts =>
      obtain ⟨first, last, hspan, hfirst, hsize, hlast, hgap, hmore⟩ := h
      refine ⟨first, last, hspan, by omega, hsize, hlast, ?_, hmore⟩
      have hsplit : source.drop lower =
          (b :: source.slice (lower + 1) first) ++ source.drop first := by
        rw [hdrop, List.cons_append, ← drop_eq_slice source hfirst, hnext]
      have hindex : lower + (b :: source.slice (lower + 1) first).length = first := by
        rw [List.length_cons, length_slice _ (by omega)]
        omega
      have hslice := (slice_of_drop _ hsplit).1
      rw [hindex] at hslice
      rw [hslice]
      exact List.forall_mem_cons.mpr ⟨hb, hgap⟩

/-- A lexeme is the first token where it stands. -/
theorem Tokens.cons {last : Nat} {kind : Token.Kind} {lexeme : Bytes} {ts : List Token}
    (hsize : lower < last) (hlast : last ≤ source.length)
    (hlexeme : Lexeme source lower last kind lexeme) (h : Tokens line source last ts) :
    Tokens line source lower (⟨kind, lexeme, .of line lower last⟩ :: ts) := by
  refine ⟨lower, last, rfl, Nat.le_refl _, hsize, hlast, ?_, hlexeme, h⟩
  have hempty : source.slice lower lower = [] := by
    apply List.eq_nil_of_length_eq_zero
    rw [length_slice _ (by omega), Nat.sub_self]
  simp [hempty]

/-- A word reaches up to the next delimiter. -/
theorem exists_word_end {b : UInt8} {rest : Bytes} (hdrop : source.drop lower = b :: rest) :
    ∃ w last, lower < last ∧ last ≤ source.length ∧ source.slice lower last = b :: w ∧
      (∀ c ∈ w, c ∉ delimiters) ∧ ∀ c, source[last]? = some c → c ∈ delimiters := by
  let plain := fun c => decide (c ∉ delimiters)
  have hsplit : source.drop lower = (b :: rest.takeWhile plain) ++ rest.dropWhile plain := by
    rw [hdrop, List.cons_append, List.takeWhile_append_dropWhile]
  obtain ⟨hslice, hend⟩ := slice_of_drop _ hsplit
  have hlength := congrArg List.length hsplit
  rw [List.length_drop, List.length_append, List.length_cons] at hlength
  refine ⟨_, _, ?_, ?_, hslice, ?_, ?_⟩
  · rw [List.length_cons]
    omega
  · rw [List.length_cons]
    omega
  · intro c hc
    have hall := List.all_eq_true.mp (List.all_takeWhile (p := plain) (l := rest))
    simpa [plain] using hall c hc
  · intro c hc
    obtain ⟨more, hmore⟩ := exists_drop hc
    have hnot := List.head?_dropWhile_not plain rest
    rw [← hend, hmore] at hnot
    simpa [plain] using hnot

/-- Every line has tokens from every offset on. -/
theorem exists_tokens (line : Int) (source : Bytes) (lower : Nat) :
    ∃ ts, Tokens line source lower ts := by
  induction hsize : source.length - lower using Nat.strong_induction_on generalizing lower with
  | _ size ih =>
      cases hdrop : source.drop lower with
      | nil => exact ⟨[], [], by simp, .inl hdrop⟩
      | cons b rest =>
          have hlower : lower < source.length := by
            have hlength := congrArg List.length hdrop
            rw [List.length_drop, List.length_cons] at hlength
            omega
          have hlater : ∀ next, lower < next → ∃ ts, Tokens line source next ts := by
            intro next hnext
            exact ih _ (by omega) next rfl
          have htoken : ∀ {last kind lexeme}, lower < last → last ≤ source.length →
              Lexeme source lower last kind lexeme → ∃ ts, Tokens line source lower ts := by
            intro last kind lexeme hfirst hlast hlexeme
            obtain ⟨ts, hts⟩ := hlater last hfirst
            exact ⟨_, Tokens.cons hfirst hlast hlexeme hts⟩
          have hsingle : source.slice lower (lower + 1) = [b] :=
            (slice_of_drop [b] hdrop).1
          obtain ⟨w, last, hfirst, hlast, hslice, hw, hend⟩ := exists_word_end hdrop
          by_cases hnumber : BeginsNumber source lower
          · exact htoken hfirst hlast (.number hslice hnumber hw hend)
          by_cases hplain : b ∈ delimiters
          · simp only [delimiters, List.mem_append, List.mem_cons, List.not_mem_nil,
              or_false] at hplain
            rcases hplain with (hblank | rfl | rfl | rfl | rfl) | hoperator
            · obtain ⟨ts, hts⟩ := hlater (lower + 1) (Nat.lt_succ_self _)
              exact ⟨ts, hts.blank hdrop hblank⟩
            · exact htoken (Nat.lt_succ_self _) hlower (.lparen hsingle)
            · exact htoken (Nat.lt_succ_self _) hlower (.rparen hsingle)
            · exact htoken (Nat.lt_succ_self _) hlower (.quote hsingle)
            · exact ⟨[], [], by simp, .inr ⟨rest, hdrop⟩⟩
            · exact htoken (Nat.lt_succ_self _) hlower (.operator hsingle hoperator hnumber)
          · exact htoken hfirst hlast
              (.word hslice (List.forall_mem_cons.mpr ⟨hplain, hw⟩) hend)

end Lexical

/-- At the end of the line the tokens found are given out, and an empty one for the end. -/
theorem Scan.State.finish_eq_found (s : State) :
    s.finish = s.flush.found.reverse ++ [⟨.eof, [], .of s.line s.offset s.offset⟩] := by
  rw [State.finish, State.emit, List.reverse_cons, flush_offset, flush_line]

theorem Scan.tokens_eq_found (line : Int) (source : Bytes) :
    Scan.tokens line source =
      (source.foldl State.step (initial line 0 (.gap true))).flush.found.reverse ++
        [⟨.eof, [], .of line source.length source.length⟩] := by
  rw [Scan.tokens, State.finish_eq_found, foldl_offset, foldl_line]
  simp [initial]

/-- The tokens of a line are those that it has by the lexical grammar, of which there is just one
list, and an empty one for the end of the line. -/
theorem tokens_eq_iff_lexical (line : Int) (source : Bytes) (result : List Token) :
    Scan.tokens line source = result ↔ ∃ ts, Lexical.Tokens line source 0 ts ∧
      result = ts ++ [⟨.eof, [], .of line source.length source.length⟩] := by
  have hstart : (Scan.initial line 0 (.gap true)).At line source 0 :=
    ⟨rfl, rfl, true, rfl, by simp [Lexical.AtBoundary]⟩
  have hfound : ∀ {ts}, Lexical.Tokens line source 0 ts →
      Scan.tokens line source = ts ++ [⟨.eof, [], .of line source.length source.length⟩] := by
    intro ts hts
    have hscan := hstart.found_eq hts
    rw [Scan.tokens_eq_found]
    rw [List.drop_zero] at hscan
    rw [hscan]
    simp [Scan.initial]
  constructor
  · rintro rfl
    obtain ⟨ts, hts⟩ := Lexical.exists_tokens line source 0
    exact ⟨ts, hts, hfound hts⟩
  · rintro ⟨ts, hts, rfl⟩
    exact hfound hts

end LineLisp
