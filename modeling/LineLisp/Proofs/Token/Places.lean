import LineLisp.Proofs.Token.Lines

/-!
Where tokens stand. The scanner finds tokens from left to right, none empty and none beyond the
place that it has reached, so what it finds in a part of a line stands in that part.
-/

namespace LineLisp

/-- Whether tokens stand in order on a line from `lower` up to `upper`, none of them empty. -/
def Token.Placed (line : Int) (lower : Nat) : List Token → (upper : Nat) → Prop
  | [], upper => lower ≤ upper
  | t :: rest, upper => ∃ first last, t.span = .of line first last ∧ lower ≤ first ∧ first < last ∧
      Placed line last rest upper

namespace Token.Placed

variable {line : Int} {lower middle upper : Nat} {tokens more : List Token}

theorem le (h : Placed line lower tokens upper) : lower ≤ upper := by
  induction tokens generalizing lower with
  | nil => exact h
  | cons t rest ih =>
      obtain ⟨first, last, -, hlower, hsize, hrest⟩ := h
      have hlast := ih hrest
      omega

theorem append (h : Placed line lower tokens middle) (hmore : Placed line middle more upper) :
    Placed line lower (tokens ++ more) upper := by
  induction tokens generalizing lower with
  | nil =>
      have hle : lower ≤ middle := h
      cases more with
      | nil => exact Nat.le_trans hle hmore
      | cons t rest =>
          obtain ⟨first, last, hspan, hlower, hrest⟩ := hmore
          exact ⟨first, last, hspan, Nat.le_trans hle hlower, hrest⟩
  | cons t rest ih =>
      obtain ⟨first, last, hspan, hlower, hsize, hrest⟩ := h
      exact ⟨first, last, hspan, hlower, hsize, ih hrest⟩

/-- Every token lies between the bounds. -/
theorem between (h : Placed line lower tokens upper) {t : Token} (ht : t ∈ tokens) :
    lower ≤ t.span.start.offset ∧ t.span.start.offset < t.span.stop.offset ∧
      t.span.stop.offset ≤ upper := by
  induction tokens generalizing lower with
  | nil => simp at ht
  | cons first rest ih =>
      obtain ⟨start, stop, hspan, hlower, hsize, hrest⟩ := h
      rcases List.mem_cons.mp ht with rfl | ht
      · have hstop := hrest.le
        simp only [hspan, Span.of, Position.onLine]
        omega
      · have hinner := ih hrest ht
        omega

theorem exists_of_append (h : Placed line lower (tokens ++ more) upper) :
    ∃ middle, Placed line lower tokens middle ∧ Placed line middle more upper := by
  induction tokens generalizing lower with
  | nil => exact ⟨lower, Nat.le_refl _, h⟩
  | cons t rest ih =>
      obtain ⟨first, last, hspan, hlower, hsize, hrest⟩ := h
      obtain ⟨middle, hinner, hmore⟩ := ih hrest
      exact ⟨middle, ⟨first, last, hspan, hlower, hsize, hinner⟩, hmore⟩

/-- The tokens before a place are those that stop there or earlier. -/
theorem filter_append (h : Placed line lower tokens middle)
    (hmore : Placed line middle more upper) :
    (tokens ++ more).filter (fun t => t.span.stop.offset ≤ (middle : Int)) = tokens := by
  have hbefore : tokens.filter (fun t => t.span.stop.offset ≤ (middle : Int)) = tokens := by
    rw [List.filter_eq_self]
    intro t ht
    simpa using (h.between ht).2.2
  have hafter : more.filter (fun t => t.span.stop.offset ≤ (middle : Int)) = [] := by
    rw [List.filter_eq_nil_iff]
    intro t ht
    have hbetween := hmore.between ht
    simp only [decide_eq_true_eq]
    omega
  rw [List.filter_append, hbefore, hafter, List.append_nil]

theorem eq_of_append {tokens' more' : List Token} (h : Placed line lower tokens middle)
    (hmore : Placed line middle more upper) (h' : Placed line lower tokens' middle)
    (hmore' : Placed line middle more' upper) (heq : tokens ++ more = tokens' ++ more') :
    tokens = tokens' := by
  rw [← h.filter_append hmore, heq, h'.filter_append hmore']

end Token.Placed

namespace Scan

open Token (Placed)

/-- Where the token in progress starts, if there is one. -/
def Mode.start? : Mode → Option Nat
  | .sign start _ => some start
  | .word start _ => some start
  | .gap _ => none
  | .comment => none

/-- Up to where a state has found all that there is. -/
def State.reached (s : State) : Nat :=
  s.mode.start?.getD s.offset

/-- Whether what `s` has found beyond `old` stands on the line from `lower` on, and the token in
progress after it. -/
structure State.Stands (line : Int) (lower : Nat) (old : List Token) (s : State) : Prop where
  onLine : s.line = line
  found : ∃ new, s.found = new ++ old ∧ Placed line lower new.reverse s.reached
  progress : ∀ start, s.mode.start? = some start → start < s.offset

namespace State.Stands

variable {line : Int} {lower : Nat} {old : List Token} {s : State}

/-- A token that starts where all before it has been found is in its place. -/
theorem found_emit (h : Stands line lower old s) (kind : Token.Kind) (lexeme : Bytes) (stop : Nat)
    (hstop : s.reached < stop) :
    ∃ new, ⟨kind, lexeme, .of s.line s.reached stop⟩ :: s.found = new ++ old ∧
      Placed line lower new.reverse stop := by
  obtain ⟨new, hfound, hplaced⟩ := h.found
  refine ⟨_ :: new, by rw [hfound, List.cons_append], ?_⟩
  have hlast : Placed line s.reached [⟨kind, lexeme, .of s.line s.reached stop⟩] stop :=
    ⟨s.reached, stop, by rw [h.onLine], Nat.le_refl _, hstop, Nat.le_refl _⟩
  rw [List.reverse_cons]
  exact hplaced.append hlast

theorem flush (h : Stands line lower old s) : Stands line lower old s.flush := by
  have hprogress := h.progress
  have hemit := fun kind lexeme => h.found_emit kind lexeme s.offset
  unfold State.flush
  split
  · rename_i start byte hmode
    have hstart : s.reached = start := by simp [State.reached, Mode.start?, hmode]
    rw [hstart] at hemit
    exact ⟨h.onLine, hemit .operator [byte] (hprogress start (by simp [Mode.start?, hmode])),
      by simp [Mode.start?]⟩
  · rename_i start bytes hmode
    have hstart : s.reached = start := by simp [State.reached, Mode.start?, hmode]
    rw [hstart] at hemit
    exact ⟨h.onLine, hemit .word bytes.reverse (hprogress start (by simp [Mode.start?, hmode])),
      by simp [Mode.start?]⟩
  · exact h
  · exact h

theorem skip (h : Stands line lower old s) {mode : Mode}
    (hreached : s.reached ≤ mode.start?.getD (s.offset + 1))
    (hprogress : ∀ start, mode.start? = some start → start ≤ s.offset) :
    Stands line lower old (s.skip mode) := by
  obtain ⟨new, hfound, hplaced⟩ := h.found
  have hgap : Placed line s.reached [] (s.skip mode).reached := hreached
  refine ⟨h.onLine, ⟨new, hfound, by simpa using hplaced.append hgap⟩, ?_⟩
  intro start hstart
  exact Nat.lt_succ_of_le (hprogress start hstart)

theorem single (h : Stands line lower old s) (hreached : s.reached = s.offset) (kind : Token.Kind)
    (lexeme : Bytes) (fresh : Bool) : Stands line lower old (s.single kind lexeme fresh) := by
  have hemit := h.found_emit kind lexeme (s.offset + 1) (by omega)
  rw [hreached] at hemit
  exact ⟨h.onLine, hemit, by simp [State.single, State.emit, Mode.start?]⟩

theorem start (h : Stands line lower old s) (hreached : s.reached = s.offset) (fresh : Bool)
    (b : UInt8) : Stands line lower old (s.start fresh b) := by
  rcases s.start_cases fresh b with ⟨-, heq⟩ | ⟨-, heq⟩ | ⟨-, heq⟩ | ⟨-, heq⟩ | ⟨-, heq⟩ |
    ⟨-, -, heq⟩ | ⟨-, -, heq⟩ | ⟨-, heq⟩ <;> rw [heq]
  · exact h.skip (by simp [Mode.start?]; omega) (by simp [Mode.start?])
  · exact h.skip (by simp [Mode.start?]; omega) (by simp [Mode.start?])
  · exact h.single hreached ..
  · exact h.single hreached ..
  · exact h.single hreached ..
  · exact h.skip (by simp [Mode.start?]; omega) (by simp [Mode.start?])
  · exact h.single hreached ..
  · exact h.skip (by simp [Mode.start?]; omega) (by simp [Mode.start?])


theorem step (h : Stands line lower old s) (b : UInt8) : Stands line lower old (s.step b) := by
  have hprogress := h.progress
  have hflushed : s.mode ≠ .comment → s.flush.reached = s.flush.offset := by
    intro hmode
    obtain ⟨fresh, hgap⟩ := exists_gap_of_ne_comment hmode
    simp [State.reached, hgap, Mode.start?]
  unfold State.step
  split
  · rename_i hmode
    exact h.skip (by simp [State.reached, hmode, Mode.start?]) (by simp [Mode.start?])
  · rename_i fresh hmode
    exact h.start (by simp [State.reached, hmode, Mode.start?]) fresh b
  · rename_i start bytes hmode
    split
    · exact h.flush.start (hflushed (by simp [hmode])) false b
    · have hstart := hprogress start (by simp [hmode, Mode.start?])
      exact h.skip (by simp [State.reached, hmode, Mode.start?])
        (by simp [Mode.start?]; omega)
  · rename_i start byte hmode
    split
    · have hstart := hprogress start (by simp [hmode, Mode.start?])
      exact h.skip (by simp [State.reached, hmode, Mode.start?])
        (by simp [Mode.start?]; omega)
    · exact h.flush.start (hflushed (by simp [hmode])) false b

theorem foldl (h : Stands line lower old s) (text : Bytes) :
    Stands line lower old (text.foldl State.step s) := by
  induction text generalizing s with
  | nil => exact h
  | cons b rest ih => exact ih (h.step b)

end State.Stands

section offsets

theorem flush_offset (s : State) : s.flush.offset = s.offset := by
  unfold State.flush
  split <;> rfl

theorem start_offset (s : State) (fresh : Bool) (b : UInt8) :
    (s.start fresh b).offset = s.offset + 1 := by
  rcases s.start_cases fresh b with ⟨-, heq⟩ | ⟨-, heq⟩ | ⟨-, heq⟩ | ⟨-, heq⟩ | ⟨-, heq⟩ |
    ⟨-, -, heq⟩ | ⟨-, -, heq⟩ | ⟨-, heq⟩ <;> rw [heq] <;> rfl

theorem step_offset (s : State) (b : UInt8) : (s.step b).offset = s.offset + 1 := by
  unfold State.step
  split
  · rfl
  · exact start_offset ..
  · split
    · rw [start_offset, flush_offset]
    · rfl
  · split
    · rfl
    · rw [start_offset, flush_offset]

theorem foldl_offset (s : State) (text : Bytes) :
    (text.foldl State.step s).offset = s.offset + text.length := by
  induction text generalizing s with
  | nil => rfl
  | cons b rest ih =>
      rw [List.foldl_cons, ih, step_offset, List.length_cons]
      omega

end offsets

theorem reached_flush_le (s : State) : s.flush.reached ≤ s.offset := by
  unfold State.flush
  split
  · exact Nat.le_refl _
  · exact Nat.le_refl _
  · simp_all [State.reached, Mode.start?]
  · simp_all [State.reached, Mode.start?]

theorem stands_self {s : State} (hs : s.mode.start? = none) :
    State.Stands s.line s.offset s.found s := by
  refine ⟨rfl, ⟨[], rfl, ?_⟩, by simp [hs]⟩
  simp [State.reached, hs, Placed]

/-- What a text adds to a state without a token in progress stands in that text. -/
theorem exists_placed_foldl {s : State} (hs : s.mode.start? = none) (text : Bytes) :
    ∃ tail, (text.foldl State.step s).flush.found.reverse = s.found.reverse ++ tail ∧
      Placed s.line s.offset tail (s.offset + text.length) := by
  have hstart := stands_self hs
  obtain ⟨new, hfound, hplaced⟩ := (hstart.foldl text).flush.found
  have hreached := reached_flush_le (text.foldl State.step s)
  rw [foldl_offset] at hreached
  refine ⟨new.reverse, by rw [hfound, List.reverse_append], ?_⟩
  have hend : Placed s.line (text.foldl State.step s).flush.reached [] (s.offset + text.length) :=
    hreached
  simpa using hplaced.append hend

/-- The tokens of a line stand in it, in order and none of them empty. -/
theorem placed_body_tokens (line : Int) (source : Bytes) :
    Placed line 0 (Token.body (tokens line source)) source.length := by
  obtain ⟨tail, hfound, hplaced⟩ :=
    exists_placed_foldl (s := initial line 0 (.gap true)) rfl source
  rw [body_tokens_eq, hfound]
  simpa [initial] using hplaced

/-- At a blank outside a comment the tokens of a line fall into those before it, which are the
tokens of the text before it, and those after it. -/
theorem body_tokens_append_blank (line : Int) {first : Bytes} (hfirst : 0x3B ∉ first) {b : UInt8}
    (hb : Blank.isSpace b) (second : Bytes) :
    ∃ tail, Token.body (tokens line (first ++ b :: second)) =
        Token.body (tokens line first) ++ tail ∧
      Placed line (first.length + 1) tail (first.length + 1 + second.length) := by
  have hstands := (stands_self (s := initial line 0 (.gap true)) rfl).foldl first
  have hoffset := foldl_offset (initial line 0 (.gap true)) first
  have hmode : (first.foldl State.step (initial line 0 (.gap true))).mode ≠ .comment :=
    mode_ne_comment_of_not_mem hfirst (by simp [initial])
  rw [body_tokens_eq, body_tokens_eq, List.foldl_append, List.foldl_cons]
  generalize first.foldl State.step (initial line 0 (.gap true)) = s at hstands hoffset hmode
  have hstep := step_blank_eq hmode hb
  obtain ⟨tail, hfound, hplaced⟩ := exists_placed_foldl (s := s.step b) (by rw [hstep]; rfl) second
  rw [(hstands.step b).onLine, step_offset, hoffset] at hplaced
  refine ⟨tail, ?_, by simpa [initial] using hplaced⟩
  rw [hfound, hstep]
  rfl

section parentheses

variable {s : State}

theorem flush_kind_ne_lparen (h : ∀ t ∈ s.found, t.kind ≠ .lparen) :
    ∀ t ∈ s.flush.found, t.kind ≠ .lparen := by
  unfold State.flush
  split <;> simpa [State.emit] using h

theorem start_kind_ne_lparen (h : ∀ t ∈ s.found, t.kind ≠ .lparen) (fresh : Bool) {b : UInt8}
    (hb : b ≠ 0x28) : ∀ t ∈ (s.start fresh b).found, t.kind ≠ .lparen := by
  rcases s.start_cases fresh b with ⟨-, heq⟩ | ⟨-, heq⟩ | ⟨hopen, -⟩ | ⟨-, heq⟩ | ⟨-, heq⟩ |
    ⟨-, -, heq⟩ | ⟨-, -, heq⟩ | ⟨-, heq⟩
  case inr.inr.inl => exact absurd hopen hb
  all_goals
    rw [heq]
    simpa [State.single, State.emit] using h

theorem step_kind_ne_lparen (h : ∀ t ∈ s.found, t.kind ≠ .lparen) {b : UInt8} (hb : b ≠ 0x28) :
    ∀ t ∈ (s.step b).found, t.kind ≠ .lparen := by
  unfold State.step
  split
  · exact h
  · exact start_kind_ne_lparen h _ hb
  · split
    · exact start_kind_ne_lparen (flush_kind_ne_lparen h) _ hb
    · exact h
  · split
    · exact h
    · exact start_kind_ne_lparen (flush_kind_ne_lparen h) _ hb

/-- An opening parenthesis among the tokens of a line is one of its bytes. -/
theorem mem_of_lparen {line : Int} {source : Bytes} {t : Token}
    (ht : t ∈ Token.body (tokens line source)) (hkind : t.kind = .lparen) : 0x28 ∈ source := by
  apply Classical.byContradiction
  intro hnone
  have hfold : ∀ s : State, (∀ t ∈ s.found, t.kind ≠ .lparen) →
      ∀ t ∈ (source.foldl State.step s).found, t.kind ≠ .lparen := by
    clear ht
    induction source with
    | nil => exact fun s hs => hs
    | cons b rest ih =>
        rw [List.mem_cons, not_or] at hnone
        exact fun s hs => ih hnone.2 _ (step_kind_ne_lparen hs (Ne.symm hnone.1))
  rw [body_tokens_eq, List.mem_reverse] at ht
  have hfound := hfold (initial line 0 (.gap true)) (by simp [initial])
  exact flush_kind_ne_lparen hfound t ht hkind

end parentheses

end Scan

theorem Token.parenBalance_nonpos {tokens : List Token} (h : ∀ t ∈ tokens, t.kind ≠ .lparen) :
    parenBalance tokens ≤ 0 := by
  induction tokens with
  | nil => exact Int.le_refl 0
  | cons t rest ih =>
      rw [List.forall_mem_cons] at h
      have hrest := ih h.2
      have hweight : parenBalance.weight t.kind ≤ 0 := by
        cases hkind : t.kind <;> simp_all [parenBalance.weight]
      rw [parenBalance_cons]
      omega

/-- A line that opens more parentheses than it closes has one. -/
theorem Line.mem_of_balance_pos {line : Bytes} (h : 0 < Line.balance line) : 0x28 ∈ line := by
  apply Classical.byContradiction
  intro hnone
  have hnonpos : Token.parenBalance (Token.body (Scan.tokens 1 line)) ≤ 0 :=
    Token.parenBalance_nonpos fun t ht hkind => hnone (Scan.mem_of_lparen ht hkind)
  rw [← Line.balance_eq_body] at hnonpos
  omega

end LineLisp
