import LineLisp.Proofs.Token.Places

/-!
Excerpts of a line. The text at the place of a token is its lexeme, except for a quote mark, which
has the name that it stands for as its lexeme. A line may be cut where a token begins or ends: the
tokens before the cut are those of the text before it. The text after the cut has the tokens after
it, if it begins with an opening parenthesis or a quote mark; what a sign means there depends on
the byte before the cut, but both make all that follows independent of what comes before.
-/

namespace LineLisp

theorem Span.of_offsets {line line' : Int} {first last first' last' : Nat}
    (h : Span.of line first last = Span.of line' first' last') : first = first' ∧ last = last' := by
  have hstart := congrArg (·.start.offset) h
  have hstop := congrArg (·.stop.offset) h
  simp only [Span.of, Position.onLine] at hstart hstop
  omega

namespace Bytes

/-- The bytes from `first` up to `last`. -/
def slice (text : Bytes) (first last : Nat) : Bytes :=
  (text.take last).drop first

theorem slice_append {text : Bytes} {last : Nat} (h : last ≤ text.length) (first : Nat)
    (more : Bytes) : (text ++ more).slice first last = text.slice first last := by
  unfold slice
  rw [List.take_append_of_le_length h]

theorem slice_length (text : Bytes) (first : Nat) :
    text.slice first text.length = text.drop first := by
  unfold slice
  rw [List.take_length]

theorem drop_eq_slice_append (text : Bytes) (first last : Nat) :
    ∃ rest, text.drop first = text.slice first last ++ rest := by
  refine ⟨(text.drop first).drop (last - first), ?_⟩
  rw [slice, List.drop_take, List.take_append_drop]

end Bytes

/-- The text that a token is found as. -/
def Token.source (t : Token) : Bytes :=
  match t.kind with
  | .quote => [0x27]
  | _ => t.lexeme

theorem Token.source_eq_lexeme {t : Token} (h : t.kind ≠ .quote) : t.source = t.lexeme := by
  unfold Token.source
  split
  · rename_i hquote
    exact absurd hquote h
  · rfl

namespace Scan

open Token (Placed)

/-- The text of the token in progress. -/
def Mode.held : Mode → Bytes
  | .sign _ byte => [byte]
  | .word _ bytes => bytes.reverse
  | .gap _ => []
  | .comment => []

/-- Whether the tokens that a state has found in a text, and the one in progress at its end, are
what the text has at their places. -/
structure State.Cites (text : Bytes) (s : State) : Prop where
  offset : s.offset = text.length
  found : ∀ t ∈ s.found, ∃ first last, t.span = .of s.line first last ∧ last ≤ text.length ∧
    text.slice first last = t.source
  progress : ∀ start, s.mode.start? = some start →
    start ≤ text.length ∧ text.drop start = s.mode.held

namespace State.Cites

variable {text : Bytes} {s : State}

theorem flush (h : Cites text s) : Cites text s.flush := by
  have hemit : ∀ start kind lexeme, s.mode.start? = some start → s.mode.held = lexeme →
      kind ≠ .quote → ∀ t ∈ (s.emit kind start lexeme).found, ∃ first last,
        t.span = .of s.line first last ∧ last ≤ text.length ∧ text.slice first last = t.source := by
    intro start kind lexeme hstart hheld hkind t ht
    rcases List.mem_cons.mp ht with rfl | ht
    · refine ⟨start, s.offset, rfl, Nat.le_of_eq h.offset, ?_⟩
      rw [h.offset, Bytes.slice_length, (h.progress start hstart).2, hheld]
      cases kind with
      | quote => exact absurd rfl hkind
      | _ => rfl
    · exact h.found t ht
  unfold State.flush
  split
  · rename_i start byte hmode
    refine ⟨h.offset, hemit start .operator [byte] ?_ ?_ (by simp), by simp [Mode.start?]⟩
    · simp [hmode, Mode.start?]
    · simp [hmode, Mode.held]
  · rename_i start bytes hmode
    refine ⟨h.offset, hemit start .word bytes.reverse ?_ ?_ (by simp), by simp [Mode.start?]⟩
    · simp [hmode, Mode.start?]
    · simp [hmode, Mode.held]
  · exact h
  · exact h

theorem skip (h : Cites text s) {b : UInt8} {mode : Mode}
    (hmode : ∀ start, mode.start? = some start →
      start ≤ text.length ∧ (text ++ [b]).drop start = mode.held) :
    Cites (text ++ [b]) (s.skip mode) := by
  refine ⟨?_, ?_, ?_⟩
  · rw [List.length_append]
    exact congrArg (· + 1) h.offset
  · intro t ht
    obtain ⟨first, last, hspan, hlast, hslice⟩ := h.found t ht
    refine ⟨first, last, hspan, ?_, ?_⟩
    · rw [List.length_append]
      omega
    · rw [Bytes.slice_append hlast, hslice]
  · intro start hstart
    obtain ⟨hle, hdrop⟩ := hmode start hstart
    refine ⟨?_, hdrop⟩
    rw [List.length_append]
    omega

theorem single (h : Cites text s) {b : UInt8} {kind : Token.Kind} {lexeme : Bytes}
    (hsource : ∀ span, Token.source ⟨kind, lexeme, span⟩ = [b]) (fresh : Bool) :
    Cites (text ++ [b]) (s.single kind lexeme fresh) := by
  have hskip : Cites (text ++ [b]) (s.skip (.gap fresh)) := h.skip (by simp [Mode.start?])
  refine ⟨hskip.offset, ?_, by simp [Mode.start?]⟩
  intro t ht
  rcases List.mem_cons.mp ht with rfl | ht
  · refine ⟨s.offset, s.offset + 1, rfl, Nat.le_of_eq hskip.offset, ?_⟩
    have hend : s.offset + 1 = (text ++ [b]).length := hskip.offset
    rw [hsource, hend, Bytes.slice_length, h.offset, List.drop_left]
  · exact hskip.found t ht

theorem start (h : Cites text s) (fresh : Bool) (b : UInt8) :
    Cites (text ++ [b]) (s.start fresh b) := by
  have hfirst : ∀ mode : Mode, mode.start? = some s.offset → mode.held = [b] →
      Cites (text ++ [b]) (s.skip mode) := by
    intro mode hstart hheld
    apply h.skip
    intro start heq
    obtain rfl : s.offset = start := Option.some.inj (hstart.symm.trans heq)
    refine ⟨Nat.le_of_eq h.offset, ?_⟩
    rw [h.offset, List.drop_left, hheld]
  rcases s.start_cases fresh b with ⟨-, heq⟩ | ⟨-, heq⟩ | ⟨rfl, heq⟩ | ⟨rfl, heq⟩ | ⟨rfl, heq⟩ |
    ⟨-, -, heq⟩ | ⟨-, -, heq⟩ | ⟨-, heq⟩ <;> rw [heq]
  · exact h.skip (by simp [Mode.start?])
  · exact h.skip (by simp [Mode.start?])
  · exact h.single (fun _ => rfl) true
  · exact h.single (fun _ => rfl) false
  · exact h.single (fun _ => rfl) true
  · exact hfirst _ rfl rfl
  · exact h.single (fun _ => rfl) false
  · exact hfirst _ rfl rfl

theorem step (h : Cites text s) (b : UInt8) : Cites (text ++ [b]) (s.step b) := by
  -- A token that goes on has one byte more and still reaches to the end of what was read.
  have hlonger : ∀ start (mode : Mode), s.mode.start? = some start → mode.start? = some start →
      mode.held = s.mode.held ++ [b] → Cites (text ++ [b]) (s.skip mode) := by
    intro start mode hold hnew hheld
    obtain ⟨hle, hdrop⟩ := h.progress start hold
    apply h.skip
    intro start' heq
    obtain rfl : start = start' := Option.some.inj (hnew.symm.trans heq)
    refine ⟨hle, ?_⟩
    rw [List.drop_append_of_le_length hle, hdrop, hheld]
  unfold State.step
  split
  · exact h.skip (by simp [Mode.start?])
  · exact h.start _ b
  · rename_i start bytes hmode
    split
    · exact h.flush.start false b
    · exact hlonger start _ (by simp [hmode, Mode.start?]) rfl (by simp [hmode, Mode.held])
  · rename_i start byte hmode
    split
    · exact hlonger start _ (by simp [hmode, Mode.start?]) rfl (by simp [hmode, Mode.held])
    · exact h.flush.start false b

theorem foldl (h : Cites text s) (more : Bytes) :
    Cites (text ++ more) (more.foldl State.step s) := by
  induction more generalizing text s with
  | nil => simpa using h
  | cons b rest ih => simpa using ih (h.step b)

end State.Cites

/-- A token is the text at its place. -/
theorem slice_eq_source {line : Int} {source : Bytes} {t : Token}
    (h : t ∈ Token.body (tokens line source)) {first last : Nat}
    (hspan : t.span = .of line first last) : source.slice first last = t.source := by
  have hstart : State.Cites [] (initial line 0 (.gap true)) :=
    ⟨rfl, by simp [initial], by simp [initial, Mode.start?]⟩
  have hend := (hstart.foldl source).flush
  rw [body_tokens_eq, List.mem_reverse] at h
  obtain ⟨first', last', hspan', -, hslice⟩ := hend.found t h
  obtain ⟨rfl, rfl⟩ := Span.of_offsets (hspan.symm.trans hspan')
  exact hslice

section cuts

/-- A token in progress either ends where the next byte stands, or that byte belongs to it. -/
theorem step_flush_or_longer {s : State} {start : Nat} (hs : s.mode.start? = some start)
    (b : UInt8) :
    s.step b = s.flush.step b ∨ ∃ mode, s.step b = s.skip mode ∧ mode.start? = some start := by
  have hflush : s.flush.mode = .gap false → s.flush.step b = s.flush.start false b := by
    intro hgap
    simp [State.step, hgap]
  cases hmode : s.mode with
  | gap fresh => simp [hmode, Mode.start?] at hs
  | comment => simp [hmode, Mode.start?] at hs
  | word first bytes =>
      simp only [hmode, Mode.start?, Option.some.injEq] at hs
      rw [hflush (by simp [State.flush, hmode])]
      simp only [State.step, hmode]
      split
      · exact .inl rfl
      · exact .inr ⟨_, rfl, congrArg some hs⟩
  | sign first byte =>
      simp only [hmode, Mode.start?, Option.some.injEq] at hs
      rw [hflush (by simp [State.flush, hmode])]
      simp only [State.step, hmode]
      split
      · exact .inr ⟨_, rfl, congrArg some hs⟩
      · exact .inl rfl

theorem flush_start? (s : State) : s.flush.mode.start? = none := by
  unfold State.flush
  split <;> simp_all [Mode.start?]

theorem flush_line (s : State) : s.flush.line = s.line := by
  unfold State.flush
  split <;> rfl

theorem flush_of_start?_none {s : State} (hs : s.mode.start? = none) : s.flush = s := by
  unfold State.flush
  split <;> simp_all [Mode.start?]

theorem flush_found_progress {s : State} {start : Nat} (hs : s.mode.start? = some start) :
    ∃ t ∈ s.flush.found, t.span = .of s.line start s.offset := by
  unfold State.flush
  split <;> simp_all [Mode.start?, State.emit]

/-- A token in progress ends where it is, or is found as one that goes beyond. -/
theorem foldl_flush_or_longer {s : State} {start : Nat} (hs : s.mode.start? = some start)
    (text : Bytes) :
    (∃ tail, (text.foldl State.step s).flush.found.reverse = s.flush.found.reverse ++ tail ∧
      Placed s.line s.offset tail (s.offset + text.length)) ∨
    ∃ t ∈ (text.foldl State.step s).flush.found, ∃ last,
      t.span = .of s.line start last ∧ s.offset < last := by
  induction text generalizing s with
  | nil => exact .inl ⟨[], by simp, Nat.le_refl _⟩
  | cons b rest ih =>
      rcases step_flush_or_longer hs b with hstep | ⟨mode, hstep, hstart⟩
      · obtain ⟨tail, hfound, hplaced⟩ := exists_placed_foldl (flush_start? s) (b :: rest)
        rw [List.foldl_cons, ← hstep] at hfound
        rw [flush_offset, flush_line] at hplaced
        exact .inl ⟨tail, hfound, hplaced⟩
      · -- Whether it ends right after this byte or goes on, it has gone beyond where it was.
        right
        rw [List.foldl_cons, hstep]
        have hstart' : (s.skip mode).mode.start? = some start := hstart
        rcases ih hstart' with ⟨tail, hfound, -⟩ | ⟨t, ht, last, hspan, hlast⟩
        · obtain ⟨t, ht, hspan⟩ := flush_found_progress hstart'
          refine ⟨t, ?_, s.offset + 1, hspan, Nat.lt_succ_self _⟩
          rw [← List.mem_reverse, hfound]
          simp [ht]
        · exact ⟨t, ht, last, hspan, Nat.lt_trans (Nat.lt_succ_self _) hlast⟩

/-- The tokens of a line up to any place are those of the text up to it, unless one of them goes
across it. -/
theorem body_tokens_append (line : Int) (first second : Bytes) :
    (∃ tail, Token.body (tokens line (first ++ second)) = Token.body (tokens line first) ++ tail ∧
      Placed line first.length tail (first ++ second).length) ∨
    ∃ t ∈ Token.body (tokens line (first ++ second)),
      t.span.start.offset < first.length ∧ first.length < t.span.stop.offset := by
  have hstands := (stands_self (s := initial line 0 (.gap true)) rfl).foldl first
  have hoffset := foldl_offset (initial line 0 (.gap true)) first
  rw [body_tokens_eq, body_tokens_eq, List.foldl_append, List.length_append]
  generalize first.foldl State.step (initial line 0 (.gap true)) = s at hstands hoffset
  obtain rfl : s.line = line := hstands.onLine
  replace hoffset : s.offset = first.length := by simpa [initial] using hoffset
  rw [← hoffset]
  cases hs : s.mode.start? with
  | none =>
      obtain ⟨tail, hfound, hplaced⟩ := exists_placed_foldl hs second
      rw [flush_of_start?_none hs]
      exact .inl ⟨tail, hfound, hplaced⟩
  | some start =>
      rcases foldl_flush_or_longer hs second with hcut | ⟨t, ht, last, hspan, hlast⟩
      · exact .inl hcut
      · refine .inr ⟨t, List.mem_reverse.mpr ht, ?_⟩
        have hstart := hstands.progress start hs
        simp only [hspan, Span.of, Position.onLine]
        omega

/-- A line may be cut between its tokens: the text before the cut has the tokens before it. -/
theorem body_tokens_take {line : Int} {source : Bytes} {front back : List Token} {cut : Nat}
    (h : Token.body (tokens line source) = front ++ back) (hfront : Placed line 0 front cut)
    (hback : Placed line cut back source.length) :
    Token.body (tokens line (source.take cut)) = front := by
  have hlength : (source.take cut).length = cut := List.length_take_of_le hback.le
  have htake := placed_body_tokens line (source.take cut)
  rw [hlength] at htake
  rcases body_tokens_append line (source.take cut) (source.drop cut) with
    ⟨tail, htail, hplaced⟩ | ⟨t, ht, hstart, hstop⟩
  · rw [List.take_append_drop, h] at htail
    rw [List.take_append_drop, hlength] at hplaced
    exact (hfront.eq_of_append hback htake hplaced htail).symm
  · rw [List.take_append_drop, h] at ht
    rw [hlength] at hstart hstop
    rcases List.mem_append.mp ht with ht | ht
    · have hbetween := hfront.between ht
      omega
    · have hbetween := hback.between ht
      omega

/-- After an opening parenthesis or a quote mark outside a comment, nothing depends on what came
before it. -/
theorem read_foldl_mark {s : State} (hs : s.mode ≠ .comment) {b : UInt8}
    (hb : b = 0x28 ∨ b = 0x27) (rest : Bytes) :
    ((b :: rest).foldl State.step s).read = s.read ++ lexemes (b :: rest) := by
  have hmark : ∃ kind lexeme, ∀ u : State, u.mode ≠ .comment →
      u.step b = u.flush.single kind lexeme true := by
    rcases hb with rfl | rfl
    · refine ⟨.lparen, [0x28], fun u hu => ?_⟩
      rw [step_eq_start hu (by decide) (by decide)]
      rfl
    · refine ⟨.quote, Token.quoteName, fun u hu => ?_⟩
      rw [step_eq_start hu (by decide) (by decide)]
      rfl
  obtain ⟨kind, lexeme, hstep⟩ := hmark
  have hread : ∀ u : State, u.mode ≠ .comment →
      ((b :: rest).foldl State.step u).read = u.read ++ (kind, lexeme) :: lexemes rest := by
    intro u hu
    rw [List.foldl_cons, hstep u hu, read_foldl_of_gap (State.single_mode ..), read_single,
      List.append_assoc, List.singleton_append]
  have halone : lexemes (b :: rest) = (kind, lexeme) :: lexemes rest := by
    rw [lexemes_eq_read, hread (initial 1 0 (.gap true)) (by simp [initial])]
    rfl
  rw [hread s hs, halone]

/-- Where a token is found beyond a place, no comment has begun before it. -/
theorem mode_ne_comment_of_found {line : Int} {first : Bytes} (second : Bytes)
    (h : Token.body (tokens line (first ++ second)) ≠ Token.body (tokens line first)) :
    (first.foldl State.step (initial line 0 (.gap true))).mode ≠ .comment := by
  intro hmode
  obtain ⟨hmode', hfound⟩ := foldl_comment hmode second
  apply h
  rw [body_tokens_eq, body_tokens_eq, List.foldl_append, flush_found_of_comment hmode', hfound,
    flush_found_of_comment hmode]

/-- A line may be cut before an opening parenthesis or a quote mark: the text from there on has
the tokens from there on. -/
theorem lexemes_drop {line : Int} {source : Bytes} {front back : List Token} {t : Token}
    {first last : Nat} (h : Token.body (tokens line source) = front ++ t :: back)
    (hfront : Placed line 0 front first) (hback : Placed line first (t :: back) source.length)
    (hspan : t.span = .of line first last) (ht : t.source = [0x28] ∨ t.source = [0x27]) :
    lexemes (source.drop first) = (t :: back).map fun t => (t.kind, t.lexeme) := by
  have hslice : source.slice first last = t.source := by
    apply slice_eq_source _ hspan
    simp [h]
  obtain ⟨b, rest, hb, hrest⟩ : ∃ b rest, (b = 0x28 ∨ b = 0x27) ∧
      source.drop first = b :: rest := by
    obtain ⟨rest, hrest⟩ := source.drop_eq_slice_append first last
    rw [hslice] at hrest
    rcases ht with ht | ht
    · exact ⟨0x28, rest, .inl rfl, by rw [hrest, ht]; rfl⟩
    · exact ⟨0x27, rest, .inr rfl, by rw [hrest, ht]; rfl⟩
  have htake := body_tokens_take h hfront hback
  have hwhole : source.take first ++ b :: rest = source := by
    rw [← hrest, List.take_append_drop]
  have hmode : ((source.take first).foldl State.step (initial line 0 (.gap true))).mode ≠
      .comment := by
    apply mode_ne_comment_of_found (b :: rest)
    rw [hwhole, h, htake]
    simp
  have hread := read_foldl_mark hmode hb rest
  rw [← List.foldl_append, hwhole, ← map_body_tokens_eq_read,
    ← map_body_tokens_eq_read, h, htake, List.map_append] at hread
  rw [hrest]
  exact (List.append_cancel_left hread).symm

/-- The text of tokens that stand one after the other, the first of them an opening parenthesis or
a quote mark, has just these tokens by itself. -/
theorem lexemes_slice {line : Int} {source : Bytes} {front ts back : List Token} {t : Token}
    {first stop last : Nat} (h : Token.body (tokens line source) = front ++ t :: ts ++ back)
    (hfront : Placed line 0 front first) (hts : Placed line first (t :: ts) last)
    (hback : Placed line last back source.length) (hspan : t.span = .of line first stop)
    (ht : t.source = [0x28] ∨ t.source = [0x27]) :
    lexemes (source.slice first last) = (t :: ts).map fun t => (t.kind, t.lexeme) := by
  have htake := body_tokens_take h (hfront.append hts) hback
  have hlength : (source.take last).length = last := List.length_take_of_le hback.le
  exact lexemes_drop htake hfront (by rwa [hlength]) hspan ht

end cuts

end Scan

end LineLisp
