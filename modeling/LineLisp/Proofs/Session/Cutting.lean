import LineLisp.Proofs.Expr.Balance
import LineLisp.Proofs.Expr.Grammar
import LineLisp.Proofs.Session.Gathering
import LineLisp.Proofs.Token.Places

/-!
Sources cut into lines. A source may be cut at any blank between its first opening and its last
closing parenthesis, and each line may get a comment. Gathering the lines gives a source with the
same tokens at the same places, since one blank stands for another and comments are dropped; and
it does so only at the last line, since before that the form is still open.
-/

namespace LineLisp

/-- Whether the byte at an offset of a line stands after an opening parenthesis and before a
closing one. It is then in no comment, since after a comment there are no tokens. -/
def IsInside (source : Bytes) (offset : Nat) : Prop :=
  (∃ t ∈ Token.body (Scan.tokens 1 source), t.kind = .lparen ∧ t.span.stop.offset ≤ offset) ∧
    ∃ t ∈ Token.body (Scan.tokens 1 source), t.kind = .rparen ∧ offset < t.span.start.offset

instance (source : Bytes) (offset : Nat) : Decidable (IsInside source offset) :=
  inferInstanceAs (Decidable (_ ∧ _))

namespace IsInside

variable {first second : Bytes} {b : UInt8}

theorem not_mem_semicolon (h : IsInside (first ++ b :: second) first.length) : 0x3B ∉ first := by
  intro hmem
  obtain ⟨-, t, ht, -, hafter⟩ := h
  obtain ⟨front, comment, rfl⟩ := List.append_of_mem hmem
  rw [List.append_assoc, List.cons_append, Scan.body_tokens_comment] at ht
  have hplace := (Scan.placed_body_tokens 1 front).between ht
  rw [List.length_append] at hafter
  omega

/-- A cut leaves tokens on both sides. -/
theorem body_tokens (h : IsInside (first ++ b :: second) first.length) (hb : Blank.isSpace b) :
    ∃ tail, Token.body (Scan.tokens 1 (first ++ b :: second)) =
        Token.body (Scan.tokens 1 first) ++ tail ∧
      Token.body (Scan.tokens 1 first) ≠ [] ∧ tail ≠ [] := by
  obtain ⟨tail, htokens, hplaced⟩ :=
    Scan.body_tokens_append_blank 1 h.not_mem_semicolon hb second
  obtain ⟨⟨opened, hopened, -, hbefore⟩, closed, hclosed, -, hafter⟩ := h
  rw [htokens] at hopened hclosed
  refine ⟨tail, htokens, ?_, ?_⟩
  · rcases List.mem_append.mp hopened with hfirst | htail
    · exact List.ne_nil_of_mem hfirst
    · have hplace := hplaced.between htail
      omega
  · rcases List.mem_append.mp hclosed with hfirst | htail
    · have hplace := (Scan.placed_body_tokens 1 first).between hfirst
      omega
    · exact List.ne_nil_of_mem htail

end IsInside

/-- A line as it is typed: some source, and a comment if there is one. -/
structure TypedLine where
  text : Bytes
  comment : Option Bytes

namespace TypedLine

def bytes (line : TypedLine) : Bytes :=
  match line.comment with
  | none => line.text
  | some comment => line.text ++ 0x3B :: comment

theorem body_tokens_bytes (number : Int) (line : TypedLine) :
    Token.body (Scan.tokens number line.bytes) = Token.body (Scan.tokens number line.text) := by
  unfold bytes
  split
  · rfl
  · exact Scan.body_tokens_comment ..

theorem before_bytes (line : TypedLine) :
    Bytes.before 0x3B line.bytes = Bytes.before 0x3B line.text := by
  unfold bytes
  split
  · rfl
  · exact Scan.before_append_comment ..

theorem mem_bytes {line : TypedLine} {b : UInt8} (h : b ∈ line.text) : b ∈ line.bytes := by
  unfold bytes
  split
  · exact h
  · exact List.mem_append_left _ h

end TypedLine

/-- A source cut into lines: the first line, and each further one with the byte that was taken out
before it. -/
structure Cutting where
  first : TypedLine
  rest : List (UInt8 × TypedLine)

namespace Cutting

/-- The source that was cut. -/
def source (c : Cutting) : Bytes :=
  c.first.text ++ c.rest.flatMap fun cut => cut.1 :: cut.2.text

/-- The lines that it was cut into. -/
def lines (c : Cutting) : List Bytes :=
  c.first.bytes :: c.rest.map fun cut => cut.2.bytes

@[simp]
theorem source_nil (line : TypedLine) : source ⟨line, []⟩ = line.text := by
  simp [source]

@[simp]
theorem source_cons (line : TypedLine) (b : UInt8) (next : TypedLine)
    (rest : List (UInt8 × TypedLine)) :
    source ⟨line, (b, next) :: rest⟩ = line.text ++ b :: source ⟨next, rest⟩ := by
  simp [source]

theorem source_append (line : TypedLine) (front : List (UInt8 × TypedLine)) (b : UInt8)
    (next : TypedLine) (back : List (UInt8 × TypedLine)) :
    source ⟨line, front ++ (b, next) :: back⟩ =
      source ⟨line, front⟩ ++ b :: source ⟨next, back⟩ := by
  simp [source]

/-- Whether the cuts are at blanks outside comments. -/
structure Clear (c : Cutting) : Prop where
  blank : ∀ cut ∈ c.rest, Blank.isSpace cut.1
  plain : ∀ front cut back, c.rest = front ++ cut :: back → 0x3B ∉ source ⟨c.first, front⟩

namespace Clear

theorem first {first : TypedLine} {cut : UInt8 × TypedLine} {rest : List (UInt8 × TypedLine)}
    (h : Clear ⟨first, cut :: rest⟩) : 0x3B ∉ first.text := by
  simpa using h.plain [] cut rest rfl

theorem tail {first next : TypedLine} {b : UInt8} {rest : List (UInt8 × TypedLine)}
    (h : Clear ⟨first, (b, next) :: rest⟩) : Clear ⟨next, rest⟩ := by
  refine ⟨fun cut hcut => h.blank cut (by simp [hcut]), ?_⟩
  intro front cut back hrest hmem
  have hrest' : rest = front ++ cut :: back := hrest
  have hplain := h.plain ((b, next) :: front) cut back (by rw [List.cons_append, ← hrest'])
  rw [source_cons] at hplain
  exact hplain (by simp [hmem])

theorem front {c : Cutting} (h : c.Clear) {front back : List (UInt8 × TypedLine)}
    (hrest : c.rest = front ++ back) : Clear ⟨c.first, front⟩ := by
  refine ⟨fun cut hcut => h.blank cut (by simp [hrest, hcut]), ?_⟩
  intro earlier cut later hfront
  have hfront' : front = earlier ++ cut :: later := hfront
  exact h.plain earlier cut (later ++ back) (by simp [hrest, hfront'])

/-- Joining the lines by blanks without their comments finds what the source does. -/
theorem flush_found_join {c : Cutting} (h : c.Clear) (s : Scan.State) :
    ((Bytes.join [0x20] (c.lines.map (Bytes.before 0x3B))).foldl Scan.State.step s).flush.found =
      (c.source.foldl Scan.State.step s).flush.found := by
  obtain ⟨line, rest⟩ := c
  induction rest generalizing line s with
  | nil =>
      have hjoin : Bytes.join [0x20] ((lines ⟨line, []⟩).map (Bytes.before 0x3B)) =
          Bytes.before 0x3B line.text := by
        simp [lines, Bytes.join, TypedLine.before_bytes]
      rw [hjoin, source_nil, Scan.flush_found_before]
  | cons cut rest ih =>
      obtain ⟨b, next⟩ := cut
      -- Before a cut the source has no comment of its own, so only what was added is dropped.
      have hwhole := Scan.before_of_not_mem h.first
      have hjoin : Bytes.join [0x20] ((lines ⟨line, (b, next) :: rest⟩).map (Bytes.before 0x3B)) =
          line.text ++
            0x20 :: Bytes.join [0x20] ((lines ⟨next, rest⟩).map (Bytes.before 0x3B)) := by
        simp [lines, Bytes.join, TypedLine.before_bytes, hwhole]
      have hblank : Blank.isSpace b := h.blank (b, next) (by simp)
      rw [hjoin, source_cons, List.foldl_append, List.foldl_append, List.foldl_cons, List.foldl_cons,
        ← Scan.step_blank _ hblank]
      exact ih _ next h.tail

/-- The gathered lines have the tokens of the source, places included. -/
theorem body_tokens_gathered {c : Cutting} (h : c.Clear) (number : Int) :
    Token.body (Scan.tokens number (Gathering.source c.lines)) =
      Token.body (Scan.tokens number c.source) := by
  obtain ⟨line, rest⟩ := c
  cases rest with
  | nil =>
      rw [source_nil]
      exact line.body_tokens_bytes number
  | cons cut rest =>
      have hgathered : Gathering.source (lines ⟨line, cut :: rest⟩) =
          Bytes.join [0x20] ((lines ⟨line, cut :: rest⟩).map (Bytes.before 0x3B)) := rfl
      rw [hgathered, Scan.body_tokens_eq, Scan.body_tokens_eq, h.flush_found_join]

theorem sum_balance_lines {c : Cutting} (h : c.Clear) :
    (c.lines.map Line.balance).sum = Line.balance c.source := by
  rw [← Gathering.balance_source (by simp [lines]),
    Line.balance_eq_of_body (h.body_tokens_gathered 1)]

end Clear

/-- Whether a source that begins with a parenthesis and is accepted under a limit was cut at blanks
inside its parentheses. -/
structure IsForm (limit : DepthLimit) (c : Cutting) : Prop where
  accepted : ∃ e, Read.one limit (Scan.tokens 1 c.source) = .ok e
  opens : (Token.body (Scan.tokens 1 c.source)).head?.map (·.kind) = some .lparen
  blank : ∀ cut ∈ c.rest, Blank.isSpace cut.1
  inside : ∀ n < c.rest.length, IsInside c.source (source ⟨c.first, c.rest.take n⟩).length

namespace IsForm

variable {limit : DepthLimit} {c : Cutting}

theorem isInside (h : c.IsForm limit) {front back : List (UInt8 × TypedLine)}
    {b : UInt8} {next : TypedLine} (hrest : c.rest = front ++ (b, next) :: back) :
    IsInside (source ⟨c.first, front⟩ ++ b :: source ⟨next, back⟩)
      (source ⟨c.first, front⟩).length := by
  have hinside := h.inside front.length (by simp [hrest])
  have hsource : c.source = source ⟨c.first, front⟩ ++ b :: source ⟨next, back⟩ := by
    rw [← source_append, ← hrest]
  rw [hsource, hrest, List.take_left] at hinside
  exact hinside

theorem clear (h : c.IsForm limit) : c.Clear := by
  refine ⟨h.blank, ?_⟩
  rintro front ⟨b, next⟩ back hrest
  exact (h.isInside hrest).not_mem_semicolon

theorem exists_derivation (h : c.IsForm limit) :
    ∃ d : Derivation, d.tokens = Token.body (Scan.tokens 1 c.source) := by
  obtain ⟨e, he⟩ := h.accepted
  obtain ⟨d, htokens, -⟩ := Read.one_eq_ok_iff.mp he
  exact ⟨d, htokens⟩

theorem sum_balance_lines (h : c.IsForm limit) : (c.lines.map Line.balance).sum = 0 := by
  obtain ⟨d, htokens⟩ := h.exists_derivation
  rw [h.clear.sum_balance_lines, Line.balance_eq_body, ← htokens]
  exact d.balanced_tokens.settled

theorem balance_front_pos (h : c.IsForm limit) {front back : List (UInt8 × TypedLine)} {b : UInt8}
    {next : TypedLine} (hrest : c.rest = front ++ (b, next) :: back) :
    0 < Line.balance (source ⟨c.first, front⟩) := by
  obtain ⟨d, htokens⟩ := h.exists_derivation
  have hblank : Blank.isSpace b := h.blank (b, next) (by simp [hrest])
  obtain ⟨tail, htail, hbefore, hafter⟩ := (h.isInside hrest).body_tokens hblank
  have hopens := h.opens
  rw [← source_append, ← hrest] at htail
  rw [← htokens] at hopens htail
  rw [Line.balance_eq_body]
  exact Derivation.parenBalance_pos hopens hbefore hafter htail

/-- As long as lines are missing, a parenthesis is open. -/
theorem sum_balance_pos (h : c.IsForm limit) {front back : List Bytes} (hfront : front ≠ [])
    (hback : back ≠ []) (hlines : c.lines = front ++ back) :
    0 < (front.map Line.balance).sum := by
  cases front with
  | nil => exact absurd rfl hfront
  | cons line front =>
      obtain ⟨rfl, hmap⟩ := List.cons.inj hlines
      obtain ⟨earlier, later, hrest, rfl, rfl⟩ := List.map_eq_append_iff.mp hmap
      -- The lines so far are a cutting of their own, of the source up to the next cut.
      cases later with
      | nil => exact absurd rfl hback
      | cons cut later =>
          have hsum := (h.clear.front hrest).sum_balance_lines
          have hpos := h.balance_front_pos hrest
          rw [← hsum] at hpos
          exact hpos

/-- The first line holds the parenthesis that opens the form. -/
theorem mem_first_line (h : c.IsForm limit) : 0x28 ∈ c.first.bytes := by
  have hopens := h.opens
  have hhead : (Token.body (Scan.tokens 1 c.first.text)).head?.map (·.kind) = some .lparen := by
    cases hrest : c.rest with
    | nil => simpa [source, hrest] using hopens
    | cons cut back =>
        have hcut : c.rest = [] ++ (cut.1, cut.2) :: back := hrest
        obtain ⟨tail, htail, hne, -⟩ :=
          (h.isInside hcut).body_tokens (h.blank cut (by simp [hrest]))
        rw [← source_append, ← hcut, source_nil] at htail
        rw [source_nil] at hne
        obtain ⟨t, more, hcons⟩ := List.exists_cons_of_ne_nil hne
        simpa [htail, hcons] using hopens
  obtain ⟨t, ht, hkind⟩ := Option.map_eq_some_iff.mp hhead
  exact TypedLine.mem_bytes (Scan.mem_of_lparen (List.mem_of_head? ht) hkind)

end IsForm

end Cutting

end LineLisp
