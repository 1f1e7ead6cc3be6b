import LineLisp.Line.Split
import Mathlib.Data.List.Basic
import Mathlib.Data.List.TakeWhile

/-!
The two ways of cutting a text. Every text is a number of lines, each ended by a line feed, and what
follows the last of them. Both ways keep the ended lines, less one carriage return, and differ only
after the last line feed: the rest keeps its carriage return when the text is taken as a whole, and
a text that is a single empty line has no line then. Reading line by line goes on until a line is too
long.
-/

namespace LineLisp.Line

/-- Lines, each ended by a line feed. -/
def ended (lines : List Bytes) : Bytes :=
  lines.flatMap (· ++ [0x0A])

theorem ended_snoc (lines : List Bytes) (line : Bytes) :
    ended (lines ++ [line]) = ended lines ++ line ++ [0x0A] := by
  simp [ended]

theorem ended_cons (line : Bytes) (lines : List Bytes) :
    ended (line :: lines) = line ++ 0x0A :: ended lines := by
  simp [ended]

/-- Whether a text is the ended lines and a rest that does not end. -/
structure IsCut (text : Bytes) (lines : List Bytes) (rest : Bytes) : Prop where
  text_eq : text = ended lines ++ rest
  lines_open : ∀ line ∈ lines, 0x0A ∉ line
  rest_open : 0x0A ∉ rest

theorem exists_isCut (text : Bytes) : ∃ lines rest, IsCut text lines rest := by
  induction text with
  | nil => exact ⟨[], [], rfl, by simp, by simp⟩
  | cons b text ih =>
      obtain ⟨lines, rest, rfl, hlines, hrest⟩ := ih
      by_cases hb : b = 0x0A
      · subst hb
        refine ⟨[] :: lines, rest, by simp [ended_cons], ?_, hrest⟩
        simpa using hlines
      · cases lines with
        | nil => exact ⟨[], b :: rest, rfl, by simp, by simp [Ne.symm hb, hrest]⟩
        | cons line lines =>
            rw [List.forall_mem_cons] at hlines
            refine ⟨(b :: line) :: lines, rest, by simp [ended_cons], ?_, hrest⟩
            simpa [Ne.symm hb] using hlines

section cut

variable {text : Bytes} {lines : List Bytes} {rest : Bytes}

theorem cutFrom_open {part : Bytes} (h : 0x0A ∉ part) (line : Bytes) (done : List Bytes)
    (more : Bytes) :
    cutFrom line done (part ++ more) = cutFrom (part.reverse ++ line) done more := by
  induction part generalizing line with
  | nil => rfl
  | cons b part ih =>
      rw [List.mem_cons, not_or] at h
      rw [List.cons_append, cutFrom, if_neg (Ne.symm h.1), ih h.2]
      simp

theorem cutFrom_ended (hlines : ∀ line ∈ lines, 0x0A ∉ line) (done : List Bytes) (more : Bytes) :
    cutFrom [] done (ended lines ++ more) = cutFrom [] (lines.reverse ++ done) more := by
  induction lines generalizing done with
  | nil => rfl
  | cons line lines ih =>
      rw [List.forall_mem_cons] at hlines
      rw [ended_cons, List.append_assoc, cutFrom_open hlines.1, List.cons_append, cutFrom,
        if_pos rfl, ih hlines.2]
      simp

theorem IsCut.cut_eq (h : IsCut text lines rest) : cut text = (lines, rest) := by
  have hrest := cutFrom_open h.rest_open [] lines.reverse []
  rw [List.append_nil] at hrest
  rw [cut, h.text_eq, cutFrom_ended h.lines_open, List.append_nil, hrest]
  simp [cutFrom]

theorem split_open (h : 0x0A ∉ rest) : Bytes.split 0x0A rest = [rest] := by
  induction rest with
  | nil => rfl
  | cons b rest ih =>
      rw [List.mem_cons, not_or] at h
      unfold Bytes.split at ih ⊢
      rw [List.foldr_cons, ih h.2, if_neg (Ne.symm h.1)]

theorem split_ended {line : Bytes} (h : 0x0A ∉ line) (more : Bytes) :
    Bytes.split 0x0A (line ++ 0x0A :: more) = line :: Bytes.split 0x0A more := by
  induction line with
  | nil => rfl
  | cons b line ih =>
      rw [List.mem_cons, not_or] at h
      unfold Bytes.split at ih ⊢
      rw [List.cons_append, List.foldr_cons, ih h.2, if_neg (Ne.symm h.1)]

theorem IsCut.split_eq (h : IsCut text lines rest) :
    Bytes.split 0x0A text = lines ++ [rest] := by
  obtain ⟨rfl, hlines, hrest⟩ := h
  induction lines with
  | nil => exact split_open hrest
  | cons line lines ih =>
      rw [List.forall_mem_cons] at hlines
      rw [ended_cons, List.append_assoc, List.cons_append, split_ended hlines.1, ih hlines.2]
      rfl

end cut

section returns

theorem dropReturn_eq_self {line : Bytes} (h : line.getLast? ≠ some 0x0D) :
    dropReturn line = line :=
  if_neg h

theorem not_mem_dropReturn {line : Bytes} {b : UInt8} (h : b ∉ line) : b ∉ dropReturn line := by
  unfold dropReturn
  split
  · exact fun hb => h (List.dropLast_subset line hb)
  · exact h

/-- Either there is no carriage return to drop, or it is the last byte. -/
theorem dropReturn_cases (line : Bytes) :
    dropReturn line = line ∨ line = dropReturn line ++ [0x0D] := by
  unfold dropReturn
  split
  · rename_i hlast
    exact .inr (List.dropLast_append_getLast? 0x0D hlast).symm
  · exact .inl rfl

theorem dropReturn_cons (b c : UInt8) (line : Bytes) :
    dropReturn (b :: c :: line) = b :: dropReturn (c :: line) := by
  unfold dropReturn
  rw [List.getLast?_cons_cons]
  split
  · rfl
  · rfl

/-- A byte that does not stand before a line feed is taken as it is. -/
theorem unifyFrom_cons (done : Bytes) {b : UInt8} {rest : Bytes}
    (h : b = 0x0D → rest.head? ≠ some 0x0A) :
    unifyFrom done (b :: rest) = unifyFrom (b :: done) rest := by
  rw [unifyFrom]
  rintro more rfl rfl
  exact h rfl rfl

theorem unifyFrom_open {rest : Bytes} (h : 0x0A ∉ rest) (done : Bytes) :
    unifyFrom done rest = done.reverse ++ rest := by
  induction rest generalizing done with
  | nil => simp [unifyFrom]
  | cons b rest ih =>
      rw [List.mem_cons, not_or] at h
      have hhead : rest.head? ≠ some 0x0A := fun hhead => h.2 (List.mem_of_mem_head? hhead)
      rw [unifyFrom_cons done fun _ => hhead, ih h.2]
      simp

theorem unifyFrom_line {line : Bytes} (h : 0x0A ∉ line) (done more : Bytes) :
    unifyFrom done (line ++ 0x0A :: more) =
      unifyFrom (0x0A :: ((dropReturn line).reverse ++ done)) more := by
  induction line generalizing done with
  | nil => exact unifyFrom_cons done fun h => absurd h (by decide)
  | cons b line ih =>
      rw [List.mem_cons, not_or] at h
      cases line with
      | nil =>
          by_cases hb : b = 0x0D
          · subst hb
            rfl
          · have hdrop : dropReturn [b] = [b] := dropReturn_eq_self (by simp [hb])
            rw [hdrop, List.singleton_append, unifyFrom_cons done fun h => absurd h hb,
              unifyFrom_cons _ fun h => absurd h (by decide)]
            rfl
      | cons c line =>
          have hc : c ≠ 0x0A := fun hc => h.2 (by simp [hc])
          rw [List.cons_append, unifyFrom_cons done (by simp [hc]), ih h.2, dropReturn_cons]
          simp

theorem unifyFrom_ended {lines : List Bytes} (hlines : ∀ line ∈ lines, 0x0A ∉ line) {rest : Bytes}
    (hrest : 0x0A ∉ rest) (done : Bytes) :
    unifyFrom done (ended lines ++ rest) =
      done.reverse ++ ended (lines.map dropReturn) ++ rest := by
  induction lines generalizing done with
  | nil => simpa [ended] using unifyFrom_open hrest done
  | cons line lines ih =>
      rw [List.forall_mem_cons] at hlines
      rw [ended_cons, List.append_assoc, List.cons_append, unifyFrom_line hlines.1, ih hlines.2,
        List.map_cons, ended_cons]
      simp

end returns

variable {text : Bytes} {lines : List Bytes} {rest : Bytes}

/-- Whether a text that is read line by line has the given lines: those that end, and then the rest
unless it is empty. -/
inductive HasLines (text : Bytes) : List Bytes → Prop where
  | closed {lines : List Bytes} (h : IsCut text lines []) : HasLines text lines
  | unclosed {lines : List Bytes} {rest : Bytes} (h : IsCut text lines rest) (hrest : rest ≠ []) :
      HasLines text (lines ++ [rest])

theorem IsCut.hasLines (h : IsCut text lines rest) :
    HasLines text (if rest.isEmpty then lines else lines ++ [rest]) := by
  cases rest with
  | nil => exact .closed h
  | cons b rest => exact .unclosed h (List.cons_ne_nil b rest)

namespace HasLines

theorem eq_cut (h : HasLines text lines) :
    lines = if (cut text).2.isEmpty then (cut text).1 else (cut text).1 ++ [(cut text).2] := by
  cases h with
  | closed h => simp [h.cut_eq]
  | unclosed h hrest => simp [h.cut_eq, hrest]

/-- A text has the lines that it has, and no others. -/
theorem existsUnique (text : Bytes) : ∃! lines, HasLines text lines := by
  obtain ⟨lines, rest, h⟩ := exists_isCut text
  exact ⟨_, h.hasLines, fun other hother => hother.eq_cut.trans h.hasLines.eq_cut.symm⟩

theorem lines_open (h : HasLines text lines) : ∀ line ∈ lines, 0x0A ∉ line := by
  cases h with
  | closed h => exact h.lines_open
  | unclosed h _ =>
      rw [List.forall_mem_append, List.forall_mem_singleton]
      exact ⟨h.lines_open, h.rest_open⟩

/-- All that a text may lack of its lines, each ended, is the last line feed. -/
theorem text_eq (h : HasLines text lines) : text = ended lines ∨ text ++ [0x0A] = ended lines := by
  cases h with
  | closed h => exact .inl (by simp [h.text_eq])
  | unclosed h _ => exact .inr (by rw [h.text_eq, ended_snoc])

/-- A text begins with the lines before any of its lines. -/
theorem ended_prefix {before later : List Bytes} {line : Bytes}
    (h : HasLines text (before ++ line :: later)) : ended before <+: text := by
  have hsplit : ended (before ++ line :: later) = ended before ++ (line ++ 0x0A :: ended later) := by
    simp [ended]
  rcases h.text_eq with heq | heq
  · rw [heq, hsplit]
    exact List.prefix_append _ _
  · have hlength := congrArg List.length (heq.trans hsplit)
    simp only [List.length_append, List.length_cons, List.length_nil] at hlength
    refine List.prefix_of_prefix_length_le ⟨_, (heq.trans hsplit).symm⟩ (List.prefix_append _ _) ?_
    omega

theorem ended_before {before later : List Bytes} {line : Bytes}
    (h : HasLines text (before ++ line :: later)) : HasLines (ended before) before := by
  have hopen := (List.forall_mem_append.mp h.lines_open).1
  exact .closed ⟨by simp, hopen, by simp⟩

/-- Lines that are all short enough are read to the end of the text. -/
theorem read_eq (h : HasLines text lines) (hshort : ∀ line ∈ lines, line.length < tooLong)
    (broken : Option Bytes) : read text broken = ⟨lines.map dropReturn, broken⟩ := by
  have hfitting : lines.takeWhile (·.length < tooLong) = lines := by
    rw [List.takeWhile_eq_self_iff]
    exact fun line hline => decide_eq_true (hshort line hline)
  simp only [read, ← h.eq_cut, hfitting, Nat.lt_irrefl, if_false]

/-- A line that is too long is where reading stops. -/
theorem read_of_tooLong {before later : List Bytes} {long : Bytes}
    (h : HasLines text (before ++ long :: later)) (hshort : ∀ line ∈ before, line.length < tooLong)
    (hlong : tooLong ≤ long.length) (broken : Option Bytes) :
    ∃ reason, read text broken = ⟨before.map dropReturn, some reason⟩ := by
  have hfitting : (before ++ long :: later).takeWhile (·.length < tooLong) = before := by
    rw [List.takeWhile_append_of_pos fun line hline => decide_eq_true (hshort line hline),
      List.takeWhile_cons_of_neg (by simpa using hlong), List.append_nil]
  have hless : before.length < (before ++ long :: later).length := by
    rw [List.length_append, List.length_cons]
    omega
  simp only [read, ← h.eq_cut, hfitting, if_pos hless]
  exact ⟨_, rfl⟩

end HasLines

theorem IsCut.read_eq (h : IsCut text lines rest)
    (hshort : ∀ line ∈ lines ++ [rest], line.length < tooLong) :
    read text none =
      ⟨(if rest.isEmpty then lines else lines ++ [rest]).map dropReturn, none⟩ := by
  apply h.hasLines.read_eq
  intro line hline
  apply hshort
  split at hline
  · exact List.mem_append_left _ hline
  · exact hline

/-- Lines that are ended are read as they are, if they are short enough and no carriage return
stands at their ends. -/
theorem read_ended (h : ∀ line ∈ lines,
    0x0A ∉ line ∧ line.getLast? ≠ some 0x0D ∧ line.length < tooLong) :
    read (ended lines) none = ⟨lines, none⟩ := by
  have hlines : HasLines (ended lines) lines :=
    .closed ⟨by simp, fun line hline => (h line hline).1, by simp⟩
  have hreturns : lines.map dropReturn = lines.map id :=
    List.map_congr_left fun line hline => dropReturn_eq_self (h line hline).2.1
  rw [hlines.read_eq fun line hline => (h line hline).2.2, hreturns, List.map_id]

/-- A text that is taken as a whole. -/
theorem IsCut.whole_eq (h : IsCut text lines rest) :
    whole text =
      if rest.isEmpty then if lines.map dropReturn = [[]] then [] else lines.map dropReturn
      else lines.map dropReturn ++ [rest] := by
  have hunified : unifyFrom [] text = ended (lines.map dropReturn) ++ rest := by
    rw [h.text_eq, unifyFrom_ended h.lines_open h.rest_open]
    rfl
  have hopen : ∀ line ∈ lines.map dropReturn, 0x0A ∉ line := by
    rw [List.forall_mem_map]
    exact fun line hline => not_mem_dropReturn (h.lines_open line hline)
  have hrest := h.rest_open
  unfold whole
  rw [hunified]
  clear hunified h
  generalize lines.map dropReturn = lines at *
  cases rest with
  | cons b rest =>
      have hlast : (ended lines ++ b :: rest).getLast? ≠ some 0x0A := by
        rw [List.getLast?_append_of_ne_nil _ (by simp)]
        exact fun hlast => hrest (List.mem_of_getLast? hlast)
      have hcut : IsCut (ended lines ++ b :: rest) lines (b :: rest) := ⟨rfl, hopen, hrest⟩
      simp only [if_neg hlast, hcut.cut_eq]
      simp
  | nil =>
      rcases List.eq_nil_or_concat' lines with rfl | ⟨front, last, rfl⟩
      · rfl
      · rw [List.forall_mem_append, List.forall_mem_singleton] at hopen
        have hcut : IsCut (ended front ++ last) front last := ⟨rfl, hopen.1, hopen.2⟩
        have hempty : ended front ++ last = [] ↔ front ++ [last] = [[]] := by
          cases front <;> simp [ended]
        have hlast : (ended front ++ last ++ [0x0A]).getLast? = some 0x0A :=
          List.getLast?_concat
        simp only [List.append_nil, ended_snoc, hlast, if_true, List.dropLast_concat,
          List.isEmpty_iff, hempty, hcut.cut_eq]

/-- Lines that are ended are taken as they are, if no carriage return stands at their ends. -/
theorem whole_ended (h : ∀ line ∈ lines, 0x0A ∉ line ∧ line.getLast? ≠ some 0x0D)
    (hlines : lines ≠ [[]]) : whole (ended lines) = lines := by
  have hcut : IsCut (ended lines) lines [] := ⟨by simp, fun line hline => (h line hline).1, by simp⟩
  have hreturns : lines.map dropReturn = lines.map id :=
    List.map_congr_left fun line hline => dropReturn_eq_self (h line hline).2
  rw [hcut.whole_eq, hreturns, List.map_id, if_neg hlines]
  rfl

end LineLisp.Line
