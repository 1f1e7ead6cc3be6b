import LineLisp.Proofs.Token.Lines
import LineLisp.Session.Gathering

/-!
What a gathering holds after any operations. The lines held are those since the last complete
source, and they leave some parenthesis open. A complete source has the tokens of its lines one
after the other: a single line is kept as it is, and several lines lose only their comments and
are joined by blanks.
-/

namespace LineLisp.Gathering

theorem lexemes_source {lines : List Bytes} (h : lines ≠ []) :
    Scan.lexemes (source lines) = lines.flatMap Scan.lexemes := by
  match lines with
  | [line] => simp [source]
  | first :: second :: rest =>
      have hsource : source (first :: second :: rest) =
          Bytes.join [0x20] ((first :: second :: rest).map (Bytes.before 0x3B)) := rfl
      have hcut : ∀ text ∈ (first :: second :: rest).map (Bytes.before 0x3B), 0x3B ∉ text := by
        intro text htext
        obtain ⟨line, -, rfl⟩ := List.mem_map.mp htext
        exact (Scan.before_cases line).1
      rw [hsource, Scan.lexemes_join hcut, List.flatMap_map]
      simp [Scan.lexemes_before]

theorem excess_flatMap (lines : List Bytes) :
    Token.excess (lines.flatMap Scan.lexemes) = (lines.map Line.balance).sum := by
  induction lines with
  | nil => rfl
  | cons line rest ih =>
      rw [List.flatMap_cons, Token.excess_append, ih, List.map_cons, List.sum_cons,
        Line.balance_eq_excess]

theorem balance_source {lines : List Bytes} (h : lines ≠ []) :
    Line.balance (source lines) = (lines.map Line.balance).sum := by
  rw [Line.balance_eq_excess, lexemes_source h, excess_flatMap]

/-- The invariant of gatherings: the lines held leave as many parentheses open as are counted,
and at least one. -/
structure Sound (g : Gathering) : Prop where
  depth : g.depth = (g.held.map Line.balance).sum
  opened : g.held ≠ [] → 0 < g.depth

theorem empty_sound : Sound empty :=
  ⟨rfl, fun h => absurd rfl h⟩

/-- All that adding a line can do. -/
theorem add_cases (g : Gathering) (line : Bytes) :
    (0 < g.depth + Line.balance line ∧
      g.add line = (none, ⟨line :: g.held, g.depth + Line.balance line⟩)) ∨
    (g.depth + Line.balance line ≤ 0 ∧
      g.add line = (some (source (line :: g.held).reverse), empty)) := by
  by_cases hopen : 0 < g.depth + Line.balance line
  · exact .inl ⟨hopen, if_pos hopen⟩
  · exact .inr ⟨by omega, if_neg hopen⟩

theorem Sound.add {g : Gathering} (h : g.Sound) (line : Bytes) : (g.add line).2.Sound := by
  rcases g.add_cases line with ⟨hopen, hadd⟩ | ⟨-, hadd⟩
  · rw [hadd]
    refine ⟨?_, fun _ => hopen⟩
    rw [List.map_cons, List.sum_cons, ← h.depth, Int.add_comm]
  · rw [hadd]
    exact empty_sound

/-- A complete source has the tokens of the lines held and of the line that completes it. -/
theorem Sound.complete {g : Gathering} (h : g.Sound) {line text : Bytes}
    (hadd : (g.add line).1 = some text) :
    Scan.lexemes text = (line :: g.held).reverse.flatMap Scan.lexemes ∧
      Line.balance text = ((line :: g.held).map Line.balance).sum ∧ Line.balance text ≤ 0 := by
  rcases g.add_cases line with ⟨-, hcase⟩ | ⟨hclosed, hcase⟩
  · simp [hcase] at hadd
  · have htext : text = source (line :: g.held).reverse := by
      simpa [hcase] using hadd.symm
    have hlines : (line :: g.held).reverse ≠ [] := by simp
    have hbalance : Line.balance text = ((line :: g.held).map Line.balance).sum := by
      rw [htext, balance_source hlines, List.map_reverse, List.sum_reverse]
    refine ⟨by rw [htext, lexemes_source hlines], hbalance, ?_⟩
    rw [hbalance, List.map_cons, List.sum_cons, ← h.depth]
    omega

section holding

/-- The gathering that holds the given lines. -/
def holding (lines : List Bytes) : Gathering :=
  ⟨lines.reverse, (lines.map Line.balance).sum⟩

variable {lines : List Bytes} {line : Bytes}

theorem holding_depth_snoc (lines : List Bytes) (line : Bytes) :
    (holding lines).depth + Line.balance line = ((lines ++ [line]).map Line.balance).sum := by
  simp [holding]

theorem holding_add_of_open (h : 0 < ((lines ++ [line]).map Line.balance).sum) :
    (holding lines).add line = (none, holding (lines ++ [line])) := by
  rcases (holding lines).add_cases line with ⟨-, hadd⟩ | ⟨hclosed, -⟩
  · rw [hadd, holding_depth_snoc]
    simp [holding]
  · rw [holding_depth_snoc] at hclosed
    omega

theorem holding_add_of_closed (h : ((lines ++ [line]).map Line.balance).sum ≤ 0) :
    (holding lines).add line = (some (source (lines ++ [line])), empty) := by
  rcases (holding lines).add_cases line with ⟨hopen, -⟩ | ⟨-, hadd⟩
  · rw [holding_depth_snoc] at hopen
    omega
  · rw [hadd]
    simp [holding]

theorem isOpen_holding (h : 0 < (lines.map Line.balance).sum) : (holding lines).isOpen = true :=
  decide_eq_true h

/-- Whether a form is open after each of some lines. -/
def StaysOpen (lines : List Bytes) : Prop :=
  ∀ front back, lines = front ++ back → front ≠ [] → 0 < (front.map Line.balance).sum

theorem StaysOpen.front {front back : List Bytes} (h : StaysOpen (front ++ back)) :
    StaysOpen front := by
  rintro first middle rfl hfirst
  exact h first (middle ++ back) (List.append_assoc ..) hfirst

end holding

/-- An operation on a gathering. -/
inductive Action where
  | add (line : Bytes)
  | reset

/-- What an operation returns, and the gathering after it. -/
def perform (g : Gathering) : Action → Option Bytes × Gathering
  | .add line => g.add line
  | .reset => (none, empty)

/-- The operations so far, each with what it returned, latest first, and the gathering after
them. -/
structure History where
  transcript : List (Action × Option Bytes)
  gathering : Gathering

def History.step (h : History) (action : Action) : History :=
  let (returned, g) := h.gathering.perform action
  ⟨(action, returned) :: h.transcript, g⟩

/-- The history of operations on a new gathering. -/
def history (actions : List Action) : History :=
  actions.foldl History.step ⟨[], empty⟩

/-- The lines added since the last complete source or reset, latest first. -/
def linesSince : List (Action × Option Bytes) → List Bytes
  | (.add line, none) :: earlier => line :: linesSince earlier
  | _ => []

structure History.Sound (h : History) : Prop where
  gathering : h.gathering.Sound
  held : h.gathering.held = linesSince h.transcript

theorem History.Sound.step {h : History} (hh : h.Sound) (action : Action) :
    (h.step action).Sound := by
  cases action with
  | reset => exact ⟨empty_sound, rfl⟩
  | add line =>
      refine ⟨hh.gathering.add line, ?_⟩
      rcases h.gathering.add_cases line with ⟨-, hadd⟩ | ⟨-, hadd⟩
      · simp [History.step, perform, hadd, linesSince, hh.held]
      · simp [History.step, perform, hadd, linesSince, empty]

theorem history_sound (actions : List Action) : (history actions).Sound := by
  have hfold : ∀ h : History, h.Sound → (actions.foldl History.step h).Sound := by
    induction actions with
    | nil => exact fun _ hh => hh
    | cons action rest ih => exact fun h hh => ih _ (hh.step action)
  exact hfold _ ⟨empty_sound, rfl⟩

/-- A gathering neither loses nor invents tokens. After any operations it holds the lines added
since the last complete source or reset; its depth is the sum of their balances, zero exactly
when there are none and positive otherwise. A source that is then completed by a line has
exactly the tokens of these lines and that one, in order, and their balances add up to its own,
which is not positive. -/
theorem gathers_exactly_the_lines_since (actions : List Action) :
    let g := (history actions).gathering
    let since := linesSince (history actions).transcript
    g.held = since ∧
    g.depth = (g.held.map Line.balance).sum ∧
    (g.held = [] ↔ g.depth = 0) ∧
    (g.held ≠ [] ↔ 0 < g.depth) ∧
    (g.isOpen = true ↔ g.held ≠ []) ∧
    ∀ line text, (g.add line).1 = some text →
      let lines := since.reverse ++ [line]
      Scan.lexemes text = lines.flatMap Scan.lexemes ∧
      Line.balance text = (lines.map Line.balance).sum ∧
      Line.balance text ≤ 0 := by
  intro g since
  have hsound : g.Sound := (history_sound actions).gathering
  have hheld : g.held = since := (history_sound actions).held
  have hnone : g.held = [] → g.depth = 0 := by
    intro hempty
    rw [hsound.depth, hempty]
    rfl
  have hopen : g.held ≠ [] ↔ 0 < g.depth := by
    refine ⟨hsound.opened, ?_⟩
    intro hdepth hempty
    have hzero := hnone hempty
    omega
  refine ⟨hheld, hsound.depth, ⟨hnone, ?_⟩, hopen, ?_, ?_⟩
  · intro hdepth
    apply Classical.byContradiction
    intro hsome
    have hpositive := hopen.mp hsome
    omega
  · rw [hopen]
    exact decide_eq_true_iff
  · intro line text hadd
    obtain ⟨hlexemes, hbalance, hclosed⟩ := hsound.complete hadd
    rw [← hheld]
    refine ⟨by simpa using hlexemes, ?_, hclosed⟩
    rw [hbalance, ← List.reverse_cons, List.map_reverse, List.sum_reverse]

/-- A comment that opens parentheses holds nothing back, and the sign after it begins a number. -/
theorem gathers_exactly_the_lines_since_comment :
    let first := utf8 "(list 1 ; (("
    let second := utf8 "-2)"
    let text := utf8 "(list 1  -2)"
    ((history [.add first]).gathering.add second).1 = some text ∧
      Scan.lexemes text = [first, second].flatMap Scan.lexemes ∧ Line.balance text ≤ 0 := by
  intro first second text
  have hadd : ((history [.add first]).gathering.add second).1 = some text := by decide
  obtain ⟨-, -, -, -, -, hcomplete⟩ := gathers_exactly_the_lines_since [.add first]
  obtain ⟨hlexemes, -, hclosed⟩ := hcomplete second text hadd
  exact ⟨hadd, hlexemes, hclosed⟩

end LineLisp.Gathering
