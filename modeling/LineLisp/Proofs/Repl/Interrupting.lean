import LineLisp.Proofs.Repl.Splitting
import Mathlib.Data.List.Induction

/-!
Giving up a form at the prompt. Between forms nothing is held, so the lines of a form that is given
up leave the session where they found it: none of them is a request, none completes anything, and
the interrupt drops them all. What comes after cannot tell that they were ever typed.
-/

namespace LineLisp

namespace Gathering

/-- The gathering after some lines were added. -/
def fed (g : Gathering) (lines : List Bytes) : Gathering :=
  lines.foldl (fun g line => (g.add line).2) g

/-- When no form is open, nothing is held. -/
theorem Sound.eq_empty {g : Gathering} (h : g.Sound) (hclosed : g.isOpen = false) : g = .empty := by
  obtain ⟨held, depth⟩ := g
  have hheld : held = [] := by
    apply Classical.byContradiction
    intro hheld
    rw [isOpen, decide_eq_false_iff_not] at hclosed
    exact hclosed (h.opened hheld)
  subst hheld
  obtain rfl : depth = 0 := h.depth
  rfl

/-- Lines after each of which a form is open are all held. -/
theorem fed_eq_holding {lines : List Bytes}
    (h : ∀ front back, lines = front ++ back → front ≠ [] → (empty.fed front).isOpen) :
    empty.fed lines = holding lines := by
  induction lines using List.reverseRecOn with
  | nil => rfl
  | append_singleton front line ih =>
      have hfront : empty.fed front = holding front := by
        apply ih
        rintro first back rfl hfirst
        exact h first (back ++ [line]) (List.append_assoc ..) hfirst
      have hopen := h (front ++ [line]) [] (by simp) (by simp)
      have hfed : empty.fed (front ++ [line]) = ((holding front).add line).2 := by
        simp only [← hfront, fed, List.foldl_append, List.foldl_cons, List.foldl_nil]
      rw [hfed] at hopen ⊢
      rcases (holding front).add_cases line with ⟨-, hadd⟩ | ⟨-, hadd⟩
      · rw [hadd, holding_depth_snoc]
        simp [holding]
      · rw [hadd] at hopen
        cases hopen

theorem staysOpen_of_fed {lines : List Bytes}
    (h : ∀ n < lines.length, (empty.fed (lines.take (n + 1))).isOpen) : StaysOpen lines := by
  have hfed : ∀ front back, lines = front ++ back → front ≠ [] → (empty.fed front).isOpen := by
    rintro front back rfl hfront
    have hlength : front.length - 1 + 1 = front.length :=
      Nat.sub_add_cancel (List.length_pos_iff.mpr hfront)
    have hopen := h (front.length - 1) (by rw [List.length_append]; omega)
    rwa [hlength, List.take_left] at hopen
  rintro front back rfl hfront
  have hopen := hfed front back rfl hfront
  rw [fed_eq_holding fun first middle hsplit hfirst =>
    hfed first (middle ++ back) (by rw [hsplit, List.append_assoc]) hfirst] at hopen
  exact of_decide_eq_true hopen

end Gathering

namespace Repl

theorem take_gathering (s : State) (line : Bytes) :
    (take s line).2.gathering = (s.gathering.add line).2 := by
  unfold take
  rcases s.gathering.add line with ⟨source | source, gathering⟩ <;> rfl

/-- Whatever happens, the gathering stays sound. -/
theorem step_sound {s : State} (h : s.gathering.Sound) (event : Event) :
    (step s event).2.gathering.Sound := by
  have htake : ∀ line, (take s line).2.gathering.Sound := by
    intro line
    rw [take_gathering]
    exact h.add line
  unfold step
  split
  · exact h
  · cases event with
    | eof => exact h
    | bell => exact h
    | interrupt =>
        dsimp only
        split
        · exact Gathering.empty_sound
        · exact h
    | line text =>
        dsimp only
        split
        · exact htake text
        · split
          · exact h
          · split
            · exact h
            · exact htake text

theorem steps_sound {s : State} (h : s.gathering.Sound) (shown : List Emission)
    (events : List Event) : (steps shown s events).2.gathering.Sound := by
  induction events generalizing shown s with
  | nil => exact h
  | cons event rest ih => exact ih (step_sound h event) _

/-- An interrupt drops the lines that are held. -/
theorem step_interrupt (session : Session) {lines : List Bytes} (hlines : lines ≠ [])
    (h : Gathering.StaysOpen lines) :
    step (awaiting session lines) .interrupt = ([], awaiting session []) := by
  have hopen := Gathering.isOpen_holding (h lines [] (by simp) hlines)
  simp only [step, awaiting, hopen]
  rfl

theorem steps_interrupted (shown : List Emission) (session : Session) {lines : List Bytes}
    (hlines : lines ≠ []) (h : Gathering.StaysOpen lines) :
    steps shown (awaiting session []) (lines.map .line ++ [.interrupt]) =
      (shown.reverse, awaiting session []) := by
  rw [steps_append, steps_staysOpen session shown [] h]
  simp [steps, step_interrupt session hlines h]

/-- Giving up a form changes nothing. After any events that leave the session waiting for a form,
let lines be typed after each of which a form is open, and then an interrupt. This shows nothing and
leaves the bindings, the count of lines and the gathering as they were, and the session goes on; so
whatever is done then, and the whole session if it ends there, is as if the lines had never been
typed. An interrupt carries no text: what was typed on its line is dropped. -/
theorem interrupting_changes_nothing (o : Eval.Options) (events : List Event) (lines : List Bytes)
    (hended : (steps [banner] (start o) events).2.ended = false)
    (hclosed : (steps [banner] (start o) events).2.gathering.isOpen = false)
    (hlines : lines ≠ [])
    (hopen : ∀ n < lines.length,
      ((steps [banner] (start o) events).2.gathering.fed (lines.take (n + 1))).isOpen) :
    let given := lines.map Event.line ++ [.interrupt]
    steps [banner] (start o) (events ++ given) = steps [banner] (start o) events ∧
    (∀ later, steps [banner] (start o) (events ++ given ++ later) =
      steps [banner] (start o) (events ++ later)) ∧
    ∀ later, run o (events ++ given ++ later) = run o (events ++ later) := by
  intro given
  have hsound : (steps [banner] (start o) events).2.gathering.Sound :=
    steps_sound Gathering.empty_sound _ _
  have hempty := hsound.eq_empty hclosed
  have hstate : (steps [banner] (start o) events).2 =
      awaiting (steps [banner] (start o) events).2.session [] := by
    revert hended hempty
    generalize (steps [banner] (start o) events).2 = s
    obtain ⟨session, gathering, ended⟩ := s
    rintro rfl rfl
    rfl
  have hstays : Gathering.StaysOpen lines := by
    rw [hempty] at hopen
    exact Gathering.staysOpen_of_fed hopen
  have hgiven : steps [banner] (start o) (events ++ given) = steps [banner] (start o) events := by
    rw [steps_append, hstate, steps_interrupted _ _ hlines hstays, List.reverse_reverse, ← hstate]
  have hlater : ∀ later, steps [banner] (start o) (events ++ given ++ later) =
      steps [banner] (start o) (events ++ later) := by
    intro later
    rw [steps_append, hgiven, ← steps_append]
  refine ⟨hgiven, hlater, ?_⟩
  intro later
  unfold run
  rw [List.append_assoc (events ++ given), List.append_assoc events later]
  exact hlater (later ++ [.eof])

/-- The form that is given up has requests among its lines. The bindings that are listed afterwards
are those from before. -/
theorem interrupting_changes_nothing_requests :
    let o := Eval.Options.standard
    let before := [Event.line (utf8 "(setq x 1)")]
    let lines := [utf8 "(setq x (list", utf8 "exit", utf8 ":env", utf8 "2) ; quit"]
    let later := [Event.line (utf8 ":env")]
    (∀ n < lines.length,
      ((steps [banner] (start o) before).2.gathering.fed (lines.take (n + 1))).isOpen) ∧
    Emission.textOn .output
      (steps [banner] (start o) (before ++ (lines.map .line ++ [.interrupt]) ++ later)).1 =
        banner.text ++ utf8 "=> 1\nx = 1\n" := by
  intro o before lines later
  have hopen : ∀ n < lines.length,
      ((steps [banner] (start o) before).2.gathering.fed (lines.take (n + 1))).isOpen := by
    decide +kernel
  obtain ⟨-, hlater, -⟩ := interrupting_changes_nothing o before lines (by decide +kernel)
    (by decide +kernel) (by decide) hopen
  refine ⟨hopen, ?_⟩
  rw [hlater]
  decide +kernel

end Repl

end LineLisp
