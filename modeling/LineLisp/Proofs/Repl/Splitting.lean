import LineLisp.Command.Running
import LineLisp.Proofs.Line.Requests
import LineLisp.Proofs.Session.Cutting
import LineLisp.Proofs.Session.Processing
import LineLisp.Repl

/-!
Forms typed over several lines at the prompt. At every form boundary the interactive session
stands where a session stands that runs the sources as they are: nothing is held, the bindings are
the same, and so is what was written. Within a form the lines so far are held and nothing happens.
-/

namespace LineLisp.Repl

theorem textOn_colour {channel : Channel} (hchannel : channel ≠ .error)
    (emissions : List Emission) :
    Emission.textOn channel (emissions.map colour) = Emission.textOn channel emissions := by
  induction emissions with
  | nil => rfl
  | cons e rest ih =>
      have hhead : Emission.textOn channel [colour e] = Emission.textOn channel [e] := by
        unfold colour
        split
        · rename_i herror
          simp [Emission.textOn, herror, Ne.symm hchannel]
        · rfl
      rw [List.map_cons, Emission.textOn_cons, hhead, ih, ← Emission.textOn_cons]

theorem steps_append (shown : List Emission) (s : State) (events later : List Event) :
    steps shown s (events ++ later) =
      steps (steps shown s events).1.reverse (steps shown s events).2 later := by
  induction events generalizing shown s with
  | nil => simp [steps]
  | cons event rest ih => exact ih ..

/-- The state in which the given lines of a form were typed. -/
def awaiting (session : Session) (front : List Bytes) : State :=
  ⟨session, .holding front, false⟩

section held

variable (session : Session)

/-- A line is no request when a form is open or when it has a parenthesis. -/
theorem step_line_held {front : List Bytes} {line : Bytes} (hfirst : front = [] → 0x28 ∈ line)
    (hopen : front ≠ [] → 0 < (front.map Line.balance).sum) :
    step (awaiting session front) (.line line) = take (awaiting session front) line := by
  cases front with
  | nil =>
      obtain ⟨hexit, hlisting⟩ := Line.not_request_of_mem (hfirst rfl)
      have hclosed : (Gathering.holding []).isOpen = false := rfl
      simp [step, awaiting, hclosed, hexit, hlisting]
  | cons first front =>
      have hisOpen := Gathering.isOpen_holding (hopen (by simp))
      simp [step, awaiting, hisOpen]

/-- A line after which a form is open is held and answered with nothing. -/
theorem step_staysOpen {front : List Bytes} {line : Bytes}
    (h : Gathering.StaysOpen (front ++ [line])) :
    step (awaiting session front) (.line line) = ([], awaiting session (front ++ [line])) := by
  have hpos := h (front ++ [line]) [] (by simp) (by simp)
  have hfirst : front = [] → 0x28 ∈ line := by
    rintro rfl
    exact Line.mem_of_balance_pos (by simpa using hpos)
  rw [step_line_held session hfirst (h.front front [] (by simp))]
  simp [take, awaiting, Gathering.holding_add_of_open hpos]

theorem steps_staysOpen (shown : List Emission) (done : List Bytes) {lines : List Bytes}
    (h : Gathering.StaysOpen (done ++ lines)) :
    steps shown (awaiting session done) (lines.map .line) =
      (shown.reverse, awaiting session (done ++ lines)) := by
  induction lines generalizing done with
  | nil => simp [steps]
  | cons line lines ih =>
      have hlines : Gathering.StaysOpen (done ++ [line] ++ lines) := by simpa using h
      have hstep := step_staysOpen session hlines.front
      simpa [steps, hstep] using ih (done ++ [line]) hlines

end held

section form

variable {limit : DepthLimit} {c : Cutting} (h : c.IsForm limit) (session : Session)
include h

/-- No line of a form is a request: the first holds a parenthesis, and at the others the form is
open. -/
theorem step_line_eq_take {front back : List Bytes} {line : Bytes}
    (hlines : c.lines = front ++ line :: back) :
    step (awaiting session front) (.line line) = take (awaiting session front) line := by
  apply step_line_held
  · rintro rfl
    obtain ⟨rfl, -⟩ := List.cons.inj hlines
    exact h.mem_first_line
  · intro hfront
    exact h.sum_balance_pos hfront (by simp) hlines

theorem add_open {front back : List Bytes} {line : Bytes} (hback : back ≠ [])
    (hlines : c.lines = front ++ line :: back) :
    (Gathering.holding front).add line = (none, .holding (front ++ [line])) := by
  apply Gathering.holding_add_of_open
  exact h.sum_balance_pos (by simp) hback (by simp [hlines])

theorem add_last {front : List Bytes} {line : Bytes} (hlines : c.lines = front ++ [line]) :
    (Gathering.holding front).add line = (some (Gathering.source c.lines), .empty) := by
  have hsum := h.sum_balance_lines
  rw [hlines] at hsum ⊢
  exact Gathering.holding_add_of_closed (Int.le_of_eq hsum)

theorem step_last {front : List Bytes} {line : Bytes} (hlines : c.lines = front ++ [line]) :
    step (awaiting session front) (.line line) =
      let (_, emissions, session) := session.process (Gathering.source c.lines)
      (emissions.map colour, awaiting session []) := by
  rw [step_line_eq_take h session hlines]
  simp only [take, awaiting, add_last h hlines]
  rfl

/-- Lines that do not complete a form are held and answered with nothing. -/
theorem steps_open (shown : List Emission) (done front : List Bytes) {back : List Bytes}
    (hback : back ≠ []) (hlines : c.lines = done ++ front ++ back) :
    steps shown (awaiting session done) (front.map .line) =
      (shown.reverse, awaiting session (done ++ front)) := by
  apply steps_staysOpen
  intro first rest hsplit hfirst
  have hmore : rest ++ back ≠ [] := by simp [hback]
  exact h.sum_balance_pos hfirst hmore (by rw [hlines, hsplit, List.append_assoc])

/-- The last line of a form has all of it processed. -/
theorem steps_form (shown : List Emission) :
    steps shown (awaiting session []) (c.lines.map .line) =
      let (_, emissions, session) := session.process (Gathering.source c.lines)
      (shown.reverse ++ emissions.map colour, awaiting session []) := by
  have hne : c.lines ≠ [] := by simp [Cutting.lines]
  obtain ⟨front, line, hlines⟩ : ∃ front line, c.lines = front ++ [line] :=
    ⟨_, _, (List.dropLast_concat_getLast hne).symm⟩
  have hopen := steps_open h session shown [] front (by simp) hlines
  have hsplit : c.lines.map Event.line = front.map .line ++ [.line line] := by simp [hlines]
  rw [hsplit, steps_append, hopen, List.nil_append]
  simp [steps, step_last h session hlines]

end form

/-- Whether an interactive session is at a form boundary where a session that runs the sources
directly has the same bindings and has written the same, failures apart. -/
structure Follows (typed : List Emission × State) (direct : Command.Progress) : Prop where
  state : typed.2 = awaiting direct.session []
  shown : ∀ channel, channel ≠ .error →
    Emission.textOn channel typed.1 = Emission.textOn channel (banner :: direct.emissions.reverse)

theorem follows_start (o : Eval.Options) : Follows ([banner], start o) ⟨.new o, 0, []⟩ :=
  ⟨rfl, fun _ _ => rfl⟩

namespace Follows

variable {limit : DepthLimit} {typed : List Emission × State} {direct : Command.Progress}

theorem form (hf : Follows typed direct) {c : Cutting} (h : c.IsForm limit) :
    Follows (steps typed.1.reverse typed.2 (c.lines.map .line))
      (Command.runLines direct [c.source]) := by
  -- What is processed is not the source that was cut, but has its tokens.
  have hprocess := fun channel (hchannel : channel ≠ Channel.error) =>
    Session.process_of_body hchannel h.clear.body_tokens_gathered direct.session
  rw [hf.state, steps_form h]
  constructor
  · have hsession := (hprocess .output (by decide)).1
    simp only [Command.runLines, hsession]
  · intro channel hchannel
    have hshown := hf.shown channel hchannel
    simp only [Command.runLines, List.reverse_append, List.reverse_reverse]
    rw [Emission.textOn_append, textOn_colour hchannel, (hprocess channel hchannel).2, hshown,
      ← Emission.textOn_append, List.cons_append]

theorem forms (hf : Follows typed direct) {forms : List Cutting}
    (h : ∀ c ∈ forms, c.IsForm limit) :
    Follows (steps typed.1.reverse typed.2 ((forms.flatMap (·.lines)).map .line))
      (Command.runLines direct (forms.map (·.source))) := by
  induction forms generalizing typed direct with
  | nil => simpa [steps, Command.runLines] using hf
  | cons c rest ih =>
      have hfirst := hf.form (h c (by simp))
      have hrest := ih hfirst fun c' hc' => h c' (by simp [hc'])
      rw [List.flatMap_cons, List.map_append, steps_append]
      exact hrest

end Follows

/-- The end of the input writes a line feed. -/
theorem Follows.run_eq {o : Eval.Options} {events : List Event} {direct : Command.Progress}
    (h : Follows (steps [banner] (start o) events) direct) :
    run o events = ((steps [banner] (start o) events).1 ++ [⟨.output, utf8 "\n"⟩],
      { awaiting direct.session [] with ended := true }) := by
  unfold run
  rw [steps_append, h.state]
  simp [steps, step, awaiting]

section start

variable {o : Eval.Options} {forms : List Cutting} (h : ∀ c ∈ forms, c.IsForm o.limit)
include h

theorem follows_forms : Follows (steps [banner] (start o) ((forms.flatMap (·.lines)).map .line))
    (Command.runLines ⟨.new o, 0, []⟩ (forms.map (·.source))) :=
  (follows_start o).forms h

/-- After some forms and some lines of another, those lines are held. -/
theorem state_within_form {c : Cutting} (hc : c.IsForm o.limit) {front back : List Bytes}
    (hback : back ≠ []) (hlines : c.lines = front ++ back) :
    (steps [banner] (start o) ((forms.flatMap (·.lines) ++ front).map .line)).2 =
      awaiting (Command.runLines ⟨.new o, 0, []⟩ (forms.map (·.source))).session front := by
  rw [List.map_append, steps_append, (follows_forms h).state,
    steps_open hc _ _ [] front hback hlines]
  rfl

end start

/-- Splitting forms over lines changes nothing. Let each of some sources be accepted, begin with a
parenthesis and be cut into lines at blanks inside its parentheses, with or without a comment after
each line. Typing all the lines shows what running the sources directly shows, between the banner
and the line feed at the end of the input; it leaves the same log and the same bindings. Every line
but the last of its form is held, and none is a request; the last has one source processed, which
has the tokens of the source that was cut. -/
theorem splitting_forms_changes_nothing (o : Eval.Options) (forms : List Cutting)
    (h : ∀ c ∈ forms, c.IsForm o.limit) :
    let typed := run o ((forms.flatMap (·.lines)).map .line)
    let direct := Command.runLines ⟨.new o, 0, []⟩ (forms.map (·.source))
    Emission.textOn .output typed.1 =
      banner.text ++ Emission.textOn .output direct.emissions.reverse ++ utf8 "\n" ∧
    Emission.textOn .log typed.1 = Emission.textOn .log direct.emissions.reverse ∧
    typed.2.session = direct.session ∧
    ∀ done c rest front line back, forms = done ++ c :: rest → c.lines = front ++ line :: back →
      let typedLines := done.flatMap (·.lines) ++ front
      let s := (steps [banner] (start o) (typedLines.map .line)).2
      s.session = (Command.runLines ⟨.new o, 0, []⟩ (done.map (·.source))).session ∧
      step s (.line line) = take s line ∧
      (back ≠ [] → (s.gathering.add line).1 = none) ∧
      (back = [] → ∃ text, (s.gathering.add line).1 = some text ∧
        ∀ number, Token.body (Scan.tokens number text) =
          Token.body (Scan.tokens number c.source)) := by
  intro typed direct
  let lines := forms.flatMap (·.lines)
  have hfollows : Follows (steps [banner] (start o) (lines.map .line)) direct := follows_forms h
  have htyped : typed = _ := hfollows.run_eq
  refine ⟨?_, ?_, ?_, ?_⟩
  · have hbanner : Emission.textOn .output [banner] = banner.text := List.append_nil _
    have hend : Emission.textOn .output [⟨.output, utf8 "\n"⟩] = utf8 "\n" := List.append_nil _
    rw [htyped, Emission.textOn_append, hfollows.shown .output (by decide), Emission.textOn_cons,
      hbanner, hend]
  · rw [htyped, Emission.textOn_append, hfollows.shown .log (by decide)]
    exact List.append_nil _
  · rw [htyped]
    rfl
  · intro done c rest front line back hforms hlines typedLines s
    have hdone : ∀ c' ∈ done, c'.IsForm o.limit := fun c' hc' => h c' (by simp [hforms, hc'])
    have hc : c.IsForm o.limit := h c (by simp [hforms])
    have hs : s = awaiting _ front := state_within_form hdone hc (by simp) hlines
    rw [hs]
    refine ⟨rfl, step_line_eq_take hc _ hlines, ?_, ?_⟩
    · intro hback
      simp [awaiting, add_open hc hback hlines]
    · rintro rfl
      refine ⟨Gathering.source c.lines, ?_, hc.clear.body_tokens_gathered⟩
      simp [awaiting, add_last hc hlines]

/-- A form over two lines with parentheses in a comment, and then one that uses what it bound. -/
theorem splitting_forms_changes_nothing_bound :
    let o : Eval.Options := ⟨true, .ofInt 4⟩
    let bound : Cutting := ⟨⟨utf8 "(setq x ", some (utf8 " ((")⟩, [(0x20, ⟨utf8 "-5)", none⟩)]⟩
    let used : Cutting := ⟨⟨utf8 "(+ x 1) ", some (utf8 " exit")⟩, []⟩
    let lines := [utf8 "(setq x ; ((", utf8 "-5)", utf8 "(+ x 1) ; exit"]
    (∀ c ∈ [bound, used], c.IsForm o.limit) ∧ [bound, used].flatMap (·.lines) = lines ∧
      Emission.textOn .output (run o (lines.map .line)).1 =
        banner.text ++ utf8 "=> -5\n=> -4\n" ++ utf8 "\n" := by
  intro o bound used lines
  have hbound : bound.IsForm o.limit := ⟨⟨_, rfl⟩, by decide, by decide, by decide⟩
  have hused : used.IsForm o.limit := ⟨⟨_, rfl⟩, by decide, by decide, by decide⟩
  have hforms : ∀ c ∈ [bound, used], c.IsForm o.limit := by simp [hbound, hused]
  have hlines : [bound, used].flatMap (·.lines) = lines := by decide
  have hdirect : Emission.textOn .output
      (Command.runLines ⟨.new o, 0, []⟩ [bound.source, used.source]).emissions.reverse =
        utf8 "=> -5\n=> -4\n" := by decide +kernel
  have houtput := (splitting_forms_changes_nothing o [bound, used] hforms).1
  rw [hlines] at houtput
  refine ⟨hforms, hlines, ?_⟩
  rw [houtput, ← hdirect]
  rfl

end LineLisp.Repl
