import LineLisp.Proofs.Eval.Interpreter
import LineLisp.Proofs.Session.Transcript

/-!
Sessions with an interpreter of their own. Between two lines the interpreter is at rest, as deep as
at the start and without calls, whatever the lines came to. So it does not matter whether a session
goes on with the interpreter that it has or with a new one, before any of its lines.
-/

namespace LineLisp.Session

open Eval (Interpreter Options Result)

section transcripts

/-- All lines that a session evaluates in the course of some steps, with their numbers. -/
def allRows (s : Session) : List Action → List (Bytes × Nat)
  | [] => []
  | action :: rest => s.rows action ++ (s.perform action).allRows rest

/-- The lines that each of some steps evaluates, with their results. -/
def transcript (s : Session) : List Action → List Entry
  | [] => []
  | action :: rest => s.entries (s.rows action) ++ (s.perform action).transcript rest

theorem entries_append (s : Session) (first second : List (Bytes × Nat)) :
    s.entries (first ++ second) = s.entries first ++ (s.after first).entries second := by
  induction first generalizing s with
  | nil => rfl
  | cons row rest ih => simp only [List.cons_append, entries, after, ih]

theorem after_append (s : Session) (first second : List (Bytes × Nat)) :
    s.after (first ++ second) = (s.after first).after second := by
  induction first generalizing s with
  | nil => rfl
  | cons row rest ih => simp only [List.cons_append, after, ih]

/-- A step does to a session what its lines do, up to the count of lines. -/
theorem exists_perform_eq (s : Session) (action : Action) :
    ∃ n, s.perform action = { s.after (s.rows action) with lineCount := n } := by
  cases action with
  | answer line =>
      refine ⟨s.lineCount + 1, ?_⟩
      simp only [perform, answer, rows, after, answerAt_withLineCount]
  | process line =>
      refine ⟨s.lineCount + (s.entries (s.rows (.process line))).length, ?_⟩
      rw [perform, process_eq]
  | processFile text broken =>
      refine ⟨(s.after (s.rows (.processFile text broken))).lineCount, ?_⟩
      rw [perform, (processFile_eq s text broken).2.2]

theorem perform_rows (s : Session) (action : Action) (rows : List (Bytes × Nat)) :
    (s.perform action).entries rows = (s.after (s.rows action)).entries rows ∧
      ((s.perform action).after rows).scope = ((s.after (s.rows action)).after rows).scope := by
  obtain ⟨n, hperform⟩ := s.exists_perform_eq action
  have hscope := congrArg scope (after_withLineCount (s.after (s.rows action)) n rows)
  rw [hperform]
  exact ⟨entries_withLineCount .., hscope⟩

/-- The lines of all steps have the results that they have step by step, and come to the same
scope. -/
theorem allRows_eq (s : Session) (actions : List Action) :
    s.entries (s.allRows actions) = s.transcript actions ∧
      (s.after (s.allRows actions)).scope = (actions.foldl perform s).scope := by
  induction actions generalizing s with
  | nil => exact ⟨rfl, rfl⟩
  | cons action rest ih =>
      obtain ⟨hentries, hscope⟩ := ih (s.perform action)
      obtain ⟨hlater, hend⟩ := s.perform_rows action ((s.perform action).allRows rest)
      rw [allRows, transcript, entries_append, after_append, ← hlater, ← hend]
      exact ⟨by rw [hentries], hscope⟩

end transcripts

/-- A session that evaluates its lines with an interpreter. -/
structure Hosted where
  session : Session
  interpreter : Interpreter

namespace Hosted

/-- Goes on with a new interpreter over the same root frame. -/
def renew (h : Hosted) : Hosted :=
  { h with interpreter := .new }

def answerAt (h : Hosted) (number : Nat) (line : Bytes) : Result × Hosted :=
  match Read.one h.session.options.limit (Scan.tokens number line) with
  | .ok e =>
      let (result, interpreter, scope) :=
        h.interpreter.evaluate h.session.options e h.session.scope
      (result, ⟨{ h.session with scope := scope }, interpreter⟩)
  | .error d => (.failure d, h)

/-- Evaluates numbered lines one after the other, each after the interpreter was renewed if the
next one of `renewed` says so. -/
def run (renewed : Nat → Bool) (h : Hosted) : List (Bytes × Nat) → List Entry × Hosted
  | [] => ([], h)
  | (line, number) :: rest =>
      let h := if renewed 0 then h.renew else h
      let (result, h) := h.answerAt number line
      let (entries, h) := h.run (fun k => renewed (k + 1)) rest
      (⟨line, number, result⟩ :: entries, h)

/-- Whether no evaluation and no call is going on. -/
structure AtRest (h : Hosted) : Prop where
  depth : h.interpreter.depth = 0
  calls : h.interpreter.calls = []

theorem renew_atRest (h : Hosted) : h.renew.AtRest :=
  ⟨rfl, rfl⟩

/-- A line has the result that it has without an interpreter, which is at rest again then. -/
theorem AtRest.answerAt {h : Hosted} (hrest : h.AtRest) (number : Nat) (line : Bytes) :
    (h.answerAt number line).1 = (h.session.answerAt number line).1 ∧
      (h.answerAt number line).2.session = (h.session.answerAt number line).2 ∧
      (h.answerAt number line).2.AtRest := by
  obtain ⟨session, depth, calls, log⟩ := h
  obtain ⟨rfl, rfl⟩ := hrest
  unfold Hosted.answerAt Session.answerAt
  cases Read.one session.options.limit (Scan.tokens number line) with
  | error d => exact ⟨rfl, rfl, rfl, rfl⟩
  | ok e =>
      obtain ⟨log', heq⟩ := Interpreter.evaluate_eq session.options e log session.scope
      simp only [heq]
      exact ⟨rfl, rfl, rfl, rfl⟩

/-- Lines have the results that they have without an interpreter, renewed or not. -/
theorem AtRest.run_eq {h : Hosted} (hrest : h.AtRest) (renewed : Nat → Bool)
    (rows : List (Bytes × Nat)) :
    (h.run renewed rows).1 = h.session.entries rows ∧
      (h.run renewed rows).2.session = h.session.after rows := by
  induction rows generalizing h renewed with
  | nil => exact ⟨rfl, rfl⟩
  | cons row rest ih =>
      obtain ⟨line, number⟩ := row
      -- Renewed or not, it is the same session with an interpreter at rest.
      let next := if renewed 0 then h.renew else h
      have hnext : next.AtRest ∧ next.session = h.session := by
        cases hflag : renewed 0 with
        | true => simpa [next, hflag] using ⟨h.renew_atRest, rfl⟩
        | false => simp [next, hflag, hrest]
      obtain ⟨hresult, hsession, hafter⟩ := hnext.1.answerAt number line
      rw [hnext.2] at hresult hsession
      obtain ⟨hentries, hend⟩ := ih hafter fun k => renewed (k + 1)
      rw [hsession] at hentries hend
      constructor
      · change ⟨line, number, (next.answerAt number line).1⟩ ::
          ((next.answerAt number line).2.run _ rest).1 = _
        rw [hresult, hentries]
        rfl
      · exact hend

end Hosted

/-- An interpreter keeps nothing from one evaluation to the next, and its list of calls is seen in
traces only. It comes to what the evaluator comes to that is told its depth and its calls. When an
evaluation returns, with a value or a failure, the interpreter has its depth and its calls again;
whether it returns, its value, the scope that it leaves and the fault and place of its failure do not
depend on the calls; and the trace of its failure is made of the functions that it had entered and
not left when the failure was raised, which do not depend on the calls either, and of the calls
behind them. So every session has the same results and comes to the same scope whether or not its
interpreter is replaced by a new one before any of its lines. -/
theorem interpreters_keep_nothing :
    (∀ (o : Options) (fuel : Nat) (e : Expr) (i : Interpreter) (s : Scope),
      Eval.Task.outcome (Interpreter.eval o fuel e i s) =
        Eval.eval o fuel i.depth i.calls.reverse e s) ∧
    (∀ (o : Options) (fuel : Nat) (e : Expr) (depth : Nat) (s : Scope),
      (∀ calls log, Interpreter.eval o fuel e ⟨depth, calls, log⟩ s = none) ∨
      (∃ v s' events, ∀ calls log, Interpreter.eval o fuel e ⟨depth, calls, log⟩ s =
        some (.value v, ⟨depth, calls, log ++ events⟩, s')) ∨
      ∃ (fault : Eval.Fault) (span : Span) (s' : Scope) (before : List Eval.Event),
        .raised ∉ before ∧ ∀ calls log,
        let failure : Eval.Failure := ⟨fault, span, Eval.Event.opened before ++ calls.reverse⟩
        Interpreter.eval o fuel e ⟨depth, calls, log⟩ s =
          some (.raised failure, ⟨depth, calls, log ++ Eval.Event.failing before⟩, s') ∧
        failure.diagnostic = ⟨fault.kind, fault.message, span, fault.hint,
          Trace.shorten (Eval.Event.opened before ++ calls.reverse)⟩) ∧
    ∀ (o : Options) (actions : List Action) (renewed : Nat → Bool),
      let s := Session.new o
      let (entries, h) := (Hosted.mk s .new).run renewed (s.allRows actions)
      entries = s.transcript actions ∧ h.session.scope = (actions.foldl perform s).scope := by
  refine ⟨Interpreter.outcome_eval, ?_, ?_⟩
  · intro o fuel e depth s
    rcases Interpreter.eval_cases o fuel e depth s with hnone | hvalue |
      ⟨fault, span, s', before, hquiet, hraised⟩
    · exact .inl hnone
    · exact .inr (.inl hvalue)
    · refine .inr (.inr ⟨fault, span, s', before, hquiet, fun calls log => ?_⟩)
      exact ⟨hraised calls log, rfl⟩
  · intro o actions renewed s
    have hrest : (Hosted.mk s .new).AtRest := ⟨rfl, rfl⟩
    obtain ⟨hentries, hsession⟩ := hrest.run_eq renewed (s.allRows actions)
    obtain ⟨htranscript, hscope⟩ := s.allRows_eq actions
    exact ⟨hentries.trans htranscript, (congrArg Session.scope hsession).trans hscope⟩

end LineLisp.Session
