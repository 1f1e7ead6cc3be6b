import LineLisp.Proofs.Eval.Checked
import LineLisp.Proofs.Eval.Footprint
import LineLisp.Session

/-!
What holds of a session after any number of steps. The root frame stays sound, since whatever is
read from a line is sound and evaluation keeps scopes sound; so no step springs a trap, and the
value of a step that succeeds has no absent part.
-/

namespace LineLisp.Session

open Eval (Checked Result Trap)

/-- A step of a session. -/
inductive Action where
  | answer (line : Bytes)
  | process (line : Bytes)
  | processFile (text : Bytes) (broken : Option Bytes)

def perform (s : Session) : Action → Session
  | .answer line => (s.answer line).2.2
  | .process line => (s.process line).2.2
  | .processFile text broken => (s.processFile text broken).session

section checked

/-- Reads and evaluates a line with the partial steps in the open. No part of what is read may
be absent, since the place of a quoted expression is taken from it. -/
def checkedAnswerAt (s : Session) (number : Nat) (line : Bytes) :
    Except Trap (Result × Session) :=
  match Read.one s.options.limit (Scan.tokens number line) with
  | .ok e =>
      if e.isWhole then do
        let (result, scope) ← Checked.evaluate s.options e s.scope
        .ok (result, { s with scope := scope })
      else .error .absentExpr
  | .error d => .ok (.failure d, s)

/-- Evaluates a line and writes its value, no part of which may be absent. -/
def checkedProcessAt (s : Session) (number : Nat) (line : Bytes) : Except Trap Session := do
  match ← s.checkedAnswerAt number line with
  | (.value v, s) => if v.isWhole then .ok s else .error .absentValue
  | (_, s) => .ok s

/-- Processes the lines of a file, the first under the given number. -/
def checkedProcessFrom (s : Session) (number : Nat) : List Bytes → Except Trap Session
  | [] => .ok s
  | line :: rest =>
      if Line.isBlank line then s.checkedProcessFrom (number + 1) rest
      else do
        let s ← s.checkedProcessAt number line
        s.checkedProcessFrom (number + 1) rest

def checkedPerform (s : Session) : Action → Except Trap Session
  | .answer line => do
      let number := s.lineCount + 1
      let (_, s) ← { s with lineCount := number }.checkedAnswerAt number line
      .ok s
  | .process line =>
      if Line.isBlank line then .ok s
      else
        let number := s.lineCount + 1
        { s with lineCount := number }.checkedProcessAt number line
  | .processFile text broken => s.checkedProcessFrom 1 (Line.read text broken).lines

end checked

/-- The invariant of sessions under given options. -/
structure Sound (o : Eval.Options) (s : Session) : Prop where
  options : s.options = o
  root : s.scope.outer = []
  scope : s.scope.Sound

variable {o : Eval.Options} {s : Session}

theorem new_sound (o : Eval.Options) : (Session.new o).Sound o :=
  ⟨rfl, rfl, Scope.Each.root .empty⟩

theorem Sound.withLineCount (h : s.Sound o) (n : Nat) : Sound o { s with lineCount := n } :=
  ⟨h.options, h.root, h.scope⟩

/-- What reading and evaluating a line does to a sound session. -/
theorem Sound.answerAt (h : s.Sound o) (number : Nat) (line : Bytes) :
    (s.answerAt number line).2.Sound o ∧
      (∀ v, (s.answerAt number line).1 = .value v → v.Sound) ∧
      ((s.answerAt number line).1 = .unfinished → o.limit = none) ∧
      s.checkedAnswerAt number line = .ok (s.answerAt number line) := by
  unfold Session.answerAt checkedAnswerAt
  cases hread : Read.one s.options.limit (Scan.tokens number line) with
  | error d => exact ⟨h, by simp, by simp, rfl⟩
  | ok e =>
      have hline : Read.one s.options.limit (Scan.tokensOf false number line) = .ok e := hread
      have he : e.Sound := Read.one_sound hline
      have hsound := Eval.evaluate_sound s.options he h.scope
      have hprint := Eval.evaluate_footprint s.options e s.scope
      refine ⟨⟨h.options, hprint.outer.trans h.root, hsound.1⟩, hsound.2.1, ?_, ?_⟩
      · rw [← h.options]
        exact hsound.2.2
      · simp only [he.whole, if_true, Eval.Checked.evaluate_eq s.options he.whole h.scope.whole]
        rfl

theorem Sound.checkedProcessAt (h : s.Sound o) (number : Nat) (line : Bytes) :
    s.checkedProcessAt number line = .ok (s.answerAt number line).2 := by
  obtain ⟨-, hvalue, -, hchecked⟩ := h.answerAt number line
  unfold Session.checkedProcessAt
  rw [hchecked]
  rcases hanswer : s.answerAt number line with ⟨result, s'⟩
  cases result with
  | value v =>
      have hv : v.isWhole := (hvalue v (by rw [hanswer])).whole
      simp [bind, Except.bind, hv]
  | failure d => rfl
  | unfinished => rfl

/-- The lines of a file change a session one after the other. -/
theorem Sound.runFrom {r : FileRun} (h : r.session.Sound o) (number : Nat) (lines : List Bytes) :
    (r.runFrom number lines).session.Sound o ∧
      r.session.checkedProcessFrom number lines = .ok (r.runFrom number lines).session := by
  induction lines generalizing r number with
  | nil => exact ⟨h, rfl⟩
  | cons line rest ih =>
      unfold FileRun.runFrom checkedProcessFrom FileRun.step
      by_cases hblank : Line.isBlank line
      · simp only [hblank, if_true]
        exact ih h (number + 1)
      · have hnext : (r.session.processAt number line).2.2.Sound o := (h.answerAt number line).1
        simp only [hblank]
        rw [h.checkedProcessAt number line]
        exact ih hnext (number + 1)

/-- Every step keeps the invariant and springs no trap. -/
theorem Sound.perform (h : s.Sound o) (action : Action) :
    (s.perform action).Sound o ∧ s.checkedPerform action = .ok (s.perform action) := by
  have hnext := h.withLineCount (s.lineCount + 1)
  cases action with
  | answer line =>
      obtain ⟨hsound, -, -, hchecked⟩ := hnext.answerAt (s.lineCount + 1) line
      refine ⟨hsound, ?_⟩
      unfold checkedPerform
      simp only [hchecked]
      rfl
  | process line =>
      unfold Session.perform Session.process checkedPerform
      by_cases hblank : Line.isBlank line
      · simp only [hblank, if_true]
        exact ⟨h, trivial⟩
      · simp only [hblank]
        exact ⟨(hnext.answerAt (s.lineCount + 1) line).1,
          hnext.checkedProcessAt (s.lineCount + 1) line⟩
  | processFile text broken =>
      exact Sound.runFrom (r := ⟨0, [], s⟩) h 1 (Line.read text broken).lines

theorem Sound.performAll (h : s.Sound o) (actions : List Action) :
    (actions.foldl Session.perform s).Sound o := by
  induction actions generalizing s with
  | nil => exact h
  | cons action rest ih => exact ih (h.perform action).1

/-- After any steps of a new session under any options: nothing in the root frame is absent, a
function is stored under its own name with a body, and all names, of variables, functions and
parameters and in values and bodies, are single tokens and no integers. No further step springs a
trap, the value of a line that succeeds is whole, and under a limit every evaluation ends. -/
theorem root_frame_stays_sound (o : Eval.Options) (actions : List Action) :
    let s := actions.foldl Session.perform (.new o)
    s.scope = .root s.scope.frame ∧
    (∀ x v, s.scope.frame.vars.get? x = some v →
      v.isWhole ∧ ∀ name ∈ x :: v.names, Scan.IsName name) ∧
    (∀ x f, s.scope.frame.funcs.get? x = some f →
      f.name = x ∧ f.body ≠ [] ∧ (∀ e ∈ f.body, e.isWhole) ∧
        ∀ name ∈ x :: (f.params ++ f.body.flatMap Expr.names), Scan.IsName name) ∧
    (∀ action, s.checkedPerform action = .ok (s.perform action)) ∧
    (∀ line v, (s.answer line).1 = .value v → v.isWhole) ∧
    (o.limit.isSome → ∀ line, (s.answer line).1 ≠ .unfinished) := by
  intro s
  have hsound : s.Sound o := (new_sound o).performAll actions
  have hframe : s.scope.frame.Sound := hsound.scope _ (List.mem_cons_self ..)
  have hanswer := fun line =>
    (hsound.withLineCount (s.lineCount + 1)).answerAt (s.lineCount + 1) line
  refine ⟨?_, ?_, ?_, fun action => (hsound.perform action).2, ?_, ?_⟩
  · exact congrArg (Scope.mk s.scope.frame) hsound.root
  · intro x v hv
    obtain ⟨hx, hvalue⟩ := hframe.vars x v (Bindings.mem_entries_of_get? hv)
    exact ⟨hvalue.whole, List.forall_mem_cons.mpr ⟨hx, hvalue.names⟩⟩
  · intro x f hf
    obtain ⟨hx, hname, hfunction⟩ := hframe.funcs x f (Bindings.mem_entries_of_get? hf)
    refine ⟨hname, hfunction.nonempty, fun e he => (hfunction.body e he).whole, ?_⟩
    intro name hmem
    rcases List.mem_cons.mp hmem with rfl | hmem
    · exact hx
    · rcases List.mem_append.mp hmem with hparam | hbody
      · exact hfunction.params name hparam
      · obtain ⟨e, he, hin⟩ := List.mem_flatMap.mp hbody
        exact (hfunction.body e he).names name hin
  · intro line v hv
    exact ((hanswer line).2.1 v hv).whole
  · intro hlimit line hunfinished
    rw [(hanswer line).2.2.1 hunfinished] at hlimit
    cases hlimit

/-- After a line that fails inside a call, the lines of a file define the function again and bind
the variable. -/
theorem root_frame_stays_sound_redefined :
    let s := [Action.answer (utf8 "(defun f (x) (defun f () '()) (/ x 0))"),
      .process (utf8 "(setq y (list (f 1) f))"),
      .processFile (utf8 "; none\n(defun f () 'a)\n(setq y (list (f) f +))") none].foldl
        Session.perform (.new ⟨false, some 9⟩)
    (∃ v, s.scope.frame.vars.get? (utf8 "y") = some v ∧ v.names = [utf8 "a", utf8 "f", utf8 "+"] ∧
      v.isWhole ∧ ∀ name ∈ utf8 "y" :: v.names, Scan.IsName name) ∧
    s.checkedPerform (.answer (utf8 "(f 1)")) = .ok (s.perform (.answer (utf8 "(f 1)"))) := by
  intro s
  obtain ⟨-, hvars, -, hsteps, -⟩ := root_frame_stays_sound ⟨false, some 9⟩ _
  have hvalue : (s.scope.frame.vars.get? (utf8 "y")).map Value.names =
      some [utf8 "a", utf8 "f", utf8 "+"] := by decide +kernel
  obtain ⟨v, hv, hnames⟩ := Option.map_eq_some_iff.mp hvalue
  exact ⟨⟨v, hv, hnames, hvars _ v hv⟩, hsteps _⟩

end LineLisp.Session
