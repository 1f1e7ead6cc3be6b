import LineLisp.Command.Listing
import LineLisp.Command.Running
import LineLisp.Proofs.Eval.Depth
import LineLisp.Proofs.Eval.Nesting
import LineLisp.Proofs.Session.Invariant

/-!
Transcripts of sessions: the lines that are evaluated, each with its number and its result. Running
a file and running lines one by one differ in how they number lines and in nothing else: both
evaluate the lines that hold tokens, in order, and report each.

A line that is accepted is no higher than the depth limit, since reading and evaluation have the
same limit. So whatever in a transcript exceeds the limit in spite of that does so inside a call.
-/

namespace LineLisp.Session

open Eval (Result)

/-- A line that was evaluated. -/
structure Entry where
  line : Bytes
  number : Nat
  result : Result

namespace Entry

/-- What is emitted for a line that is run: the record for the log and the report. -/
def emissions (entry : Entry) : List Emission :=
  record entry.number entry.line entry.result :: report entry.number entry.line entry.result

def failed (entry : Entry) : Bool :=
  !entry.result.isValue

end Entry

/-- Evaluates numbered lines one after the other. -/
def entries (s : Session) : List (Bytes × Nat) → List Entry
  | [] => []
  | (line, number) :: rest =>
      let (result, s) := s.answerAt number line
      ⟨line, number, result⟩ :: s.entries rest

/-- The session after numbered lines were evaluated. -/
def after (s : Session) : List (Bytes × Nat) → Session
  | [] => s
  | (line, number) :: rest => (s.answerAt number line).2.after rest

/-- The lines of a file that are evaluated: blank ones are numbered, but left out. -/
def filed (lines : List Bytes) : List (Bytes × Nat) :=
  (Command.numbered lines).filter fun (line, _) => !Line.isBlank line

/-- The lines that are evaluated one by one after some others: blank ones have no number. -/
def typed (before : Nat) (lines : List Bytes) : List (Bytes × Nat) :=
  (lines.filter fun line => !Line.isBlank line).zipIdx (before + 1)

/-- The lines that a step of a session evaluates. -/
def rows (s : Session) : Action → List (Bytes × Nat)
  | .answer line => [(line, s.lineCount + 1)]
  | .process line => typed s.lineCount [line]
  | .processFile text broken => filed (Line.read text broken).lines

section lineCount

variable (s : Session) (n : Nat)

/-- The count of lines has no part in the evaluation of a line. -/
theorem answerAt_withLineCount (number : Nat) (line : Bytes) :
    { s with lineCount := n }.answerAt number line =
      ((s.answerAt number line).1, { (s.answerAt number line).2 with lineCount := n }) := by
  unfold answerAt
  dsimp only
  cases Read.one s.options.limit (Scan.tokens number line) with
  | ok e => rfl
  | error d => rfl

theorem entries_withLineCount (rows : List (Bytes × Nat)) :
    { s with lineCount := n }.entries rows = s.entries rows := by
  induction rows generalizing s with
  | nil => rfl
  | cons row rest ih => simp only [entries, answerAt_withLineCount, ih]

theorem after_withLineCount (rows : List (Bytes × Nat)) :
    { s with lineCount := n }.after rows = { s.after rows with lineCount := n } := by
  induction rows generalizing s with
  | nil => rfl
  | cons row rest ih => simp only [after, answerAt_withLineCount, ih]

end lineCount

theorem answerAt_options (s : Session) (number : Nat) (line : Bytes) :
    (s.answerAt number line).2.options = s.options := by
  unfold answerAt
  cases Read.one s.options.limit (Scan.tokens number line) with
  | ok e => rfl
  | error d => rfl

/-- An entry is what a session with the same options makes of its line. -/
theorem exists_of_mem_entries {s : Session} {rows : List (Bytes × Nat)} {entry : Entry}
    (h : entry ∈ s.entries rows) :
    ∃ t : Session, t.options = s.options ∧
      (t.answerAt entry.number entry.line).1 = entry.result := by
  induction rows generalizing s with
  | nil => cases h
  | cons row rest ih =>
      rcases List.mem_cons.mp h with rfl | hrest
      · exact ⟨s, rfl, rfl⟩
      · obtain ⟨t, hoptions, hresult⟩ := ih hrest
        exact ⟨t, hoptions.trans (s.answerAt_options row.2 row.1), hresult⟩

/-- Under a limit every evaluation of a line is finished. -/
theorem result_ne_unfinished {s : Session} (hlimit : s.options.limit ≠ none)
    {rows : List (Bytes × Nat)} {entry : Entry} (h : entry ∈ s.entries rows) :
    entry.result ≠ .unfinished := by
  obtain ⟨t, hoptions, hresult⟩ := exists_of_mem_entries h
  rw [← hoptions] at hlimit
  rw [← hresult, answerAt]
  cases Read.one t.options.limit (Scan.tokens entry.number entry.line) with
  | ok e => exact Eval.evaluate_ne_unfinished hlimit e t.scope
  | error d => simp

section runs

/-- A failing line adds one to the failures. -/
theorem countP_failed_cons (n : Nat) (entry : Entry) (rest : List Entry) :
    (if entry.result.isValue then n else n + 1) + rest.countP Entry.failed =
      n + (entry :: rest).countP Entry.failed := by
  rw [List.countP_cons, Entry.failed]
  cases entry.result.isValue
  · simp
    omega
  · simp

/-- Running the lines of a file. -/
theorem runFrom_eq (r : FileRun) (number : Nat) (lines : List Bytes) :
    let rows := (lines.zipIdx number).filter fun (line, _) => !Line.isBlank line
    r.runFrom number lines =
      ⟨r.failures + (r.session.entries rows).countP Entry.failed,
        ((r.session.entries rows).flatMap Entry.emissions).reverse ++ r.emissions,
        r.session.after rows⟩ := by
  induction lines generalizing r number with
  | nil => simp [FileRun.runFrom, entries, after]
  | cons line rest ih =>
      rw [FileRun.runFrom, FileRun.step, List.zipIdx_cons]
      cases hblank : Line.isBlank line with
      | true =>
          rw [List.filter_cons_of_neg (by simp [hblank])]
          exact ih r (number + 1)
      | false =>
          rw [List.filter_cons_of_pos (by simp [hblank])]
          simp only [Bool.false_eq_true, if_false, ih, processAt, FileRun.mk.injEq]
          refine ⟨countP_failed_cons r.failures ⟨line, number, _⟩ _, ?_, rfl⟩
          simp [entries, Entry.emissions]

/-- Running lines one by one. -/
theorem runLines_eq (p : Command.Progress) (lines : List Bytes) :
    let rows := typed p.session.lineCount lines
    Command.runLines p lines =
      ⟨{ p.session.after rows with lineCount := p.session.lineCount + rows.length },
        p.failures + (p.session.entries rows).countP Entry.failed,
        ((p.session.entries rows).flatMap Entry.emissions).reverse ++ p.emissions⟩ := by
  induction lines generalizing p with
  | nil => simp [Command.runLines, typed, entries, after]
  | cons line rest ih =>
      rw [Command.runLines, process]
      cases hblank : Line.isBlank line with
      | true =>
          have hrows : typed p.session.lineCount (line :: rest) =
              typed p.session.lineCount rest := by
            simp [typed, hblank]
          rw [hrows]
          exact ih p
      | false =>
          have hrows : typed p.session.lineCount (line :: rest) =
              (line, p.session.lineCount + 1) :: typed (p.session.lineCount + 1) rest := by
            simp [typed, hblank]
          simp only [hrows, Bool.false_eq_true, if_false, processAt, ih, answerAt_withLineCount,
            entries_withLineCount, after_withLineCount, Command.Progress.mk.injEq]
          refine ⟨?_, countP_failed_cons p.failures ⟨line, _, _⟩ _, ?_⟩
          · simp only [after, List.length_cons]
            congr 1
            omega
          · simp [entries, Entry.emissions]

/-- What a step does by the lines that it evaluates: an answered line has the result of its only
entry, and all else is reported entry by entry. -/
theorem answer_eq (s : Session) (line : Bytes) :
    s.entries (s.rows (.answer line)) = [⟨line, s.lineCount + 1, (s.answer line).1⟩] := by
  simp only [rows, entries, answer, answerAt_withLineCount]

theorem process_eq (s : Session) (line : Bytes) :
    let entries := s.entries (s.rows (.process line))
    s.process line = (!entries.any Entry.failed, entries.flatMap Entry.emissions,
      { s.after (s.rows (.process line)) with lineCount := s.lineCount + entries.length }) := by
  unfold process
  cases hblank : Line.isBlank line with
  | true => simp [rows, typed, hblank, entries, after]
  | false =>
      simp [rows, typed, hblank, entries, after, processAt, answerAt_withLineCount, Entry.failed,
        Entry.emissions]

theorem processFile_eq (s : Session) (text : Bytes) (broken : Option Bytes) :
    let entries := s.entries (s.rows (.processFile text broken))
    (s.processFile text broken).failures = entries.countP Entry.failed ∧
      (s.processFile text broken).emissions = entries.flatMap Entry.emissions ∧
      (s.processFile text broken).session = s.after (s.rows (.processFile text broken)) := by
  have hrun := runFrom_eq ⟨0, [], s⟩ 1 (Line.read text broken).lines
  unfold processFile
  simp only [hrun]
  exact ⟨Nat.zero_add _, by simp [rows, filed, Command.numbered], rfl⟩

end runs

/-- A line that is accepted exceeds the depth limit only inside a call of a function. -/
theorem answerAt_tooDeep {s : Session} {number : Nat} {line : Bytes} {d : Diagnostic}
    (hd : (s.answerAt number line).1 = .failure d) (hkind : d.kind = .stackLimitExceeded) {e : Expr}
    (he : Read.one s.options.limit (Scan.tokens number line) = .ok e) :
    d.trace ≠ [] ∧ ∃ n, s.options.limit = some n ∧
      d.message = utf8 "evaluation depth exceeds " ++ Decimal.ofNat n := by
  obtain ⟨-, -, -, hheight⟩ := Read.one_eq_ok_iff.mp he
  simp only [answerAt, he] at hd
  exact Eval.evaluate_tooDeep_trace hheight hd hkind

/-- Whatever step a session takes after any others, a line that is accepted does not exceed the
depth limit by its own nesting: a diagnostic of that kind has a trace, since it arises inside a call
of a function. -/
theorem too_deep_only_inside_calls (o : Eval.Options) (actions : List Action) (action : Action) :
    let s := actions.foldl Session.perform (.new o)
    ∀ entry ∈ s.entries (s.rows action), ∀ e d,
      Read.one o.limit (Scan.tokens entry.number entry.line) = .ok e →
      entry.result = .failure d → d.kind = .stackLimitExceeded →
      d.trace ≠ [] ∧ ∃ n, o.limit = some n ∧
        d.message = utf8 "evaluation depth exceeds " ++ Decimal.ofNat n := by
  intro s entry hentry e d he hd hkind
  have hoptions : s.options = o := ((new_sound o).performAll actions).options
  obtain ⟨t, ht, hresult⟩ := exists_of_mem_entries hentry
  rw [← hoptions, ← ht] at he ⊢
  exact answerAt_tooDeep (hresult.trans hd) hkind he

/-- A line that is nested as deeply as the limit allows. Its inner call comes to a level beyond. -/
theorem too_deep_only_inside_calls_recursion :
    let s := [Action.process (utf8 "(defun f (x) (f x))")].foldl Session.perform
      (.new ⟨false, some 3⟩)
    let line := utf8 "(f (f 1))"
    ∃ e d, Read.one (some 3) (Scan.tokens 2 line) = .ok e ∧ e.height = 3 ∧
      ⟨line, 2, .failure d⟩ ∈ s.entries (s.rows (.processFile (utf8 "; none\n(f (f 1))") none)) ∧
      d.kind = .stackLimitExceeded ∧ d.trace ≠ [] := by
  intro s line
  obtain ⟨e, he, hheight⟩ : ∃ e, Read.one (some 3) (Scan.tokens 2 line) = .ok e ∧ e.height = 3 :=
    ⟨_, rfl, rfl⟩
  obtain ⟨d, hd, hkind⟩ : ∃ d,
      s.entries (s.rows (.processFile (utf8 "; none\n(f (f 1))") none)) = [⟨line, 2, .failure d⟩] ∧
        d.kind = .stackLimitExceeded := ⟨_, rfl, rfl⟩
  have hentry : ⟨line, 2, .failure d⟩ ∈
      s.entries (s.rows (.processFile (utf8 "; none\n(f (f 1))") none)) := by simp [hd]
  obtain ⟨htrace, -⟩ := too_deep_only_inside_calls ⟨false, some 3⟩ _ _ _ hentry e d he rfl hkind
  exact ⟨e, d, he, hheight, hentry, hkind, htrace⟩

end LineLisp.Session
