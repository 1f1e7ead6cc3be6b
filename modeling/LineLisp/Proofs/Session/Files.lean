import LineLisp.Proofs.Eval.Places
import LineLisp.Proofs.Expr.Renumbering
import LineLisp.Proofs.Line.Split
import LineLisp.Proofs.Session.Diagnostics
import LineLisp.Proofs.Session.Processing
import LineLisp.Proofs.Session.Transcript

/-!
Files and lines that are run one by one. The two ways give the lines other numbers, and numbers stay
in the functions that the lines define. Nothing but places depends on them: two sessions that start
out alike but for places answer alike but for places, line by line, so a file shows what its lines
show and leaves the same bindings behind. Columns are the same too, except inside calls of functions
that the sessions had to begin with: there each session points into the body that it holds.
-/

namespace LineLisp

namespace Eval

namespace View

/-- The view in which places are the same that are in the same columns. In bodies, the places of the
same part of a function that two scopes hold are the same too. -/
def columns (s t : Scope) : View where
  line := Span.SameColumns
  body span span' := span.SameColumns span' ∨ s.Counterparts t span span'
  refl _ := rfl
  coarser _ _ := .inl

theorem columns_sameUpTo {s t : Scope} (h : s.unplaced = t.unplaced) :
    s.SameUpTo (columns s t).body t :=
  .of_unplaced h fun _ _ => .inr

/-- A trace shows whether there are calls. -/
theorem under_shorten (view : View) (calls : List Bytes) :
    view.under (Trace.shorten calls) = view.under calls := by
  cases calls with
  | nil => rfl
  | cons name rest =>
      have hne := Trace.shorten_ne_nil (List.cons_ne_nil name rest)
      obtain ⟨entry, more, hshorten⟩ := List.exists_cons_of_ne_nil hne
      rw [hshorten]
      rfl

end View

/-- Whether a view does not tell results apart, hints aside. -/
def Result.SeenAlike (view : View) : Result → Result → Prop
  | .value v, .value v' => v = v'
  | .failure d, .failure d' => d.kind = d'.kind ∧ d.message = d'.message ∧ d.trace = d'.trace ∧
      view.under d.trace d.span d'.span
  | .unfinished, .unfinished => True
  | _, _ => False

theorem evaluate_through (view : View) (o : Options) {e e' : Expr} (he : e.SameUpTo view.line e')
    {s t : Scope} (hst : s.SameUpTo view.body t) :
    (evaluate o e s).1.SeenAlike view (evaluate o e' t).1 ∧
      (evaluate o e s).2.SameUpTo view.body (evaluate o e' t).2 := by
  obtain ⟨hresult, hscope⟩ :=
    evaluate_matches (through_exact view) (eval_through view o o.fuel 0 [] he) hst
  refine ⟨?_, hscope⟩
  cases hfirst : (evaluate o e s).1 with
  | value v =>
      rw [hfirst] at hresult
      rw [hresult]
      rfl
  | failure d =>
      rw [hfirst] at hresult
      obtain ⟨failure, failure', rfl, hsecond, hsame, hplace⟩ := hresult
      rw [hsecond]
      refine ⟨hsame.kind, hsame.message, congrArg Trace.shorten hsame.calls, ?_⟩
      rw [Failure.diagnostic, View.under_shorten]
      exact hplace
  | unfinished =>
      rw [hfirst] at hresult
      rw [hresult]
      trivial

end Eval

namespace Session

open Eval (View)

section through

variable {view : View} (hline : view.line = Span.SameColumns) {s t : Session}
variable (hoptions : s.options = t.options) (hscope : s.scope.SameUpTo view.body t.scope)
include hline hoptions hscope

/-- A line is answered alike under any two numbers. -/
theorem answerAt_through (number number' : Nat) (line : Bytes) :
    (s.answerAt number line).1.SeenAlike view (t.answerAt number' line).1 ∧
      (s.answerAt number line).2.scope.SameUpTo view.body (t.answerAt number' line).2.scope := by
  unfold answerAt
  rw [← hoptions]
  rcases Read.one_renumbered s.options.limit number number' line with
    ⟨e, e', he, he', hsame⟩ | ⟨d, d', hd, hd', hkind, hmessage, hspan, htrace⟩
  · rw [he, he']
    unfold evaluate
    rw [← hoptions]
    apply Eval.evaluate_through view s.options _ hscope
    rw [hline]
    exact hsame
  · obtain ⟨hnone, -⟩ := Read.one_error_onLine hd
    rw [hd, hd']
    refine ⟨⟨hkind, hmessage, htrace, ?_⟩, hscope⟩
    rw [hnone, View.under, hline]
    exact hspan

theorem entries_through {rows rows' : List (Bytes × Nat)}
    (hrows : List.Forall₂ (fun row row' => row.1 = row'.1) rows rows') :
    List.Forall₂ (fun entry entry' => entry.line = entry'.line ∧
        entry.result.SeenAlike view entry'.result) (s.entries rows) (t.entries rows') ∧
      (s.after rows).scope.SameUpTo view.body (t.after rows').scope := by
  induction hrows generalizing s t with
  | nil => exact ⟨.nil, hscope⟩
  | @cons row row' rest rest' hrow _ ih =>
      obtain ⟨line, number⟩ := row
      obtain ⟨line', number'⟩ := row'
      obtain rfl : line = line' := hrow
      obtain ⟨hresult, hafter⟩ := answerAt_through hline hoptions hscope number number' line
      have hkept : (s.answerAt number line).2.options = (t.answerAt number' line).2.options := by
        rw [answerAt_options, answerAt_options, hoptions]
      obtain ⟨hrest, hlast⟩ := ih hkept hafter
      exact ⟨.cons ⟨rfl, hresult⟩ hrest, hlast⟩

end through

theorem map_line_entries (s : Session) (rows : List (Bytes × Nat)) :
    (s.entries rows).map (·.line) = rows.map (·.1) := by
  induction rows generalizing s with
  | nil => rfl
  | cons row rest ih => simp only [entries, List.map_cons, ih]

theorem map_fst_filed (lines : List Bytes) :
    (filed lines).map (·.1) = lines.filter fun line => !Line.isBlank line := by
  have hlines : (Command.numbered lines).map (·.1) = lines := List.zipIdx_map_fst ..
  nth_rewrite 2 [← hlines]
  rw [List.filter_map]
  rfl

theorem map_fst_typed (before : Nat) (lines : List Bytes) :
    (typed before lines).map (·.1) = lines.filter fun line => !Line.isBlank line :=
  List.zipIdx_map_fst ..

/-- A file and its lines one by one have the same rows, but for their numbers. -/
theorem filed_typed (before : Nat) (lines : List Bytes) :
    List.Forall₂ (fun row row' => row.1 = row'.1) (filed lines) (typed before lines) := by
  have hlines := (map_fst_filed lines).trans (map_fst_typed before lines).symm
  rwa [← List.forall₂_eq_eq_eq, List.forall₂_map_left_iff, List.forall₂_map_right_iff] at hlines

/-- What entries of runs that start in two scopes have in common: they are of the same line and have
the same value or diagnostics of the same kind, with the same message and trace. The diagnostics are
in the same columns, unless there is a trace and they are at the same part of a function that both
scopes hold. -/
def Entry.Agrees (s t : Scope) (entry entry' : Entry) : Prop :=
  entry.line = entry'.line ∧
    match entry.result, entry'.result with
    | .value v, .value v' => v = v'
    | .failure d, .failure d' => d.kind = d'.kind ∧ d.message = d'.message ∧ d.trace = d'.trace ∧
        (d.span.SameColumns d'.span ∨ d.trace ≠ [] ∧ s.Counterparts t d.span d'.span)
    | .unfinished, .unfinished => True
    | _, _ => False

namespace Entry.Agrees

variable {s t : Scope} {entry entry' : Entry}

theorem of_seenAlike (hline : entry.line = entry'.line)
    (hresult : entry.result.SeenAlike (.columns s t) entry'.result) :
    entry.Agrees s t entry' := by
  refine ⟨hline, ?_⟩
  revert hresult
  cases entry.result with
  | value v => cases entry'.result <;> exact id
  | unfinished => cases entry'.result <;> exact id
  | failure d =>
      cases entry'.result with
      | value v => exact id
      | unfinished => exact id
      | failure d' =>
          rintro ⟨hkind, hmessage, htrace, hplace⟩
          refine ⟨hkind, hmessage, htrace, ?_⟩
          cases hcalls : d.trace with
          | nil =>
              rw [hcalls] at hplace
              exact .inl hplace
          | cons name rest =>
              rw [hcalls] at hplace
              exact hplace.imp_right fun hparts => ⟨List.cons_ne_nil name rest, hparts⟩

/-- Results are compared by cases, since each kind of result agrees with its own kind only. -/
theorem cases (h : entry.Agrees s t entry') :
    (∃ v, entry.result = .value v ∧ entry'.result = .value v) ∨
    (∃ d d', entry.result = .failure d ∧ entry'.result = .failure d') ∨
    (entry.result = .unfinished ∧ entry'.result = .unfinished) := by
  obtain ⟨-, hresult⟩ := h
  cases hfirst : entry.result <;> cases hsecond : entry'.result <;> simp_all

theorem failed_eq (h : entry.Agrees s t entry') : entry.failed = entry'.failed := by
  rcases h.cases with ⟨v, hfirst, hsecond⟩ | ⟨d, d', hfirst, hsecond⟩ | ⟨hfirst, hsecond⟩ <;>
    simp [Entry.failed, hfirst, hsecond, Eval.Result.isValue]

theorem textOn_output (h : entry.Agrees s t entry') :
    Emission.textOn .output entry.emissions = Emission.textOn .output entry'.emissions := by
  rcases h.cases with ⟨v, hfirst, hsecond⟩ | ⟨d, d', hfirst, hsecond⟩ | ⟨hfirst, hsecond⟩ <;>
    simp [Entry.emissions, Emission.textOn, record, report, hfirst, hsecond]

end Entry.Agrees

section agreeing

variable {s t : Scope} {entries entries' : List Entry}
variable (h : List.Forall₂ (Entry.Agrees s t) entries entries')
include h

theorem countP_failed_eq : entries.countP Entry.failed = entries'.countP Entry.failed := by
  induction h with
  | nil => rfl
  | cons hentry _ ih => rw [List.countP_cons, List.countP_cons, ih, hentry.failed_eq]

theorem textOn_output_eq :
    Emission.textOn .output (entries.flatMap Entry.emissions) =
      Emission.textOn .output (entries'.flatMap Entry.emissions) := by
  induction h with
  | nil => rfl
  | cons hentry _ ih =>
      rw [List.flatMap_cons, List.flatMap_cons, Emission.textOn_append, Emission.textOn_append, ih,
        hentry.textOn_output]

end agreeing

/-- Whether a report is all that is told of an entry: its value on the output, or its failure on
the channel for failures. -/
def Entry.ToldBy (entry : Entry) (told : Emission) : Prop :=
  (∃ v, entry.result = .value v ∧ told = ⟨.output, utf8 "=> " ++ v.shown ++ utf8 "\n"⟩) ∨
    ∃ d, entry.result = .failure d ∧ told.channel = .error

/-- Whether a run of lines came to the given entries: one for each line that holds tokens, in order,
whether the lines before it failed or not. Beside its record for the log, each entry that is
finished has one report, and these are all that is emitted. -/
structure IsTranscript (entries : List Entry) (lines : List Bytes) (failures : Nat)
    (emissions : List Emission) : Prop where
  lines_eq : entries.map (·.line) = lines.filter fun line => !Line.isBlank line
  failures_eq : failures = entries.countP Entry.failed
  emissions_eq : emissions = entries.flatMap Entry.emissions
  told : ∀ entry ∈ entries, entry.result ≠ .unfinished → ∃ told, entry.ToldBy told ∧
    entry.emissions = [record entry.number entry.line entry.result, told]

theorem Entry.exists_told {entry : Entry} (h : entry.result ≠ .unfinished) :
    ∃ told, entry.ToldBy told ∧
      entry.emissions = [record entry.number entry.line entry.result, told] := by
  unfold Entry.emissions
  cases hresult : entry.result with
  | value v => exact ⟨_, .inl ⟨v, hresult, rfl⟩, rfl⟩
  | failure d => exact ⟨_, .inr ⟨d, hresult, rfl⟩, rfl⟩
  | unfinished => exact absurd hresult h

theorem processFile_isTranscript (s : Session) {lines : List Bytes} {text : Bytes}
    {broken stopped : Option Bytes} (h : Line.read text broken = ⟨lines, stopped⟩) :
    IsTranscript (s.entries (filed lines)) lines (s.processFile text broken).failures
      (s.processFile text broken).emissions := by
  obtain ⟨hfailures, hemissions, -⟩ := s.processFile_eq text broken
  have hrows : s.rows (.processFile text broken) = filed lines := by rw [rows, h]
  rw [hrows] at hfailures hemissions
  refine ⟨?_, hfailures, hemissions, fun _ _ => Entry.exists_told⟩
  rw [map_line_entries, map_fst_filed]

theorem runLines_isTranscript (t : Session) (lines : List Bytes) :
    IsTranscript (t.entries (typed t.lineCount lines)) lines
      (Command.runLines ⟨t, 0, []⟩ lines).failures
      (Command.runLines ⟨t, 0, []⟩ lines).emissions.reverse := by
  rw [runLines_eq]
  refine ⟨?_, Nat.zero_add _, by simp, fun _ _ => Entry.exists_told⟩
  rw [map_line_entries, map_fst_typed]

/-- Running a file agrees with running its lines one by one. Take lines without line feeds, with no
carriage return at an end and short enough to be read, and two sessions with the same options whose
bindings are the same up to places in bodies. The file of the lines, each ended, is read to its end.
Both runs have a transcript with an entry for each line that holds tokens; the entries agree one by
one, so the runs write the same output and count the same failures, and the bindings are again the
same up to places. Under a depth limit every entry is finished. -/
theorem file_agrees_with_lines (lines : List Bytes)
    (hlines : ∀ line ∈ lines,
      0x0A ∉ line ∧ line.getLast? ≠ some 0x0D ∧ line.length < Line.tooLong)
    (s t : Session) (hoptions : s.options = t.options)
    (hscope : s.scope.unplaced = t.scope.unplaced) :
    let file := s.processFile (Line.ended lines) none
    let direct := Command.runLines ⟨t, 0, []⟩ lines
    let entries := s.entries (filed lines)
    let entries' := t.entries (typed t.lineCount lines)
    file.stopped = none ∧
    IsTranscript entries lines file.failures file.emissions ∧
    IsTranscript entries' lines direct.failures direct.emissions.reverse ∧
    List.Forall₂ (Entry.Agrees s.scope t.scope) entries entries' ∧
    Emission.textOn .output file.emissions = Emission.textOn .output direct.emissions.reverse ∧
    file.failures = direct.failures ∧
    file.session.scope.unplaced = direct.session.scope.unplaced ∧
    (s.options.limit ≠ none → ∀ entry ∈ entries ++ entries', entry.result ≠ .unfinished) := by
  intro file direct entries entries'
  have hread := Line.read_ended hlines
  have hfile : IsTranscript entries lines file.failures file.emissions :=
    s.processFile_isTranscript hread
  have hdirect : IsTranscript entries' lines direct.failures direct.emissions.reverse :=
    t.runLines_isTranscript lines
  have hfileSession : file.session = s.after (filed lines) := by
    have hsession := (s.processFile_eq (Line.ended lines) none).2.2
    rwa [rows, hread] at hsession
  have hdirectScope : direct.session.scope = (t.after (typed t.lineCount lines)).scope := by
    simp only [direct, runLines_eq]
  obtain ⟨hseen, hafter⟩ := entries_through rfl hoptions (View.columns_sameUpTo hscope)
    (filed_typed t.lineCount lines)
  have hagrees : List.Forall₂ (Entry.Agrees s.scope t.scope) entries entries' :=
    hseen.imp fun entry entry' h => .of_seenAlike h.1 h.2
  refine ⟨?_, hfile, hdirect, hagrees, ?_, ?_, ?_, ?_⟩
  · simp only [file, processFile, hread, Option.map_none]
  · rw [hfile.emissions_eq, hdirect.emissions_eq]
    exact textOn_output_eq hagrees
  · rw [hfile.failures_eq, hdirect.failures_eq]
    exact countP_failed_eq hagrees
  · rw [hfileSession, hdirectScope]
    exact hafter.unplaced
  · intro hlimit entry hentry
    rcases List.mem_append.mp hentry with hentry | hentry
    · exact result_ne_unfinished hlimit hentry
    · exact result_ne_unfinished (hoptions ▸ hlimit) hentry

/-- A function is defined under another number and fails twice for the same argument, on other
lines but in the same columns; the line after it is run all the same. -/
theorem file_agrees_with_lines_division :
    let o : Eval.Options := ⟨false, some 50⟩
    let lines := [utf8 "(defun f (x) (/ 1 x))", utf8 "; none", utf8 "(f 0)", utf8 "(f 1)"]
    let s := Session.new o
    let t : Session := ⟨o, .root .empty, 6⟩
    let direct := Command.runLines ⟨t, 0, []⟩ lines
    Emission.textOn .output direct.emissions.reverse = utf8 "=> f\n=> 1\n" ∧
    direct.failures = 1 ∧
    ∃ d d', ⟨utf8 "(f 0)", 3, .failure d⟩ ∈ s.entries (filed lines) ∧
      ⟨utf8 "(f 0)", 8, .failure d'⟩ ∈ t.entries (typed 6 lines) ∧
      d.trace ≠ [] ∧ d.span ≠ d'.span ∧ d.span.SameColumns d'.span := by
  intro o lines s t direct
  have hlines : ∀ line ∈ lines,
      0x0A ∉ line ∧ line.getLast? ≠ some 0x0D ∧ line.length < Line.tooLong := by decide
  obtain ⟨-, -, -, hagrees, houtput, hfailures, -⟩ :=
    file_agrees_with_lines lines hlines s t rfl rfl
  obtain ⟨first, d, last, hentries, hspan, htrace⟩ : ∃ first d last,
      s.entries (filed lines) = [first, ⟨utf8 "(f 0)", 3, .failure d⟩, last] ∧
        d.span = .of 1 18 19 ∧ d.trace ≠ [] := ⟨_, _, _, rfl, rfl, by decide⟩
  obtain ⟨first', d', last', hentries', hspan'⟩ : ∃ first' d' last',
      t.entries (typed 6 lines) = [first', ⟨utf8 "(f 0)", 8, .failure d'⟩, last'] ∧
        d'.span = .of 7 18 19 := ⟨_, _, _, rfl, rfl⟩
  refine ⟨?_, ?_, d, d', by simp [hentries], by simp [hentries'], htrace, ?_, ?_⟩
  · rw [← houtput]
    decide +kernel
  · rw [← hfailures]
    decide +kernel
  · rw [hspan, hspan']
    decide
  · have hcount : t.lineCount = 6 := rfl
    rw [hcount, hentries, hentries'] at hagrees
    obtain - | ⟨-, - | ⟨⟨-, -, -, -, hcolumns⟩, -⟩⟩ := hagrees
    -- Neither session holds a function to begin with.
    refine hcolumns.resolve_right ?_
    rintro ⟨-, frames, hframes, name, f, g, hf, -⟩
    obtain rfl := List.mem_singleton.mp hframes
    cases hf

/-- Where the bindings are the same only up to places in bodies, columns may differ inside a call:
one function is defined two columns further to the right than the other. -/
theorem file_columns_differ_inside_calls :
    let new := Session.new ⟨false, some 9⟩
    let defined (first : Nat) : Session :=
      { new with
        scope := new.scope.define (utf8 "f") ⟨utf8 "f", [], [.form (.of 1 first (first + 7))
          [.symbol (.of 1 (first + 1) (first + 2)) (utf8 "/"),
            .int (.of 1 (first + 3) (first + 4)) 1, .int (.of 1 (first + 5) (first + 6)) 0]]⟩
        lineCount := 1 }
    let s := defined 14
    let t := defined 12
    let line := utf8 "(f)"
    (new.process (utf8 "  (defun f () (/ 1 0))")).2.2 = s ∧
    (new.process (utf8 "(defun f () (/ 1 0))")).2.2 = t ∧
    (0x0A ∉ line ∧ line.getLast? ≠ some 0x0D ∧ line.length < Line.tooLong) ∧
    s.options = t.options ∧ s.options.limit ≠ none ∧ s.scope.unplaced = t.scope.unplaced ∧
    Emission.textOn .error (s.processFile (Line.ended [line]) none).emissions =
      utf8 "error evaluating line 1: (f)\n  [E2003] DivisionByZero at 1:20" ++
        utf8 ": division by zero (in f)\n" ∧
    Emission.textOn .error (Command.runLines ⟨t, 0, []⟩ [line]).emissions.reverse =
      utf8 "error evaluating line 2: (f)\n  [E2003] DivisionByZero at 1:18" ++
        utf8 ": division by zero (in f)\n" := by
  intro new defined s t line
  refine ⟨rfl, rfl, by decide, rfl, by decide, rfl, ?_, ?_⟩
  · decide +kernel
  · decide +kernel

end Session

end LineLisp
