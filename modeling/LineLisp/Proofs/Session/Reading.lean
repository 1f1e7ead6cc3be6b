import LineLisp.Proofs.Session.Files

/-!
Runs of files that cannot be read to the end. Reading stops between lines: at the first line that is
too long, or after all lines if the source breaks off. The lines before are run as if the text ended
there, nothing of what follows is, and the report names the line that could not be read.
-/

namespace LineLisp.Session

/-- Whether a report tells of a run of the given lines, from a session on: each line that holds
tokens was evaluated, nothing else was, and the evaluations are finished under a depth limit. -/
structure FileReport.Covers (report : FileReport) (s : Session) (lines : List Bytes) : Prop where
  transcript : IsTranscript (s.entries (filed lines)) lines report.failures report.emissions
  session_eq : report.session = s.after (filed lines)
  finished : s.options.limit ≠ none → ∀ entry ∈ s.entries (filed lines), entry.result ≠ .unfinished

section read

variable (s : Session) {text : Bytes} {lines : List Bytes} {broken stopped : Option Bytes}

theorem processFile_covers (h : Line.read text broken = ⟨lines, stopped⟩) :
    (s.processFile text broken).Covers s lines := by
  refine ⟨s.processFile_isTranscript h, ?_, fun hlimit _ => result_ne_unfinished hlimit⟩
  have hsession := (s.processFile_eq text broken).2.2
  rwa [rows, h] at hsession

theorem stopped_processFile (h : Line.read text broken = ⟨lines, stopped⟩) :
    (s.processFile text broken).stopped = stopped.map fun reason =>
      utf8 "read line " ++ Decimal.ofNat (lines.length + 1) ++ utf8 ": " ++ reason := by
  simp only [processFile, h]

end read

/-- A run of a file stops between lines. Every text has its lines, and a line feed is no part of
them, but a carriage return is. Take the first that has 1048576 bytes or more, if there is one: just
the lines before it are evaluated, all is as for the text that ends before it, but the report names
the line that was too long. If there is none, all lines are evaluated, also an unfinished last one,
and the report tells that reading stopped only if the source broke off; it then names the line after
the last. -/
theorem file_run_stops_between_lines (s : Session) (text : Bytes) (broken : Option Bytes) :
    (∃! lines, Line.HasLines text lines) ∧
    ∀ lines, Line.HasLines text lines →
      let report := s.processFile text broken
      (∀ before long later, lines = before ++ long :: later →
        (∀ line ∈ before, line.length < 1048576) → 1048576 ≤ long.length →
        let shorter := s.processFile (Line.ended before) none
        report.Covers s (before.map Line.dropReturn) ∧
        Line.ended before <+: text ∧ shorter.stopped = none ∧
        report.failures = shorter.failures ∧ report.emissions = shorter.emissions ∧
        report.session = shorter.session ∧
        ∃ reason, report.stopped = some (utf8 "read line " ++
          Decimal.ofNat (before.length + 1) ++ utf8 ": " ++ reason)) ∧
      ((∀ line ∈ lines, line.length < 1048576) →
        report.Covers s (lines.map Line.dropReturn) ∧
        report.stopped = broken.map fun reason =>
          utf8 "read line " ++ Decimal.ofNat (lines.length + 1) ++ utf8 ": " ++ reason) := by
  refine ⟨Line.HasLines.existsUnique text, fun lines h => ⟨?_, fun hshort => ?_⟩⟩
  · rintro before long later rfl hshort hlong
    obtain ⟨reason, hread⟩ := h.read_of_tooLong hshort hlong broken
    have hstart := h.ended_before.read_eq hshort none
    have hreport := s.processFile_covers hread
    have hshorter := s.processFile_covers hstart
    refine ⟨hreport, h.ended_prefix, ?_, ?_, ?_, ?_, reason, ?_⟩
    · rw [s.stopped_processFile hstart, Option.map_none]
    · rw [hreport.transcript.failures_eq, hshorter.transcript.failures_eq]
    · rw [hreport.transcript.emissions_eq, hshorter.transcript.emissions_eq]
    · rw [hreport.session_eq, hshorter.session_eq]
    · rw [s.stopped_processFile hread, List.length_map, Option.map_some]
  · have hread := h.read_eq hshort broken
    refine ⟨s.processFile_covers hread, ?_⟩
    rw [s.stopped_processFile hread, List.length_map]

/-- A line of just the length that is too long, after a blank line, a comment and a line that fails;
and a source that breaks off in a line. -/
theorem file_run_stops_between_lines_at_limit :
    let s := Session.new ⟨false, some 9⟩
    let before := [utf8 "(setq x 5)\r", [], utf8 "(/ 1 0)", utf8 "; none"]
    let long : Bytes := List.replicate 1048576 0x31
    let report := s.processFile (Line.ended (before ++ [long]) ++ utf8 "(setq x 6)") none
    let broken := s.processFile (utf8 "(setq x 5)\n\nx") (some (utf8 "timeout"))
    report.failures = 1 ∧ Emission.textOn .output report.emissions = utf8 "=> 5\n" ∧
    report.session.listing = utf8 "x = 5\n" ∧
    (∃ reason, report.stopped = some (utf8 "read line 5: " ++ reason)) ∧
    Emission.textOn .output broken.emissions = utf8 "=> 5\n=> 5\n" ∧
    broken.stopped = some (utf8 "read line 4: timeout") := by
  intro s before long report broken
  have hopen : 0x0A ∉ long := fun h => absurd (List.eq_of_mem_replicate h) (by decide)
  have hlong : long.length = 1048576 := List.length_replicate
  have hlines : Line.HasLines (Line.ended (before ++ [long]) ++ utf8 "(setq x 6)")
      (before ++ long :: [utf8 "(setq x 6)"]) := by
    rw [List.append_cons before long [_]]
    refine .unclosed ⟨rfl, ?_, by decide⟩ (by decide)
    exact List.forall_mem_append.mpr ⟨by decide, List.forall_mem_singleton.mpr hopen⟩
  obtain ⟨-, -, -, hfailures, hemissions, hsession, hstopped⟩ :=
    ((file_run_stops_between_lines s _ none).2 _ hlines).1 before long _ rfl (by decide) hlong.ge
  have hmessage : utf8 "read line " ++ Decimal.ofNat (before.length + 1) ++ utf8 ": " =
      utf8 "read line 5: " := by decide
  rw [hmessage] at hstopped
  have hrest : Line.HasLines (utf8 "(setq x 5)\n\nx") ([utf8 "(setq x 5)", []] ++ [utf8 "x"]) :=
    .unclosed ⟨rfl, by decide, by decide⟩ (by decide)
  obtain ⟨hcovers, hbroken⟩ :=
    ((file_run_stops_between_lines s _ (some (utf8 "timeout"))).2 _ hrest).2 (by decide)
  refine ⟨?_, ?_, ?_, hstopped, ?_, hbroken⟩
  · rw [hfailures]
    decide +kernel
  · rw [hemissions]
    decide +kernel
  · rw [hsession]
    decide +kernel
  · rw [hcovers.transcript.emissions_eq]
    decide +kernel

end LineLisp.Session
