import LineLisp.Proofs.Eval.Provenance
import LineLisp.Proofs.Expr.Prefixes
import LineLisp.Proofs.Expr.Spans
import LineLisp.Proofs.Token.Lexical
import LineLisp.Session

/-!
Where the diagnostics of a session point. Reading fails on the line that is read; evaluation fails
on it too, or on an earlier line inside a call of a function that was defined there. The functions
of a session always come from the lines that it has answered.
-/

namespace LineLisp

/-- A token has its place between the bounds. -/
theorem Token.Placed.exists_span {line : Int} {lower upper : Nat} {tokens : List Token}
    (h : Placed line lower tokens upper) {t : Token} (ht : t ∈ tokens) :
    ∃ first last, t.span = .of line first last ∧ first ≤ last ∧ last ≤ upper := by
  obtain ⟨front, back, rfl⟩ := List.append_of_mem ht
  obtain ⟨middle, -, first, last, hspan, -, hsize, hback⟩ := h.exists_of_append
  exact ⟨first, last, hspan, Nat.le_of_lt hsize, hback.le⟩

namespace Read

theorem endSpan_tokens (line : Int) (source : Bytes) :
    endSpan (Scan.tokens line source) = .of line source.length source.length := by
  have hbody := Scan.body_tokens_eq line source
  have hnone : (Token.body (Scan.tokens line source)).find? Token.isEof = none := by
    rw [List.find?_eq_none]
    intro t ht
    simp [isEof_of_mem_body ht]
  rw [Scan.tokens_eq_found, ← hbody, endSpan, List.find?_append, hnone]
  rfl

/-- A line that cannot be read fails on that line, without a trace. -/
theorem one_error_onLine {limit : DepthLimit} {line : Int} {source : Bytes} {d : Diagnostic}
    (h : one limit (Scan.tokens line source) = .error d) :
    d.trace = [] ∧ ∃ first last, d.span = .of line first last ∧ first ≤ last ∧
      last ≤ source.length := by
  obtain ⟨fault, rfl | ⟨t, ht, rfl⟩⟩ := one_error h
  · rw [endSpan_tokens]
    exact ⟨rfl, source.length, source.length, rfl, Nat.le_refl _, Nat.le_refl _⟩
  · exact ⟨rfl, (Scan.placed_body_tokens line source).exists_span ht⟩

/-- Everything in an expression that is read from a line has its place on the line. -/
theorem one_parts_onLine {limit : DepthLimit} {line : Int} {source : Bytes} {e : Expr}
    (h : one limit (Scan.tokens line source) = .ok e) :
    ∀ x ∈ e.parts, ∃ first last, x.span = .of line first last ∧ first ≤ last ∧
      last ≤ source.length := by
  obtain ⟨d, htokens, rfl, -⟩ := one_eq_ok_iff.mp h
  intro x hx
  rcases Derivation.mem_parts_expr hx with ⟨part, hpart, rfl⟩ | ⟨mark, hmark, inner, hpart, rfl⟩
  · obtain ⟨first, last, hstands⟩ := hpart.exists_standsIn htokens
    exact ⟨first, last, hstands.covers.span, Nat.le_of_lt hstands.covers.lt, hstands.last_le⟩
  · obtain ⟨first, last, hstands⟩ := hpart.exists_standsIn htokens
    obtain ⟨stop, hspan, hsize, hstop, -⟩ := hstands.mark
    exact ⟨first, stop, hspan, Nat.le_of_lt hsize, hstop⟩

end Read

/-- A place on a line that is added is a place in the lines. -/
theorem Span.inLines_of_last {lines : List Bytes} {line : Bytes} {span : Span}
    (h : ∃ first last, span = .of (lines.length + 1) first last ∧ first ≤ last ∧
      last ≤ line.length) :
    span.InLines (lines ++ [line]) ∧ span.start.line = (lines ++ [line]).length := by
  obtain ⟨first, last, rfl, hle, hlast⟩ := h
  refine ⟨⟨lines.length, line, first, last, by simp, rfl, hle, hlast⟩, ?_⟩
  simp [Span.of, Position.onLine]

namespace Session

open Eval (Result)

/-- The results of lines that are answered one after the other. -/
def answers (s : Session) : List Bytes → List Result
  | [] => []
  | line :: rest => (s.answer line).1 :: (s.answer line).2.2.answers rest

/-- The invariant of a session that has answered the given lines. -/
structure HasAnswered (o : Eval.Options) (lines : List Bytes) (s : Session) : Prop where
  options : s.options = o
  lineCount : s.lineCount = lines.length
  functions : s.scope.FromLines lines

/-- Whether a diagnostic may come from a line that is answered after the given ones: it points into
one of them, to the last unless it has a trace, and has none where the line cannot be read. -/
structure ComesFrom (limit : DepthLimit) (before : List Bytes) (line : Bytes) (d : Diagnostic) :
    Prop where
  inLines : d.span.InLines (before ++ [line])
  latest : d.trace = [] → d.span.start.line = before.length + 1
  unread : ∀ d', Read.one limit (Scan.tokens (before.length + 1) line) = .error d' →
    d' = d ∧ d.trace = []

variable {o : Eval.Options} {s : Session} {before : List Bytes}

theorem new_hasAnswered (o : Eval.Options) : (Session.new o).HasAnswered o [] :=
  ⟨rfl, rfl, Scope.Each.root .empty⟩

/-- One line more. -/
theorem HasAnswered.answer (h : s.HasAnswered o before) (line : Bytes) :
    (s.answer line).2.2.HasAnswered o (before ++ [line]) ∧
      ∀ d, (s.answer line).1 = .failure d → ComesFrom o.limit before line d := by
  have hfunctions : s.scope.FromLines (before ++ [line]) := h.functions.append [line]
  have hcount : s.lineCount + 1 = (before ++ [line]).length := by simp [h.lineCount]
  have hnumber : ((s.lineCount + 1 : Nat) : Int) = before.length + 1 := by simp [h.lineCount]
  obtain rfl : s.options = o := h.options
  unfold Session.answer answerAt
  simp only [hnumber]
  cases hread : Read.one s.options.limit (Scan.tokens (before.length + 1) line) with
  | error d =>
      obtain ⟨htrace, hplace⟩ := Read.one_error_onLine hread
      obtain ⟨hin, hlatest⟩ := Span.inLines_of_last hplace
      refine ⟨⟨rfl, hcount, hfunctions⟩, ?_⟩
      rintro d' ⟨⟩
      refine ⟨hin, fun _ => by simpa using hlatest, ?_⟩
      intro d' hd'
      rw [hread, Except.error.injEq] at hd'
      exact ⟨hd'.symm, htrace⟩
  | ok e =>
      have hparts := fun x hx => Span.inLines_of_last (Read.one_parts_onLine hread x hx)
      obtain ⟨hscope, hfails⟩ := Eval.evaluate_traced s.options hparts hfunctions
      refine ⟨⟨rfl, hcount, hscope⟩, ?_⟩
      intro d hd
      obtain ⟨hin, hlatest⟩ := hfails d hd
      refine ⟨hin, fun htrace => by simpa using hlatest htrace, ?_⟩
      intro d' hd'
      rw [hread] at hd'
      cases hd'

/-- Any number of lines more. -/
theorem HasAnswered.answers (h : s.HasAnswered o before) {lines : List Bytes} {k : Nat}
    {d : Diagnostic} (hd : (s.answers lines)[k]? = some (.failure d)) :
    ∃ line, lines[k]? = some line ∧ ComesFrom o.limit (before ++ lines.take k) line d := by
  induction lines generalizing s before k with
  | nil => simp [Session.answers] at hd
  | cons line rest ih =>
      obtain ⟨hnext, hfails⟩ := h.answer line
      cases k with
      | zero =>
          rw [Session.answers, List.getElem?_cons_zero, Option.some.injEq] at hd
          exact ⟨line, rfl, by simpa using hfails d hd⟩
      | succ k =>
          rw [Session.answers, List.getElem?_cons_succ] at hd
          obtain ⟨line', hline', hcomes⟩ := ih hnext hd
          exact ⟨line', by simpa using hline', by simpa using hcomes⟩

/-- Every diagnostic of a session points into a line that it was given, at the latest the one that
failed. Where that line cannot be read the diagnostic points into it and has no trace, and one that
points into an earlier line has a trace. -/
theorem diagnostics_point_into_lines (o : Eval.Options) (lines : List Bytes) {k : Nat}
    {d : Diagnostic} (h : ((Session.new o).answers lines)[k]? = some (.failure d)) :
    ∃ (j : Nat) (text : Bytes) (first last : Nat), j ≤ k ∧ lines[j]? = some text ∧
      d.span = .of (j + 1) first last ∧ first ≤ last ∧ last ≤ text.length ∧
      (∀ line d', lines[k]? = some line →
        Read.one o.limit (Scan.tokens (k + 1) line) = .error d' → d' = d ∧ j = k ∧ d.trace = []) ∧
      (j < k → d.trace ≠ []) := by
  obtain ⟨line, hline, hcomes⟩ := (new_hasAnswered o).answers h
  rw [List.nil_append] at hcomes
  have hk : k < lines.length := (List.getElem?_eq_some_iff.mp hline).1
  have hlength : (lines.take k).length = k := List.length_take_of_le (Nat.le_of_lt hk)
  obtain ⟨j, text, first, last, htext, hspan, hle, hlast⟩ := hcomes.inLines
  have hj : j ≤ k := by
    have hlt := (List.getElem?_eq_some_iff.mp htext).1
    rw [List.length_append, hlength, List.length_singleton] at hlt
    omega
  have htake : lines.take k ++ [line] = lines.take (k + 1) := by
    rw [List.take_add_one, hline, Option.toList_some]
  have hlatest : d.trace = [] → j = k := by
    intro htrace
    have hline := hcomes.latest htrace
    rw [hspan, hlength] at hline
    simp only [Span.of, Position.onLine] at hline
    omega
  refine ⟨j, text, first, last, hj, ?_, hspan, hle, hlast, ?_, ?_⟩
  · rw [htake, List.getElem?_take_of_lt (by omega)] at htext
    exact htext
  · intro line' d' hline' hread
    obtain rfl : line = line' := Option.some.inj (hline.symm.trans hline')
    have hunread := hcomes.unread
    rw [hlength] at hunread
    obtain ⟨rfl, htrace⟩ := hunread d' hread
    exact ⟨rfl, hlatest htrace, htrace⟩
  · intro hlt htrace
    have hsame := hlatest htrace
    omega

/-- The second line lacks its end, and the third fails inside a call, at the zero of the first. -/
theorem diagnostics_point_into_lines_inside_call :
    let lines := [utf8 "(defun f (x) (/ x 0))", utf8 " (f", utf8 "(list (f 1))"]
    let results := (Session.new ⟨false, some 9⟩).answers lines
    (∃ d, results[1]? = some (.failure d) ∧ d.span = .of 2 3 3 ∧
      Read.one (some 9) (Scan.tokens 2 (utf8 " (f")) = .error d ∧ d.trace = []) ∧
    ∃ d, results[2]? = some (.failure d) ∧ d.span = .of 1 18 19 ∧ d.trace ≠ [] := by
  intro lines results
  constructor
  · obtain ⟨d, hd, hspan, hread⟩ : ∃ d, results[1]? = some (.failure d) ∧ d.span = .of 2 3 3 ∧
        Read.one (some 9) (Scan.tokens 2 (utf8 " (f")) = .error d := ⟨_, rfl, rfl, rfl⟩
    obtain ⟨j, text, first, last, -, -, -, -, -, hunread, -⟩ :=
      diagnostics_point_into_lines ⟨false, some 9⟩ lines hd
    obtain ⟨-, -, htrace⟩ := hunread (utf8 " (f") d rfl hread
    exact ⟨d, hd, hspan, hread, htrace⟩
  · obtain ⟨d, hd, hspan⟩ : ∃ d, results[2]? = some (.failure d) ∧ d.span = .of 1 18 19 :=
      ⟨_, rfl, rfl⟩
    obtain ⟨j, text, first, last, -, -, hplace, -, -, -, htrace⟩ :=
      diagnostics_point_into_lines ⟨false, some 9⟩ lines hd
    have hnumber : (1 : Int) = j + 1 := congrArg (·.start.line) (hspan.symm.trans hplace)
    exact ⟨d, hd, hspan, htrace (by omega)⟩

end Session

end LineLisp
