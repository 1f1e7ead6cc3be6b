import LineLisp.Proofs.Expr.Grammar
import LineLisp.Session

/-!
What a session makes of a line depends on the tokens before its end. Two lines with the same
tokens leave the same session behind and write the same to every channel but that of failures,
where the text of the line is shown.
-/

namespace LineLisp

/-- Where the tokens end decides only what a diagnostic points at. -/
theorem Read.finish_stop (stop stop' : Span) (s : State) :
    (∃ es, finish stop s = .ok es ∧ finish stop' s = .ok es) ∨
      ∃ d, finish stop s = .error d ∧ finish stop' s = .error { d with span := stop' } := by
  unfold finish
  cases s.pending with
  | nil => exact .inl ⟨_, rfl, rfl⟩
  | cons opening outer =>
      cases opening with
      | form opened elems => exact .inr ⟨_, rfl, rfl⟩
      | quote mark => exact .inr ⟨_, rfl, rfl⟩

/-- Tokens before the end of the line decide what is read, and what a diagnostic says. -/
theorem Read.one_of_body (limit : DepthLimit) {tokens tokens' : List Token}
    (h : Token.body tokens = Token.body tokens') :
    (∃ e, one limit tokens = .ok e ∧ one limit tokens' = .ok e) ∨
      ∃ d span, one limit tokens = .error d ∧
        one limit tokens' = .error { d with span := span } := by
  unfold one
  rw [h]
  cases (Token.body tokens').foldlM (stepOne limit) .empty with
  | error d => exact .inr ⟨d, d.span, rfl, rfl⟩
  | ok s =>
      simp only [bind, Except.bind]
      rcases finish_stop (endSpan tokens) (endSpan tokens') s with ⟨es, hes, hes'⟩ | ⟨d, hd, hd'⟩
      · rw [hes, hes']
        cases es with
        | nil => exact .inr ⟨_, endSpan tokens', rfl, rfl⟩
        | cons e es => exact .inl ⟨e, rfl, rfl⟩
      · rw [hd, hd']
        exact .inr ⟨d, endSpan tokens', rfl, rfl⟩

section process

variable {channel : Channel}

theorem Emission.textOn_append (first second : List Emission) :
    textOn channel (first ++ second) = textOn channel first ++ textOn channel second := by
  simp [textOn]

theorem Emission.textOn_cons (e : Emission) (rest : List Emission) :
    textOn channel (e :: rest) = textOn channel [e] ++ textOn channel rest :=
  textOn_append [e] rest

theorem Session.record_of_body {number : Nat} {text source : Bytes}
    (h : Token.body (Scan.tokens number text) = Token.body (Scan.tokens number source))
    {result result' : Eval.Result} (hresult : result.isValue = result'.isValue) :
    record number text result = record number source result' := by
  simp [record, h, hresult]

/-- Lines with the same tokens have the same answer, unless both cannot be read. -/
theorem Session.answerAt_of_body {number : Nat} {text source : Bytes}
    (h : Token.body (Scan.tokens number text) = Token.body (Scan.tokens number source))
    (s : Session) :
    s.answerAt number text = s.answerAt number source ∨
      ∃ d d', s.answerAt number text = (.failure d, s) ∧
        s.answerAt number source = (.failure d', s) := by
  unfold answerAt
  rcases Read.one_of_body s.options.limit h with ⟨e, htext, hsource⟩ | ⟨d, span, htext, hsource⟩
  · rw [htext, hsource]
    exact .inl rfl
  · rw [htext, hsource]
    exact .inr ⟨d, _, rfl, rfl⟩

variable (hchannel : channel ≠ .error)
include hchannel

theorem Session.textOn_report_failure (number : Nat) (line : Bytes) (d : Diagnostic) :
    Emission.textOn channel (report number line (.failure d)) = [] := by
  simp [report, Emission.textOn, Ne.symm hchannel]

/-- Only the report of a failure shows the text of the line. -/
theorem Session.textOn_report (number : Nat) (text source : Bytes) (result : Eval.Result) :
    Emission.textOn channel (report number text result) =
      Emission.textOn channel (report number source result) := by
  cases result with
  | value v => rfl
  | failure d => rw [textOn_report_failure hchannel, textOn_report_failure hchannel]
  | unfinished => rfl

theorem Session.processAt_of_body {number : Nat} {text source : Bytes}
    (h : Token.body (Scan.tokens number text) = Token.body (Scan.tokens number source))
    (s : Session) :
    (s.processAt number text).2.2 = (s.processAt number source).2.2 ∧
      Emission.textOn channel (s.processAt number text).2.1 =
        Emission.textOn channel (s.processAt number source).2.1 := by
  unfold processAt
  rcases answerAt_of_body h s with hsame | ⟨d, d', htext, hsource⟩
  · rw [hsame]
    refine ⟨rfl, ?_⟩
    rw [Emission.textOn_cons, textOn_report hchannel number text source, record_of_body h rfl]
    exact (Emission.textOn_cons ..).symm
  · rw [htext, hsource]
    refine ⟨rfl, ?_⟩
    rw [Emission.textOn_cons, textOn_report_failure hchannel, record_of_body h rfl,
      ← textOn_report_failure hchannel number source d']
    exact (Emission.textOn_cons ..).symm

/-- Lines with the same tokens are processed alike, but for the text of a line that fails. -/
theorem Session.process_of_body {text source : Bytes}
    (h : ∀ number, Token.body (Scan.tokens number text) = Token.body (Scan.tokens number source))
    (s : Session) :
    (s.process text).2.2 = (s.process source).2.2 ∧
      Emission.textOn channel (s.process text).2.1 =
        Emission.textOn channel (s.process source).2.1 := by
  have hblank : Line.isBlank text = Line.isBlank source := by
    rw [Line.isBlank, Line.isBlank, h]
  unfold process
  rw [hblank]
  split
  · exact ⟨rfl, rfl⟩
  · exact processAt_of_body hchannel (h _) _

end process

end LineLisp
