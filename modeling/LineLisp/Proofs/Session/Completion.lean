import LineLisp.Proofs.Expr.Balance
import LineLisp.Proofs.Expr.Prefixes
import LineLisp.Proofs.Session.Gathering

/-!
Which parentheses a reader misses. The forms that it has open are the parentheses that the tokens
so far open and do not close, so it misses a parenthesis only at the end of tokens that open more
than they close. A gathering completes a source only where that is not so.
-/

namespace LineLisp

theorem Token.parenBalance_eq_countP (tokens : List Token) :
    parenBalance tokens =
      tokens.countP (·.kind = .lparen) - tokens.countP (·.kind = .rparen) := by
  rw [← excess_map, excess_eq_countP, List.countP_map, List.countP_map]
  rfl

/-- The number of a line decides nothing about its parentheses. -/
theorem Line.balance_eq_body_tokens (number : Int) (line : Bytes) :
    Line.balance line = Token.parenBalance (Token.body (Scan.tokens number line)) := by
  rw [Line.balance_eq_excess, ← Scan.map_body_tokens number, Token.excess_map]

namespace Read

def Opening.isForm : Opening → Bool
  | .form _ _ => true
  | .quote _ => false

/-- A form that is open has one parenthesis open, whatever it holds already; a quote mark has
none. -/
theorem Opening.Holds.parenBalance_eq {opening : Opening} {own : List Token}
    (h : opening.Holds own) :
    Token.parenBalance own = if opening.isForm then 1 else 0 := by
  cases opening with
  | quote mark =>
      obtain ⟨t, hkind, -, rfl⟩ := h
      rw [Token.parenBalance_cons, hkind]
      rfl
  | form opened elems =>
      obtain ⟨t, ds, hkind, -, -, rfl⟩ := h
      have hinner : Token.Balanced (Derivation.tokensAll ds) :=
        Derivation.balanced_tokensAll fun d _ => d.balanced_tokens
      rw [Token.parenBalance_cons, hkind, hinner.settled]
      rfl

theorem HoldsPending.parenBalance_eq {pending : List Opening} {waiting : List Token}
    (h : HoldsPending pending waiting) :
    Token.parenBalance waiting = pending.countP Opening.isForm := by
  induction pending generalizing waiting with
  | nil =>
      obtain rfl : waiting = [] := h
      rfl
  | cons opening outer ih =>
      obtain ⟨before, own, houter, hown, rfl⟩ := h
      rw [Token.parenBalance_append, ih houter, hown.parenBalance_eq, List.countP_cons]
      split <;> simp

/-- The forms that the reader has open are the parentheses that the tokens leave open. -/
theorem parenBalance_of_run {limit : DepthLimit} {tokens : List Token} {s : State}
    (heof : ∀ t ∈ tokens, t.isEof = false)
    (hrun : tokens.foldlM (stepOne limit) .empty = .ok s) :
    Token.parenBalance tokens = s.pending.countP Opening.isForm := by
  have hempty : State.empty.Holds [] := ⟨[], [], rfl, rfl, rfl⟩
  have hsteps := (foldlM_stepOne (.inl rfl) hrun).1
  obtain ⟨ds, waiting, -, hpending, htaken⟩ := foldlM_step_holds hempty heof hsteps
  have hdone : Token.Balanced (Derivation.tokensAll ds) :=
    Derivation.balanced_tokensAll fun d _ => d.balanced_tokens
  rw [List.nil_append] at htaken
  rw [htaken, Token.parenBalance_append, hdone.settled, hpending.parenBalance_eq, Int.zero_add]

/-- The hint tells a parenthesis that is missing from all else that may be wrong. -/
theorem Fault.misses_close {fault : Fault} (h : utf8 "missing ')' for '('" <+: fault.hint) :
    ∃ opened, fault = .incomplete (some opened) := by
  have hsome : utf8 "missing ')' for '('" ≠ [] := by decide
  cases fault with
  | incomplete opened =>
      cases opened with
      | some opened => exact ⟨opened, rfl⟩
      | none => exact absurd (List.prefix_nil.mp h) hsome
  | strayClose => exact absurd h (by decide)
  | trailing lexeme => exact absurd (List.prefix_nil.mp h) hsome
  | tooDeep limit => exact absurd (List.prefix_nil.mp h) hsome

/-- A parenthesis is missed only where all tokens are taken and a form is open. -/
theorem one_misses_close {limit : DepthLimit} {tokens : List Token} {d : Diagnostic}
    (h : one limit tokens = .error d) (hhint : utf8 "missing ')' for '('" <+: d.hint) :
    d.message = utf8 "incomplete expression" ∧
      ∃ s opened elems outer, (Token.body tokens).foldlM (stepOne limit) .empty = .ok s ∧
        s.pending = .form opened elems :: outer := by
  have hfault : ∀ (fault : Fault) (span : Span), d = fault.diagnostic span →
      ∃ opened, fault = .incomplete (some opened) := by
    rintro fault span rfl
    exact Fault.misses_close hhint
  cases hrun : (Token.body tokens).foldlM (stepOne limit) .empty with
  | error d' =>
      obtain rfl : d' = d := Except.error.inj ((one_of_error hrun).symm.trans h)
      obtain ⟨front, t, back, s, -, -, herror⟩ := exists_error_of_foldlM hrun
      -- A token is refused for other reasons only.
      rcases stepOne_error herror with hd | hd | ⟨n, -, hd⟩
      all_goals
        obtain ⟨opened, hother⟩ := hfault _ _ hd
        cases hother
  | ok s =>
      rw [one_of_run hrun] at h
      cases hpending : s.pending with
      | nil =>
          have hfinish : finish (endSpan tokens) s = .ok s.done.reverse :=
            finish_eq_ok_iff.mpr ⟨hpending, rfl⟩
          rw [hfinish] at h
          cases hdone : s.done.reverse with
          | cons e rest =>
              rw [hdone] at h
              cases h
          | nil =>
              -- There is no expression at all, and so no parenthesis to name.
              rw [hdone] at h
              obtain ⟨opened, hother⟩ := hfault _ _ (Except.error.inj h).symm
              cases hother
      | cons opening outer =>
          simp only [finish, hpending] at h
          cases opening with
          | form opened elems =>
              cases h
              exact ⟨rfl, s, opened, elems, outer, rfl, hpending⟩
          | quote mark =>
              obtain ⟨opened, hother⟩ := hfault _ _ (Except.error.inj h).symm
              cases hother

/-- Where a parenthesis is missed, the tokens open more than they close. -/
theorem parenBalance_pos_of_misses_close {limit : DepthLimit} {tokens : List Token} {d : Diagnostic}
    (h : one limit tokens = .error d) (hhint : utf8 "missing ')' for '('" <+: d.hint) :
    0 < Token.parenBalance (Token.body tokens) := by
  obtain ⟨-, s, opened, elems, outer, hrun, hpending⟩ := one_misses_close h hhint
  rw [parenBalance_of_run (fun t ht => isEof_of_mem_body ht) hrun, hpending, List.countP_cons]
  simp [Opening.isForm]

end Read

namespace Gathering

/-- Reading misses a parenthesis only in tokens that open more than they close, so never in a source
that is complete. -/
theorem complete_sources_close_their_forms :
    (∀ (limit : DepthLimit) (tokens : List Token) (d : Diagnostic),
      Read.one limit tokens = .error d → utf8 "missing ')' for '('" <+: d.hint →
      d.message = utf8 "incomplete expression" ∧
        (Token.body tokens).countP (·.kind = .rparen) <
          (Token.body tokens).countP (·.kind = .lparen)) ∧
    ∀ (actions : List Action) (line text : Bytes),
      ((history actions).gathering.add line).1 = some text →
      ∀ (limit : DepthLimit) (number : Int) (d : Diagnostic),
        Read.one limit (Scan.tokens number text) = .error d →
          ¬ utf8 "missing ')' for '('" <+: d.hint := by
  constructor
  · intro limit tokens d hread hhint
    have hpos := Read.parenBalance_pos_of_misses_close hread hhint
    rw [Token.parenBalance_eq_countP] at hpos
    exact ⟨(Read.one_misses_close hread hhint).1, by omega⟩
  · intro actions line text hadd limit number d hread hhint
    have hpos := Read.parenBalance_pos_of_misses_close hread hhint
    obtain ⟨-, -, hclosed⟩ := (history_sound actions).gathering.complete hadd
    rw [← Line.balance_eq_body_tokens number] at hpos
    omega

/-- After a quote mark a parenthesis completes the source without ending the form, and the reader
does not miss another one there. -/
theorem complete_sources_close_their_forms_mark :
    let unclosed := Scan.tokens 1 (utf8 "(list '(1) (")
    let text := utf8 "(list ' )"
    (∃ d, Read.one none unclosed = .error d ∧ utf8 "missing ')' for '('" <+: d.hint ∧
      (Token.body unclosed).countP (·.kind = .rparen) <
        (Token.body unclosed).countP (·.kind = .lparen)) ∧
    ((history [.add (utf8 "(list '")]).gathering.add (utf8 ")")).1 = some text ∧
    ∃ d, Read.one none (Scan.tokens 1 text) = .error d ∧
      ¬ utf8 "missing ')' for '('" <+: d.hint := by
  intro unclosed text
  obtain ⟨hmissed, hcomplete⟩ := complete_sources_close_their_forms
  have hadd : ((history [.add (utf8 "(list '")]).gathering.add (utf8 ")")).1 = some text := by
    decide
  refine ⟨?_, hadd, _, rfl, hcomplete _ _ _ hadd none 1 _ rfl⟩
  have hhint : utf8 "missing ')' for '('" <+:
      ((Read.Fault.incomplete (Position.onLine 1 11)).diagnostic (.of 1 12 12)).hint := by
    decide +kernel
  exact ⟨_, rfl, hhint, (hmissed none unclosed _ rfl hhint).2⟩

end Gathering

end LineLisp
