import LineLisp.Proofs.Expr.Grammar

/-!
Where reading fails. Tokens may go on to an expression exactly as long as the reader takes them, so
it fails for a token as soon as there is no way to go on, and for too few tokens only where there
is one.
-/

namespace LineLisp

/-- Whether tokens are an expression. -/
def Derivable (tokens : List Token) : Prop :=
  ∃ d : Derivation, d.tokens = tokens

/-- Whether tokens can go on, or stop, as an expression. -/
def Viable (tokens : List Token) : Prop :=
  ∃ more, Derivable (tokens ++ more)

theorem Derivable.viable {tokens : List Token} (h : Derivable tokens) : Viable tokens :=
  ⟨[], by rwa [List.append_nil]⟩

theorem Viable.of_append {front : List Token} (back : List Token) (h : Viable (front ++ back)) :
    Viable front := by
  obtain ⟨more, hmore⟩ := h
  exact ⟨back ++ more, by rwa [← List.append_assoc]⟩

namespace Read

/-- All that can go wrong with one token. -/
theorem stepOne_error {limit : DepthLimit} {s : State} {t : Token} {d : Diagnostic}
    (h : stepOne limit s t = .error d) :
    d = (Fault.trailing t.lexeme).diagnostic t.span ∨ d = Fault.strayClose.diagnostic t.span ∨
      ∃ n, limit.crossed (s.depth + 1) = some n ∧ d = (Fault.tooDeep n).diagnostic t.span := by
  unfold stepOne at h
  split at h
  · cases h
    exact .inl rfl
  · unfold step at h
    split at h
    · cases h
    · unfold enter at h
      split at h
      · rename_i n hcrossed
        cases h
        exact .inr (.inr ⟨n, hcrossed, rfl⟩)
      · split at h <;> cases h
        exact .inr (.inl rfl)

/-- A run fails at one of its tokens, after it has taken those before. -/
theorem exists_error_of_foldlM {limit : DepthLimit} {tokens : List Token} {s : State}
    {d : Diagnostic} (h : tokens.foldlM (stepOne limit) s = .error d) :
    ∃ front t back middle, tokens = front ++ t :: back ∧
      front.foldlM (stepOne limit) s = .ok middle ∧ stepOne limit middle t = .error d := by
  induction tokens generalizing s with
  | nil => cases h
  | cons t rest ih =>
      rw [List.foldlM_cons] at h
      cases hstep : stepOne limit s t with
      | error d' =>
          rw [hstep] at h
          cases h
          exact ⟨[], t, rest, s, rfl, rfl, hstep⟩
      | ok next =>
          rw [hstep] at h
          obtain ⟨front, t', back, middle, rfl, hfront, herror⟩ := ih h
          refine ⟨t :: front, t', back, middle, rfl, ?_, herror⟩
          rw [List.foldlM_cons, hstep]
          exact hfront

/-- What is open takes any expression and can be closed behind it. -/
theorem exists_closed {pending : List Opening} {waiting : List Token}
    (h : HoldsPending pending waiting) (d : Derivation) :
    ∃ more, Derivable (waiting ++ d.tokens ++ more) := by
  induction pending generalizing waiting d with
  | nil =>
      obtain rfl : waiting = [] := h
      exact ⟨[], d, by simp⟩
  | cons opening outer ih =>
      obtain ⟨before, own, houter, hown, rfl⟩ := h
      cases opening with
      | quote mark =>
          obtain ⟨t, hkind, -, rfl⟩ := hown
          obtain ⟨more, hmore⟩ := ih houter (.quote t hkind d)
          exact ⟨more, by simpa [Derivation.tokens] using hmore⟩
      | form opened elems =>
          obtain ⟨t, ds, hkind, -, -, rfl⟩ := hown
          let closed : Token := ⟨.rparen, [0x29], .zero⟩
          obtain ⟨more, hmore⟩ := ih houter (.form t closed hkind rfl (ds ++ [d]))
          refine ⟨closed :: more, ?_⟩
          simpa [Derivation.tokens, Derivation.tokensAll_append] using hmore

/-- What the reader has taken without finishing an expression goes on to one. -/
theorem exists_more_of_run {tokens : List Token} {s : State} (heof : ∀ t ∈ tokens, t.isEof = false)
    (hrun : tokens.foldlM (stepOne none) .empty = .ok s) (hdone : s.done = []) :
    ∃ more, more ≠ [] ∧ Derivable (tokens ++ more) := by
  have hempty : State.empty.Holds [] := ⟨[], [], rfl, rfl, rfl⟩
  have hsteps := (foldlM_stepOne (.inl rfl) hrun).1
  obtain ⟨ds, waiting, hexprs, hpending, htaken⟩ := foldlM_step_holds hempty heof hsteps
  obtain rfl : ds = [] := by
    rw [hdone, Derivation.exprs_eq_map] at hexprs
    simpa using hexprs
  obtain rfl : tokens = waiting := by simpa [Derivation.tokensAll] using htaken
  let filler : Token := ⟨.word, utf8 "x", .zero⟩
  obtain ⟨more, hmore⟩ := exists_closed hpending (.atom filler rfl)
  refine ⟨filler :: more, by simp, ?_⟩
  simpa [Derivation.tokens] using hmore

/-- The reader takes all the tokens of an expression and has it then. -/
theorem run_of_derivable {tokens : List Token} (h : Derivable tokens) :
    ∃ e, tokens.foldlM (stepOne none) .empty = .ok (.finished [e]) := by
  obtain ⟨d, rfl⟩ := h
  exact ⟨d.expr, (one_comes none d).1 rfl⟩

/-- A token that the reader refuses ends nothing that goes on to an expression. -/
theorem not_viable_of_error {front : List Token} {t : Token} {s : State} {d : Diagnostic}
    (hfront : front.foldlM (stepOne none) .empty = .ok s) (herror : stepOne none s t = .error d) :
    ¬ Viable (front ++ [t]) := by
  rintro ⟨more, hmore⟩
  obtain ⟨e, hrun⟩ := run_of_derivable hmore
  rw [List.append_assoc, List.foldlM_append, hfront] at hrun
  change ([t] ++ more).foldlM (stepOne none) s = _ at hrun
  rw [List.singleton_append, List.foldlM_cons, herror] at hrun
  cases hrun

theorem body_append_of_eof_free {w tail : List Token} (hw : ∀ t ∈ w, t.isEof = false)
    (htail : tail = [] ∨ ∃ eof : Token, eof.isEof ∧ tail = [eof]) : Token.body (w ++ tail) = w := by
  have hpos : ∀ t ∈ w, (!t.isEof) = true := by simpa using hw
  rw [Token.body, List.takeWhile_append_of_pos hpos]
  rcases htail with rfl | ⟨eof, heof, rfl⟩
  · simp
  · simp [heof]

/-- What the reader has taken is an expression, or goes on to one with more tokens. -/
theorem derivable_or_more {w : List Token} {s : State} (hw : ∀ t ∈ w, t.isEof = false)
    (hrun : w.foldlM (stepOne none) .empty = .ok s) :
    (Derivable w ∧ ∃ e, s = .finished [e]) ∨
      (¬ Derivable w ∧ s.done = [] ∧ ∃ more, more ≠ [] ∧ Derivable (w ++ more)) := by
  by_cases hderivable : Derivable w
  · obtain ⟨e, hfinished⟩ := run_of_derivable hderivable
    rw [hrun, Except.ok.injEq] at hfinished
    exact .inl ⟨hderivable, e, hfinished⟩
  · have hbody : Token.body w = w := by simpa using body_append_of_eof_free hw (.inl rfl)
    obtain ⟨hsteps, hshape⟩ := foldlM_stepOne (.inl rfl) hrun
    have hdone : s.done = [] := by
      rcases hshape with hdone | ⟨hpending, hlength⟩
      · exact hdone
      · -- One expression is finished and nothing is open, so `w` is that expression.
        rw [← hbody] at hsteps
        obtain ⟨ds, htokens, hexprs⟩ := derived_of_finished hsteps hpending
        rw [hbody] at htokens
        have hone : ds.length = 1 := by
          have hcount := congrArg List.length hexprs
          simpa [Derivation.exprs_eq_map, hlength] using hcount
        obtain ⟨d, rfl⟩ := List.length_eq_one_iff.mp hone
        exact absurd ⟨d, by simpa using htokens⟩ hderivable
    exact .inr ⟨hderivable, hdone, exists_more_of_run hw hrun hdone⟩

theorem viable_of_run {w : List Token} {s : State} (hw : ∀ t ∈ w, t.isEof = false)
    (hrun : w.foldlM (stepOne none) .empty = .ok s) : Viable w := by
  rcases derivable_or_more hw hrun with ⟨hderivable, -⟩ | ⟨-, -, more, -, hmore⟩
  · exact hderivable.viable
  · exact ⟨more, hmore⟩

theorem one_of_run {limit : DepthLimit} {tokens : List Token} {s : State}
    (hrun : (Token.body tokens).foldlM (stepOne limit) .empty = .ok s) :
    one limit tokens = finish (endSpan tokens) s >>= fun es =>
      match es with
      | e :: _ => .ok e
      | [] => .error ((Fault.incomplete none).diagnostic (endSpan tokens)) := by
  unfold one
  rw [hrun]
  rfl

/-- Where all tokens are taken and no expression is finished, reading fails at their end. -/
theorem one_incomplete {limit : DepthLimit} {tokens : List Token} {s : State}
    (hrun : (Token.body tokens).foldlM (stepOne limit) .empty = .ok s) (hdone : s.done = []) :
    ∃ opened, one limit tokens =
      .error ((Fault.incomplete opened).diagnostic (endSpan tokens)) := by
  rw [one_of_run hrun]
  unfold finish
  split
  · exact ⟨none, by rw [hdone]; rfl⟩
  · rename_i opened elems outer hpending
    exact ⟨some opened.start, rfl⟩
  · exact ⟨none, rfl⟩

theorem one_of_error {limit : DepthLimit} {tokens : List Token} {d : Diagnostic}
    (hrun : (Token.body tokens).foldlM (stepOne limit) .empty = .error d) :
    one limit tokens = .error d := by
  unfold one
  rw [hrun]
  rfl

/-- Reading fails at a token or at the end of the tokens. -/
theorem one_error {limit : DepthLimit} {tokens : List Token} {d : Diagnostic}
    (h : one limit tokens = .error d) :
    ∃ fault, d = Fault.diagnostic fault (endSpan tokens) ∨
      ∃ t ∈ Token.body tokens, d = fault.diagnostic t.span := by
  cases hrun : (Token.body tokens).foldlM (stepOne limit) .empty with
  | error d' =>
      rw [one_of_error hrun] at h
      cases h
      obtain ⟨front, t, back, s, hbody, -, herror⟩ := exists_error_of_foldlM hrun
      have ht : t ∈ Token.body tokens := by simp [hbody]
      rcases stepOne_error herror with rfl | rfl | ⟨n, -, rfl⟩
      · exact ⟨_, .inr ⟨t, ht, rfl⟩⟩
      · exact ⟨_, .inr ⟨t, ht, rfl⟩⟩
      · exact ⟨_, .inr ⟨t, ht, rfl⟩⟩
  | ok s =>
      have hdone : s.done = [] := by
        rcases (foldlM_stepOne (.inl rfl) hrun).2 with hdone | ⟨hpending, hlength⟩
        · exact hdone
        · obtain ⟨e, hlast⟩ := List.length_eq_one_iff.mp hlength
          rw [one_of_run hrun, finish_eq_ok_iff.mpr ⟨hpending, rfl⟩, hlast] at h
          cases h
      obtain ⟨opened, herror⟩ := one_incomplete hrun hdone
      rw [herror] at h
      cases h
      exact ⟨_, .inl rfl⟩

/-- Whether reading has failed for want of tokens. -/
def FailsIncomplete (result : Except Diagnostic Expr) : Prop :=
  ∃ d, result = .error d ∧ d.message = utf8 "incomplete expression"

/-- Whether reading has failed for a token that has no place where it stands. -/
def FailsMisplaced (result : Except Diagnostic Expr) : Prop :=
  ∃ d, result = .error d ∧ (d.message = utf8 "parenthesis in wrong position" ∨
    utf8 "unexpected trailing input " <+: d.message)

theorem failsIncomplete_error (opened : Option Position) (span : Span) :
    FailsIncomplete (.error ((Fault.incomplete opened).diagnostic span)) :=
  ⟨_, rfl, rfl⟩

theorem failsMisplaced_error {fault : Fault} {lexeme : Bytes} (span : Span)
    (h : fault = .trailing lexeme ∨ fault = .strayClose) :
    FailsMisplaced (.error (fault.diagnostic span)) := by
  rcases h with rfl | rfl
  · exact ⟨_, rfl, .inr (List.prefix_append ..)⟩
  · exact ⟨_, rfl, .inl rfl⟩

/-- The texts tell the two ways to fail apart. -/
theorem not_both {result : Except Diagnostic Expr} (h : FailsIncomplete result) :
    ¬ FailsMisplaced result := by
  obtain ⟨d, rfl, hmessage⟩ := h
  rintro ⟨d', heq, hplace⟩
  cases heq
  rw [hmessage] at hplace
  revert hplace
  decide +kernel

/-- How reading one expression without a limit ends: with an expression, for want of tokens that
would make one, or at the first token that leaves no way to go on. -/
theorem one_cases {w tail : List Token} (hw : ∀ t ∈ w, t.isEof = false)
    (htail : tail = [] ∨ ∃ eof : Token, eof.isEof ∧ tail = [eof]) :
    (Derivable w ∧ ∃ e, one none (w ++ tail) = .ok e) ∨
    ((¬ Derivable w ∧ ∃ more, more ≠ [] ∧ Derivable (w ++ more)) ∧
      ∃ opened span, one none (w ++ tail) = .error ((Fault.incomplete opened).diagnostic span)) ∨
    ∃ front t back, w = front ++ t :: back ∧ Viable front ∧ ¬ Viable (front ++ [t]) ∧
      ∃ fault : Fault, (fault = .trailing t.lexeme ∨ fault = .strayClose) ∧
        one none (w ++ tail) = .error (fault.diagnostic t.span) := by
  have hbody := body_append_of_eof_free hw htail
  cases hrun : w.foldlM (stepOne none) .empty with
  | ok s =>
      have hrun' := hrun
      rw [← hbody] at hrun'
      rcases derivable_or_more hw hrun with ⟨hderivable, -⟩ | ⟨hnot, hdone, hmore⟩
      · obtain ⟨d, hd⟩ := hderivable
        have hone : one none (w ++ tail) = .ok d.expr :=
          one_eq_ok_iff.mpr ⟨d, hd.trans hbody.symm, rfl, rfl⟩
        exact .inl ⟨⟨d, hd⟩, d.expr, hone⟩
      · obtain ⟨opened, herror⟩ := one_incomplete hrun' hdone
        exact .inr (.inl ⟨⟨hnot, hmore⟩, opened, _, herror⟩)
  | error d =>
      have hone : one none (w ++ tail) = .error d := one_of_error (by rw [hbody, hrun])
      obtain ⟨front, t, back, s, rfl, hfront, herror⟩ := exists_error_of_foldlM hrun
      have hviable := viable_of_run (fun t ht => hw t (by simp [ht])) hfront
      refine .inr (.inr ⟨front, t, back, rfl, hviable, not_viable_of_error hfront herror, ?_⟩)
      rcases stepOne_error herror with rfl | rfl | ⟨n, hcrossed, -⟩
      · exact ⟨_, .inl rfl, hone⟩
      · exact ⟨_, .inr rfl, hone⟩
      · cases hcrossed

section classes

variable {w tail : List Token}

theorem one_incomplete_iff (hw : ∀ t ∈ w, t.isEof = false)
    (htail : tail = [] ∨ ∃ eof : Token, eof.isEof ∧ tail = [eof]) :
    FailsIncomplete (one none (w ++ tail)) ↔
      ¬ Derivable w ∧ ∃ more, more ≠ [] ∧ Derivable (w ++ more) := by
  rcases one_cases hw htail with ⟨hderivable, e, hok⟩ | ⟨hmore, opened, span, herror⟩ |
    ⟨front, t, back, rfl, -, hstuck, fault, hfault, herror⟩
  · rw [hok]
    constructor
    · rintro ⟨d, hd, -⟩
      cases hd
    · rintro ⟨hnot, -⟩
      exact absurd hderivable hnot
  · rw [herror]
    exact ⟨fun _ => hmore, fun _ => failsIncomplete_error opened span⟩
  · rw [herror]
    constructor
    · intro h
      exact absurd (failsMisplaced_error t.span hfault) (not_both h)
    · rintro ⟨-, more, -, hmore⟩
      exact absurd ⟨back ++ more, by simpa using hmore⟩ hstuck

/-- Without a way to go on, reading fails at the first token that leaves none. -/
theorem exists_misplaced (hw : ∀ t ∈ w, t.isEof = false)
    (htail : tail = [] ∨ ∃ eof : Token, eof.isEof ∧ tail = [eof]) (h : ¬ Viable w) :
    ∃ d i t, one none (w ++ tail) = .error d ∧ FailsMisplaced (one none (w ++ tail)) ∧
      w[i]? = some t ∧ d.span = t.span ∧ ¬ Viable (w.take (i + 1)) ∧
      ∀ j < i, Viable (w.take (j + 1)) := by
  rcases one_cases hw htail with ⟨hderivable, -⟩ | ⟨⟨-, more, -, hmore⟩, -⟩ |
    ⟨front, t, back, rfl, hfront, hstuck, fault, hfault, herror⟩
  · exact absurd hderivable.viable h
  · exact absurd ⟨more, hmore⟩ h
  · refine ⟨_, front.length, t, herror, ?_, by simp, rfl, ?_, ?_⟩
    · rw [herror]
      exact failsMisplaced_error t.span hfault
    · rw [List.take_length_add_append]
      exact hstuck
    · intro j hj
      have htake : (front ++ t :: back).take (j + 1) = front.take (j + 1) :=
        List.take_append_of_le_length hj
      rw [htake]
      apply Viable.of_append (front.drop (j + 1))
      rwa [List.take_append_drop]

theorem one_misplaced_iff (hw : ∀ t ∈ w, t.isEof = false)
    (htail : tail = [] ∨ ∃ eof : Token, eof.isEof ∧ tail = [eof]) :
    FailsMisplaced (one none (w ++ tail)) ↔ ¬ Viable w := by
  constructor
  · rintro hfails ⟨more, hmore⟩
    rcases one_cases hw htail with ⟨-, e, hok⟩ | ⟨-, opened, span, herror⟩ |
      ⟨front, t, back, rfl, -, hstuck, -⟩
    · obtain ⟨d, hd, -⟩ := hfails
      rw [hok] at hd
      cases hd
    · rw [herror] at hfails
      exact not_both (failsIncomplete_error opened span) hfails
    · exact hstuck ⟨back ++ more, by simpa using hmore⟩
  · intro h
    obtain ⟨d, i, t, -, hfails, -⟩ := exists_misplaced hw htail h
    exact hfails

end classes

end Read

/-- The reader without a limit tells tokens that are no expression apart by how they might go on.
For tokens `w`, whether or not an end of line follows: it finds them incomplete exactly when they
are no expression and more tokens would make them one, and it finds a stray parenthesis or a
trailing token exactly when nothing would, at the first token with which there is no way to go
on. -/
theorem syntax_errors_classify_prefixes (w tail : List Token) (hw : ∀ t ∈ w, t.isEof = false)
    (htail : tail = [] ∨ ∃ eof : Token, eof.isEof ∧ tail = [eof]) {n : Int} (hn : n ≤ 0) :
    let result := Read.one (.ofInt n) (w ++ tail)
    ((∃ d, result = .error d ∧ d.message = utf8 "incomplete expression") ↔
      ¬ Derivable w ∧ ∃ more, more ≠ [] ∧ Derivable (w ++ more)) ∧
    ((∃ d, result = .error d ∧ (d.message = utf8 "parenthesis in wrong position" ∨
        utf8 "unexpected trailing input " <+: d.message)) ↔
      ∀ more, ¬ Derivable (w ++ more)) ∧
    ((∀ more, ¬ Derivable (w ++ more)) → ∃ d i t, result = .error d ∧ w[i]? = some t ∧
      d.span = t.span ∧ (∀ more, ¬ Derivable (w.take (i + 1) ++ more)) ∧
      ∀ j < i, ∃ more, Derivable (w.take (j + 1) ++ more)) := by
  have hlimit : DepthLimit.ofInt n = none := by simp [DepthLimit.ofInt, Int.not_lt.mpr hn]
  have hviable : ∀ tokens, (∀ more, ¬ Derivable (tokens ++ more)) ↔ ¬ Viable tokens := by
    intro tokens
    rw [Viable, not_exists]
  rw [hlimit]
  refine ⟨Read.one_incomplete_iff hw htail, ?_, ?_⟩
  · rw [hviable]
    exact Read.one_misplaced_iff hw htail
  · intro h
    obtain ⟨d, i, t, herror, -, hplace, hspan, hstuck, hbefore⟩ :=
      Read.exists_misplaced hw htail ((hviable w).mp h)
    exact ⟨d, i, t, herror, hplace, hspan, (hviable _).mpr hstuck, hbefore⟩

/-- In `('` an expression is missing, and a parenthesis there leaves no way to go on, although a
form is open. -/
theorem syntax_errors_classify_prefixes_close_after_mark :
    let opened : Token := ⟨.lparen, [0x28], .of 1 0 1⟩
    let mark : Token := ⟨.quote, Token.quoteName, .of 1 1 2⟩
    let closed : Token := ⟨.rparen, [0x29], .of 1 2 3⟩
    let eof : Token := ⟨.eof, [], .of 1 3 3⟩
    (∃ more, more ≠ [] ∧ Derivable ([opened, mark] ++ more)) ∧
      (∀ more, ¬ Derivable ([opened, mark, closed] ++ more)) ∧
      ∃ d, Read.one (.ofInt 0) [opened, mark, closed, eof] = .error d ∧ d.span = .of 1 2 3 ∧
        ∀ j < 2, ∃ more, Derivable ([opened, mark, closed].take (j + 1) ++ more) := by
  intro opened mark closed eof
  obtain ⟨hopen, -⟩ := syntax_errors_classify_prefixes [opened, mark] [] (by decide)
    (.inl rfl) (n := 0) (by decide)
  obtain ⟨-, hstuck, hleast⟩ := syntax_errors_classify_prefixes [opened, mark, closed] [eof]
    (by decide) (.inr ⟨eof, rfl, rfl⟩) (n := 0) (by decide)
  have hnone := hstuck.mp ⟨_, rfl, .inl rfl⟩
  refine ⟨(hopen.mp ⟨_, rfl, rfl⟩).2, hnone, ?_⟩
  obtain ⟨d, i, t, herror, hplace, hspan, -, hbefore⟩ := hleast hnone
  obtain rfl : _ = d := Except.error.inj herror
  match i with
  | 0 =>
      cases hplace
      exact absurd hspan (by decide)
  | 1 =>
      cases hplace
      exact absurd hspan (by decide)
  | 2 => exact ⟨_, herror, rfl, hbefore⟩
  | i + 3 => cases hplace

end LineLisp
