import LineLisp.Proofs.Session.Completion
import LineLisp.Session

/-!
Parentheses that are closed but not open. A reader refuses one of the tokens up to such a
parenthesis, whatever comes behind it. A gathering counts parentheses without regard to their
order, so it completes a source with such a parenthesis unless more are opened elsewhere.
-/

namespace LineLisp

/-- Whether lexemes close more parentheses than they open. -/
def Token.Overclosed (lexemes : List (Token.Kind × Bytes)) : Prop :=
  lexemes.countP (·.1 = .lparen) < lexemes.countP (·.1 = .rparen)

instance (lexemes : List (Token.Kind × Bytes)) : Decidable (Token.Overclosed lexemes) :=
  inferInstanceAs (Decidable (_ < _))

theorem Token.overclosed_iff_excess {lexemes : List (Token.Kind × Bytes)} :
    Token.Overclosed lexemes ↔ Token.excess lexemes < 0 := by
  rw [Token.excess_eq_countP, Token.Overclosed]
  omega

namespace Read

/-- Whether a diagnostic is about a token that has no place where it stands, or none within the
limit. -/
def Refuses (limit : DepthLimit) (t : Token) (d : Diagnostic) : Prop :=
  d = (Fault.trailing t.lexeme).diagnostic t.span ∨ d = Fault.strayClose.diagnostic t.span ∨
    ∃ n, limit = some n ∧ d = (Fault.tooDeep n).diagnostic t.span

theorem refuses_of_stepOne {limit : DepthLimit} {s : State} {t : Token} {d : Diagnostic}
    (h : stepOne limit s t = .error d) : Refuses limit t d := by
  rcases stepOne_error h with hd | hd | ⟨n, hcrossed, hd⟩
  · exact .inl hd
  · exact .inr (.inl hd)
  · exact .inr (.inr ⟨n, DepthLimit.eq_some_of_crossed hcrossed, hd⟩)

/-- Of tokens that close more than they open one is refused, whatever comes behind them: all that a
reader takes leaves a number of forms open. -/
theorem one_of_overclosed (limit : DepthLimit) {tokens front : List Token}
    (hfront : front <+: Token.body tokens) (hclosed : Token.parenBalance front < 0) :
    ∃ t ∈ front, ∃ d, one limit tokens = .error d ∧ Refuses limit t d := by
  have heof : ∀ t ∈ front, t.isEof = false := fun t ht => isEof_of_mem_body (hfront.subset ht)
  cases hrun : front.foldlM (stepOne limit) .empty with
  | ok s =>
      have hopen := parenBalance_of_run heof hrun
      omega
  | error d =>
      obtain ⟨back, hbody⟩ := hfront
      have hall : (Token.body tokens).foldlM (stepOne limit) .empty = .error d := by
        rw [← hbody, List.foldlM_append, hrun]
        rfl
      obtain ⟨before, t, after, s, rfl, -, herror⟩ := exists_error_of_foldlM hrun
      exact ⟨t, by simp, d, one_of_error hall, refuses_of_stepOne herror⟩

end Read

theorem Session.answerAt_of_error {s : Session} {number : Nat} {text : Bytes} {d : Diagnostic}
    (h : Read.one s.options.limit (Scan.tokens number text) = .error d) :
    s.answerAt number text = (.failure d, s) := by
  rw [answerAt, h]

/-- A text whose lexemes somewhere close more than they open is refused up to there, and the session
stays as it is. -/
theorem Session.answerAt_of_overclosed (s : Session) (number : Nat) {text : Bytes}
    {front : List (Token.Kind × Bytes)} (hfront : front <+: Scan.lexemes text)
    (hclosed : Token.Overclosed front) :
    ∃ t ∈ (Token.body (Scan.tokens number text)).take front.length, ∃ d,
      s.answerAt number text = (.failure d, s) ∧ Read.Refuses s.options.limit t d := by
  let first := (Token.body (Scan.tokens number text)).take front.length
  have hlexemes : first.map (fun t => (t.kind, t.lexeme)) = front := by
    rw [List.map_take, Scan.map_body_tokens]
    exact (List.prefix_iff_eq_take.mp hfront).symm
  have hbalance : Token.parenBalance first < 0 := by
    rw [← Token.excess_map, hlexemes]
    exact Token.overclosed_iff_excess.mp hclosed
  obtain ⟨t, ht, d, hread, hrefuses⟩ :=
    Read.one_of_overclosed s.options.limit (List.take_prefix ..) hbalance
  exact ⟨t, ht, d, answerAt_of_error hread, hrefuses⟩

namespace Gathering

/-- A line completes a source exactly if the lines so far open no more than they close. -/
theorem Sound.add_isSome_iff {g : Gathering} (h : g.Sound) {line : Bytes}
    {lexemes : List (Token.Kind × Bytes)}
    (hlexemes : (g.held.reverse ++ [line]).flatMap Scan.lexemes = lexemes) :
    (g.add line).1.isSome ↔
      lexemes.countP (·.1 = .lparen) ≤ lexemes.countP (·.1 = .rparen) := by
  have htotal : Token.excess lexemes = g.depth + Line.balance line := by
    rw [← hlexemes, excess_flatMap, List.map_append, List.sum_append, List.map_reverse,
      List.sum_reverse, ← h.depth]
    simp
  rw [Token.excess_eq_countP] at htotal
  rcases g.add_cases line with ⟨hopen, hadd⟩ | ⟨hclosed, hadd⟩
  · rw [hadd]
    exact iff_of_false Bool.false_ne_true (by omega)
  · rw [hadd]
    exact iff_of_true rfl (by omega)

/-- Surplus parentheses. After any operations, where the lines since the last complete source or
reset and one more line somewhere close more parentheses than they open, that line completes a
source exactly if they open no more than they close in all. In every source that is then completed
a session refuses a token, none behind the surplus parenthesis, and stays as it is. -/
theorem surplus_completes_unless_outnumbered (actions : List Action) (line : Bytes)
    (front : List (Token.Kind × Bytes)) :
    let g := (history actions).gathering
    let since := linesSince (history actions).transcript
    let lexemes := (since.reverse ++ [line]).flatMap Scan.lexemes
    front <+: lexemes → Token.Overclosed front →
    ((g.add line).1.isSome ↔
      lexemes.countP (·.1 = .lparen) ≤ lexemes.countP (·.1 = .rparen)) ∧
    ∀ text, (g.add line).1 = some text → ∀ (s : Session) (number : Nat),
      ∃ t ∈ (Token.body (Scan.tokens number text)).take front.length, ∃ d,
        s.answerAt number text = (.failure d, s) ∧ Read.Refuses s.options.limit t d := by
  intro g since lexemes hfront hclosed
  have hsound : g.Sound := (history_sound actions).gathering
  have hheld : g.held = since := (history_sound actions).held
  refine ⟨hsound.add_isSome_iff (by rw [hheld]), ?_⟩
  intro text hadd s number
  obtain ⟨hlexemes, -, -⟩ := hsound.complete hadd
  rw [hheld, List.reverse_cons] at hlexemes
  apply s.answerAt_of_overclosed number _ hclosed
  rwa [hlexemes]

/-- The second line closes one parenthesis too many and opens another, so none is open in all. -/
theorem surplus_completes_unless_outnumbered_reopened :
    let held := utf8 "(list 1"
    let line := utf8 "2)) '("
    let text := utf8 "(list 1 2)) '("
    let front := ([held, line].flatMap Scan.lexemes).take 6
    Token.Overclosed front ∧ ((history [.add held]).gathering.add line).1 = some text ∧
    ∀ (s : Session) (number : Nat),
      ∃ t ∈ (Token.body (Scan.tokens number text)).take front.length, ∃ d,
        s.answerAt number text = (.failure d, s) ∧ Read.Refuses s.options.limit t d := by
  intro held line text front
  have hclosed : Token.Overclosed front := by decide
  have hadd : ((history [.add held]).gathering.add line).1 = some text := by decide
  have hfront : front <+: [held, line].flatMap Scan.lexemes := List.take_prefix ..
  obtain ⟨-, hrefused⟩ := surplus_completes_unless_outnumbered [.add held] line front hfront hclosed
  exact ⟨hclosed, hadd, hrefused text hadd⟩

/-- A surplus parenthesis does not complete a source by itself: this line closes one that is not
open and is held, since it opens two. -/
theorem outnumbered_surplus_is_held :
    ¬ ∀ (actions : List Action) (line : Bytes) (front : List (Token.Kind × Bytes)),
      let since := linesSince (history actions).transcript
      (∀ earlier, earlier <+: since.reverse.flatMap Scan.lexemes → ¬ Token.Overclosed earlier) →
      front <+: (since.reverse ++ [line]).flatMap Scan.lexemes → Token.Overclosed front →
      ((history actions).gathering.add line).1.isSome := by
  intro hcompletes
  have hnone : ∀ earlier, earlier <+: ([] : List (Token.Kind × Bytes)) →
      ¬ Token.Overclosed earlier := by
    intro earlier hearlier
    rw [List.prefix_nil.mp hearlier]
    decide
  exact absurd (hcompletes [] (utf8 ") ((") [(.rparen, utf8 ")")] hnone (by decide) (by decide))
    (by decide)

end Gathering

end LineLisp
