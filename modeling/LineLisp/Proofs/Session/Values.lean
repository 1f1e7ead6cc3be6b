import LineLisp.Proofs.Session.Invariant
import LineLisp.Proofs.Value.Quotation

/-!
The values that sessions come to. A step yields the values of the lines that it evaluates, and the
root frame holds what was assigned. All of them are sound, so that each is read back from its own
text behind a quote mark, whatever the session that reads it.
-/

namespace LineLisp.Session

/-- Whether a step evaluates a line to a value, which it returns or reports. -/
def Yields (s : Session) : Action → Value → Prop
  | .answer line, v => (s.answer line).1 = .value v
  | .process line, v => Line.isBlank line = false ∧ (s.answer line).1 = .value v
  | .processFile text broken, v => ∃ before line after,
      (Line.read text broken).lines = before ++ line :: after ∧ Line.isBlank line = false ∧
      ((FileRun.runFrom ⟨0, [], s⟩ 1 before).session.answerAt (before.length + 1) line).1 = .value v

/-- The values that a new session with given options comes to: those that a step yields after any
others, and those that the root frame holds. -/
inductive Reaches (o : Eval.Options) (v : Value) : Prop where
  | yielded (actions : List Action) (action : Action)
      (h : (actions.foldl Session.perform (.new o)).Yields action v)
  | bound (actions : List Action) (name : Bytes)
      (h : (actions.foldl Session.perform (.new o)).scope.frame.vars.get? name = some v)

theorem Sound.yields {o : Eval.Options} {s : Session} (h : s.Sound o) {action : Action} {v : Value}
    (hv : s.Yields action v) : v.Sound := by
  have hnext := h.withLineCount (s.lineCount + 1)
  cases action with
  | answer line => exact (hnext.answerAt _ line).2.1 v hv
  | process line => exact (hnext.answerAt _ line).2.1 v hv.2
  | processFile text broken =>
      obtain ⟨before, line, after, -, -, hvalue⟩ := hv
      have hbefore := (Sound.runFrom (r := ⟨0, [], s⟩) h 1 before).1
      exact (hbefore.answerAt _ line).2.1 v hvalue

theorem Reaches.sound {o : Eval.Options} {v : Value} (h : Reaches o v) : v.Sound := by
  cases h with
  | yielded actions action h => exact ((new_sound o).performAll actions).yields h
  | bound actions name h =>
      have hscope := ((new_sound o).performAll actions).scope
      have hframe := hscope _ (List.mem_cons_self ..)
      exact (hframe.vars name v (Bindings.mem_entries_of_get? h)).2

/-- A value that a session comes to is shown as its text and read back from it. Behind a quote mark,
and read without a limit, the text evaluates in every session to the value with its booleans and its
`nil` as symbols and changes nothing there; so a value without those is read back as the same value,
and two such values that are written alike are the same. -/
theorem printed_values_read_back {o : Eval.Options} {v : Value} (hv : Reaches o v) :
    v.shown = v.text ∧
    (∀ (strict : Bool) (n : Int) (actions : List Action) (line : Int),
      let s := actions.foldl Session.perform (.new ⟨strict, .ofInt n⟩)
      ∃ e, Read.one (.ofInt 0) (Scan.tokens line (0x27 :: v.text)) = .ok e ∧
        s.evaluate e = (.value v.spelled, s)) ∧
    (v.isPlain → v.spelled.same v) ∧
    (∀ o' u, Reaches o' u → v.isPlain → u.isPlain → u.text = v.text → u.same v) := by
  have hsame : v.isPlain → v.spelled.same v := by
    intro hplain
    rw [Value.spelled_eq_self hplain]
    exact Value.same_self hv.sound.whole
  refine ⟨Value.shown_of_whole hv.sound.whole, ?_, hsame, ?_⟩
  · intro strict n actions line s
    have hsound : s.Sound ⟨strict, .ofInt n⟩ := (new_sound _).performAll actions
    have hlimit : s.options.limit.crossed 1 = none := by
      rw [hsound.options]
      exact DepthLimit.crossed_one_ofInt n
    obtain ⟨e, hread, heval⟩ := hv.sound.exists_read line
    refine ⟨e, hread, ?_⟩
    rw [Session.evaluate, heval _ _ hlimit]
  · intro o' u hu hplain hplain' htext
    have hspelled := hu.sound.spelled_eq hv.sound htext
    have hback := hsame hplain
    rwa [← hspelled, Value.spelled_eq_self hplain'] at hback

/-- The value of a variable, read back in another session that allows one level only: the truth
value and `nil` come back as symbols, and the list among them as it was, which a third session
makes from its parts. -/
theorem printed_values_read_back_signed :
    let made := Value.list [.symbol (utf8 "+"), .int (-5)]
    let v := Value.list [.bool true, .nil, made]
    Reaches ⟨true, some 9⟩ v ∧ v.text = utf8 "(true nil (+ -5))" ∧
    (∃ e, Read.one (.ofInt 0) (Scan.tokens 3 (utf8 "'(true nil (+ -5))")) = .ok e ∧
      (Session.new ⟨false, .ofInt 1⟩).evaluate e =
        (.value (.list [.symbol (utf8 "true"), .symbol (utf8 "nil"), made]),
          .new ⟨false, .ofInt 1⟩)) ∧
    Reaches ⟨true, some 9⟩ made ∧ Reaches ⟨false, some 9⟩ made ∧ made.spelled.same made ∧
      made.same made := by
  intro made v
  have hv : Reaches ⟨true, some 9⟩ v :=
    .bound [.process (utf8 "(setq x (list (< 0 1) nil '(+ -5)))")] (utf8 "x") (by rfl)
  have hmade : Reaches ⟨true, some 9⟩ made :=
    .yielded [] (.processFile (utf8 "; none\n(list '+ (- 0 5))") none)
      ⟨[utf8 "; none"], utf8 "(list '+ (- 0 5))", [], by rfl, by rfl, by rfl⟩
  have hother : Reaches ⟨false, some 9⟩ made := .yielded [] (.answer (utf8 "'(+ -5)")) (by rfl)
  obtain ⟨-, -, hback, halike⟩ := printed_values_read_back hmade
  refine ⟨hv, by decide +kernel, ?_, hmade, hother, hback rfl, ?_⟩
  · exact (printed_values_read_back hv).2.1 false 1 [] 3
  · exact halike _ _ hother rfl rfl rfl

end LineLisp.Session
