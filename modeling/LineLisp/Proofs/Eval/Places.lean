import LineLisp.Proofs.Eval.Footprint
import LineLisp.Proofs.Eval.Pairing
import LineLisp.Proofs.Scope.Unplaced

/-!
Evaluation and places. An expression carries its place in every part, and a function keeps the
places of its body, but an evaluation only ever copies them into failures. So expressions that are
the same up to places, in scopes that are the same up to places, come to the same value or to
failures that tell the same apart from where, and leave scopes behind that are the same up to
places again.

Which places are taken for the same may be chosen, and chosen anew for the bodies of functions,
whose places need not be looked at as closely as those of the expression that is evaluated. What is
seen alike beforehand is seen alike afterwards, in the failures too.
-/

namespace LineLisp.Eval

/-- Whether two expressions differ in places only. -/
def SamePlaceless (e e' : Expr) : Prop :=
  e.unplaced = e'.unplaced

/-- Whether two failures tell the same apart from where. -/
structure Failure.SameButPlace (first second : Failure) : Prop where
  kind : first.fault.kind = second.fault.kind
  message : first.fault.message = second.fault.message
  hint : first.fault.hint = second.fault.hint
  calls : first.calls = second.calls

theorem Failure.SameButPlace.diagnostic {first second : Failure}
    (h : first.SameButPlace second) :
    second.diagnostic = { first.diagnostic with span := second.span } := by
  simp only [Failure.diagnostic, h.kind, h.message, h.hint, h.calls]

/-- The pairing of runs in scopes that differ in places only. -/
def Pairing.placeless : Pairing where
  scope s t := s.unplaced = t.unplaced
  function f g := f.unplaced = g.unplaced
  failure := Failure.SameButPlace
  excused _ := False
  lenient := False

theorem placeless_exact : Pairing.placeless.Exact :=
  ⟨fun _ => id, id⟩

section sameUpTo

variable {R : Span → Span → Prop} {e e' : Expr}

theorem alike_of_sameUpTo (h : e.SameUpTo R e') : e.Alike (Expr.SameUpTo R) e' := by
  cases h with
  | int _ value => exact .int _ _ value
  | symbol _ name => exact .symbol _ _ name
  | form _ helems => exact .form _ _ helems
  | absent => exact .absent

theorem ofExpr_eq_of_sameUpTo (h : e.SameUpTo R e') : Value.ofExpr e = Value.ofExpr e' := by
  rw [← Expr.ofExpr_unplaced e, h.unplaced, Expr.ofExpr_unplaced]

theorem shown_eq_of_sameUpTo (h : e.SameUpTo R e') :
    e.shown = e'.shown := by
  unfold Expr.shown
  rw [← Expr.isWhole_unplaced e, ← Expr.text_unplaced e, h.unplaced, Expr.isWhole_unplaced,
    Expr.text_unplaced]

/-- A fault shows an expression by its text, which no place is part of. -/
theorem Fault.Alike.sameButPlace {fault fault' : Fault}
    (h : fault.Alike (Expr.SameUpTo R) fault') (span span' : Span) (calls : List Bytes) :
    Failure.SameButPlace ⟨fault, span, calls⟩ ⟨fault', span', calls⟩ := by
  have hmessage : fault.message = fault'.message := by
    cases h with
    | refl => rfl
    | setqTarget h => simp only [message, shown_eq_of_sameUpTo h]
    | condClause h => simp only [message, shown_eq_of_sameUpTo h]
    | functionName h => simp only [message, shown_eq_of_sameUpTo h]
    | parameterList function h => simp only [message, shown_eq_of_sameUpTo h]
    | parameter function h => simp only [message, shown_eq_of_sameUpTo h]
  cases h <;> exact ⟨rfl, hmessage, rfl, rfl⟩

end sameUpTo

/-- Which places are taken for the same: those in the line that is evaluated, and those in the
bodies of functions. A line may become a body, so bodies are not looked at more closely. -/
structure View where
  line : Span → Span → Prop
  body : Span → Span → Prop
  refl : ∀ span, line span span
  coarser : ∀ span span', line span span' → body span span'

namespace View

/-- The view that tells no places apart. -/
def blind : View :=
  ⟨fun _ _ => True, fun _ _ => True, fun _ => trivial, fun _ _ => id⟩

/-- Which places are taken for the same under the active calls, the innermost of which is
evaluating its body. -/
def under (view : View) : List Bytes → Span → Span → Prop
  | [] => view.line
  | _ :: _ => view.body

variable (view : View)

theorem body_refl (span : Span) : view.body span span :=
  view.coarser span span (view.refl span)

theorem under_refl (calls : List Bytes) (span : Span) : view.under calls span span := by
  cases calls with
  | nil => exact view.refl span
  | cons _ _ => exact view.body_refl span

/-- What a line has in common, bodies made from it have in common. -/
theorem body_of_under {calls : List Bytes} (span span' : Span)
    (h : view.under calls span span') : view.body span span' := by
  cases calls with
  | nil => exact view.coarser span span' h
  | cons _ _ => exact h

theorem blind_under (calls : List Bytes) (span span' : Span) : blind.under calls span span' := by
  cases calls <;> trivial

end View

/-- The pairing of runs that a view does not tell apart. -/
def Pairing.through (view : View) : Pairing where
  scope := Scope.SameUpTo view.body
  function := Function.SameUpTo view.body
  failure first second := first.SameButPlace second ∧
    view.under first.calls first.span second.span
  excused _ := False
  lenient := False

theorem through_exact (view : View) : (Pairing.through view).Exact :=
  ⟨fun _ => id, id⟩

theorem through_sustained (view : View) {inner inner' : Self} (calls : List Bytes)
    (hinner : ∀ calls {e e'}, Expr.SameUpTo (view.under calls) e e' →
      Run.Matches (.through view) (inner calls e) (inner' calls e')) :
    (Pairing.through view).Sustained inner inner' calls (Expr.SameUpTo (view.under calls)) where
  alike := alike_of_sameUpTo
  eval he := hinner calls he
  data := ofExpr_eq_of_sameUpTo
  failure hfault he := ⟨hfault.sameButPlace _ _ calls, he.span (view.under_refl calls)⟩
  value _ hst := Scope.SameUpTo.value? hst _
  function _ _ hst := Scope.SameUpTo.function? hst _
  unbound := by
    intro span span' name s t hname hst
    rw [Scope.SameUpTo.isSome_function? hst name]
    exact ⟨⟨rfl, rfl, rfl, rfl⟩, hname.span (view.under_refl calls)⟩
  assign _ hst := Scope.SameUpTo.assign hst _ _
  define _ hbody hst := by
    refine Scope.SameUpTo.define hst _ ⟨rfl, rfl, ?_⟩
    exact hbody.imp fun _ _ he => he.imp view.body_of_under
  signature hfg := ⟨hfg.name, hfg.params⟩
  call := by
    intro f g hfg vs
    have hbodies : List.Forall₂ (Expr.SameUpTo (view.under (g.name :: calls))) f.body g.body :=
      hfg.body
    rw [hfg.name, hfg.params]
    refine Run.Matches.inside fun s t hst =>
      ⟨.through view, ?_, ?_, ?_, fun _ _ => id, fun _ => id, id⟩
    · exact body_matches (hbodies.imp fun _ _ => hinner _) .nil
    · exact Scope.SameUpTo.enter view.body_refl hst _
    · exact fun s' t' hst' => Scope.SameUpTo.leave hst'

/-- Evaluation of what a view does not tell apart comes to what it does not tell apart. -/
theorem eval_through (view : View) (o : Options) (fuel depth : Nat) (calls : List Bytes)
    {e e' : Expr} (h : e.SameUpTo (view.under calls) e') :
    Run.Matches (.through view) (eval o fuel depth calls e) (eval o fuel depth calls e') := by
  induction fuel generalizing depth calls e e' with
  | zero => exact fun _ _ _ => .inr rfl
  | succ fuel ih =>
      refine eval_matches (Expr.SameUpTo (view.under calls)) h ?_ ?_ (fun _ _ => .inr) id
      · intro hcrossed
        exact ⟨hcrossed, through_sustained view calls fun calls _ _ => ih (depth + 1) calls⟩
      · intro n hcrossed
        exact .inr ⟨hcrossed, ⟨rfl, rfl, rfl, rfl⟩, h.span (view.under_refl calls)⟩

theorem placeless_eq_through : Pairing.placeless = .through .blind := by
  have hscope : ∀ s t : Scope, s.unplaced = t.unplaced ↔ s.SameUpTo View.blind.body t := fun s t =>
    ⟨fun h => .of_unplaced h fun _ _ _ => trivial, fun h => h.unplaced⟩
  have hfunction : ∀ f g : Function, f.unplaced = g.unplaced ↔ f.SameUpTo View.blind.body g :=
    fun f g => ⟨fun h => .of_unplaced h fun _ _ => trivial, fun h => h.unplaced⟩
  simp only [Pairing.placeless, Pairing.through, hscope, hfunction, View.blind_under, and_true]

/-- Evaluation of what differs in places only differs in places only. -/
theorem eval_placeless (o : Options) (fuel depth : Nat) (calls : List Bytes) {e e' : Expr}
    (h : SamePlaceless e e') :
    Run.Matches .placeless (eval o fuel depth calls e) (eval o fuel depth calls e') := by
  rw [placeless_eq_through]
  exact eval_through _ o fuel depth calls (.of_unplaced h fun _ _ => View.blind_under ..)

end LineLisp.Eval

namespace LineLisp.Forest

open Eval (Options eval)

/-- Evaluation ignores places. Let two expressions be the same, and two frames be at the front of
chains that differ only in places in the bodies of functions. Under the same options and any fuel,
evaluation ends for both or for neither; a whole evaluation gives the same value or diagnostics that
differ in their span only, and the chains that it leaves behind differ again only in places in the
bodies of functions. -/
theorem evaluation_ignores_places (o : Options) {e e' : Expr} (he : e.same e') {f g : Forest}
    {i j : Nat} (hi : i < f.size) (hj : j < g.size)
    (hscopes : (f.scope i).unplaced = (g.scope j).unplaced) :
    let first := f.evaluate o i e
    let second := g.evaluate o j e'
    (∀ fuel, eval o fuel 0 [] e (f.scope i) = .unfinished ↔
      eval o fuel 0 [] e' (g.scope j) = .unfinished) ∧
    ((∃ v, first.1 = .value v ∧ second.1 = .value v) ∨
      (∃ d span, first.1 = .failure d ∧ second.1 = .failure { d with span := span }) ∨
      (first.1 = .unfinished ∧ second.1 = .unfinished)) ∧
    (first.2.scope i).unplaced = (second.2.scope j).unplaced := by
  intro first second
  have hsame : Eval.SamePlaceless e e' := (Expr.same_iff_unplaced.mp he).2
  have hmatches := fun fuel => Eval.eval_placeless o fuel 0 [] hsame
  have hends := fun fuel => (hmatches fuel _ _ hscopes).unfinished_iff Eval.placeless_exact
  obtain ⟨hresult, hafter⟩ :=
    Eval.evaluate_matches Eval.placeless_exact (hmatches o.fuel) hscopes
  rw [← scope_evaluate o hi, ← scope_evaluate o hj] at hafter
  change first.1.Matches Eval.Pairing.placeless second.1 at hresult
  refine ⟨hends, ?_, hafter⟩
  cases hfirst : first.1 with
  | value v =>
      rw [hfirst] at hresult
      exact .inl ⟨v, rfl, hresult⟩
  | failure d =>
      rw [hfirst] at hresult
      obtain ⟨failure, failure', rfl, hsecond, hfailure⟩ := hresult
      exact .inr (.inl ⟨_, failure'.span, rfl, hfailure.diagnostic ▸ hsecond⟩)
  | unfinished =>
      rw [hfirst] at hresult
      exact .inr (.inr ⟨rfl, hresult⟩)

/-- A function divides by its argument. Read from two lines and called from two others with zero, it
fails twice for the same reason. -/
theorem evaluation_ignores_places_division :
    let divide (line : Int) : Function := ⟨utf8 "f", [utf8 "x"],
      [.form (.of line 13 20) [.symbol (.of line 14 15) (utf8 "/"), .int (.of line 16 17) 1,
        .symbol (.of line 18 19) (utf8 "x")]]⟩
    let call (line : Int) : Expr :=
      .form (.of line 0 5) [.symbol (.of line 1 2) (utf8 "f"), .int (.of line 3 4) 0]
    let f (line : Int) := empty.addRoot.define 0 (utf8 "f") (divide line)
    (call 2).same (call 9) ∧ ((f 1).scope 0).unplaced = ((f 8).scope 0).unplaced ∧
      ∃ d span, ((f 1).evaluate .standard 0 (call 2)).1 = .failure d ∧
        d.kind = .divisionByZero ∧ d.span = .of 1 18 19 ∧
        ((f 8).evaluate .standard 0 (call 9)).1 = .failure { d with span := span } := by
  intro divide call f
  have hsame : (call 2).same (call 9) := by decide
  have hscopes : ((f 1).scope 0).unplaced = ((f 8).scope 0).unplaced := by with_unfolding_all rfl
  have hfails : ((f 1).evaluate .standard 0 (call 2)).1 = .failure
      ⟨.divisionByZero, utf8 "division by zero", .of 1 18 19, [], [utf8 "f"]⟩ := by
    with_unfolding_all rfl
  obtain ⟨-, ⟨v, hvalue, -⟩ | ⟨d, span, hfirst, hsecond⟩ | ⟨hunfinished, -⟩, -⟩ :=
    evaluation_ignores_places .standard hsame (i := 0) (j := 0) (f := f 1) (g := f 8)
      (by decide +kernel) (by decide +kernel) hscopes
  · simp [hfails] at hvalue
  · have hd := hfails.symm.trans hfirst
    cases hd
    exact ⟨hsame, hscopes, _, span, hfails, rfl, rfl, hsecond⟩
  · simp [hfails] at hunfinished

end LineLisp.Forest
