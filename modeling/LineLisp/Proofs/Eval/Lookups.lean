import LineLisp.Proofs.Eval.Footprint
import LineLisp.Proofs.Eval.Pairing
import LineLisp.Proofs.Expr.Sound
import LineLisp.Proofs.Scope.Lookup
import Mathlib.Data.Set.Basic

/-!
Evaluation and look-ups. An evaluation can ask a scope only for names that occur in the expression
or in the bodies of functions that it comes to call. Two scopes that answer alike for all of these
cannot be told apart, however their frames are arranged: a chain is as good as the single frame
that it amounts to, and bindings of other names are never noticed.
-/

namespace LineLisp

namespace Scope

/-- Whether two scopes give the same answers for the names of a set. -/
structure AgreeOn (S : Set Bytes) (s t : Scope) : Prop where
  value : ∀ x ∈ S, s.value? x = t.value? x
  function : ∀ x ∈ S, s.function? x = t.function? x

/-- Whether a set has every name in the bodies of the functions found under its names. -/
def Covered (S : Set Bytes) (s : Scope) : Prop :=
  ∀ x ∈ S, ∀ f, s.function? x = some f → ∀ e ∈ f.body, ∀ y ∈ e.names, y ∈ S

namespace AgreeOn

variable {S : Set Bytes} {s t : Scope}

theorem assign (h : AgreeOn S s t) (name : Bytes) (v : Value) :
    AgreeOn S (s.assign name v) (t.assign name v) where
  value x hx := by simp [h.value x hx]
  function := h.function

theorem define (h : AgreeOn S s t) (name : Bytes) (f : Function) :
    AgreeOn S (s.define name f) (t.define name f) where
  value := h.value
  function x hx := by simp [h.function x hx]

theorem enter (h : AgreeOn S s t) (frame : Frame) : AgreeOn S (s.enter frame) (t.enter frame) where
  value x hx := by simp [h.value x hx]
  function x hx := by simp [h.function x hx]

end AgreeOn

theorem Covered.define {S : Set Bytes} {s : Scope} (h : Covered S s) (name : Bytes) {f : Function}
    (hf : ∀ e ∈ f.body, ∀ y ∈ e.names, y ∈ S) : Covered S (s.define name f) := by
  intro x hx g hg
  rw [function?_define] at hg
  split at hg
  · obtain rfl := Option.some.inj hg
    exact hf
  · exact h x hx g hg

/-- A call binds no functions. -/
theorem Covered.enter {S : Set Bytes} {s : Scope} (h : Covered S s) (params : List Bytes)
    (vs : List Value) : Covered S (s.enter (Eval.arguments params vs)) := by
  intro x hx g hg
  have hsame : (s.enter (Eval.arguments params vs)).function? x = s.function? x := by
    simp [Eval.arguments]
  exact h x hx g (hsame ▸ hg)

end Scope

namespace Eval

/-- The pairing of runs in scopes that agree on `S`, with given outer frames. These are kept in
mind since leaving a frame gives back the scopes from before only if nothing was written there. -/
def Pairing.agreeing (S : Set Bytes) (outer outer' : List Frame) : Pairing where
  scope s t := s.outer = outer ∧ t.outer = outer' ∧ s.AgreeOn S t ∧ s.Covered S
  function f g := f = g ∧ ∀ e ∈ f.body, ∀ y ∈ e.names, y ∈ S
  failure := Eq
  excused _ := False
  lenient := False

theorem agreeing_exact (S : Set Bytes) (outer outer' : List Frame) :
    (Pairing.agreeing S outer outer').Exact :=
  ⟨fun _ => id, id⟩

/-- The same expression on both sides, with names of `S` only. -/
def SameWithin (S : Set Bytes) (e e' : Expr) : Prop :=
  e = e' ∧ ∀ x ∈ e.names, x ∈ S

theorem sameWithin_alike {S : Set Bytes} {e e' : Expr} (h : SameWithin S e e') :
    e.Alike (SameWithin S) e' := by
  obtain ⟨rfl, hnames⟩ := h
  cases e with
  | int span n => exact .int span span n
  | symbol span name => exact .symbol span span name
  | form span elems =>
      refine .form span span (List.forall₂_same.mpr fun e he => ⟨rfl, fun x hx => ?_⟩)
      exact hnames x (Expr.mem_names_form.mpr ⟨e, he, hx⟩)
  | absent => exact .absent

theorem SameWithin.mem {S : Set Bytes} {span span' : Span} {name : Bytes}
    (h : SameWithin S (.symbol span name) (.symbol span' name)) : name ∈ S :=
  h.2 name (by simp [Expr.names, Expr.parts, Expr.name?])

theorem forall₂_sameWithin {S : Set Bytes} {es es' : List Expr}
    (h : List.Forall₂ (SameWithin S) es es') : es = es' ∧ ∀ e ∈ es, ∀ y ∈ e.names, y ∈ S := by
  induction h with
  | nil => simp
  | cons he _ ih =>
      obtain ⟨rfl, hrest⟩ := ih
      exact ⟨by rw [he.1], List.forall_mem_cons.mpr ⟨he.2, hrest⟩⟩

theorem agreeing_sustained {S : Set Bytes} {outer outer' : List Frame} {inner inner' : Self}
    (calls : List Bytes)
    (hinner : ∀ outer outer' calls e, (∀ x ∈ e.names, x ∈ S) →
      Run.Matches (.agreeing S outer outer') (inner calls e) (inner' calls e)) :
    (Pairing.agreeing S outer outer').Sustained inner inner' calls (SameWithin S) where
  alike := sameWithin_alike
  eval := by
    rintro e _ ⟨rfl, hnames⟩
    exact hinner outer outer' calls e hnames
  data := by
    rintro e _ ⟨rfl, -⟩
    rfl
  failure := by
    rintro fault fault' e _ hfault ⟨rfl, -⟩
    rw [hfault.eq And.left]
    rfl
  value hname hst := hst.2.2.1.value _ hname.mem
  function := by
    rintro span span' name s t hname - ⟨-, -, hagree, hcovered⟩
    rw [← hagree.function name hname.mem]
    cases hfound : s.function? name with
    | none => exact .none
    | some f => exact .some ⟨rfl, hcovered name hname.mem f hfound⟩
  unbound := by
    rintro span span' name s t hname ⟨-, -, hagree, -⟩
    obtain ⟨rfl, -⟩ : span = span' ∧ True := by simpa using hname.1
    rw [hagree.function name hname.mem]
    rfl
  assign := by
    rintro span span' name v s t - ⟨houter, houter', hagree, hcovered⟩
    exact ⟨houter, houter', hagree.assign name v, hcovered⟩
  define := by
    rintro span span' name names body body' s t - hbody ⟨houter, houter', hagree, hcovered⟩
    obtain ⟨rfl, hnames⟩ := forall₂_sameWithin hbody
    exact ⟨houter, houter', hagree.define name _, hcovered.define name hnames⟩
  signature := by
    rintro f _ ⟨rfl, -⟩
    exact ⟨rfl, rfl⟩
  call := by
    rintro f _ ⟨rfl, hbody⟩ vs
    refine Run.Matches.inside fun s t hst => ⟨.agreeing S s.frames t.frames, ?_, ?_, ?_,
      fun _ _ => id, fun _ => id, id⟩
    · exact body_matches (List.forall₂_same.mpr fun e he => hinner _ _ _ e (hbody e he)) .nil
    · exact ⟨rfl, rfl, hst.2.2.1.enter _, hst.2.2.2.enter f.params vs⟩
    · rintro ⟨_, _⟩ ⟨_, _⟩ ⟨rfl, rfl, -⟩
      exact hst

/-- Evaluation from scopes that agree on all names that it can ask for goes the same way. -/
theorem eval_agrees (o : Options) (S : Set Bytes) (fuel depth : Nat) (outer outer' : List Frame)
    (calls : List Bytes) {e : Expr} (he : ∀ x ∈ e.names, x ∈ S) :
    Run.Matches (.agreeing S outer outer') (eval o fuel depth calls e)
      (eval o fuel depth calls e) := by
  induction fuel generalizing depth outer outer' calls e with
  | zero => exact fun _ _ _ => .inr rfl
  | succ fuel ih =>
      refine eval_matches (SameWithin S) ⟨rfl, he⟩ ?_ ?_ (fun _ _ => .inr) id
      · intro hcrossed
        refine ⟨hcrossed, agreeing_sustained calls fun outer outer' calls e he => ?_⟩
        exact ih (depth + 1) outer outer' calls he
      · intro n hcrossed
        exact .inr ⟨hcrossed, rfl⟩

end Eval

namespace Forest

open Eval (Options eval)

/-- The forest of one frame. -/
def single (frame : Frame) : Forest :=
  ⟨[⟨frame, none⟩]⟩

theorem scope_single (frame : Frame) : (single frame).scope 0 = .root frame := by
  unfold scope chain
  rfl

/-- Whether evaluating an expression cannot tell two frames apart, as far as the names of `S` are
concerned: under any fuel it ends in both or in neither, a whole evaluation has the same result,
and afterwards the frames still give the same answers for those names. -/
structure Indistinct (o : Options) (e : Expr) (S : Set Bytes) (f : Forest) (i : Nat) (g : Forest)
    (j : Nat) : Prop where
  ends : ∀ fuel, eval o fuel 0 [] e (f.scope i) = .unfinished ↔
    eval o fuel 0 [] e (g.scope j) = .unfinished
  result : (f.evaluate o i e).1 = (g.evaluate o j e).1
  value : ∀ x ∈ S, (f.evaluate o i e).2.value? i x = (g.evaluate o j e).2.value? j x
  function : ∀ x ∈ S, (f.evaluate o i e).2.function? i x = (g.evaluate o j e).2.function? j x

theorem indistinct_of_agreeOn (o : Options) {e : Expr} {S : Set Bytes} {f g : Forest} {i j : Nat}
    (hi : i < f.size) (hj : j < g.size) (he : ∀ x ∈ e.names, x ∈ S)
    (hcovered : (f.scope i).Covered S) (hagree : (f.scope i).AgreeOn S (g.scope j)) :
    f.Indistinct o e S i g j := by
  let p := Eval.Pairing.agreeing S (f.scope i).outer (g.scope j).outer
  have hp : p.Exact := Eval.agreeing_exact ..
  have hstart : p.scope (f.scope i) (g.scope j) := ⟨rfl, rfl, hagree, hcovered⟩
  have hmatches : ∀ fuel, Eval.Run.Matches p (eval o fuel 0 [] e) (eval o fuel 0 [] e) :=
    fun fuel => Eval.eval_agrees o S fuel 0 _ _ [] he
  obtain ⟨hresult, -, -, hafter, -⟩ := Eval.evaluate_matches hp (hmatches o.fuel) hstart
  rw [← scope_evaluate o hi, ← scope_evaluate o hj] at hafter
  refine ⟨fun fuel => (hmatches fuel _ _ hstart).unfinished_iff hp, ?_, hafter.value,
    hafter.function⟩
  change (Eval.evaluate o e (f.scope i)).1 = (Eval.evaluate o e (g.scope j)).1
  cases hfirst : (Eval.evaluate o e (f.scope i)).1 with
  | value v =>
      rw [hfirst] at hresult
      exact hresult.symm
  | failure d =>
      rw [hfirst] at hresult
      obtain ⟨failure, _, rfl, hsecond, rfl⟩ := hresult
      exact hsecond.symm
  | unfinished =>
      rw [hfirst] at hresult
      exact hresult.symm

/-- A frame that answers like the one in its place, as far as the names of `S` are concerned, cannot
be told from it. -/
theorem indistinct_setFrame (o : Options) {e : Expr} {S : Set Bytes} {f : Forest} {i k : Nat}
    {frame : Frame} (hi : i < f.size) (he : ∀ x ∈ e.names, x ∈ S)
    (hcovered : (f.scope i).Covered S)
    (hvars : ∀ x ∈ S, frame.vars.get? x = (f.frame k).vars.get? x)
    (hfuncs : ∀ x ∈ S, frame.funcs.get? x = (f.frame k).funcs.get? x) :
    f.Indistinct o e S i (f.setFrame k frame) i := by
  apply indistinct_of_agreeOn o hi (by simpa using hi) he hcovered
  constructor
  · intro x hx
    exact (findSome?_setFrame (·.vars.get? x) (hvars x hx) i).symm
  · intro x hx
    exact (findSome?_setFrame (·.funcs.get? x) (hfuncs x hx) i).symm

/-- Evaluation depends on the look-ups of relevant names and on nothing else about frames. Let `S`
have every name in the expression and in the bodies of functions that a frame finds under names of
`S`. A frame of any forest that gives the same answers for the names of `S` cannot be told from it.
So neither can the single frame that its chain amounts to, for any names at all, and it does not
matter what any frame binds under other names. -/
theorem evaluation_depends_on_lookups (o : Options) (e : Expr) (f : Forest) {i : Nat}
    (hi : i < f.size) :
    (∀ S : Set Bytes, (∀ x ∈ e.names, x ∈ S) → (f.scope i).Covered S →
      (∀ (g : Forest) (j : Nat), j < g.size →
        (∀ x ∈ S, f.value? i x = g.value? j x ∧ f.function? i x = g.function? j x) →
        f.Indistinct o e S i g j) ∧
      ∀ x, x ∉ S → ∀ k,
        (∀ v, f.Indistinct o e S i (f.assign k x v) i) ∧
        ∀ fn, f.Indistinct o e S i (f.define k x fn) i) ∧
    f.Indistinct o e Set.univ i (single (f.scope i).flat) 0 := by
  refine ⟨fun S he hcovered => ⟨?_, ?_⟩, ?_⟩
  · intro g j hj hagree
    exact indistinct_of_agreeOn o hi hj he hcovered
      ⟨fun x hx => (hagree x hx).1, fun x hx => (hagree x hx).2⟩
  · intro x hx k
    have hne : ∀ y ∈ S, y ≠ x := fun y hy heq => hx (heq ▸ hy)
    constructor
    · intro v
      rw [assign_eq_setFrame]
      refine indistinct_setFrame o hi he hcovered (fun y hy => ?_) fun _ _ => rfl
      simp [hne y hy]
    · intro fn
      rw [define_eq_setFrame]
      refine indistinct_setFrame o hi he hcovered (fun _ _ => rfl) fun y hy => ?_
      simp [hne y hy]
  · refine indistinct_of_agreeOn o hi Nat.zero_lt_one (fun _ _ => trivial)
      (fun _ _ _ _ _ _ _ _ => trivial) ?_
    rw [scope_single]
    exact ⟨fun x _ => by simp, fun x _ => by simp⟩

/-- A function found in the frame above adds its argument to a variable found there too. The frame
above by itself, with another variable beside those, serves as well. -/
theorem evaluation_depends_on_lookups_inherited :
    let symbol (name : String) : Expr := .symbol .zero (utf8 name)
    let add : Function :=
      ⟨utf8 "f", [utf8 "x"], [.form .zero [symbol "+", symbol "x", symbol "y"]]⟩
    let call : Expr := .form .zero [symbol "f", .int .zero 1]
    let root := (empty.addRoot.define 0 (utf8 "f") add).assign 0 (utf8 "y") (.int 2)
    let f := root.addChild 0
    let g := root.assign 0 (utf8 "z") .nil
    let S : Set Bytes := {x | x ∈ [utf8 "f", utf8 "+", utf8 "x", utf8 "y"]}
    1 < f.size ∧ (f.scope 1).Covered S ∧ (f.evaluate .standard 1 call).1 = .value (.int 3) ∧
      f.Indistinct .standard call S 1 g 0 := by
  intro symbol add call root f g S
  let vars : Bindings Value := Bindings.empty.insert (utf8 "y") (.int 2)
  let funcs : Bindings Function := Bindings.empty.insert (utf8 "f") add
  have hf : f.scope 1 = ⟨.empty, [⟨vars, funcs⟩]⟩ := by with_unfolding_all rfl
  have hg : g.scope 0 = ⟨⟨vars.insert (utf8 "z") .nil, funcs⟩, []⟩ := by with_unfolding_all rfl
  have hcovered : (f.scope 1).Covered S := by
    intro x _ fn hfn
    have hfound : (f.scope 1).function? x = if x = utf8 "f" then some add else none := by
      simp [hf, Scope.function?_eq_or, Frame.empty, funcs]
    obtain ⟨-, rfl⟩ : x = utf8 "f" ∧ add = fn := by simpa [hfound] using hfn
    change ∀ e ∈ add.body, ∀ y ∈ e.names, y ∈ [utf8 "f", utf8 "+", utf8 "x", utf8 "y"]
    decide
  have hagree : ∀ x ∈ S, f.value? 1 x = g.value? 0 x ∧ f.function? 1 x = g.function? 0 x := by
    intro x hx
    have hz : x ≠ utf8 "z" := by
      rintro rfl
      revert hx
      change utf8 "z" ∉ [utf8 "f", utf8 "+", utf8 "x", utf8 "y"]
      decide
    simp [value?, function?, hf, hg, Scope.value?_eq_or, Scope.function?_eq_or, Frame.empty, hz]
  have hcall : ∀ x ∈ call.names, x ∈ S := by
    change ∀ x ∈ call.names, x ∈ [utf8 "f", utf8 "+", utf8 "x", utf8 "y"]
    decide
  have hi : 1 < f.size := by decide +kernel
  have hj : 0 < g.size := by decide +kernel
  refine ⟨hi, hcovered, by with_unfolding_all rfl, ?_⟩
  exact ((evaluation_depends_on_lookups .standard call f hi).1 S hcall hcovered).1 g 0 hj hagree

end Forest

end LineLisp
