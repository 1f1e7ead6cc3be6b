import LineLisp.Eval
import Mathlib.Data.List.Forall2

/-!
Two runs side by side. A pairing says which scopes, functions and failures of a first and of a
second run belong together. The runs match when, from scopes that belong together, the second
gives the value of the first, or a failure that belongs to that of the first, and scopes that
belong together again. Some failures of the first run may be excused, and then nothing is asked of
the second.

The rules for forms are taken through a pairing once. The expressions of the two runs need not be
equal; they have to be built alike from parts that are related in turn.
-/

namespace LineLisp

/-- Whether two expressions differ in places only, down to their elements, which are related. -/
inductive Expr.Alike (related : Expr → Expr → Prop) : Expr → Expr → Prop where
  | int (span span' : Span) (n : Int64) : Alike related (.int span n) (.int span' n)
  | symbol (span span' : Span) (name : Bytes) :
      Alike related (.symbol span name) (.symbol span' name)
  | form (span span' : Span) {elems elems' : List Expr} (h : List.Forall₂ related elems elems') :
      Alike related (.form span elems) (.form span' elems')
  | absent : Alike related .absent .absent

end LineLisp

namespace LineLisp.Eval

variable {α β : Type}

/-- Whether two faults differ only in an expression that they show, by a related one. -/
inductive Fault.Alike (related : Expr → Expr → Prop) : Fault → Fault → Prop where
  | refl (fault : Fault) : Alike related fault fault
  | setqTarget {e e' : Expr} (h : related e e') : Alike related (.setqTarget e) (.setqTarget e')
  | condClause {e e' : Expr} (h : related e e') : Alike related (.condClause e) (.condClause e')
  | functionName {e e' : Expr} (h : related e e') :
      Alike related (.functionName e) (.functionName e')
  | parameterList (function : Bytes) {e e' : Expr} (h : related e e') :
      Alike related (.parameterList function e) (.parameterList function e')
  | parameter (function : Bytes) {e e' : Expr} (h : related e e') :
      Alike related (.parameter function e) (.parameter function e')

/-- Faults that show the same expressions are the same. -/
theorem Fault.Alike.eq {related : Expr → Expr → Prop} (hrelated : ∀ {e e'}, related e e' → e = e')
    {fault fault' : Fault} (h : fault.Alike related fault') : fault = fault' := by
  cases h with
  | refl => rfl
  | setqTarget h => rw [hrelated h]
  | condClause h => rw [hrelated h]
  | functionName h => rw [hrelated h]
  | parameterList function h => rw [hrelated h]
  | parameter function h => rw [hrelated h]

structure Pairing where
  scope : Scope → Scope → Prop
  function : Function → Function → Prop
  failure : Failure → Failure → Prop
  /-- The failures of the first run after which nothing is asked of the second. -/
  excused : Failure → Prop
  /-- Whether nothing is asked of the second run where the first is left unfinished. -/
  lenient : Prop

def Outcome.Matches (p : Pairing) : Outcome α → Outcome α → Prop
  | .done a s, second => ∃ t, second = .done a t ∧ p.scope s t
  | .failed failure s, second => p.excused failure ∨
      ∃ failure' t, second = .failed failure' t ∧ p.failure failure failure' ∧ p.scope s t
  | .unfinished, second => p.lenient ∨ second = .unfinished

def Run.Matches (p : Pairing) (x y : Run α) : Prop :=
  ∀ s t, p.scope s t → (x s).Matches p (y t)

namespace Run.Matches

variable {p : Pairing}

theorem pure (a : α) : Run.Matches p (Pure.pure a) (Pure.pure a) := by
  intro s t hst
  exact ⟨t, rfl, hst⟩

theorem bind {x y : Run α} {f g : α → Run β} (hx : Run.Matches p x y)
    (hf : ∀ a, Run.Matches p (f a) (g a)) : Run.Matches p (x >>= f) (y >>= g) := by
  intro s t hst
  have hstep := hx s t hst
  change (Run.bind x f s).Matches p (Run.bind y g t)
  unfold Run.bind
  cases hrun : x s with
  | done a s' =>
      rw [hrun] at hstep
      obtain ⟨t', hsecond, hscope⟩ := hstep
      simp only [hsecond]
      exact hf a s' t' hscope
  | failed failure s' =>
      rw [hrun] at hstep
      rcases hstep with hexcused | ⟨failure', t', hsecond, hfailure, hscope⟩
      · exact .inl hexcused
      · simp only [hsecond]
        exact .inr ⟨failure', t', rfl, hfailure, hscope⟩
  | unfinished =>
      rw [hrun] at hstep
      rcases hstep with hlenient | hsecond
      · exact .inl hlenient
      · simp only [hsecond]
        exact .inr rfl

theorem fail {calls : List Bytes} {fault fault' : Fault} {span span' : Span}
    (h : p.failure ⟨fault, span, calls⟩ ⟨fault', span', calls⟩) :
    Run.Matches p (Run.fail calls fault span : Run α) (Run.fail calls fault' span') := by
  intro s t hst
  exact .inr ⟨_, t, rfl, h, hst⟩

theorem excuse {calls : List Bytes} {fault : Fault} {span : Span} {y : Run α}
    (h : p.excused ⟨fault, span, calls⟩) : Run.Matches p (Run.fail calls fault span) y := by
  intro s t _
  exact .inl h

theorem stop (h : p.lenient) {y : Run α} : Run.Matches p Run.stop y := by
  intro s t _
  exact .inl h

/-- The scopes that two runs read differ, so the runs go on from scopes that belong together. -/
theorem scope {f g : Scope → Run α} (h : ∀ s t, p.scope s t → Run.Matches p (f s) (g t)) :
    Run.Matches p (Run.scope >>= f) (Run.scope >>= g) := by
  intro s t hst
  exact h s t hst s t hst

theorem assign {name : Bytes} {v : Value}
    (h : ∀ s t, p.scope s t → p.scope (s.assign name v) (t.assign name v)) :
    Run.Matches p (Run.assign name v) (Run.assign name v) := by
  intro s t hst
  exact ⟨_, rfl, h s t hst⟩

theorem define {name : Bytes} {f g : Function}
    (h : ∀ s t, p.scope s t → p.scope (s.define name f) (t.define name g)) :
    Run.Matches p (Run.define name f) (Run.define name g) := by
  intro s t hst
  exact ⟨_, rfl, h s t hst⟩

/-- Runs in frames of their own may match under another pairing there, as long as that one leads
back to the pairing outside when the frames are dropped. -/
theorem inside {frame : Frame} {x y : Run α}
    (h : ∀ s t, p.scope s t → ∃ inner : Pairing, Run.Matches inner x y ∧
      inner.scope (s.enter frame) (t.enter frame) ∧
      (∀ s' t', inner.scope s' t' → p.scope s'.leave t'.leave) ∧
      (∀ failure failure', inner.failure failure failure' → p.failure failure failure') ∧
      (∀ failure, inner.excused failure → p.excused failure) ∧
      (inner.lenient → p.lenient)) :
    Run.Matches p (Run.inside frame x) (Run.inside frame y) := by
  intro s t hst
  obtain ⟨inner, hx, henter, hleave, hfailure, hexcused, hlenient⟩ := h s t hst
  have hbody := hx _ _ henter
  unfold Run.inside
  cases hrun : x (s.enter frame) with
  | done a s' =>
      rw [hrun] at hbody
      obtain ⟨t', hsecond, hscope⟩ := hbody
      simp only [hsecond]
      exact ⟨t'.leave, rfl, hleave s' t' hscope⟩
  | failed failure s' =>
      rw [hrun] at hbody
      rcases hbody with hex | ⟨failure', t', hsecond, hfail, hscope⟩
      · exact .inl (hexcused failure hex)
      · simp only [hsecond]
        exact .inr ⟨failure', t'.leave, rfl, hfailure _ _ hfail, hleave s' t' hscope⟩
  | unfinished =>
      rw [hrun] at hbody
      rcases hbody with hlen | hsecond
      · exact .inl (hlenient hlen)
      · simp only [hsecond]
        exact .inr rfl

end Run.Matches

section loops

variable {p : Pairing} {self self' : Expr → Run Value} {es es' : List Expr}

theorem values_match (h : List.Forall₂ (fun e e' => Run.Matches p (self e) (self' e')) es es')
    (done : List Value) : Run.Matches p (values self done es) (values self' done es') := by
  induction h generalizing done with
  | nil => exact .pure _
  | cons he _ ih => exact .bind he fun v => ih (v :: done)

theorem body_matches (h : List.Forall₂ (fun e e' => Run.Matches p (self e) (self' e')) es es')
    (last : Value) : Run.Matches p (body self last es) (body self' last es') := by
  induction h generalizing last with
  | nil => exact .pure _
  | cons he _ ih => exact .bind he fun v => ih v

end loops

/-- What takes a pairing through the rules for forms: `related` expressions may be evaluated by
the two inner evaluators under the active `calls`, quoted, and named in failures; the scopes
answer the look-ups that such expressions ask for alike and take their assignments and
definitions, and functions that belong together may be called. No function is looked up to be
called under the name of an operator; whether there is one is told of an unbound symbol only. -/
structure Pairing.Sustained (p : Pairing) (inner inner' : Self) (calls : List Bytes)
    (related : Expr → Expr → Prop) : Prop where
  alike : ∀ {e e'}, related e e' → e.Alike related e'
  eval : ∀ {e e'}, related e e' → Run.Matches p (inner calls e) (inner' calls e')
  data : ∀ {e e'}, related e e' → Value.ofExpr e = Value.ofExpr e'
  failure : ∀ {fault fault' e e'}, fault.Alike related fault' → related e e' →
    p.failure ⟨fault, e.span, calls⟩ ⟨fault', e'.span, calls⟩
  value : ∀ {span span' name s t}, related (.symbol span name) (.symbol span' name) →
    p.scope s t → s.value? name = t.value? name
  function : ∀ {span span' name s t}, related (.symbol span name) (.symbol span' name) →
    Operator.ofName? name = none → p.scope s t →
    Option.Rel p.function (s.function? name) (t.function? name)
  unbound : ∀ {span span' name s t}, related (.symbol span name) (.symbol span' name) →
    p.scope s t → p.failure ⟨.unbound name (s.function? name).isSome, span, calls⟩
      ⟨.unbound name (t.function? name).isSome, span', calls⟩
  assign : ∀ {span span' name v s t}, related (.symbol span name) (.symbol span' name) →
    p.scope s t → p.scope (s.assign name v) (t.assign name v)
  define : ∀ {span span' name names body body' s t},
    related (.symbol span name) (.symbol span' name) → List.Forall₂ related body body' →
    p.scope s t → p.scope (s.define name ⟨name, names, body⟩) (t.define name ⟨name, names, body'⟩)
  signature : ∀ {f g}, p.function f g → f.name = g.name ∧ f.params = g.params
  call : ∀ {f g}, p.function f g → ∀ vs, Run.Matches p
    (Run.inside (arguments f.params vs) (Eval.body (inner (f.name :: calls)) .nil f.body))
    (Run.inside (arguments g.params vs) (Eval.body (inner' (g.name :: calls)) .nil g.body))

namespace Pairing.Sustained

variable {p : Pairing} {inner inner' : Self} {calls : List Bytes} {related : Expr → Expr → Prop}
variable {e e' : Expr} {es es' : List Expr}

theorem evalAll (h : p.Sustained inner inner' calls related) (hes : List.Forall₂ related es es') :
    List.Forall₂ (fun e e' => Run.Matches p (inner calls e) (inner' calls e')) es es' :=
  hes.imp fun _ _ he => h.eval he

theorem fail (h : p.Sustained inner inner' calls related) (fault : Fault) (he : related e e') :
    Run.Matches p (Run.fail calls fault e.span : Run α) (Run.fail calls fault e'.span) :=
  .fail (h.failure (.refl fault) he)

theorem number (h : p.Sustained inner inner' calls related) (op : Operator) (he : related e e') :
    Run.Matches p (number inner calls op e) (number inner' calls op e') := by
  refine .bind (h.eval he) fun v => ?_
  cases v with
  | int n => exact .pure n
  | _ => exact h.fail _ he

theorem calculate (h : p.Sustained inner inner' calls related) (op : Arithmetic)
    (he : related e e') (a b : Int64) :
    Run.Matches p (calculate calls op e.span a b) (calculate calls op e'.span a b) := by
  cases op with
  | div =>
      unfold Eval.calculate
      by_cases hb : b = 0
      · simp only [hb, if_true]
        exact h.fail _ he
      · simp only [hb, if_false]
        exact .pure _
  | _ => exact .pure _

theorem clauses (h : p.Sustained inner inner' calls related) (hes : List.Forall₂ related es es') :
    Run.Matches p (clauses inner calls es) (clauses inner' calls es') := by
  induction hes with
  | nil => exact .pure _
  | cons he _ ih =>
      cases h.alike he with
      | form span span' helems =>
          cases helems with
          | nil => exact .fail (h.failure (.condClause he) he)
          | cons htest hrest =>
              refine .bind (h.eval htest) fun v => ?_
              by_cases htruthy : v.isTruthy
              · simp only [htruthy, if_true]
                exact body_matches (h.evalAll hrest) v
              · simp only [htruthy]
                exact ih
      | _ => exact .fail (h.failure (.condClause he) he)

theorem parameters (h : p.Sustained inner inner' calls related) (function : Bytes)
    (hes : List.Forall₂ related es es') (done : List Bytes) :
    Run.Matches p (parameters calls function done es) (parameters calls function done es') := by
  induction hes generalizing done with
  | nil => exact .pure _
  | cons he _ ih =>
      cases h.alike he with
      | symbol span span' name => exact ih (name :: done)
      | _ => exact .fail (h.failure (.parameter function he) he)

theorem defun (h : p.Sustained inner inner' calls related) {span span' : Span}
    (hform : ∀ fault, p.failure ⟨fault, span, calls⟩ ⟨fault, span', calls⟩)
    (hargs : List.Forall₂ related es es') :
    Run.Matches p (defun calls span es) (defun calls span' es') := by
  rcases hargs with _ | ⟨htarget, _ | ⟨hparams, _ | ⟨hfirst, hrest⟩⟩⟩
  · exact .fail (hform _)
  · exact .fail (hform _)
  · exact .fail (hform _)
  · cases h.alike htarget with
    | symbol place place' name =>
        cases h.alike hparams with
        | form listed listed' helems =>
            refine .bind (h.parameters name helems []) fun names => ?_
            refine .bind (.define fun s t hst => ?_) fun _ => .pure _
            exact h.define htarget (.cons hfirst hrest) hst
        | _ => exact .fail (h.failure (.parameterList name hparams) hparams)
    | _ => exact .fail (h.failure (.functionName htarget) htarget)

theorem operate (h : p.Sustained inner inner' calls related) {span span' : Span} (op : Operator)
    (hform : ∀ fault, p.failure ⟨fault, span, calls⟩ ⟨fault, span', calls⟩)
    (hargs : List.Forall₂ related es es') :
    Run.Matches p (operate inner calls span op es) (operate inner' calls span' op es') := by
  have hlength := hargs.length_eq
  cases op with
  | arithmetic k =>
      rcases hargs with _ | ⟨hx, _ | ⟨hy, _ | ⟨hz, hrest⟩⟩⟩
      · exact .fail (hform _)
      · exact .fail (hform _)
      · refine .bind (h.number _ hx) fun a => ?_
        refine .bind (h.number _ hy) fun b => ?_
        exact h.calculate k hy a b
      · simp only [Eval.operate, hlength]
        exact .fail (hform _)
  | comparison k =>
      rcases hargs with _ | ⟨hx, _ | ⟨hy, _ | ⟨hz, hrest⟩⟩⟩
      · exact .fail (hform _)
      · exact .fail (hform _)
      · refine .bind (h.number _ hx) fun a => ?_
        refine .bind (h.number _ hy) fun b => ?_
        exact .pure _
      · simp only [Eval.operate, hlength]
        exact .fail (hform _)
  | setq =>
      rcases hargs with _ | ⟨htarget, _ | ⟨he, _ | ⟨hz, hrest⟩⟩⟩
      · exact .fail (hform _)
      · simp only [Eval.operate, hlength]
        exact .fail (hform _)
      · cases h.alike htarget with
        | symbol place place' name =>
            refine .bind (h.eval he) fun v => ?_
            refine .bind (.assign fun s t hst => h.assign htarget hst) fun _ => .pure v
        | _ => exact .fail (h.failure (.setqTarget htarget) htarget)
      · simp only [Eval.operate, hlength]
        exact .fail (hform _)
  | atom =>
      rcases hargs with _ | ⟨he, _ | ⟨hz, hrest⟩⟩
      · exact .fail (hform _)
      · exact .bind (h.eval he) fun v => .pure _
      · simp only [Eval.operate, hlength]
        exact .fail (hform _)
  | list => exact .bind (values_match (h.evalAll hargs) []) fun vs => .pure _
  | equal =>
      rcases hargs with _ | ⟨hx, _ | ⟨hy, _ | ⟨hz, hrest⟩⟩⟩
      · exact .fail (hform _)
      · exact .fail (hform _)
      · refine .bind (h.eval hx) fun a => ?_
        exact .bind (h.eval hy) fun b => .pure _
      · simp only [Eval.operate, hlength]
        exact .fail (hform _)
  | cond => exact h.clauses hargs
  | quote =>
      rcases hargs with _ | ⟨he, _ | ⟨hz, hrest⟩⟩
      · exact .fail (hform _)
      · simp only [Eval.operate, h.data he]
        exact .pure _
      · simp only [Eval.operate, hlength]
        exact .fail (hform _)
  | defun => exact h.defun hform hargs

theorem callForm (h : p.Sustained inner inner' calls related) {span span' : Span}
    (hform : ∀ fault, p.failure ⟨fault, span, calls⟩ ⟨fault, span', calls⟩) {f g : Function}
    (hfunction : p.function f g) (hargs : List.Forall₂ related es es') :
    Run.Matches p (Eval.call inner calls span f es) (Eval.call inner' calls span' g es') := by
  obtain ⟨hname, hparams⟩ := h.signature hfunction
  unfold Eval.call
  rw [hargs.length_eq, hname, hparams]
  by_cases hlength : es'.length = g.params.length
  · simp only [hlength, if_true]
    refine .bind (values_match (h.evalAll hargs) []) fun vs => ?_
    have hcall := h.call hfunction vs
    rwa [hname, hparams] at hcall
  · simp only [hlength, if_false]
    exact .fail (hform _)

theorem apply (h : p.Sustained inner inner' calls related) {span span' head head' : Span}
    {name : Bytes} (hform : ∀ fault, p.failure ⟨fault, span, calls⟩ ⟨fault, span', calls⟩)
    (hhead : related (.symbol head name) (.symbol head' name))
    (hargs : List.Forall₂ related es es') :
    Run.Matches p (apply inner calls span head name es)
      (apply inner' calls span' head' name es') := by
  unfold Eval.apply
  cases hname : Operator.ofName? name with
  | some op => exact h.operate op hform hargs
  | none =>
      refine .scope fun s t hst => ?_
      rw [h.value hhead hst]
      cases t.value? name with
      | some v => exact .pure v
      | none =>
          have hfunction := h.function hhead hname hst
          revert hfunction
          cases s.function? name <;> cases t.function? name <;> intro hfunction
          · exact h.fail _ hhead
          · cases hfunction
          · cases hfunction
          · cases hfunction with
            | some hfg => exact h.callForm hform hfg hargs

theorem form (h : p.Sustained inner inner' calls related) {span span' : Span}
    (he : related (.form span es) (.form span' es')) (hes : List.Forall₂ related es es') :
    Run.Matches p (form inner calls span es) (form inner' calls span' es') := by
  have hform : ∀ fault, p.failure ⟨fault, span, calls⟩ ⟨fault, span', calls⟩ :=
    fun fault => h.failure (.refl fault) he
  have hdata := h.data he
  cases hes with
  | nil => exact .pure _
  | cons hfirst hargs =>
      cases h.alike hfirst with
      | symbol head head' name => exact h.apply hform hfirst hargs
      | _ =>
          simp only [Eval.form, hdata]
          exact .pure _

end Pairing.Sustained

/-- One level of two evaluations matches when the levels below sustain the pairing, and what the
level itself can fail for is excused or fails the second evaluation too. -/
theorem eval_matches {p : Pairing} {o o' : Options} {fuel fuel' depth : Nat} {calls : List Bytes}
    (related : Expr → Expr → Prop) {e e' : Expr} (he : related e e')
    (hlevel : o.limit.crossed (depth + 1) = none →
      o'.limit.crossed (depth + 1) = none ∧
        p.Sustained (eval o fuel (depth + 1)) (eval o' fuel' (depth + 1)) calls related)
    (hdeep : ∀ n, o.limit.crossed (depth + 1) = some n →
      p.excused ⟨.tooDeep n, e.span, calls⟩ ∨
        o'.limit.crossed (depth + 1) = some n ∧
          p.failure ⟨.tooDeep n, e.span, calls⟩ ⟨.tooDeep n, e'.span, calls⟩)
    (hunbound : ∀ name isFunction, o.strict = true →
      p.excused ⟨.unbound name isFunction, e.span, calls⟩ ∨ o'.strict = true)
    (hlax : o.strict = false → o'.strict = false) :
    Run.Matches p (eval o (fuel + 1) depth calls e) (eval o' (fuel' + 1) depth calls e') := by
  unfold eval
  cases hcrossed : o.limit.crossed (depth + 1) with
  | some n =>
      rcases hdeep n hcrossed with hexcused | ⟨hcrossed', hfailure⟩
      · exact .excuse hexcused
      · simp only [hcrossed']
        exact .fail hfailure
  | none =>
      obtain ⟨hcrossed', h⟩ := hlevel hcrossed
      simp only [hcrossed']
      cases h.alike he with
      | int span span' n => exact .pure _
      | symbol span span' name =>
          refine .scope fun s t hst => ?_
          rw [h.value he hst]
          cases t.value? name with
          | some v => exact .pure v
          | none =>
              cases constant? name with
              | some v => exact .pure v
              | none =>
                  cases hstrict : o.strict with
                  | true =>
                      rcases hunbound name (s.function? name).isSome hstrict with hex | hstrict'
                      · exact .excuse hex
                      · simp only [hstrict', if_true]
                        exact .fail (h.unbound he hst)
                  | false =>
                      simp only [hlax hstrict]
                      exact .pure _
      | form span span' hes => exact h.form he hes
      | absent => exact h.fail _ he

/-- Whether a pairing asks something of the second run wherever the first ends or does not. -/
structure Pairing.Exact (p : Pairing) : Prop where
  excused : ∀ failure, ¬ p.excused failure
  lenient : ¬ p.lenient

/-- Runs that match exactly end together. -/
theorem Outcome.Matches.unfinished_iff {p : Pairing} (hp : p.Exact) {first second : Outcome α}
    (h : first.Matches p second) : first = .unfinished ↔ second = .unfinished := by
  cases first with
  | done a s =>
      obtain ⟨t, rfl, -⟩ := h
      simp
  | failed failure s =>
      rcases h with hexcused | ⟨failure', t, rfl, -⟩
      · exact absurd hexcused (hp.excused failure)
      · simp
  | unfinished =>
      rcases h with hlenient | rfl
      · exact absurd hlenient hp.lenient
      · rfl

/-- Whether results are the same value, the diagnostics of failures that belong together, or both
unfinished. -/
def Result.Matches (p : Pairing) : Result → Result → Prop
  | .value v, second => second = .value v
  | .failure d, second => ∃ failure failure', d = failure.diagnostic ∧
      second = .failure failure'.diagnostic ∧ p.failure failure failure'
  | .unfinished, second => second = .unfinished

/-- What a pairing says of two whole evaluations that match exactly. -/
theorem evaluate_matches {p : Pairing} (hp : p.Exact) {o o' : Options} {e e' : Expr}
    (h : Run.Matches p (run o e) (run o' e')) {s t : Scope} (hst : p.scope s t) :
    (evaluate o e s).1.Matches p (evaluate o' e' t).1 ∧
      p.scope (evaluate o e s).2 (evaluate o' e' t).2 := by
  have hrun := h s t hst
  unfold evaluate
  cases hfirst : run o e s with
  | done v s' =>
      rw [hfirst] at hrun
      obtain ⟨t', hsecond, hscope⟩ := hrun
      simp only [hsecond]
      exact ⟨rfl, hscope⟩
  | failed failure s' =>
      rw [hfirst] at hrun
      rcases hrun with hexcused | ⟨failure', t', hsecond, hfailure, hscope⟩
      · exact absurd hexcused (hp.excused failure)
      · simp only [hsecond]
        exact ⟨⟨failure, failure', rfl, rfl, hfailure⟩, hscope⟩
  | unfinished =>
      rw [hfirst] at hrun
      rcases hrun with hlenient | hsecond
      · exact absurd hlenient hp.lenient
      · simp only [hsecond]
        exact ⟨rfl, hst⟩

end LineLisp.Eval
