import LineLisp.Proofs.Eval.Provenance
import LineLisp.Proofs.Expr.Spans

/-!
Nesting and evaluation depth. Outside calls a part of an expression is never evaluated deeper than
it stands in the expression, so an expression that is no higher than the depth limit exceeds the
limit inside a call of a function only.

A form has its parts evaluated under the calls that are active already and bodies under one call
more. So the evaluator may be changed outside the parts of a form without any effect on the form.
-/

namespace LineLisp

theorem Expr.height_le_of_mem_parts {e part : Expr} (h : part ∈ e.parts) :
    part.height ≤ e.height := by
  induction e using Expr.induct with
  | form span elems ih =>
      rcases Expr.mem_parts_form.mp h with rfl | ⟨e, he, hpart⟩
      · exact Nat.le_refl _
      · have hpart := ih e he hpart
        have he := Expr.height_le_heightAll he
        rw [Expr.height]
        omega
  | _ =>
      obtain rfl : part = _ := by simpa [Expr.parts] using h
      exact Nat.le_refl _

namespace Eval

section congruence

theorem values_congr {self self' : Expr → Run Value} {es : List Expr}
    (h : ∀ e ∈ es, self e = self' e) (done : List Value) :
    values self done es = values self' done es := by
  induction es generalizing done with
  | nil => rfl
  | cons e es ih =>
      have hrest := ih fun e he => h e (by simp [he])
      simp only [values, h e (by simp), hrest]

theorem body_congr {self self' : Expr → Run Value} {es : List Expr}
    (h : ∀ e ∈ es, self e = self' e) (last : Value) :
    body self last es = body self' last es := by
  induction es generalizing last with
  | nil => rfl
  | cons e es ih =>
      have hrest := ih fun e he => h e (by simp [he])
      simp only [body, h e (by simp), hrest]

variable {self self' : Self} {calls : List Bytes}

theorem clauses_congr {es : List Expr}
    (h : ∀ e ∈ es, ∀ part ∈ e.parts, self calls part = self' calls part) :
    clauses self calls es = clauses self' calls es := by
  induction es with
  | nil => rfl
  | cons e es ih =>
      have hmore := ih fun e he => h e (by simp [he])
      match e with
      | .form span (test :: rest) =>
          have hclause : ∀ x ∈ test :: rest, self calls x = self' calls x := fun x hx =>
            h (.form span (test :: rest)) (by simp) x
              (Expr.mem_parts_form.mpr (.inr ⟨x, hx, x.self_mem_parts⟩))
          have hrest : ∀ last, body (self calls) last rest = body (self' calls) last rest :=
            body_congr fun x hx => hclause x (by simp [hx])
          simp only [clauses, hclause test (by simp), hrest, hmore]
      | .form _ [] | .int _ _ | .symbol _ _ | .absent => rfl

theorem operate_congr {span : Span} {op : Operator} {args : List Expr}
    (h : ∀ e ∈ args, ∀ part ∈ e.parts, self calls part = self' calls part) :
    operate self calls span op args = operate self' calls span op args := by
  have harg : ∀ e ∈ args, self calls e = self' calls e := fun e he => h e he e e.self_mem_parts
  cases op with
  | arithmetic k =>
      match args with
      | [x, y] => simp only [operate, number, harg x (by simp), harg y (by simp)]
      | [] | [_] | _ :: _ :: _ :: _ => rfl
  | comparison k =>
      match args with
      | [x, y] => simp only [operate, number, harg x (by simp), harg y (by simp)]
      | [] | [_] | _ :: _ :: _ :: _ => rfl
  | setq =>
      match args with
      | [target, e] => cases target <;> simp only [operate, harg e (by simp)]
      | [] => rfl
      | [target] | target :: _ :: _ :: _ => cases target <;> rfl
  | atom =>
      match args with
      | [e] => simp only [operate, harg e (by simp)]
      | [] | _ :: _ :: _ => rfl
  | list => simp only [operate, values_congr harg]
  | equal =>
      match args with
      | [x, y] => simp only [operate, harg x (by simp), harg y (by simp)]
      | [] | [_] | _ :: _ :: _ :: _ => rfl
  | cond => exact clauses_congr h
  | quote =>
      match args with
      | [] | [_] | _ :: _ :: _ => rfl
  | defun => rfl

/-- A form depends on how its parts are evaluated under the active calls, and on how anything is
evaluated under a further call. -/
theorem form_congr {span : Span} {elems : List Expr}
    (hparts : ∀ e ∈ elems, ∀ part ∈ e.parts, self calls part = self' calls part)
    (hcalls : ∀ name, self (name :: calls) = self' (name :: calls)) :
    form self calls span elems = form self' calls span elems := by
  match elems with
  | .symbol head name :: args =>
      have hargs : ∀ e ∈ args, ∀ part ∈ e.parts, self calls part = self' calls part :=
        fun e he => hparts e (by simp [he])
      have hvalues := values_congr fun e he => hargs e he e e.self_mem_parts
      simp only [form, apply, call, operate_congr hargs, hvalues, hcalls]
  | [] | .int _ _ :: _ | .form _ _ :: _ | .absent :: _ => rfl

end congruence

/-- Whether an expression that is evaluated at a depth outside calls is no higher than what the
limit leaves there. -/
def Options.Fits (o : Options) (depth : Nat) (calls : List Bytes) (e : Expr) : Prop :=
  calls = [] → o.limit.crossed (depth + e.height) = none

instance (o : Options) (depth : Nat) (calls : List Bytes) (e : Expr) :
    Decidable (o.Fits depth calls e) :=
  inferInstanceAs (Decidable (_ → _))

/-- The parts of a form stand a level deeper than the form. -/
theorem Options.Fits.part {o : Options} {depth : Nat} {calls : List Bytes} {span : Span}
    {elems : List Expr} (h : o.Fits depth calls (.form span elems)) {e part : Expr} (he : e ∈ elems)
    (hpart : part ∈ e.parts) : o.Fits (depth + 1) calls part := by
  intro hcalls
  apply DepthLimit.not_crossed_mono _ (h hcalls)
  have hheight := Expr.height_le_of_mem_parts hpart
  have helem := Expr.height_le_heightAll he
  rw [Expr.height]
  omega

/-- The contract of runs that exceed the depth limit only inside calls. -/
def deepInCalls (o : Options) : Contract :=
  .ends (fun failure => failure.fault.kind = .stackLimitExceeded →
    failure.calls ≠ [] ∧ ∃ n, o.limit = some n ∧ failure.fault = .tooDeep n) True

theorem Fault.kind_ne_stackLimit_of_isOfForm {fault : Fault} (h : fault.isOfForm) :
    fault.kind ≠ .stackLimitExceeded := by
  cases fault <;> simp_all [Fault.isOfForm, Fault.kind]

theorem symbol_deepInCalls (o : Options) (strict : Bool) (calls : List Bytes) (span : Span)
    (name : Bytes) :
    Run.Keeps (deepInCalls o) (fun _ => True) (symbol strict calls span name) := by
  refine Run.Keeps.bind Run.Keeps.scope fun s _ => ?_
  cases s.value? name with
  | some v => exact .pure trivial
  | none =>
      cases constant? name with
      | some v => exact .pure trivial
      | none =>
          cases strict with
          | true => exact .fail fun hkind => absurd hkind (by simp [Fault.kind])
          | false => exact .pure trivial

/-- What fits under the limit by its own nesting exceeds it only inside calls. -/
theorem eval_deepInCalls (o : Options) (fuel depth : Nat) (calls : List Bytes) {e : Expr}
    (h : o.Fits depth calls e) :
    Run.Keeps (deepInCalls o) (fun _ => True) (eval o fuel depth calls e) := by
  induction fuel generalizing depth calls e with
  | zero => exact .stop trivial
  | succ fuel ih =>
      unfold eval
      cases hcrossed : o.limit.crossed (depth + 1) with
      | some n =>
          refine .fail fun _ => ⟨?_, n, DepthLimit.eq_some_of_crossed hcrossed, rfl⟩
          intro hcalls
          have hdepth : depth + 1 ≤ depth + e.height := Nat.add_le_add_left e.height_pos depth
          have hfree := DepthLimit.not_crossed_mono hdepth (h hcalls)
          rw [hcrossed] at hfree
          cases hfree
      | none =>
          cases e with
          | int span n => exact .pure trivial
          | symbol span name => exact symbol_deepInCalls o o.strict calls span name
          | absent => exact .fail fun hkind => absurd hkind (by simp [Fault.kind])
          | form span elems =>
              -- The form itself would be too high a level deeper, but only its parts go there.
              let inner : Self := fun calls e =>
                if o.Fits (depth + 1) calls e then eval o fuel (depth + 1) calls e else Run.stop
              have hsame : form (eval o fuel (depth + 1)) calls span elems =
                  form inner calls span elems := by
                apply form_congr
                · intro e he part hpart
                  exact (if_pos (h.part he hpart)).symm
                · intro name
                  funext e
                  exact (if_pos fun hcalls => absurd hcalls (List.cons_ne_nil _ _)).symm
              have hinner : ∀ calls e,
                  Run.Keeps (deepInCalls o) (fun _ => True) (inner calls e) := by
                intro calls e
                by_cases hfits : o.Fits (depth + 1) calls e
                · simp only [inner, if_pos hfits]
                  exact ih (depth + 1) calls hfits
                · simp only [inner, if_neg hfits]
                  exact .stop trivial
              have hlevel : (deepInCalls o).Sustained inner calls fun _ => True :=
                ends_sustained
                  (fun _ _ hform hkind => absurd hkind (Fault.kind_ne_stackLimit_of_isOfForm hform))
                  hinner
              simp only [hsame]
              exact hlevel.form trivial

/-- An evaluation from the top of an expression that is no higher than the limit has a trace when
it exceeds the limit. -/
theorem evaluate_tooDeep_trace {o : Options} {e : Expr} (h : o.limit.crossed e.height = none)
    {s : Scope} {d : Diagnostic} (hd : (evaluate o e s).1 = .failure d)
    (hkind : d.kind = .stackLimitExceeded) :
    d.trace ≠ [] ∧ ∃ n, o.limit = some n ∧ d.message = (Fault.tooDeep n).message := by
  have hfits : o.Fits 0 [] e := fun _ => by rwa [Nat.zero_add]
  have hrun : Run.Keeps (deepInCalls o) (fun _ => True) (run o e) :=
    eval_deepInCalls o o.fuel 0 [] hfits
  obtain ⟨failure, hfailure, rfl⟩ := evaluate_fails (c := deepInCalls o) hrun trivial hd
  obtain ⟨hcalls, n, hlimit, hfault⟩ := hfailure hkind
  exact ⟨Trace.shorten_ne_nil hcalls, n, hlimit, congrArg Fault.message hfault⟩

end Eval

end LineLisp
