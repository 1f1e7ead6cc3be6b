import LineLisp.Proofs.Scope.Forest

/-!
Equations of evaluation. At a depth that the limit allows, a form that begins with the name of an
operator is operated on a level deeper, and what an operand comes to decides how its form goes on.
An evaluation that leaves its scope as it was leaves the whole forest as it was.
-/

namespace LineLisp

theorem Operator.ofName?_name (op : Operator) : ofName? op.name = some op := by
  cases op with
  | arithmetic k => cases k <;> decide +kernel
  | comparison k => cases k <;> decide +kernel
  | _ => decide +kernel

namespace Eval

section runs

variable {α β : Type} {x : Run α} {s s' : Scope}

theorem bind_of_done {a : α} (h : x s = .done a s') (f : α → Run β) : (x >>= f) s = f a s' := by
  change Run.bind x f s = f a s'
  rw [Run.bind, h]

theorem bind_of_failed {failure : Failure} (h : x s = .failed failure s') (f : α → Run β) :
    (x >>= f) s = .failed failure s' := by
  change Run.bind x f s = .failed failure s'
  rw [Run.bind, h]

theorem bind_of_unfinished (h : x s = .unfinished) (f : α → Run β) :
    (x >>= f) s = .unfinished := by
  change Run.bind x f s = .unfinished
  rw [Run.bind, h]

theorem bind_scope (f : Scope → Run β) (s : Scope) : (Run.scope >>= f) s = f s s := rfl

end runs

section levels

variable {o : Options} {fuel depth : Nat} {calls : List Bytes}

theorem eval_crossed {n : Nat} (h : o.limit.crossed (depth + 1) = some n) (e : Expr) :
    eval o (fuel + 1) depth calls e = Run.fail calls (.tooDeep n) e.span := by
  cases e <;> rw [eval, h]

theorem eval_int (h : o.limit.crossed (depth + 1) = none) (span : Span) (n : Int64) :
    eval o (fuel + 1) depth calls (.int span n) = pure (.int n) := by
  rw [eval, h]

theorem eval_symbol (h : o.limit.crossed (depth + 1) = none) (span : Span) (name : Bytes) :
    eval o (fuel + 1) depth calls (.symbol span name) = symbol o.strict calls span name := by
  rw [eval, h]

theorem eval_operator (h : o.limit.crossed (depth + 1) = none) (span head : Span) (op : Operator)
    (args : List Expr) :
    eval o (fuel + 1) depth calls (.form span (.symbol head op.name :: args)) =
      operate (eval o fuel (depth + 1)) calls span op args := by
  simp only [eval, h, form, apply, Operator.ofName?_name]

theorem eval_call (h : o.limit.crossed (depth + 1) = none) {name : Bytes} {s : Scope}
    (hname : Operator.ofName? name = none) (hfree : s.value? name = none) {f : Function}
    (hfunction : s.function? name = some f) (span head : Span) (args : List Expr) :
    eval o (fuel + 1) depth calls (.form span (.symbol head name :: args)) s =
      call (eval o fuel (depth + 1)) calls span f args s := by
  simp only [eval, h, form, apply, hname, bind_scope, hfree, hfunction]

end levels

section operands

variable {self : Self} {calls : List Bytes} {e : Expr} {s s' : Scope}

theorem number_of_int {n : Int64} (h : self calls e s = .done (.int n) s') (op : Operator) :
    number self calls op e s = .done n s' :=
  bind_of_done h _

theorem number_of_failed {failure : Failure} (h : self calls e s = .failed failure s')
    (op : Operator) : number self calls op e s = .failed failure s' :=
  bind_of_failed h _

end operands

/-- A whole evaluation has fuel for at least one level. -/
theorem run_eq_eval (o : Options) : run o = eval o (o.fuel - 1 + 1) 0 [] := by
  have hpos : 0 < o.fuel := by
    unfold Options.fuel
    cases o.limit with
    | some n => exact Nat.succ_pos n
    | none => decide
  funext e
  rw [run, Nat.sub_add_cancel hpos]

section whole

variable {o : Options} {e : Expr} {s s' : Scope}

theorem evaluate_of_done {v : Value} (h : run o e s = .done v s') :
    evaluate o e s = (.value v, s') := by
  rw [evaluate, h]

theorem evaluate_of_failed {failure : Failure} (h : run o e s = .failed failure s') :
    evaluate o e s = (.failure failure.diagnostic, s') := by
  rw [evaluate, h]

theorem evaluate_eq_unfinished_iff :
    (evaluate o e s).1 = .unfinished ↔ run o e s = .unfinished := by
  unfold evaluate
  cases run o e s <;> simp

theorem exists_failure_iff :
    (∃ d, (evaluate o e s).1 = .failure d) ↔ ∃ failure s', run o e s = .failed failure s' := by
  unfold evaluate
  cases run o e s <;> simp

end whole

end Eval

/-- Where an evaluation leaves the scope as it is, it leaves the forest as it is. -/
theorem Forest.evaluate_unchanged {o : Eval.Options} {f : Forest} {i : Nat} {e : Expr}
    {result : Eval.Result} (h : Eval.evaluate o e (f.scope i) = (result, f.scope i)) :
    f.evaluate o i e = (result, f) := by
  have hupdate : f.update i (f.scope i) = f :=
    (f.update_eq_setFrame i _ rfl).trans (f.setFrame_frame i)
  rw [evaluate, h]
  exact congrArg (Prod.mk result) hupdate

end LineLisp
