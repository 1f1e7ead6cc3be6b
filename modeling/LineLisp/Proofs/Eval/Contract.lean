import LineLisp.Eval

/-!
Contracts of runs. A contract says what a run may assume of the scope that it starts from and
has to restore at its end, also after a failure, what holds of its values and failures, and
whether it may be left unfinished.

The rules for forms are taken through a contract once: whatever sustains it for the evaluator
of the parts sustains it for every operator and every call.
-/

namespace LineLisp.Eval

variable {α β : Type}

/-- What holds where a run from `s` ends: `done` of its value and scope or `failed` of its
failure and scope, and `unfinished` where it does not end. -/
def Run.Ensures (x : Run α) (s : Scope) (done : α → Scope → Prop)
    (failed : Failure → Scope → Prop) (unfinished : Prop) : Prop :=
  match x s with
  | .done a s => done a s
  | .failed failure s => failed failure s
  | .unfinished => unfinished

structure Contract where
  scope : Scope → Prop
  value : Value → Prop
  function : Function → Prop
  failure : Failure → Prop
  /-- Whether a run may be left unfinished. -/
  unfinished : Prop

/-- Whether a run started under a contract ends under it with a value as described. -/
def Run.Keeps (c : Contract) (result : α → Prop) (x : Run α) : Prop :=
  ∀ s, c.scope s →
    x.Ensures s (fun a s => result a ∧ c.scope s) (fun failure s => c.failure failure ∧ c.scope s)
      c.unfinished

namespace Run.Keeps

variable {c : Contract} {P Q : α → Prop} {R : β → Prop}

theorem pure {a : α} (h : P a) : Run.Keeps c P (Pure.pure a : Run α) := by
  intro s hs
  exact ⟨h, hs⟩

theorem bind {x : Run α} {f : α → Run β} (hx : Run.Keeps c P x)
    (hf : ∀ a, P a → Run.Keeps c R (f a)) : Run.Keeps c R (x >>= f) := by
  intro s hs
  have hstep := hx s hs
  unfold Run.Ensures at hstep ⊢
  change match (match x s with
    | .done a s => f a s
    | .failed failure s => .failed failure s
    | .unfinished => .unfinished) with
    | .done a s => R a ∧ c.scope s
    | .failed failure s => c.failure failure ∧ c.scope s
    | .unfinished => c.unfinished
  cases hrun : x s with
  | done a s' =>
      simp only [hrun] at hstep ⊢
      exact hf a hstep.1 s' hstep.2
  | failed failure s' =>
      simp only [hrun] at hstep ⊢
      exact hstep
  | unfinished =>
      simp only [hrun] at hstep ⊢
      exact hstep

theorem fail {calls : List Bytes} {fault : Fault} {span : Span}
    (h : c.failure ⟨fault, span, calls⟩) : Run.Keeps c P (Run.fail calls fault span) := by
  intro s hs
  exact ⟨h, hs⟩

theorem stop (h : c.unfinished) : Run.Keeps c P (Run.stop : Run α) := by
  intro s hs
  exact h

theorem scope : Run.Keeps c c.scope Run.scope := by
  intro s hs
  exact ⟨hs, hs⟩

theorem assign {name : Bytes} {v : Value}
    (h : ∀ s, c.scope s → c.scope (s.assign name v)) :
    Run.Keeps c (fun _ => True) (Run.assign name v) := by
  intro s hs
  exact ⟨trivial, h s hs⟩

theorem define {name : Bytes} {f : Function}
    (h : ∀ s, c.scope s → c.scope (s.define name f)) :
    Run.Keeps c (fun _ => True) (Run.define name f) := by
  intro s hs
  exact ⟨trivial, h s hs⟩

/-- A run in a frame of its own may keep another contract there, as long as that one leads back
to the contract outside when the frame is dropped. -/
theorem inside {frame : Frame} {x : Run α}
    (h : ∀ s, c.scope s → ∃ inner : Contract, Run.Keeps inner P x ∧ inner.scope (s.enter frame) ∧
      (∀ s', inner.scope s' → c.scope s'.leave) ∧
      (∀ failure, inner.failure failure → c.failure failure) ∧
      (inner.unfinished → c.unfinished)) :
    Run.Keeps c P (Run.inside frame x) := by
  intro s hs
  obtain ⟨inner, hx, henter, hleave, hfailure, hunfinished⟩ := h s hs
  have hbody := hx (s.enter frame) henter
  unfold Run.Ensures Run.inside at *
  cases hrun : x (s.enter frame) with
  | done a s' =>
      simp only [hrun] at hbody ⊢
      exact ⟨hbody.1, hleave s' hbody.2⟩
  | failed failure s' =>
      simp only [hrun] at hbody ⊢
      exact ⟨hfailure failure hbody.1, hleave s' hbody.2⟩
  | unfinished =>
      simp only [hrun] at hbody ⊢
      exact hunfinished hbody

end Run.Keeps

section loops

variable {c : Contract}

theorem values_keeps {self : Expr → Run Value} {es : List Expr} {done : List Value}
    (hself : ∀ e ∈ es, Run.Keeps c c.value (self e)) (hdone : ∀ v ∈ done, c.value v) :
    Run.Keeps c (fun vs => (∀ v ∈ vs, c.value v) ∧ vs.length = done.length + es.length)
      (values self done es) := by
  induction es generalizing done with
  | nil =>
      apply Run.Keeps.pure
      constructor
      · intro v hv
        exact hdone v (List.mem_reverse.mp hv)
      · simp
  | cons e es ih =>
      refine Run.Keeps.bind (hself e (by simp)) fun v hv => ?_
      have hrest := @ih (v :: done) (fun e he => hself e (by simp [he]))
        (by simpa [hv] using hdone)
      simpa [Nat.add_right_comm, Nat.add_assoc] using hrest

theorem body_keeps {self : Expr → Run Value} {es : List Expr} {last : Value}
    (hself : ∀ e ∈ es, Run.Keeps c c.value (self e)) (hlast : c.value last) :
    Run.Keeps c c.value (body self last es) := by
  induction es generalizing last with
  | nil => exact Run.Keeps.pure hlast
  | cons e es ih =>
      refine Run.Keeps.bind (hself e (by simp)) fun v hv => ?_
      exact ih (fun e he => hself e (by simp [he])) hv

end loops

/-- The faults that the rules for forms raise. The others come from evaluating a symbol, an
absent expression or anything beyond the depth limit. -/
def Fault.isOfForm : Fault → Bool
  | .tooDeep _ | .unbound _ _ | .noExpression => false
  | _ => true

/-- What takes a contract through the rules for forms: `allowed` expressions may be evaluated by
`inner` under the active `calls`, quoted, and named in failures; the scope takes assignments and
definitions that such expressions ask for, and its functions may be called. -/
structure Contract.Sustained (c : Contract) (inner : Self) (calls : List Bytes)
    (allowed : Expr → Prop) : Prop where
  elem : ∀ {span elems e}, allowed (.form span elems) → e ∈ elems → allowed e
  eval : ∀ {e}, allowed e → Run.Keeps c c.value (inner calls e)
  data : ∀ {e}, allowed e → c.value (.ofExpr e)
  int : ∀ n, c.value (.int n)
  bool : ∀ b, c.value (.bool b)
  nil : c.value .nil
  list : ∀ {vs}, (∀ v ∈ vs, c.value v) → c.value (.list vs)
  failure : ∀ {fault e}, fault.isOfForm → allowed e → c.failure ⟨fault, e.span, calls⟩
  value : ∀ {s name v}, c.scope s → s.value? name = some v → c.value v
  function : ∀ {s name f}, c.scope s → s.function? name = some f → c.function f
  assign : ∀ {span head place name rest v s},
    allowed (.form span (.symbol head Operator.setq.name :: .symbol place name :: rest)) →
    c.value v → c.scope s → c.scope (s.assign name v)
  define : ∀ {span head place name listed params names body s},
    allowed (.form span (.symbol head Operator.defun.name :: .symbol place name ::
      .form listed params :: body)) →
    (∀ x ∈ names, ∃ place, .symbol place x ∈ params) → body ≠ [] →
    c.scope s → c.scope (s.define name ⟨name, names, body⟩)
  call : ∀ {f vs}, c.function f → (∀ v ∈ vs, c.value v) → vs.length = f.params.length →
    Run.Keeps c c.value
      (Run.inside (arguments f.params vs) (Eval.body (inner (f.name :: calls)) .nil f.body))

namespace Contract.Sustained

variable {c : Contract} {inner : Self} {calls : List Bytes} {allowed : Expr → Prop}

theorem number (h : c.Sustained inner calls allowed) {op : Operator} {e : Expr}
    (he : allowed e) : Run.Keeps c (fun _ => True) (number inner calls op e) := by
  refine Run.Keeps.bind (h.eval he) fun v _ => ?_
  cases v with
  | int n => exact Run.Keeps.pure trivial
  | _ => exact Run.Keeps.fail (h.failure rfl he)

theorem calculate (h : c.Sustained inner calls allowed) {op : Arithmetic} {e : Expr} {a b : Int64}
    (he : allowed e) : Run.Keeps c c.value (calculate calls op e.span a b) := by
  cases op with
  | div =>
      unfold Eval.calculate
      by_cases hb : b = 0
      · simp only [hb, if_true]
        exact Run.Keeps.fail (h.failure rfl he)
      · simp only [hb, if_false]
        exact Run.Keeps.pure (h.int _)
  | _ => exact Run.Keeps.pure (h.int _)

theorem body (h : c.Sustained inner calls allowed) {es : List Expr} {last : Value}
    (hes : ∀ e ∈ es, allowed e) (hlast : c.value last) :
    Run.Keeps c c.value (Eval.body (inner calls) last es) :=
  body_keeps (fun e he => h.eval (hes e he)) hlast

theorem clauses (h : c.Sustained inner calls allowed) {es : List Expr}
    (hes : ∀ e ∈ es, allowed e) : Run.Keeps c c.value (clauses inner calls es) := by
  induction es with
  | nil => exact Run.Keeps.pure h.nil
  | cons e es ih =>
      have hclause : allowed e := hes e (by simp)
      have hmore : ∀ e ∈ es, allowed e := fun e he => hes e (by simp [he])
      cases e with
      | form span elems =>
          cases elems with
          | nil => exact Run.Keeps.fail (h.failure rfl hclause)
          | cons test rest =>
              have htest : allowed test := h.elem hclause (by simp)
              have hrest : ∀ e ∈ rest, allowed e := fun e he => h.elem hclause (by simp [he])
              refine Run.Keeps.bind (h.eval htest) fun v hv => ?_
              by_cases htruthy : v.isTruthy
              · simp only [htruthy, if_true]
                exact h.body hrest hv
              · simp only [htruthy]
                exact ih hmore
      | _ => exact Run.Keeps.fail (h.failure rfl hclause)

theorem parameters (h : c.Sustained inner calls allowed) {function : Bytes} {es : List Expr}
    {done : List Bytes} (known : Bytes → Prop) (hes : ∀ e ∈ es, allowed e)
    (hknown : ∀ place x, .symbol place x ∈ es → known x) (hdone : ∀ x ∈ done, known x) :
    Run.Keeps c (fun names => ∀ x ∈ names, known x) (parameters calls function done es) := by
  induction es generalizing done with
  | nil =>
      apply Run.Keeps.pure
      intro x hx
      exact hdone x (List.mem_reverse.mp hx)
  | cons e es ih =>
      cases e with
      | symbol place name =>
          have hname : known name := hknown place name (by simp)
          apply ih (fun e he => hes e (by simp [he]))
            (fun place x hx => hknown place x (by simp [hx]))
          simpa [hname] using hdone
      | _ => exact Run.Keeps.fail (h.failure rfl (hes _ (by simp)))

theorem defun (h : c.Sustained inner calls allowed) {span head : Span} {args : List Expr}
    (hform : allowed (.form span (.symbol head Operator.defun.name :: args))) :
    Run.Keeps c c.value (defun calls span args) := by
  have harg : ∀ e ∈ args, allowed e := fun e he => h.elem hform (by simp [he])
  match args with
  | [] | [_] | [_, _] => exact Run.Keeps.fail (h.failure rfl hform)
  | target :: params :: first :: rest =>
      have htarget : allowed target := harg target (by simp)
      have hparams : allowed params := harg params (by simp)
      cases target with
      | symbol place name =>
          cases params with
          | form listed elems =>
              refine Run.Keeps.bind (h.parameters (fun x => ∃ place, .symbol place x ∈ elems)
                (fun e he => h.elem hparams he) (fun place x hx => ⟨place, hx⟩) (by simp)) ?_
              intro names hnames
              refine Run.Keeps.bind (Run.Keeps.define fun s hs =>
                h.define hform hnames (by simp) hs) fun _ _ => ?_
              exact Run.Keeps.pure (h.data htarget)
          | _ => exact Run.Keeps.fail (h.failure rfl hparams)
      | _ => exact Run.Keeps.fail (h.failure rfl htarget)

theorem operate (h : c.Sustained inner calls allowed) {span head : Span} {op : Operator}
    {args : List Expr} (hform : allowed (.form span (.symbol head op.name :: args))) :
    Run.Keeps c c.value (operate inner calls span op args) := by
  have harg : ∀ e ∈ args, allowed e := fun e he => h.elem hform (by simp [he])
  cases op with
  | arithmetic op =>
      match args with
      | [x, y] =>
          have hy : allowed y := harg y (by simp)
          refine Run.Keeps.bind (h.number (harg x (by simp))) fun a _ => ?_
          refine Run.Keeps.bind (h.number hy) fun b _ => ?_
          exact h.calculate hy
      | [] | [_] | _ :: _ :: _ :: _ => exact Run.Keeps.fail (h.failure rfl hform)
  | comparison op =>
      match args with
      | [x, y] =>
          refine Run.Keeps.bind (h.number (harg x (by simp))) fun a _ => ?_
          refine Run.Keeps.bind (h.number (harg y (by simp))) fun b _ => ?_
          exact Run.Keeps.pure (h.bool _)
      | [] | [_] | _ :: _ :: _ :: _ => exact Run.Keeps.fail (h.failure rfl hform)
  | setq =>
      match args with
      | [target, e] =>
          cases target with
          | symbol place name =>
              refine Run.Keeps.bind (h.eval (harg e (by simp))) fun v hv => ?_
              refine Run.Keeps.bind (Run.Keeps.assign fun s hs => h.assign hform hv hs)
                fun _ _ => ?_
              exact Run.Keeps.pure hv
          | _ => exact Run.Keeps.fail (h.failure rfl (harg _ (List.mem_cons_self ..)))
      | [] => exact Run.Keeps.fail (h.failure rfl hform)
      | [target] | target :: _ :: _ :: _ =>
          cases target <;> exact Run.Keeps.fail (h.failure rfl hform)
  | atom =>
      match args with
      | [e] =>
          refine Run.Keeps.bind (h.eval (harg e (by simp))) fun v _ => ?_
          exact Run.Keeps.pure (h.bool _)
      | [] | _ :: _ :: _ => exact Run.Keeps.fail (h.failure rfl hform)
  | list =>
      refine Run.Keeps.bind (values_keeps (fun e he => h.eval (harg e he)) (by simp))
        fun vs hvs => ?_
      exact Run.Keeps.pure (h.list hvs.1)
  | equal =>
      match args with
      | [x, y] =>
          refine Run.Keeps.bind (h.eval (harg x (by simp))) fun a _ => ?_
          refine Run.Keeps.bind (h.eval (harg y (by simp))) fun b _ => ?_
          exact Run.Keeps.pure (h.bool _)
      | [] | [_] | _ :: _ :: _ :: _ => exact Run.Keeps.fail (h.failure rfl hform)
  | cond => exact h.clauses harg
  | quote =>
      match args with
      | [e] => exact Run.Keeps.pure (h.data (harg e (by simp)))
      | [] | _ :: _ :: _ => exact Run.Keeps.fail (h.failure rfl hform)
  | defun => exact h.defun hform

theorem apply (h : c.Sustained inner calls allowed) {span head : Span} {name : Bytes}
    {args : List Expr} (hform : allowed (.form span (.symbol head name :: args))) :
    Run.Keeps c c.value (apply inner calls span head name args) := by
  have harg : ∀ e ∈ args, allowed e := fun e he => h.elem hform (by simp [he])
  unfold Eval.apply
  cases hop : Operator.ofName? name with
  | some op =>
      have hname : op.name = name := by simpa using List.find?_some hop
      subst hname
      exact h.operate hform
  | none =>
      refine Run.Keeps.bind Run.Keeps.scope fun s hs => ?_
      cases hvalue : s.value? name with
      | some v => exact Run.Keeps.pure (h.value hs hvalue)
      | none =>
          cases hfunction : s.function? name with
          | some f =>
              simp only
              unfold Eval.call
              by_cases hlength : args.length = f.params.length
              · simp only [hlength, if_true]
                refine Run.Keeps.bind (values_keeps (fun e he => h.eval (harg e he)) (by simp))
                  fun vs hvs => ?_
                exact h.call (h.function hs hfunction) hvs.1 (by simpa [hlength] using hvs.2)
              · simp only [hlength, if_false]
                exact Run.Keeps.fail (h.failure rfl hform)
          | none =>
              have hhead : allowed (.symbol head name) := h.elem hform (by simp)
              exact Run.Keeps.fail (h.failure rfl hhead)

theorem form (h : c.Sustained inner calls allowed) {span : Span} {elems : List Expr}
    (hform : allowed (.form span elems)) : Run.Keeps c c.value (form inner calls span elems) := by
  cases elems with
  | nil => exact Run.Keeps.pure h.nil
  | cons first args =>
      cases first with
      | symbol head name => exact h.apply hform
      | _ => exact Run.Keeps.pure (h.data hform)

end Contract.Sustained

/-- One level of evaluation keeps a contract when the level below sustains it, unless it is too
deep, and the failures of the level itself are covered. -/
theorem eval_keeps {c : Contract} {o : Options} {fuel depth : Nat} {calls : List Bytes}
    {allowed : Expr → Prop} {e : Expr}
    (hlevel : o.limit.crossed (depth + 1) = none →
      c.Sustained (eval o fuel (depth + 1)) calls allowed) (he : allowed e)
    (hdeep : ∀ n, o.limit.crossed (depth + 1) = some n → c.failure ⟨.tooDeep n, e.span, calls⟩)
    (hunbound : ∀ name isFunction, o.strict = true →
      c.failure ⟨.unbound name isFunction, e.span, calls⟩)
    (habsent : e = .absent → c.failure ⟨.noExpression, e.span, calls⟩) :
    Run.Keeps c c.value (eval o (fuel + 1) depth calls e) := by
  unfold eval
  cases hcrossed : o.limit.crossed (depth + 1) with
  | some n => exact Run.Keeps.fail (hdeep n hcrossed)
  | none =>
      have h := hlevel hcrossed
      cases e with
      | int span n => exact Run.Keeps.pure (h.int n)
      | symbol span name =>
          refine Run.Keeps.bind Run.Keeps.scope fun s hs => ?_
          cases hvalue : s.value? name with
          | some v => exact Run.Keeps.pure (h.value hs hvalue)
          | none =>
              cases hconstant : constant? name with
              | some v =>
                  apply Run.Keeps.pure
                  unfold constant? at hconstant
                  split at hconstant
                  · cases hconstant
                    exact h.bool true
                  · split at hconstant
                    · cases hconstant
                      exact h.bool false
                    · split at hconstant
                      · cases hconstant
                        exact h.nil
                      · cases hconstant
              | none =>
                  cases hstrict : o.strict with
                  | true => exact Run.Keeps.fail (hunbound name _ hstrict)
                  | false => exact Run.Keeps.pure (h.data he)
      | form span elems => exact h.form he
      | absent => exact Run.Keeps.fail (habsent rfl)

/-- The contract that asks of a run only what it fails for and whether it ends. -/
def Contract.ends (failure : Failure → Prop) (unfinished : Prop) : Contract where
  scope _ := True
  value _ := True
  function _ := True
  failure := failure
  unfinished := unfinished

theorem ends_sustained {failure : Failure → Prop} {unfinished : Prop} {inner : Self}
    {calls : List Bytes} (hform : ∀ fault span, fault.isOfForm → failure ⟨fault, span, calls⟩)
    (hinner : ∀ calls e, Run.Keeps (.ends failure unfinished) (fun _ => True) (inner calls e)) :
    (Contract.ends failure unfinished).Sustained inner calls fun _ => True where
  elem _ _ := trivial
  eval _ := hinner calls _
  data _ := trivial
  int _ := trivial
  bool _ := trivial
  nil := trivial
  list _ := trivial
  failure hfault _ := hform _ _ hfault
  value _ _ := trivial
  function _ _ := trivial
  assign _ _ _ := trivial
  define _ _ _ _ := trivial
  call _ _ _ := Run.Keeps.inside fun _ _ => ⟨.ends failure unfinished,
    body_keeps (c := .ends failure unfinished) (fun e _ => hinner _ e) trivial, trivial,
    fun _ _ => trivial, fun _ => id, id⟩

/-- What a contract says of a whole evaluation that keeps it. -/
theorem evaluate_keeps {c : Contract} {o : Options} {e : Expr}
    (h : Run.Keeps c c.value (run o e)) {s : Scope} (hs : c.scope s) :
    c.scope (evaluate o e s).2 ∧
      (∀ v, (evaluate o e s).1 = .value v → c.value v) ∧
      ((evaluate o e s).1 = .unfinished → c.unfinished) := by
  have hrun := h s hs
  unfold evaluate
  unfold Run.Ensures at hrun
  cases hend : run o e s with
  | done v s' =>
      simp only [hend] at hrun ⊢
      refine ⟨hrun.2, ?_, by simp⟩
      rintro u ⟨⟩
      exact hrun.1
  | failed failure s' =>
      simp only [hend] at hrun ⊢
      exact ⟨hrun.2, by simp, by simp⟩
  | unfinished =>
      simp only [hend] at hrun ⊢
      exact ⟨hs, by simp, fun _ => hrun⟩

/-- What a contract says of the diagnostic of an evaluation that keeps it. -/
theorem evaluate_fails {c : Contract} {o : Options} {e : Expr}
    (h : Run.Keeps c c.value (run o e)) {s : Scope} (hs : c.scope s) {d : Diagnostic}
    (hd : (evaluate o e s).1 = .failure d) :
    ∃ failure, c.failure failure ∧ d = failure.diagnostic := by
  have hrun := h s hs
  unfold evaluate at hd
  unfold Run.Ensures at hrun
  cases hend : run o e s with
  | done v s' => simp [hend] at hd
  | failed failure s' =>
      simp only [hend, Result.failure.injEq] at hrun hd
      exact ⟨failure, hrun.1, hd.symm⟩
  | unfinished => simp [hend] at hd

end LineLisp.Eval
