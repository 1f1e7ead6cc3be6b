import LineLisp.Proofs.Eval.Sound

/-!
Evaluation with its partial steps in the open. The rules for forms take operands apart by
pattern matching and so never look where nothing is. Here the same rules take them one by one, by
their numbers, write every operand and value that a message shows, and choose the operator by its
number; each step that has no result outside its domain is a trap there.

The main statement is that whole expressions in whole scopes spring no trap, and that what is left
is evaluation.
-/

namespace LineLisp.Eval

/-- Where a partial step has no result. -/
inductive Trap where
  | outOfRange (index length : Nat)
  | absentExpr
  | absentValue
  | zeroDivisor
  | unhandledExpr
  | unhandledOperator (number : Nat)
  deriving DecidableEq

/-- Runs that a trap can end once and for all. -/
def Checked (α : Type) : Type :=
  Scope → Except Trap (Outcome α)

namespace Checked

variable {α β : Type}

def bind (x : Checked α) (f : α → Checked β) : Checked β :=
  fun s =>
    match x s with
    | .ok (.done a s) => f a s
    | .ok (.failed failure s) => .ok (.failed failure s)
    | .ok .unfinished => .ok .unfinished
    | .error t => .error t

instance : Monad Checked where
  pure a := fun s => .ok (.done a s)
  bind := Checked.bind

def of (x : Run α) : Checked α :=
  fun s => .ok (x s)

def trap (t : Trap) : Checked α :=
  fun _ => .error t

def fail (calls : List Bytes) (fault : Fault) (span : Span) : Checked α :=
  of (Run.fail calls fault span)

/-- The element with a number. -/
def element (xs : List α) (i : Nat) : Checked α :=
  match xs[i]? with
  | some x => pure x
  | none => trap (.outOfRange i xs.length)

/-- The elements from a number on. -/
def suffix (xs : List α) (i : Nat) : Checked (List α) :=
  if i ≤ xs.length then pure (xs.drop i) else trap (.outOfRange i xs.length)

def spanOf : Expr → Checked Span
  | .absent => trap .absentExpr
  | e => pure e.span

/-- The text of an expression that a message shows. -/
def shown (e : Expr) : Checked Bytes :=
  if e.isWhole then pure e.text else trap .absentExpr

/-- The type and the text of a value that a message shows. -/
def shownValue (v : Value) : Checked (Bytes × Bytes) :=
  if v.isWhole then pure (v.typeName, v.text) else trap .absentValue

def quotient (a b : Int64) : Checked Int64 :=
  if b = 0 then trap .zeroDivisor else pure (a / b)

/-- Runs inside a new innermost frame. -/
def inside (frame : Frame) (x : Checked α) : Checked α :=
  fun s =>
    match x (s.enter frame) with
    | .ok (.done a s) => .ok (.done a s.leave)
    | .ok (.failed failure s) => .ok (.failed failure s.leave)
    | .ok .unfinished => .ok .unfinished
    | .error t => .error t

/-- Fails for an expression that the message shows, at its place. -/
def failAt (calls : List Bytes) (fault : Fault) (e : Expr) : Checked α := do
  let span ← spanOf e
  let _ ← shown e
  fail calls fault span

abbrev Self := List Bytes → Expr → Checked Value

def values (self : Expr → Checked Value) (done : List Value) : List Expr → Checked (List Value)
  | [] => pure done.reverse
  | e :: es => do
      let v ← self e
      values self (v :: done) es

def body (self : Expr → Checked Value) (last : Value) : List Expr → Checked Value
  | [] => pure last
  | e :: es => do
      let v ← self e
      body self v es

/-- Asks for a number of operands. -/
def expect (calls : List Bytes) (span : Span) (op : Operator) (n : Nat) (args : List Expr) :
    Checked Unit :=
  if args.length = n then pure () else fail calls (.operandCount op n args.length) span

def number (self : Self) (calls : List Bytes) (op : Operator) (e : Expr) : Checked Int64 := do
  match ← self calls e with
  | .int n => pure n
  | v => do
      let span ← spanOf e
      let _ ← shownValue v
      fail calls (.notNumber op v) span

/-- The two numbers that arithmetic and comparison take. -/
def operands (self : Self) (calls : List Bytes) (span : Span) (op : Operator)
    (args : List Expr) : Checked (Int64 × Int64) := do
  expect calls span op 2 args
  let x ← element args 0
  let a ← number self calls op x
  let y ← element args 1
  let b ← number self calls op y
  pure (a, b)

def arithmetic (self : Self) (calls : List Bytes) (span : Span) (op : Operator)
    (args : List Expr) : Checked Value := do
  let (a, b) ← operands self calls span op args
  match op.number with
  | 0 => pure (.int (a + b))
  | 1 => pure (.int (a - b))
  | 2 => pure (.int (a * b))
  | _ =>
      if b = 0 then do
        let divisor ← element args 1
        let span ← spanOf divisor
        fail calls .divisionByZero span
      else do
        let q ← quotient a b
        pure (.int q)

def comparison (self : Self) (calls : List Bytes) (span : Span) (op : Operator)
    (args : List Expr) : Checked Value := do
  let (a, b) ← operands self calls span op args
  match op.number with
  | 4 => pure (.bool (decide (a < b)))
  | 5 => pure (.bool (decide (b < a)))
  | 6 => pure (.bool (decide (a ≤ b)))
  | _ => pure (.bool (decide (b ≤ a)))

def clauses (self : Self) (calls : List Bytes) : List Expr → Checked Value
  | [] => pure .nil
  | clause :: more =>
      match clause with
      | .form _ elems =>
          if elems.length = 0 then failAt calls (.condClause clause) clause
          else do
            let test ← element elems 0
            let v ← self calls test
            if v.isTruthy then
              if elems.length = 1 then pure v
              else do
                let rest ← suffix elems 1
                body (self calls) .nil rest
            else clauses self calls more
      | other => failAt calls (.condClause other) other

def parameters (calls : List Bytes) (function : Bytes) (done : List Bytes) :
    List Expr → Checked (List Bytes)
  | [] => pure done.reverse
  | .symbol _ name :: rest => parameters calls function (name :: done) rest
  | other :: _ => failAt calls (.parameter function other) other

def defun (calls : List Bytes) (span : Span) (args : List Expr) : Checked Value :=
  if args.length < 3 then fail calls (.defunOperands args.length) span
  else do
    let target ← element args 0
    match target with
    | .symbol _ name => do
        let params ← element args 1
        match params with
        | .form _ elems => do
            let names ← parameters calls name [] elems
            let rest ← suffix args 2
            of (Run.define name ⟨name, names, rest⟩)
            pure (.symbol name)
        | other => failAt calls (.parameterList name other) other
    | other => failAt calls (.functionName other) other

def setq (self : Self) (calls : List Bytes) (span : Span) (args : List Expr) :
    Checked Value := do
  expect calls span .setq 2 args
  let target ← element args 0
  match target with
  | .symbol _ name => do
      let e ← element args 1
      let v ← self calls e
      of (Run.assign name v)
      pure v
  | other => failAt calls (.setqTarget other) other

def operate (self : Self) (calls : List Bytes) (span : Span) (op : Operator)
    (args : List Expr) : Checked Value :=
  if op.number ≤ 3 then arithmetic self calls span op args
  else if op.number ≤ 7 then comparison self calls span op args
  else
    match op.number with
    | 8 => setq self calls span args
    | 9 => do
        expect calls span op 1 args
        let e ← element args 0
        let v ← self calls e
        pure (.bool v.isAtom)
    | 10 => do
        let vs ← values (self calls) [] args
        pure (.list vs)
    | 11 => do
        expect calls span op 2 args
        let x ← element args 0
        let a ← self calls x
        let y ← element args 1
        let b ← self calls y
        pure (.bool (a.same b))
    | 12 => clauses self calls args
    | 13 => do
        expect calls span op 1 args
        let e ← element args 0
        pure (.ofExpr e)
    | 14 => defun calls span args
    | n => trap (.unhandledOperator n)

/-- Binds the parameters from a number on, each to the value with its number. -/
def arguments (vs : List Value) (i : Nat) (vars : Bindings Value) :
    List Bytes → Checked Frame
  | [] => pure ⟨vars, .empty⟩
  | param :: rest => do
      let v ← element vs i
      arguments vs (i + 1) (vars.insert param v) rest

def call (self : Self) (calls : List Bytes) (span : Span) (f : Function) (args : List Expr) :
    Checked Value :=
  if args.length = f.params.length then do
    let vs ← values (self calls) [] args
    let frame ← arguments vs 0 .empty f.params
    inside frame (body (self (f.name :: calls)) .nil f.body)
  else
    fail calls (.argumentCount f.name f.params.length args.length) span

def form (self : Self) (calls : List Bytes) (span : Span) (elems : List Expr) : Checked Value :=
  if elems.length = 0 then pure .nil
  else do
    let first ← element elems 0
    match first with
    | .symbol _ name => do
        let args ← suffix elems 1
        match Operator.ofName? name with
        | some op => operate self calls span op args
        | none => do
            let s ← of Run.scope
            match s.value? name with
            | some v => pure v
            | none =>
                match s.function? name with
                | some f => call self calls span f args
                | none => do
                    let head ← spanOf first
                    fail calls (.unknownOperator name) head
    | _ => pure (.ofExpr (.form span elems))

/-- Evaluates an expression `depth` levels deep. -/
def eval (o : Options) : (fuel depth : Nat) → List Bytes → Expr → Checked Value
  | 0, _, _, _ => of Run.stop
  | fuel + 1, depth, calls, e =>
      match o.limit.crossed (depth + 1) with
      | some n => do
          let span ← spanOf e
          fail calls (.tooDeep n) span
      | none =>
          match e with
          | .int _ n => pure (.int n)
          | .symbol span name => of (Eval.symbol o.strict calls span name)
          | .form span elems => form (eval o fuel (depth + 1)) calls span elems
          | .absent => trap .unhandledExpr

/-- The result of a whole evaluation and the scope that it leaves behind. -/
def evaluate (o : Options) (e : Expr) (scope : Scope) : Except Trap (Result × Scope) :=
  match eval o o.fuel 0 [] e scope with
  | .ok (.done v scope) => .ok (.value v, scope)
  | .ok (.failed failure scope) => .ok (.failure failure.diagnostic, scope)
  | .ok .unfinished => .ok (.unfinished, scope)
  | .error t => .error t

/-- Whether a checked run springs no trap in a whole scope and does there what a run does. -/
def Agrees (checked : Checked α) (x : Run α) : Prop :=
  ∀ s : Scope, s.Whole → checked s = .ok (x s)

theorem bind_assoc {γ : Type} (x : Checked α) (f : α → Checked β) (g : β → Checked γ) :
    x >>= f >>= g = x >>= fun a => f a >>= g := by
  funext s
  change Checked.bind (Checked.bind x f) g s = Checked.bind x (fun a => Checked.bind (f a) g) s
  unfold Checked.bind
  rcases x s with t | (⟨a, s'⟩ | ⟨failure, s'⟩ | _) <;> rfl

theorem element_bind {xs : List α} {i : Nat} {x : α} (h : xs[i]? = some x) (f : α → Checked β) :
    (element xs i >>= f) = f x := by
  unfold element
  rw [h]
  rfl

theorem suffix_bind {xs : List α} {i : Nat} (h : i ≤ xs.length) (f : List α → Checked β) :
    (suffix xs i >>= f) = f (xs.drop i) := by
  unfold suffix
  rw [if_pos h]
  rfl

theorem spanOf_bind {e : Expr} (h : e.isWhole) (f : Span → Checked α) :
    (spanOf e >>= f) = f e.span := by
  cases e with
  | absent => cases h
  | _ => rfl

theorem failAt_eq {e : Expr} (h : e.isWhole) (calls : List Bytes) (fault : Fault) :
    (failAt calls fault e : Checked α) = fail calls fault e.span := by
  unfold failAt shown
  rw [spanOf_bind h, if_pos h]
  rfl

theorem expect_bind {args : List Expr} {n : Nat} (h : args.length = n) (calls : List Bytes)
    (span : Span) (op : Operator) (f : Unit → Checked α) :
    (expect calls span op n args >>= f) = f () := by
  unfold expect
  rw [if_pos h]
  rfl

theorem expect_bind_of_ne {args : List Expr} {n : Nat} (h : args.length ≠ n) (calls : List Bytes)
    (span : Span) (op : Operator) (f : Unit → Checked α) :
    (expect calls span op n args >>= f) = fail calls (.operandCount op n args.length) span := by
  unfold expect
  rw [if_neg h]
  rfl

/-- Binding by number binds the parameters to the values at their places. -/
theorem arguments_eq {vs : List Value} {i : Nat} {vars : Bindings Value} {params : List Bytes}
    (h : vs.length = i + params.length) :
    arguments vs i vars params =
      pure ⟨(params.zip (vs.drop i)).foldl (fun b (name, v) => b.insert name v) vars, .empty⟩ := by
  induction params generalizing i vars with
  | nil => simp [arguments]
  | cons param rest ih =>
      rw [List.length_cons] at h
      have hi : i < vs.length := by omega
      rw [arguments, element_bind (List.getElem?_eq_getElem hi), ih (by omega),
        List.drop_eq_getElem_cons hi]
      rfl

namespace Agrees

variable {P : α → Prop}

theorem of (x : Run α) : Agrees (Checked.of x) x :=
  fun _ _ => rfl

theorem pure (a : α) : Agrees (Pure.pure a) (Pure.pure a) :=
  fun _ _ => rfl

theorem bind {checked : Checked α} {x : Run α} {next : α → Checked β} {f : α → Run β}
    (hkeeps : Run.Keeps wholeness P x) (hx : Agrees checked x)
    (hf : ∀ a, P a → Agrees (next a) (f a)) : Agrees (checked >>= next) (x >>= f) := by
  intro s hs
  have hstep := hkeeps s hs
  change Checked.bind checked next s = .ok (Run.bind x f s)
  unfold Run.Ensures at hstep
  unfold Checked.bind Run.bind
  rw [hx s hs]
  cases hrun : x s with
  | done a s' =>
      simp only [hrun] at hstep ⊢
      exact hf a hstep.1 s' hstep.2
  | failed failure s' => rfl
  | unfinished => rfl

theorem inside {frame : Frame} {checked : Checked α} {x : Run α} (hframe : frame.Whole)
    (hx : Agrees checked x) : Agrees (Checked.inside frame checked) (Run.inside frame x) := by
  intro s hs
  unfold Checked.inside Run.inside
  rw [hx (s.enter frame) (Scope.Each.enter hs hframe)]
  cases x (s.enter frame) <;> rfl

end Agrees

/-- Whether a checked evaluator of parts does what an evaluator of parts does, which keeps scopes
whole. -/
structure Follows (checked : Self) (inner : Eval.Self) : Prop where
  keeps : ∀ calls e, e.isWhole → Run.Keeps wholeness (fun v => v.isWhole) (inner calls e)
  agrees : ∀ calls e, e.isWhole → Agrees (checked calls e) (inner calls e)

namespace Follows

variable {checked : Self} {inner : Eval.Self} {calls : List Bytes}

theorem sustained (h : Follows checked inner) (calls : List Bytes) :
    wholeness.Sustained inner calls fun e => e.isWhole :=
  wholeness_sustained calls h.keeps

theorem values (h : Follows checked inner) {es : List Expr} (hes : ∀ e ∈ es, e.isWhole)
    (done : List Value) :
    Agrees (Checked.values (checked calls) done es) (Eval.values (inner calls) done es) := by
  induction es generalizing done with
  | nil => exact .pure _
  | cons e es ih =>
      have he : e.isWhole := hes e (by simp)
      refine .bind (h.keeps calls e he) (h.agrees calls e he) fun v _ => ?_
      exact ih (fun e he => hes e (by simp [he])) _

theorem body (h : Follows checked inner) {es : List Expr} (hes : ∀ e ∈ es, e.isWhole)
    (last : Value) :
    Agrees (Checked.body (checked calls) last es) (Eval.body (inner calls) last es) := by
  induction es generalizing last with
  | nil => exact .pure _
  | cons e es ih =>
      have he : e.isWhole := hes e (by simp)
      refine .bind (h.keeps calls e he) (h.agrees calls e he) fun v _ => ?_
      exact ih (fun e he => hes e (by simp [he])) _

theorem number (h : Follows checked inner) (op : Operator) {e : Expr} (he : e.isWhole) :
    Agrees (Checked.number checked calls op e) (Eval.number inner calls op e) := by
  refine .bind (h.keeps calls e he) (h.agrees calls e he) fun v hv => ?_
  cases v with
  | int n => exact .pure n
  | absent => cases hv
  | _ =>
      simp only [spanOf_bind he, shownValue, hv, if_true]
      exact .of _

/-- Two operands are evaluated as numbers one after the other. -/
theorem operands (h : Follows checked inner) {span : Span} (op : Operator) {x y : Expr}
    (hx : x.isWhole) (hy : y.isWhole) {next : Int64 × Int64 → Checked Value}
    {f : Int64 → Int64 → Run Value} (hnext : ∀ a b, Agrees (next (a, b)) (f a b)) :
    Agrees (Checked.operands checked calls span op [x, y] >>= next)
      (do
        let a ← Eval.number inner calls op x
        let b ← Eval.number inner calls op y
        f a b) := by
  have hsustained := h.sustained calls
  have hlength : [x, y].length = 2 := rfl
  have hfirst : [x, y][0]? = some x := rfl
  have hsecond : [x, y][1]? = some y := rfl
  unfold Checked.operands
  rw [expect_bind hlength, element_bind hfirst, bind_assoc]
  refine .bind (hsustained.number hx) (h.number op hx) fun a _ => ?_
  rw [element_bind hsecond, bind_assoc]
  exact .bind (hsustained.number hy) (h.number op hy) fun b _ => hnext a b

theorem operands_of_length_ne {span : Span} {op : Operator} {args : List Expr}
    (h : args.length ≠ 2) (next : Int64 × Int64 → Checked Value) :
    Checked.operands checked calls span op args >>= next =
      Checked.fail calls (.operandCount op 2 args.length) span := by
  unfold Checked.operands
  rw [expect_bind_of_ne h]
  rfl

theorem calculate (k : Arithmetic) (calls : List Bytes) (x : Expr) {y : Expr} (hy : y.isWhole)
    (a b : Int64) :
    Agrees
      (match (Operator.arithmetic k).number with
        | 0 => Pure.pure (.int (a + b))
        | 1 => Pure.pure (.int (a - b))
        | 2 => Pure.pure (.int (a * b))
        | _ =>
            if b = 0 then do
              let divisor ← element [x, y] 1
              let span ← spanOf divisor
              Checked.fail calls .divisionByZero span
            else do
              let q ← quotient a b
              Pure.pure (.int q))
      (Eval.calculate calls k y.span a b) := by
  cases k with
  | div =>
      change Agrees (if b = 0 then _ else _) (if b = 0 then _ else _)
      by_cases hb : b = 0
      · have hsecond : [x, y][1]? = some y := rfl
        rw [if_pos hb, if_pos hb, element_bind hsecond, spanOf_bind hy]
        exact .of _
      · rw [if_neg hb, if_neg hb, quotient, if_neg hb]
        exact .pure _
  | _ => exact .pure _

theorem clauses (h : Follows checked inner) {es : List Expr} (hes : ∀ e ∈ es, e.isWhole) :
    Agrees (Checked.clauses checked calls es) (Eval.clauses inner calls es) := by
  induction es with
  | nil => exact .pure _
  | cons clause more ih =>
      have hclause : clause.isWhole := hes clause (by simp)
      cases clause with
      | form span elems =>
          cases elems with
          | nil =>
              rw [Checked.clauses, if_pos List.length_nil, failAt_eq hclause]
              exact .of _
          | cons test rest =>
              have helems := Expr.areWhole_iff.mp hclause
              have htest : test.isWhole := helems test (by simp)
              have hrest : ∀ e ∈ rest, e.isWhole := fun e he => helems e (by simp [he])
              have hfirst : (test :: rest)[0]? = some test := rfl
              rw [Checked.clauses, if_neg (by simp), element_bind hfirst]
              refine .bind (h.keeps calls test htest) (h.agrees calls test htest) fun v _ => ?_
              by_cases htruthy : v.isTruthy
              · simp only [htruthy, if_true]
                cases rest with
                | nil => exact .pure _
                | cons next rest =>
                    rw [if_neg (by simp), suffix_bind (by simp)]
                    exact h.body hrest .nil
              · simp only [htruthy]
                exact ih fun e he => hes e (by simp [he])
      | absent => cases hclause
      | _ =>
          rw [Checked.clauses, failAt_eq hclause]
          · exact .of _
          · simp

theorem parameters (calls : List Bytes) (function : Bytes) (done : List Bytes) {es : List Expr}
    (hes : ∀ e ∈ es, e.isWhole) :
    Agrees (Checked.parameters calls function done es)
      (Eval.parameters calls function done es) := by
  induction es generalizing done with
  | nil => exact .pure _
  | cons e es ih =>
      have he : e.isWhole := hes e (by simp)
      cases e with
      | symbol place name => exact ih _ fun e he => hes e (by simp [he])
      | _ =>
          rw [Checked.parameters, failAt_eq he]
          · exact .of _
          · simp

theorem defun (h : Follows checked inner) (span : Span) {args : List Expr}
    (hargs : ∀ e ∈ args, e.isWhole) :
    Agrees (Checked.defun calls span args) (Eval.defun calls span args) := by
  match args with
  | [] | [_] | [_, _] => exact .of _
  | target :: params :: first :: rest =>
      have htarget : target.isWhole := hargs target (by simp)
      have hparams : params.isWhole := hargs params (by simp)
      have hzero : (target :: params :: first :: rest)[0]? = some target := rfl
      have hone : (target :: params :: first :: rest)[1]? = some params := rfl
      rw [Checked.defun, if_neg (by simp), element_bind hzero]
      cases target with
      | symbol place name =>
          simp only
          rw [element_bind hone]
          cases params with
          | form listed elems =>
              have helems := Expr.areWhole_iff.mp hparams
              have hkeeps : Run.Keeps wholeness (fun names => ∀ x ∈ names, True)
                  (Eval.parameters calls name [] elems) :=
                (h.sustained calls).parameters _ helems (fun _ _ _ => trivial) (by simp)
              refine .bind hkeeps (parameters calls name [] helems) fun names _ => ?_
              rw [suffix_bind (by simp)]
              exact fun _ _ => rfl
          | _ =>
              simp only [failAt_eq hparams]
              exact .of _
      | _ =>
          simp only [failAt_eq htarget]
          exact .of _

theorem setq (h : Follows checked inner) (span : Span) {args : List Expr}
    (hargs : ∀ e ∈ args, e.isWhole) :
    Agrees (Checked.setq checked calls span args) (Eval.operate inner calls span .setq args) := by
  match args with
  | [target, e] =>
      have htarget : target.isWhole := hargs target (by simp)
      have he : e.isWhole := hargs e (by simp)
      have hlength : [target, e].length = 2 := rfl
      have hfirst : [target, e][0]? = some target := rfl
      have hsecond : [target, e][1]? = some e := rfl
      rw [Checked.setq, expect_bind hlength, element_bind hfirst]
      cases target with
      | symbol place name =>
          simp only
          rw [element_bind hsecond]
          exact .bind (h.keeps calls e he) (h.agrees calls e he) fun v _ _ _ => rfl
      | _ =>
          simp only [failAt_eq htarget]
          exact .of _
  | [] => exact .of _
  | [target] | target :: _ :: _ :: _ => cases target <;> exact .of _

theorem call (h : Follows checked inner) (span : Span) {f : Function} (hf : f.Whole)
    {args : List Expr} (hargs : ∀ e ∈ args, e.isWhole) :
    Agrees (Checked.call checked calls span f args) (Eval.call inner calls span f args) := by
  unfold Checked.call Eval.call
  by_cases hlength : args.length = f.params.length
  · rw [if_pos hlength, if_pos hlength]
    have hkeeps := values_keeps (fun e he => h.keeps calls e (hargs e he))
      (show ∀ v ∈ [], wholeness.value v by simp)
    refine .bind hkeeps (h.values hargs []) fun vs hvs => ?_
    rw [arguments_eq (by simpa [hlength] using hvs.2)]
    exact .inside (arguments_each fun _ _ v hv => hvs.1 v hv) (h.body hf .nil)
  · rw [if_neg hlength, if_neg hlength]
    exact .of _

theorem operate (h : Follows checked inner) (span : Span) (op : Operator) {args : List Expr}
    (hargs : ∀ e ∈ args, e.isWhole) :
    Agrees (Checked.operate checked calls span op args)
      (Eval.operate inner calls span op args) := by
  cases op with
  | arithmetic k =>
      have hnumber : (Operator.arithmetic k).number ≤ 3 := by cases k <;> decide
      rw [Checked.operate, if_pos hnumber, Checked.arithmetic]
      match args with
      | [x, y] =>
          have hy : y.isWhole := hargs y (by simp)
          exact h.operands _ (hargs x (by simp)) hy fun a b => calculate k calls x hy a b
      | [] | [_] | _ :: _ :: _ :: _ =>
          rw [operands_of_length_ne (by simp)]
          exact .of _
  | comparison k =>
      have hnumber : ¬ (Operator.comparison k).number ≤ 3 ∧ (Operator.comparison k).number ≤ 7 := by
        cases k <;> decide
      rw [Checked.operate, if_neg hnumber.1, if_pos hnumber.2, Checked.comparison]
      match args with
      | [x, y] =>
          refine h.operands _ (hargs x (by simp)) (hargs y (by simp)) fun a b => ?_
          cases k <;> exact .pure _
      | [] | [_] | _ :: _ :: _ :: _ =>
          rw [operands_of_length_ne (by simp)]
          exact .of _
  | setq => exact h.setq span hargs
  | atom =>
      match args with
      | [e] =>
          have he : e.isWhole := hargs e (by simp)
          change Agrees (checked calls e >>= fun v => pure (Value.bool v.isAtom)) _
          exact .bind (h.keeps calls e he) (h.agrees calls e he) fun v _ => .pure _
      | [] | _ :: _ :: _ => exact .of _
  | list =>
      have hkeeps := values_keeps (fun e he => h.keeps calls e (hargs e he))
        (show ∀ v ∈ [], wholeness.value v by simp)
      exact .bind hkeeps (h.values hargs []) fun vs _ => .pure _
  | equal =>
      match args with
      | [x, y] =>
          have hx : x.isWhole := hargs x (by simp)
          have hy : y.isWhole := hargs y (by simp)
          change Agrees (checked calls x >>= fun a => checked calls y >>= fun b =>
            pure (Value.bool (a.same b))) _
          refine .bind (h.keeps calls x hx) (h.agrees calls x hx) fun a _ => ?_
          exact .bind (h.keeps calls y hy) (h.agrees calls y hy) fun b _ => .pure _
      | [] | [_] | _ :: _ :: _ :: _ => exact .of _
  | cond => exact h.clauses hargs
  | quote =>
      match args with
      | [e] => exact .pure _
      | [] | _ :: _ :: _ => exact .of _
  | defun => exact h.defun span hargs

theorem form (h : Follows checked inner) (span : Span) {elems : List Expr}
    (helems : ∀ e ∈ elems, e.isWhole) :
    Agrees (Checked.form checked calls span elems) (Eval.form inner calls span elems) := by
  cases elems with
  | nil => exact .pure _
  | cons first args =>
      have hargs : ∀ e ∈ args, e.isWhole := fun e he => helems e (by simp [he])
      have hfirst : (first :: args)[0]? = some first := rfl
      rw [Checked.form, if_neg (by simp), element_bind hfirst]
      cases first with
      | symbol head name =>
          simp only
          rw [suffix_bind (by simp), List.drop_one, List.tail_cons]
          change Agrees _ (Eval.apply inner calls span head name args)
          unfold Eval.apply
          cases hop : Operator.ofName? name with
          | some op => exact h.operate span op hargs
          | none =>
              simp only
              refine .bind Run.Keeps.scope (.of _) fun s hs => ?_
              cases hvalue : s.value? name with
              | some v => exact .pure _
              | none =>
                  cases hfunction : s.function? name with
                  | some f => exact h.call span (Scope.Each.function hs hfunction) hargs
                  | none => exact .of _
      | _ => exact .pure _

end Follows

theorem eval_follows (o : Options) (fuel depth : Nat) :
    Follows (eval o fuel depth) (Eval.eval o fuel depth) := by
  refine ⟨fun calls e he => eval_whole o fuel depth calls he, ?_⟩
  induction fuel generalizing depth with
  | zero => exact fun _ _ _ => .of _
  | succ fuel ih =>
      intro calls e he
      unfold eval Eval.eval
      cases hcrossed : o.limit.crossed (depth + 1) with
      | some n =>
          simp only [spanOf_bind he]
          exact .of _
      | none =>
          cases e with
          | int span n => exact .pure _
          | symbol span name => exact .of _
          | form span elems =>
              have hparts : Follows (eval o fuel (depth + 1)) (Eval.eval o fuel (depth + 1)) :=
                ⟨fun calls e he => eval_whole o fuel (depth + 1) calls he, ih (depth + 1)⟩
              exact hparts.form span (Expr.areWhole_iff.mp he)
          | absent => cases he

/-- A whole expression is evaluated in a whole scope without a trap. -/
theorem evaluate_eq (o : Options) {e : Expr} (he : e.isWhole) {s : Scope} (hs : s.Whole) :
    evaluate o e s = .ok (Eval.evaluate o e s) := by
  have hrun := (eval_follows o o.fuel 0).agrees [] e he s hs
  unfold evaluate Eval.evaluate Eval.run
  rw [hrun]
  cases Eval.eval o o.fuel 0 [] e s <;> rfl

end Checked

end LineLisp.Eval
