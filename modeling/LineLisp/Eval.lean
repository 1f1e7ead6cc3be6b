import LineLisp.DepthLimit
import LineLisp.Eval.Run

/-!
Evaluation. Depth counts nested evaluations, and fuel bounds it from above: one unit is spent
for each level, so a run under a limit of `n` levels never needs more than `n + 1` units.
Scoping is dynamic, since the frame of a call is put in front of the caller's chain.

The rules for forms take the evaluator as a parameter `self`, given the active calls and an
expression; `eval` ties the knot. They are total: a part that is absent gives a diagnostic like any
other that does not fit. A program that was read has no such part.
-/

namespace LineLisp.Eval

structure Options where
  /-- Whether an unbound symbol is an error rather than its own value. -/
  strict : Bool
  limit : DepthLimit
  deriving DecidableEq

def Options.standard : Options :=
  ⟨false, .standard⟩

/-- The evaluator for the parts of a form: active calls, innermost first, and an expression. -/
abbrev Self := List Bytes → Expr → Run Value

/-- The names that stand for values of their own unless they are bound. -/
def constant? (name : Bytes) : Option Value :=
  if name = utf8 "true" then some (.bool true)
  else if name = utf8 "false" then some (.bool false)
  else if name = utf8 "nil" then some .nil
  else none

def symbol (strict : Bool) (calls : List Bytes) (span : Span) (name : Bytes) : Run Value := do
  let s ← Run.scope
  match s.value? name with
  | some v => pure v
  | none =>
      match constant? name with
      | some v => pure v
      | none =>
          if strict then
            Run.fail calls (.unbound name (s.function? name).isSome) span
          else
            pure (.symbol name)

/-- Evaluates in order and collects the values; `done` holds earlier ones, latest first. -/
@[specialize]
def values (self : Expr → Run Value) (done : List Value) : List Expr → Run (List Value)
  | [] => pure done.reverse
  | e :: es => do
      let v ← self e
      values self (v :: done) es

/-- Evaluates in order; the result is the last value, or `last` when there is nothing. -/
@[specialize]
def body (self : Expr → Run Value) (last : Value) : List Expr → Run Value
  | [] => pure last
  | e :: es => do
      let v ← self e
      body self v es

/-- Evaluates an operand that has to be a number. -/
@[specialize]
def number (self : Self) (calls : List Bytes) (op : Operator) (e : Expr) : Run Int64 := do
  match ← self calls e with
  | .int n => pure n
  | v => Run.fail calls (.notNumber op v) e.span

/-- Arithmetic wraps around at 64 bits and division goes toward zero; `divisor` is the place of
the second operand. -/
def calculate (calls : List Bytes) (op : Arithmetic) (divisor : Span) (a b : Int64) :
    Run Value :=
  match op with
  | .add => pure (.int (a + b))
  | .sub => pure (.int (a - b))
  | .mul => pure (.int (a * b))
  | .div =>
      if b = 0 then Run.fail calls .divisionByZero divisor
      else pure (.int (a / b))

/-- The clauses of a `cond`, up to the first whose test is truthy. -/
@[specialize]
def clauses (self : Self) (calls : List Bytes) : List Expr → Run Value
  | [] => pure .nil
  | .form _ (test :: rest) :: more => do
      let v ← self calls test
      if v.isTruthy then body (self calls) v rest
      else clauses self calls more
  | other :: _ => Run.fail calls (.condClause other) other.span

/-- The names of a parameter list; `done` holds earlier ones, latest first. -/
def parameters (calls : List Bytes) (function : Bytes) (done : List Bytes) :
    List Expr → Run (List Bytes)
  | [] => pure done.reverse
  | .symbol _ name :: rest => parameters calls function (name :: done) rest
  | other :: _ => Run.fail calls (.parameter function other) other.span

/-- Defines a function from the operands of a `defun`, which stands at `span`. -/
def defun (calls : List Bytes) (span : Span) : List Expr → Run Value
  | target :: params :: first :: rest =>
      match target, params with
      | .symbol _ name, .form _ elems => do
          let names ← parameters calls name [] elems
          Run.define name ⟨name, names, first :: rest⟩
          pure (.symbol name)
      | .symbol _ name, other => Run.fail calls (.parameterList name other) other.span
      | other, _ => Run.fail calls (.functionName other) other.span
  | args => Run.fail calls (.defunOperands args.length) span

/-- The form at `span` of an operator and its operands. -/
@[specialize]
def operate (self : Self) (calls : List Bytes) (span : Span) (op : Operator)
    (args : List Expr) : Run Value :=
  match op, args with
  | .arithmetic k, [x, y] => do
      let a ← number self calls op x
      let b ← number self calls op y
      calculate calls k y.span a b
  | .comparison k, [x, y] => do
      let a ← number self calls op x
      let b ← number self calls op y
      pure (.bool (k.holds a b))
  | .setq, [.symbol _ name, e] => do
      let v ← self calls e
      Run.assign name v
      pure v
  | .setq, [other, _] => Run.fail calls (.setqTarget other) other.span
  | .atom, [e] => do
      let v ← self calls e
      pure (.bool v.isAtom)
  | .list, es => do
      let vs ← values (self calls) [] es
      pure (.list vs)
  | .equal, [x, y] => do
      let a ← self calls x
      let b ← self calls y
      pure (.bool (a.same b))
  | .cond, cs => clauses self calls cs
  | .quote, [e] => pure (.ofExpr e)
  | .defun, args => defun calls span args
  | .atom, args | .quote, args => Run.fail calls (.operandCount op 1 args.length) span
  | op, args => Run.fail calls (.operandCount op 2 args.length) span

/-- The frame of a call: parameters bound from left to right. -/
def arguments (params : List Bytes) (vs : List Value) : Frame where
  vars := (params.zip vs).foldl (fun b (name, v) => b.insert name v) .empty
  funcs := .empty

/-- Calls a function from the form at `span`: the arguments are evaluated by the caller, the
body in a frame of its own. -/
@[specialize]
def call (self : Self) (calls : List Bytes) (span : Span) (f : Function) (args : List Expr) :
    Run Value :=
  if args.length = f.params.length then do
    let vs ← values (self calls) [] args
    Run.inside (arguments f.params vs) (body (self (f.name :: calls)) .nil f.body)
  else
    Run.fail calls (.argumentCount f.name f.params.length args.length) span

/-- The form at `span` whose first element is the symbol `name` at `head`. A variable in this
place gives its value, whatever follows. -/
@[specialize]
def apply (self : Self) (calls : List Bytes) (span head : Span) (name : Bytes)
    (args : List Expr) : Run Value :=
  match Operator.ofName? name with
  | some op => operate self calls span op args
  | none => do
      let s ← Run.scope
      match s.value? name with
      | some v => pure v
      | none =>
          match s.function? name with
          | some f => call self calls span f args
          | none => Run.fail calls (.unknownOperator name) head

/-- A form; one that does not start with a symbol is data. -/
@[specialize]
def form (self : Self) (calls : List Bytes) (span : Span) (elems : List Expr) : Run Value :=
  match elems with
  | [] => pure .nil
  | .symbol head name :: args => apply self calls span head name args
  | _ => pure (.ofExpr (.form span elems))

/-- Evaluates an expression `depth` levels deep. -/
def eval (o : Options) : (fuel depth : Nat) → List Bytes → Expr → Run Value
  | 0, _, _, _ => Run.stop
  | fuel + 1, depth, calls, e =>
      match o.limit.crossed (depth + 1) with
      | some n => Run.fail calls (.tooDeep n) e.span
      | none =>
          match e with
          | .int _ n => pure (.int n)
          | .symbol span name => symbol o.strict calls span name
          | .form span elems => form (eval o fuel (depth + 1)) calls span elems
          | .absent => Run.fail calls .noExpression e.span

/-- Fuel for a whole evaluation: what its limit takes, and without one what the greatest limit of
64 signed bits takes. -/
def Options.fuel (o : Options) : Nat :=
  match o.limit with
  | some n => n + 1
  | none => 0x8000000000000000

/-- Evaluates an expression from the top. -/
def run (o : Options) (e : Expr) : Run Value :=
  eval o o.fuel 0 [] e

/-- What is told about an evaluation from the top, apart from its effects. -/
inductive Result where
  | value (v : Value)
  | failure (d : Diagnostic)
  /-- The evaluation was still going on when its fuel was spent. -/
  | unfinished

def Result.isValue : Result → Bool
  | .value _ => true
  | _ => false

/-- The result of a whole evaluation and the scope that it leaves behind. -/
def evaluate (o : Options) (e : Expr) (scope : Scope) : Result × Scope :=
  match run o e scope with
  | .done v scope => (.value v, scope)
  | .failed failure scope => (.failure failure.diagnostic, scope)
  | .unfinished => (.unfinished, scope)

end LineLisp.Eval
