import LineLisp.Diagnostic
import LineLisp.Diagnostic.Trace
import LineLisp.Operator
import LineLisp.Value

/-!
What can go wrong in an evaluation, apart from where: each fault with its kind, its message and
its hint.
-/

namespace LineLisp.Eval

inductive Fault where
  | tooDeep (limit : Nat)
  | unbound (name : Bytes) (isFunction : Bool)
  | unknownOperator (name : Bytes)
  | operandCount (op : Operator) (expected got : Nat)
  | setqTarget (got : Expr)
  | notNumber (op : Operator) (got : Value)
  | divisionByZero
  | condClause (got : Expr)
  | defunOperands (got : Nat)
  | functionName (got : Expr)
  | parameterList (function : Bytes) (got : Expr)
  | parameter (function : Bytes) (got : Expr)
  | argumentCount (function : Bytes) (expected got : Nat)
  | noExpression

namespace Fault

def kind : Fault → Diagnostic.Kind
  | .tooDeep _ => .stackLimitExceeded
  | .unbound _ _ => .unboundVariable
  | .unknownOperator _ => .unknownOperator
  | .operandCount _ _ _ | .defunOperands _ | .argumentCount _ _ _ => .arityError
  | .setqTarget _ | .condClause _ | .functionName _ | .parameterList _ _
  | .parameter _ _ | .noExpression => .malformedForm
  | .notNumber _ _ => .typeError
  | .divisionByZero => .divisionByZero

/-- A name in single quotes. -/
def marked (name : Bytes) : Bytes :=
  utf8 "'" ++ name ++ utf8 "'"

def message : Fault → Bytes
  | .tooDeep limit => utf8 "evaluation depth exceeds " ++ Decimal.ofNat limit
  | .unbound name _ => utf8 "undefined variable " ++ marked name
  | .unknownOperator name => utf8 "unknown operator " ++ marked name
  | .operandCount op expected got =>
      marked op.name ++ utf8 " expects " ++ Decimal.ofNat expected
        ++ utf8 (if expected = 1 then " operand, got " else " operands, got ")
        ++ Decimal.ofNat got
  | .setqTarget got => utf8 "setq target must be a symbol, got " ++ got.shown
  | .notNumber op got =>
      marked op.name ++ utf8 " expected a number, got " ++ got.typeName ++ utf8 " "
        ++ got.shown
  | .divisionByZero => utf8 "division by zero"
  | .condClause got => utf8 "cond clause must be a non-empty form, got " ++ got.shown
  | .defunOperands got =>
      utf8 "'defun' expects a name, a parameter list and a body, got "
        ++ Decimal.ofNat got ++ utf8 " operands"
  | .functionName got => utf8 "function name must be a symbol, got " ++ got.shown
  | .parameterList function got =>
      utf8 "parameter list of " ++ marked function ++ utf8 " must be a form, got " ++ got.shown
  | .parameter function got =>
      utf8 "parameter of " ++ marked function ++ utf8 " must be a symbol, got " ++ got.shown
  | .argumentCount function expected got =>
      function ++ utf8 "() expects " ++ Decimal.ofNat expected ++ utf8 " arguments, got "
        ++ Decimal.ofNat got
  | .noExpression => utf8 "unhandled expression type: <nil>"

def hint : Fault → Bytes
  | .tooDeep _ => utf8 "check for recursion without a base case"
  | .unbound name true =>
      marked name ++ utf8 " is a function; call it as (" ++ name ++ utf8 " ...)"
  | .unbound name false => utf8 "use '" ++ name ++ utf8 " to write a symbol"
  | _ => []

end Fault

/-- A fault with its place and the names of the functions that were active, innermost first. -/
structure Failure where
  fault : Fault
  span : Span
  calls : List Bytes

def Failure.diagnostic (f : Failure) : Diagnostic :=
  ⟨f.fault.kind, f.fault.message, f.span, f.fault.hint, Trace.shorten f.calls⟩

end LineLisp.Eval
