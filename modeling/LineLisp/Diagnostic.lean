import LineLisp.Span

/-!
Diagnostics: what is reported when a line cannot be read or evaluated. The kinds have stable
codes: `E1` for reading, `E2` for evaluation, `E3` for limits that either can hit.
-/

namespace LineLisp

inductive Diagnostic.Kind where
  | syntaxError
  | unknownOperator
  | typeError
  | divisionByZero
  | arityError
  | unboundVariable
  | malformedForm
  | stackLimitExceeded
  | other (number : Int)
  deriving DecidableEq

namespace Diagnostic.Kind

def ofNumber (n : Int) : Kind :=
  match n with
  | 0 => .syntaxError
  | 1 => .unknownOperator
  | 2 => .typeError
  | 3 => .divisionByZero
  | 4 => .arityError
  | 5 => .unboundVariable
  | 6 => .malformedForm
  | 7 => .stackLimitExceeded
  | n => .other n

def name : Kind → Bytes
  | .syntaxError => utf8 "SyntaxError"
  | .unknownOperator => utf8 "UnknownOperator"
  | .typeError => utf8 "TypeError"
  | .divisionByZero => utf8 "DivisionByZero"
  | .arityError => utf8 "ArityError"
  | .unboundVariable => utf8 "UnboundVariable"
  | .malformedForm => utf8 "MalformedForm"
  | .stackLimitExceeded => utf8 "StackLimitExceeded"
  | .other n => utf8 "Kind(" ++ Decimal.ofInt n ++ utf8 ")"

def code : Kind → Bytes
  | .syntaxError => utf8 "E1001"
  | .unknownOperator => utf8 "E2001"
  | .typeError => utf8 "E2002"
  | .divisionByZero => utf8 "E2003"
  | .arityError => utf8 "E2004"
  | .unboundVariable => utf8 "E2005"
  | .malformedForm => utf8 "E2006"
  | .stackLimitExceeded => utf8 "E3001"
  | .other _ => utf8 "E0000"

end Diagnostic.Kind

structure Diagnostic where
  kind : Diagnostic.Kind
  message : Bytes
  span : Span
  /-- Advice to the reader, empty when there is none. -/
  hint : Bytes
  /-- The active calls, innermost first, already shortened. -/
  trace : List Bytes
  deriving DecidableEq

namespace Diagnostic

/-- The whole diagnostic on one line. -/
def text (d : Diagnostic) : Bytes :=
  utf8 "[" ++ d.kind.code ++ utf8 "] " ++ d.kind.name ++ utf8 " at " ++ d.span.start.text
    ++ utf8 ": " ++ d.message
    ++ (if d.hint.isEmpty then [] else utf8 " (hint: " ++ d.hint ++ utf8 ")")
    ++ (if d.trace.isEmpty then []
        else utf8 " (in " ++ Bytes.join (utf8 " <- ") d.trace ++ utf8 ")")

/-- The diagnostic as a record; an empty hint or trace is left out. -/
def json (d : Diagnostic) : Json :=
  .object ([
      ("code", .text d.kind.code),
      ("kind", .text d.kind.name),
      ("message", .text d.message),
      ("span", d.span.json .object)]
    ++ (if d.hint.isEmpty then [] else [("hint", .text d.hint)])
    ++ (if d.trace.isEmpty then [] else [("trace", .list (d.trace.map .text))]))

end Diagnostic

end LineLisp
