import LineLisp.Token

/-!
Expressions: integers, symbols and forms, each with the place it was read from. The place never
takes part in what an expression means, so equality of expressions ignores it. `absent` is the
lack of an expression: a host may leave a place in a form empty, but reading never does.
-/

namespace LineLisp

inductive Expr where
  | int (span : Span) (value : Int64)
  | symbol (span : Span) (name : Bytes)
  | form (span : Span) (elems : List Expr)
  | absent
  deriving Inhabited

namespace Expr

def span : Expr → Span
  | .int span _ | .symbol span _ | .form span _ => span
  | .absent => .zero

def isAtom : Expr → Bool
  | .int _ _ | .symbol _ _ | .absent => true
  | .form _ _ => false

/-- The name at the front of a form, when it starts with a symbol. -/
def head? : Expr → Option Bytes
  | .form _ (.symbol _ name :: _) => some name
  | _ => none

/-- What follows the first element of a form. -/
def args : Expr → List Expr
  | .form _ elems => elems.tail
  | _ => []

mutual

/-- Writes an expression back to front onto what was written before. -/
def push (written : Bytes) : Expr → Bytes
  | .int _ value => (Decimal.ofInt64 value).reverseAux written
  | .symbol _ name => name.reverseAux written
  | .absent => (utf8 "absent").reverseAux written
  | .form _ [] => 0x29 :: 0x28 :: written
  | .form _ (e :: es) => 0x29 :: pushRest (push (0x28 :: written) e) es

def pushRest (written : Bytes) : List Expr → Bytes
  | [] => written
  | e :: es => pushRest (push (0x20 :: written) e) es

end

/-- The expression as source text, elements divided by one space. -/
def text (e : Expr) : Bytes :=
  (push [] e).reverse

mutual

/-- Whether no part of an expression is absent. -/
def isWhole : Expr → Bool
  | .int _ _ | .symbol _ _ => true
  | .form _ elems => areWhole elems
  | .absent => false

def areWhole : List Expr → Bool
  | [] => true
  | e :: es => isWhole e && areWhole es

end

/-- What is shown for a text that cannot be written since a part of it is absent. -/
def unwritable : Bytes :=
  utf8 "%!s(PANIC=String method: runtime error: invalid memory address or nil pointer dereference)"

/-- An expression as messages show it. -/
def shown (e : Expr) : Bytes :=
  if e.isWhole then e.text else unwritable

mutual

/-- Equality of structure, whatever the places. Nothing equals an absent expression. -/
def same : Expr → Expr → Bool
  | .int _ a, .int _ b => a == b
  | .symbol _ a, .symbol _ b => a == b
  | .form _ as, .form _ bs => sameAll as bs
  | _, _ => false

def sameAll : List Expr → List Expr → Bool
  | [], [] => true
  | a :: as, b :: bs => same a b && sameAll as bs
  | _, _ => false

end

mutual

/-- How deeply an expression is nested; an atom and an empty form have height one. -/
def height : Expr → Nat
  | .int _ _ | .symbol _ _ | .absent => 1
  | .form _ elems => heightAll elems + 1

def heightAll : List Expr → Nat
  | [] => 0
  | e :: es => max (height e) (heightAll es)

end

end Expr

end LineLisp
