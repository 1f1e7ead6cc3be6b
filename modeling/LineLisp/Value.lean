import LineLisp.Expr

/-!
Values. A list is data; `nil` is the empty result of an empty form or of a `cond` without a
matching clause, and differs from the empty list. `absent` is the lack of any value: a host may
bind a name to it, but no program can produce it.
-/

namespace LineLisp

inductive Value where
  | int (n : Int64)
  | bool (b : Bool)
  | symbol (name : Bytes)
  | list (elems : List Value)
  | nil
  | absent
  deriving Inhabited

namespace Value

def typeName : Value → Bytes
  | .int _ => utf8 "int"
  | .bool _ => utf8 "bool"
  | .symbol _ => utf8 "symbol"
  | .list _ => utf8 "list"
  | .nil => utf8 "nil"
  | .absent => utf8 "absent"

/-- Everything but `false`, `nil` and no value selects a `cond` clause. -/
def isTruthy : Value → Bool
  | .bool b => b
  | .nil | .absent => false
  | .int _ | .symbol _ | .list _ => true

def isAtom : Value → Bool
  | .list _ => false
  | _ => true

mutual

/-- Writes a value back to front onto what was written before. -/
def push (written : Bytes) : Value → Bytes
  | .int n => (Decimal.ofInt64 n).reverseAux written
  | .bool true => (utf8 "true").reverseAux written
  | .bool false => (utf8 "false").reverseAux written
  | .symbol name => name.reverseAux written
  | .nil => (utf8 "nil").reverseAux written
  | .absent => (utf8 "absent").reverseAux written
  | .list [] => 0x29 :: 0x28 :: written
  | .list (v :: vs) => 0x29 :: pushRest (push (0x28 :: written) v) vs

def pushRest (written : Bytes) : List Value → Bytes
  | [] => written
  | v :: vs => pushRest (push (0x20 :: written) v) vs

end

/-- A value written out. One with an absent part has no text of its own: it is shown by `shown`. -/
def text (v : Value) : Bytes :=
  (push [] v).reverse

mutual

/-- The value with the type of each leaf, lists in square brackets. -/
def pushTyped (written : Bytes) : Value → Bytes
  | .list [] => 0x5D :: 0x5B :: written
  | .list (v :: vs) => 0x5D :: pushTypedRest (pushTyped (0x5B :: written) v) vs
  | .absent => (utf8 "null").reverseAux written
  | v => v.text.reverseAux (0x3A :: v.typeName.reverseAux written)

def pushTypedRest (written : Bytes) : List Value → Bytes
  | [] => written
  | v :: vs => pushTypedRest (pushTyped (0x20 :: written) v) vs

end

def typedText (v : Value) : Bytes :=
  (pushTyped [] v).reverse

mutual

/-- Whether no part of a value is absent. -/
def isWhole : Value → Bool
  | .int _ | .bool _ | .symbol _ | .nil => true
  | .list elems => areWhole elems
  | .absent => false

def areWhole : List Value → Bool
  | [] => true
  | v :: vs => isWhole v && areWhole vs

end

/-- A value as reports and messages show it. -/
def shown : Value → Bytes
  | .absent => utf8 "%!s(<nil>)"
  | v => if v.isWhole then v.text else Expr.unwritable

mutual

/-- Equality of structure. Nothing equals the absent value. -/
def same : Value → Value → Bool
  | .int a, .int b => a == b
  | .bool a, .bool b => a == b
  | .symbol a, .symbol b => a == b
  | .list as, .list bs => sameAll as bs
  | .nil, .nil => true
  | _, _ => false

def sameAll : List Value → List Value → Bool
  | [], [] => true
  | a :: as, b :: bs => same a b && sameAll as bs
  | _, _ => false

end

mutual

/-- An expression taken as data; an absent one is `nil`. -/
def ofExpr : Expr → Value
  | .int _ n => .int n
  | .symbol _ name => .symbol name
  | .form _ elems => .list (ofExprs [] elems)
  | .absent => .nil

/-- A list of expressions as data, after the values of `done`, which are held latest first. -/
def ofExprs (done : List Value) : List Expr → List Value
  | [] => done.reverse
  | e :: es => ofExprs (ofExpr e :: done) es

end

end Value

end LineLisp
