import LineLisp.Text.Decimal

/-!
The operators that the evaluator handles itself. Their names are reserved: no variable and no
function is looked up for them at the front of a form.
-/

namespace LineLisp

inductive Arithmetic where
  | add
  | sub
  | mul
  | div
  deriving DecidableEq

inductive Comparison where
  | less
  | greater
  | lessEq
  | greaterEq
  deriving DecidableEq

/-- Whether two numbers compare as asked. -/
def Comparison.holds : Comparison → Int64 → Int64 → Bool
  | .less, a, b => decide (a < b)
  | .greater, a, b => decide (b < a)
  | .lessEq, a, b => decide (a ≤ b)
  | .greaterEq, a, b => decide (b ≤ a)

inductive Operator where
  | arithmetic (op : Arithmetic)
  | comparison (op : Comparison)
  | setq
  | atom
  | list
  | equal
  | cond
  | quote
  | defun
  deriving DecidableEq

namespace Operator

def name : Operator → Bytes
  | .arithmetic .add => utf8 "+"
  | .arithmetic .sub => utf8 "-"
  | .arithmetic .mul => utf8 "*"
  | .arithmetic .div => utf8 "/"
  | .comparison .less => utf8 "<"
  | .comparison .greater => utf8 ">"
  | .comparison .lessEq => utf8 "<="
  | .comparison .greaterEq => utf8 ">="
  | .setq => utf8 "setq"
  | .atom => utf8 "atom"
  | .list => utf8 "list"
  | .equal => utf8 "equal"
  | .cond => utf8 "cond"
  | .quote => utf8 "quote"
  | .defun => utf8 "defun"

/-- All operators, each at the place of its number. -/
def all : List Operator :=
  [.arithmetic .add, .arithmetic .sub, .arithmetic .mul, .arithmetic .div,
   .comparison .less, .comparison .greater, .comparison .lessEq, .comparison .greaterEq,
   .setq, .atom, .list, .equal, .cond, .quote, .defun]

def ofName? (name : Bytes) : Option Operator :=
  all.find? fun op => op.name == name

def number (op : Operator) : Nat :=
  all.idxOf op

def ofNumber? (n : Int) : Option Operator :=
  if n < 0 then none else all[n.toNat]?

/-- The name of the operator with a number, also for numbers that no operator has. -/
def nameOfNumber (n : Int) : Bytes :=
  match ofNumber? n with
  | some op => op.name
  | none => utf8 "SpecialForm(" ++ Decimal.ofInt n ++ utf8 ")"

def isArithmetic : Operator → Bool
  | .arithmetic _ => true
  | _ => false

def isComparison : Operator → Bool
  | .comparison _ => true
  | _ => false

end Operator

end LineLisp
