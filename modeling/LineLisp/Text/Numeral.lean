import LineLisp.Text.Decimal

/-!
Integers as they are written on a command line: decimal, or with the base in front (`0x`, `0o`,
`0b`, or a plain `0` for octal), a sign before everything and underscores between digits.
-/

namespace LineLisp.Numeral

inductive Fault where
  | malformed
  | outOfRange
  deriving DecidableEq

def lower (b : UInt8) : UInt8 :=
  if 0x41 ≤ b && b ≤ 0x5A then b + 0x20 else b

/-- The value of a digit or letter, `a` being ten. -/
def digit? (b : UInt8) : Option Nat :=
  if Decimal.isDigit b then some (b - 0x30).toNat
  else if 0x61 ≤ lower b && lower b ≤ 0x7A then some (lower b - 0x57).toNat
  else none

/-- The base that a letter after a leading zero stands for. -/
def baseOfLetter? (b : UInt8) : Option Nat :=
  if lower b = 0x78 then some 16
  else if lower b = 0x6F then some 8
  else if lower b = 0x62 then some 2
  else none

/-- The base and the digits of an unsigned numeral. -/
def splitBase : Bytes → Nat × Bytes
  | 0x30 :: letter :: d :: rest =>
      match baseOfLetter? letter with
      | some base => (base, d :: rest)
      | none => (8, letter :: d :: rest)
  | 0x30 :: rest => (8, rest)
  | digits => (10, digits)

/-- The value of digits in a base, underscores left out. Digits are read from left to right
until the value leaves 64 bits. -/
def magnitude (base n : Nat) : Bytes → Except Fault Nat
  | [] => .ok n
  | b :: rest =>
      if b = 0x5F then magnitude base n rest
      else
        match digit? b with
        | none => .error .malformed
        | some d =>
            if base ≤ d then .error .malformed
            else if 0x10000000000000000 ≤ base * n + d then .error .outOfRange
            else magnitude base (base * n + d) rest

/-- What stood before, when underscores are checked. -/
inductive Before where
  | digit
  | underscore
  | other
  deriving DecidableEq

/-- Whether every underscore has a digit on both sides. -/
def underscoresFit (isDigit : UInt8 → Bool) : Before → Bytes → Bool
  | before, [] => before ≠ .underscore
  | before, b :: rest =>
      if isDigit b then underscoresFit isDigit .digit rest
      else if b = 0x5F then before == .digit && underscoresFit isDigit .underscore rest
      else before ≠ .underscore && underscoresFit isDigit .other rest

/-- Underscores in an unsigned numeral; a base in front counts as a digit. -/
def isWellSpaced : Bytes → Bool
  | 0x30 :: letter :: rest =>
      match baseOfLetter? letter with
      | some 16 => underscoresFit (fun b => (digit? b).any (· < 16)) .digit rest
      | some _ => underscoresFit Decimal.isDigit .digit rest
      | none => underscoresFit Decimal.isDigit .digit (letter :: rest)
  | text => underscoresFit Decimal.isDigit .other text

/-- Reads a numeral of 64 signed bits. -/
def read (text : Bytes) : Except Fault Int := do
  let (negative, unsigned) := Decimal.splitSign text
  if unsigned.isEmpty then throw .malformed
  let (base, digits) := splitBase unsigned
  let magnitude ← magnitude base 0 digits
  if unsigned.contains 0x5F && !isWellSpaced unsigned then throw .malformed
  let n : Int := if negative then -magnitude else magnitude
  if Decimal.fits n then return n else throw .outOfRange

end LineLisp.Numeral
