import LineLisp.Text.Bytes

/-!
Decimal integers. Writing gives an optional minus sign and digits without leading zeros.
Reading accepts one optional sign and at least one digit, and only values of 64 signed bits.
-/

namespace LineLisp.Decimal

def isDigit (b : UInt8) : Bool :=
  0x30 ≤ b && b ≤ 0x39

def ofNat (n : Nat) : Bytes :=
  (Nat.toDigits 10 n).map fun c => c.toNat.toUInt8

def ofInt : Int → Bytes
  | .ofNat n => ofNat n
  | .negSucc n => 0x2D :: ofNat (n + 1)

/-- Splits off one leading sign; `true` stands for minus. -/
def splitSign : Bytes → Bool × Bytes
  | 0x2D :: rest => (true, rest)
  | 0x2B :: rest => (false, rest)
  | text => (false, text)

/-- Whether a number has 64 signed bits. -/
def fits (n : Int) : Bool :=
  -0x8000000000000000 ≤ n && n < 0x8000000000000000

/-- The value of the digits of `n` and the given ones after them, most significant first, up to
2^63. Further digits never make a number smaller, so reading stops where it grows beyond. -/
def magnitude? (n : Nat) : Bytes → Option Nat
  | [] => some n
  | d :: rest =>
      let next := 10 * n + (d - 0x30).toNat
      if isDigit d && next ≤ 0x8000000000000000 then magnitude? next rest else none

/-- The integer written by `text` when it has 64 signed bits. -/
def toInt64? (text : Bytes) : Option Int64 :=
  match splitSign text with
  | (_, []) => none
  | (negative, digits) => do
      let magnitude ← magnitude? 0 digits
      let n : Int := if negative then -magnitude else magnitude
      if fits n then some (Int64.ofInt n) else none

def ofInt64 (n : Int64) : Bytes :=
  ofInt n.toInt

end LineLisp.Decimal
