import LineLisp.Text.Utf8
import LineLisp.Text.Printable

/-!
Text in double quotes with everything that is not printable escaped, so that a quoted text is
always one line of printable characters. Stray bytes become `\xff`, characters `\u200b` or
`\U000e0001` in lower-case hexadecimal.
-/

namespace LineLisp.Quoted

def hexDigit (n : Nat) : UInt8 :=
  if n < 10 then (0x30 + n).toUInt8 else (0x57 + n).toUInt8

/-- The last `width` hexadecimal digits of `n`, most significant first. -/
def hex : (width : Nat) → (n : Nat) → Bytes
  | 0, _ => []
  | width + 1, n => hex width (n / 16) ++ [hexDigit (n % 16)]

/-- The control characters that have an escape letter of their own. -/
def letter? : Nat → Option UInt8
  | 0x07 => some 0x61
  | 0x08 => some 0x62
  | 0x09 => some 0x74
  | 0x0A => some 0x6E
  | 0x0B => some 0x76
  | 0x0C => some 0x66
  | 0x0D => some 0x72
  | _ => none

/-- A piece inside quotes; `mark` is the point of the quote, which is escaped too. -/
def piece (mark : Nat) : Utf8.Piece → Bytes
  | .stray byte => utf8 "\\x" ++ hex 2 byte.toNat
  | .char point encoding =>
      if point = mark ∨ point = 0x5C then 0x5C :: encoding
      else if Printable.isPrintable point then encoding
      else
        match letter? point with
        | some c => [0x5C, c]
        | none =>
            if point < 0x80 then utf8 "\\x" ++ hex 2 point
            else if point < 0x10000 then utf8 "\\u" ++ hex 4 point
            else utf8 "\\U" ++ hex 8 point

def quote (text : Bytes) : Bytes :=
  0x22 :: (Utf8.pieces text).flatMap (piece 0x22) ++ [0x22]

/-- The character whose code point is a byte, in single quotes. -/
def quoteByte (b : UInt8) : Bytes :=
  0x27 :: piece 0x27 (.char b.toNat (Utf8.encode b.toNat)) ++ [0x27]

end LineLisp.Quoted
