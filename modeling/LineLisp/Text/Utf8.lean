import LineLisp.Text.Bytes

/-!
Reading bytes as UTF-8 without ever failing: text is cut into encoded characters and stray
bytes. A byte is stray when no well-formed character starts there, and only that one byte is
given up.
-/

namespace LineLisp.Utf8

inductive Piece where
  | char (point : Nat) (encoding : Bytes)
  | stray (byte : UInt8)

def Piece.bytes : Piece → Bytes
  | .char _ encoding => encoding
  | .stray byte => [byte]

def isTail (b : UInt8) : Bool :=
  0x80 ≤ b && b ≤ 0xBF

/-- The range that a second byte must lie in after the first byte of a longer character. It
rules out overlong forms, surrogates and points above `10FFFF`. -/
def secondRange (first : UInt8) : UInt8 × UInt8 :=
  if first = 0xE0 then (0xA0, 0xBF)
  else if first = 0xED then (0x80, 0x9F)
  else if first = 0xF0 then (0x90, 0xBF)
  else if first = 0xF4 then (0x80, 0x8F)
  else (0x80, 0xBF)

def isSecond (first b : UInt8) : Bool :=
  (secondRange first).1 ≤ b && b ≤ (secondRange first).2

/-- The low bits that a tail byte adds to a code point. -/
def tailBits (b : UInt8) : Nat :=
  b.toNat % 64

/-- The character or stray byte at the start of `b :: rest`. -/
def first (b : UInt8) (rest : Bytes) : Piece :=
  if b < 0x80 then .char b.toNat [b]
  else if 0xC2 ≤ b && b ≤ 0xDF then
    match rest with
    | c :: _ =>
        if isTail c then .char (b.toNat % 32 * 64 + tailBits c) [b, c] else .stray b
    | _ => .stray b
  else if 0xE0 ≤ b && b ≤ 0xEF then
    match rest with
    | c :: d :: _ =>
        if isSecond b c && isTail d then
          .char ((b.toNat % 16 * 64 + tailBits c) * 64 + tailBits d) [b, c, d]
        else .stray b
    | _ => .stray b
  else if 0xF0 ≤ b && b ≤ 0xF4 then
    match rest with
    | c :: d :: e :: _ =>
        if isSecond b c && isTail d && isTail e then
          .char (((b.toNat % 8 * 64 + tailBits c) * 64 + tailBits d) * 64 + tailBits e)
            [b, c, d, e]
        else .stray b
    | _ => .stray b
  else .stray b

/-- Cuts text into pieces; `skip` bytes still belong to the piece before. -/
def cut (skip : Nat) (done : List Piece) : Bytes → List Piece
  | [] => done.reverse
  | b :: rest =>
      match skip with
      | skip + 1 => cut skip done rest
      | 0 =>
          let piece := first b rest
          cut (piece.bytes.length - 1) (piece :: done) rest

/-- The characters and stray bytes of a text in order. -/
def pieces (text : Bytes) : List Piece :=
  cut 0 [] text

/-- The encoding of a code point. -/
def encode (point : Nat) : Bytes :=
  if point < 0x80 then [point.toUInt8]
  else if point < 0x800 then [(0xC0 + point / 0x40).toUInt8, (0x80 + point % 0x40).toUInt8]
  else if point < 0x10000 then
    [(0xE0 + point / 0x1000).toUInt8, (0x80 + point / 0x40 % 0x40).toUInt8,
      (0x80 + point % 0x40).toUInt8]
  else
    [(0xF0 + point / 0x40000).toUInt8, (0x80 + point / 0x1000 % 0x40).toUInt8,
      (0x80 + point / 0x40 % 0x40).toUInt8, (0x80 + point % 0x40).toUInt8]

/-- The character U+FFFD, which stands for what is no character. -/
def replacement : Bytes :=
  [0xEF, 0xBF, 0xBD]

/-- A piece as a character: a stray byte becomes the replacement character. -/
def Piece.repaired : Piece → Bytes
  | .char _ encoding => encoding
  | .stray _ => replacement

/-- How many columns a text takes: each character and each stray byte is one. -/
def width (text : Bytes) : Nat :=
  (pieces text).length

end LineLisp.Utf8
