import LineLisp.Text.Bytes

/-!
White space at the ends of a line: the characters with the Unicode property White_Space. Stray
bytes are never white space.
-/

namespace LineLisp.Blank

/-- The encodings of the white space characters outside ASCII: U+0085, U+00A0, U+1680, U+2000
to U+200A, U+2028, U+2029, U+202F, U+205F and U+3000. -/
def wide : List Bytes :=
  [[0xC2, 0x85], [0xC2, 0xA0], [0xE1, 0x9A, 0x80],
   [0xE2, 0x80, 0x80], [0xE2, 0x80, 0x81], [0xE2, 0x80, 0x82], [0xE2, 0x80, 0x83],
   [0xE2, 0x80, 0x84], [0xE2, 0x80, 0x85], [0xE2, 0x80, 0x86], [0xE2, 0x80, 0x87],
   [0xE2, 0x80, 0x88], [0xE2, 0x80, 0x89], [0xE2, 0x80, 0x8A],
   [0xE2, 0x80, 0xA8], [0xE2, 0x80, 0xA9], [0xE2, 0x80, 0xAF],
   [0xE2, 0x81, 0x9F], [0xE3, 0x80, 0x80]]

/-- Space, tab, line feed, vertical tab, form feed and carriage return. -/
def isSpace (b : UInt8) : Bool :=
  b == 0x20 || (0x09 ≤ b && b ≤ 0x0D)

/-- How many bytes of white space stand at the start of a text when only the given wide
characters count; zero when it starts with anything else. -/
def leading (encodings : List Bytes) : Bytes → Nat
  | [] => 0
  | text@(b :: _) =>
      if isSpace b then 1
      else if b < 0x80 then 0
      else
        match encodings.find? (·.isPrefixOf text) with
        | some encoding => encoding.length
        | none => 0

/-- Drops white space from the start; `skip` bytes still belong to a wide character. -/
def dropFrom (encodings : List Bytes) (skip : Nat) : Bytes → Bytes
  | [] => []
  | b :: rest =>
      match skip with
      | skip + 1 => dropFrom encodings skip rest
      | 0 =>
          match leading encodings (b :: rest) with
          | 0 => b :: rest
          | n + 1 => dropFrom encodings n rest

def trimStart (text : Bytes) : Bytes :=
  dropFrom wide 0 text

/-- No encoding contains a shorter one as an ending, so reading the reversed encodings from the
end finds the same characters as reading forwards. -/
def trimEnd (text : Bytes) : Bytes :=
  (dropFrom (wide.map List.reverse) 0 text.reverse).reverse

/-- The text without white space at its ends. -/
def trim (text : Bytes) : Bytes :=
  trimEnd (trimStart text)

end LineLisp.Blank
