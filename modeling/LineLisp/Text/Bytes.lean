/-!
Text as bytes. A source line may hold any bytes, valid UTF-8 or not, and every position in it
counts bytes, so names, lexemes, messages and output are all lists of bytes.
-/

namespace LineLisp

abbrev Bytes := List UInt8

/-- The bytes of a string in UTF-8. -/
def utf8 (s : String) : Bytes :=
  s.toUTF8.data.toList

namespace Bytes

/-- The parts in order with `sep` between neighbours. -/
def join (sep : Bytes) (parts : List Bytes) : Bytes :=
  sep.intercalate parts

/-- Fills up on the right with spaces; `used` is the width the text already takes. -/
def padTo (width used : Nat) (text : Bytes) : Bytes :=
  text ++ List.replicate (width - used) 0x20

/-- The part before the first byte equal to `stop`, or everything when there is none. -/
def before (stop : UInt8) (text : Bytes) : Bytes :=
  text.takeWhile (· != stop)

/-- The parts that the bytes equal to `sep` divide a text into; always at least one. -/
def split (sep : UInt8) (text : Bytes) : List Bytes :=
  text.foldr
    (fun b parts =>
      if b = sep then [] :: parts
      else
        match parts with
        | [] => [[b]]
        | part :: rest => (b :: part) :: rest)
    [[]]

end Bytes

end LineLisp
