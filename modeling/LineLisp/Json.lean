import LineLisp.Text.Decimal
import LineLisp.Text.Quoted

/-!
Writing JSON, either without any white space or with one item a line, indented by two spaces.
Text is kept safe for embedding in markup: `<`, `>`, `&`, U+2028 and U+2029 are escaped, and a
stray byte is written as the replacement character U+FFFD.
-/

namespace LineLisp

inductive Json where
  | null
  | number (n : Int)
  | text (s : Bytes)
  | list (items : List Json)
  | object (fields : List (String × Json))

namespace Json

/-- An object with its fields in the order of their names. -/
def sorted (fields : List (String × Json)) : Json :=
  .object (fields.mergeSort fun a b => decide (a.1 ≤ b.1))

/-- The control characters that have an escape letter of their own. -/
def letter? : Nat → Option UInt8
  | 0x08 => some 0x62
  | 0x09 => some 0x74
  | 0x0A => some 0x6E
  | 0x0C => some 0x66
  | 0x0D => some 0x72
  | _ => none

/-- The points that are written by number although they are no controls. -/
def isMarkup (point : Nat) : Bool :=
  point == 0x3C || point == 0x3E || point == 0x26 || point == 0x2028 || point == 0x2029

def escape : Utf8.Piece → Bytes
  | .stray _ => Utf8.replacement
  | .char point encoding =>
      if point = 0x22 ∨ point = 0x5C then 0x5C :: encoding
      else
        match letter? point with
        | some c => [0x5C, c]
        | none =>
            if point < 0x20 || isMarkup point then utf8 "\\u" ++ Quoted.hex 4 point
            else encoding

def quote (s : Bytes) : Bytes :=
  0x22 :: (Utf8.pieces s).flatMap escape ++ [0x22]

mutual

/-- How many lists and objects stand inside each other. -/
def depth : Json → Nat
  | .null | .number _ | .text _ => 0
  | .list items => depthOfItems 0 items + 1
  | .object fields => depthOfFields 0 fields + 1

/-- The greatest depth of the items, or `found` if that is greater. -/
def depthOfItems (found : Nat) : List Json → Nat
  | [] => found
  | item :: items => depthOfItems (max found (depth item)) items

def depthOfFields (found : Nat) : List (String × Json) → Nat
  | [] => found
  | (_, value) :: fields => depthOfFields (max found (depth value)) fields

end

/-- The greatest depth that is written. -/
def maxDepth : Nat := 10000

inductive Layout where
  | compact
  | indented
  deriving DecidableEq

/-- Text is written back to front onto what was written before. -/
def push (written text : Bytes) : Bytes :=
  text.reverseAux written

/-- Begins the line of an item at the given depth. -/
def breakLine (layout : Layout) (depth : Nat) (written : Bytes) : Bytes :=
  match layout with
  | .compact => written
  | .indented => List.replicate (2 * depth) 0x20 ++ (0x0A :: written)

def pushKey (layout : Layout) (key : String) (written : Bytes) : Bytes :=
  let written := 0x3A :: push written (quote (utf8 key))
  match layout with
  | .compact => written
  | .indented => 0x20 :: written

mutual

def pushValue (layout : Layout) (depth : Nat) (written : Bytes) : Json → Bytes
  | .null => push written (utf8 "null")
  | .number n => push written (Decimal.ofInt n)
  | .text s => push written (quote s)
  | .list [] => push written [0x5B, 0x5D]
  | .list (item :: items) =>
      let opened := breakLine layout (depth + 1) (0x5B :: written)
      let filled :=
        pushItems layout (depth + 1) (pushValue layout (depth + 1) opened item) items
      0x5D :: breakLine layout depth filled
  | .object [] => push written [0x7B, 0x7D]
  | .object ((key, value) :: fields) =>
      let opened := breakLine layout (depth + 1) (0x7B :: written)
      let filled :=
        pushFields layout (depth + 1)
          (pushValue layout (depth + 1) (pushKey layout key opened) value) fields
      0x7D :: breakLine layout depth filled

def pushItems (layout : Layout) (depth : Nat) (written : Bytes) : List Json → Bytes
  | [] => written
  | item :: items =>
      let next := breakLine layout depth (0x2C :: written)
      pushItems layout depth (pushValue layout depth next item) items

def pushFields (layout : Layout) (depth : Nat) (written : Bytes) :
    List (String × Json) → Bytes
  | [] => written
  | (key, value) :: fields =>
      let next := pushKey layout key (breakLine layout depth (0x2C :: written))
      pushFields layout depth (pushValue layout depth next value) fields

end

def render (layout : Layout) (json : Json) : Bytes :=
  (pushValue layout 0 [] json).reverse

end Json

end LineLisp
