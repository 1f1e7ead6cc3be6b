import LineLisp.Text.LetterCase

/-!
Suggestions for a mistyped command name: names that it is the beginning of, and names at most
two edits away.
-/

namespace LineLisp.Suggestion

/-- One row of the table of edit distances, from the row before: entry `j` is the distance to
the first `j` bytes of the target. `left` is the entry before and `diagonal` the one above it. -/
def row (b : UInt8) (left diagonal : Nat) : Bytes → List Nat → List Nat
  | c :: target, above :: rest =>
      let entry := if b = c then diagonal else min (min above left) diagonal + 1
      entry :: row b entry above target rest
  | _, _ => []

def nextRow (target : Bytes) (above : List Nat) (b : UInt8) : List Nat :=
  match above with
  | [] => []
  | first :: rest => (first + 1) :: row b (first + 1) first target rest

/-- How many bytes have to be inserted, deleted or replaced to get from one text to another. -/
def distance (source target : Bytes) : Nat :=
  (source.foldl (nextRow target) (List.range (target.length + 1))).getLastD 0

def isClose (typed name : Bytes) : Bool :=
  let typed := LetterCase.lower typed
  distance typed name ≤ 2 || typed.isPrefixOf name

/-- The lines to put after a complaint about `typed`. -/
def text (names : List Bytes) (typed : Bytes) : Bytes :=
  match names.filter (isClose typed) with
  | [] => []
  | close =>
      utf8 "\n\nDid you mean this?\n"
        ++ close.flatMap (fun name => utf8 "\t" ++ name ++ utf8 "\n")

end LineLisp.Suggestion
