import LineLisp.Text.Decimal

/-!
Traces of active calls, innermost first, made short for display: neighbours with the same name
become one entry with a count, and only the first twenty entries are kept.
-/

namespace LineLisp.Trace

/-- How many entries a shortened trace keeps. -/
def maxEntries : Nat := 20

/-- The maximal runs of equal neighbours with their lengths; `done` holds the runs before the
one of `n` times `name`, latest first. -/
def runsFrom (done : List (Bytes × Nat)) (name : Bytes) (n : Nat) :
    List Bytes → List (Bytes × Nat)
  | [] => ((name, n) :: done).reverse
  | next :: rest =>
      if next = name then runsFrom done name (n + 1) rest
      else runsFrom ((name, n) :: done) next 1 rest

def runs : List Bytes → List (Bytes × Nat)
  | [] => []
  | name :: rest => runsFrom [] name 1 rest

def entry : Bytes × Nat → Bytes
  | (name, 1) => name
  | (name, n) => name ++ utf8 " (x" ++ Decimal.ofNat n ++ utf8 ")"

/-- The entry that stands for `n` left out ones. -/
def more (n : Nat) : Bytes :=
  utf8 "... " ++ Decimal.ofNat n ++ utf8 " more"

def shorten (calls : List Bytes) : List Bytes :=
  let entries := (runs calls).map entry
  if maxEntries < entries.length then
    entries.take maxEntries ++ [more (entries.length - maxEntries)]
  else
    entries

end LineLisp.Trace
