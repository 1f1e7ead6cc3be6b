import LineLisp.Line

/-!
Gathering input lines until their parentheses balance. Lines are held as long as more
parentheses are open than closed; a surplus closing one completes the input too, so that it can
be reported.
-/

namespace LineLisp

structure Gathering where
  /-- The lines held, latest first. -/
  held : List Bytes
  /-- How many parentheses they leave open. -/
  depth : Int
  deriving DecidableEq

namespace Gathering

def empty : Gathering :=
  ⟨[], 0⟩

/-- Whether a form is still open. -/
def isOpen (g : Gathering) : Bool :=
  decide (0 < g.depth)

/-- The lines as one source line. Several lines lose their comments, since a comment would
swallow the lines joined after it. -/
def source : List Bytes → Bytes
  | [line] => line
  | lines => Bytes.join (utf8 " ") (lines.map (Bytes.before 0x3B))

/-- Adds a line; gives the gathered source when it is complete. -/
def add (g : Gathering) (line : Bytes) : Option Bytes × Gathering :=
  let held := line :: g.held
  let depth := g.depth + Line.balance line
  if 0 < depth then (none, ⟨held, depth⟩)
  else (some (source held.reverse), empty)

end Gathering

end LineLisp
