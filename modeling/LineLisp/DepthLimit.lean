/-!
Limits on nesting. Reading and evaluation count their depth against one.
-/

namespace LineLisp

/-- The greatest depth allowed, or none for no limit. -/
abbrev DepthLimit := Option Nat

namespace DepthLimit

def standard : DepthLimit := some 10000

/-- Zero and below turn the limit off. -/
def ofInt (n : Int) : DepthLimit :=
  if 0 < n then some n.toNat else none

/-- The limit that a depth goes beyond, if it does. -/
@[inline]
def crossed (limit : DepthLimit) (depth : Nat) : Option Nat :=
  match limit with
  | some n => if n < depth then some n else none
  | none => none

end DepthLimit

end LineLisp
