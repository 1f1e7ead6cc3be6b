import LineLisp.Json

/-!
Places in source text. A position counts bytes from the start of its line; a span is the range
from one position up to another.
-/

namespace LineLisp

structure Position where
  offset : Int
  line : Int
  column : Int
  deriving DecidableEq, Inhabited

/-- The position of a byte on a line; columns start at one. -/
def Position.onLine (line : Int) (offset : Nat) : Position where
  offset := offset
  line := line
  column := offset + 1

def Position.text (p : Position) : Bytes :=
  Decimal.ofInt p.line ++ utf8 ":" ++ Decimal.ofInt p.column

def Position.fields (p : Position) : List (String × Json) :=
  [("offset", .number p.offset), ("line", .number p.line), ("column", .number p.column)]

structure Span where
  start : Position
  stop : Position
  deriving DecidableEq, Inhabited

namespace Span

def zero : Span :=
  ⟨⟨0, 0, 0⟩, ⟨0, 0, 0⟩⟩

/-- The bytes from `first` up to `last` of one line. -/
def of (line : Int) (first last : Nat) : Span :=
  ⟨.onLine line first, .onLine line last⟩

/-- The empty span where `s` ends. -/
def after (s : Span) : Span :=
  ⟨s.stop, s.stop⟩

def text (s : Span) : Bytes :=
  s.start.text ++ utf8 ".." ++ s.stop.text

/-- The span as a record; `object` decides the order of fields. -/
def json (object : List (String × Json) → Json) (s : Span) : Json :=
  object [("start", object s.start.fields), ("end", object s.stop.fields)]

/-- The number of bytes in the span, as a signed number of 64 bits. -/
def size (s : Span) : Int :=
  (s.stop.offset - s.start.offset).bmod 0x10000000000000000

/-- The smallest span that covers both, compared by offsets. -/
def cover (a b : Span) : Span where
  start := if b.start.offset < a.start.offset then b.start else a.start
  stop := if a.stop.offset < b.stop.offset then b.stop else a.stop

end Span

end LineLisp
