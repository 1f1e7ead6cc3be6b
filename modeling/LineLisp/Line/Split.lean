import LineLisp.Text.Bytes

/-!
Cutting text into lines. A file that is run is cut at line feeds as it is read, with a bound on
the length of a line; a file that is only listed is cut as a whole. On lines below the bound
the two differ only in trailing blank lines and carriage returns, which hold no tokens.
-/

namespace LineLisp.Line

/-- Cuts at every line feed: the finished lines, and what follows the last line feed. `line`
holds the bytes of the line so far and `done` the lines before it, both latest first. -/
def cutFrom (line : Bytes) (done : List Bytes) : Bytes → List Bytes × Bytes
  | [] => (done.reverse, line.reverse)
  | b :: rest =>
      if b = 0x0A then cutFrom [] (line.reverse :: done) rest
      else cutFrom (b :: line) done rest

def cut (text : Bytes) : List Bytes × Bytes :=
  cutFrom [] [] text

/-- Drops one carriage return at the end. -/
def dropReturn (line : Bytes) : Bytes :=
  if line.getLast? = some 0x0D then line.dropLast else line

/-- The length from which on a line is too long to be read. -/
def tooLong : Nat := 1048576

/-- What reading a text line by line gives: the lines that could be read, and why reading
stopped if it did so before the end. -/
structure Reading where
  lines : List Bytes
  stopped : Option Bytes

/-- Reads a text line by line. A line that is too long stops the reading. When the source
breaks off with the message `broken`, what it gave before is still read, an unfinished last
line included. -/
def read (text : Bytes) (broken : Option Bytes) : Reading :=
  let (finished, rest) := cut text
  let lines := if rest.isEmpty then finished else finished ++ [rest]
  let fitting := lines.takeWhile (·.length < tooLong)
  { lines := fitting.map dropReturn
    stopped :=
      if fitting.length < lines.length then some (utf8 "bufio.Scanner: token too long")
      else broken }

/-- Turns each pair of carriage return and line feed into a line feed; `done` holds the bytes
before, latest first. -/
def unifyFrom (done : Bytes) : Bytes → Bytes
  | [] => done.reverse
  | 0x0D :: 0x0A :: rest => unifyFrom (0x0A :: done) rest
  | b :: rest => unifyFrom (b :: done) rest

/-- The lines of a whole text, without an empty one after a final line feed. -/
def whole (text : Bytes) : List Bytes :=
  let unified := unifyFrom [] text
  let text := if unified.getLast? = some 0x0A then unified.dropLast else unified
  if text.isEmpty then []
  else
    let (finished, rest) := cut text
    finished ++ [rest]

end LineLisp.Line
