import LineLisp.Repl

/-!
Typed input as events. Input is read character by character, so a stray byte arrives as the
replacement character. A carriage return and a line feed both end the line; a few other controls
are keys as well, and whatever they act on is at the end of the line.
-/

namespace LineLisp.Repl

structure Typing where
  /-- The line so far, latest first. -/
  line : List Utf8.Piece
  /-- What has been done so far, latest first. -/
  events : List Event

namespace Typing

def empty : Typing :=
  ⟨[], []⟩

def emit (t : Typing) (event : Event) : Typing :=
  { t with events := event :: t.events }

/-- Ends the line. -/
def enter (t : Typing) : Typing where
  line := []
  events := .line (t.line.reverse.flatMap Utf8.Piece.repaired) :: t.events

/-- Gives up the line. -/
def interrupt (t : Typing) : Typing :=
  ⟨[], .interrupt :: t.events⟩

/-- Takes back the last character. -/
def erase (t : Typing) : Typing :=
  match t.line with
  | [] => t.emit .bell
  | _ :: line => { t with line := line }

/-- Acts on one key. The end of the input can only be typed on an empty line. -/
def key (t : Typing) (piece : Utf8.Piece) : Typing :=
  match piece with
  | .char 0x0A _ | .char 0x0D _ => t.enter
  | .char 0x00 _ => if t.line.isEmpty then t.emit .eof else t.enter
  | .char 0x03 _ => t.interrupt
  | .char 0x04 _ => t.emit (if t.line.isEmpty then .eof else .bell)
  | .char 0x08 _ | .char 0x7F _ => t.erase
  | .char 0x09 _ => t.emit .bell
  | _ => { t with line := piece :: t.line }

/-- What typing a text amounts to. A line that is not ended by a key is ended with the text. -/
def ofText (text : Bytes) : List Event :=
  let t := (Utf8.pieces text).foldl key empty
  (if t.line.isEmpty then t else t.enter).events.reverse

end Typing

end LineLisp.Repl
