import LineLisp.Token
import LineLisp.Text.Blank

/-!
Scanning a line into tokens, one byte at a time. The scanner is a left fold over the bytes, so
scanning two texts one after the other is scanning the second from where the first left off.

A plus or minus belongs to the number after it when a digit follows directly and it stands at
the start of the line or after white space, an opening parenthesis or a quote mark; everywhere
else it is an operator, so that `1-2` is three tokens.
-/

namespace LineLisp.Scan

def isOperator (b : UInt8) : Bool :=
  b == 0x2B || b == 0x2D || b == 0x2A || b == 0x2F

def isSign (b : UInt8) : Bool :=
  b == 0x2B || b == 0x2D

/-- The bytes that end a word. -/
def isDelimiter (b : UInt8) : Bool :=
  Blank.isSpace b || b == 0x28 || b == 0x29 || b == 0x27 || b == 0x3B || isOperator b

/-- What the scanner is in the middle of. -/
inductive Mode where
  /-- Between tokens; `fresh` when a sign here may begin a number. -/
  | gap (fresh : Bool)
  /-- Just after a fresh sign, which begins a number only if a digit comes next. -/
  | sign (start : Nat) (byte : UInt8)
  /-- Inside a word, whose bytes so far are held in reverse. -/
  | word (start : Nat) (bytes : Bytes)
  /-- Inside a comment, which runs to the end of the line. -/
  | comment
  deriving DecidableEq

structure State where
  line : Int
  /-- The offset of the next byte. -/
  offset : Nat
  mode : Mode
  /-- The tokens so far, latest first. -/
  found : List Token
  deriving DecidableEq

namespace State

/-- Records a token that starts at `start` and ends just before the next byte. -/
def emit (s : State) (kind : Token.Kind) (start : Nat) (lexeme : Bytes) : State :=
  { s with found := ⟨kind, lexeme, .of s.line start s.offset⟩ :: s.found }

/-- Ends the token in progress, if there is one. -/
def flush (s : State) : State :=
  match s.mode with
  | .sign start byte => { s.emit .operator start [byte] with mode := .gap false }
  | .word start bytes => { s.emit .word start bytes.reverse with mode := .gap false }
  | .gap _ | .comment => s

/-- Moves past one byte and goes on in `mode`. -/
def skip (s : State) (mode : Mode) : State :=
  { s with offset := s.offset + 1, mode := mode }

/-- Reads a byte that is a token by itself. -/
def single (s : State) (kind : Token.Kind) (lexeme : Bytes) (fresh : Bool) : State :=
  (s.skip (.gap fresh)).emit kind s.offset lexeme

/-- Reads a byte between tokens. -/
def start (s : State) (fresh : Bool) (b : UInt8) : State :=
  if Blank.isSpace b then s.skip (.gap true)
  else if b = 0x3B then s.skip .comment
  else if b = 0x28 then s.single .lparen [b] true
  else if b = 0x29 then s.single .rparen [b] false
  else if b = 0x27 then s.single .quote Token.quoteName true
  else if fresh && isSign b then s.skip (.sign s.offset b)
  else if isOperator b then s.single .operator [b] false
  else s.skip (.word s.offset [b])

def step (s : State) (b : UInt8) : State :=
  match s.mode with
  | .comment => s.skip .comment
  | .gap fresh => s.start fresh b
  | .word start bytes =>
      if isDelimiter b then s.flush.start false b else s.skip (.word start (b :: bytes))
  | .sign start byte =>
      if Decimal.isDigit b then s.skip (.word start [b, byte])
      else s.flush.start false b

/-- Ends the line: the tokens in order, closed by an empty one at its end. -/
def finish (s : State) : List Token :=
  let s := s.flush
  (s.emit .eof s.offset []).found.reverse

end State

def initial (line : Int) (offset : Nat) (mode : Mode) : State :=
  ⟨line, offset, mode, []⟩

/-- The tokens of a line, the end of the line included. -/
def tokens (line : Int) (source : Bytes) : List Token :=
  (source.foldl State.step (initial line 0 (.gap true))).finish

/-- What follows the first word of the line, a word here being a run of anything but white
space. -/
def dropWord (source : Bytes) : Bytes :=
  (source.dropWhile Blank.isSpace).dropWhile fun b => !Blank.isSpace b

/-- The tokens of a line without its first word; places still count from its start. -/
def tokensAfterWord (line : Int) (source : Bytes) : List Token :=
  let rest := dropWord source
  (rest.foldl State.step (initial line (source.length - rest.length) (.gap false))).finish

end LineLisp.Scan
