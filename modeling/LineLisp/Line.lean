import LineLisp.Text.LetterCase
import LineLisp.Token.Scan

/-!
What a line of input is, before it is read: blank, a request to leave or to list the bindings,
or source with more or fewer parentheses opened than closed.
-/

namespace LineLisp.Line

/-- Whether a line holds no tokens. -/
def isBlank (line : Bytes) : Bool :=
  (Token.body (Scan.tokens 1 line)).isEmpty

/-- The words that end a session, in any letter case. -/
def exitWords : List Bytes :=
  [utf8 "exit", utf8 "quit", utf8 "salir"]

def isExit (line : Bytes) : Bool :=
  exitWords.contains (LetterCase.lower (Blank.trim line))

/-- Whether a line asks for the bindings of the session. -/
def isListing (line : Bytes) : Bool :=
  Blank.trim line == utf8 ":env"

/-- How many parentheses a line opens beyond those that it closes. -/
def balance (line : Bytes) : Int :=
  Token.parenBalance (Scan.tokens 1 line)

end LineLisp.Line
