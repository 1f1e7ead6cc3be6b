import LineLisp.Span
import LineLisp.Text.Quoted

/-!
The tokens of a source line. A word is an identifier or an integer; which of the two is decided
when the line is read as an expression.
-/

namespace LineLisp

inductive Token.Kind where
  | eof
  | lparen
  | rparen
  | quote
  | operator
  | word
  | other (number : Int)
  deriving DecidableEq

namespace Token.Kind

def ofNumber (n : Int) : Kind :=
  match n with
  | 0 => .eof
  | 1 => .lparen
  | 2 => .rparen
  | 3 => .quote
  | 4 => .operator
  | 5 => .word
  | n => .other n

def name : Kind → Bytes
  | .eof => utf8 "EOF"
  | .lparen => utf8 "("
  | .rparen => utf8 ")"
  | .quote => utf8 "QUOTE"
  | .operator => utf8 "OPERATOR"
  | .word => utf8 "WORD"
  | .other n => utf8 "Kind(" ++ Decimal.ofInt n ++ utf8 ")"

end Token.Kind

structure Token where
  kind : Token.Kind
  lexeme : Bytes
  span : Span
  deriving DecidableEq

namespace Token

/-- The symbol that the quote mark abbreviates. -/
def quoteName : Bytes :=
  utf8 "quote"

def isEof (t : Token) : Bool :=
  t.kind = .eof

def text (t : Token) : Bytes :=
  t.kind.name ++ utf8 " " ++ Quoted.quote t.lexeme ++ utf8 " " ++ t.span.start.text

/-- The tokens up to the end of the line. -/
def body (tokens : List Token) : List Token :=
  tokens.takeWhile fun t => !t.isEof

/-- The lexemes up to the end of the line. -/
def lexemes (tokens : List Token) : List Bytes :=
  (body tokens).map (·.lexeme)

/-- How many parentheses the tokens open beyond those that they close. -/
def parenBalance (tokens : List Token) : Int :=
  tokens.foldl (fun n t => n + weight t.kind) 0
where
  weight : Kind → Int
    | .lparen => 1
    | .rparen => -1
    | _ => 0

end Token

end LineLisp
