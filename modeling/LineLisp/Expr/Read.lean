import LineLisp.DepthLimit
import LineLisp.Diagnostic
import LineLisp.Expr

/-!
Reading tokens as expressions. The reader takes one token at a time and keeps the forms and
quote marks that are still open, innermost first; nothing is reread. A quote mark before an
expression stands for the form of the symbol `quote` and that expression.
-/

namespace LineLisp.Read

/-- Why tokens are no expression. -/
inductive Fault where
  /-- The tokens end too early; `opened` is where the innermost open form starts, unless a
  quote mark or nothing at all waits for an expression. -/
  | incomplete (opened : Option Position)
  | strayClose
  | trailing (lexeme : Bytes)
  | tooDeep (limit : Nat)
  deriving DecidableEq

namespace Fault

def kind : Fault → Diagnostic.Kind
  | .tooDeep _ => .stackLimitExceeded
  | _ => .syntaxError

def message : Fault → Bytes
  | .incomplete _ => utf8 "incomplete expression"
  | .strayClose => utf8 "parenthesis in wrong position"
  | .trailing lexeme => utf8 "unexpected trailing input " ++ Quoted.quote lexeme
  | .tooDeep limit =>
      utf8 "expression nesting exceeds " ++ Decimal.ofNat limit ++ utf8 " levels"

def hint : Fault → Bytes
  | .incomplete (some opened) => utf8 "missing ')' for '(' at " ++ opened.text
  | .strayClose => utf8 "remove the unmatched ')'"
  | _ => []

def diagnostic (fault : Fault) (span : Span) : Diagnostic :=
  ⟨fault.kind, fault.message, span, fault.hint, []⟩

end Fault

/-- Something that waits for more tokens. -/
inductive Opening where
  /-- A form with the elements so far, latest first. -/
  | form (opened : Span) (elems : List Expr)
  | quote (mark : Span)

structure State where
  /-- What is still open, innermost first. -/
  pending : List Opening
  /-- The finished expressions, latest first. -/
  done : List Expr
  /-- How many things are open, kept so that they need not be counted for each token. -/
  depth : Nat
  depth_eq : depth = pending.length

namespace State

def empty : State :=
  ⟨[], [], 0, rfl⟩

/-- Whether everything begun is finished, and something has been. -/
def isComplete (s : State) : Bool :=
  s.pending.isEmpty && !s.done.isEmpty

end State

/-- A token that is neither a parenthesis nor a quote mark: an integer when its text is one of
64 bits, and a symbol otherwise. -/
def atom (t : Token) : Expr :=
  match Decimal.toInt64? t.lexeme with
  | some value => .int t.span value
  | none => .symbol t.span t.lexeme

/-- What a quote mark makes of the expression after it. -/
def quoted (mark : Span) (e : Expr) : Expr :=
  .form (mark.cover e.span) [.symbol mark Token.quoteName, e]

/-- Hands a finished expression to whatever waits for it. -/
def put (done : List Expr) (e : Expr) :
    (pending : List Opening) → (depth : Nat) → depth = pending.length → State
  | [], _, _ => ⟨[], e :: done, 0, rfl⟩
  | .quote mark :: outer, depth, h =>
      put done (quoted mark e) outer (depth - 1) (by simp [h])
  | .form opened elems :: outer, depth, h =>
      ⟨.form opened (e :: elems) :: outer, done, depth, h⟩

/-- Opens something inside what is open already. -/
def State.begin (s : State) (opening : Opening) : State where
  pending := opening :: s.pending
  done := s.done
  depth := s.depth + 1
  depth_eq := by simp [s.depth_eq]

/-- Begins or adds an expression. Its depth is one more than the number of things it stands
in. -/
def enter (limit : DepthLimit) (s : State) (t : Token) : Except Diagnostic State :=
  match limit.crossed (s.depth + 1) with
  | some n => .error (Fault.tooDeep n |>.diagnostic t.span)
  | none =>
      match t.kind with
      | .lparen => .ok (s.begin (.form t.span []))
      | .quote => .ok (s.begin (.quote t.span))
      | .rparen => .error (Fault.strayClose.diagnostic t.span)
      | _ => .ok (put s.done (atom t) s.pending s.depth s.depth_eq)

/-- Takes one token. A closing parenthesis ends the innermost open form; any other token has
to begin an expression. -/
def step (limit : DepthLimit) (s : State) (t : Token) : Except Diagnostic State :=
  match t.kind, h : s.pending with
  | .rparen, .form opened elems :: outer =>
      .ok (put s.done (.form (opened.cover t.span) elems.reverse) outer (s.depth - 1)
        (by simp [s.depth_eq, h]))
  | _, _ => enter limit s t

/-- Takes one token when a single expression is wanted. -/
def stepOne (limit : DepthLimit) (s : State) (t : Token) : Except Diagnostic State :=
  if s.isComplete then .error (Fault.trailing t.lexeme |>.diagnostic t.span)
  else step limit s t

/-- Where the tokens end: at the first end of line, or just after the last token. -/
def endSpan (tokens : List Token) : Span :=
  match tokens.find? Token.isEof with
  | some eof => eof.span
  | none =>
      match tokens.getLast? with
      | some last => last.span.after
      | none => .zero

/-- The finished expressions in order, when nothing is left open. -/
def finish (stop : Span) (s : State) : Except Diagnostic (List Expr) :=
  match s.pending with
  | [] => .ok s.done.reverse
  | .form opened _ :: _ => .error (Fault.incomplete opened.start |>.diagnostic stop)
  | .quote _ :: _ => .error (Fault.incomplete none |>.diagnostic stop)

/-- Reads all expressions up to the end of the tokens. -/
def all (limit : DepthLimit) (tokens : List Token) : Except Diagnostic (List Expr) := do
  let s ← (Token.body tokens).foldlM (step limit) .empty
  finish (endSpan tokens) s

/-- Reads exactly one expression. -/
def one (limit : DepthLimit) (tokens : List Token) : Except Diagnostic Expr := do
  let s ← (Token.body tokens).foldlM (stepOne limit) .empty
  match ← finish (endSpan tokens) s with
  | e :: _ => .ok e
  | [] => .error (Fault.incomplete none |>.diagnostic (endSpan tokens))

end LineLisp.Read
