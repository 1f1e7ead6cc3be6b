import LineLisp.Eval
import LineLisp.Expr.Read
import LineLisp.Line
import LineLisp.Line.Split

/-!
Sessions. A session reads and evaluates one line after the other in one root frame and reports
each result. Reports are emissions on three channels in the order in which they arise; a reader
that does not want a channel leaves it out.
-/

namespace LineLisp

inductive Channel where
  | output
  | error
  | log
  deriving DecidableEq

structure Emission where
  channel : Channel
  text : Bytes

/-- The text of one channel, in order. -/
def Emission.textOn (channel : Channel) (emissions : List Emission) : Bytes :=
  (emissions.filter (·.channel = channel)).flatMap (·.text)

structure Session where
  options : Eval.Options
  scope : Scope
  /-- How many lines were numbered by the session itself. -/
  lineCount : Nat

namespace Session

open Eval (Result)

def new (options : Eval.Options) : Session :=
  ⟨options, .root .empty, 0⟩

/-- Evaluates an expression in the root frame. Effects before a failure are kept. -/
def evaluate (s : Session) (e : Expr) : Result × Session :=
  let (result, scope) := Eval.evaluate s.options e s.scope
  (result, { s with scope := scope })

/-- Reads and evaluates a line under the given number. -/
def answerAt (s : Session) (number : Nat) (line : Bytes) : Result × Session :=
  match Read.one s.options.limit (Scan.tokens number line) with
  | .ok e => s.evaluate e
  | .error d => (.failure d, s)

/-- The log record of an evaluated line. -/
def record (number : Nat) (line : Bytes) (result : Result) : Emission where
  channel := .log
  text :=
    utf8 "level=DEBUG msg=eval line=" ++ Decimal.ofNat number
      ++ utf8 " tokens=" ++ Decimal.ofNat (Token.body (Scan.tokens number line)).length
      ++ utf8 (if result.isValue then " ok=true\n" else " ok=false\n")

/-- The report of an evaluated line, a failing one together with its text. -/
def report (number : Nat) (line : Bytes) : Result → List Emission
  | .value v => [⟨.output, utf8 "=> " ++ v.shown ++ utf8 "\n"⟩]
  | .failure d =>
      [⟨.error, utf8 "error evaluating line " ++ Decimal.ofNat number ++ utf8 ": "
        ++ Blank.trim line ++ utf8 "\n  " ++ d.text ++ utf8 "\n"⟩]
  | .unfinished => []

/-- Evaluates the next line, also a blank one. -/
def answer (s : Session) (line : Bytes) : Result × List Emission × Session :=
  let number := s.lineCount + 1
  let (result, s) := { s with lineCount := number }.answerAt number line
  (result, [record number line result], s)

/-- Evaluates a line under the given number and reports it. -/
def processAt (s : Session) (number : Nat) (line : Bytes) : Bool × List Emission × Session :=
  let (result, s) := s.answerAt number line
  (result.isValue, record number line result :: report number line result, s)

/-- Runs the next line; a blank one counts for nothing and succeeds. -/
def process (s : Session) (line : Bytes) : Bool × List Emission × Session :=
  if Line.isBlank line then (true, [], s)
  else
    let number := s.lineCount + 1
    { s with lineCount := number }.processAt number line

/-- A file that is being run. -/
structure FileRun where
  failures : Nat
  /-- What was emitted so far, latest first. -/
  emissions : List Emission
  session : Session

/-- Runs one line of a file. Blank lines have numbers but no reports. -/
def FileRun.step (r : FileRun) (number : Nat) (line : Bytes) : FileRun :=
  if Line.isBlank line then r
  else
    let (ok, emissions, session) := r.session.processAt number line
    ⟨if ok then r.failures else r.failures + 1, emissions.reverse ++ r.emissions, session⟩

/-- Runs the lines in order, the first under the given number. -/
def FileRun.runFrom (r : FileRun) (number : Nat) : List Bytes → FileRun
  | [] => r
  | line :: rest => FileRun.runFrom (r.step number line) (number + 1) rest

/-- What running a file comes to. -/
structure FileReport where
  failures : Nat
  emissions : List Emission
  /-- Where and why reading stopped, if it did so before the end. -/
  stopped : Option Bytes
  session : Session

/-- Runs a file line by line. A failing line does not stop it. -/
def processFile (s : Session) (text : Bytes) (broken : Option Bytes) : FileReport :=
  let reading := Line.read text broken
  let r := FileRun.runFrom ⟨0, [], s⟩ 1 reading.lines
  { failures := r.failures
    emissions := r.emissions.reverse
    stopped := reading.stopped.map fun reason =>
      utf8 "read line " ++ Decimal.ofNat (reading.lines.length + 1) ++ utf8 ": " ++ reason
    session := r.session }

/-- The variables and then the functions of the root frame, one a line. -/
def listing (s : Session) : Bytes :=
  let frame := s.scope.frame
  frame.vars.entries.flatMap (fun (name, v) =>
      name ++ utf8 " = " ++ v.shown ++ utf8 "\n")
    ++ frame.funcs.entries.flatMap (fun (name, f) =>
      utf8 "(defun " ++ name ++ utf8 " (" ++ Bytes.join (utf8 " ") f.params ++ utf8 ") ...)\n")

end Session

end LineLisp
