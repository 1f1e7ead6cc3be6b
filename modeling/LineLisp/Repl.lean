import LineLisp.Session
import LineLisp.Session.Gathering

/-!
The interactive session. Input arrives as events; lines are gathered until a form is complete
and then run. The words that leave the session or list its bindings are only recognised while
no form is open.
-/

namespace LineLisp

namespace Repl

/-- What the user does at the prompt. -/
inductive Event where
  | line (text : Bytes)
  /-- Gives up the line being typed, and with it a form that is still open. -/
  | interrupt
  /-- Ends the input. -/
  | eof
  /-- A key that does nothing but ring the bell. -/
  | bell

/-- Colours of the terminal. -/
def reset : Bytes := utf8 "\x1b[0m"
def red : Bytes := utf8 "\x1b[31m"
def cyan : Bytes := utf8 "\x1b[36m"
def gray : Bytes := utf8 "\x1b[90m"
def bold : Bytes := utf8 "\x1b[1m"

def banner : Emission where
  channel := .output
  text :=
    bold ++ cyan ++ utf8 "mini-lisp REPL" ++ reset ++ utf8 " "
      ++ gray ++ utf8 "(type 'exit', ':env' or Ctrl+D)" ++ reset ++ utf8 "\n\n"

/-- What an interrupt is answered with when no form is open. -/
def reminder : Emission where
  channel := .output
  text := gray ++ utf8 "(use 'exit' or Ctrl+D to quit)" ++ reset ++ utf8 "\n"

/-- Reports of failures are shown in red. -/
def colour (e : Emission) : Emission :=
  match e.channel with
  | .error => ⟨.error, red ++ e.text ++ reset⟩
  | _ => e

structure State where
  session : Session
  gathering : Gathering
  ended : Bool

def start (options : Eval.Options) : State :=
  ⟨.new options, .empty, false⟩

/-- Adds a line to the input and runs the input if it is complete. -/
def take (s : State) (line : Bytes) : List Emission × State :=
  match s.gathering.add line with
  | (none, gathering) => ([], { s with gathering := gathering })
  | (some source, gathering) =>
      let (_, emissions, session) := s.session.process source
      (emissions.map colour, { s with gathering := gathering, session := session })

/-- Answers one event; after the end nothing is answered. -/
def step (s : State) (event : Event) : List Emission × State :=
  if s.ended then ([], s)
  else
    match event with
    | .eof => ([⟨.output, utf8 "\n"⟩], { s with ended := true })
    | .interrupt =>
        if s.gathering.isOpen then ([], { s with gathering := .empty })
        else ([reminder], s)
    | .bell => ([⟨.output, [0x07]⟩], s)
    | .line text =>
        if s.gathering.isOpen then take s text
        else if Line.isExit text then ([], { s with ended := true })
        else if Line.isListing text then ([⟨.output, s.session.listing⟩], s)
        else take s text

/-- Answers events in order; `shown` holds earlier emissions, latest first. -/
def steps (shown : List Emission) (s : State) : List Event → List Emission × State
  | [] => (shown.reverse, s)
  | event :: rest =>
      let (emissions, s) := step s event
      steps (emissions.reverse ++ shown) s rest

/-- A whole interactive session; the end of the events ends the input. -/
def run (options : Eval.Options) (events : List Event) : List Emission × State :=
  steps [banner] (start options) (events ++ [.eof])

end Repl

end LineLisp
