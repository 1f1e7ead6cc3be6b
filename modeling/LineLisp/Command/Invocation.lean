import LineLisp.Command.Flags
import LineLisp.Command.Suggestion
import LineLisp.Eval

/-!
What a command line asks for. Every word is checked before any file is looked at: first the
name of the command, then the flags, then the number of the other words.
-/

namespace LineLisp.Command

inductive Invocation where
  /-- Help or a completion script, neither of which is written here. -/
  | help
  | tokens (json : Bool) (path : Bytes)
  | parse (limit : DepthLimit) (path : Bytes)
  | run (options : Eval.Options) (debug lines : Bool) (args : List Bytes)
  | repl (options : Eval.Options)

namespace Flag

open Flags

def help : Flag := ⟨utf8 "help", some 0x68, .switch⟩
def json : Flag := ⟨utf8 "json", none, .switch⟩
def strict : Flag := ⟨utf8 "strict", none, .switch⟩
def maxDepth : Flag := ⟨utf8 "max-depth", none, .number⟩
def expr : Flag := ⟨utf8 "expr", some 0x65, .switch⟩
def debug : Flag := ⟨utf8 "debug", none, .switch⟩
def history : Flag := ⟨utf8 "history", none, .text⟩
def noDescriptions : Flag := ⟨utf8 "no-descriptions", none, .switch⟩

end Flag

inductive Name where
  | tokens
  | parse
  | run
  | repl
  deriving DecidableEq

namespace Name

def text : Name → Bytes
  | .tokens => utf8 "tokens"
  | .parse => utf8 "parse"
  | .run => utf8 "run"
  | .repl => utf8 "repl"

def all : List Name :=
  [.tokens, .parse, .run, .repl]

def flags : Name → List Flags.Flag
  | .tokens => [Flag.help, Flag.json]
  | .parse => [Flag.help, Flag.maxDepth]
  | .run => [Flag.help, Flag.strict, Flag.maxDepth, Flag.expr, Flag.debug]
  | .repl => [Flag.help, Flag.strict, Flag.maxDepth, Flag.history]

end Name

def programName : Bytes := utf8 "minilisp"

/-- The word in the place of a command name that asks for help. -/
def helpName : Bytes := utf8 "help"

/-- The word that asks for a script by which a shell completes command lines. -/
def completionName : Bytes := utf8 "completion"

def shells : List Bytes :=
  [utf8 "bash", utf8 "zsh", utf8 "fish", utf8 "powershell"]

/-- The words by which such a script asks how a command line goes on. -/
def completeNames : List Bytes :=
  [utf8 "__complete", utf8 "__completeNoDesc"]

/-- Whether a word before the command name takes the word after it as its value. No flag is
known there, so each is taken to need one. -/
def takesNext (word : Bytes) : Bool :=
  !word.contains 0x3D &&
    match word with
    | 0x2D :: 0x2D :: _ => true
    | [0x2D, _] => true
    | _ => false

/-- The command name, which is the first word that belongs to no flag, and the words around it;
`before` holds the words passed over, latest first. -/
def findName (before : List Bytes) : List Bytes → Option (Bytes × List Bytes)
  | [] => none
  | [word] =>
      if word.isEmpty || word.head? = some 0x2D then none
      else some (word, before.reverse)
  | word :: next :: rest =>
      if word = [0x2D, 0x2D] then none
      else if takesNext word then
        if rest.isEmpty then none else findName (next :: word :: before) rest
      else if word.isEmpty || word.head? = some 0x2D then
        findName (word :: before) (next :: rest)
      else
        some (word, before.reverse ++ next :: rest)

def unknownCommand (word parent : Bytes) : Bytes :=
  utf8 "unknown command " ++ Quoted.quote word ++ utf8 " for " ++ Quoted.quote parent

def limitOf (parsed : Flags.Parsed) : DepthLimit :=
  match parsed.number? Flag.maxDepth with
  | some n => .ofInt n
  | none => .standard

def optionsOf (parsed : Flags.Parsed) : Eval.Options :=
  ⟨parsed.switch Flag.strict, limitOf parsed⟩

/-- Complains unless there is exactly one word. -/
def onlyWord (words : List Bytes) : Except Bytes Bytes :=
  match words with
  | [word] => .ok word
  | _ => .error (utf8 "accepts 1 arg(s), received " ++ Decimal.ofNat words.length)

/-- Complains unless there is some word. -/
def someWord (words : List Bytes) : Except Bytes Unit :=
  if words.isEmpty then .error (utf8 "requires at least 1 arg(s), only received 0") else .ok ()

/-- Complains about the first word, taken for the name of a command below `parent`. -/
def noWord (parent : Bytes) (words : List Bytes) : Except Bytes Unit :=
  match words with
  | [] => .ok ()
  | word :: _ => .error (unknownCommand word parent)

def parseFlags (known : List Flags.Flag) (args : List Bytes) : Except Bytes Flags.Parsed :=
  (Flags.parse known args).mapError (·.message)

/-- What a command is asked to do by the words after its name. -/
def Name.invocation (name : Name) (parsed : Flags.Parsed) : Except Bytes Invocation :=
  if parsed.switch Flag.help then .ok .help
  else
    match name with
    | .tokens => do return .tokens (parsed.switch Flag.json) (← onlyWord parsed.words)
    | .parse => do return .parse (limitOf parsed) (← onlyWord parsed.words)
    | .run => do
        someWord parsed.words
        return .run (optionsOf parsed) (parsed.switch Flag.debug) (parsed.switch Flag.expr)
          parsed.words
    | .repl => do
        noWord (programName ++ utf8 " repl") parsed.words
        return .repl (optionsOf parsed)

/-- A request for help; of the other words only flags are checked. -/
def helpInvocation (args : List Bytes) : Except Bytes Invocation := do
  let _ ← parseFlags [Flag.help] args
  return .help

/-- A request for a completion script, or for help about them when no shell is named. -/
def completionInvocation (args : List Bytes) : Except Bytes Invocation :=
  match findName [] args with
  | none => helpInvocation args
  | some (shell, rest) =>
      if shells.contains shell then do
        let parsed ← parseFlags [Flag.help, Flag.noDescriptions] rest
        unless parsed.switch Flag.help do
          noWord (programName ++ utf8 " completion " ++ shell) parsed.words
        return .help
      else helpInvocation args

/-- What a whole command line asks for. -/
def invocation (args : List Bytes) : Except Bytes Invocation :=
  match findName [] args with
  | none => helpInvocation args
  | some (word, rest) =>
      match Name.all.find? (·.text == word) with
      | some name => do name.invocation (← parseFlags name.flags rest)
      | none =>
          if word = helpName then helpInvocation rest
          else if word = completionName then completionInvocation rest
          else if completeNames.contains word then do
            someWord rest
            return .help
          else
            let names := Name.all.map Name.text ++ [completionName]
            .error (unknownCommand word programName ++ Suggestion.text names word)

end LineLisp.Command
