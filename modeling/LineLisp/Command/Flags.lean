import LineLisp.Text.Numeral
import LineLisp.Text.Quoted

/-!
Command line flags. Flags and other words may stand in any order; after a `--` every word is
taken as it is. A switch stands alone or takes its value after `=`; any other flag takes its
value after `=` or from the next word.
-/

namespace LineLisp.Flags

inductive Kind where
  | switch
  | number
  | text
  deriving DecidableEq

structure Flag where
  name : Bytes
  /-- The letter that stands for the flag after a single dash. -/
  letter : Option UInt8
  kind : Kind
  deriving DecidableEq

inductive Setting where
  | switch (on : Bool)
  | number (n : Int)
  | text (t : Bytes)

inductive Fault where
  | badSyntax (word : Bytes)
  | unknown (name : Bytes)
  | unknownLetter (letter : UInt8) (letters : Bytes)
  | needsValue (word : Bytes)
  | needsValueAfter (letter : UInt8) (letters : Bytes)
  | badSwitch (flag : Flag) (value : Bytes)
  | badNumber (flag : Flag) (value : Bytes) (fault : Numeral.Fault)

namespace Fault

/-- How a flag is named in messages. -/
def title (flag : Flag) : Bytes :=
  match flag.letter with
  | some letter => [0x2D, letter] ++ utf8 ", --" ++ flag.name
  | none => utf8 "--" ++ flag.name

def badValue (flag : Flag) (value reader reason : Bytes) : Bytes :=
  utf8 "invalid argument " ++ Quoted.quote value ++ utf8 " for " ++ Quoted.quote (title flag)
    ++ utf8 " flag: " ++ reader ++ utf8 ": parsing " ++ Quoted.quote value ++ utf8 ": " ++ reason

def message : Fault → Bytes
  | .badSyntax word => utf8 "bad flag syntax: " ++ word
  | .unknown name => utf8 "unknown flag: --" ++ name
  | .unknownLetter letter letters =>
      utf8 "unknown shorthand flag: " ++ Quoted.quoteByte letter ++ utf8 " in -" ++ letters
  | .needsValue word => utf8 "flag needs an argument: " ++ word
  | .needsValueAfter letter letters =>
      utf8 "flag needs an argument: " ++ Quoted.quoteByte letter ++ utf8 " in -" ++ letters
  | .badSwitch flag value =>
      badValue flag value (utf8 "strconv.ParseBool") (utf8 "invalid syntax")
  | .badNumber flag value .malformed =>
      badValue flag value (utf8 "strconv.ParseInt") (utf8 "invalid syntax")
  | .badNumber flag value .outOfRange =>
      badValue flag value (utf8 "strconv.ParseInt") (utf8 "value out of range")

end Fault

def onWords : List Bytes :=
  [utf8 "1", utf8 "t", utf8 "T", utf8 "TRUE", utf8 "true", utf8 "True"]

def offWords : List Bytes :=
  [utf8 "0", utf8 "f", utf8 "F", utf8 "FALSE", utf8 "false", utf8 "False"]

/-- Reads the value of a flag. -/
def setting (flag : Flag) (value : Bytes) : Except Fault Setting :=
  match flag.kind with
  | .switch =>
      if onWords.contains value then .ok (.switch true)
      else if offWords.contains value then .ok (.switch false)
      else .error (.badSwitch flag value)
  | .number =>
      match Numeral.read value with
      | .ok n => .ok (.number n)
      | .error fault => .error (.badNumber flag value fault)
  | .text => .ok (.text value)

structure State where
  /-- A flag whose value is the next word, with the complaint if there is none. -/
  waiting : Option (Flag × Fault)
  /-- Whether a `--` has been seen. -/
  closed : Bool
  /-- Settings, latest first. -/
  settings : List (Flag × Setting)
  /-- The other words, latest first. -/
  words : List Bytes

def State.set (s : State) (flag : Flag) (value : Bytes) : Except Fault State := do
  let chosen ← setting flag value
  return { s with waiting := none, settings := (flag, chosen) :: s.settings }

/-- A word after two dashes. -/
def long (known : List Flag) (s : State) (body : Bytes) : Except Fault State :=
  if body.head? = some 0x2D ∨ body.head? = some 0x3D then
    .error (.badSyntax (utf8 "--" ++ body))
  else
    let name := Bytes.before 0x3D body
    match known.find? (·.name == name) with
    | none => .error (.unknown name)
    | some flag =>
        match body.drop name.length with
        | _ :: value => s.set flag value
        | [] =>
            if flag.kind = .switch then s.set flag (utf8 "true")
            else .ok { s with waiting := some (flag, .needsValue (utf8 "--" ++ body)) }

/-- How letters begin that are meant for a test harness. -/
def testMark : Bytes := utf8 "test."

/-- The letters after a single dash. Those from a test mark on are passed over. -/
def short (known : List Flag) (s : State) : Bytes → Except Fault State
  | [] => .ok s
  | letter :: rest =>
      if testMark.isPrefixOf (letter :: rest) then .ok s
      else
        match known.find? (·.letter == some letter) with
        | none => .error (.unknownLetter letter (letter :: rest))
        | some flag =>
            match rest with
            | 0x3D :: b :: value => s.set flag (b :: value)
            | _ =>
                if flag.kind = .switch then do
                  let s ← s.set flag (utf8 "true")
                  short known s rest
                else if rest.isEmpty then
                  .ok { s with waiting := some (flag, .needsValueAfter letter [letter]) }
                else
                  s.set flag rest

def step (known : List Flag) (s : State) (word : Bytes) : Except Fault State :=
  match s.waiting with
  | some (flag, _) => s.set flag word
  | none =>
      if s.closed then .ok { s with words := word :: s.words }
      else
        match word with
        | [0x2D, 0x2D] => .ok { s with closed := true }
        | 0x2D :: 0x2D :: body => long known s body
        | 0x2D :: b :: letters => short known s (b :: letters)
        | _ => .ok { s with words := word :: s.words }

structure Parsed where
  settings : List (Flag × Setting)
  words : List Bytes

def parse (known : List Flag) (args : List Bytes) : Except Fault Parsed := do
  let s ← args.foldlM (step known) ⟨none, false, [], []⟩
  match s.waiting with
  | some (_, complaint) => throw complaint
  | none => return ⟨s.settings, s.words.reverse⟩

namespace Parsed

def switch (p : Parsed) (flag : Flag) : Bool :=
  match p.settings.lookup flag with
  | some (.switch on) => on
  | _ => false

def number? (p : Parsed) (flag : Flag) : Option Int :=
  match p.settings.lookup flag with
  | some (.number n) => some n
  | _ => none

end Parsed

end LineLisp.Flags
