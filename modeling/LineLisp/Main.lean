import LineLisp.Command
import LineLisp.Repl.Typing

/-!
The program itself: reads the files and the input that a command line needs, and shows what the
command shows. A failed command says why on standard error and gives the exit status one.
-/

namespace LineLisp.Program

def toText (b : Bytes) : ByteArray :=
  ByteArray.mk b.toArray

def emit (e : Emission) : IO Unit := do
  let stream ← if e.channel = .output then IO.getStdout else IO.getStderr
  stream.write (toText e.text)
  stream.flush

/-- What a path leads to, read at once. -/
def entry (path : String) : IO Command.Entry := do
  try
    let content ← IO.FS.readBinFile path
    return .file content.data.toList
  catch
    | .noFileOrDirectory .. => return .closed (utf8 "no such file or directory")
    | .inappropriateType _ _ "Not a directory" => return .closed (utf8 "not a directory")
    | .inappropriateType .. => return .directory
    | .permissionDenied .. => return .closed (utf8 "permission denied")
    | error => return .closed (utf8 (toString error))

/-- The files that a command looks at. -/
def paths : Command.Invocation → List Bytes
  | .tokens _ path | .parse _ path => [path]
  | .run _ _ false args => args
  | .run _ _ true _ | .repl _ | .help => []

/-- Looks up all paths first, so that the command itself needs no input. -/
def lookUp (args : List String) (wanted : List Bytes) : IO Command.Files := do
  let found ← (args.filter fun arg => wanted.contains (utf8 arg)).mapM fun arg => do
    return (utf8 arg, ← entry arg)
  return fun path => (found.lookup path).getD (.closed (utf8 "no such file or directory"))

/-- The input up to the next line feed, or all that is left; empty at the end of the input. -/
partial def nextChunk (stream : IO.FS.Stream) (before : Bytes) : IO Bytes := do
  let chunk ← stream.read 1
  match chunk.data.toList with
  | [] => return before.reverse
  | b :: _ => if b = 0x0A then return (b :: before).reverse else nextChunk stream (b :: before)

/-- Runs an interactive session on standard input. -/
partial def interact (stream : IO.FS.Stream) (s : Repl.State) : IO Unit := do
  let chunk ← nextChunk stream []
  let events := if chunk.isEmpty then [Repl.Event.eof] else Repl.Typing.ofText chunk
  let (emissions, s) := Repl.steps [] s events
  for e in emissions do
    if e.channel ≠ .log then emit e
  if s.ended then return
  interact stream s

def perform (args : List String) : IO (Option Bytes) := do
  match Command.invocation (args.map utf8) with
  | .error failure => return some failure
  | .ok (.repl options) =>
      emit Repl.banner
      interact (← IO.getStdin) (Repl.start options)
      return none
  | .ok invocation =>
      let files ← lookUp args (paths invocation)
      let report := Command.execute files [] invocation
      report.emissions.forM emit
      return report.failure

end LineLisp.Program

def main (args : List String) : IO UInt32 := do
  match ← LineLisp.Program.perform args with
  | none => return 0
  | some failure =>
      LineLisp.Program.emit ⟨.error, LineLisp.utf8 "error: " ++ failure ++ [0x0A]⟩
      return 1
