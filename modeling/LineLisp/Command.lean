import LineLisp.Command.Invocation
import LineLisp.Command.Listing
import LineLisp.Command.Running
import LineLisp.Repl

/-!
The commands: listing the tokens of a file, showing its expressions as trees, running files or
lines, and the interactive session.
-/

namespace LineLisp.Command

/-- Carries out a command. An interactive session gets its events from the caller. -/
def execute (files : Files) (events : List Repl.Event) : Invocation → Report
  | .help => ⟨[], none⟩
  | .tokens json path => listTokens files json path
  | .parse limit path => showTrees files limit path
  | .run options debug lines args => (runAll files options lines args).filterLog debug
  | .repl options => Report.filterLog false ⟨(Repl.run options events).1, none⟩

/-- Carries out a command line. -/
def perform (files : Files) (events : List Repl.Event) (args : List Bytes) : Report :=
  match invocation args with
  | .ok inv => execute files events inv
  | .error failure => ⟨[], some failure⟩

end LineLisp.Command
