import LineLisp.Command.Report

/-!
Running files, or the words of the command line as lines, in one session.
-/

namespace LineLisp.Command

/-- A run over several sources, with the emissions so far latest first. -/
structure Progress where
  session : Session
  failures : Nat
  emissions : List Emission

def runLines (p : Progress) : List Bytes → Progress
  | [] => p
  | line :: rest =>
      let (ok, emissions, session) := p.session.process line
      runLines ⟨session, if ok then p.failures else p.failures + 1,
        emissions.reverse ++ p.emissions⟩ rest

/-- What running a path reads, or why it cannot be opened. A directory can be opened, but
reading it fails at once. -/
def openSource (files : Files) (path : Bytes) : Except Bytes (Bytes × Option Bytes) :=
  match files path with
  | .file content => .ok (content, none)
  | .directory => .ok ([], some (utf8 "read " ++ path ++ utf8 ": " ++ isDirectory))
  | .closed reason => .error (cannotRead path (utf8 "open") reason)

/-- Runs files in order and stops at the first that cannot be read to its end. -/
def runFiles (files : Files) (p : Progress) : List Bytes → Progress × Option Bytes
  | [] => (p, none)
  | path :: rest =>
      match openSource files path with
      | .error failure => (p, some failure)
      | .ok (content, broken) =>
          let run := p.session.processFile content broken
          let p := ⟨run.session, p.failures + run.failures, run.emissions.reverse ++ p.emissions⟩
          match run.stopped with
          | some reason => (p, some (path ++ utf8 ": " ++ reason))
          | none => runFiles files p rest

def failedLines (n : Nat) : Option Bytes :=
  if n = 0 then none else some (Decimal.ofNat n ++ utf8 " line(s) failed")

def runAll (files : Files) (options : Eval.Options) (lines : Bool) (args : List Bytes) :
    Report :=
  let fresh : Progress := ⟨.new options, 0, []⟩
  let (p, stopped) := if lines then (runLines fresh args, none) else runFiles files fresh args
  { emissions := p.emissions.reverse
    failure := stopped <|> failedLines p.failures }

end LineLisp.Command
