import LineLisp.Session

/-!
What commands see and show: the files that paths lead to, and reports.
-/

namespace LineLisp.Command

/-- What a path leads to. -/
inductive Entry where
  | file (content : Bytes)
  | directory
  /-- The path cannot be opened. -/
  | closed (reason : Bytes)

abbrev Files := Bytes → Entry

def cannotRead (path doing reason : Bytes) : Bytes :=
  utf8 "cannot read file " ++ path ++ utf8 ": " ++ doing ++ utf8 " " ++ path ++ utf8 ": "
    ++ reason

def isDirectory : Bytes := utf8 "is a directory"

/-- What a command shows, and how it failed if it did. -/
structure Report where
  emissions : List Emission
  failure : Option Bytes

/-- Keeps the log only when it is asked for. -/
def Report.filterLog (debug : Bool) (r : Report) : Report :=
  { r with emissions := r.emissions.filter fun e => debug || e.channel ≠ .log }

/-- The text of a report on standard output. -/
def Report.output (r : Report) : Bytes :=
  Emission.textOn .output r.emissions

/-- The text of a report on standard error: failures and log in order. -/
def Report.errors (r : Report) : Bytes :=
  (r.emissions.filter (·.channel ≠ .output)).flatMap (·.text)

end LineLisp.Command
