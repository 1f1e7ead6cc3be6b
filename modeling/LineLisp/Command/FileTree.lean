import LineLisp.Command.Report

/-!
Files held in memory, and what a path leads to among them. A path is followed name by name, and
every name but the last has to be that of a directory, so `a/../b` needs `a` to be one although
it is left at once.
-/

namespace LineLisp.Command

/-- The names from the root down to a file or directory. -/
abbrev Place := List Bytes

structure FileTree where
  /-- The files with their contents. -/
  files : List (Place × Bytes)
  /-- Directories that need not hold anything. -/
  directories : List Place

namespace FileTree

def content? (t : FileTree) (place : Place) : Option Bytes :=
  t.files.lookup place

/-- The root, the listed directories and everything above a file or directory. -/
def isDirectory (t : FileTree) (place : Place) : Bool :=
  place.isEmpty || t.directories.any (fun directory => place.isPrefixOf directory) ||
    t.files.any fun (file, _) => place != file && place.isPrefixOf file

def noSuchFile : Bytes := utf8 "no such file or directory"
def notDirectory : Bytes := utf8 "not a directory"
def nameTooLong : Bytes := utf8 "file name too long"
def invalidArgument : Bytes := utf8 "invalid argument"

/-- The length that no name may exceed. -/
def nameLimit : Nat := 255

/-- The length that every path has to stay below. -/
def pathLimit : Nat := 4096

/-- Where a name leads to from a place. An empty name and `.` stay there, and the root is above
itself. -/
def step (t : FileTree) (place : Place) (name : Bytes) : Except Bytes Place :=
  if !t.isDirectory place then .error notDirectory
  else if name.isEmpty || name == utf8 "." then .ok place
  else if name == utf8 ".." then .ok place.dropLast
  else if nameLimit < name.length then .error nameTooLong
  else
    let next := place ++ [name]
    if t.isDirectory next || (t.content? next).isSome then .ok next else .error noSuchFile

/-- What a path leads to; one that does not start at the root starts at `home`. -/
def entry (t : FileTree) (home : Place) (path : Bytes) : Entry :=
  if path.contains 0 then .closed invalidArgument
  else if path.isEmpty then .closed noSuchFile
  else if pathLimit ≤ path.length then .closed nameTooLong
  else
    let start := if path.head? = some 0x2F then [] else home
    match (Bytes.split 0x2F path).foldlM t.step start with
    | .error reason => .closed reason
    | .ok place =>
        match t.content? place with
        | some content => .file content
        | none => .directory

end FileTree

end LineLisp.Command
