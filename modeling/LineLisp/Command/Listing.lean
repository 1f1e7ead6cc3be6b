import LineLisp.Command.Report
import LineLisp.Expr.Tree

/-!
Showing a file without running it: its tokens, or the trees of its lines.
-/

namespace LineLisp.Command

/-- The lines of a whole file. -/
def readWhole (files : Files) (path : Bytes) : Except Bytes (List Bytes) :=
  match files path with
  | .file content => .ok (Line.whole content)
  | .directory => .error (cannotRead path (utf8 "read") isDirectory)
  | .closed reason => .error (cannotRead path (utf8 "open") reason)

/-- The lines with their numbers, counted from one. -/
def numbered (lines : List Bytes) : List (Bytes × Nat) :=
  lines.zipIdx 1

def tokenLine (t : Token) : Bytes :=
  Bytes.padTo 10 (Utf8.width t.kind.name) t.kind.name ++ utf8 " "
    ++ Bytes.padTo 20 (Utf8.width t.lexeme) t.lexeme ++ utf8 " " ++ t.span.start.text
    ++ utf8 "\n"

def tokenJson (t : Token) : Json :=
  .object [("kind", .text t.kind.name), ("lexeme", .text t.lexeme),
    ("line", .number t.span.start.line), ("column", .number t.span.start.column),
    ("offset", .number t.span.start.offset)]

/-- A report that is one document, which fails as a whole when it is nested too deeply. The failure
says no more than that: it names neither a place nor the byte at which the depth was exceeded. -/
def document (json : Json) (failure : Option Bytes) : Report :=
  if json.depth ≤ Json.maxDepth then
    ⟨[⟨.output, json.render .indented ++ utf8 "\n"⟩], failure⟩
  else
    ⟨[], some (utf8 "JSON encoding failed: exceeded max depth")⟩

def listTokens (files : Files) (json : Bool) (path : Bytes) : Report :=
  match readWhole files path with
  | .error failure => ⟨[], some failure⟩
  | .ok lines =>
      let tokens := (numbered lines).flatMap fun (line, n) => Token.body (Scan.tokens n line)
      if json then document (.object [("tokens", .list (tokens.map tokenJson))]) none
      else ⟨[⟨.output, tokens.flatMap tokenLine⟩], none⟩

def diagnosticJson (d : Diagnostic) : Json :=
  .sorted ([("code", .text d.kind.code), ("kind", .text d.kind.name),
      ("message", .text d.message), ("line", .number d.span.start.line),
      ("column", .number d.span.start.column), ("offset", .number d.span.start.offset)]
    ++ (if d.hint.isEmpty then [] else [("hint", .text d.hint)]))

/-- The lines that hold tokens, each read as one expression. -/
def readEach (limit : DepthLimit) (lines : List Bytes) : List (Except Diagnostic Expr) :=
  ((numbered lines).filter fun (line, _) => !Line.isBlank line).map fun (line, n) =>
    Read.one limit (Scan.tokens n line)

def tree? : Except Diagnostic Expr → Option Json
  | .ok e => some e.tree
  | .error _ => none

def complaint? : Except Diagnostic Expr → Option Json
  | .ok _ => none
  | .error d => some (diagnosticJson d)

def showTrees (files : Files) (limit : DepthLimit) (path : Bytes) : Report :=
  match readWhole files path with
  | .error failure => ⟨[], some failure⟩
  | .ok lines =>
      let results := readEach limit lines
      let complaints := results.filterMap complaint?
      document
        (.sorted [("exprs", .list (results.filterMap tree?)), ("diagnostics", .list complaints)])
        (if complaints.isEmpty then none
         else some (Decimal.ofNat complaints.length ++ utf8 " line(s) failed to parse"))

end LineLisp.Command
