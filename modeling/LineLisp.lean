import LineLisp.Command.FileTree
import LineLisp.Main
import LineLisp.Proofs.Eval.Depth
import LineLisp.Proofs.Eval.Footprint
import LineLisp.Proofs.Expr.RoundTrip
import LineLisp.Proofs.Repl.Splitting
import LineLisp.Proofs.Scope.Lookup
import LineLisp.Proofs.Session.Invariant
import LineLisp.Proofs.Eval.Lookups
import LineLisp.Proofs.Eval.Strict
import LineLisp.Proofs.Expr.Unplaced
import LineLisp.Proofs.Scope.Unplaced
import LineLisp.Proofs.Eval.Places
import LineLisp.Proofs.Token.Excerpts
import LineLisp.Proofs.Expr.Spans
import LineLisp.Proofs.Token.Lexical
import LineLisp.Proofs.Expr.Prefixes
import LineLisp.Proofs.Session.Values
import LineLisp.Proofs.Eval.Provenance
import LineLisp.Proofs.Session.Diagnostics
import LineLisp.Proofs.Eval.Nesting
import LineLisp.Proofs.Session.Transcript
import LineLisp.Proofs.Line.Split
import LineLisp.Proofs.Command.Listing
import LineLisp.Proofs.Repl.Interrupting
import LineLisp.Proofs.Expr.Renumbering
import LineLisp.Proofs.Session.Files
import LineLisp.Proofs.Token.Spacing
import LineLisp.Proofs.Session.Completion
import LineLisp.Proofs.Eval.Operators
import LineLisp.Proofs.Session.Interpreters
import LineLisp.Proofs.Token.Parentheses
import LineLisp.Proofs.Eval.Equations
import LineLisp.Proofs.Eval.Calculations
import LineLisp.Proofs.Value.Equality
import LineLisp.Proofs.Session.Surplus
import LineLisp.Proofs.Eval.Clauses
import LineLisp.Proofs.Eval.Descent
import LineLisp.Proofs.Eval.Recursion
import LineLisp.Proofs.Scope.History
import LineLisp.Proofs.Session.Reading
import LineLisp.Proofs.Token.FirstWord
import LineLisp.Proofs.Diagnostic.Trace
import LineLisp.Proofs.Session.Listing
