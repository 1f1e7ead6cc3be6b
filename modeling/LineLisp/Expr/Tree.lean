import LineLisp.Expr

/-!
Expressions as JSON trees: every node names its kind and its span, and an absent one is
`null`.
-/

namespace LineLisp.Expr

mutual

def tree : Expr → Json
  | .int span value =>
      .sorted [("kind", .text (utf8 "Int")), ("span", span.json .sorted),
        ("value", .number value.toInt)]
  | .symbol span name =>
      .sorted [("kind", .text (utf8 "Symbol")), ("span", span.json .sorted),
        ("name", .text name)]
  | .form span elems =>
      .sorted [("kind", .text (utf8 "Form")), ("span", span.json .sorted),
        ("elems", .list (trees [] elems))]
  | .absent => .null

/-- The trees of a list in order after those of `done`, which are held latest first. -/
def trees (done : List Json) : List Expr → List Json
  | [] => done.reverse
  | e :: es => trees (tree e :: done) es

end

end LineLisp.Expr
