import WhileLang.Term

/-!
# The text of terms

`render` writes a term the way a programmer would type it: `1 * 2 + 3 * 4`,
`if (x) { y = 1 } else { y = 2 }`, `while (x < 5) { x = x * 3 }`. No parentheses are ever
put around operands, and nested sequences are written flat, so the text tells everything
about a term except how it was grouped. `inspect` is the same text between guillemets.
-/

namespace WhileLang

/-- The text of an expression: operands around the operator, one blank at each side. -/
def Expr.render : Expr → String
  | literal v => v.render
  | var name => name
  | binary op left right => left.render ++ " " ++ op.symbol ++ " " ++ right.render

/-- The text of an expression between guillemets. -/
def Expr.inspect (e : Expr) : String :=
  guillemets e.render

/-- The text of a statement: conditions in parentheses, bodies in braces, and a semicolon
between the parts of a sequence. -/
def Stmt.render : Stmt → String
  | doNothing => "do-nothing"
  | assign name expr => name ++ " = " ++ expr.render
  | branch condition consequence alternative =>
    "if (" ++ condition.render ++ ") \x7b " ++ consequence.render ++ " \x7d else \x7b "
      ++ alternative.render ++ " \x7d"
  | seq first second => first.render ++ "; " ++ second.render
  | loop condition body => "while (" ++ condition.render ++ ") \x7b " ++ body.render ++ " \x7d"

/-- The text of a statement between guillemets. -/
def Stmt.inspect (s : Stmt) : String :=
  guillemets s.render

/-- The text of a term. -/
def Term.render : Term → String
  | expr e => e.render
  | stmt s => s.render

/-- The text of a term between guillemets. -/
def Term.inspect (t : Term) : String :=
  guillemets t.render

end WhileLang
