import WhileLang.State
import WhileLang.Json.Text

/-!
# The exchange form

Values, terms, environments, states and outcomes as JSON.

* A **choice** between several forms is an object with one member, whose name says which
  form it is. `do-nothing` carries no data and is just its name.
* The **parts** of a form are the members of an object, except that the two operands of an
  operator make an array.
* A **value** is an object that names its kind.
* An **environment** is an object with a member for each name, in order.
-/

namespace WhileLang

/-- The name of an operator in the exchange form. -/
def Operator.tag : Operator → String
  | add => "Add"
  | multiply => "Multiply"
  | lessThan => "LessThan"

/-- The content of a value, without its kind. -/
def Value.content : Value → Json
  | bool b => .bool b
  | number n => .int n.toInt

/-- A value in the exchange form: its kind and its content. -/
def Value.toJson (v : Value) : Json :=
  .object [("type", .str v.kind.name), ("value", v.content)]

/-- An expression in the exchange form. -/
def Expr.toJson : Expr → Json
  | literal (.bool b) => .object [("Bool", .bool b)]
  | literal (.number n) => .object [("Number", .int n.toInt)]
  | var name => .object [("Variable", .str name)]
  | binary op left right => .object [(op.tag, .array [left.toJson, right.toJson])]

/-- A statement in the exchange form. -/
def Stmt.toJson : Stmt → Json
  | doNothing => .str "DoNothing"
  | assign name expr =>
    .object [("Assign", .object [("name", .str name), ("expr", expr.toJson)])]
  | branch condition consequence alternative =>
    .object [("If", .object [("condition", condition.toJson),
      ("consequence", consequence.toJson), ("alternative", alternative.toJson)])]
  | seq first second =>
    .object [("Sequence", .object [("first", first.toJson), ("second", second.toJson)])]
  | loop condition body =>
    .object [("While", .object [("condition", condition.toJson), ("body", body.toJson)])]

/-- A term in the exchange form. -/
def Term.toJson : Term → Json
  | expr e => .object [("Expr", e.toJson)]
  | stmt s => .object [("Stmt", s.toJson)]

/-- An environment in the exchange form. -/
def Environment.toJson (env : Environment) : Json :=
  .object (env.toList.map fun b => (b.1, b.2.toJson))

/-- A state in the exchange form. -/
def State.toJson (s : State) : Json :=
  .object [("term", s.term.toJson), ("env", s.env.toJson)]

/-- An outcome in the exchange form. -/
def Outcome.toJson : Outcome → Json
  | value v => .object [("Value", v.toJson)]
  | environment env => .object [("Environment", env.toJson)]

end WhileLang
