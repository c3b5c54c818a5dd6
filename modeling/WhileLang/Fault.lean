import WhileLang.Term.Text

/-!
# Faults

The ways in which a program fails. A fault names its cause; `Fault.message` words it. Both
readings of a program, step by step and all at once, report the same faults.
-/

namespace WhileLang

/-- Why a program cannot go on. -/
inductive Fault where
  /-- A variable that is not bound. -/
  | unbound (name : String)
  /-- An operator whose operands are not two numbers; their kinds, left one first. -/
  | operands (op : Operator) (left right : Kind)
  /-- A condition of a kind other than `bool`. -/
  | condition (kind : Kind)
  /-- An expression that was to be a literal. No program ever fails so: an expression is
  only taken for a literal after `Expr.reducible` has ruled out everything else. -/
  | notValue (expr : Expr)
  deriving DecidableEq, Repr

namespace Fault

/-- The wording of a fault. -/
def message : Fault → String
  | unbound name => "unbound variable: " ++ name
  | operands op left right =>
    "type mismatch: operator '" ++ op.symbol ++ "' expects two numbers, got " ++ left.name
      ++ " and " ++ right.name
  | condition kind => "type mismatch: condition must be bool, got " ++ kind.name
  | notValue expr => "type mismatch: expected a value term, got '" ++ expr.render ++ "'"

end Fault

end WhileLang
