import WhileLang.Environment

/-!
# Primitive operations

What both readings of a program have in common: applying an operator to two values, taking
a value for a condition, and taking an expression for the literal that it is. Each of them
either succeeds or names the fault.
-/

namespace WhileLang

/-- Applies an operator to two numbers. Sums and products wrap around at 64 bits, and
numbers are compared as signed ones. -/
def Operator.onNumbers (a b : Int64) : Operator → Value
  | add => .number (a + b)
  | multiply => .number (a * b)
  | lessThan => .bool (a < b)

/-- Applies an operator to two values, which must be numbers. -/
def Operator.apply (op : Operator) : Value → Value → Except Fault Value
  | .number a, .number b => .ok (op.onNumbers a b)
  | left, right => .error (.operands op left.kind right.kind)

/-- Takes a value for a condition. -/
def Value.truth (v : Value) : Except Fault Bool :=
  match v.bool? with
  | some b => .ok b
  | none => .error (.condition v.kind)

/-- Takes an expression for a literal. -/
def Expr.operand (e : Expr) : Except Fault Value :=
  match e.value? with
  | some v => .ok v
  | none => .error (.notValue e)

/-- The operators fail exactly when a truth value is among the operands. -/
theorem Operator.apply_eq_error_iff {op : Operator} {left right : Value} {f : Fault} :
    op.apply left right = .error f ↔
      (left.kind = .bool ∨ right.kind = .bool) ∧ f = .operands op left.kind right.kind := by
  cases left <;> cases right <;> simp [apply, Value.kind, eq_comm]

/-- A condition is refused exactly when it is a number. -/
theorem Value.truth_eq_error_iff {v : Value} {f : Fault} :
    v.truth = .error f ↔ v.kind = .number ∧ f = .condition .number := by
  cases v <;> simp [truth, bool?, kind, eq_comm]

/-- A condition is taken exactly when it is a truth value. -/
theorem Value.truth_eq_ok_iff {v : Value} {b : Bool} : v.truth = .ok b ↔ v = .bool b := by
  cases v <;> simp [truth, bool?]

/-- A cast **does not fail** on an expression without a step to take, which is a literal. -/
theorem Expr.exists_operand_eq_ok {e : Expr} (h : e.reducible = false) :
    ∃ v, e = literal v ∧ e.operand = .ok v := by
  obtain ⟨v, rfl⟩ := reducible_eq_false_iff.1 h
  exact ⟨v, rfl, rfl⟩

end WhileLang
