import WhileLang.Primitive
import WhileLang.Outcome

/-!
# Evaluation

The second reading of a program: all at once, by recursion on the program. An expression
has a value in an environment, and a statement turns an environment into another. A loop is
gone round for as long as its condition holds.

A program may go round forever. **Fuel** bounds how often each loop is tested: `none` is the
answer of a program that ran out of it, while `some` holds the result proper, a fault
included. A result does not depend on the fuel that was left over, so a program *finishes
with* `r` when some amount of fuel gives `some r`.
-/

namespace WhileLang

/-! ### Expressions -/

/-- The value of an expression. Both operands are evaluated, the left one first, before the
operator is applied. -/
def Expr.evaluate (env : Environment) : Expr → Except Fault Value
  | literal v => .ok v
  | var name => env.lookup name
  | binary op left right => do
    let a ← left.evaluate env
    let b ← right.evaluate env
    op.apply a b

/-- The truth of an expression taken for a condition. -/
def Expr.holds (env : Environment) (e : Expr) : Except Fault Bool := do
  let v ← e.evaluate env
  v.truth

/-- An operator has a value when both operands have, and it can be applied to them. -/
theorem Expr.evaluate_binary_eq_ok_iff {op : Operator} {left right : Expr} {env : Environment}
    {v : Value} :
    (binary op left right).evaluate env = .ok v ↔
      ∃ a b, left.evaluate env = .ok a ∧ right.evaluate env = .ok b ∧ op.apply a b = .ok v := by
  rw [evaluate]
  cases left.evaluate env with
  | error f => simp [bind, Except.bind]
  | ok a =>
    cases right.evaluate env with
    | error f => simp [bind, Except.bind]
    | ok b => simp [bind, Except.bind]

/-- A condition holds, or does not, exactly when that is its value. -/
theorem Expr.holds_eq_ok_iff {e : Expr} {env : Environment} {truth : Bool} :
    e.holds env = .ok truth ↔ e.evaluate env = .ok (.bool truth) := by
  rw [holds]
  cases e.evaluate env with
  | error f => simp [bind, Except.bind]
  | ok v => simp [bind, Except.bind, Value.truth_eq_ok_iff]

/-! ### Statements -/

/-- Goes round a loop: as long as `test` holds, `body` makes the next environment. Each test
takes one unit of fuel. -/
def goRound (test : Environment → Except Fault Bool)
    (body : Environment → Option (Except Fault Environment)) :
    Nat → Environment → Option (Except Fault Environment)
  | 0, _ => none
  | fuel + 1, env =>
    match test env with
    | .error f => some (.error f)
    | .ok false => some (.ok env)
    | .ok true =>
      match body env with
      | some (.ok env) => goRound test body fuel env
      | stopped => stopped

/-- Going round a loop succeeds at once where the test fails, and else with what the other rounds
make of the environment that the body leaves behind. -/
theorem goRound_succ_eq_ok_iff {test : Environment → Except Fault Bool}
    {body : Environment → Option (Except Fault Environment)} {fuel : Nat}
    {env env' : Environment} :
    goRound test body (fuel + 1) env = some (.ok env') ↔
      (test env = .ok false ∧ env = env') ∨
      (test env = .ok true ∧ ∃ next, body env = some (.ok next) ∧
        goRound test body fuel next = some (.ok env')) := by
  rw [goRound]
  match test env with
  | .error f => simp
  | .ok false => simp
  | .ok true =>
    match body env with
    | none => simp
    | some (.error f) => simp
    | some (.ok next) => simp

/-- The environment that a statement leaves behind. -/
def Stmt.evaluate (fuel : Nat) : Stmt → Environment → Option (Except Fault Environment)
  | doNothing, env => some (.ok env)
  | assign name expr, env => some ((expr.evaluate env).map (env.bind name))
  | branch condition consequence alternative, env =>
    match condition.holds env with
    | .error f => some (.error f)
    | .ok true => consequence.evaluate fuel env
    | .ok false => alternative.evaluate fuel env
  | seq first second, env =>
    match first.evaluate fuel env with
    | some (.ok env) => second.evaluate fuel env
    | stopped => stopped
  | loop condition body, env =>
    goRound (fun env => condition.holds env) (body.evaluate fuel) fuel env

/-! ### Terms -/

/-- The outcome of a term. -/
def Term.evaluate (fuel : Nat) (env : Environment) : Term → Option (Except Fault Outcome)
  | expr e => some ((e.evaluate env).map .value)
  | stmt s => (s.evaluate fuel env).map fun r => r.map .environment

end WhileLang
