import WhileLang.Primitive

/-!
# Reduction

The first reading of a program: one step at a time, leftmost innermost first. A step puts
another term in place of the term, and leads to another environment along with it. Where a term
waits for one of its parts, it takes over the environment that the step of the part leads to.

* **Expressions.** A variable becomes its value. An operator waits for its left operand, then
  for its right one, and is then applied.
* **Statements.** An assignment and a branching wait for their expression. An assignment of a
  value binds it, which is the one rule that makes an environment of its own. A sequence waits
  for its first part to be finished and then becomes its second part. A loop becomes a
  branching on its condition, with the body and the loop again in the one branch and nothing
  in the other.
* **Finished terms** step to themselves.
-/

namespace WhileLang

/-- One step of an expression. -/
def Expr.reduce (env : Environment) : Expr → Except Fault (Expr × Environment)
  | literal v => .ok (literal v, env)
  | var name => (env.lookup name).map fun v => (literal v, env)
  | binary op left right =>
    if left.reducible then (left.reduce env).map fun p => (binary op p.1 right, p.2)
    else if right.reducible then (right.reduce env).map fun p => (binary op left p.1, p.2)
    else do
      let a ← left.operand
      let b ← right.operand
      return (literal (← op.apply a b), env)

/-- A loop written out for one round. -/
def Stmt.unrolled (condition : Expr) (body : Stmt) : Stmt :=
  branch condition (seq body (loop condition body)) doNothing

/-- One step of a statement. -/
def Stmt.reduce (env : Environment) : Stmt → Except Fault (Stmt × Environment)
  | doNothing => .ok (doNothing, env)
  | assign name expr =>
    if expr.reducible then (expr.reduce env).map fun p => (assign name p.1, p.2)
    else expr.operand.map fun v => (doNothing, env.bind name v)
  | branch condition consequence alternative =>
    if condition.reducible then
      (condition.reduce env).map fun p => (branch p.1 consequence alternative, p.2)
    else do
      let v ← condition.operand
      let b ← v.truth
      return (if b then consequence else alternative, env)
  | seq first second =>
    match first with
    | doNothing => .ok (second, env)
    | _ => (first.reduce env).map fun p => (seq p.1 second, p.2)
  | loop condition body => .ok (unrolled condition body, env)

/-- One step of a term. -/
def Term.reduce (env : Environment) : Term → Except Fault (Term × Environment)
  | expr e => (e.reduce env).map fun p => (expr p.1, p.2)
  | stmt s => (s.reduce env).map fun p => (stmt p.1, p.2)

end WhileLang
