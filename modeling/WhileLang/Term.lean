import WhileLang.Value

/-!
# Terms

The programs of the language. An expression (`Expr`) computes a value, a statement (`Stmt`)
changes the environment, and a term (`Term`) is either. Terms are plain data: executing one
never changes it but yields another.

Some terms are finished: the literals among the expressions and `do-nothing` among the
statements. `reducible` recognises the others by their outermost constructor alone. These have a
step to take, which is not to say that it succeeds: `true + 1` is not finished, and there is no
environment in which it steps.
-/

namespace WhileLang

/-! ### Operators -/

/-- The binary operators. -/
inductive Operator where
  | add
  | multiply
  | lessThan
  deriving DecidableEq, Repr

namespace Operator

/-- The sign of an operator in the text of a program. -/
def symbol : Operator → String
  | add => "+"
  | multiply => "*"
  | lessThan => "<"

end Operator

/-! ### Expressions -/

/-- An expression: a literal, a variable, or an operator between two expressions. -/
inductive Expr where
  | literal (v : Value)
  | var (name : String)
  | binary (op : Operator) (left right : Expr)
  deriving DecidableEq, Repr

namespace Expr

/-- Whether the expression still has a step to take, be it one that fails: all but the literals
have. -/
def reducible : Expr → Bool
  | literal _ => false
  | var _ => true
  | binary _ _ _ => true

/-- The value an expression stands for, if it is a literal. -/
def value? : Expr → Option Value
  | literal v => some v
  | var _ => none
  | binary _ _ _ => none

/-- An expression stands for a value **exactly when it has no step to take**. -/
theorem isSome_value?_iff {e : Expr} : e.value?.isSome ↔ e.reducible = false := by
  cases e <;> simp [value?, reducible]

/-- An expression is finished exactly when it is a literal. -/
theorem reducible_eq_false_iff {e : Expr} : e.reducible = false ↔ ∃ v, e = literal v := by
  cases e <;> simp [reducible]

end Expr

/-! ### Statements -/

/-- A statement. `doNothing` is also the mark of a finished one. -/
inductive Stmt where
  | doNothing
  | assign (name : String) (expr : Expr)
  | branch (condition : Expr) (consequence alternative : Stmt)
  | seq (first second : Stmt)
  | loop (condition : Expr) (body : Stmt)
  deriving DecidableEq, Repr

namespace Stmt

/-- Whether the statement still has a step to take, be it one that fails: all but `doNothing`
have. -/
def reducible : Stmt → Bool
  | doNothing => false
  | assign _ _ => true
  | branch _ _ _ => true
  | seq _ _ => true
  | loop _ _ => true

/-- A statement is finished exactly when it is `doNothing`. -/
theorem reducible_eq_false_iff {s : Stmt} : s.reducible = false ↔ s = doNothing := by
  cases s <;> simp [reducible]

end Stmt

/-! ### Terms -/

/-- A term: an expression or a statement. -/
inductive Term where
  | expr (e : Expr)
  | stmt (s : Stmt)
  deriving DecidableEq, Repr

namespace Term

/-- Whether the term still has a step to take. -/
def reducible : Term → Bool
  | expr e => e.reducible
  | stmt s => s.reducible

end Term

end WhileLang
