import WhileLang.Reduction

/-!
# Where a step takes place

A step of a term happens at one place inside it, its redex, and everything around the redex
stays. This module says so in two forms that go together:

* **Equations**, one for each rule of reduction: what a step of an operator, an assignment, a
  branching or a sequence is when one of its parts still has a step to take, and what it is
  when that part is finished.
* **Induction along the redex**, `Expr.redexInduction` and `Stmt.redexInduction`: one case for
  each of these equations, with an induction hypothesis for the part that is stepped.

What a successful step keeps is shown by the rules `Expr.Step` and `Stmt.Step`, one for each way to
step (`Expr.step_of_reduce`, `Stmt.step_of_reduce`). The rules hand the environment of an inner step
on, as reduction does. That an expression never makes another one is the first thing that is shown
by them (`Expr.Step.env_eq`).
-/

namespace Except

variable {ε α β : Type} {x : Except ε α} {f : α → β}

/-- Mapping succeeds where the mapped result does. -/
theorem map_eq_ok_iff {b : β} : x.map f = .ok b ↔ ∃ a, x = .ok a ∧ f a = b := by
  cases x <;> simp [Except.map]

/-- Mapping fails where the mapped result does. -/
theorem map_eq_error_iff {e : ε} : x.map f = .error e ↔ x = .error e := by
  cases x <;> simp [Except.map]

/-- Mapping the errors succeeds where the mapped result does. -/
theorem mapError_eq_ok_iff {ε' : Type} {g : ε → ε'} {a : α} : x.mapError g = .ok a ↔ x = .ok a := by
  cases x with
  | error e => exact ⟨nofun, nofun⟩
  | ok b =>
    change (Except.ok b : Except ε' α) = .ok a ↔ _
    simp

/-- Mapping an injective function tells all results apart. -/
theorem map_injective (hf : ∀ a b, f a = f b → a = b) {y : Except ε α}
    (h : x.map f = y.map f) : x = y := by
  cases x with
  | error e =>
    cases y with
    | error e' => exact congrArg Except.error (Except.error.inj h)
    | ok b => cases h
  | ok a =>
    cases y with
    | error e' => cases h
    | ok b => exact congrArg Except.ok (hf a b (Except.ok.inj h))

end Except

namespace WhileLang

/-! ### Expressions -/

namespace Expr

/-- A literal has no step to take. -/
theorem not_reducible_literal (v : Value) : ¬(literal v).reducible = true :=
  Bool.false_ne_true

/-- A finished expression steps to itself and leaves the environment as it is. -/
theorem reduce_of_not_reducible {e : Expr} (h : e.reducible = false) (env : Environment) :
    e.reduce env = .ok (e, env) := by
  obtain ⟨v, rfl⟩ := reducible_eq_false_iff.1 h
  rfl

variable {op : Operator} {e e' left right : Expr} {env env' : Environment}

/-- A left operand with a step to take is stepped. -/
theorem reduce_binary_left (h : left.reducible = true) :
    (binary op left right).reduce env
      = (left.reduce env).map fun p => (binary op p.1 right, p.2) := by
  rw [reduce, if_pos h]

/-- Beside a literal, a right operand with a step to take is stepped. -/
theorem reduce_binary_right {a : Value} (h : right.reducible = true) :
    (binary op (literal a) right).reduce env
      = (right.reduce env).map fun p => (binary op (literal a) p.1, p.2) := by
  rw [reduce, if_neg (not_reducible_literal a), if_pos h]

/-- An operator between two literals is applied. -/
theorem reduce_binary_literal {a b : Value} :
    (binary op (literal a) (literal b)).reduce env
      = (op.apply a b).map fun v => (literal v, env) := by
  rw [reduce, if_neg (not_reducible_literal a), if_neg (not_reducible_literal b)]
  change (op.apply a b >>= fun v => pure (literal v, env)) = _
  cases op.apply a b <;> rfl

/-- Induction along the redex of an expression. -/
@[elab_as_elim]
theorem redexInduction {motive : Expr → Prop} (literal : ∀ v, motive (literal v))
    (var : ∀ name, motive (var name))
    (left : ∀ op left right, left.reducible = true → motive left → motive (binary op left right))
    (right : ∀ op a right, right.reducible = true → motive right →
      motive (binary op (.literal a) right))
    (apply : ∀ op a b, motive (binary op (.literal a) (.literal b))) (e : Expr) : motive e := by
  induction e with
  | literal v => exact literal v
  | var name => exact var name
  | binary op l r ihl ihr =>
    -- the redex is on the left as long as there is one, then on the right
    cases hl : l.reducible with
    | true => exact left op l r hl ihl
    | false =>
      obtain ⟨a, rfl⟩ := reducible_eq_false_iff.1 hl
      cases hr : r.reducible with
      | true => exact right op a r hr ihr
      | false =>
        obtain ⟨b, rfl⟩ := reducible_eq_false_iff.1 hr
        exact apply op a b

/-- The rules by which an expression steps. -/
inductive Step : Expr → Environment → Expr → Environment → Prop
  | var {name : String} {v : Value} {env : Environment} :
    env.lookup name = .ok v → Step (var name) env (literal v) env
  | left {op : Operator} {left left' right : Expr} {env env' : Environment} :
    Step left env left' env' → Step (binary op left right) env (binary op left' right) env'
  | right {op : Operator} {a : Value} {right right' : Expr} {env env' : Environment} :
    Step right env right' env' →
      Step (binary op (literal a) right) env (binary op (literal a) right') env'
  | apply {op : Operator} {a b v : Value} {env : Environment} :
    op.apply a b = .ok v → Step (binary op (literal a) (literal b)) env (literal v) env

/-- What an expression steps to is **by one of the rules**. -/
theorem step_of_reduce (he : e.reducible = true) (h : e.reduce env = .ok (e', env')) :
    e.Step env e' env' := by
  induction e using redexInduction generalizing e' env' with
  | literal v => exact absurd he (not_reducible_literal v)
  | var name =>
    obtain ⟨v, hv, heq⟩ := Except.map_eq_ok_iff.1 h
    obtain ⟨rfl, rfl⟩ := Prod.mk.inj heq
    exact .var hv
  | left op left right hl ih =>
    rw [reduce_binary_left hl] at h
    obtain ⟨⟨left', env₁⟩, hred, heq⟩ := Except.map_eq_ok_iff.1 h
    obtain ⟨rfl, rfl⟩ := Prod.mk.inj heq
    exact .left (ih hl hred)
  | right op a right hr ih =>
    rw [reduce_binary_right hr] at h
    obtain ⟨⟨right', env₁⟩, hred, heq⟩ := Except.map_eq_ok_iff.1 h
    obtain ⟨rfl, rfl⟩ := Prod.mk.inj heq
    exact .right (ih hr hred)
  | apply op a b =>
    rw [reduce_binary_literal] at h
    obtain ⟨v, hv, heq⟩ := Except.map_eq_ok_iff.1 h
    obtain ⟨rfl, rfl⟩ := Prod.mk.inj heq
    exact .apply hv

/-- Only a finished expression is reduced by no rule, to itself. -/
theorem eq_or_step_of_reduce (h : e.reduce env = .ok (e', env')) :
    (e' = e ∧ env' = env) ∨ e.Step env e' env' := by
  cases he : e.reducible with
  | true => exact .inr (step_of_reduce he h)
  | false =>
    rw [reduce_of_not_reducible he] at h
    obtain ⟨rfl, rfl⟩ := Prod.mk.inj (Except.ok.inj h)
    exact .inl ⟨rfl, rfl⟩

/-- Only what has a step to take steps by the rules. -/
theorem Step.reducible (h : e.Step env e' env') : e.reducible = true := by
  cases h with
  | var hv => rfl
  | left hstep => rfl
  | right hstep => rfl
  | apply hv => rfl

/-- A step of an expression **does not touch the environment**. -/
theorem Step.env_eq (h : e.Step env e' env') : env' = env := by
  induction h with
  | var hv => rfl
  | left hstep ih => exact ih
  | right hstep ih => exact ih
  | apply hv => rfl

/-- Reduction of an expression leaves the environment as it is, also where it is finished. -/
theorem env_of_reduce (h : e.reduce env = .ok (e', env')) : env' = env := by
  rcases eq_or_step_of_reduce h with ⟨-, heq⟩ | hstep
  · exact heq
  · exact hstep.env_eq

end Expr

/-! ### Statements -/

namespace Stmt

variable {name : String} {expr condition : Expr} {body consequence alternative : Stmt}
  {first second : Stmt} {env : Environment}

/-- An assignment steps its expression as long as that has a step to take. -/
theorem reduce_assign_expr (h : expr.reducible = true) :
    (assign name expr).reduce env
      = (expr.reduce env).map fun p => (assign name p.1, p.2) := by
  rw [reduce, if_pos h]

/-- An assignment of a literal binds and is finished. -/
theorem reduce_assign_literal {v : Value} :
    (assign name (.literal v)).reduce env = .ok (doNothing, env.bind name v) := by
  rw [reduce, if_neg (Expr.not_reducible_literal v)]
  rfl

/-- A branching steps its condition as long as that has a step to take. -/
theorem reduce_branch_condition (h : condition.reducible = true) :
    (branch condition consequence alternative).reduce env
      = (condition.reduce env).map fun p => (branch p.1 consequence alternative, p.2) := by
  rw [reduce, if_pos h]

/-- A branching on a literal becomes one of its branches, if the literal is a condition. -/
theorem reduce_branch_literal {v : Value} :
    (branch (.literal v) consequence alternative).reduce env
      = v.truth.map fun truth => (if truth then consequence else alternative, env) := by
  rw [reduce, if_neg (Expr.not_reducible_literal v)]
  change (v.truth >>= fun truth => pure (if truth then consequence else alternative, env)) = _
  cases v.truth <;> rfl

/-- A sequence steps its first part as long as that has a step to take. -/
theorem reduce_seq_first (h : first.reducible = true) :
    (seq first second).reduce env = (first.reduce env).map fun p => (seq p.1 second, p.2) := by
  cases first with
  | doNothing => cases h
  | _ => rfl

/-- A sequence whose first part is finished becomes its second part. -/
theorem reduce_seq_doNothing : (seq doNothing second).reduce env = .ok (second, env) := rfl

/-- A loop is written out for one round. -/
theorem reduce_loop :
    (loop condition body).reduce env = .ok (unrolled condition body, env) := rfl

/-- Induction along the redex of a statement. -/
@[elab_as_elim]
theorem redexInduction {motive : Stmt → Prop} (doNothing : motive doNothing)
    (assignExpr : ∀ name expr, expr.reducible = true → motive (assign name expr))
    (assignLiteral : ∀ name v, motive (assign name (.literal v)))
    (branchCondition : ∀ condition consequence alternative, condition.reducible = true →
      motive (branch condition consequence alternative))
    (branchLiteral : ∀ v consequence alternative,
      motive (branch (.literal v) consequence alternative))
    (seqFirst : ∀ first second, first.reducible = true → motive first →
      motive (seq first second))
    (seqDoNothing : ∀ second, motive (seq .doNothing second))
    (loop : ∀ condition body, motive (loop condition body)) (s : Stmt) : motive s := by
  induction s with
  | doNothing => exact doNothing
  | assign name expr =>
    cases he : expr.reducible with
    | true => exact assignExpr name expr he
    | false =>
      obtain ⟨v, rfl⟩ := Expr.reducible_eq_false_iff.1 he
      exact assignLiteral name v
  | branch condition consequence alternative =>
    cases hc : condition.reducible with
    | true => exact branchCondition condition consequence alternative hc
    | false =>
      obtain ⟨v, rfl⟩ := Expr.reducible_eq_false_iff.1 hc
      exact branchLiteral v consequence alternative
  | seq first second ih =>
    cases hf : first.reducible with
    | true => exact seqFirst first second hf ih
    | false =>
      obtain rfl := reducible_eq_false_iff.1 hf
      exact seqDoNothing second
  | loop condition body => exact loop condition body

/-- The rules by which a statement steps. -/
inductive Step : Stmt → Environment → Stmt → Environment → Prop
  | assignExpr {name : String} {expr expr' : Expr} {env env' : Environment} :
    expr.Step env expr' env' → Step (assign name expr) env (assign name expr') env'
  | assignLiteral {name : String} {v : Value} {env : Environment} :
    Step (assign name (.literal v)) env doNothing (env.bind name v)
  | branchCondition {condition condition' : Expr} {consequence alternative : Stmt}
      {env env' : Environment} :
    condition.Step env condition' env' →
      Step (branch condition consequence alternative) env
        (branch condition' consequence alternative) env'
  | branchLiteral {truth : Bool} {consequence alternative : Stmt} {env : Environment} :
    Step (branch (.literal (.bool truth)) consequence alternative) env
      (if truth then consequence else alternative) env
  | seqFirst {first first' second : Stmt} {env env' : Environment} :
    Step first env first' env' → Step (seq first second) env (seq first' second) env'
  | seqDoNothing {second : Stmt} {env : Environment} : Step (seq doNothing second) env second env
  | loop {condition : Expr} {body : Stmt} {env : Environment} :
    Step (loop condition body) env (unrolled condition body) env

/-- What a statement steps to is **by one of the rules**. -/
theorem step_of_reduce {s t : Stmt} {env' : Environment} (hs : s.reducible = true)
    (h : s.reduce env = .ok (t, env')) : s.Step env t env' := by
  induction s using redexInduction generalizing t env' with
  | doNothing => cases hs
  | assignExpr name expr he =>
    rw [reduce_assign_expr he] at h
    obtain ⟨⟨expr', env₁⟩, hred, heq⟩ := Except.map_eq_ok_iff.1 h
    obtain ⟨rfl, rfl⟩ := Prod.mk.inj heq
    exact .assignExpr (Expr.step_of_reduce he hred)
  | assignLiteral name v =>
    rw [reduce_assign_literal] at h
    obtain ⟨rfl, rfl⟩ := Prod.mk.inj (Except.ok.inj h)
    exact .assignLiteral
  | branchCondition condition consequence alternative hc =>
    rw [reduce_branch_condition hc] at h
    obtain ⟨⟨condition', env₁⟩, hred, heq⟩ := Except.map_eq_ok_iff.1 h
    obtain ⟨rfl, rfl⟩ := Prod.mk.inj heq
    exact .branchCondition (Expr.step_of_reduce hc hred)
  | branchLiteral v consequence alternative =>
    rw [reduce_branch_literal] at h
    obtain ⟨truth, htruth, heq⟩ := Except.map_eq_ok_iff.1 h
    obtain ⟨rfl, rfl⟩ := Prod.mk.inj heq
    obtain rfl := Value.truth_eq_ok_iff.1 htruth
    exact .branchLiteral
  | seqFirst first second hf ih =>
    rw [reduce_seq_first hf] at h
    obtain ⟨⟨first', env₁⟩, hred, heq⟩ := Except.map_eq_ok_iff.1 h
    obtain ⟨rfl, rfl⟩ := Prod.mk.inj heq
    exact .seqFirst (ih hf hred)
  | seqDoNothing second =>
    obtain ⟨rfl, rfl⟩ := Prod.mk.inj (Except.ok.inj h)
    exact .seqDoNothing
  | loop condition body =>
    obtain ⟨rfl, rfl⟩ := Prod.mk.inj (Except.ok.inj h)
    exact .loop

/-- Only a finished statement is reduced by no rule, to itself. -/
theorem eq_or_step_of_reduce {s t : Stmt} {env' : Environment}
    (h : s.reduce env = .ok (t, env')) :
    (s = doNothing ∧ t = doNothing ∧ env' = env) ∨ s.Step env t env' := by
  cases hs : s.reducible with
  | true => exact .inr (step_of_reduce hs h)
  | false =>
    obtain rfl := reducible_eq_false_iff.1 hs
    obtain ⟨rfl, rfl⟩ := Prod.mk.inj (Except.ok.inj h)
    exact .inl ⟨rfl, rfl, rfl⟩

end Stmt

/-! ### Terms -/

namespace Term

variable {t u : Term} {env env' : Environment}

/-- A finished term steps to itself and leaves the environment as it is. -/
theorem reduce_of_not_reducible (h : t.reducible = false) (env : Environment) :
    t.reduce env = .ok (t, env) := by
  cases t with
  | expr e =>
    rw [reduce, Expr.reduce_of_not_reducible h]
    rfl
  | stmt s =>
    obtain rfl := Stmt.reducible_eq_false_iff.1 h
    rfl

/-- The rules by which a term steps are those of its expression or of its statement. -/
inductive Step : Term → Environment → Term → Environment → Prop
  | expr {e e' : Expr} {env env' : Environment} :
    e.Step env e' env' → Step (expr e) env (expr e') env'
  | stmt {s s' : Stmt} {env env' : Environment} :
    s.Step env s' env' → Step (stmt s) env (stmt s') env'

/-- What a term steps to is by one of the rules. -/
theorem step_of_reduce (ht : t.reducible = true) (h : t.reduce env = .ok (u, env')) :
    t.Step env u env' := by
  cases t with
  | expr e =>
    obtain ⟨⟨e', env₁⟩, hred, heq⟩ := Except.map_eq_ok_iff.1 h
    obtain ⟨rfl, rfl⟩ := Prod.mk.inj heq
    exact .expr (Expr.step_of_reduce ht hred)
  | stmt s =>
    obtain ⟨⟨s', env₁⟩, hred, heq⟩ := Except.map_eq_ok_iff.1 h
    obtain ⟨rfl, rfl⟩ := Prod.mk.inj heq
    exact .stmt (Stmt.step_of_reduce ht hred)

/-- Only a finished term is reduced by no rule, to itself. -/
theorem eq_or_step_of_reduce (h : t.reduce env = .ok (u, env')) :
    (u = t ∧ env' = env) ∨ t.Step env u env' := by
  cases ht : t.reducible with
  | true => exact .inr (step_of_reduce ht h)
  | false =>
    rw [reduce_of_not_reducible ht] at h
    obtain ⟨rfl, rfl⟩ := Prod.mk.inj (Except.ok.inj h)
    exact .inl ⟨rfl, rfl⟩

end Term

end WhileLang
