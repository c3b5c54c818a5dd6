import WhileLang.Proofs.Frame
import WhileLang.Proofs.Reports
import WhileLang.Proofs.Wording

/-!
# Where faults come from

A fault is about something: a variable that is not bound, an operator that refuses its operands, or
a condition that is refused. What it is about **is to be found in the program** for which it is
reported (`Fault.FoundIn`): the variable is read there and the environment does not bind it, the
operator occurs there, and there is a branching or a loop.

A step that fails says so of the term that it is a step of (`Term.foundIn_of_reduce`). As steps
bring nothing new into a program, and as a run drops no bindings, the whole run says so of the state
that it began with (`State.FailsIn.foundIn`). All that is ever reported is the failure of some run
(`State.reports_fault_iff`), and so this holds of all reports: of unbound variables in
`Term.unbound_fault_origin`, of mismatches in `Term.mismatches_are_genuine`.
-/

namespace WhileLang

/-! ### Operators and tests of a program -/

/-- The operators that an expression is built with. -/
def Expr.operators : Expr → List Operator
  | literal _ => []
  | var _ => []
  | binary op left right => op :: (left.operators ++ right.operators)

theorem Expr.gathers_operators : Gathers (fun op => [op]) operators :=
  ⟨fun _ => rfl, fun _ _ _ => rfl⟩

namespace Stmt

/-- The operators that the expressions of a statement are built with. -/
def operators : Stmt → List Operator
  | doNothing => []
  | assign _ expr => expr.operators
  | branch condition consequence alternative =>
    condition.operators ++ (consequence.operators ++ alternative.operators)
  | seq first second => first.operators ++ second.operators
  | loop condition body => condition.operators ++ body.operators

theorem gathers_operators : Gathers (fun _ => []) Expr.operators operators :=
  ⟨Expr.gathers_operators.subset_of_step, rfl, fun _ _ => rfl, fun _ _ _ => rfl, fun _ _ => rfl,
    fun _ _ => rfl⟩

/-- Whether there is a condition in the statement: that of a branching or of a loop. -/
def hasTest : Stmt → Bool
  | doNothing => false
  | assign _ _ => false
  | branch _ _ _ => true
  | seq first second => first.hasTest || second.hasTest
  | loop _ _ => true

/-- A step does not bring the first condition into a statement. -/
theorem Step.hasTest_of_hasTest {s t : Stmt} {env env' : Environment} (h : s.Step env t env')
    (ht : t.hasTest = true) : s.hasTest = true := by
  induction h with
  | assignExpr _ => exact ht
  | assignLiteral => exact ht
  | branchCondition _ => rfl
  | branchLiteral => rfl
  | seqFirst _ ih =>
    rw [hasTest, Bool.or_eq_true] at ht ⊢
    exact ht.imp_left ih
  | seqDoNothing => exact ht
  | loop => rfl

end Stmt

namespace Term

/-- The operators that a term is built with. -/
def operators : Term → List Operator
  | expr e => e.operators
  | stmt s => s.operators

/-- Whether there is a condition in the term. -/
def hasTest : Term → Bool
  | expr _ => false
  | stmt s => s.hasTest

/-- A step of a term brings **no new operators and no first condition**. -/
theorem parts_subset_of_reduce {t u : Term} {env env' : Environment}
    (h : t.reduce env = .ok (u, env')) :
    u.operators ⊆ t.operators ∧ (u.hasTest = true → t.hasTest = true) := by
  rcases eq_or_step_of_reduce h with ⟨rfl, -⟩ | hstep
  · exact ⟨List.Subset.refl _, id⟩
  · cases hstep with
    | expr hstep => exact ⟨Expr.gathers_operators.subset_of_step hstep, id⟩
    | stmt hstep =>
      exact ⟨Stmt.gathers_operators.subset_of_step hstep, hstep.hasTest_of_hasTest⟩

end Term

/-! ### What a fault is about -/

namespace Fault

/-- What the fault is about is in the term, and the environment does not speak against it. -/
def FoundIn (t : Term) (env : Environment) : Fault → Prop
  | unbound x => x ∈ t.reads ∧ env.get? x = none
  | operands op _ _ => op ∈ t.operators
  | condition _ => t.hasTest = true
  | notValue _ => False

variable {f : Fault} {t u : Term} {env : Environment}

/-- What is found in a part of a program is found in the program. -/
theorem FoundIn.mono (h : f.FoundIn t env) (hreads : t.reads ⊆ u.reads)
    (hoperators : t.operators ⊆ u.operators) (htest : t.hasTest = true → u.hasTest = true) :
    f.FoundIn u env := by
  cases f with
  | unbound x => exact ⟨hreads h.1, h.2⟩
  | operands op left right => exact hoperators h
  | condition kind => exact htest h
  | notValue e => exact h.elim

/-- A variable that is unbound after an overlay was unbound before it. -/
theorem FoundIn.of_merge {bs : Bindings} (h : f.FoundIn t (env.merge bs)) : f.FoundIn t env := by
  cases f with
  | unbound x => exact ⟨h.1, (Environment.get?_merge_eq_none_iff.1 h.2).2⟩
  | operands op left right => exact h
  | condition kind => exact h
  | notValue e => exact h.elim

end Fault

/-! ### Steps that fail -/

section

variable {f : Fault} {env : Environment}

/-- What the fault of a step is about is in the expression. -/
theorem Expr.foundIn_of_reduce {e : Expr} (h : e.reduce env = .error f) :
    f.FoundIn (.expr e) env := by
  induction e using redexInduction with
  | literal v => cases h
  | var name =>
    obtain ⟨hunbound, rfl⟩ := Environment.lookup_eq_error_iff.1 (Except.map_eq_error_iff.1 h)
    exact ⟨List.mem_singleton_self name, hunbound⟩
  | left op left right hl ih =>
    rw [reduce_binary_left hl] at h
    have hleft := ih (Except.map_eq_error_iff.1 h)
    refine hleft.mono (List.subset_append_left _ _) ?_ id
    exact List.subset_cons_of_subset op (List.subset_append_left _ _)
  | right op a right hr ih =>
    rw [reduce_binary_right hr] at h
    have hright := ih (Except.map_eq_error_iff.1 h)
    exact hright.mono (List.subset_append_right _ _) (List.subset_cons_self op _) id
  | apply op a b =>
    rw [reduce_binary_literal] at h
    obtain ⟨-, rfl⟩ := Operator.apply_eq_error_iff.1 (Except.map_eq_error_iff.1 h)
    exact List.mem_cons_self

/-- What the fault of a step is about is in the statement. -/
theorem Stmt.foundIn_of_reduce {s : Stmt} (h : s.reduce env = .error f) :
    f.FoundIn (.stmt s) env := by
  induction s using redexInduction with
  | doNothing => cases h
  | assignExpr name expr he =>
    rw [reduce_assign_expr he] at h
    have hexpr := Expr.foundIn_of_reduce (Except.map_eq_error_iff.1 h)
    exact hexpr.mono (List.Subset.refl _) (List.Subset.refl _) id
  | assignLiteral name v =>
    rw [reduce_assign_literal] at h
    cases h
  | branchCondition condition consequence alternative hc =>
    rw [reduce_branch_condition hc] at h
    have hcondition := Expr.foundIn_of_reduce (Except.map_eq_error_iff.1 h)
    exact hcondition.mono (List.subset_append_left _ _) (List.subset_append_left _ _) fun _ => rfl
  | branchLiteral v consequence alternative =>
    rw [reduce_branch_literal] at h
    obtain ⟨-, rfl⟩ := Value.truth_eq_error_iff.1 (Except.map_eq_error_iff.1 h)
    rfl
  | seqFirst first second hf ih =>
    rw [reduce_seq_first hf] at h
    have hfirst := ih (Except.map_eq_error_iff.1 h)
    refine hfirst.mono (List.subset_append_left _ _) (List.subset_append_left _ _) ?_
    intro htest
    exact Bool.or_eq_true_iff.2 (.inl htest)
  | seqDoNothing second => cases h
  | loop condition body => cases h

/-- What the fault of a step is about is in the term. -/
theorem Term.foundIn_of_reduce {t : Term} (h : t.reduce env = .error f) : f.FoundIn t env := by
  cases t with
  | expr e => exact Expr.foundIn_of_reduce (Except.map_eq_error_iff.1 h)
  | stmt s => exact Stmt.foundIn_of_reduce (Except.map_eq_error_iff.1 h)

end

/-! ### Runs that fail -/

namespace State

variable {s t : State} {n : Nat} {f : Fault}

/-- A run brings nothing new into a program. -/
theorem parts_subset_of_after (h : s.after n = .ok t) :
    t.term.reads ⊆ s.term.reads ∧ t.term.operators ⊆ s.term.operators ∧
      (t.term.hasTest = true → s.term.hasTest = true) := by
  induction n generalizing s with
  | zero =>
    obtain rfl := Except.ok.inj h
    exact ⟨List.Subset.refl _, List.Subset.refl _, id⟩
  | succ n ih =>
    obtain ⟨u, hu, hut⟩ := after_succ_eq_ok_iff.1 h
    obtain ⟨⟨term, env⟩, hred, rfl⟩ := Except.map_eq_ok_iff.1 hu
    obtain ⟨hreads, -⟩ := Term.names_subset_of_reduce hred
    obtain ⟨hoperators, htest⟩ := Term.parts_subset_of_reduce hred
    obtain ⟨hreads', hoperators', htest'⟩ := ih hut
    exact ⟨List.Subset.trans hreads' hreads, List.Subset.trans hoperators' hoperators,
      fun h => htest (htest' h)⟩

/-- What the fault of a run is about is in the program **as it was at first**. -/
theorem FailsIn.foundIn (h : s.FailsIn n t f) : f.FoundIn s.term s.env := by
  have hstep : f.FoundIn t.term t.env :=
    Term.foundIn_of_reduce (Except.map_eq_error_iff.1 h.step_eq)
  obtain ⟨hreads, hoperators, htest⟩ := parts_subset_of_after h.after_eq
  rw [env_after h.after_eq] at hstep
  exact hstep.of_merge.mono hreads hoperators htest

/-- A run fails for an unbound variable only if **none of its bindings** so far was one of that
variable. -/
theorem FailsIn.unbound {x : String} (h : s.FailsIn n t (.unbound x)) :
    x ∉ Bindings.names (s.bindings n) ∧ t.env.get? x = none := by
  obtain ⟨-, hunbound⟩ := Term.foundIn_of_reduce (Except.map_eq_error_iff.1 h.step_eq)
  refine ⟨?_, hunbound⟩
  rw [env_after h.after_eq, Environment.get?_merge_eq_none_iff] at hunbound
  exact hunbound.1

/-- A run has only genuine faults, as evaluation has. -/
theorem FailsIn.genuine (h : s.FailsIn n t f) : f.Genuine := by
  obtain ⟨fuel, hq⟩ := exists_failsIn_iff.1 ⟨n, t, h⟩
  obtain ⟨term, env⟩ := s
  cases term with
  | expr e =>
    have herr : (e.evaluate env).map Outcome.value = .error f := Option.some.inj hq
    exact Expr.genuine_of_evaluate (Except.map_eq_error_iff.1 herr)
  | stmt p =>
    obtain ⟨r, hr, herr⟩ := Option.map_eq_some_iff.1 hq
    obtain rfl := Except.map_eq_error_iff.1 herr
    exact Stmt.Yields.genuine ⟨fuel, hr⟩

/-- What is reported is genuine, and about something in the program. -/
theorem Reports.genuine_and_foundIn {settings : Settings} (h : s.Reports settings (.fault f)) :
    f.Genuine ∧ f.FoundIn s.term s.env := by
  obtain ⟨n, t, hf⟩ := reports_fault_iff.1 h
  exact ⟨hf.genuine, hf.foundIn⟩

end State

/-! ### Unbound variables and mismatches -/

/-- **Unbound variables are unbound from the start.** When any operation reports that `x` is not
bound, then

* the program reads `x` somewhere, and its environment does not bind it;
* the run fails for it, none of the assignments executed up to there is one to `x`, and `x` is not
  bound in the state that the run fails in.

So a program whose variables are all bound never fails like that, whatever it assigns. -/
theorem Term.unbound_fault_origin (settings : Settings) (t : Term) (env : Environment) :
    let s : State := ⟨t, env⟩
    (∀ x, s.Reports settings (.fault (.unbound x)) →
      x ∈ t.reads ∧ env.contains x = false ∧
      ∃ n u, s.FailsIn n u (.unbound x) ∧ x ∉ Bindings.names (s.bindings n) ∧
        u.env.contains x = false) ∧
    ((∀ x ∈ t.reads, env.contains x = true) →
      ∀ x, ¬s.Reports settings (.fault (.unbound x))) := by
  intro s
  have origin : ∀ x, s.Reports settings (.fault (.unbound x)) →
      x ∈ t.reads ∧ env.contains x = false := by
    intro x hx
    obtain ⟨hread, hunbound⟩ := hx.genuine_and_foundIn.2
    exact ⟨hread, Environment.contains_eq_false_iff.2 hunbound⟩
  refine ⟨fun x hx => ?_, fun hbound x hx => ?_⟩
  · obtain ⟨hread, hunbound⟩ := origin x hx
    obtain ⟨n, u, hu⟩ := State.reports_fault_iff.1 hx
    obtain ⟨hnew, hlast⟩ := hu.unbound
    exact ⟨hread, hunbound, n, u, hu, hnew, Environment.contains_eq_false_iff.2 hlast⟩
  · obtain ⟨hread, hunbound⟩ := origin x hx
    exact Bool.false_ne_true (hunbound.symm.trans (hbound x hread))

/-- A loop whose body reads `y` in the second round only. The fault comes then, unless `y` is bound
before the first one. -/
example :
    let body : Stmt := .seq
      (.branch (.binary .lessThan (.literal (.number 0)) (.var "i"))
        (.assign "z" (.var "y")) .doNothing)
      (.assign "i" (.binary .add (.var "i") (.literal (.number 1))))
    let program : Stmt := .loop (.binary .lessThan (.var "i") (.literal (.number 2))) body
    let env := Environment.empty.bind "i" (.number 0)
    program.evaluate 3 env = some (.error (.unbound "y")) ∧
      program.evaluate 3 (env.bind "y" (.number 7)) = some (.ok (Environment.ofList
        [("i", .number 2), ("y", .number 7), ("z", .number 7)])) :=
  ⟨rfl, rfl⟩

/-- **Only genuine mismatches are reported.** A fault that any operation reports is one of three: an
unbound variable; an operator of the program that has a truth value among its operands; or a
condition that is a number, where the program has a branching or a loop. It is worded accordingly.

* So no cast to a literal is ever reported. It succeeds on every expression without a step to take,
  and the outcome of every terminal state can be read off.
* A refusal is reported only under the limit that it names. -/
theorem Term.mismatches_are_genuine (settings : Settings) (t : Term) (env : Environment) :
    let s : State := ⟨t, env⟩
    (∀ f, s.Reports settings (.fault f) →
      (∃ x, f = .unbound x) ∨
      (∃ op left right, f = .operands op left right ∧
        f.message = "type mismatch: operator '" ++ op.symbol ++ "' expects two numbers, got "
          ++ left.name ++ " and " ++ right.name ∧
        op ∈ t.operators ∧ (left = .bool ∨ right = .bool)) ∨
      (f = .condition .number ∧ f.message = "type mismatch: condition must be bool, got number" ∧
        t.hasTest = true)) ∧
    (∀ e, ¬s.Reports settings (.fault (.notValue e)) ∧
      ∀ x, env.lookup x ≠ .error (.notValue e)) ∧
    (∀ e : Expr, e.reducible = false → ∃ v, e = .literal v ∧ e.operand = .ok v) ∧
    (∀ n u, s.after n = .ok u → u.terminal = true → ∃ o, u.outcome = .ok o) ∧
    (∀ limit, s.Reports settings (.exhausted limit) → settings.limit = some limit) := by
  intro s
  refine ⟨fun f hf => ?kinds, fun e => ⟨fun he => ?notValue, fun x hx => ?lookup⟩,
    fun e he => Expr.exists_operand_eq_ok he, fun n u _ hu => State.exists_outcome_eq_ok hu,
    fun limit h => h.limit_eq⟩
  case kinds =>
    obtain ⟨hgenuine, hfound⟩ := hf.genuine_and_foundIn
    cases f with
    | unbound x => exact .inl ⟨x, rfl⟩
    | operands op left right =>
      exact .inr (.inl ⟨op, left, right, rfl, Fault.message_operands op left right, hfound,
        hgenuine⟩)
    | condition kind =>
      obtain rfl : kind = .number := hgenuine
      exact .inr (.inr ⟨rfl, rfl, hfound⟩)
    | notValue e => exact hgenuine.elim
  case notValue => exact he.genuine_and_foundIn.1
  case lookup =>
    obtain ⟨-, heq⟩ := Environment.lookup_eq_error_iff.1 hx
    cases heq

end WhileLang
