import WhileLang.Proofs.Iterates
import WhileLang.Proofs.Rules

/-!
# A step is worth one

The rules of `WhileLang.Proofs.Rules` and the steps of reduction are joined here. One step of
a statement keeps the result that the rules derive and takes **exactly one** off the count
(`Stmt.Step.finishes_iff`); a statement that cannot step finishes at once, with the fault
that stops it (`Stmt.finishes_iff_of_reduce_error`). The one goes by the rules of reduction, the
other by induction along the redex, and loops need no induction of their own, as their rule is
their reduction.

Whole runs follow by induction on the count. `State.endsIn_iff_finishes` says that a run ends
after `n` steps with `r` exactly when the rules derive `r` with the count `n`, and
`State.exists_endsIn_iff` that some run ends with `r` exactly when evaluation finds `r`.
-/

namespace WhileLang

/-! ### Steps of expressions -/

namespace Expr

variable {e e' : Expr} {env env' : Environment} {f : Fault}

/-- A step of an expression keeps its value. -/
theorem Step.evaluate_eq (h : e.Step env e' env') : e'.evaluate env' = e.evaluate env := by
  induction h with
  | var hv => exact hv.symm
  | left hstep ih =>
    obtain rfl := hstep.env_eq
    rw [evaluate, evaluate, ih]
  | right hstep ih =>
    obtain rfl := hstep.env_eq
    simp only [evaluate, ih]
  | apply hv => exact hv.symm

/-- A step of an expression takes **exactly one** off its count. -/
theorem Step.steps_eq (h : e.Step env e' env') : e.steps env = e'.steps env' + 1 := by
  induction h with
  | var hv => simp [steps, hv]
  | left hstep ih =>
    have hval := hstep.evaluate_eq
    obtain rfl := hstep.env_eq
    -- the count of the left operand is a summand however the rest turns out
    rw [steps, steps, hval, ih]
    split
    · rfl
    · split
      · omega
      · split <;> omega
  | right hstep ih =>
    have hval := hstep.evaluate_eq
    obtain rfl := hstep.env_eq
    simp only [steps, evaluate, hval, ih]
    split
    · omega
    · split <;> omega
  | apply hv => simp [evaluate, steps, hv]

/-- An expression that cannot step evaluates to the fault that stops it, at no count. -/
theorem evaluate_of_reduce_error (h : e.reduce env = .error f) :
    e.evaluate env = .error f ∧ e.steps env = 0 := by
  induction e using redexInduction with
  | literal v => cases h
  | var name =>
    have hf := Except.map_eq_error_iff.1 h
    exact ⟨hf, by simp [steps, hf]⟩
  | left op left right hl ih =>
    rw [reduce_binary_left hl] at h
    obtain ⟨hval, hcount⟩ := ih (Except.map_eq_error_iff.1 h)
    constructor
    · rw [evaluate, hval]
      rfl
    · simp [steps, hval, hcount]
  | right op a right hr ih =>
    rw [reduce_binary_right hr] at h
    obtain ⟨hval, hcount⟩ := ih (Except.map_eq_error_iff.1 h)
    constructor
    · rw [evaluate, evaluate, hval]
      rfl
    · simp [steps, evaluate, hval, hcount]
  | apply op a b =>
    rw [reduce_binary_literal] at h
    have hf := Except.map_eq_error_iff.1 h
    exact ⟨hf, by simp [evaluate, steps, hf]⟩

/-- A step of a condition keeps its truth. -/
theorem Step.holds_eq (h : e.Step env e' env') : e'.holds env' = e.holds env := by
  rw [holds, holds, h.evaluate_eq]

/-- A condition that cannot step fails with the fault that stops it. -/
theorem holds_of_reduce_error (h : e.reduce env = .error f) : e.holds env = .error f := by
  rw [holds, (evaluate_of_reduce_error h).1]
  rfl

end Expr

/-! ### Steps of statements -/

namespace Stmt

variable {s t : Stmt} {env env' : Environment} {n : Nat} {r : Except Fault Environment}

/-- A step of a statement keeps its result and takes **exactly one** off its count. -/
theorem Step.finishes_iff (h : s.Step env t env') :
    s.Finishes env n r ↔ ∃ k, n = k + 1 ∧ t.Finishes env' k r := by
  induction h generalizing n r with
  | assignExpr hexpr =>
    have hval := hexpr.evaluate_eq
    have hcount := hexpr.steps_eq
    obtain rfl := hexpr.env_eq
    simp only [finishes_assign_iff, hval, hcount]
    constructor
    · rintro (⟨v, hv, rfl, rfl⟩ | ⟨f, hf, rfl, rfl⟩)
      · exact ⟨_, rfl, .inl ⟨v, hv, rfl, rfl⟩⟩
      · exact ⟨_, rfl, .inr ⟨f, hf, rfl, rfl⟩⟩
    · rintro ⟨k, rfl, ⟨v, hv, rfl, rfl⟩ | ⟨f, hf, rfl, rfl⟩⟩
      · exact .inl ⟨v, hv, rfl, rfl⟩
      · exact .inr ⟨f, hf, rfl, rfl⟩
  | @assignLiteral _ v _ =>
    simp only [finishes_assign_iff, finishes_doNothing_iff, Expr.evaluate, Expr.steps]
    constructor
    · rintro (⟨_, ⟨⟩, rfl, rfl⟩ | ⟨f, ⟨⟩, -⟩)
      exact ⟨0, rfl, rfl, rfl⟩
    · rintro ⟨_, rfl, rfl, rfl⟩
      exact .inl ⟨v, rfl, rfl, rfl⟩
  | branchCondition hcondition =>
    have hholds := hcondition.holds_eq
    have hcount := hcondition.steps_eq
    obtain rfl := hcondition.env_eq
    simp only [finishes_branch_iff, hholds, hcount]
    constructor
    · rintro (⟨truth, k, ht, rfl, hk⟩ | ⟨f, hf, rfl, rfl⟩)
      · exact ⟨_, by omega, .inl ⟨truth, k, ht, rfl, hk⟩⟩
      · exact ⟨_, rfl, .inr ⟨f, hf, rfl, rfl⟩⟩
    · rintro ⟨m, rfl, ⟨truth, k, ht, rfl, hk⟩ | ⟨f, hf, rfl, rfl⟩⟩
      · exact .inl ⟨truth, k, ht, by omega, hk⟩
      · exact .inr ⟨f, hf, rfl, rfl⟩
  | @branchLiteral truth _ _ env =>
    have hh : (Expr.literal (.bool truth)).holds env = .ok truth := rfl
    simp [finishes_branch_iff, hh, Expr.steps, Nat.add_comm]
  | seqFirst _ ih =>
    -- the step taken off the first part comes off the sequence too
    simp only [finishes_seq_iff, ih]
    constructor
    · rintro (⟨_, k, env₂, ⟨m, rfl, hm⟩, hk, rfl⟩ | ⟨f, ⟨m, rfl, hm⟩, rfl⟩)
      · exact ⟨_, by omega, .inl ⟨m, k, env₂, hm, hk, rfl⟩⟩
      · exact ⟨m, rfl, .inr ⟨f, hm, rfl⟩⟩
    · rintro ⟨_, rfl, ⟨m, k, env₂, hm, hk, rfl⟩ | ⟨f, hm, rfl⟩⟩
      · exact .inl ⟨m + 1, k, env₂, ⟨m, rfl, hm⟩, hk, by omega⟩
      · exact .inr ⟨f, ⟨_, rfl, hm⟩, rfl⟩
  | @seqDoNothing _ env =>
    simp only [finishes_seq_iff, finishes_doNothing_iff]
    constructor
    · rintro (⟨_, k, _, ⟨rfl, ⟨⟩⟩, hk, rfl⟩ | ⟨f, ⟨-, ⟨⟩⟩, -⟩)
      exact ⟨k, by omega, hk⟩
    · rintro ⟨k, rfl, hk⟩
      exact .inl ⟨0, k, env, ⟨rfl, rfl⟩, hk, by omega⟩
  | loop =>
    -- no induction on rounds: the rule of a loop is its reduction
    exact finishes_loop_iff

/-- A statement that cannot step finishes with the fault that stops it, at no count. -/
theorem finishes_iff_of_reduce_error {f : Fault} (h : s.reduce env = .error f) :
    s.Finishes env n r ↔ n = 0 ∧ r = .error f := by
  induction s using redexInduction generalizing n r with
  | doNothing => cases h
  | assignExpr name expr he =>
    rw [reduce_assign_expr he] at h
    obtain ⟨hval, hcount⟩ := Expr.evaluate_of_reduce_error (Except.map_eq_error_iff.1 h)
    simp [finishes_assign_iff, hval, hcount]
  | assignLiteral name v =>
    rw [reduce_assign_literal] at h
    cases h
  | branchCondition condition consequence alternative hc =>
    rw [reduce_branch_condition hc] at h
    have hred := Except.map_eq_error_iff.1 h
    simp [finishes_branch_iff, Expr.holds_of_reduce_error hred,
      (Expr.evaluate_of_reduce_error hred).2]
  | branchLiteral v consequence alternative =>
    rw [reduce_branch_literal] at h
    have hh : (Expr.literal v).holds env = .error f := Except.map_eq_error_iff.1 h
    simp [finishes_branch_iff, hh, Expr.steps]
  | seqFirst first second hf ih =>
    rw [reduce_seq_first hf] at h
    have hred := Except.map_eq_error_iff.1 h
    simp only [finishes_seq_iff, ih hred]
    constructor
    · rintro (⟨_, k, env', ⟨-, ⟨⟩⟩, -⟩ | ⟨_, ⟨rfl, ⟨⟩⟩, rfl⟩)
      exact ⟨rfl, rfl⟩
    · rintro ⟨rfl, rfl⟩
      exact .inr ⟨f, ⟨rfl, rfl⟩, rfl⟩
  | seqDoNothing second => cases h
  | loop condition body => cases h

end Stmt

/-! ### States -/

namespace State

/-- A state finishes with a result, after a number of steps. -/
def Finishes (s : State) (n : Nat) (r : Except Fault Outcome) : Prop :=
  match s.term with
  | .expr e => n = e.steps s.env ∧ r = (e.evaluate s.env).map .value
  | .stmt p => ∃ q, p.Finishes s.env n q ∧ r = q.map .environment

variable {s t : State} {n : Nat} {r : Except Fault Outcome} {f : Fault}

/-- States finish **exactly with the results of evaluation**. -/
theorem exists_finishes_iff :
    (∃ n, s.Finishes n r) ↔ ∃ fuel, s.term.evaluate fuel s.env = some r := by
  obtain ⟨term, env⟩ := s
  cases term with
  | expr e =>
    constructor
    · rintro ⟨n, -, rfl⟩
      exact ⟨0, rfl⟩
    · rintro ⟨fuel, h⟩
      exact ⟨_, rfl, (Option.some.inj h).symm⟩
  | stmt p =>
    constructor
    · rintro ⟨n, q, hq, rfl⟩
      obtain ⟨fuel, hfuel⟩ := hq.exists_evaluate_eq
      exact ⟨fuel, Option.map_eq_some_iff.2 ⟨q, hfuel, rfl⟩⟩
    · rintro ⟨fuel, h⟩
      obtain ⟨q, hq, rfl⟩ := Option.map_eq_some_iff.1 h
      obtain ⟨n, hn⟩ := Stmt.exists_finishes_of_evaluate hq
      exact ⟨n, q, hn, rfl⟩

/-- A terminal state finishes at once with its outcome. -/
theorem finishes_iff_of_terminal (h : s.terminal = true) :
    s.Finishes n r ↔ n = 0 ∧ r = s.outcome := by
  obtain ⟨term, env⟩ := s
  cases term with
  | expr e =>
    obtain ⟨v, rfl⟩ := Expr.reducible_eq_false_iff.1 (terminal_eq_true_iff.1 h)
    exact Iff.rfl
  | stmt p =>
    obtain rfl := Stmt.reducible_eq_false_iff.1 (terminal_eq_true_iff.1 h)
    constructor
    · rintro ⟨q, hq, rfl⟩
      obtain ⟨rfl, rfl⟩ := Stmt.finishes_doNothing_iff.1 hq
      exact ⟨rfl, rfl⟩
    · rintro ⟨rfl, rfl⟩
      exact ⟨.ok env, .doNothing, rfl⟩

/-- A state that cannot step finishes at once with the fault that stops it. -/
theorem finishes_iff_of_step_error (h : s.step = .error f) :
    s.Finishes n r ↔ n = 0 ∧ r = .error f := by
  obtain ⟨term, env⟩ := s
  have hred := Except.map_eq_error_iff.1 h
  cases term with
  | expr e =>
    obtain ⟨hval, hcount⟩ := Expr.evaluate_of_reduce_error (Except.map_eq_error_iff.1 hred)
    simp only [Finishes, hval, hcount]
    exact Iff.rfl
  | stmt p =>
    simp only [Finishes, Stmt.finishes_iff_of_reduce_error (Except.map_eq_error_iff.1 hred)]
    constructor
    · rintro ⟨_, ⟨rfl, rfl⟩, rfl⟩
      exact ⟨rfl, rfl⟩
    · rintro ⟨rfl, rfl⟩
      exact ⟨_, ⟨rfl, rfl⟩, rfl⟩

/-- A step of a state keeps its result and takes **exactly one** off its count. -/
theorem finishes_iff_of_step_ok (hs : s.terminal = false) (h : s.step = .ok t) :
    s.Finishes n r ↔ ∃ k, n = k + 1 ∧ t.Finishes k r := by
  obtain ⟨term, env⟩ := s
  cases term with
  | expr e =>
    have he : e.reducible = true := terminal_eq_false_iff.1 hs
    obtain ⟨e', hred, rfl⟩ := exists_reduce_of_step_expr h
    have hstep := Expr.step_of_reduce he hred
    simp only [Finishes, hstep.evaluate_eq, hstep.steps_eq]
    constructor
    · rintro ⟨rfl, rfl⟩
      exact ⟨_, rfl, rfl, rfl⟩
    · rintro ⟨k, rfl, rfl, rfl⟩
      exact ⟨rfl, rfl⟩
  | stmt p =>
    have hp : p.reducible = true := terminal_eq_false_iff.1 hs
    obtain ⟨p', env', hred, rfl⟩ := exists_reduce_of_step_stmt h
    simp only [Finishes, (Stmt.step_of_reduce hp hred).finishes_iff]
    constructor
    · rintro ⟨q, ⟨k, rfl, hk⟩, rfl⟩
      exact ⟨k, rfl, q, hk, rfl⟩
    · rintro ⟨k, rfl, q, hk, rfl⟩
      exact ⟨q, ⟨k, rfl, hk⟩, rfl⟩

/-! ### Whole runs -/

/-- A run **ends after `n` steps with `r`** exactly when the rules derive `r` with the count
`n`. -/
theorem endsIn_iff_finishes : s.EndsIn n r ↔ s.Finishes n r := by
  -- both sides obey the same three equations, one for each way a state can begin its run
  induction n using Nat.strongRecOn generalizing s with
  | ind n ih =>
    cases hs : s.terminal with
    | true => rw [endsIn_iff_of_terminal hs, finishes_iff_of_terminal hs]
    | false =>
      cases hstep : s.step with
      | error f => rw [endsIn_iff_of_step_error hstep, finishes_iff_of_step_error hstep]
      | ok t =>
        rw [endsIn_iff_of_step_ok hs hstep, finishes_iff_of_step_ok hs hstep]
        exact exists_congr fun k => and_congr_right fun hk => ih k (by omega)

/-- The run of a statement halts only with the statement finished. -/
theorem exists_eq_of_haltsIn {p : Stmt} {env : Environment}
    (h : HaltsIn ⟨.stmt p, env⟩ n t) : ∃ env', t = ⟨.stmt .doNothing, env'⟩ := by
  obtain ⟨o, ho⟩ := exists_outcome_eq_ok h.terminal
  obtain ⟨q, -, hq⟩ := endsIn_iff_finishes.1 (.inl ⟨t, h, ho⟩)
  obtain ⟨env', -, rfl⟩ := Except.map_eq_ok_iff.1 hq.symm
  exact ⟨env', (outcome_eq_environment_iff h.terminal).1 ho⟩

/-- A statement finishes with an environment exactly when its run halts in it. -/
theorem finishes_ok_iff_haltsIn {p : Stmt} {env env' : Environment} :
    p.Finishes env n (.ok env') ↔ HaltsIn ⟨.stmt p, env⟩ n ⟨.stmt .doNothing, env'⟩ := by
  constructor
  · intro h
    have hfin : Finishes ⟨.stmt p, env⟩ n (.ok (.environment env')) := ⟨.ok env', h, rfl⟩
    rcases endsIn_iff_finishes.2 hfin with ⟨t, ht, hout⟩ | ⟨t, f, -, herr⟩
    · exact (outcome_eq_environment_iff ht.terminal).1 hout ▸ ht
    · cases herr
  · intro h
    have hend : EndsIn ⟨.stmt p, env⟩ n (.ok (.environment env')) := .inl ⟨_, h, rfl⟩
    obtain ⟨q, hq, hout⟩ := endsIn_iff_finishes.1 hend
    obtain ⟨e, rfl, he⟩ := Except.map_eq_ok_iff.1 hout.symm
    obtain rfl := Outcome.environment.inj he
    exact hq

/-- A statement yields an environment exactly when some run of it halts in it. -/
theorem yields_ok_iff_exists_haltsIn {p : Stmt} {env env' : Environment} :
    p.Yields env (.ok env') ↔ ∃ n, HaltsIn ⟨.stmt p, env⟩ n ⟨.stmt .doNothing, env'⟩ := by
  simp only [Stmt.yields_iff_exists_finishes, finishes_ok_iff_haltsIn]

/-- **Runs and evaluation have the same results.** -/
theorem exists_endsIn_iff :
    (∃ n, s.EndsIn n r) ↔ ∃ fuel, s.term.evaluate fuel s.env = some r := by
  simp only [endsIn_iff_finishes, exists_finishes_iff]

/-- A run fails with **the faults that evaluation finds**. -/
theorem exists_failsIn_iff :
    (∃ n t, s.FailsIn n t f) ↔ ∃ fuel, s.term.evaluate fuel s.env = some (.error f) := by
  rw [← exists_endsIn_iff]
  constructor
  · rintro ⟨n, t, h⟩
    exact ⟨n, .inr ⟨t, f, h, rfl⟩⟩
  · rintro ⟨n, ⟨t, ht, hout⟩ | ⟨t, g, hg, heq⟩⟩
    · -- the outcome of a terminal state can always be read off
      obtain ⟨o, ho⟩ := exists_outcome_eq_ok ht.terminal
      cases ho.symm.trans hout
    · obtain rfl := Except.error.inj heq
      exact ⟨n, t, hg⟩

section Expressions

variable {e : Expr} {env : Environment} {v : Value}

/-- The run of an expression ends after its steps, with its value or its fault. -/
theorem endsIn_expr (e : Expr) (env : Environment) :
    EndsIn ⟨.expr e, env⟩ (e.steps env) ((e.evaluate env).map .value) :=
  endsIn_iff_finishes.2 ⟨rfl, rfl⟩

/-- The run of an expression that has a value halts with that value. -/
theorem exists_haltsIn_steps (h : e.evaluate env = .ok v) :
    ∃ t, HaltsIn ⟨.expr e, env⟩ (e.steps env) t ∧ t.term = .expr (.literal v) := by
  have hend := endsIn_expr e env
  rw [h] at hend
  obtain ⟨t, ht, hout⟩ | ⟨t, f, -, herr⟩ := hend
  · exact ⟨t, ht, outcome_eq_value_iff.1 hout⟩
  · cases herr

end Expressions

end State

end WhileLang
