import WhileLang.Proofs.Growth
import WhileLang.Proofs.LoopFree
import WhileLang.Proofs.SequenceTrace

/-!
# Fixed points of reduction

A finished term steps to itself. It is the only kind of term that does so: a term with a step to
take either fails or becomes **a different term**. `reducible` sees no further than the outermost
constructor, while the step is taken at the redex, deep inside, so the change there has to be
carried outwards.

* At the redex, an expression uses up a variable or an operator (`Expr.Step.ne`), a branching
  or a sequence gives way to a proper part of itself, and a loop turns into a branching.
* Around the redex everything stays, so the whole changes with the part (`Stmt.Step.ne`).

Runs and traces therefore never idle. Two states that follow one another have the same term
exactly when the first one is terminal (`State.term_eq_iff_of_step`), and nothing goes on from
there: neither a run (`Machine.Advances.term_ne`) nor a trace (`Trace.term_ne_of_answer`).
-/

namespace WhileLang

/-! ### Terms -/

/-- A step of an expression changes it: **less of it is left to do**. -/
theorem Expr.Step.ne {e e' : Expr} {env env' : Environment} (h : e.Step env e' env') : e' ≠ e := by
  have hcost := h.cost_eq
  refine ne_of_apply_ne cost ?_
  omega

namespace Stmt

variable {s t : Stmt} {env env' : Environment}

/-- No branching is one of its own branches: **those are smaller**. -/
theorem ite_ne_branch (truth : Bool) (condition : Expr) (consequence alternative : Stmt) :
    (if truth then consequence else alternative) ≠ branch condition consequence alternative := by
  refine ne_of_apply_ne size (Nat.ne_of_lt ?_)
  rw [size]
  cases truth with
  | true =>
    rw [if_pos rfl]
    omega
  | false =>
    rw [if_neg Bool.false_ne_true]
    omega

/-- No sequence is its own second part, which is smaller. -/
theorem second_ne_seq (first second : Stmt) : second ≠ seq first second := by
  refine ne_of_apply_ne size (Nat.ne_of_lt ?_)
  rw [size]
  omega

/-- A step of a statement **changes it**. -/
theorem Step.ne (h : s.Step env t env') : t ≠ s := by
  -- where a rule steps a part, what is around it is the same on both sides
  induction h with
  | assignExpr hexpr =>
    intro heq
    exact hexpr.ne (assign.inj heq).2
  | assignLiteral => exact nofun
  | branchCondition hcondition =>
    intro heq
    exact hcondition.ne (branch.inj heq).1
  | branchLiteral => exact ite_ne_branch _ _ _ _
  | seqFirst _ ih =>
    intro heq
    exact ih (seq.inj heq).1
  | seqDoNothing => exact second_ne_seq _ _
  | loop => exact nofun

end Stmt

/-- A step of a term changes it, be it of an expression or of a statement. -/
theorem Term.Step.ne {t u : Term} {env env' : Environment} (h : t.Step env u env') : u ≠ t := by
  cases h with
  | expr hstep =>
    intro heq
    exact hstep.ne (Term.expr.inj heq)
  | stmt hstep =>
    intro heq
    exact hstep.ne (Term.stmt.inj heq)

/-- A step leads from a term to the same term **exactly when that is finished**. -/
theorem Term.eq_iff_of_reduce {t u : Term} {env env' : Environment}
    (h : t.reduce env = .ok (u, env')) : u = t ↔ t.reducible = false := by
  constructor
  · intro heq
    refine Bool.eq_false_iff.2 fun ht => ?_
    exact (step_of_reduce ht h).ne heq
  · intro ht
    rw [reduce_of_not_reducible ht] at h
    exact (Prod.mk.inj (Except.ok.inj h)).1.symm

/-! ### Runs -/

namespace State

variable {s t u : State} {n : Nat}

/-- A step leads from a state to one with the same term exactly when the state is terminal. -/
theorem term_eq_iff_of_step (h : s.step = .ok t) : t.term = s.term ↔ s.terminal = true := by
  obtain ⟨⟨term, env⟩, hred, rfl⟩ := Except.map_eq_ok_iff.1 h
  rw [terminal_eq_true_iff]
  exact Term.eq_iff_of_reduce hred

/-- So a step from a state that is not terminal changes the term. -/
theorem term_ne_of_step (hs : s.terminal = false) (h : s.step = .ok t) : t.term ≠ s.term := by
  intro heq
  have hterm : s.terminal = true := (term_eq_iff_of_step h).1 heq
  exact Bool.false_ne_true (hs.symm.trans hterm)

/-- Two iterates in a row have the same term exactly when the first of them is terminal. -/
theorem term_eq_iff_of_after (ht : s.after n = .ok t) (hu : s.after (n + 1) = .ok u) :
    u.term = t.term ↔ t.terminal = true :=
  term_eq_iff_of_step ((after_succ ht).symm.trans hu)

end State

/-- A run **does not idle**: from one machine to the next on its way, the term changes. -/
theorem Machine.Advances.term_ne {m m₁ m₂ : Machine} {n : Nat} (h₁ : m.Advances n m₁)
    (h₂ : m.Advances (n + 1) m₂) : m₂.state.term ≠ m₁.state.term := by
  obtain ⟨t, ht, hlive⟩ := h₂.liveAt n n.lt_succ_self
  obtain rfl : m₁.state = t := Except.ok.inj (h₁.reaches.after_eq.symm.trans ht)
  have hstep : m₁.state.step = .ok m₂.state :=
    (State.after_succ h₁.reaches.after_eq).symm.trans h₂.reaches.after_eq
  exact State.term_ne_of_step hlive hstep

/-! ### Traces -/

/-- What a fresh trace yields after the present state has another term. -/
theorem Machine.term_ne_of_next_trace {m : Machine} {u : State}
    (hu : m.trace.next.1.next.2 = some (.ok u)) : u.term ≠ m.state.term := by
  cases hterm : m.state.terminal with
  | true =>
    -- the present state is the last one
    rw [next_trace_of_terminal hterm, Trace.next_of_over rfl] at hu
    cases hu
  | false =>
    rw [next_trace_of_live hterm] at hu
    cases hres : m.step.result with
    | ok _ =>
      rw [next_underway_of_step_ok hres, (next_trace _).1] at hu
      obtain rfl := Except.ok.inj (Option.some.inj hu)
      obtain ⟨hstep, -⟩ := step_of_result_eq_ok hres
      exact State.term_ne_of_step hterm hstep
    | error stop =>
      rw [next_underway_of_step_error hres] at hu
      cases hu

namespace Trace

variable {t : Trace} {s u : State} {i : Nat}

/-- A request finds the trace as a fresh one of some machine, or leaves it at its end. -/
theorem next_eq_or_over (t : Trace) :
    (∃ m : Machine, t.next = m.trace.next) ∨ t.next.1.phase = .over := by
  match t with
  | ⟨m, .fresh⟩ => exact .inl ⟨m, rfl⟩
  | ⟨m, .underway⟩ =>
    cases hres : m.step.result with
    | ok _ => exact .inl ⟨m.step.machine, Machine.next_underway_of_step_ok hres⟩
    | error stop =>
      rw [Machine.next_underway_of_step_error hres]
      exact .inr rfl
  | ⟨_, .over⟩ => exact .inr rfl

/-- Two requests in a row that yield states yield different terms. -/
theorem term_ne_of_next (hs : t.next.2 = some (.ok s)) (hu : t.next.1.next.2 = some (.ok u)) :
    u.term ≠ s.term := by
  rcases t.next_eq_or_over with ⟨m, hm⟩ | hover
  · rw [hm, (Machine.next_trace m).1] at hs
    rw [hm] at hu
    obtain rfl := Except.ok.inj (Option.some.inj hs)
    exact Machine.term_ne_of_next_trace hu
  · rw [next_of_over hover] at hu
    cases hu

/-- Two answers of a trace in a row that are states have different terms. -/
theorem term_ne_of_answer (hs : t.answer i = some (.ok s))
    (hu : t.answer (i + 1) = some (.ok u)) : u.term ≠ s.term := by
  induction i generalizing t with
  | zero => exact term_ne_of_next hs hu
  | succ i ih =>
    rw [answer_succ] at hs hu
    exact ih hs hu

end Trace

/-! ### Finished terms -/

/-- **Finished terms are exactly the fixed points of reduction.**

* A term without a step to take steps to itself, and leaves the environment as it is.
* A term with a step to take fails, or becomes a different term.
* So no run idles. Two iterates in a row have the same term only where the first is terminal, and
  the machines that a run passes through have different terms from one to the next.
* No trace, wherever it stands, yields two states in a row that have the same term. -/
theorem Term.fixed_points_of_reduction :
    (∀ (t : Term) (env : Environment),
      (t.reducible = false → t.reduce env = .ok (t, env)) ∧
      (t.reducible = true → (∃ f, t.reduce env = .error f) ∨
        ∃ u env', t.reduce env = .ok (u, env') ∧ u ≠ t)) ∧
    (∀ (s t u : State) (n : Nat), s.after n = .ok t → s.after (n + 1) = .ok u →
      (u.term = t.term ↔ t.terminal = true)) ∧
    (∀ (m m₁ m₂ : Machine) (n : Nat), m.Advances n m₁ → m.Advances (n + 1) m₂ →
      m₂.state.term ≠ m₁.state.term) ∧
    ∀ (t : Trace) (i : Nat) (s u : State), t.answer i = some (.ok s) →
      t.answer (i + 1) = some (.ok u) → u.term ≠ s.term := by
  refine ⟨fun t env => ⟨fun ht => reduce_of_not_reducible ht env, fun ht => ?changes⟩,
    fun s t u n => State.term_eq_iff_of_after, fun m m₁ m₂ n => Machine.Advances.term_ne,
    fun t i s u => Trace.term_ne_of_answer⟩
  case changes =>
    match hred : t.reduce env with
    | .error f => exact .inl ⟨f, rfl⟩
    | .ok (u, env') =>
      refine .inr ⟨u, env', rfl, fun heq => ?_⟩
      have hfalse := (eq_iff_of_reduce hred).1 heq
      exact Bool.false_ne_true (hfalse.symm.trans ht)

/-- To have a step to take is not to be able to take it. This sum is not finished, and there is no
environment in which it steps. -/
example (env : Environment) :
    let sum : Expr := .binary .add (.literal (.bool true)) (.literal (.number 1))
    sum.reducible = true ∧ sum.reduce env = .error (.operands .add .bool .number) := ⟨rfl, rfl⟩

/-- A term may come back, but not at once: this loop is itself again after three steps, and has
been two other terms. -/
example :
    let forever : Stmt := .loop (.literal (.bool true)) .doNothing
    let terms : List Stmt := [forever, .unrolled (.literal (.bool true)) .doNothing,
      .seq .doNothing forever, forever]
    (List.range 4).map (fun n => State.after n ⟨.stmt forever, .empty⟩)
      = terms.map fun s => .ok ⟨.stmt s, .empty⟩ := rfl

end WhileLang
