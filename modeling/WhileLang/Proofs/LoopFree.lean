import WhileLang.Proofs.Cost
import WhileLang.Proofs.TraceRun

/-!
# Programs without loops

A statement without loops always comes to an end, and there is a bound on its steps that can be
read off its text: `Stmt.bound` adds up the cost of the parts like `Stmt.cost`, but takes the larger
one of the branches where the cost takes the one that is picked.

* Every step of such a statement leads to another one, and **lowers its bound**
  (`Stmt.LoopFree.of_step`).
* So a state that is live after some steps has had a bound above their number
  (`Stmt.LoopFree.lt_bound`): the run halts by the bound, or it fails below it.
* A limit of at least the bound therefore **covers** the run. It leaves room for a step from every
  live state, also for the one that fails, so that no driver of the machine comes to be refused on
  the way (`Machine.Covers`).
-/

namespace WhileLang

/-! ### The bound -/

namespace Stmt

/-- There is no loop in the statement. -/
def LoopFree : Stmt → Prop
  | doNothing => True
  | assign _ _ => True
  | branch _ consequence alternative => consequence.LoopFree ∧ alternative.LoopFree
  | seq first second => first.LoopFree ∧ second.LoopFree
  | loop _ _ => False

instance decidableLoopFree : (s : Stmt) → Decidable s.LoopFree
  | doNothing => isTrue trivial
  | assign _ _ => isTrue trivial
  | branch _ consequence alternative =>
    have := decidableLoopFree consequence
    have := decidableLoopFree alternative
    inferInstanceAs (Decidable (_ ∧ _))
  | seq first second =>
    have := decidableLoopFree first
    have := decidableLoopFree second
    inferInstanceAs (Decidable (_ ∧ _))
  | loop _ _ => isFalse id

/-- A bound on the steps of a statement without loops. For a loop the number has no meaning. -/
def bound : Stmt → Nat
  | doNothing => 0
  | assign _ expr => expr.cost + 1
  | branch condition consequence alternative =>
    condition.cost + 1 + max consequence.bound alternative.bound
  | seq first second => first.bound + 1 + second.bound
  | loop _ _ => 0

end Stmt

/-! ### Steps -/

/-- A step of an expression uses up **one of its variables and operators**. -/
theorem Expr.Step.cost_eq {e e' : Expr} {env env' : Environment} (h : e.Step env e' env') :
    e.cost = e'.cost + 1 := by
  induction h with
  | var _ => rfl
  | left _ ih =>
    simp only [cost]
    omega
  | right _ ih =>
    simp only [cost]
    omega
  | apply _ => rfl

namespace Stmt.LoopFree

variable {s t : Stmt} {env env' : Environment} {n : Nat} {f : Fault}

/-- What is not finished has a step to count. -/
theorem bound_pos (hs : s.LoopFree) (hred : s.reducible = true) : 0 < s.bound := by
  cases s with
  | doNothing => cases hred
  | loop condition body => exact hs.elim
  | assign name expr => exact Nat.succ_pos _
  | branch condition consequence alternative =>
    rw [bound]
    omega
  | seq first second =>
    rw [bound]
    omega

/-- A step of a statement without loops leads to another one, **with a smaller bound**. -/
theorem of_step (hs : s.LoopFree) (h : s.Step env t env') : t.LoopFree ∧ t.bound < s.bound := by
  induction h with
  | assignExpr hexpr =>
    have hcost := hexpr.cost_eq
    refine ⟨trivial, ?_⟩
    simp only [bound]
    omega
  | assignLiteral => exact ⟨trivial, Nat.succ_pos _⟩
  | branchCondition hcondition =>
    have hcost := hcondition.cost_eq
    refine ⟨hs, ?_⟩
    simp only [bound]
    omega
  | @branchLiteral truth consequence alternative _ =>
    -- whichever branch is picked, the bound has made room for it and for the step
    cases truth with
    | true => exact ⟨hs.1, by simp only [bound, if_true]; omega⟩
    | false => exact ⟨hs.2, by simp only [bound, Bool.false_eq_true, if_false]; omega⟩
  | seqFirst _ ih =>
    obtain ⟨hfree, hlt⟩ := ih hs.1
    refine ⟨⟨hfree, hs.2⟩, ?_⟩
    simp only [bound]
    omega
  | seqDoNothing =>
    refine ⟨hs.2, ?_⟩
    simp only [bound]
    omega
  | loop => exact hs.elim

/-! ### Runs -/

/-- As long as the run is live, it has taken **fewer steps than the bound**. -/
theorem lt_bound (hs : s.LoopFree) (h : State.LiveAt ⟨.stmt s, env⟩ n) : n < s.bound := by
  induction n generalizing s env with
  | zero => exact hs.bound_pos (State.terminal_eq_false_iff.1 (State.liveAt_zero_iff.1 h))
  | succ n ih =>
    have hred : s.reducible = true :=
      State.terminal_eq_false_iff.1 (State.liveAt_zero_iff.1 (h.of_le n.succ.zero_le))
    obtain ⟨u, hu, hlive⟩ := State.liveAt_succ_iff.1 h
    obtain ⟨t, env', hstep, rfl⟩ := State.exists_reduce_of_step_stmt hu
    obtain ⟨hfree, hlt⟩ := hs.of_step (step_of_reduce hred hstep)
    exact Nat.lt_of_le_of_lt (ih hfree hlive) hlt

/-- The run **halts by its bound, or it fails below it**. -/
theorem halts_or_fails (hs : s.LoopFree) (env : Environment) :
    (∃ n t, n ≤ s.bound ∧ State.HaltsIn ⟨.stmt s, env⟩ n t) ∨
      ∃ n t f, n < s.bound ∧ State.FailsIn ⟨.stmt s, env⟩ n t f := by
  rcases State.halts_or_fails_or_liveAt ⟨.stmt s, env⟩ s.bound with hhalt | hfail | hlive
  · exact .inl hhalt
  · exact .inr hfail
  · exact absurd (hs.lt_bound hlive) (Nat.lt_irrefl _)

/-- Evaluation finishes. -/
theorem exists_evaluate_eq (hs : s.LoopFree) (env : Environment) :
    ∃ fuel r, s.evaluate fuel env = some r := by
  have hend : ∃ n r, State.EndsIn ⟨.stmt s, env⟩ n r := by
    rcases hs.halts_or_fails env with ⟨n, t, -, ht⟩ | ⟨n, t, f, -, hf⟩
    · exact ⟨n, t.outcome, .inl ⟨t, ht, rfl⟩⟩
    · exact ⟨n, .error f, .inr ⟨t, f, hf, rfl⟩⟩
  obtain ⟨n, r, hr⟩ := hend
  obtain ⟨fuel, hfuel⟩ := State.exists_endsIn_iff.1 ⟨n, hr⟩
  obtain ⟨q, hq, -⟩ := Option.map_eq_some_iff.1 hfuel
  exact ⟨fuel, q, hq⟩

end Stmt.LoopFree

/-! ### Budgets that cover a run -/

namespace Machine

/-- The budget leaves room for a step from every live state on the way. -/
def Covers (m : Machine) : Prop :=
  ∀ n, m.state.LiveAt n → m.Affords (n + 1)

namespace Covers

variable {m m' : Machine} {n : Nat} {limit : UInt64}

/-- A state that halts **is run to its end**. -/
theorem exists_runsTo_of_haltsIn (h : m.Covers) {t : State} (ht : m.state.HaltsIn n t) :
    ∃ r, m.RunsTo r ∧ r.result = .ok t ∧ m.Reaches n r.machine := by
  refine Machine.exists_runsTo_of_haltsIn ht ?_
  -- the last live state is the one before the end
  cases n with
  | zero => exact .inl rfl
  | succ n => exact .inr (h n (ht.liveAt n n.lt_succ_self))

/-- A state that fails **is run to its fault**. -/
theorem exists_runsTo_of_failsIn (h : m.Covers) {t : State} {f : Fault}
    (hf : m.state.FailsIn n t f) :
    ∃ r, m.RunsTo r ∧ r.result = .error (.fault f) ∧ m.Reaches n r.machine :=
  Machine.exists_runsTo_of_failsIn hf (h n (hf.liveAt n.le_refl))

/-- Wherever steps have led to, a step from a state that is not terminal **is not refused**. -/
theorem step_result_ne (h : m.Covers) (hm' : m.Reaches n m')
    (hlive : m'.state.terminal = false) : m'.step.result ≠ .error (.exhausted limit) := by
  intro herr
  have hroom : m.Affords (n + 1) := h n ⟨m'.state, hm'.after_eq, hlive⟩
  have hone : m'.Affords 1 := (hm'.affords_iff (hroom.of_le n.le_succ)).2 hroom
  obtain ⟨hlimit, hspent⟩ := step_result_eq_exhausted_iff.1 herr
  exact not_affords_one hlimit hspent hone

/-- Nor is a run, which steps only from such states. -/
theorem runsTo_result_ne (h : m.Covers) (hm' : m.Reaches n m') {r : Reply State}
    (hr : m'.RunsTo r) : r.result ≠ .error (.exhausted limit) := by
  intro herr
  obtain ⟨k, last, hlast, hend⟩ := runsTo_iff.1 hr
  cases hend with
  | halt _ => cases herr
  | stop hlive hstop =>
    obtain rfl := Except.error.inj herr
    exact h.step_result_ne (hm'.trans hlast.reaches) hlive hstop

/-- Nor does a trace yield a refusal, however often it is asked. -/
theorem next_ne (h : m.Covers) {k : Nat} {t : Trace} (ht : Trace.StandsAt m k t) :
    t.next.2 ≠ some (.error (.exhausted limit)) := by
  intro herr
  obtain ⟨n, m', hm', hlive, hstop⟩ := ht.exists_advances_of_next_eq_error herr
  exact h.step_result_ne hm'.reaches hlive hstop

/-- The check of a state that its budget covers is not refused either, if the run ends at all. -/
theorem exists_checksTo {settings : Settings} {s : State} (h : (start settings s).Covers)
    {r : Reply State} (hr : (start settings s).RunsTo r) :
    ∃ c, Parity.ChecksTo settings s c ∧ ∀ limit, c ≠ .error (.exhausted limit) := by
  cases hres : r.result with
  | ok t =>
    obtain ⟨n, ht, -⟩ := hr.exists_haltsIn hres
    obtain ⟨o, -, hcheck⟩ := Parity.exists_checksTo_of_runsTo_ok hr hres ht
    exact ⟨_, hcheck, fun limit => nofun⟩
  | error stop =>
    refine ⟨_, Parity.checksTo_of_runsTo_error hr hres, fun limit heq => ?_⟩
    obtain rfl := Except.error.inj heq
    exact h.runsTo_result_ne (.refl _) hr hres

end Covers

end Machine

/-! ### The bound of a run -/

namespace Stmt.LoopFree

variable {s : Stmt} {settings : Settings}

/-- A limit of at least the bound covers the run. -/
theorem covers (hs : s.LoopFree) (env : Environment)
    (hle : ∀ limit, settings.limit = some limit → s.bound ≤ limit.toNat) :
    (Machine.start settings ⟨.stmt s, env⟩).Covers := by
  intro n hlive limit hlimit
  have hlt : n < s.bound := hs.lt_bound hlive
  have hbound : s.bound ≤ limit.toNat := hle limit hlimit
  calc (0 : UInt64).toNat + (n + 1) = n + 1 := Nat.zero_add _
    _ ≤ s.bound := hlt
    _ ≤ limit.toNat := hbound

/-- The run of a machine whose budget covers it ends **within the bound**. -/
theorem exists_runsTo (hs : s.LoopFree) {env : Environment}
    (h : (Machine.start settings ⟨.stmt s, env⟩).Covers) :
    ∃ r n, (Machine.start settings ⟨.stmt s, env⟩).RunsTo r ∧
      (Machine.start settings ⟨.stmt s, env⟩).Reaches n r.machine ∧
      ((∃ t, r.result = .ok t ∧ n ≤ s.bound) ∨
        ∃ f, r.result = .error (.fault f) ∧ n < s.bound) := by
  rcases hs.halts_or_fails env with ⟨n, t, hn, ht⟩ | ⟨n, t, f, hn, hf⟩
  · obtain ⟨r, hr, hres, hreach⟩ := h.exists_runsTo_of_haltsIn ht
    exact ⟨r, n, hr, hreach, .inl ⟨t, hres, hn⟩⟩
  · obtain ⟨r, hr, hres, hreach⟩ := h.exists_runsTo_of_failsIn hf
    exact ⟨r, n, hr, hreach, .inr ⟨f, hres, hn⟩⟩

/-- **Statements without loops end within their bound.**

* A step of such a statement that is not finished leads to another one, whose bound is smaller.
* The run halts after at most as many steps as the bound, or it fails after fewer.
* If there is a limit and it is at least the bound, the run of a machine comes to such an end. No
  step from a state that is not terminal is refused then, wherever steps have led to; no run is, no
  trace, and no check.
* Evaluation finishes. -/
theorem ends_within_bound (hs : s.LoopFree) (env : Environment) :
    (∀ e t e', s ≠ doNothing → s.reduce e = .ok (t, e') → t.LoopFree ∧ t.bound < s.bound) ∧
    ((∃ n t, n ≤ s.bound ∧ State.HaltsIn ⟨.stmt s, env⟩ n t) ∨
      ∃ n t f, n < s.bound ∧ State.FailsIn ⟨.stmt s, env⟩ n t f) ∧
    (∀ settings : Settings,
      (∀ limit, settings.limit = some limit → s.bound ≤ limit.toNat) →
      let m := Machine.start settings ⟨.stmt s, env⟩
      (∃ r n, m.RunsTo r ∧ m.Reaches n r.machine ∧
        ((∃ t, r.result = .ok t ∧ n ≤ s.bound) ∨
          ∃ f, r.result = .error (.fault f) ∧ n < s.bound)) ∧
      (∀ n m' limit, m.Reaches n m' →
        (m'.state.terminal = false → m'.step.result ≠ .error (.exhausted limit)) ∧
          ∀ r, m'.RunsTo r → r.result ≠ .error (.exhausted limit)) ∧
      (∀ k limit, (m.trace.take k).2.next.2 ≠ some (.error (.exhausted limit))) ∧
      ∃ c, Parity.ChecksTo settings ⟨.stmt s, env⟩ c ∧
        ∀ limit, c ≠ .error (.exhausted limit)) ∧
    ∃ fuel r, s.evaluate fuel env = some r := by
  refine ⟨fun e t e' hne h => ?_, hs.halts_or_fails env, fun settings hle => ?_,
    hs.exists_evaluate_eq env⟩
  · have hred : s.reducible = true := by
      rw [← Bool.not_eq_false]
      exact fun hfalse => hne (reducible_eq_false_iff.1 hfalse)
    exact hs.of_step (step_of_reduce hred h)
  · intro m
    have hcovers : m.Covers := hs.covers env hle
    have hrun := hs.exists_runsTo hcovers
    obtain ⟨r, -, hr, -⟩ := id hrun
    refine ⟨hrun, fun n m' limit hm' => ⟨hcovers.step_result_ne hm', fun r' hr' => ?_⟩,
      fun k limit => hcovers.next_ne (Trace.standsAt_take m k), hcovers.exists_checksTo hr⟩
    exact hcovers.runsTo_result_ne hm' hr'

/-- A number for a condition, behind an assignment and a lookup: the bound is four, and the program
fails with the fourth step. A limit of four tells that from a refusal, and one of three does not. -/
theorem ends_within_bound_fault_at_limit :
    let s : Stmt :=
      .seq (.assign "x" (.literal (.number 1))) (.branch (.var "x") .doNothing .doNothing)
    let settings : Settings := { limit := some 4 }
    let m := Machine.start settings ⟨.stmt s, .empty⟩
    s.LoopFree ∧ s.bound = 4 ∧
      (∀ limit, settings.limit = some limit → s.bound ≤ limit.toNat) ∧
      (∃ r n, m.RunsTo r ∧ m.Reaches n r.machine ∧ n < s.bound ∧
        r.result = .error (.fault (.condition .number))) ∧
      ((Machine.start { limit := some 3 } ⟨.stmt s, .empty⟩).run 4).map (·.result)
        = some (.error (.exhausted 3)) ∧
      ∃ fuel r, s.evaluate fuel .empty = some r := by
  intro s settings m
  have hs : s.LoopFree := by decide
  have hle : ∀ limit, settings.limit = some limit → s.bound ≤ limit.toNat := by
    intro limit hlimit
    obtain rfl := Option.some.inj hlimit
    decide
  obtain ⟨-, -, hmachine, heval⟩ := ends_within_bound hs .empty
  obtain ⟨⟨r, n, hr, hreach, hend⟩, -⟩ := hmachine settings hle
  have hrun : (m.run 4).map (·.result) = some (.error (.fault (.condition .number))) := rfl
  obtain ⟨q, hq, hfault⟩ := Option.map_eq_some_iff.1 hrun
  obtain rfl : r = q := hr.unique ⟨4, hq⟩
  refine ⟨hs, rfl, hle, ⟨r, n, hr, hreach, ?_, hfault⟩, rfl, heval⟩
  rcases hend with ⟨t, hok, -⟩ | ⟨f, -, hlt⟩
  · cases hok.symm.trans hfault
  · exact hlt

end Stmt.LoopFree

end WhileLang
