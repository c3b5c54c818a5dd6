import WhileLang.Proofs.Rules

/-!
# The rounds of a loop

Evaluation goes round a loop as long as its condition holds, while reduction writes the loop out
for one round. The two come to the same: a loop and the loop written out **yield the same results**
(`Stmt.yields_loop_iff_unrolled`), faults included, and one of them goes on forever exactly when
the other one does.

Said without fuel, a loop goes through a sequence of environments.

* `Rounds condition body n e` says that `e 0`, …, `e n` are such a sequence: in each of the first
  `n` the condition is true, and the next one is what the body makes of it.
* `Exits condition body env r` says that the loop comes to its end in `env`, and with `r`: the
  condition is false there, or it fails, or it is true and the body fails.

`Stmt.yields_loop_iff_exists_rounds` says that a loop yields what it exits with after some number
of rounds. The induction that this takes is `Stmt.Yields.loopInduction`.
-/

namespace WhileLang.Stmt

variable {condition : Expr} {body : Stmt} {env env' : Environment}
  {r : Except Fault Environment}

/-! ### One round -/

/-- A loop yields **what it yields written out** for one round. -/
theorem yields_loop_iff_unrolled :
    (loop condition body).Yields env r ↔ (unrolled condition body).Yields env r := by
  simp only [yields_iff_exists_finishes, finishes_loop_iff]
  constructor
  · rintro ⟨_, n, rfl, hn⟩
    exact ⟨n, hn⟩
  · rintro ⟨n, hn⟩
    exact ⟨n + 1, n, rfl, hn⟩

/-- The loop comes to its end in an environment, without a round from there. -/
inductive Exits (condition : Expr) (body : Stmt) (env : Environment) :
    Except Fault Environment → Prop
  | done : condition.holds env = .ok false → Exits condition body env (.ok env)
  | conditionFault {f : Fault} :
    condition.holds env = .error f → Exits condition body env (.error f)
  | bodyFault {f : Fault} : condition.holds env = .ok true → body.Yields env (.error f) →
    Exits condition body env (.error f)

/-- A loop exits with success where its condition is false, and leaves the environment as it is. -/
theorem exits_ok_iff :
    Exits condition body env (.ok env') ↔ condition.holds env = .ok false ∧ env = env' := by
  constructor
  · intro h
    cases h with
    | done hfalse => exact ⟨hfalse, rfl⟩
  · rintro ⟨hfalse, rfl⟩
    exact .done hfalse

/-- A loop exits with a fault of its condition, or of its body. -/
theorem exits_error_iff {f : Fault} :
    Exits condition body env (.error f) ↔
      condition.holds env = .error f ∨
        condition.holds env = .ok true ∧ body.Yields env (.error f) := by
  constructor
  · intro h
    cases h with
    | conditionFault hf => exact .inl hf
    | bodyFault htrue hf => exact .inr ⟨htrue, hf⟩
  · rintro (hf | ⟨htrue, hf⟩)
    · exact .conditionFault hf
    · exact .bodyFault htrue hf

/-- A loop exits, or it takes a round and goes on from there. -/
theorem yields_loop_iff :
    (loop condition body).Yields env r ↔
      Exits condition body env r ∨ condition.holds env = .ok true ∧
        ∃ next, body.Yields env (.ok next) ∧ (loop condition body).Yields next r := by
  rw [yields_loop_iff_unrolled, unrolled, yields_branch_iff]
  constructor
  · rintro (⟨truth, ht, hbranch⟩ | ⟨f, hf, rfl⟩)
    · cases truth with
      | false =>
        obtain ⟨fuel, hfuel⟩ := hbranch
        obtain rfl := Option.some.inj hfuel
        exact .inl (.done ht)
      | true =>
        rcases yields_seq_iff.1 hbranch with ⟨next, hbody, hrest⟩ | ⟨f, hf, rfl⟩
        · exact .inr ⟨ht, next, hbody, hrest⟩
        · exact .inl (.bodyFault ht hf)
    · exact .inl (.conditionFault hf)
  · rintro (hexit | ⟨htrue, next, hbody, hrest⟩)
    · cases hexit with
      | done hfalse => exact .inl ⟨false, hfalse, 0, rfl⟩
      | conditionFault hf => exact .inr ⟨_, hf, rfl⟩
      | bodyFault htrue hf => exact .inl ⟨true, htrue, yields_seq_iff.2 (.inr ⟨_, hf, rfl⟩)⟩
    · exact .inl ⟨true, htrue, yields_seq_iff.2 (.inl ⟨next, hbody, hrest⟩)⟩

/-- **Induction on the rounds** of a loop that comes to an end. -/
@[elab_as_elim]
theorem Yields.loopInduction {motive : Environment → Prop}
    (exit : ∀ env, Exits condition body env r → motive env)
    (round : ∀ env next, condition.holds env = .ok true → body.Yields env (.ok next) →
      motive next → motive env)
    (h : (loop condition body).Yields env r) : motive env := by
  obtain ⟨fuel, hfuel⟩ := h
  -- the rounds use up their fuel, the body has the same in each of them
  have hrounds : ∀ rounds env,
      goRound (fun env => condition.holds env) (body.evaluate fuel) rounds env = some r →
        motive env := by
    intro rounds
    induction rounds with
    | zero =>
      intro env h
      simp [goRound] at h
    | succ rounds ih =>
      intro env h
      rw [goRound] at h
      split at h
      · rename_i f hf
        obtain rfl := Option.some.inj h
        exact exit env (.conditionFault hf)
      · rename_i hfalse
        obtain rfl := Option.some.inj h
        exact exit env (.done hfalse)
      · rename_i htrue
        split at h
        · rename_i next hbody
          exact round env next htrue ⟨fuel, hbody⟩ (ih next h)
        · rename_i stopped hstopped
          -- the body leaves no environment to go on from, so it has failed
          cases r with
          | ok next => exact absurd h (hstopped next)
          | error f => exact exit env (.bodyFault htrue ⟨fuel, h⟩)
  exact hrounds fuel env hfuel

/-! ### All rounds -/

/-- The environments `e 0`, …, `e n` that a loop goes through: in each of the first `n` the
condition is true, and the body makes the next one of it. -/
structure Rounds (condition : Expr) (body : Stmt) (n : Nat) (e : Nat → Environment) : Prop where
  holds : ∀ i < n, condition.holds (e i) = .ok true
  yields : ∀ i < n, body.Yields (e i) (.ok (e (i + 1)))

variable {n : Nat} {e : Nat → Environment}

/-- No round at all. -/
theorem Rounds.zero (condition : Expr) (body : Stmt) (e : Nat → Environment) :
    Rounds condition body 0 e :=
  ⟨fun i hi => absurd hi i.not_lt_zero, fun i hi => absurd hi i.not_lt_zero⟩

/-- A first round, and the others from where it leads to. -/
theorem rounds_succ_iff :
    Rounds condition body (n + 1) e ↔
      condition.holds (e 0) = .ok true ∧ body.Yields (e 0) (.ok (e 1)) ∧
        Rounds condition body n fun i => e (i + 1) := by
  constructor
  · rintro ⟨hholds, hyields⟩
    exact ⟨hholds 0 n.succ_pos, hyields 0 n.succ_pos, fun i hi => hholds (i + 1) (by omega),
      fun i hi => hyields (i + 1) (by omega)⟩
  · rintro ⟨htrue, hbody, hholds, hyields⟩
    refine ⟨fun i hi => ?_, fun i hi => ?_⟩
    · cases i with
      | zero => exact htrue
      | succ i => exact hholds i (by omega)
    · cases i with
      | zero => exact hbody
      | succ i => exact hyields i (by omega)

/-- A loop goes through **as many rounds** as it does, and no other number of them. -/
theorem Rounds.length_unique {n' : Nat} {e' : Nat → Environment} (h : Rounds condition body n e)
    (h' : Rounds condition body n' e') (hstart : e 0 = e' 0)
    (hlast : condition.holds (e n) = .ok false) (hlast' : condition.holds (e' n') = .ok false) :
    n = n' := by
  induction n generalizing e e' n' with
  | zero =>
    cases n' with
    | zero => rfl
    | succ n' =>
      obtain ⟨htrue, -⟩ := rounds_succ_iff.1 h'
      rw [← hstart, hlast] at htrue
      cases htrue
  | succ n ih =>
    obtain ⟨htrue, ⟨fuel, hbody⟩, hrest⟩ := rounds_succ_iff.1 h
    cases n' with
    | zero =>
      rw [hstart, hlast'] at htrue
      cases htrue
    | succ n' =>
      obtain ⟨-, ⟨fuel', hbody'⟩, hrest'⟩ := rounds_succ_iff.1 h'
      rw [hstart] at hbody
      have hnext : e 1 = e' 1 := Except.ok.inj (evaluate_unique hbody hbody')
      exact congrArg (· + 1) (ih hrest hrest' hnext hlast hlast')

/-- A loop yields what it **exits with after some number of rounds**. -/
theorem yields_loop_iff_exists_rounds :
    (loop condition body).Yields env r ↔
      ∃ n e, e 0 = env ∧ Rounds condition body n e ∧ Exits condition body (e n) r := by
  constructor
  · intro h
    refine h.loopInduction (fun env hexit => ?_) fun env next htrue hbody hrest => ?_
    · exact ⟨0, fun _ => env, rfl, .zero .., hexit⟩
    · obtain ⟨n, e, rfl, hrounds, hexit⟩ := hrest
      have hlonger : Rounds condition body (n + 1) fun i => i.casesOn env e :=
        rounds_succ_iff.2 ⟨htrue, hbody, hrounds⟩
      exact ⟨n + 1, _, rfl, hlonger, hexit⟩
  · rintro ⟨n, e, rfl, hrounds, hexit⟩
    induction n generalizing e with
    | zero => exact yields_loop_iff.2 (.inl hexit)
    | succ n ih =>
      obtain ⟨htrue, hbody, hrest⟩ := rounds_succ_iff.1 hrounds
      exact yields_loop_iff.2 (.inr ⟨htrue, e 1, hbody, ih (fun i => e (i + 1)) hrest hexit⟩)

/-- The rounds of a loop, said by evaluation. -/
theorem rounds_iff :
    Rounds condition body n e ↔ (∀ i < n, condition.evaluate (e i) = .ok (.bool true)) ∧
      ∀ i < n, ∃ fuel, body.evaluate fuel (e i) = some (.ok (e (i + 1))) := by
  simp only [← Expr.holds_eq_ok_iff]
  exact ⟨fun h => ⟨h.holds, h.yields⟩, fun h => ⟨h.1, h.2⟩⟩

/-- A loop succeeds where its rounds **make the condition false**. -/
theorem yields_loop_ok_iff :
    (loop condition body).Yields env (.ok env') ↔
      ∃ n e, e 0 = env ∧ e n = env' ∧ Rounds condition body n e ∧
        condition.evaluate (e n) = .ok (.bool false) := by
  simp only [yields_loop_iff_exists_rounds, exits_ok_iff, Expr.holds_eq_ok_iff]
  refine exists_congr fun n => exists_congr fun e => and_congr_right fun _ => ?_
  constructor
  · rintro ⟨hrounds, hfalse, hlast⟩
    exact ⟨hlast, hrounds, hfalse⟩
  · rintro ⟨hlast, hrounds, hfalse⟩
    exact ⟨hrounds, hfalse, hlast⟩

/-- A loop fails where its rounds lead to a fault **of the condition or of the body**. -/
theorem yields_loop_error_iff {f : Fault} :
    (loop condition body).Yields env (.error f) ↔
      ∃ n e, e 0 = env ∧ Rounds condition body n e ∧
        (condition.holds (e n) = .error f ∨ condition.evaluate (e n) = .ok (.bool true) ∧
          body.Yields (e n) (.error f)) := by
  simp only [yields_loop_iff_exists_rounds, exits_error_iff, Expr.holds_eq_ok_iff]

/-- A statement goes on forever exactly when it yields nothing. -/
theorem evaluate_eq_none_iff {s : Stmt} :
    (∀ fuel, s.evaluate fuel env = none) ↔ ∀ r, ¬s.Yields env r := by
  simp only [Yields, not_exists, Option.eq_none_iff_forall_ne_some]
  exact forall_comm

/-- **Going round a loop is writing it out, and it is a sequence of rounds.**

* A loop finishes with a result exactly when the branching on its condition does that has the body
  and the loop again in the one branch, and nothing in the other. It goes on forever exactly when
  that branching does.
* It succeeds exactly when there are environments, from the first to the last, such that the
  condition is true in all but the last, the body makes each one of the one before, and the
  condition is false in the last.
* It fails exactly when there are such environments and, in the last one, the condition fails, or
  it is true and the body fails. -/
theorem loop_unrolls_into_rounds (condition : Expr) (body : Stmt) (env : Environment) :
    let written : Stmt := branch condition (seq body (loop condition body)) doNothing
    (∀ r, (∃ fuel, (loop condition body).evaluate fuel env = some r) ↔
      ∃ fuel, written.evaluate fuel env = some r) ∧
    ((∀ fuel, (loop condition body).evaluate fuel env = none) ↔
      ∀ fuel, written.evaluate fuel env = none) ∧
    (∀ env', (∃ fuel, (loop condition body).evaluate fuel env = some (.ok env')) ↔
      ∃ (n : Nat) (e : Nat → Environment), e 0 = env ∧ e n = env' ∧
        (∀ i < n, condition.evaluate (e i) = .ok (.bool true)) ∧
        (∀ i < n, ∃ fuel, body.evaluate fuel (e i) = some (.ok (e (i + 1)))) ∧
        condition.evaluate (e n) = .ok (.bool false)) ∧
    ∀ f, (∃ fuel, (loop condition body).evaluate fuel env = some (.error f)) ↔
      ∃ (n : Nat) (e : Nat → Environment), e 0 = env ∧
        (∀ i < n, condition.evaluate (e i) = .ok (.bool true)) ∧
        (∀ i < n, ∃ fuel, body.evaluate fuel (e i) = some (.ok (e (i + 1)))) ∧
        (condition.holds (e n) = .error f ∨ condition.evaluate (e n) = .ok (.bool true) ∧
          ∃ fuel, body.evaluate fuel (e n) = some (.error f)) := by
  intro written
  have hwritten : ∀ r, (loop condition body).Yields env r ↔ written.Yields env r :=
    fun r => yields_loop_iff_unrolled
  refine ⟨hwritten, ?_, fun env' => ?_, fun f => ?_⟩
  · rw [evaluate_eq_none_iff, evaluate_eq_none_iff]
    exact forall_congr' fun r => not_congr (hwritten r)
  · refine yields_loop_ok_iff.trans ?_
    simp only [rounds_iff, and_assoc]
  · refine yields_loop_error_iff.trans ?_
    simp only [rounds_iff, and_assoc, Yields]

end WhileLang.Stmt
