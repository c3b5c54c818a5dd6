import WhileLang.Parity
import WhileLang.Proofs.Budget
import WhileLang.Proofs.Simulation

/-!
# The two readings agree

The machine without a limit and evaluation finish on the same programs with the same results
(`exists_bigStep_iff`): the same values, the same environments down to the order of their
bindings, and the same faults. Both sides are compared with `State.EndsIn`, what the iterates of
the state come to.

`SmallStepsTo` and `BigStepsTo` say that one of the readings succeeds, whatever its fuel. Of a
statement both say what it yields (`bigStepsTo_iff_yields`, `SmallStepsTo.yields`).

Under a limit, the check of the two readings always comes to an end, in one of three ways
(`checksTo_cases`). Evaluation knows no limit, but it is reached only after the machine has
halted, and then it halts as well.
-/

namespace WhileLang.Parity

variable {s t : State} {settings : Settings} {n fuel fuel' : Nat} {f : Fault}

/-! ### The small steps -/

/-- A run that ends in a state leaves its outcome to be read off. -/
theorem smallStep_of_run_ok {r : Reply State}
    (h : (Machine.start settings s).run fuel = some r) (hres : r.result = .ok t) :
    smallStep fuel settings s = some ⟨r.machine, t.outcome.mapError .fault⟩ := by
  obtain ⟨m, result⟩ := r
  cases hres
  rw [smallStep, h]

/-- A run that fails leaves nothing to be read off. -/
theorem smallStep_of_run_error {r : Reply State} {stop : Stop}
    (h : (Machine.start settings s).run fuel = some r) (hres : r.result = .error stop) :
    smallStep fuel settings s = some ⟨r.machine, .error stop⟩ := by
  obtain ⟨m, result⟩ := r
  cases hres
  rw [smallStep, h]

/-- The small steps of a machine without a limit finish **with the end of the run**. -/
theorem exists_smallStep_iff (h : settings.limit = none) {r : Except Stop Outcome} :
    (∃ fuel p, smallStep fuel settings s = some p ∧ p.result = r) ↔
      ∃ n q, s.EndsIn n q ∧ q.mapError .fault = r := by
  constructor
  · rintro ⟨fuel, p, hp, rfl⟩
    cases hr : (Machine.start settings s).run fuel with
    | none => simp [smallStep, hr] at hp
    | some r =>
      obtain ⟨n, -, ⟨t, ht, -, hres⟩ | ⟨t, f, hf, -, hres⟩ | ⟨limit, hlimit, -⟩⟩ :=
        Machine.RunsTo.ends ⟨fuel, hr⟩
      · obtain rfl := Option.some.inj ((smallStep_of_run_ok hr hres).symm.trans hp)
        exact ⟨n, t.outcome, .inl ⟨t, ht, rfl⟩, rfl⟩
      · obtain rfl := Option.some.inj ((smallStep_of_run_error hr hres).symm.trans hp)
        exact ⟨n, .error f, .inr ⟨t, f, hf, rfl⟩, rfl⟩
      · cases h.symm.trans hlimit
  · rintro ⟨n, q, ⟨t, ht, rfl⟩ | ⟨t, f, hf, rfl⟩, rfl⟩
    · obtain ⟨r, ⟨fuel, hr⟩, hres, -⟩ :=
        Machine.exists_runsTo_of_haltsIn (m := .start settings s) ht
          (.inr (Machine.affords_of_limit_eq_none h))
      exact ⟨fuel, _, smallStep_of_run_ok hr hres, rfl⟩
    · obtain ⟨r, ⟨fuel, hr⟩, hres, -⟩ :=
        Machine.exists_runsTo_of_failsIn (m := .start settings s) hf
          (Machine.affords_of_limit_eq_none h)
      exact ⟨fuel, _, smallStep_of_run_error hr hres, rfl⟩

/-- The small steps of a state succeed with an outcome. -/
def SmallStepsTo (settings : Settings) (s : State) (o : Outcome) : Prop :=
  ∃ fuel p, smallStep fuel settings s = some p ∧ p.result = .ok o

/-- The small steps succeed exactly **when the state halts within the budget**. -/
theorem smallStepsTo_iff {o : Outcome} :
    SmallStepsTo settings s o ↔
      ∃ n t, s.HaltsIn n t ∧ (n = 0 ∨ (Machine.start settings s).Affords n) ∧
        t.outcome = .ok o := by
  constructor
  · rintro ⟨fuel, p, hp, hok⟩
    cases hr : (Machine.start settings s).run fuel with
    | none => simp [smallStep, hr] at hp
    | some r =>
      cases hres : r.result with
      | error stop =>
        obtain rfl := Option.some.inj ((smallStep_of_run_error hr hres).symm.trans hp)
        cases hok
      | ok t =>
        obtain rfl := Option.some.inj ((smallStep_of_run_ok hr hres).symm.trans hp)
        obtain ⟨n, ht, haff⟩ := Machine.RunsTo.exists_haltsIn ⟨fuel, hr⟩ hres
        exact ⟨n, t, ht, haff, Except.mapError_eq_ok_iff.1 hok⟩
  · rintro ⟨n, t, ht, haff, ho⟩
    obtain ⟨r, ⟨fuel, hr⟩, hres, -⟩ :=
      Machine.exists_runsTo_of_haltsIn (m := .start settings s) ht haff
    exact ⟨fuel, _, smallStep_of_run_ok hr hres, by rw [ho]; rfl⟩

/-! ### Agreement -/

/-- The small steps of a machine without a limit **finish with what evaluation finishes
with**. -/
theorem exists_bigStep_iff (h : settings.limit = none) {r : Except Stop Outcome} :
    (∃ fuel q, bigStep fuel s = some q ∧ q.mapError .fault = r) ↔
      ∃ fuel p, smallStep fuel settings s = some p ∧ p.result = r := by
  rw [exists_smallStep_iff h]
  constructor
  · rintro ⟨fuel, q, hq, rfl⟩
    obtain ⟨n, hn⟩ := State.exists_endsIn_iff.2 ⟨fuel, hq⟩
    exact ⟨n, q, hn, rfl⟩
  · rintro ⟨n, q, hn, rfl⟩
    obtain ⟨fuel, hfuel⟩ := State.exists_endsIn_iff.1 ⟨n, hn⟩
    exact ⟨fuel, q, hfuel, rfl⟩

/-- **The two readings of a program agree.** Evaluation of a term finishes with a value, an
environment or a fault exactly when the machine without a limit finishes with the same. So one
of the two goes on forever exactly when the other does, and the environments that they leave
behind list the same bindings in the same order. -/
theorem bigStep_iff_smallStep (term : Term) (env : Environment) :
    (∀ r : Except Stop Outcome,
      (∃ fuel q, bigStep fuel ⟨term, env⟩ = some q ∧ q.mapError .fault = r) ↔
        ∃ fuel p, smallStep fuel {} ⟨term, env⟩ = some p ∧ p.result = r) ∧
    ((∀ fuel, bigStep fuel ⟨term, env⟩ = none) ↔ ∀ fuel, smallStep fuel {} ⟨term, env⟩ = none) ∧
    ∀ fuel fuel' e e' p, bigStep fuel ⟨term, env⟩ = some (.ok (.environment e)) →
      smallStep fuel' {} ⟨term, env⟩ = some p → p.result = .ok (.environment e') →
        e.toList = e'.toList := by
  have hiff : ∀ r : Except Stop Outcome,
      (∃ fuel q, bigStep fuel ⟨term, env⟩ = some q ∧ q.mapError .fault = r) ↔
        ∃ fuel p, smallStep fuel {} ⟨term, env⟩ = some p ∧ p.result = r :=
    fun r => exists_bigStep_iff rfl
  refine ⟨hiff, ?_, ?_⟩
  · constructor
    · intro h fuel
      cases hp : smallStep fuel {} ⟨term, env⟩ with
      | none => rfl
      | some p =>
        obtain ⟨fuel', q, hq, -⟩ := (hiff p.result).2 ⟨fuel, p, hp, rfl⟩
        cases (h fuel').symm.trans hq
    · intro h fuel
      cases hq : bigStep fuel ⟨term, env⟩ with
      | none => rfl
      | some q =>
        obtain ⟨fuel', p, hp, -⟩ := (hiff _).1 ⟨fuel, q, hq, rfl⟩
        cases (h fuel').symm.trans hp
  · intro fuel fuel' e e' p he hp hres
    obtain ⟨fuel'', q, hq, hqres⟩ := (hiff p.result).2 ⟨fuel', p, hp, rfl⟩
    obtain rfl : q = .ok (.environment e) := Term.evaluate_unique hq he
    cases hqres.trans hres
    rfl

/-- Evaluation of a state succeeds with an outcome. -/
def BigStepsTo (s : State) (o : Outcome) : Prop :=
  ∃ fuel, bigStep fuel s = some (.ok o)

/-- Both readings succeed with the outcome, and the small steps do so with every machine that has
no limit. -/
def BothStepTo (s : State) (o : Outcome) : Prop :=
  BigStepsTo s o ∧ ∀ settings : Settings, settings.limit = none → SmallStepsTo settings s o

/-- Where evaluation succeeds, both readings do. -/
theorem BigStepsTo.both {o : Outcome} (h : BigStepsTo s o) : BothStepTo s o := by
  refine ⟨h, fun settings hnone => ?_⟩
  obtain ⟨fuel, hfuel⟩ := h
  exact (exists_bigStep_iff hnone).1 ⟨fuel, .ok o, hfuel, rfl⟩

/-! ### Statements that succeed -/

section Statements

variable {p : Stmt} {env env' : Environment}

/-- Evaluation of a statement succeeds with what the statement yields. -/
theorem bigStepsTo_iff_yields :
    BigStepsTo ⟨.stmt p, env⟩ (.environment env') ↔ p.Yields env (.ok env') := by
  refine exists_congr fun fuel => ?_
  constructor
  · intro h
    obtain ⟨q, hq, hmap⟩ := Option.map_eq_some_iff.1 h
    obtain ⟨e, rfl, he⟩ := Except.map_eq_ok_iff.1 hmap
    obtain rfl := Outcome.environment.inj he
    exact hq
  · intro h
    exact Option.map_eq_some_iff.2 ⟨_, h, rfl⟩

/-- Where the small steps succeed, the statement yields the same. -/
theorem SmallStepsTo.yields
    (h : SmallStepsTo settings ⟨.stmt p, env⟩ (.environment env')) : p.Yields env (.ok env') := by
  obtain ⟨n, t, ht, -, ho⟩ := smallStepsTo_iff.1 h
  obtain rfl := (State.outcome_eq_environment_iff ht.terminal).1 ho
  exact State.yields_ok_iff_exists_haltsIn.2 ⟨n, ht⟩

/-- Without a limit, what the statement yields the small steps succeed with. -/
theorem smallStepsTo_of_yields (hnone : settings.limit = none)
    (h : p.Yields env (.ok env')) :
    SmallStepsTo settings ⟨.stmt p, env⟩ (.environment env') := by
  obtain ⟨n, hn⟩ := State.yields_ok_iff_exists_haltsIn.1 h
  exact smallStepsTo_iff.2
    ⟨n, _, hn, .inr (Machine.affords_of_limit_eq_none hnone), rfl⟩

end Statements

/-! ### The check under a limit -/

/-- The check of a state comes to an end with a result. -/
def ChecksTo (settings : Settings) (s : State) (r : Except Stop Parity) : Prop :=
  ∃ fuel c, check fuel settings s = some c ∧ c.result = r

/-- A small step that fails is the answer of the check. -/
theorem check_of_smallStep_error {p : Reply Outcome} {stop : Stop}
    (h : smallStep fuel settings s = some p) (hres : p.result = .error stop) :
    check fuel settings s = some ⟨p.machine, .error stop⟩ := by
  obtain ⟨m, result⟩ := p
  cases hres
  rw [check, h]

/-- After small steps that succeed, evaluation gives the other half of the answer. -/
theorem check_of_smallStep_ok {p : Reply Outcome} {small : Outcome}
    (h : smallStep fuel settings s = some p) (hres : p.result = .ok small) :
    check fuel settings s = (bigStep fuel s).map fun q =>
      ⟨p.machine, (q.mapError .fault).map fun big => ⟨small, big, p.machine.steps⟩⟩ := by
  obtain ⟨m, result⟩ := p
  cases hres
  rw [check, h]
  cases hq : bigStep fuel s with
  | none => rfl
  | some q => cases q <;> rfl

/-- More fuel keeps the answer of the small steps. -/
theorem smallStep_mono (hle : fuel ≤ fuel') {p : Reply Outcome}
    (h : smallStep fuel settings s = some p) : smallStep fuel' settings s = some p := by
  cases hr : (Machine.start settings s).run fuel with
  | none => simp [smallStep, hr] at h
  | some r =>
    have hr' := Machine.run_mono hle hr
    rw [← h]
    cases hres : r.result with
    | ok t => rw [smallStep_of_run_ok hr hres, smallStep_of_run_ok hr' hres]
    | error stop => rw [smallStep_of_run_error hr hres, smallStep_of_run_error hr' hres]

/-- More fuel keeps the answer of the check. -/
theorem check_mono (hle : fuel ≤ fuel') {c : Reply Parity}
    (h : check fuel settings s = some c) : check fuel' settings s = some c := by
  cases hp : smallStep fuel settings s with
  | none => simp [check, hp] at h
  | some p =>
    have hp' := smallStep_mono hle hp
    cases hres : p.result with
    | error stop => rw [← h, check_of_smallStep_error hp hres, check_of_smallStep_error hp' hres]
    | ok small =>
      rw [check_of_smallStep_ok hp hres] at h
      rw [check_of_smallStep_ok hp' hres]
      obtain ⟨q, hq, rfl⟩ := Option.map_eq_some_iff.1 h
      exact Option.map_eq_some_iff.2 ⟨q, Term.evaluate_mono hle hq, rfl⟩

/-- A check has one result only. -/
theorem ChecksTo.unique {r r' : Except Stop Parity} (h : ChecksTo settings s r)
    (h' : ChecksTo settings s r') : r = r' := by
  obtain ⟨fuel, c, hc, rfl⟩ := h
  obtain ⟨fuel', c', hc', rfl⟩ := h'
  have hmax := check_mono (Nat.le_max_left fuel fuel') hc
  have hmax' := check_mono (Nat.le_max_right fuel fuel') hc'
  rw [Option.some.inj (hmax.symm.trans hmax')]

/-- A run that fails is the answer of the check. -/
theorem checksTo_of_runsTo_error {r : Reply State} {stop : Stop}
    (h : (Machine.start settings s).RunsTo r) (hres : r.result = .error stop) :
    ChecksTo settings s (.error stop) := by
  obtain ⟨fuel, hr⟩ := h
  exact ⟨fuel, _, check_of_smallStep_error (smallStep_of_run_error hr hres) rfl, rfl⟩

/-- A run that halts **makes evaluation halt**, with the same outcome, and the check says so. -/
theorem exists_checksTo_of_runsTo_ok {r : Reply State}
    (h : (Machine.start settings s).RunsTo r) (hres : r.result = .ok t) (ht : s.HaltsIn n t) :
    ∃ o, t.outcome = .ok o ∧ ChecksTo settings s (.ok ⟨o, o, r.machine.steps⟩) := by
  obtain ⟨o, ho⟩ := State.exists_outcome_eq_ok ht.terminal
  obtain ⟨fuel, hr⟩ := h
  obtain ⟨fuel', hq⟩ := State.exists_endsIn_iff.1 ⟨n, .inl ⟨t, ht, ho⟩⟩
  -- the same fuel has to do for the run and for evaluation
  refine ⟨o, ho, max fuel fuel', ⟨r.machine, .ok ⟨o, o, r.machine.steps⟩⟩, ?_, rfl⟩
  have hp := smallStep_of_run_ok (Machine.run_mono (Nat.le_max_left fuel fuel') hr) hres
  have hsmall : t.outcome.mapError Stop.fault = .ok o := by
    rw [ho]
    rfl
  have hbig : bigStep (max fuel fuel') s = some (.ok o) :=
    Term.evaluate_mono (Nat.le_max_right fuel fuel') hq
  rw [check_of_smallStep_ok hp hsmall, hbig]
  rfl

/-- A machine at its start affords as many steps as its limit says. -/
theorem affords_start_iff {limit : UInt64} (h : settings.limit = some limit) :
    (Machine.start settings s).Affords n ↔ n ≤ limit.toNat := by
  have hsteps : (Machine.start settings s).steps.toNat + n = n := Nat.zero_add n
  rw [Machine.affords_iff_of_limit h, hsteps]

/-- **The three ends of a check** under a limit. -/
theorem checksTo_cases {limit : UInt64} (h : settings.limit = some limit) (s : State) :
    (∃ p t, s.HaltsIn p.steps.toNat t ∧ p.steps ≤ limit ∧ t.outcome = .ok p.small ∧
      p.small = p.big ∧ ChecksTo settings s (.ok p)) ∨
    (∃ n t f, s.FailsIn n t f ∧ n < limit.toNat ∧ ChecksTo settings s (.error (.fault f))) ∨
    ((∀ n t, s.HaltsIn n t → limit.toNat < n) ∧ (∀ n t f, s.FailsIn n t f → limit.toNat ≤ n) ∧
      ChecksTo settings s (.error (.exhausted limit))) := by
  have haff : ∀ n, (Machine.start settings s).Affords n ↔ n ≤ limit.toNat :=
    fun n => affords_start_iff h
  by_cases hhalt : ∃ n t, s.HaltsIn n t ∧ n ≤ limit.toNat
  · obtain ⟨n, t, ht, hn⟩ := hhalt
    obtain ⟨r, hr, hres, hreach⟩ :=
      Machine.exists_runsTo_of_haltsIn (m := .start settings s) ht (.inr ((haff n).2 hn))
    obtain ⟨o, ho, hcheck⟩ := exists_checksTo_of_runsTo_ok hr hres ht
    have hsteps : r.machine.steps.toNat = n :=
      (hreach.toNat_steps (((haff n).2 hn).toNat_lt h)).trans (Nat.zero_add n)
    refine .inl ⟨⟨o, o, r.machine.steps⟩, t, ?_, ?_, ho, rfl, hcheck⟩
    · rwa [hsteps]
    · rwa [UInt64.le_iff_toNat_le, hsteps]
  · by_cases hfail : ∃ n t f, s.FailsIn n t f ∧ n < limit.toNat
    · obtain ⟨n, t, f, hf, hn⟩ := hfail
      obtain ⟨r, hr, hres, -⟩ :=
        Machine.exists_runsTo_of_failsIn (m := .start settings s) hf ((haff (n + 1)).2 hn)
      exact .inr (.inl ⟨n, t, f, hf, hn, checksTo_of_runsTo_error hr hres⟩)
    · have hhalt' : ∀ n t, s.HaltsIn n t → limit.toNat < n := fun n t ht =>
        Nat.lt_of_not_le fun hn => hhalt ⟨n, t, ht, hn⟩
      have hfail' : ∀ n t f, s.FailsIn n t f → limit.toNat ≤ n := fun n t f hf =>
        Nat.le_of_not_lt fun hn => hfail ⟨n, t, f, hf, hn⟩
      obtain ⟨r, hr, hres, -⟩ :=
        Machine.exists_runsTo_exhausted (m := .start settings s) ((haff 0).2 (Nat.zero_le _)) h
          (fun n t ht hn => Nat.not_le_of_lt (hhalt' n t ht) ((haff n).1 hn))
          (fun n t f hf hn => Nat.not_le_of_lt (Nat.lt_succ_of_le (hfail' n t f hf))
            ((haff (n + 1)).1 hn))
      exact .inr (.inr ⟨hhalt', hfail', checksTo_of_runsTo_error hr hres⟩)

section Limit

variable {limit : UInt64} (h : settings.limit = some limit)

include h

/-- A check under a limit succeeds exactly when the state halts within the limit. -/
theorem exists_checksTo_ok_iff :
    (∃ p, ChecksTo settings s (.ok p)) ↔ ∃ n t, s.HaltsIn n t ∧ n ≤ limit.toNat := by
  constructor
  · rintro ⟨p, hp⟩
    rcases checksTo_cases h s with ⟨p', t, ht, hle, -⟩ | ⟨n, t, f, -, -, hc⟩ | ⟨-, -, hc⟩
    · exact ⟨_, t, ht, UInt64.le_iff_toNat_le.1 hle⟩
    · cases hp.unique hc
    · cases hp.unique hc
  · rintro ⟨n, t, ht, hn⟩
    rcases checksTo_cases h s with ⟨p, -, -, -, -, -, hc⟩ | ⟨k, u, f, hf, -⟩ | ⟨hlt, -⟩
    · exact ⟨p, hc⟩
    · exact absurd hf ht.not_failsIn
    · exact absurd (hlt n t ht) (Nat.not_lt_of_le hn)

/-- What a check that succeeds reports. -/
theorem ChecksTo.ok {p : Parity} (hp : ChecksTo settings s (.ok p)) :
    (∃ t, s.HaltsIn p.steps.toNat t ∧ t.outcome = .ok p.small) ∧ p.small = p.big := by
  rcases checksTo_cases h s with ⟨p', t, ht, -, ho, heq, hc⟩ | ⟨n, t, f, -, -, hc⟩ | ⟨-, -, hc⟩
  · obtain rfl := Except.ok.inj (hp.unique hc)
    exact ⟨⟨t, ht, ho⟩, heq⟩
  · cases hp.unique hc
  · cases hp.unique hc

/-- A check under a limit fails with a fault exactly when the state fails with it below the
limit. -/
theorem checksTo_fault_iff :
    ChecksTo settings s (.error (.fault f)) ↔ ∃ n t, s.FailsIn n t f ∧ n < limit.toNat := by
  constructor
  · intro hf
    rcases checksTo_cases h s with ⟨p, t, -, -, -, -, hc⟩ | ⟨n, t, g, hg, hn, hc⟩ | ⟨-, -, hc⟩
    · cases hf.unique hc
    · cases hf.unique hc
      exact ⟨n, t, hg, hn⟩
    · cases hf.unique hc
  · rintro ⟨n, t, hf, hn⟩
    rcases checksTo_cases h s with ⟨p, u, hu, -⟩ | ⟨k, u, g, hg, -, hc⟩ | ⟨-, hle, -⟩
    · exact absurd hf hu.not_failsIn
    · obtain ⟨-, -, rfl⟩ := hf.unique hg
      exact hc
    · exact absurd hn (Nat.not_lt_of_le (hle n t f hf))

/-- A check under a limit is refused exactly when the state neither halts within the limit nor
fails below it. -/
theorem checksTo_exhausted_iff {limit' : UInt64} :
    ChecksTo settings s (.error (.exhausted limit')) ↔
      limit' = limit ∧ (∀ n t, s.HaltsIn n t → limit.toNat < n) ∧
        ∀ n t f, s.FailsIn n t f → limit.toNat ≤ n := by
  constructor
  · intro he
    rcases checksTo_cases h s with ⟨p, t, -, -, -, -, hc⟩ | ⟨n, t, f, -, -, hc⟩ | ⟨hlt, hle, hc⟩
    · cases he.unique hc
    · cases he.unique hc
    · cases he.unique hc
      exact ⟨rfl, hlt, hle⟩
  · rintro ⟨rfl, hlt, hle⟩
    rcases checksTo_cases h s with ⟨p, t, ht, hp, -⟩ | ⟨n, t, f, hf, hn, -⟩ | ⟨-, -, hc⟩
    · exact absurd (hlt _ t ht) (Nat.not_lt_of_le (UInt64.le_iff_toNat_le.1 hp))
    · exact absurd hn (Nat.not_lt_of_le (hle n t f hf))
    · exact hc

end Limit

/-- **A check under a limit always comes to an end**, on programs that never end too, and it
says exactly what happens within the limit.

* It succeeds exactly when the state halts in no more steps than the limit allows for. It then
  reports their number, and the outcome of the terminal state for both readings.
* It fails with a fault exactly when the program fails with it and the limit allows for the
  failing step too. Evaluation then fails with the same fault.
* In every other case it is refused. -/
theorem check_limit_exact (term : Term) (env : Environment) (limit : UInt64) (recording : Bool) :
    let s : State := ⟨term, env⟩
    let settings : Settings := { limit := some limit, recording := recording }
    (∃ r, ChecksTo settings s r) ∧
    ((∃ p, ChecksTo settings s (.ok p)) ↔ ∃ n t, s.HaltsIn n t ∧ n ≤ limit.toNat) ∧
    (∀ p, ChecksTo settings s (.ok p) →
      (∃ t, s.HaltsIn p.steps.toNat t ∧ t.outcome = .ok p.small) ∧ p.small = p.big ∧
        p.agrees = true) ∧
    (∀ f, ChecksTo settings s (.error (.fault f)) ↔
      ∃ n t, s.FailsIn n t f ∧ n < limit.toNat) ∧
    (∀ f, ChecksTo settings s (.error (.fault f)) → ∃ fuel, bigStep fuel s = some (.error f)) ∧
    ∀ limit', ChecksTo settings s (.error (.exhausted limit')) ↔
      limit' = limit ∧ (∀ n t, s.HaltsIn n t → limit.toNat < n) ∧
        ∀ n t f, s.FailsIn n t f → limit.toNat ≤ n := by
  intro s settings
  have h : settings.limit = some limit := rfl
  refine ⟨?_, exists_checksTo_ok_iff h, fun p hp => ?_, fun f => checksTo_fault_iff h,
    fun f hf => ?_, fun limit' => checksTo_exhausted_iff h⟩
  · rcases checksTo_cases h s with ⟨_, _, -, -, -, -, hc⟩ | ⟨_, _, _, -, -, hc⟩ | ⟨-, -, hc⟩
    · exact ⟨_, hc⟩
    · exact ⟨_, hc⟩
    · exact ⟨_, hc⟩
  · obtain ⟨ht, heq⟩ := hp.ok h
    refine ⟨ht, heq, ?_⟩
    rw [agrees, heq]
    exact decide_eq_true (Setoid.refl _)
  · obtain ⟨n, t, hn, -⟩ := (checksTo_fault_iff h).1 hf
    exact State.exists_endsIn_iff.1 ⟨n, .inr ⟨t, f, hn, rfl⟩⟩

end WhileLang.Parity
