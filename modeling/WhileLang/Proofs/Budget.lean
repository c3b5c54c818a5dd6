import WhileLang.Machine.Fuel
import WhileLang.Proofs.Advance

/-!
# Runs under a budget

`m.RunsTo r` says that a run of the machine `m` comes to an end with the reply `r`. It does so
by advancing to a machine that is terminal, or to one whose next step fails (`runsTo_iff`).
Said of the iterates of the state, a run has one of three ends (`RunsTo.ends`), and each of
them comes about under its own condition:

* the state halts within the budget (`exists_runsTo_of_haltsIn`);
* the state fails, and the budget allows for the failing step too
  (`exists_runsTo_of_failsIn`);
* the state is live when the budget is spent (`exists_runsTo_of_liveAt`).

`Reachable` are the machines that calls lead to. Their counters never exceed their budgets
(`Reachable.affords_zero`), so for them the three conditions leave no other case, and a limit
makes every run end (`exists_runsTo_of_limit`).
-/

namespace WhileLang.Machine

variable {m m' : Machine} {n fuel : Nat} {r : Reply State} {t : State} {f : Fault}
  {limit : UInt64}

/-! ### Runs advance -/

/-- A run of the machine comes to an end with a reply. -/
def RunsTo (m : Machine) (r : Reply State) : Prop :=
  ∃ fuel, m.run fuel = some r

/-- A run has one reply only. -/
theorem RunsTo.unique {r' : Reply State} (h : m.RunsTo r) (h' : m.RunsTo r') : r = r' := by
  obtain ⟨fuel, hfuel⟩ := h
  obtain ⟨fuel', hfuel'⟩ := h'
  exact run_unique hfuel hfuel'

/-- On a terminal state a run ends at once, and does not look at the budget. -/
theorem run_of_terminal (h : m.state.terminal = true) :
    m.run (fuel + 1) = some ⟨m.note (.halted m.steps m.state), .ok m.state⟩ := by
  rw [run, if_pos h]

/-- On any other state a run takes a step, and goes on if that succeeds. -/
theorem run_of_step_ok (h : m.state.terminal = false) (hok : m.step.result = .ok ()) :
    m.run (fuel + 1) = m.step.machine.run fuel := by
  rw [run, h, if_neg Bool.false_ne_true]
  generalize m.step = reply at hok ⊢
  obtain ⟨m', result⟩ := reply
  cases hok
  rfl

/-- On any other state a run takes a step, and ends if that fails. -/
theorem run_of_step_error {stop : Stop} (h : m.state.terminal = false)
    (herr : m.step.result = .error stop) :
    m.run (fuel + 1) = some ⟨m.step.machine, .error stop⟩ := by
  rw [run, h, if_neg Bool.false_ne_true]
  generalize m.step = reply at herr ⊢
  obtain ⟨m', result⟩ := reply
  cases herr
  rfl

/-- What a run replies where it ends: the state if that is terminal, else the failure of the
step from there. -/
inductive EndsWith (m : Machine) : Reply State → Prop
  | halt : m.state.terminal = true → EndsWith m ⟨m.note (.halted m.steps m.state), .ok m.state⟩
  | stop {stop : Stop} : m.state.terminal = false → m.step.result = .error stop →
    EndsWith m ⟨m.step.machine, .error stop⟩

/-- The number of steps that a run takes. -/
def stepsInRun : Nat → Machine → Nat
  | 0, _ => 0
  | fuel + 1, m =>
    if m.state.terminal then 0
    else
      match m.step.result with
      | .ok () => stepsInRun fuel m.step.machine + 1
      | .error _ => 0

/-- A run that ends has advanced to its end. -/
theorem exists_advances_of_run (h : m.run fuel = some r) :
    ∃ m', m.Advances (m.stepsInRun fuel) m' ∧ m'.EndsWith r := by
  induction fuel generalizing m with
  | zero => simp [run] at h
  | succ fuel ih =>
    rw [stepsInRun]
    cases hterm : m.state.terminal with
    | true =>
      rw [run_of_terminal hterm] at h
      cases h
      exact ⟨m, .refl m, .halt hterm⟩
    | false =>
      rw [if_neg Bool.false_ne_true]
      cases hres : m.step.result with
      | ok u =>
        rw [run_of_step_ok hterm hres] at h
        obtain ⟨m', hm', hend⟩ := ih h
        exact ⟨m', .head hterm hres hm', hend⟩
      | error stop =>
        rw [run_of_step_error hterm hres] at h
        cases h
        exact ⟨m, .refl m, .stop hterm hres⟩

/-- A run **advances to its end** and replies what there is to reply there. -/
theorem runsTo_iff : m.RunsTo r ↔ ∃ n m', m.Advances n m' ∧ m'.EndsWith r := by
  refine ⟨fun ⟨_, h⟩ => ⟨_, exists_advances_of_run h⟩, ?_⟩
  rintro ⟨n, m', hm', hend⟩
  induction hm' with
  | refl m =>
    cases hend with
    | halt hterm => exact ⟨1, run_of_terminal hterm⟩
    | stop hlive herr => exact ⟨1, run_of_step_error hlive herr⟩
  | head hlive hok _ ih =>
    obtain ⟨fuel, hfuel⟩ := ih hend
    exact ⟨fuel + 1, by rw [run_of_step_ok hlive hok, hfuel]⟩

/-- The end of a run leads nowhere else. -/
theorem EndsWith.reaches (h : m.EndsWith r) : m.Reaches 0 r.machine := by
  cases h with
  | halt _ => exact (Reaches.refl m).note _
  | stop _ herr => exact reaches_of_step_error herr

/-- What it takes for a run to end with a reply, and where that leaves the machine. -/
theorem runsTo_of_advances (h : m.Advances n m') (hend : m'.EndsWith r) :
    m.RunsTo r ∧ m.Reaches n r.machine :=
  ⟨runsTo_iff.2 ⟨n, m', h, hend⟩, h.reaches.trans hend.reaches⟩

/-! ### The three ends -/

/-- A state that halts within the budget **is run to its end**. -/
theorem exists_runsTo_of_haltsIn (h : m.state.HaltsIn n t) (hn : n = 0 ∨ m.Affords n) :
    ∃ r, m.RunsTo r ∧ r.result = .ok t ∧ m.Reaches n r.machine := by
  obtain ⟨m', hm', rfl⟩ := exists_advances h.liveAt h.after_eq hn
  obtain ⟨hr, hreach⟩ := runsTo_of_advances hm' (.halt h.terminal)
  exact ⟨_, hr, rfl, hreach⟩

/-- A state that fails within the budget **is run to its fault**. The step that fails takes
room in the budget like any other. -/
theorem exists_runsTo_of_failsIn (h : m.state.FailsIn n t f) (hn : m.Affords (n + 1)) :
    ∃ r, m.RunsTo r ∧ r.result = .error (.fault f) ∧ m.Reaches n r.machine := by
  have hle : m.Affords n := hn.of_le n.le_succ
  obtain ⟨m', hm', rfl⟩ := exists_advances (fun k hk => h.liveAt (Nat.le_of_lt hk)) h.after_eq
    (.inr hle)
  have hone : m'.Affords 1 := (hm'.reaches.affords_iff hle).2 hn
  have herr : m'.step.result = .error (.fault f) := step_result_eq_fault_iff.2 ⟨hone, h.step_eq⟩
  obtain ⟨hr, hreach⟩ :=
    runsTo_of_advances hm' (.stop (State.terminal_eq_false_of_step h.step_eq) herr)
  exact ⟨_, hr, rfl, hreach⟩

/-- A state that is live when the budget is spent **is run up to there**. -/
theorem exists_runsTo_of_liveAt (hlimit : m.settings.limit = some limit)
    (h : m.state.LiveAt n) (hn : m.steps.toNat + n = limit.toNat) :
    ∃ r, m.RunsTo r ∧ r.result = .error (.exhausted limit) ∧ m.Reaches n r.machine := by
  have haff : m.Affords n := (affords_iff_of_limit hlimit).2 (Nat.le_of_eq hn)
  obtain ⟨t, ht, hlive⟩ := id h
  obtain ⟨m', hm', rfl⟩ := exists_advances (fun k hk => h.of_le (Nat.le_of_lt hk)) ht (.inr haff)
  have hspent : limit ≤ m'.steps := by
    rw [UInt64.le_iff_toNat_le, hm'.reaches.toNat_steps (haff.toNat_lt hlimit)]
    exact Nat.le_of_eq hn.symm
  have herr : m'.step.result = .error (.exhausted limit) :=
    step_result_eq_exhausted_iff.2 ⟨by rw [hm'.reaches.settings_eq, hlimit], hspent⟩
  obtain ⟨hr, hreach⟩ := runsTo_of_advances hm' (.stop hlive herr)
  exact ⟨_, hr, rfl, hreach⟩

/-- **A run has no other ends.** -/
theorem RunsTo.ends (h : m.RunsTo r) :
    ∃ n, m.Reaches n r.machine ∧
      ((∃ t, m.state.HaltsIn n t ∧ (n = 0 ∨ m.Affords n) ∧ r.result = .ok t) ∨
        (∃ t f, m.state.FailsIn n t f ∧ m.Affords (n + 1) ∧ r.result = .error (.fault f)) ∨
        ∃ limit, m.settings.limit = some limit ∧ m.state.LiveAt n ∧ ¬m.Affords (n + 1) ∧
          r.result = .error (.exhausted limit)) := by
  obtain ⟨n, m', hm', hend⟩ := runsTo_iff.1 h
  refine ⟨n, hm'.reaches.trans hend.reaches, ?_⟩
  have hafter := hm'.reaches.after_eq
  cases hend with
  | halt hterm => exact .inl ⟨m'.state, ⟨hafter, hterm, hm'.liveAt⟩, hm'.affords, rfl⟩
  | @stop stop hlive herr =>
    cases stop with
    | fault f =>
      obtain ⟨hone, hf⟩ := step_result_eq_fault_iff.1 herr
      exact .inr (.inl ⟨m'.state, f, ⟨hafter, hf⟩, hm'.affords_iff.1 hone, rfl⟩)
    | exhausted limit =>
      obtain ⟨hlimit, hspent⟩ := step_result_eq_exhausted_iff.1 herr
      refine .inr (.inr ⟨limit, by rw [← hm'.reaches.settings_eq, hlimit],
        ⟨m'.state, hafter, hlive⟩, fun h => ?_, rfl⟩)
      exact not_affords_one hlimit hspent (hm'.affords_iff.2 h)

/-- A run that succeeds has brought the state to its halt. -/
theorem RunsTo.exists_haltsIn (h : m.RunsTo r) (hres : r.result = .ok t) :
    ∃ n, m.state.HaltsIn n t ∧ (n = 0 ∨ m.Affords n) := by
  obtain ⟨n, -, ⟨u, hu, haff, hok⟩ | ⟨u, f, -, -, herr⟩ | ⟨limit, -, -, -, herr⟩⟩ := h.ends
  · obtain rfl := Except.ok.inj (hok.symm.trans hres)
    exact ⟨n, hu, haff⟩
  · cases herr.symm.trans hres
  · cases herr.symm.trans hres

/-! ### Reachable machines -/

/-- The machines that calls of `step` and `run` lead to, whether the calls fail or not. -/
inductive Reachable : Machine → Prop
  | start (settings : Settings) (s : State) : Reachable (start settings s)
  | perform {m : Machine} {fuel : Nat} {action : Action} {r : Reply Unit} :
    Reachable m → m.perform fuel action = some r → Reachable r.machine

/-- A step does not exceed the budget. -/
theorem Affords.step (h : m.Affords 0) : m.step.machine.Affords 0 := by
  cases hres : m.step.result with
  | ok u =>
    have hone : m.Affords 1 := (step_result_eq_ok_iff.1 hres).1
    exact ((reaches_of_step_ok hres).affords_iff hone).2 hone
  | error stop => exact ((reaches_of_step_error hres).affords_iff h).2 h

/-- A run does not exceed the budget. -/
theorem Affords.runsTo (h : m.Affords 0) (hr : m.RunsTo r) : r.machine.Affords 0 := by
  obtain ⟨n, m', hm', hend⟩ := runsTo_iff.1 hr
  have hn : m.Affords n := h.moves hm'.moves
  exact ((hm'.reaches.trans hend.reaches).affords_iff hn).2 hn

/-- **The counter of a reachable machine does not exceed its budget.** -/
theorem Reachable.affords_zero (h : m.Reachable) : m.Affords 0 := by
  induction h with
  | start settings s => exact fun limit _ => Nat.zero_le _
  | @perform m fuel action r _ hr ih =>
    cases action with
    | step =>
      obtain rfl := Option.some.inj hr
      exact ih.step
    | run =>
      obtain ⟨r', hr', rfl⟩ := Option.map_eq_some_iff.1 hr
      exact ih.runsTo ⟨fuel, hr'⟩

/-! ### Raising the limit -/

/-- The machine with another limit. -/
def withLimit (m : Machine) (limit : Option UInt64) : Machine :=
  { m with settings := { m.settings with limit := limit } }

/-- A higher limit, or none, affords no less. -/
theorem Affords.withLimit (h : m.Affords n) (hlimit : m.settings.limit = some limit)
    {limit' : Option UInt64} (hle : ∀ l, limit' = some l → limit ≤ l) :
    (m.withLimit limit').Affords n := by
  intro l hl
  have hll := UInt64.le_iff_toNat_le.1 (hle l hl)
  exact Nat.le_trans (h limit hlimit) hll

/-- Raising the limit changes no result but a refusal. -/
theorem RunsTo.withLimit (h : m.RunsTo r) (hlimit : m.settings.limit = some limit)
    (hr : r.result ≠ .error (.exhausted limit)) {limit' : Option UInt64}
    (hle : ∀ l, limit' = some l → limit ≤ l) :
    ∃ r', (m.withLimit limit').RunsTo r' ∧ r'.result = r.result ∧
      r'.machine.state = r.machine.state ∧ r'.machine.steps = r.machine.steps := by
  obtain ⟨n, hreach, ⟨t, ht, hn, hres⟩ | ⟨t, f, hf, hn, hres⟩ | ⟨l, hl, -, -, hres⟩⟩ := h.ends
  · have hn' : n = 0 ∨ (m.withLimit limit').Affords n :=
      hn.imp_right fun hn => hn.withLimit hlimit hle
    obtain ⟨r', hr', hres', hreach'⟩ := exists_runsTo_of_haltsIn (m := m.withLimit limit') ht hn'
    exact ⟨r', hr', hres'.trans hres.symm,
      Except.ok.inj (hreach'.after_eq.symm.trans hreach.after_eq),
      hreach'.steps_eq.trans hreach.steps_eq.symm⟩
  · obtain ⟨r', hr', hres', hreach'⟩ :=
      exists_runsTo_of_failsIn (m := m.withLimit limit') hf (hn.withLimit hlimit hle)
    exact ⟨r', hr', hres'.trans hres.symm,
      Except.ok.inj (hreach'.after_eq.symm.trans hreach.after_eq),
      hreach'.steps_eq.trans hreach.steps_eq.symm⟩
  · obtain rfl := Option.some.inj (hlimit.symm.trans hl)
    exact absurd hres hr

/-! ### The result of a run -/

/-- A run that neither halts nor fails within its limit is refused when the limit is
reached. -/
theorem exists_runsTo_exhausted (h : m.Affords 0) (hlimit : m.settings.limit = some limit)
    (hhalt : ∀ n t, m.state.HaltsIn n t → ¬m.Affords n)
    (hfail : ∀ n t f, m.state.FailsIn n t f → ¬m.Affords (n + 1)) :
    ∃ r, m.RunsTo r ∧ r.result = .error (.exhausted limit) ∧ r.machine.steps = limit ∧
      m.state.after (limit.toNat - m.steps.toNat) = .ok r.machine.state := by
  have hle : m.steps.toNat ≤ limit.toNat := h limit hlimit
  have haff : ∀ k, k ≤ limit.toNat - m.steps.toNat → m.Affords k := by
    intro k hk
    rw [affords_iff_of_limit hlimit]
    omega
  -- within the limit the state neither halts nor fails, so it is live there
  have hlive : m.state.LiveAt (limit.toNat - m.steps.toNat) := by
    rcases m.state.halts_or_fails_or_liveAt (limit.toNat - m.steps.toNat) with
      ⟨k, t, hk, ht⟩ | ⟨k, t, f, hk, hf⟩ | hlive
    · exact absurd (haff k hk) (hhalt k t ht)
    · exact absurd (haff (k + 1) hk) (hfail k t f hf)
    · exact hlive
  obtain ⟨r, hr, hres, hreach⟩ := exists_runsTo_of_liveAt hlimit hlive (by omega)
  have hsteps := hreach.toNat_steps ((haff _ (Nat.le_refl _)).toNat_lt hlimit)
  exact ⟨r, hr, hres, UInt64.toNat_inj.1 (by omega), hreach.after_eq⟩

/-- Under a limit **every run comes to an end**. -/
theorem exists_runsTo_of_limit (h : m.Affords 0) (hlimit : m.settings.limit = some limit) :
    ∃ r, m.RunsTo r := by
  -- if neither of the first two ends comes about, the third one does
  by_cases hhalt : ∃ n t, m.state.HaltsIn n t ∧ m.Affords n
  · obtain ⟨n, t, ht, hn⟩ := hhalt
    obtain ⟨r, hr, -⟩ := exists_runsTo_of_haltsIn ht (.inr hn)
    exact ⟨r, hr⟩
  · by_cases hfail : ∃ n t f, m.state.FailsIn n t f ∧ m.Affords (n + 1)
    · obtain ⟨n, t, f, hf, hn⟩ := hfail
      obtain ⟨r, hr, -⟩ := exists_runsTo_of_failsIn hf hn
      exact ⟨r, hr⟩
    · obtain ⟨r, hr, -⟩ := exists_runsTo_exhausted h hlimit
        (fun n t ht hn => hhalt ⟨n, t, ht, hn⟩) (fun n t f hf hn => hfail ⟨n, t, f, hf, hn⟩)
      exact ⟨r, hr⟩

/-- **A run does exactly what the iterates of its state and its budget say**, from any machine
that calls have led to.

* It returns the first terminal iterate if the budget allows for the steps up to there, and
  does not look at the budget if that is the present state.
* It fails with the fault of the program if the budget allows for the failing step too, and
  leaves the machine at the state that cannot step.
* In every other case under a limit it is refused, with as many steps taken as the limit says.

So under a limit it always comes to an end, and raising the limit, or taking it away, changes
no result but a refusal. Without a limit, the counter is right as long as it does not
overflow. -/
theorem run_budget_exact (hm : m.Reachable) :
    (∀ n t, m.state.HaltsIn n t → n = 0 ∨ m.Affords n →
      (m.settings.limit = none → m.steps.toNat + n < UInt64.size) →
      ∃ r, m.RunsTo r ∧ r.result = .ok t ∧ r.machine.state = t ∧
        r.machine.steps.toNat = m.steps.toNat + n) ∧
    (∀ n t f, m.state.FailsIn n t f → m.Affords (n + 1) →
      (m.settings.limit = none → m.steps.toNat + n < UInt64.size) →
      ∃ r, m.RunsTo r ∧ r.result = .error (.fault f) ∧ r.machine.state = t ∧
        r.machine.steps.toNat = m.steps.toNat + n) ∧
    (∀ limit, m.settings.limit = some limit →
      (∀ n t, m.state.HaltsIn n t → ¬m.Affords n) →
      (∀ n t f, m.state.FailsIn n t f → ¬m.Affords (n + 1)) →
      ∃ r, m.RunsTo r ∧ r.result = .error (.exhausted limit) ∧ r.machine.steps = limit ∧
        m.state.after (limit.toNat - m.steps.toNat) = .ok r.machine.state) ∧
    (∀ limit, m.settings.limit = some limit → ∃ r, m.RunsTo r) ∧
    ∀ limit limit', m.settings.limit = some limit → (∀ l, limit' = some l → limit ≤ l) →
      ∀ r, m.RunsTo r → r.result ≠ .error (.exhausted limit) →
        ∃ r', (m.withLimit limit').RunsTo r' ∧ r'.result = r.result ∧
          r'.machine.state = r.machine.state ∧ r'.machine.steps = r.machine.steps := by
  have hzero : m.Affords 0 := hm.affords_zero
  -- with a limit the counter cannot overflow, without one it is promised not to
  have hcount : ∀ n, n = 0 ∨ m.Affords n →
      (m.settings.limit = none → m.steps.toNat + n < UInt64.size) → m.steps.toNat + n < UInt64.size := by
    intro n hn hnone
    cases hlimit : m.settings.limit with
    | none => exact hnone hlimit
    | some limit =>
      rcases hn with rfl | hn
      · exact hzero.toNat_lt hlimit
      · exact hn.toNat_lt hlimit
  refine ⟨fun n t ht hn hnone => ?_, fun n t f hf hn hnone => ?_, fun limit hlimit => ?_,
    fun limit hlimit => exists_runsTo_of_limit hzero hlimit,
    fun limit limit' hlimit hle r hr hres => hr.withLimit hlimit hres hle⟩
  · obtain ⟨r, hr, hres, hreach⟩ := exists_runsTo_of_haltsIn ht hn
    exact ⟨r, hr, hres, Except.ok.inj (hreach.after_eq.symm.trans ht.after_eq),
      hreach.toNat_steps (hcount n hn hnone)⟩
  · obtain ⟨r, hr, hres, hreach⟩ := exists_runsTo_of_failsIn hf hn
    exact ⟨r, hr, hres, Except.ok.inj (hreach.after_eq.symm.trans hf.after_eq),
      hreach.toNat_steps (hcount n (.inr (hn.of_le n.le_succ)) hnone)⟩
  · exact exists_runsTo_exhausted hzero hlimit

/-- The sum of two products under a limit of three: after a first step, the run takes the two
steps that are left and is not refused. -/
theorem run_sum_of_products_at_limit :
    let sum : Expr := .binary .add (.binary .multiply (.literal (.number 1)) (.literal (.number 2)))
      (.binary .multiply (.literal (.number 3)) (.literal (.number 4)))
    let m := (start { limit := some 3 } ⟨.expr sum, .empty⟩).step.machine
    let last : State := ⟨.expr (.literal (.number 14)), .empty⟩
    m.Reachable ∧ m.state.HaltsIn 2 last ∧ m.Affords 2 ∧
      ∃ r, m.RunsTo r ∧ r.result = .ok last ∧ r.machine.state = last ∧
        r.machine.steps.toNat = 3 := by
  intro sum m last
  have hstep : (start { limit := some 3 } ⟨.expr sum, .empty⟩).perform 0 .step = some _ := rfl
  have hm : m.Reachable := .perform (.start _ _) hstep
  have hhalt : m.state.HaltsIn 2 last :=
    State.haltsIn_succ_iff.2 ⟨rfl, _, rfl,
      State.haltsIn_succ_iff.2 ⟨rfl, _, rfl, State.haltsIn_zero_iff.2 ⟨rfl, rfl⟩⟩⟩
  have haff : m.Affords 2 := by
    intro limit hlimit
    obtain rfl := Option.some.inj hlimit
    decide
  exact ⟨hm, hhalt, haff, (run_budget_exact hm).1 2 last hhalt (.inr haff) (fun h => nomatch h)⟩

end WhileLang.Machine
