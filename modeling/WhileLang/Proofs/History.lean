import WhileLang.Proofs.Budget

/-!
# The history of a machine

A machine is told to step and to run, again and again and in whatever order. Some of the calls
fail, and some are made on a terminal state. Through all of that the state and the counter of the
machine stay in agreement: the state is the start stepped **as often as the counter says**
(`state_eq_after_counter`).

All of it follows from what one call does. A call moves a machine on by a number of steps, which
`stepsInCall` counts without ever overflowing, and then `Closes` in one of four ways
(`exists_closes_of_perform`). None of the four leads any further.
-/

namespace WhileLang.Machine

variable {m m' : Machine} {fuel : Nat} {action : Action} {actions : List Action}
  {r : Reply Unit} {rs : List (Reply Unit)} {settings : Settings} {s : State}

/-! ### Counting the steps of calls -/

/-- The number of steps that a call takes. -/
def stepsInCall (fuel : Nat) (m : Machine) : Action → Nat
  | .step =>
    match m.step.result with
    | .ok () => 1
    | .error _ => 0
  | .run => m.stepsInRun fuel

/-- The number of steps that calls take, made one after the other. -/
def stepsInCalls (fuel : Nat) (m : Machine) : List Action → Nat
  | [] => 0
  | action :: rest =>
    match m.perform fuel action with
    | none => 0
    | some r => m.stepsInCall fuel action + r.machine.stepsInCalls fuel rest

theorem stepsInCalls_cons {rest : List Action} (h : m.perform fuel action = some r) :
    m.stepsInCalls fuel (action :: rest)
      = m.stepsInCall fuel action + r.machine.stepsInCalls fuel rest := by
  rw [stepsInCalls, h]

/-! ### What one call does -/

/-- The reply to a call that takes no more steps on the machine. -/
inductive Closes (m : Machine) : Action → Reply Unit → Prop
  /-- The step that was asked for has been taken. -/
  | stepped : Closes m .step ⟨m, .ok ()⟩
  /-- The run has come to its end. -/
  | halted : m.state.terminal = true →
    Closes m .run ⟨m.note (.halted m.steps m.state), .ok ()⟩
  /-- The budget is spent. -/
  | refused {limit : UInt64} (action : Action) : m.settings.limit = some limit →
    limit ≤ m.steps →
    Closes m action ⟨m.note (.exhausted limit m.state.term), .error (.exhausted limit)⟩
  /-- The program fails. -/
  | failed {f : Fault} (action : Action) : m.Affords 1 → m.state.step = .error f →
    Closes m action ⟨m, .error (.fault f)⟩

/-- The reply leaves the machine where it is. -/
theorem Closes.reaches (h : m.Closes action r) : m.Reaches 0 r.machine := by
  rcases h with _ | _ | _ | _
  · exact .refl m
  · exact (Reaches.refl m).note _
  · exact (Reaches.refl m).note _
  · exact .refl m

/-- A step that fails closes every call. -/
theorem closes_of_step_error (action : Action) {stop : Stop} (h : m.step.result = .error stop) :
    m.Closes action ⟨m.step.machine, .error stop⟩ := by
  rcases step_cases m with ⟨limit, hlimit, hle, hm⟩ | ⟨haff, f, hf, hm⟩ | ⟨-, t, -, hm⟩
  · rw [hm] at h ⊢
    obtain rfl := Except.error.inj h
    exact .refused action hlimit hle
  · rw [hm] at h ⊢
    obtain rfl := Except.error.inj h
    exact .failed action haff hf
  · rw [hm] at h
    exact nomatch h

/-- **All that a call can do**: it moves the machine on, by as many steps as it counts, and
closes. -/
theorem exists_closes_of_perform (h : m.perform fuel action = some r) :
    ∃ m', m.Moves (m.stepsInCall fuel action) m' ∧ m'.Closes action r := by
  match action with
  | .step =>
    obtain rfl : m.step = r := Option.some.inj h
    rw [stepsInCall]
    match hres : m.step.result with
    | .ok () =>
      have hreply : m.step = ⟨m.step.machine, .ok ()⟩ := by rw [← hres]
      refine ⟨m.step.machine, .head hres (.refl _), ?_⟩
      rw [hreply]
      exact .stepped
    | .error stop =>
      have hreply : m.step = ⟨m.step.machine, .error stop⟩ := by rw [← hres]
      refine ⟨m, .refl m, ?_⟩
      rw [hreply]
      exact closes_of_step_error .step hres
  | .run =>
    obtain ⟨r', hr', rfl⟩ := Option.map_eq_some_iff.1 h
    obtain ⟨m', hm', hend⟩ := exists_advances_of_run hr'
    refine ⟨m', hm'.moves, ?_⟩
    rcases hend with hterm | ⟨-, herr⟩
    · exact .halted hterm
    · exact closes_of_step_error .run herr

/-- A call leads as many steps further as it counts. -/
theorem reaches_of_perform (h : m.perform fuel action = some r) :
    m.Reaches (m.stepsInCall fuel action) r.machine := by
  obtain ⟨m', hm', hclose⟩ := exists_closes_of_perform h
  exact hm'.reaches.trans hclose.reaches

/-- A budget that is not exceeded allows for the steps of a call. -/
theorem Affords.perform (h0 : m.Affords 0) (h : m.perform fuel action = some r) :
    m.Affords (m.stepsInCall fuel action) := by
  obtain ⟨m', hm', -⟩ := exists_closes_of_perform h
  exact h0.moves hm'

/-! ### What many calls do -/

/-- Calls lead as many steps further as they count. -/
theorem reaches_of_replies (h : m.replies fuel actions = some rs) :
    m.Reaches (m.stepsInCalls fuel actions) (Reply.lastMachine m rs) := by
  induction actions generalizing m rs with
  | nil =>
    obtain rfl : [] = rs := Option.some.inj h
    exact .refl m
  | cons action rest ih =>
    obtain ⟨r, rs', hr, hrs, rfl⟩ := replies_cons_eq_some_iff.1 h
    rw [stepsInCalls_cons hr, Reply.lastMachine_cons]
    exact (reaches_of_perform hr).trans (ih hrs)

/-- A budget that is not exceeded allows for the steps of all calls. -/
theorem Affords.replies (h0 : m.Affords 0) (h : m.replies fuel actions = some rs) :
    m.Affords (m.stepsInCalls fuel actions) := by
  induction actions generalizing m rs with
  | nil => exact h0
  | cons action rest ih =>
    obtain ⟨r, rs', hr, hrs, rfl⟩ := replies_cons_eq_some_iff.1 h
    have hcall : m.Affords (m.stepsInCall fuel action) := h0.perform hr
    have hreach := reaches_of_perform hr
    rw [stepsInCalls_cons hr, ← hreach.affords_iff hcall]
    exact ih ((hreach.affords_iff hcall).2 hcall) hrs

/-- Under a limit **every list of calls is replied to**. -/
theorem exists_replies_of_limit {limit : UInt64} (h0 : m.Affords 0)
    (hlimit : m.settings.limit = some limit) (actions : List Action) :
    ∃ fuel rs, m.replies fuel actions = some rs := by
  induction actions generalizing m with
  | nil => exact ⟨0, [], rfl⟩
  | cons action rest ih =>
    obtain ⟨fuel, r, hr⟩ : ∃ fuel r, m.perform fuel action = some r := by
      match action with
      | .step => exact ⟨0, m.step, rfl⟩
      | .run =>
        obtain ⟨r, fuel, hr⟩ := exists_runsTo_of_limit h0 hlimit
        exact ⟨fuel, _, Option.map_eq_some_iff.2 ⟨r, hr, rfl⟩⟩
    have hreach := reaches_of_perform hr
    have hcall : m.Affords (m.stepsInCall fuel action) := h0.perform hr
    obtain ⟨fuel', rs, hrs⟩ := ih ((hreach.affords_iff hcall).2 hcall)
      (by rw [hreach.settings_eq, hlimit])
    -- the same fuel has to do for the first call and for the others
    exact ⟨max fuel fuel', r :: rs, replies_cons_eq_some_iff.2 ⟨r, rs,
      perform_mono (Nat.le_max_left _ _) hr, replies_mono (Nat.le_max_right _ _) hrs, rfl⟩⟩

/-! ### From the start -/

/-- At its start a machine has not exceeded its budget. -/
theorem affords_zero_start (settings : Settings) (s : State) : (start settings s).Affords 0 :=
  fun _ _ => Nat.zero_le _

/-- The counter of a machine says how many steps the calls since its start have taken: always
under a limit, and else as long as it does not overflow. -/
theorem toNat_steps_of_replies (h : (start settings s).replies fuel actions = some rs)
    (hcount : settings.limit = none →
      (start settings s).stepsInCalls fuel actions < UInt64.size) :
    (Reply.lastMachine (start settings s) rs).steps.toNat
      = (start settings s).stepsInCalls fuel actions := by
  have hlt : (start settings s).steps.toNat + (start settings s).stepsInCalls fuel actions
      < UInt64.size := by
    match hlimit : settings.limit with
    | none => exact (Nat.zero_add _).symm ▸ hcount hlimit
    | some limit => exact ((affords_zero_start settings s).replies h).toNat_lt hlimit
  exact ((reaches_of_replies h).toNat_steps hlt).trans (Nat.zero_add _)

/-- **The state of a machine is its start stepped as often as its counter says**, after whatever
calls of `step` and `run`, whether they fail or not.

* The counter is the number of steps that the calls have taken, none of which has failed, and it
  does not exceed the limit. So it never overflows under a limit, however high. Without a limit
  it is promised not to.
* Calls that end with the same counter end in the same state, even under different limits.
* Under a limit, all calls are replied to. -/
theorem state_eq_after_counter (settings : Settings) (s : State) :
    let m₀ := start settings s
    (∀ fuel actions rs, m₀.replies fuel actions = some rs →
      (settings.limit = none → m₀.stepsInCalls fuel actions < UInt64.size) →
      let m := Reply.lastMachine m₀ rs
      m.steps.toNat = m₀.stepsInCalls fuel actions ∧ s.after m.steps.toNat = .ok m.state ∧
        ∀ limit, settings.limit = some limit → m.steps ≤ limit) ∧
    (∀ fuel actions rs settings' fuel' actions' rs',
      let m₀' := start settings' s
      m₀.replies fuel actions = some rs → m₀'.replies fuel' actions' = some rs' →
      (settings.limit = none → m₀.stepsInCalls fuel actions < UInt64.size) →
      (settings'.limit = none → m₀'.stepsInCalls fuel' actions' < UInt64.size) →
      (Reply.lastMachine m₀ rs).steps = (Reply.lastMachine m₀' rs').steps →
      (Reply.lastMachine m₀ rs).state = (Reply.lastMachine m₀' rs').state) ∧
    ∀ limit, settings.limit = some limit → ∀ actions, ∃ fuel rs,
      m₀.replies fuel actions = some rs := by
  -- the first statement serves both call lists of the second one
  have hafter : ∀ {settings fuel actions rs}, (start settings s).replies fuel actions = some rs →
      (settings.limit = none → (start settings s).stepsInCalls fuel actions < UInt64.size) →
      s.after (Reply.lastMachine (start settings s) rs).steps.toNat
        = .ok (Reply.lastMachine (start settings s) rs).state := by
    intro settings fuel actions rs h hcount
    rw [toNat_steps_of_replies h hcount]
    exact (reaches_of_replies h).after_eq
  refine ⟨fun fuel actions rs h hcount => ⟨toNat_steps_of_replies h hcount, hafter h hcount, ?_⟩,
    fun fuel actions rs settings' fuel' actions' rs' h h' hcount hcount' heq => ?_,
    fun limit hlimit actions =>
      exists_replies_of_limit (affords_zero_start settings s) hlimit actions⟩
  · intro limit hlimit
    have haff := (affords_zero_start settings s).replies h limit hlimit
    rw [UInt64.le_iff_toNat_le, toNat_steps_of_replies h hcount]
    exact Nat.le_trans (Nat.le_add_left _ _) haff
  · have hstate := hafter h hcount
    rw [heq, hafter h' hcount'] at hstate
    exact (Except.ok.inj hstate).symm

/-- A sum of two products under a limit of four: three steps finish it, one more is idle, and the
next one is refused. Without a limit, a run and an idle step end with the same counter. -/
theorem state_eq_after_counter_idle_step :
    let sum : Expr := .binary .add (.binary .multiply (.literal (.number 1)) (.literal (.number 2)))
      (.binary .multiply (.literal (.number 3)) (.literal (.number 4)))
    let s : State := ⟨.expr sum, .empty⟩
    let m₀ := start { limit := some 4 } s
    let m₀' := start {} s
    ∃ rs rs', m₀.replies 4 [.step, .run, .step, .step, .run] = some rs ∧
      m₀'.replies 4 [.run, .step] = some rs' ∧
      rs.map Reply.result = [.ok (), .ok (), .ok (), .error (.exhausted 4), .ok ()] ∧
      s.after (Reply.lastMachine m₀ rs).steps.toNat = .ok (Reply.lastMachine m₀ rs).state ∧
      (Reply.lastMachine m₀ rs).steps ≤ 4 ∧
      (Reply.lastMachine m₀ rs).state = (Reply.lastMachine m₀' rs').state := by
  intro sum s m₀ m₀'
  have hrs : m₀.replies 4 [.step, .run, .step, .step, .run] = some _ := rfl
  have hrs' : m₀'.replies 4 [.run, .step] = some _ := rfl
  have hcount : m₀'.stepsInCalls 4 [.run, .step] < UInt64.size := by decide
  obtain ⟨hhistory, hsame, -⟩ := state_eq_after_counter { limit := some 4 } s
  obtain ⟨-, hafter, hle⟩ := hhistory 4 _ _ hrs (fun h => nomatch h)
  have hstate :=
    hsame 4 _ _ {} 4 _ _ hrs hrs' (fun h => nomatch h) (fun _ => hcount) (by decide)
  exact ⟨_, _, hrs, hrs', rfl, hafter, hle 4 rfl, hstate⟩

end WhileLang.Machine
