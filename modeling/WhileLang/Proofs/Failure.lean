import WhileLang.Proofs.History

/-!
# After a failure

A call that fails loses nothing, and nothing more is to be had after it: the machine **stands
still**. Whatever calls follow, in whatever order, they leave its state and its counter where they
are. Every step fails once more with the same failure, and so does every run, with one exception: a
run from a terminal state has nothing left to do and succeeds (`Action.resultAtStop`). Such a state
is stepped in vain only when the budget is spent, so a failed run leaves no exception at all.

One call is settled by `exists_perform_of_step_error`, any number of calls by induction on the list
of calls (`standsStill_of_step_error`). Only the journal goes on: a refusal is an event each time.
-/

namespace WhileLang.Machine

variable {m m' : Machine} {fuel n : Nat} {action : Action} {stop : Stop}

/-! ### Machines in the same place -/

/-- After no steps a machine has the state, the counter and the settings that it had. -/
theorem reaches_zero_iff :
    m.Reaches 0 m' ↔ m'.state = m.state ∧ m'.steps = m.steps ∧ m'.settings = m.settings := by
  constructor
  · rintro ⟨hstate, hsteps, hsettings⟩
    exact ⟨(Except.ok.inj hstate).symm, hsteps.trans (UInt64.add_zero _), hsettings⟩
  · rintro ⟨hstate, hsteps, hsettings⟩
    exact ⟨congrArg Except.ok hstate.symm, hsteps.trans (UInt64.add_zero _).symm, hsettings⟩

/-- Machines in the same place have the same result of a step. -/
theorem Reaches.step_result_eq (h : m.Reaches 0 m') : m'.step.result = m.step.result := by
  obtain ⟨hstate, hsteps, hsettings⟩ := reaches_zero_iff.1 h
  have hspent : m'.spent? = m.spent? := by rw [spent?, spent?, hsettings, hsteps]
  rw [step, step, hspent, hstate]
  cases m.spent? with
  | some limit => rfl
  | none => cases m.state.step <;> rfl

/-- A step from a terminal state fails only for the budget. -/
theorem exists_exhausted_of_terminal (hterm : m.state.terminal = true)
    (h : m.step.result = .error stop) : ∃ limit, stop = .exhausted limit := by
  cases stop with
  | exhausted limit => exact ⟨limit, rfl⟩
  | fault f =>
    obtain ⟨-, hf⟩ := step_result_eq_fault_iff.1 h
    cases (State.step_of_terminal hterm).symm.trans hf

/-! ### Standing still -/

/-- The result of a call on a machine whose next step fails: that failure, or success for a run that
has nothing left to do. -/
def Action.resultAtStop (s : State) (stop : Stop) : Action → Except Stop Unit
  | .step => .error stop
  | .run => if s.terminal then .ok () else .error stop

/-- Before its end, every call on a machine whose next step fails has that failure. -/
theorem Action.resultAtStop_of_live {s : State} (h : s.terminal = false) (action : Action) :
    action.resultAtStop s stop = .error stop := by
  cases action with
  | step => rfl
  | run => rw [resultAtStop, if_neg (by rw [h]; exact Bool.false_ne_true)]

/-- Whatever calls are made on the machine, it stays where it is, and the results of the calls are
fixed beforehand. -/
def StandsStill (m : Machine) (result : Action → Except Stop Unit) : Prop :=
  ∀ fuel actions, ∃ rs, m.replies (fuel + 1) actions = some rs ∧
    rs.map Reply.result = actions.map result ∧
    ∀ r ∈ rs, r.machine.state = m.state ∧ r.machine.steps = m.steps

/-- **One call** on a machine whose next step fails. It leaves the machine in its place. -/
theorem exists_perform_of_step_error (h : m.step.result = .error stop) (fuel : Nat)
    (action : Action) :
    ∃ r, m.perform (fuel + 1) action = some r ∧ r.result = action.resultAtStop m.state stop ∧
      m.Reaches 0 r.machine := by
  cases action with
  | step => exact ⟨m.step, rfl, h, reaches_of_step_error h⟩
  | run =>
    cases hterm : m.state.terminal with
    | true =>
      refine ⟨⟨m.note (.halted m.steps m.state), .ok ()⟩, ?_, ?_, (Reaches.refl m).note _⟩
      · rw [perform, run_of_terminal hterm]
        rfl
      · rw [Action.resultAtStop, if_pos hterm]
    | false =>
      refine ⟨⟨m.step.machine, .error stop⟩, ?_, ?_, reaches_of_step_error h⟩
      · rw [perform, run_of_step_error hterm h]
        rfl
      · rw [Action.resultAtStop_of_live hterm]

/-- **Any number of calls** on a machine whose next step fails. -/
theorem standsStill_of_step_error (h : m.step.result = .error stop) :
    m.StandsStill (Action.resultAtStop m.state stop) := by
  intro fuel actions
  induction actions generalizing m with
  | nil => exact ⟨[], rfl, rfl, fun r hr => nomatch hr⟩
  | cons action rest ih =>
    obtain ⟨r, hr, hres, hplace⟩ := exists_perform_of_step_error h fuel action
    -- the machine is in the same place after the call, so its next step fails in the same way
    obtain ⟨rs, hrs, hresults, hstays⟩ := ih (hplace.step_result_eq.trans h)
    obtain ⟨hstate, hsteps, -⟩ := reaches_zero_iff.1 hplace
    refine ⟨r :: rs, replies_cons_eq_some_iff.2 ⟨r, rs, hr, hrs, rfl⟩, ?_, ?_⟩
    · rw [List.map_cons, List.map_cons, hres, hresults, hstate]
    · intro r' hr'
      rcases List.mem_cons.1 hr' with rfl | hmem
      · exact ⟨hstate, hsteps⟩
      · obtain ⟨hstate', hsteps'⟩ := hstays r' hmem
        exact ⟨hstate'.trans hstate, hsteps'.trans hsteps⟩

/-! ### Failed calls -/

/-- A call that fails leaves behind a machine **whose next step fails in the same way**. After a run
its state is not terminal, and after a step it is that of before. -/
theorem step_error_of_perform_error {r : Reply Unit} (h : m.perform fuel action = some r)
    (herr : r.result = .error stop) :
    r.machine.step.result = .error stop ∧
      match action with
      | .step => m.Reaches 0 r.machine
      | .run => r.machine.state.terminal = false := by
  match action with
  | .step =>
    obtain rfl : m.step = r := Option.some.inj h
    have hplace := reaches_of_step_error herr
    exact ⟨hplace.step_result_eq.trans herr, hplace⟩
  | .run =>
    obtain ⟨q, hq, rfl⟩ := Option.map_eq_some_iff.1 h
    obtain ⟨m', -, hend⟩ := exists_advances_of_run hq
    cases hend with
    | halt hterm => cases herr
    | @stop stop' hlive hstop =>
      obtain rfl : stop' = stop := Except.error.inj herr
      have hplace := reaches_of_step_error hstop
      refine ⟨hplace.step_result_eq.trans hstop, ?_⟩
      rw [(reaches_zero_iff.1 hplace).1, hlive]

/-- **Failed calls lose nothing, and failures are stable.**

* A step that fails leaves the state and the counter as they were, and so do all calls after it, of
  which every step fails in the same way.
* A run that fails leaves the machine in the state, not a terminal one, to which its successful
  steps have led, with the counter ahead by their number. All calls after it fail in the same way and
  leave the state and the counter as they are.
* After a call that has failed, a run succeeds exactly if that call was a step, refused by the budget
  in a terminal state. It then takes no step.

Without a limit, the counter is right as long as it does not overflow. -/
theorem failures_are_stable (hm : m.Reachable) :
    (∀ stop, m.step.result = .error stop →
      m.step.machine.state = m.state ∧ m.step.machine.steps = m.steps ∧
        m.step.machine.StandsStill (Action.resultAtStop m.state stop)) ∧
    (∀ fuel r stop, m.run fuel = some r → r.result = .error stop →
      let n := m.stepsInRun fuel
      r.machine.state.terminal = false ∧ m.state.after n = .ok r.machine.state ∧
        r.machine.steps = m.steps + UInt64.ofNat n ∧
        ((m.settings.limit = none → m.steps.toNat + n < UInt64.size) →
          r.machine.steps.toNat = m.steps.toNat + n) ∧
        r.machine.StandsStill fun _ => .error stop) ∧
    ∀ fuel action r stop, m.perform fuel action = some r → r.result = .error stop →
      ∀ fuel', ∃ q, r.machine.run (fuel' + 1) = some q ∧
        q.machine.state = r.machine.state ∧ q.machine.steps = r.machine.steps ∧
        ((∃ s, q.result = .ok s) ↔
          action = .step ∧ m.state.terminal = true ∧ ∃ limit, stop = .exhausted limit) := by
  refine ⟨fun stop herr => ?step, fun fuel r stop hr herr => ?run,
    fun fuel action r stop hr herr fuel' => ?after⟩
  case step =>
    have hplace := reaches_of_step_error herr
    obtain ⟨hstate, hsteps, -⟩ := reaches_zero_iff.1 hplace
    refine ⟨hstate, hsteps, ?_⟩
    rw [← hstate]
    exact standsStill_of_step_error (hplace.step_result_eq.trans herr)
  case run =>
    intro n
    have hperform : m.perform fuel .run = some ⟨r.machine, r.result.map fun _ => ()⟩ := by
      rw [perform, hr]
      rfl
    have hreach : m.Reaches n r.machine := reaches_of_perform hperform
    have hfail : (r.result.map fun _ => ()) = .error stop := by
      rw [herr]
      rfl
    obtain ⟨hstop, hlive⟩ := step_error_of_perform_error hperform hfail
    have haff : m.Affords n := hm.affords_zero.perform hperform
    refine ⟨hlive, hreach.after_eq, hreach.steps_eq, fun hcount => hreach.toNat_steps ?_, ?_⟩
    · cases hlimit : m.settings.limit with
      | none => exact hcount hlimit
      | some limit => exact haff.toNat_lt hlimit
    · have hresult : Action.resultAtStop r.machine.state stop = fun _ => .error stop :=
        funext (Action.resultAtStop_of_live hlive)
      rw [← hresult]
      exact standsStill_of_step_error hstop
  case after =>
    obtain ⟨hstop, hplace⟩ := step_error_of_perform_error hr herr
    cases hterm : r.machine.state.terminal with
    | true =>
      refine ⟨_, run_of_terminal hterm, state_note .., steps_note .., ?_⟩
      refine iff_of_true ⟨_, rfl⟩ ?_
      match action with
      | .step =>
        rw [← (reaches_zero_iff.1 hplace).1]
        exact ⟨rfl, hterm, exists_exhausted_of_terminal hterm hstop⟩
      | .run => cases hterm.symm.trans hplace
    | false =>
      obtain ⟨hstate, hsteps, -⟩ := reaches_zero_iff.1 (reaches_of_step_error hstop)
      refine ⟨_, run_of_step_error hterm hstop, hstate, hsteps, ?_⟩
      refine iff_of_false (fun ⟨_, hok⟩ => nomatch hok) ?_
      rintro ⟨rfl, hlast, -⟩
      rw [← (reaches_zero_iff.1 hplace).1, hterm] at hlast
      exact Bool.false_ne_true hlast

/-- A condition that is a number: a run takes three steps and fails, and every call after it fails in
the same way. A literal under a limit of zero: a step is refused, and a run after it succeeds. -/
theorem failures_are_stable_number_condition :
    let program : Stmt := .seq (.assign "x" (.literal (.number 1)))
      (.branch (.var "x") .doNothing .doNothing)
    let m := start {} ⟨.stmt program, .empty⟩
    let idle := start { limit := some 0 } ⟨.expr (.literal (.bool true)), .empty⟩
    m.Reachable ∧ idle.Reachable ∧
      (∃ r, m.run 4 = some r ∧ r.result = .error (.fault (.condition .number)) ∧
        m.stepsInRun 4 = 3 ∧ r.machine.state.terminal = false ∧ r.machine.steps = 3 ∧
        r.machine.StandsStill fun _ => .error (.fault (.condition .number))) ∧
      idle.step.result = .error (.exhausted 0) ∧
      ∃ q, idle.step.machine.run 1 = some q ∧ q.machine.steps = 0 ∧ ∃ s, q.result = .ok s := by
  intro program m idle
  have hm : m.Reachable := .start _ _
  have hidle : idle.Reachable := .start _ _
  have hrun : m.run 4 = some _ := rfl
  obtain ⟨-, hfailed, -⟩ := failures_are_stable hm
  obtain ⟨hlive, -, hsteps, -, hstill⟩ := hfailed 4 _ _ hrun rfl
  have hperform : idle.perform 1 .step = some idle.step := rfl
  obtain ⟨-, -, hafter⟩ := failures_are_stable hidle
  obtain ⟨q, hq, -, hcount, hiff⟩ := hafter 1 .step _ _ hperform rfl 0
  exact ⟨hm, hidle, ⟨_, hrun, rfl, rfl, hlive, hsteps, hstill⟩, rfl, q, hq, hcount,
    hiff.2 ⟨rfl, rfl, 0, rfl⟩⟩

end WhileLang.Machine
