import WhileLang.Proofs.Agreement
import WhileLang.Proofs.Failure
import WhileLang.Proofs.SequenceTrace

/-!
# Where failures are reported

A program can be looked at in many ways: it is stepped by hand or by a machine, run, traced,
evaluated, or checked. Each of these may report a failure, and `s.Reports settings stop` says that
one of them does, for a program in the state `s` and machines with the settings `settings`.

However a failure is come by, there are **only two sources** of it (`State.Reports.meets`): a step
of the run fails with a fault, or the machine has a limit. What is to be said of the faults that any
operation reports has therefore to be said of a single step only.
-/

namespace WhileLang

/-! ### Reports and their sources -/

namespace State

/-- Some operation on a program in this state reports a failure. -/
inductive Reports (settings : Settings) (s : State) : Stop → Prop
  /-- The state is stepped by hand, any number of times. -/
  | step {n : Nat} {t : State} {f : Fault} : s.after n = .ok t → t.step = .error f →
    Reports settings s (.fault f)
  /-- The term is evaluated. -/
  | evaluate {fuel : Nat} {f : Fault} : Parity.bigStep fuel s = some (.error f) →
    Reports settings s (.fault f)
  /-- A machine is told to step or to run, after other such calls, whether they fail or not. -/
  | call {fuel : Nat} {actions : List Machine.Action} {rs : List (Reply Unit)} {r : Reply Unit}
      {stop : Stop} :
    (Machine.start settings s).replies fuel actions = some rs → r ∈ rs → r.result = .error stop →
    Reports settings s stop
  /-- A machine is traced, after such calls. -/
  | item {fuel n : Nat} {actions : List Machine.Action} {rs : List (Reply Unit)} {stop : Stop} :
    (Machine.start settings s).replies fuel actions = some rs →
    some (.error stop) ∈ ((Reply.lastMachine (Machine.start settings s) rs).trace.take n).1 →
    Reports settings s stop
  /-- The outcome of the small steps is asked for. -/
  | smallStep {fuel : Nat} {p : Reply Outcome} {stop : Stop} :
    Parity.smallStep fuel settings s = some p → p.result = .error stop → Reports settings s stop
  /-- The two readings are checked against each other. -/
  | check {fuel : Nat} {c : Reply Parity} {stop : Stop} :
    Parity.check fuel settings s = some c → c.result = .error stop → Reports settings s stop

/-- There is a source for the failure: the run fails with the fault, or the budget is limited. -/
inductive Meets (settings : Settings) (s : State) : Stop → Prop
  | fault {n : Nat} {t : State} {f : Fault} : s.FailsIn n t f → Meets settings s (.fault f)
  | exhausted {limit : UInt64} : settings.limit = some limit → Meets settings s (.exhausted limit)

/-- A fault is met only in the run. -/
theorem Meets.exists_failsIn {settings : Settings} {s : State} {f : Fault}
    (h : s.Meets settings (.fault f)) : ∃ n t, s.FailsIn n t f := by
  cases h with
  | fault hf => exact ⟨_, _, hf⟩

/-- A refusal is met only under a limit. -/
theorem Meets.limit_eq {settings : Settings} {s : State} {limit : UInt64}
    (h : s.Meets settings (.exhausted limit)) : settings.limit = some limit := by
  cases h with
  | exhausted hlimit => exact hlimit

end State

/-! ### Machines -/

namespace Machine

variable {m m' : Machine} {fuel n : Nat} {stop : Stop}

/-- A step that fails meets its failure, wherever steps have led to before. -/
theorem Reaches.meets (h : m.Reaches n m') (herr : m'.step.result = .error stop) :
    m.state.Meets m.settings stop := by
  cases stop with
  | fault f =>
    obtain ⟨-, hf⟩ := step_result_eq_fault_iff.1 herr
    exact .fault ⟨h.after_eq, hf⟩
  | exhausted limit =>
    obtain ⟨hlimit, -⟩ := step_result_eq_exhausted_iff.1 herr
    exact .exhausted (h.settings_eq.symm ▸ hlimit)

/-- A call that fails, one of many, leaves behind a machine **whose next step fails in the same
way**. -/
theorem exists_reaches_of_mem_replies {actions : List Action} {rs : List (Reply Unit)}
    {r : Reply Unit} (h : m.replies fuel actions = some rs) (hr : r ∈ rs)
    (herr : r.result = .error stop) :
    ∃ n, m.Reaches n r.machine ∧ r.machine.step.result = .error stop := by
  induction actions generalizing m rs with
  | nil =>
    obtain rfl : [] = rs := Option.some.inj h
    cases hr
  | cons action rest ih =>
    obtain ⟨r₁, rs', hr₁, hrs', rfl⟩ := replies_cons_eq_some_iff.1 h
    have hfirst := reaches_of_perform hr₁
    rcases List.mem_cons.1 hr with rfl | hmem
    · exact ⟨_, hfirst, (step_error_of_perform_error hr₁ herr).1⟩
    · obtain ⟨k, hreach, hstop⟩ := ih hrs' hmem
      exact ⟨_, hfirst.trans hreach, hstop⟩

/-- A failure that a trace yields is that of a step. -/
theorem exists_reaches_of_mem_take_trace
    (h : some (.error stop) ∈ (m.trace.take n).1) :
    ∃ k m', m.Reaches k m' ∧ m'.step.result = .error stop := by
  rw [Trace.take_eq_map_answer] at h
  obtain ⟨i, -, hi⟩ := List.mem_map.1 h
  have hstands := Trace.standsAt_take m i
  obtain ⟨k, m', hm', -, hstop⟩ := hstands.exists_advances_of_next_eq_error hi
  exact ⟨k, m', hm'.reaches, hstop⟩

/-- A run that fails meets its failure. -/
theorem RunsTo.meets {r : Reply State} (h : m.RunsTo r) (herr : r.result = .error stop) :
    m.state.Meets m.settings stop := by
  obtain ⟨n, m', hm', hend⟩ := runsTo_iff.1 h
  cases hend with
  | halt _ => cases herr
  | stop _ hstop =>
    obtain rfl := Except.error.inj herr
    exact hm'.reaches.meets hstop

end Machine

/-! ### Outcomes and checks -/

namespace Parity

variable {s : State} {settings : Settings} {fuel : Nat} {f : Fault} {stop : Stop}

/-- A fault of evaluation is met in the run. -/
theorem meets_of_bigStep (h : bigStep fuel s = some (.error f)) :
    s.Meets settings (.fault f) := by
  obtain ⟨n, t, ht⟩ := State.exists_failsIn_iff.2 ⟨fuel, h⟩
  exact .fault ht

/-- The small steps fail with the failure of the run, **never in reading off the outcome** of its
last state. -/
theorem meets_of_smallStep {p : Reply Outcome} (h : smallStep fuel settings s = some p)
    (herr : p.result = .error stop) : s.Meets settings stop := by
  cases hr : (Machine.start settings s).run fuel with
  | none => simp [smallStep, hr] at h
  | some r =>
    cases hres : r.result with
    | error stop' =>
      obtain rfl := Option.some.inj ((smallStep_of_run_error hr hres).symm.trans h)
      obtain rfl := Except.error.inj herr
      exact Machine.RunsTo.meets ⟨fuel, hr⟩ hres
    | ok t =>
      obtain ⟨n, ht, -⟩ := Machine.RunsTo.exists_haltsIn ⟨fuel, hr⟩ hres
      obtain ⟨o, ho⟩ := State.exists_outcome_eq_ok ht.terminal
      obtain rfl := Option.some.inj ((smallStep_of_run_ok hr hres).symm.trans h)
      rw [ho] at herr
      cases herr

/-- A check fails with the failure of the small steps, or with the fault of evaluation. -/
theorem meets_of_check {c : Reply Parity} (h : check fuel settings s = some c)
    (herr : c.result = .error stop) : s.Meets settings stop := by
  cases hp : smallStep fuel settings s with
  | none => simp [check, hp] at h
  | some p =>
    cases hres : p.result with
    | error stop' =>
      obtain rfl := Option.some.inj ((check_of_smallStep_error hp hres).symm.trans h)
      obtain rfl := Except.error.inj herr
      exact meets_of_smallStep hp hres
    | ok small =>
      rw [check_of_smallStep_ok hp hres] at h
      obtain ⟨q, hq, rfl⟩ := Option.map_eq_some_iff.1 h
      cases q with
      | ok big => cases herr
      | error f =>
        obtain rfl := Except.error.inj herr
        exact meets_of_bigStep hq

end Parity

/-! ### The two sources -/

namespace State

variable {settings : Settings} {s : State} {f : Fault} {stop : Stop}

/-- **Every failure that an operation reports has one of the two sources.** -/
theorem Reports.meets (h : s.Reports settings stop) : s.Meets settings stop := by
  cases h with
  | step hafter hf => exact .fault ⟨hafter, hf⟩
  | evaluate hq => exact Parity.meets_of_bigStep hq
  | call hrs hr herr =>
    obtain ⟨n, hreach, hstop⟩ := Machine.exists_reaches_of_mem_replies hrs hr herr
    exact hreach.meets hstop
  | item hrs hitem =>
    have hcalls := Machine.reaches_of_replies hrs
    obtain ⟨k, m', hreach, hstop⟩ := Machine.exists_reaches_of_mem_take_trace hitem
    exact (hcalls.trans hreach).meets hstop
  | smallStep hp herr => exact Parity.meets_of_smallStep hp herr
  | check hc herr => exact Parity.meets_of_check hc herr

/-- Faults are reported **exactly where the run fails with them**. -/
theorem reports_fault_iff : s.Reports settings (.fault f) ↔ ∃ n t, s.FailsIn n t f := by
  refine ⟨fun h => h.meets.exists_failsIn, ?_⟩
  rintro ⟨n, t, h⟩
  exact .step h.after_eq h.step_eq

/-- Refusals are reported only under the limit that they name. -/
theorem Reports.limit_eq {limit : UInt64} (h : s.Reports settings (.exhausted limit)) :
    settings.limit = some limit :=
  h.meets.limit_eq

end State

end WhileLang
