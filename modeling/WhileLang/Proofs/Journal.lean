import WhileLang.Proofs.History
import WhileLang.Proofs.TraceRun

/-!
# The journal of a machine

A machine that records tells what it does. Here the journal is read as a log, one line for each
event, and compared with the states that the machine goes through.

* Calls of `step` and `run` **replay** the steps: their lines are numbered from one on, without a
  gap, and the `i`-th one shows the `i`-th iterate of the start. `State.StepLines` says that of
  any stretch of the log. Behind its steps a call adds the line that tells how it ended, if that
  is worth one (`Action.closing`).
* Each request to a trace adds the line of the step that it took, if any, and then says whether
  the trace has come to its end (`Trace.answerLines`).

`log_replays_calls` puts both together.
-/

namespace WhileLang

/-! ### Lines -/

/-- What an event shows: how important it is, its message, its number, and the text of what it is
about. -/
structure Line where
  level : Level
  message : String
  number : UInt64
  text : Option String
  deriving DecidableEq, Repr

/-- The number of an event: that of a step, of all steps so far, or of the steps allowed. -/
def Event.number : Event → UInt64
  | reduced step _ => step
  | halted steps _ => steps
  | finished steps => steps
  | exhausted limit _ => limit

/-- The text of the state or of the term that an event is about. -/
def Event.text? : Event → Option String
  | reduced _ state => some state.render
  | halted _ state => some state.render
  | finished _ => none
  | exhausted _ term => some term.render

/-- The line of an event. -/
def Event.line (e : Event) : Line :=
  ⟨e.level, e.message, e.number, e.text?⟩

/-- The lines of all events so far, in order. -/
def Machine.log (m : Machine) : List Line :=
  m.events.map Event.line

/-- Whether a line tells of a step. -/
def Line.isTrace (l : Line) : Bool :=
  l.level == .trace

/-- Whether a line tells of the end of a trace. -/
def Line.isFinished (l : Line) : Bool :=
  l.message == "trace finished"

/-! ### Lines of steps -/

/-- The line of the `i`-th step from a state, or the fault of a step before it. -/
def State.stepLine (s : State) (i : Nat) : Except Fault Line :=
  (s.after i).map fun t => ⟨.trace, "reduced", UInt64.ofNat i, some t.render⟩

/-- The lines are those of the `n` steps that follow the first `k` ones. -/
def State.StepLines (s : State) (k n : Nat) (lines : List Line) : Prop :=
  lines.map Except.ok = (List.range' (k + 1) n).map s.stepLine

namespace State.StepLines

variable {s : State} {k n n' : Nat} {lines lines' : List Line}

theorem nil : s.StepLines k 0 [] := rfl

/-- One line in front for one step before the others. -/
theorem cons {l : Line} (hl : s.stepLine (k + 1) = .ok l) (h : s.StepLines (k + 1) n lines) :
    s.StepLines k (n + 1) (l :: lines) := by
  rw [StepLines, List.map_cons, List.range'_succ, List.map_cons, hl, h]

/-- The lines of some steps and of the steps after them. -/
theorem append (h : s.StepLines k n lines) (h' : s.StepLines (k + n) n' lines') :
    s.StepLines k (n + n') (lines ++ lines') := by
  have hrange : List.range' (k + 1) (n + n')
      = List.range' (k + 1) n ++ List.range' (k + n + 1) n' := by
    rw [Nat.add_right_comm k n 1, List.range'_append_1]
  rw [StepLines, List.map_append, hrange, List.map_append, h, h']

/-- Lines of steps are nothing else. -/
theorem isTrace (h : s.StepLines k n lines) : ∀ l ∈ lines, l.isTrace = true := by
  intro l hl
  have hmem : Except.ok l ∈ (List.range' (k + 1) n).map s.stepLine :=
    h ▸ List.mem_map_of_mem hl
  obtain ⟨i, -, hi⟩ := List.mem_map.1 hmem
  obtain ⟨t, -, rfl⟩ := Except.map_eq_ok_iff.1 hi
  rfl

end State.StepLines

/-! ### Lines of ends -/

/-- The lines of a call that fails, beside those of its steps. A fault has none. -/
def Stop.lines (m : Machine) : Stop → List Line
  | fault _ => []
  | exhausted limit => [⟨.warn, "step limit exceeded", limit, some m.state.term.render⟩]

/-- The lines at the end of a call, read off the machine that it leaves behind. -/
def Machine.Action.closing (m : Machine) : Action → Except Stop Unit → List Line
  | .step, .ok () => []
  | .run, .ok () => [⟨.debug, "machine halted", m.steps, some m.state.render⟩]
  | _, .error stop => stop.lines m

/-- The line at the end of a trace. -/
def finishedLine (m : Machine) : Line :=
  ⟨.debug, "trace finished", m.steps, none⟩

/-- The lines of a request to a trace, read off the machine that it leaves behind and off its
answer. They begin with the line of a step, if one was taken. -/
def Trace.answerLines (stepped : Bool) (m : Machine) : Option (Except Stop State) → List Line
  | some (.ok s) =>
    (if stepped then [⟨.trace, "reduced", m.steps, some s.render⟩] else [])
      ++ if s.terminal then [finishedLine m] else []
  | some (.error stop) => stop.lines m
  | none => []

/-- No call ends with the line of a step. -/
theorem Machine.Action.isTrace_closing {m : Machine} {action : Action} {r : Except Stop Unit} :
    ∀ l ∈ action.closing m r, l.isTrace = false := by
  intro l hl
  match action, r with
  | .step, .ok () => exact nomatch hl
  | .run, .ok () =>
    obtain rfl := List.mem_singleton.1 hl
    rfl
  | .step, .error (.exhausted limit) | .run, .error (.exhausted limit) =>
    obtain rfl := List.mem_singleton.1 hl
    rfl
  | .step, .error (.fault f) | .run, .error (.fault f) => exact nomatch hl

namespace Machine

variable {m m' : Machine} {fuel k n : Nat} {action : Action} {actions : List Action}
  {r : Reply Unit} {rs : List (Reply Unit)} {settings : Settings} {s : State} {stop : Stop}

/-! ### What steps and calls add to the log -/

/-- A machine that records adds the line of an event behind the others. -/
theorem log_note (h : m.settings.recording = true) (e : Event) :
    (m.note e).log = m.log ++ [e.line] := by
  rw [log, events_note h, List.map_append]
  rfl

/-- A step that succeeds adds its line. -/
theorem log_step_of_ok (hrec : m.settings.recording = true) (hok : m.step.result = .ok ()) :
    m.step.machine.log = m.log
      ++ [⟨.trace, "reduced", m.step.machine.steps, some m.step.machine.state.render⟩] := by
  rcases step_cases m with ⟨limit, -, -, h⟩ | ⟨-, f, -, h⟩ | ⟨-, t, -, h⟩
  · rw [h] at hok
    exact nomatch hok
  · rw [h] at hok
    exact nomatch hok
  · have hadvance : (m.advance t).settings.recording = true := hrec
    rw [h, log_note hadvance, state_note, steps_note]
    rfl

/-- A step that fails adds the line of its failure. -/
theorem log_step_of_error (hrec : m.settings.recording = true)
    (herr : m.step.result = .error stop) :
    m.step.machine.log = m.log ++ stop.lines m.step.machine := by
  rcases step_cases m with ⟨limit, -, -, h⟩ | ⟨-, f, -, h⟩ | ⟨-, t, -, h⟩
  · rw [h] at herr ⊢
    obtain rfl := Except.error.inj herr
    rw [log_note hrec, Stop.lines, state_note]
    rfl
  · rw [h] at herr ⊢
    obtain rfl := Except.error.inj herr
    exact (List.append_nil _).symm
  · rw [h] at herr
    exact nomatch herr

/-- Moving on adds **the lines of the steps**, numbered on from where the machine stands. -/
theorem Moves.exists_log (h : m.Moves n m') (hs : (start settings s).Reaches k m)
    (hrec : settings.recording = true) :
    ∃ lines, s.StepLines k n lines ∧ m'.log = m.log ++ lines := by
  induction h generalizing k with
  | refl m => exact ⟨[], .nil, (List.append_nil _).symm⟩
  | @head m m' n hok _ ih =>
    have hnext : (start settings s).Reaches (k + 1) m.step.machine :=
      hs.trans (reaches_of_step_ok hok)
    have hline : s.stepLine (k + 1)
        = .ok ⟨.trace, "reduced", m.step.machine.steps, some m.step.machine.state.render⟩ := by
      have hsteps : m.step.machine.steps = UInt64.ofNat (k + 1) :=
        hnext.steps_eq.trans (UInt64.zero_add _)
      have hafter : s.after (k + 1) = .ok m.step.machine.state := hnext.after_eq
      rw [State.stepLine, hafter, hsteps]
      rfl
    obtain ⟨lines, hlines, hlog⟩ := ih hnext
    have hrec' : m.settings.recording = true := by rw [hs.settings_eq]; exact hrec
    refine ⟨_ :: lines, .cons hline hlines, ?_⟩
    rw [hlog, log_step_of_ok hrec' hok, List.append_assoc, List.singleton_append]

/-- A reply that takes no more steps adds the lines of the end of the call. -/
theorem Closes.log_eq (h : m.Closes action r) (hrec : m.settings.recording = true) :
    r.machine.log = m.log ++ action.closing r.machine r.result := by
  rcases h with _ | _ | ⟨_, -, -⟩ | ⟨_, -, -⟩
  · exact (List.append_nil _).symm
  · rw [log_note hrec, Action.closing, steps_note, state_note]
    rfl
  · rw [log_note hrec]
    cases action <;> rw [Action.closing, Stop.lines, state_note] <;> rfl
  · cases action <;> exact (List.append_nil _).symm

/-- A call adds **the lines of its steps and then those of its end**. -/
theorem exists_log_of_perform (h : m.perform fuel action = some r)
    (hs : (start settings s).Reaches k m) (hrec : settings.recording = true) :
    ∃ lines, s.StepLines k (m.stepsInCall fuel action) lines ∧
      r.machine.log = m.log ++ lines ++ action.closing r.machine r.result := by
  obtain ⟨m', hm', hclose⟩ := exists_closes_of_perform h
  obtain ⟨lines, hlines, hlog⟩ := hm'.exists_log hs hrec
  have hrec' : m'.settings.recording = true := by
    rw [(hs.trans hm'.reaches).settings_eq]
    exact hrec
  exact ⟨lines, hlines, by rw [hclose.log_eq hrec', hlog]⟩

/-- Of all that calls add, the lines of steps are those **of their steps, in order**. -/
theorem exists_filter_log_of_replies (h : m.replies fuel actions = some rs)
    (hs : (start settings s).Reaches k m) (hrec : settings.recording = true) :
    ∃ lines, s.StepLines k (m.stepsInCalls fuel actions) lines ∧
      (Reply.lastMachine m rs).log.filter Line.isTrace = m.log.filter Line.isTrace ++ lines := by
  induction actions generalizing m k rs with
  | nil =>
    obtain rfl : [] = rs := Option.some.inj h
    exact ⟨[], .nil, (List.append_nil _).symm⟩
  | cons action rest ih =>
    obtain ⟨r, rs', hr, hrs, rfl⟩ := replies_cons_eq_some_iff.1 h
    obtain ⟨lines, hlines, hlog⟩ := exists_log_of_perform hr hs hrec
    obtain ⟨lines', hlines', hlog'⟩ := ih hrs (hs.trans (reaches_of_perform hr))
    have hsteps : lines.filter Line.isTrace = lines := List.filter_eq_self.2 hlines.isTrace
    have hend : (action.closing r.machine r.result).filter Line.isTrace = [] :=
      List.filter_eq_nil_iff.2 fun l hl => by
        rw [Action.isTrace_closing l hl]
        exact Bool.false_ne_true
    rw [stepsInCalls_cons hr, Reply.lastMachine_cons]
    refine ⟨lines ++ lines', hlines.append hlines', ?_⟩
    rw [hlog', hlog, List.filter_append, List.filter_append, hsteps, hend, List.append_nil,
      List.append_assoc]

end Machine

/-! ### What requests add to the log -/

namespace Trace

variable {m : Machine} {t : Trace} {k : Nat}

/-- The first request to a trace adds a line only if it finds the end. -/
theorem log_next_fresh (hrec : m.settings.recording = true) :
    m.trace.next.1.machine.log
      = m.log ++ answerLines false m.trace.next.1.machine m.trace.next.2 := by
  by_cases h : m.state.terminal = true
  · rw [Machine.next_trace_of_terminal h, Machine.log_note hrec, answerLines, finishedLine,
      Machine.steps_note, if_pos h]
    rfl
  · have hlive : m.state.terminal = false := Bool.eq_false_iff.2 h
    rw [Machine.next_trace_of_live hlive, answerLines, if_neg h]
    exact (List.append_nil _).symm

/-- A request to a trace that is underway adds the line of its step before all else. -/
theorem log_next_underway (hrec : m.settings.recording = true) :
    (Trace.mk m .underway).next.1.machine.log
      = m.log ++ answerLines true (Trace.mk m .underway).next.1.machine
          (Trace.mk m .underway).next.2 := by
  match hres : m.step.result with
  | .ok () =>
    -- beyond its step the request is the first one to a trace of the next machine
    have hrec' : m.step.machine.settings.recording = true := by rw [Machine.settings_step, hrec]
    obtain ⟨hitem, hreach⟩ := Machine.next_trace m.step.machine
    have hsteps : m.step.machine.trace.next.1.machine.steps = m.step.machine.steps :=
      hreach.steps_eq.trans (UInt64.add_zero _)
    rw [Machine.next_underway_of_step_ok hres, log_next_fresh hrec',
      Machine.log_step_of_ok hrec hres, hitem, answerLines, answerLines, hsteps,
      List.append_assoc]
    rfl
  | .error stop =>
    rw [Machine.next_underway_of_step_error hres]
    exact Machine.log_step_of_error hrec hres

/-- **A request adds** the line of its step, if it takes one, and the line of the end that it
comes to, if any. -/
theorem log_next (hrec : t.machine.settings.recording = true) :
    t.next.1.machine.log = t.machine.log
      ++ answerLines (t.phase == .underway) t.next.1.machine t.next.2 := by
  match t with
  | ⟨m, .fresh⟩ => exact log_next_fresh hrec
  | ⟨m, .underway⟩ => exact log_next_underway hrec
  | ⟨m, .over⟩ => exact (List.append_nil _).symm

/-- A trace stays with the settings of its machine. -/
theorem settings_next (t : Trace) : t.next.1.machine.settings = t.machine.settings := by
  match t with
  | ⟨m, .fresh⟩ => exact (Machine.next_trace m).2.settings_eq
  | ⟨m, .underway⟩ =>
    match hres : m.step.result with
    | .ok () =>
      rw [Machine.next_underway_of_step_ok hres, (Machine.next_trace _).2.settings_eq]
      exact Machine.settings_step m
    | .error stop =>
      rw [Machine.next_underway_of_step_error hres]
      exact Machine.settings_step m
  | ⟨m, .over⟩ => rfl

theorem settings_take (t : Trace) (n : Nat) :
    (t.take n).2.machine.settings = t.machine.settings := by
  induction n generalizing t with
  | zero => rfl
  | succ n ih => rw [take_succ, ih, settings_next]

/-- All requests but the first one find the trace underway, as long as they find a state or a
failure. -/
theorem StandsAt.answerLines_eq (h : StandsAt m k t) :
    answerLines (t.phase == .underway) t.next.1.machine t.next.2
      = answerLines (0 < k) t.next.1.machine t.next.2 := by
  rcases h with _ | ⟨-, -⟩ | hover
  · rfl
  · rfl
  · rw [next_of_over hover]
    rfl

/-! ### The end of a trace -/

/-- Whether a trace yields a terminal state. -/
def yieldsTerminal : Option (Except Stop State) → Bool
  | some (.ok s) => s.terminal
  | some (.error _) => false
  | none => false

/-- Whether a trace yields a failure. -/
def yieldsFailure : Option (Except Stop State) → Bool
  | some (.ok _) => false
  | some (.error _) => true
  | none => false

/-- A request adds the line of the end exactly if it yields a terminal state. -/
theorem countP_isFinished_answerLines (stepped : Bool) (m : Machine)
    (item : Option (Except Stop State)) :
    (answerLines stepped m item).countP Line.isFinished = [item].countP yieldsTerminal := by
  match item with
  | some (.ok s) =>
    rw [List.countP_singleton, yieldsTerminal, answerLines]
    cases stepped <;> cases s.terminal <;> rfl
  | some (.error (.fault f)) => rfl
  | some (.error (.exhausted limit)) => rfl
  | none => rfl

/-- With a terminal state or with a failure, a trace is over. -/
theorem phase_next_eq_over (h : yieldsTerminal t.next.2 = true ∨ yieldsFailure t.next.2 = true) :
    t.next.1.phase = .over := by
  have hfresh : ∀ m : Machine, yieldsTerminal m.trace.next.2 = true ∨
      yieldsFailure m.trace.next.2 = true → m.trace.next.1.phase = .over := by
    intro m h
    by_cases hterm : m.state.terminal = true
    · rw [Machine.next_trace_of_terminal hterm]
    · rw [(Machine.next_trace m).1, yieldsTerminal, yieldsFailure] at h
      exact absurd (h.resolve_right Bool.false_ne_true) hterm
  match t with
  | ⟨m, .fresh⟩ => exact hfresh m h
  | ⟨m, .underway⟩ =>
    match hres : m.step.result with
    | .ok () =>
      rw [Machine.next_underway_of_step_ok hres] at h ⊢
      exact hfresh m.step.machine h
    | .error stop => rw [Machine.next_underway_of_step_error hres]
  | ⟨m, .over⟩ => rfl

/-- A single answer is a terminal state or a failure, or neither. -/
theorem countP_ends_singleton_le_one (item : Option (Except Stop State)) :
    [item].countP yieldsTerminal + [item].countP yieldsFailure ≤ 1 := by
  match item with
  | some (.ok s) => exact List.countP_le_length
  | some (.error stop) => exact Nat.le_refl 1
  | none => exact Nat.zero_le 1

/-- A trace has **at most one end**, which is a terminal state or a failure. -/
theorem countP_ends_take_le_one (t : Trace) (n : Nat) :
    (t.take n).1.countP yieldsTerminal + (t.take n).1.countP yieldsFailure ≤ 1 := by
  induction n generalizing t with
  | zero => exact Nat.zero_le 1
  | succ n ih =>
    rw [take_succ]
    by_cases h : yieldsTerminal t.next.2 = true ∨ yieldsFailure t.next.2 = true
    · -- what follows the end is nothing
      have hrest : ∀ p : Option (Except Stop State) → Bool, p none = false →
          (t.next.2 :: (t.next.1.take n).1).countP p = [t.next.2].countP p := by
        intro p hp
        rw [take_of_over (phase_next_eq_over h), ← List.singleton_append, List.countP_append,
          List.countP_replicate, hp, if_neg Bool.false_ne_true, Nat.add_zero]
      rw [hrest yieldsTerminal rfl, hrest yieldsFailure rfl]
      exact countP_ends_singleton_le_one t.next.2
    · rw [not_or] at h
      rw [List.countP_cons_of_neg h.1, List.countP_cons_of_neg h.2]
      exact ih t.next.1

/-- The log tells of an end **as often as the trace yields a terminal state**. -/
theorem exists_log_take (hrec : t.machine.settings.recording = true) (n : Nat) :
    ∃ lines, (t.take n).2.machine.log = t.machine.log ++ lines ∧
      lines.countP Line.isFinished = (t.take n).1.countP yieldsTerminal := by
  induction n generalizing t with
  | zero => exact ⟨[], (List.append_nil _).symm, rfl⟩
  | succ n ih =>
    obtain ⟨lines, hlog, hcount⟩ := ih (t := t.next.1) (by rw [settings_next, hrec])
    rw [take_succ]
    refine ⟨answerLines (t.phase == .underway) t.next.1.machine t.next.2 ++ lines, ?_, ?_⟩
    · rw [hlog, log_next hrec, List.append_assoc]
    rw [List.countP_append, countP_isFinished_answerLines, hcount, ← List.countP_append,
      List.singleton_append]

end Trace

/-! ### The whole log -/

/-- **The log replays the machine**, as long as it records.

Calls of `step` and `run` on a machine from its start, whatever they come to:

* The lines of steps in its log are numbered from one to the number of steps taken, in order, and
  the `i`-th one shows the `i`-th iterate of the start. The counter is that number.
* Each further call adds the lines of its own steps, which go on from there, and then those of its
  end: the line of the halt if it is a run that succeeds, the line of the refusal if the budget is
  spent, and else none.

Requests to a trace of any machine:

* Each one adds the line of its step, if it takes one, and then the line of the end, exactly if it
  yields a terminal state. A failure has the same lines as with calls.
* So the log tells of the end at most once, and never if the trace ends with a failure. -/
theorem log_replays_calls :
    (∀ (s : State) (limit : Option UInt64) (fuel : Nat) (actions : List Machine.Action)
        (rs : List (Reply Unit)),
      let m₀ := Machine.start ⟨limit, true⟩ s
      let m := Reply.lastMachine m₀ rs
      let n := m₀.stepsInCalls fuel actions
      m₀.replies fuel actions = some rs →
        s.StepLines 0 n (m.log.filter Line.isTrace) ∧ m.steps = UInt64.ofNat n ∧
        ((limit = none → n < UInt64.size) → m.steps.toNat = n) ∧
        ∀ fuel' action r, m.perform fuel' action = some r →
          ∃ lines, s.StepLines n (m.stepsInCall fuel' action) lines ∧
            r.machine.log = m.log ++ lines ++ action.closing r.machine r.result) ∧
    ∀ m : Machine, m.settings.recording = true →
      (∀ k,
        let t := (m.trace.take k).2
        t.next.1.machine.log
          = t.machine.log ++ Trace.answerLines (0 < k) t.next.1.machine t.next.2) ∧
      ∀ k,
        let items := (m.trace.take k).1
        ∃ lines, (m.trace.take k).2.machine.log = m.log ++ lines ∧
          lines.countP Line.isFinished = items.countP Trace.yieldsTerminal ∧
          lines.countP Line.isFinished ≤ 1 ∧
          ((∃ stop, some (.error stop) ∈ items) → lines.countP Line.isFinished = 0) := by
  constructor
  · intro s limit fuel actions rs m₀ m n h
    have hreach : m₀.Reaches n m := Machine.reaches_of_replies h
    obtain ⟨lines, hlines, hlog⟩ :=
      Machine.exists_filter_log_of_replies h (Machine.Reaches.refl m₀) rfl
    refine ⟨hlog ▸ hlines, hreach.steps_eq.trans (UInt64.zero_add _),
      Machine.toNat_steps_of_replies h, fun fuel' action r hr => ?_⟩
    exact Machine.exists_log_of_perform hr hreach rfl
  · intro m hrec
    refine ⟨fun k => ?_, fun k => ?_⟩
    · have hrec' : (m.trace.take k).2.machine.settings.recording = true := by
        rw [Trace.settings_take]
        exact hrec
      exact (Trace.log_next hrec').trans (congrArg _ (Trace.standsAt_take m k).answerLines_eq)
    · obtain ⟨lines, hlog, hcount⟩ := Trace.exists_log_take (t := m.trace) hrec k
      have hends := m.trace.countP_ends_take_le_one k
      refine ⟨lines, hlog, hcount, by omega, ?_⟩
      rintro ⟨stop, hmem⟩
      -- the failure is the one end that there is
      have hfailure : 0 < (m.trace.take k).1.countP Trace.yieldsFailure :=
        List.countP_pos_iff.2 ⟨_, hmem, rfl⟩
      omega

/-- A sum of two products under a limit of four: the log numbers three steps and an idle one, and
the call that is refused adds its line only. Under a limit of one, the trace ends with a failure,
and the log tells of no end. -/
theorem log_replays_refused_step :
    let sum : Expr := .binary .add (.binary .multiply (.literal (.number 1)) (.literal (.number 2)))
      (.binary .multiply (.literal (.number 3)) (.literal (.number 4)))
    let s : State := ⟨.expr sum, .empty⟩
    let m₀ := Machine.start ⟨some 4, true⟩ s
    let m := Machine.start ⟨some 1, true⟩ s
    (∃ rs r, m₀.replies 4 [.step, .run, .step] = some rs ∧
      (Reply.lastMachine m₀ rs).perform 0 .step = some r ∧ r.result = .error (.exhausted 4) ∧
      s.StepLines 0 4 ((Reply.lastMachine m₀ rs).log.filter Line.isTrace) ∧
      r.machine.log = (Reply.lastMachine m₀ rs).log
        ++ [⟨.warn, "step limit exceeded", 4, some r.machine.state.term.render⟩]) ∧
    m.settings.recording = true ∧ some (.error (.exhausted 1)) ∈ (m.trace.take 3).1 ∧
      ∃ lines, (m.trace.take 3).2.machine.log = m.log ++ lines ∧
        lines.countP Line.isFinished = 0 := by
  intro sum s m₀ m
  obtain ⟨hcalls, htraces⟩ := log_replays_calls
  constructor
  · have hrs : m₀.replies 4 [.step, .run, .step] = some _ := rfl
    obtain ⟨hsteps, -, -, hnext⟩ := hcalls s (some 4) 4 _ _ hrs
    obtain ⟨lines, hlines, hlog⟩ := hnext 0 .step _ rfl
    obtain rfl : lines = [] := List.map_eq_nil_iff.1 hlines
    exact ⟨_, _, hrs, rfl, rfl, hsteps, hlog⟩
  · have hmem : some (.error (.exhausted 1)) ∈ (m.trace.take 3).1 :=
      .tail _ (.tail _ (.head _))
    obtain ⟨lines, hlog, -, -, hnone⟩ := (htraces m rfl).2 3
    exact ⟨rfl, hmem, lines, hlog, hnone ⟨_, hmem⟩⟩

end WhileLang
