import WhileLang.Machine.Event

/-!
# Machines

A machine holds a state and steps it forward. It counts the steps it has taken in a 64-bit
word, and it may have a budget: once as many steps are taken, every further step is refused.
A call on a machine yields a `Reply`, the machine afterwards together with the result of the
call. A machine never loses anything by a call that fails.

* `step` looks at the budget, then takes one step. Only a step that succeeds counts. A
  finished term can be stepped too, and such a step counts like any other.
* `run` steps until the term is finished. If it is so from the start, the budget is not
  looked at. A run may go on forever, so it takes fuel, one unit more than there are steps
  to take, and answers `none` if that is not enough.
* `perform` and `replies` make such calls from a list of actions.

The counter wraps around, as in a build without overflow checks: after 2⁶⁴ steps it is zero again. A
machine that has a budget never gets there, as the budget is a number of the same 64 bits and no
step is taken beyond it. Without a budget the counter is the number of steps modulo 2⁶⁴.

A machine that is set to record keeps a journal of the events of all its calls.
-/

namespace WhileLang

/-! ### Ends -/

/-- Why a call on a machine fails. -/
inductive Stop where
  /-- The program failed. -/
  | fault (f : Fault)
  /-- The budget was spent. -/
  | exhausted (limit : UInt64)
  deriving DecidableEq, Repr

/-- The wording of a failure. -/
def Stop.message : Stop → String
  | fault f => f.message
  | exhausted limit => "step limit exceeded: " ++ Decimal.render limit.toNat

/-! ### Machines -/

/-- What a machine is told at its start. -/
structure Settings where
  /-- How many steps it may take; `none` means as many as it likes. -/
  limit : Option UInt64 := none
  /-- Whether it keeps a journal. -/
  recording : Bool := false
  deriving DecidableEq, Repr

/-- A state that is stepped forward. -/
structure Machine where
  state : State
  /-- The number of steps taken. -/
  steps : UInt64
  settings : Settings
  /-- The events so far, last first. -/
  journal : List Event
  deriving DecidableEq, Repr

/-- What a call on a machine leaves behind. -/
structure Reply (α : Type) where
  machine : Machine
  result : Except Stop α

namespace Machine

/-- A machine that has not taken a step yet. -/
def start (settings : Settings) (state : State) : Machine :=
  ⟨state, 0, settings, []⟩

/-- The events so far, in order. -/
def events (m : Machine) : List Event :=
  m.journal.reverse

/-- Enters an event into the journal, if one is kept. -/
def note (m : Machine) (e : Event) : Machine :=
  if m.settings.recording then { m with journal := e :: m.journal } else m

/-- The budget, if there is one and it is spent. -/
def spent? (m : Machine) : Option UInt64 :=
  m.settings.limit.filter fun limit => limit ≤ m.steps

/-- Puts a new state in place of the old one and counts the step. -/
def advance (m : Machine) (s : State) : Machine :=
  { m with state := s, steps := m.steps + 1 }

/-- Takes one step. -/
def step (m : Machine) : Reply Unit :=
  match m.spent? with
  | some limit => ⟨m.note (.exhausted limit m.state.term), .error (.exhausted limit)⟩
  | none =>
    match m.state.step with
    | .error f => ⟨m, .error (.fault f)⟩
    | .ok s => ⟨(m.advance s).note (.reduced (m.steps + 1) s), .ok ()⟩

/-- Takes steps until the term is finished, and yields the state it ends in. -/
def run : Nat → Machine → Option (Reply State)
  | 0, _ => none
  | fuel + 1, m =>
    if m.state.terminal then some ⟨m.note (.halted m.steps m.state), .ok m.state⟩
    else
      match m.step with
      | ⟨m, .ok ()⟩ => run fuel m
      | ⟨m, .error stop⟩ => some ⟨m, .error stop⟩

/-! ### What the parts of a step do -/

/-- The journal is all that an event changes. -/
@[simp]
theorem state_note (m : Machine) (e : Event) : (m.note e).state = m.state := by
  unfold note
  split <;> rfl

@[simp]
theorem steps_note (m : Machine) (e : Event) : (m.note e).steps = m.steps := by
  unfold note
  split <;> rfl

@[simp]
theorem settings_note (m : Machine) (e : Event) : (m.note e).settings = m.settings := by
  unfold note
  split <;> rfl

/-- A machine that records has the event as its last one. -/
theorem events_note {m : Machine} (h : m.settings.recording = true) (e : Event) :
    (m.note e).events = m.events ++ [e] := by
  simp [events, note, h]

/-- The budget is spent when there is one and no fewer steps have been taken. -/
theorem spent?_eq_some_iff {m : Machine} {limit : UInt64} :
    m.spent? = some limit ↔ m.settings.limit = some limit ∧ limit ≤ m.steps := by
  simp [spent?, Option.filter_eq_some_iff]

/-- A call that fails leaves the state and the number of steps as they were. -/
theorem step_of_result_eq_error {m : Machine} {stop : Stop}
    (h : m.step.result = .error stop) :
    m.step.machine.state = m.state ∧ m.step.machine.steps = m.steps := by
  revert h
  unfold step
  split
  · exact fun _ => ⟨state_note .., steps_note ..⟩
  · split
    · exact fun _ => ⟨rfl, rfl⟩
    · exact fun h => nomatch h

/-- A step that succeeds follows the transition of states and counts one. -/
theorem step_of_result_eq_ok {m : Machine} (h : m.step.result = .ok ()) :
    m.state.step = .ok m.step.machine.state ∧ m.step.machine.steps = m.steps + 1 := by
  revert h
  unfold step
  split
  · exact fun h => nomatch h
  · split
    · exact fun h => nomatch h
    · rename_i hs
      exact fun _ => ⟨by rw [hs, state_note]; rfl, by rw [steps_note]; rfl⟩

/-! ### Lists of calls -/

/-- A call on a machine. -/
inductive Action where
  | step
  | run
  deriving DecidableEq, Repr

/-- Makes one call. -/
def perform (fuel : Nat) (m : Machine) : Action → Option (Reply Unit)
  | .step => some m.step
  | .run => (m.run fuel).map fun r => ⟨r.machine, r.result.map fun _ => ()⟩

/-- Makes calls one after the other, whether they fail or not, and lists their replies. -/
def replies (fuel : Nat) (m : Machine) : List Action → Option (List (Reply Unit))
  | [] => some []
  | action :: rest =>
    match m.perform fuel action with
    | none => none
    | some r => (r.machine.replies fuel rest).map (r :: ·)

/-- After a first call, the others are made on the machine that it leaves behind. -/
theorem replies_cons_eq_some_iff {fuel : Nat} {m : Machine} {action : Action}
    {rest : List Action} {rs : List (Reply Unit)} :
    m.replies fuel (action :: rest) = some rs ↔
      ∃ r rs', m.perform fuel action = some r ∧ r.machine.replies fuel rest = some rs' ∧
        rs = r :: rs' := by
  rw [replies]
  cases m.perform fuel action with
  | none => simp
  | some r => simp [Option.map_eq_some_iff, eq_comm (a := rs)]

end Machine

/-- The machine after a list of calls on `m`. -/
def Reply.lastMachine (m : Machine) (rs : List (Reply Unit)) : Machine :=
  (rs.getLast?.map Reply.machine).getD m

@[simp]
theorem Reply.lastMachine_nil (m : Machine) : lastMachine m [] = m := rfl

@[simp]
theorem Reply.lastMachine_cons (m : Machine) (r : Reply Unit) (rs : List (Reply Unit)) :
    lastMachine m (r :: rs) = lastMachine r.machine rs := by
  rw [lastMachine, lastMachine, List.getLast?_cons]
  cases rs.getLast? <;> rfl

end WhileLang
