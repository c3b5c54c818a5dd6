import WhileLang.Machine

/-!
# Traces

A trace yields the states of a machine one by one: first the state the machine is in, then
the states that its steps lead to, and last the terminal one. A step that fails is yielded
as a failure, once, and ends the trace. After its end a trace yields nothing.

A trace is lazy. A step is taken only when the state it leads to is asked for, so the states
of a program that never ends can be looked at too.
-/

namespace WhileLang

/-- How far a trace has come. -/
inductive Phase where
  /-- Nothing has been asked for yet. -/
  | fresh
  /-- The state of the machine has been yielded, and it is not the last one. -/
  | underway
  /-- The end has been yielded. -/
  | over
  deriving DecidableEq, Repr

/-- The states of a machine, to be asked for one by one. -/
structure Trace where
  /-- The machine as it stands after the states yielded so far. -/
  machine : Machine
  phase : Phase
  deriving DecidableEq, Repr

/-- The trace of a machine from its present state on. -/
def Machine.trace (m : Machine) : Trace :=
  ⟨m, .fresh⟩

namespace Trace

/-- Yields the state of a machine. If it is terminal, that is the end of the trace. -/
def arrive (m : Machine) : Trace × Option (Except Stop State) :=
  if m.state.terminal then (⟨m.note (.finished m.steps), .over⟩, some (.ok m.state))
  else (⟨m, .underway⟩, some (.ok m.state))

/-- Asks for the next state. -/
def next (t : Trace) : Trace × Option (Except Stop State) :=
  match t.phase with
  | .over => (t, none)
  | .fresh => arrive t.machine
  | .underway =>
    match t.machine.step with
    | ⟨m, .ok ()⟩ => arrive m
    | ⟨m, .error stop⟩ => (⟨m, .over⟩, some (.error stop))

/-- Asks for a number of states. The items so far are given last first. -/
def takeOnto (items : List (Option (Except Stop State))) :
    Nat → Trace → List (Option (Except Stop State)) × Trace
  | 0, t => (items.reverse, t)
  | n + 1, t => takeOnto (t.next.2 :: items) n t.next.1

/-- Asks for a number of states: the answers in order, and the trace afterwards. -/
def take (n : Nat) (t : Trace) : List (Option (Except Stop State)) × Trace :=
  takeOnto [] n t

theorem takeOnto_eq (items : List (Option (Except Stop State))) (n : Nat) (t : Trace) :
    takeOnto items n t = (items.reverse ++ (t.take n).1, (t.take n).2) := by
  unfold take
  induction n generalizing items t with
  | zero => simp [takeOnto]
  | succ n ih =>
    rw [takeOnto, takeOnto, ih (t.next.2 :: items), ih [t.next.2]]
    simp

@[simp]
theorem take_zero (t : Trace) : t.take 0 = ([], t) := rfl

/-- Asking for one more is asking once and then for the others. -/
theorem take_succ (n : Nat) (t : Trace) :
    t.take (n + 1) = (t.next.2 :: (t.next.1.take n).1, (t.next.1.take n).2) := by
  rw [take, takeOnto, takeOnto_eq]
  rfl

/-- A trace that is over stays so and yields nothing. -/
theorem next_of_over {t : Trace} (h : t.phase = .over) : t.next = (t, none) := by
  simp [next, h]

end Trace

end WhileLang
