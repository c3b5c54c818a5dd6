import WhileLang.State

/-!
# Events

What a machine and a trace tell about themselves while they work. Each event has a level of
importance and a fixed message, besides the data it is about.
-/

namespace WhileLang

/-- How important an event is. -/
inductive Level where
  | trace
  | debug
  | warn
  deriving DecidableEq, Repr

/-- The name of a level. -/
def Level.name : Level → String
  | trace => "TRACE"
  | debug => "DEBUG"
  | warn => "WARN"

/-- Something that happened. -/
inductive Event where
  /-- A step was taken: its number, and the state it led to. -/
  | reduced (step : UInt64) (state : State)
  /-- A run came to its end: the number of steps so far, and the state. -/
  | halted (steps : UInt64) (state : State)
  /-- A trace arrived at its last state. -/
  | finished (steps : UInt64)
  /-- A step was refused, as the budget was spent: the budget, and the term. -/
  | exhausted (limit : UInt64) (term : Term)
  deriving DecidableEq, Repr

namespace Event

/-- The importance of an event. -/
def level : Event → Level
  | reduced _ _ => .trace
  | halted _ _ => .debug
  | finished _ => .debug
  | exhausted _ _ => .warn

/-- The message of an event. -/
def message : Event → String
  | reduced _ _ => "reduced"
  | halted _ _ => "machine halted"
  | finished _ => "trace finished"
  | exhausted _ _ => "step limit exceeded"

end Event

end WhileLang
