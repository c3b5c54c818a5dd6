import WhileLang.Machine
import WhileLang.Evaluation

/-!
# Parity of the two readings

Runs a term through a machine, evaluates it, and puts the two outcomes side by side. The
machine goes first. If it fails, its failure is the answer and the term is not evaluated; so
with a budget the check always comes to an end, even on a program that does not.
-/

namespace WhileLang

/-- The outcomes of both readings. -/
structure Parity where
  /-- The outcome of the machine. -/
  small : Outcome
  /-- The outcome of evaluation. -/
  big : Outcome
  /-- The steps that the machine took. -/
  steps : UInt64
  deriving DecidableEq, Repr

namespace Parity

/-- Whether the outcomes are the same, up to the order of bindings. -/
def agrees (p : Parity) : Bool :=
  decide (p.small ≈ p.big)

/-- Runs a machine on a state to its end and reads off the outcome. -/
def smallStep (fuel : Nat) (settings : Settings) (s : State) : Option (Reply Outcome) :=
  match (Machine.start settings s).run fuel with
  | none => none
  | some ⟨m, .error stop⟩ => some ⟨m, .error stop⟩
  | some ⟨m, .ok s⟩ => some ⟨m, s.outcome.mapError .fault⟩

/-- Evaluates the term of a state. -/
def bigStep (fuel : Nat) (s : State) : Option (Except Fault Outcome) :=
  s.term.evaluate fuel s.env

/-- Puts both readings side by side. -/
def check (fuel : Nat) (settings : Settings) (s : State) : Option (Reply Parity) :=
  match smallStep fuel settings s with
  | none => none
  | some ⟨m, .error stop⟩ => some ⟨m, .error stop⟩
  | some ⟨m, .ok small⟩ =>
    match bigStep fuel s with
    | none => none
    | some (.error f) => some ⟨m, .error (.fault f)⟩
    | some (.ok big) => some ⟨m, .ok ⟨small, big, m.steps⟩⟩

end Parity

end WhileLang
