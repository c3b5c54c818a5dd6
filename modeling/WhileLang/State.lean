import WhileLang.Reduction
import WhileLang.Outcome

/-!
# States

A state is a term together with the environment it stands in: all there is to know about a
program between two steps. `step` is the one transition. A state is terminal when its term
is finished, and then its outcome can be read off. The step of a state that is not terminal may
fail, and then the state has neither a successor nor an outcome.

States are equivalent when their terms are equal and their environments equivalent.
-/

namespace WhileLang

/-- A term in an environment. -/
structure State where
  term : Term
  env : Environment
  deriving DecidableEq, Repr

namespace State

/-- Whether the term is finished. -/
def terminal (s : State) : Bool :=
  !s.term.reducible

/-- The next state. -/
def step (s : State) : Except Fault State :=
  (s.term.reduce s.env).map fun p => ⟨p.1, p.2⟩

/-- The text of a state: the term, then the environment. -/
def render (s : State) : String :=
  s.term.render ++ ", " ++ s.env.render

/-- Reads the outcome off a state whose term is finished. -/
def outcome (s : State) : Except Fault Outcome :=
  match s.term with
  | .expr e => e.operand.map .value
  | .stmt _ => .ok (.environment s.env)

/-- The same term, and the same bindings in whatever order. -/
def Equivalent (s t : State) : Prop :=
  s.term = t.term ∧ s.env ≈ t.env

instance : Setoid State where
  r := Equivalent
  iseqv := {
    refl := fun s => ⟨rfl, Setoid.refl s.env⟩
    symm := fun h => ⟨h.1.symm, Setoid.symm h.2⟩
    trans := fun h k => ⟨h.1.trans k.1, Setoid.trans h.2 k.2⟩ }

instance (s t : State) : Decidable (s ≈ t) :=
  inferInstanceAs (Decidable (s.term = t.term ∧ s.env ≈ t.env))

end State

end WhileLang
