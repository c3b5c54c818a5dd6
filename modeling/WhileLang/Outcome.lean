import WhileLang.Environment.Equivalence

/-!
# Outcomes

What a whole program comes to: the value of an expression, or the environment that a
statement leaves behind. Outcomes are equivalent when the values are equal or the
environments are equivalent, that is, up to the order of bindings.
-/

namespace WhileLang

/-- The result of a term. -/
inductive Outcome where
  | value (v : Value)
  | environment (env : Environment)
  deriving DecidableEq, Repr

namespace Outcome

/-- The text of an outcome: the value between guillemets, or the environment. -/
def render : Outcome → String
  | value v => v.inspect
  | environment env => env.render

/-- Equal values, or environments with the same bindings in whatever order. -/
def Equivalent : Outcome → Outcome → Prop
  | value v, value w => v = w
  | environment e, environment f => e ≈ f
  | value _, environment _ => False
  | environment _, value _ => False

theorem Equivalent.refl : ∀ o : Outcome, o.Equivalent o
  | value _ => rfl
  | environment env => Setoid.refl env

theorem Equivalent.symm : ∀ {o p : Outcome}, o.Equivalent p → p.Equivalent o
  | value _, value _, h => Eq.symm h
  | environment _, environment _, h => Setoid.symm h

theorem Equivalent.trans :
    ∀ {o p q : Outcome}, o.Equivalent p → p.Equivalent q → o.Equivalent q
  | value _, value _, value _, h, k => Eq.trans h k
  | environment _, environment _, environment _, h, k => Setoid.trans h k

instance : Setoid Outcome where
  r := Equivalent
  iseqv := ⟨Equivalent.refl, Equivalent.symm, Equivalent.trans⟩

/-- Two values are equivalent only if they are equal. -/
@[simp]
theorem value_equiv_value_iff {v w : Value} : value v ≈ value w ↔ v = w :=
  Iff.rfl

/-- Two environments are equivalent as outcomes if they are so as environments. -/
@[simp]
theorem environment_equiv_environment_iff {e f : Environment} :
    environment e ≈ environment f ↔ e ≈ f :=
  Iff.rfl

instance decidableEquivalent : (o p : Outcome) → Decidable (o ≈ p)
  | value v, value w => inferInstanceAs (Decidable (v = w))
  | environment e, environment f => inferInstanceAs (Decidable (e ≈ f))
  | value _, environment _ => isFalse id
  | environment _, value _ => isFalse id

end Outcome

end WhileLang
