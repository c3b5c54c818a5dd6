import WhileLang.Environment

/-!
# Equivalence of environments

Two environments are equivalent, `e ≈ f`, when every name has the same value in both or in
neither; the order of the bindings does not count. Equality `e = f` is finer: it also says
that the names stand in the same order. Equivalence is decided on the names that occur in
either environment.
-/

namespace WhileLang.Environment

/-- Every name has the same value, or none, in both. -/
def Equivalent (e f : Environment) : Prop :=
  ∀ name, e.get? name = f.get? name

instance : Setoid Environment where
  r := Equivalent
  iseqv := {
    refl := fun _ _ => rfl
    symm := fun h name => (h name).symm
    trans := fun h k name => (h name).trans (k name) }

theorem equiv_iff {e f : Environment} : e ≈ f ↔ ∀ name, e.get? name = f.get? name :=
  Iff.rfl

/-- A name is bound exactly when it is among the names. -/
theorem get?_eq_none_iff {e : Environment} {name : String} :
    e.get? name = none ↔ name ∉ e.names := by
  unfold get? names
  induction e.toList with
  | nil => simp
  | cons b rest ih =>
    obtain ⟨other, value⟩ := b
    rw [Bindings.lookup_cons]
    by_cases h : name = other <;> simp [h, ih]

/-- Equivalence only has to be looked at on the names that occur. -/
theorem equiv_iff_forall_mem {e f : Environment} :
    e ≈ f ↔ ∀ name ∈ e.names ++ f.names, e.get? name = f.get? name := by
  refine ⟨fun h name _ => h name, fun h name => ?_⟩
  by_cases hn : name ∈ e.names ++ f.names
  · exact h name hn
  · simp only [List.mem_append, not_or] at hn
    rw [get?_eq_none_iff.2 hn.1, get?_eq_none_iff.2 hn.2]

instance (e f : Environment) : Decidable (e ≈ f) :=
  decidable_of_iff _ equiv_iff_forall_mem.symm

end WhileLang.Environment
