import WhileLang.Machine

/-!
# Fuel of runs

More fuel never changes the reply to a run, so a machine that is run gives at most one reply,
whatever fuel it is given. So it is with lists of calls.
-/

namespace WhileLang.Machine

/-- More fuel **keeps the reply** to a run. -/
theorem run_mono {fuel fuel' : Nat} (hle : fuel ≤ fuel') {m : Machine} {r : Reply State}
    (h : m.run fuel = some r) : m.run fuel' = some r := by
  induction fuel generalizing fuel' m with
  | zero => simp [run] at h
  | succ fuel ih =>
    obtain ⟨fuel', rfl⟩ : ∃ k, fuel' = k + 1 := ⟨fuel' - 1, by omega⟩
    rw [run] at h ⊢
    split
    · rename_i ht
      rwa [if_pos ht] at h
    · rename_i ht
      rw [if_neg ht] at h
      split at h
      · exact ih (by omega) h
      · exact h

/-- A run ends with one reply only. -/
theorem run_unique {fuel fuel' : Nat} {m : Machine} {r r' : Reply State}
    (h : m.run fuel = some r) (h' : m.run fuel' = some r') : r = r' :=
  Option.some.inj
    ((run_mono (Nat.le_max_left fuel fuel') h).symm.trans
      (run_mono (Nat.le_max_right fuel fuel') h'))

/-- More fuel keeps the reply to a call. -/
theorem perform_mono {fuel fuel' : Nat} (hle : fuel ≤ fuel') {m : Machine} {action : Action}
    {r : Reply Unit} (h : m.perform fuel action = some r) : m.perform fuel' action = some r := by
  match action with
  | .step => exact h
  | .run =>
    obtain ⟨r', hr', rfl⟩ := Option.map_eq_some_iff.1 h
    exact Option.map_eq_some_iff.2 ⟨r', run_mono hle hr', rfl⟩

/-- More fuel keeps the replies to a list of calls. -/
theorem replies_mono {fuel fuel' : Nat} (hle : fuel ≤ fuel') {m : Machine}
    {actions : List Action} {rs : List (Reply Unit)} (h : m.replies fuel actions = some rs) :
    m.replies fuel' actions = some rs := by
  induction actions generalizing m rs with
  | nil => exact h
  | cons action rest ih =>
    obtain ⟨r, rs', hr, hrs, rfl⟩ := replies_cons_eq_some_iff.1 h
    exact replies_cons_eq_some_iff.2 ⟨r, rs', perform_mono hle hr, ih hrs, rfl⟩

end WhileLang.Machine
