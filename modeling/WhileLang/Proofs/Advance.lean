import WhileLang.Machine
import WhileLang.Proofs.Iterates

/-!
# Machines and the iterates of their states

What the calls on a machine do to it, said through the iterates of the state it holds.

* `m.Affords n`: the budget, if there is one, allows for `n` steps more.
* `m.Reaches n m'`: `m'` is `m` after `n` steps, whatever its journal says. Its state is the
  `n`-th iterate, its counter is `n` further, and its settings are the same.
* `m.Moves n m'`: `n` calls of `step` lead from `m` to `m'`, all of them successful.
* `m.Advances n m'`: the same, and none of the calls is on a terminal state. This is what a run
  and a trace do up to their ends.

`step_cases` says once what a call of `step` can do. Machines advance as far as their states
are live and their budget lasts (`exists_advances`).
-/

namespace WhileLang.Machine

variable {m m' m'' : Machine} {k n : Nat}

/-! ### Counters -/

/-- A counter that does not overflow counts. -/
theorem toNat_add_ofNat {a : UInt64} (h : a.toNat + n < UInt64.size) :
    (a + UInt64.ofNat n).toNat = a.toNat + n := by
  have hn : (UInt64.ofNat n).toNat = n := by
    rw [UInt64.toNat_ofNat']
    exact Nat.mod_eq_of_lt (Nat.lt_of_le_of_lt (Nat.le_add_left n _) h)
  rw [UInt64.toNat_add, hn]
  exact Nat.mod_eq_of_lt h

/-! ### Budgets -/

/-- The budget, if there is one, allows for `n` steps more. -/
def Affords (m : Machine) (n : Nat) : Prop :=
  ∀ limit, m.settings.limit = some limit → m.steps.toNat + n ≤ limit.toNat

/-- Who can afford more can afford less. -/
theorem Affords.of_le (h : m.Affords n) (hkn : k ≤ n) : m.Affords k := by
  intro limit hlimit
  have hlt := h limit hlimit
  omega

/-- Without a budget every number of steps is allowed for. -/
theorem affords_of_limit_eq_none (h : m.settings.limit = none) : m.Affords n := by
  intro limit hlimit
  cases h.symm.trans hlimit

/-- A budget allows for as many steps as are left of it. -/
theorem affords_iff_of_limit {limit : UInt64} (h : m.settings.limit = some limit) :
    m.Affords n ↔ m.steps.toNat + n ≤ limit.toNat := by
  refine ⟨fun hn => hn limit h, fun hn limit' hlimit' => ?_⟩
  obtain rfl := Option.some.inj (h.symm.trans hlimit')
  exact hn

/-- The budget is not spent exactly when it allows for one step more. -/
theorem spent?_eq_none_iff : m.spent? = none ↔ m.Affords 1 := by
  simp only [spent?, Option.filter_eq_none_iff, Affords]
  refine forall_congr' fun limit => imp_congr_right fun _ => ?_
  rw [decide_eq_true_iff, UInt64.le_iff_toNat_le]
  omega

/-- A budget that is spent allows for no step more. -/
theorem not_affords_one {limit : UInt64} (hlimit : m.settings.limit = some limit)
    (hle : limit ≤ m.steps) : ¬m.Affords 1 := by
  rw [affords_iff_of_limit hlimit]
  have hge := UInt64.le_iff_toNat_le.1 hle
  omega

/-! ### Steps -/

/-- **All that a step can do**: it is refused as the budget is spent, or the program fails, or
it succeeds. -/
theorem step_cases (m : Machine) :
    (∃ limit, m.settings.limit = some limit ∧ limit ≤ m.steps ∧
      m.step = ⟨m.note (.exhausted limit m.state.term), .error (.exhausted limit)⟩) ∨
    (m.Affords 1 ∧ ∃ f, m.state.step = .error f ∧ m.step = ⟨m, .error (.fault f)⟩) ∨
    (m.Affords 1 ∧ ∃ s, m.state.step = .ok s ∧
      m.step = ⟨(m.advance s).note (.reduced (m.steps + 1) s), .ok ()⟩) := by
  cases hspent : m.spent? with
  | some limit =>
    obtain ⟨hlimit, hle⟩ := spent?_eq_some_iff.1 hspent
    exact .inl ⟨limit, hlimit, hle, by rw [step, hspent]⟩
  | none =>
    have haff := spent?_eq_none_iff.1 hspent
    cases hstep : m.state.step with
    | error f => exact .inr (.inl ⟨haff, f, rfl, by rw [step, hspent, hstep]⟩)
    | ok s => exact .inr (.inr ⟨haff, s, rfl, by rw [step, hspent, hstep]⟩)

/-- A step changes no settings. -/
theorem settings_step (m : Machine) : m.step.machine.settings = m.settings := by
  rcases step_cases m with ⟨limit, -, -, h⟩ | ⟨-, f, -, h⟩ | ⟨-, s, -, h⟩
  · rw [h, settings_note]
  · rw [h]
  · rw [h, settings_note]
    rfl

/-- A step succeeds exactly when the budget allows for it and the state can step. -/
theorem step_result_eq_ok_iff :
    m.step.result = .ok () ↔ m.Affords 1 ∧ ∃ s, m.state.step = .ok s := by
  rcases step_cases m with ⟨limit, hlimit, hle, h⟩ | ⟨haff, f, hf, h⟩ | ⟨haff, s, hs, h⟩
  · simp [h, not_affords_one hlimit hle]
  · simp [h, hf]
  · simp [h, hs, haff]

/-- A step fails with a fault exactly when the budget allows for it and the program fails. -/
theorem step_result_eq_fault_iff {f : Fault} :
    m.step.result = .error (.fault f) ↔ m.Affords 1 ∧ m.state.step = .error f := by
  rcases step_cases m with ⟨limit, hlimit, hle, h⟩ | ⟨haff, g, hg, h⟩ | ⟨haff, s, hs, h⟩
  · simp [h, not_affords_one hlimit hle]
  · simp [h, hg, haff]
  · simp [h, hs]

/-- A step is refused exactly when the budget is spent. -/
theorem step_result_eq_exhausted_iff {limit : UInt64} :
    m.step.result = .error (.exhausted limit) ↔
      m.settings.limit = some limit ∧ limit ≤ m.steps := by
  rw [← spent?_eq_some_iff]
  rcases step_cases m with ⟨other, hother, hle, h⟩ | ⟨haff, f, hf, h⟩ | ⟨haff, s, hs, h⟩
  · simp [h, spent?_eq_some_iff.2 ⟨hother, hle⟩]
  · simp [h, spent?_eq_none_iff.2 haff]
  · simp [h, spent?_eq_none_iff.2 haff]

/-! ### Where steps lead to -/

/-- `m'` is `m` after `n` steps, whatever its journal says. -/
structure Reaches (m : Machine) (n : Nat) (m' : Machine) : Prop where
  after_eq : m.state.after n = .ok m'.state
  steps_eq : m'.steps = m.steps + UInt64.ofNat n
  settings_eq : m'.settings = m.settings

theorem Reaches.refl (m : Machine) : m.Reaches 0 m :=
  ⟨rfl, (UInt64.add_zero m.steps).symm, rfl⟩

theorem Reaches.trans (h : m.Reaches n m') (h' : m'.Reaches k m'') : m.Reaches (n + k) m'' where
  after_eq := by rw [State.after_add h.after_eq, h'.after_eq]
  steps_eq := by rw [h'.steps_eq, h.steps_eq, UInt64.ofNat_add, UInt64.add_assoc]
  settings_eq := h'.settings_eq.trans h.settings_eq

/-- Keeping a journal leads nowhere else. -/
theorem Reaches.note (h : m.Reaches n m') (e : Event) : m.Reaches n (m'.note e) where
  after_eq := by rw [state_note, h.after_eq]
  steps_eq := by rw [steps_note, h.steps_eq]
  settings_eq := by rw [settings_note, h.settings_eq]

/-- A step that succeeds leads one step further. -/
theorem reaches_of_step_ok (h : m.step.result = .ok ()) : m.Reaches 1 m.step.machine where
  after_eq := by
    obtain ⟨hstep, -⟩ := step_of_result_eq_ok h
    rw [State.after_succ_of_ok hstep, State.after_zero]
  steps_eq := (step_of_result_eq_ok h).2
  settings_eq := settings_step m

/-- A step that fails leads nowhere. -/
theorem reaches_of_step_error {stop : Stop} (h : m.step.result = .error stop) :
    m.Reaches 0 m.step.machine := by
  obtain ⟨hstate, hsteps⟩ := step_of_result_eq_error h
  exact ⟨by rw [hstate, State.after_zero], by rw [hsteps]; exact (UInt64.add_zero _).symm,
    settings_step m⟩

/-- The counter has gone up by the number of steps, as long as it does not overflow. -/
theorem Reaches.toNat_steps (h : m.Reaches n m') (hn : m.steps.toNat + n < UInt64.size) :
    m'.steps.toNat = m.steps.toNat + n := by
  rw [h.steps_eq, toNat_add_ofNat hn]

/-- Within a budget the counter does not overflow. -/
theorem Affords.toNat_lt (h : m.Affords n) {limit : UInt64}
    (hlimit : m.settings.limit = some limit) : m.steps.toNat + n < UInt64.size :=
  Nat.lt_of_le_of_lt (h limit hlimit) limit.toNat_lt

/-- What is left of a budget after some steps. -/
theorem Reaches.affords_iff (h : m.Reaches n m') (hn : m.Affords n) :
    m'.Affords k ↔ m.Affords (n + k) := by
  simp only [Affords, h.settings_eq]
  refine forall_congr' fun limit => imp_congr_right fun hlimit => ?_
  rw [h.toNat_steps (hn.toNat_lt hlimit), Nat.add_assoc]

/-! ### Moving on -/

/-- `n` successful steps lead from `m` to `m'`. -/
inductive Moves : Machine → Nat → Machine → Prop
  | refl (m : Machine) : Moves m 0 m
  | head {m m' : Machine} {n : Nat} : m.step.result = .ok () → Moves m.step.machine n m' →
    Moves m (n + 1) m'

/-- Moving on leads as many steps further. -/
theorem Moves.reaches (h : m.Moves n m') : m.Reaches n m' := by
  induction h with
  | refl m => exact .refl m
  | head hok _ ih =>
    rw [Nat.add_comm]
    exact (reaches_of_step_ok hok).trans ih

/-- The budget allows for the way that was taken, unless that way is empty. -/
theorem Moves.affords (h : m.Moves n m') : n = 0 ∨ m.Affords n := by
  induction h with
  | refl m => exact .inl rfl
  | @head m m' n hok _ ih =>
    have hone : m.Affords 1 := (step_result_eq_ok_iff.1 hok).1
    -- a way of one step shows that the budget allows for one, the empty way shows nothing
    rcases ih with rfl | hn
    · exact .inr hone
    · refine .inr ?_
      rw [Nat.add_comm]
      exact ((reaches_of_step_ok hok).affords_iff hone).1 hn

/-- A budget that is not exceeded allows for any way that is taken, the empty one too. -/
theorem Affords.moves (h : m.Affords 0) (hm : m.Moves n m') : m.Affords n := by
  rcases hm.affords with rfl | hn
  · exact h
  · exact hn

/-! ### Advancing -/

/-- `n` successful steps lead from `m` to `m'`, none of them from a terminal state. -/
inductive Advances : Machine → Nat → Machine → Prop
  | refl (m : Machine) : Advances m 0 m
  | head {m m' : Machine} {n : Nat} : m.state.terminal = false → m.step.result = .ok () →
    Advances m.step.machine n m' → Advances m (n + 1) m'

/-- One step more at the end. -/
theorem Advances.tail (h : m.Advances n m') (hlive : m'.state.terminal = false)
    (hok : m'.step.result = .ok ()) : m.Advances (n + 1) m'.step.machine := by
  induction h with
  | refl m => exact .head hlive hok (.refl _)
  | head hlive' hok' _ ih => exact .head hlive' hok' (ih hlive hok)

theorem Advances.moves (h : m.Advances n m') : m.Moves n m' := by
  induction h with
  | refl m => exact .refl m
  | head _ hok _ ih => exact .head hok ih

theorem Advances.reaches (h : m.Advances n m') : m.Reaches n m' :=
  h.moves.reaches

/-- All states on the way are live. -/
theorem Advances.liveAt (h : m.Advances n m') : ∀ k < n, m.state.LiveAt k := by
  induction h with
  | refl m => exact fun k hk => absurd hk k.not_lt_zero
  | head hlive hok _ ih =>
    intro k hk
    cases k with
    | zero => exact State.liveAt_zero_iff.2 hlive
    | succ k =>
      obtain ⟨hstep, -⟩ := step_of_result_eq_ok hok
      exact State.liveAt_succ_iff.2 ⟨_, hstep, ih k (Nat.lt_of_succ_lt_succ hk)⟩

theorem Advances.affords (h : m.Advances n m') : n = 0 ∨ m.Affords n :=
  h.moves.affords

/-- What is left of a budget where the way leads to. -/
theorem Advances.affords_iff (h : m.Advances n m') : m'.Affords k ↔ m.Affords (n + k) := by
  rcases h.affords with rfl | hn
  · cases h
    rw [Nat.zero_add]
  · exact h.reaches.affords_iff hn

/-- A machine **advances as far as** its states are live and its budget lasts. -/
theorem exists_advances {t : State} (hlive : ∀ k < n, m.state.LiveAt k)
    (ht : m.state.after n = .ok t) (hn : n = 0 ∨ m.Affords n) :
    ∃ m', m.Advances n m' ∧ m'.state = t := by
  induction n generalizing m with
  | zero => exact ⟨m, .refl m, Except.ok.inj ht⟩
  | succ n ih =>
    have haff : m.Affords (n + 1) := hn.resolve_left n.succ_ne_zero
    have hone : m.Affords 1 := haff.of_le (by omega)
    obtain ⟨u, hu, hut⟩ := State.after_succ_eq_ok_iff.1 ht
    have hok : m.step.result = .ok () := step_result_eq_ok_iff.2 ⟨hone, u, hu⟩
    have hreach := reaches_of_step_ok hok
    -- the states and the budget that are left are those of the machine one step on
    obtain rfl : u = m.step.machine.state :=
      Except.ok.inj (hu.symm.trans (step_of_result_eq_ok hok).1)
    have hlive' : ∀ k < n, m.step.machine.state.LiveAt k := fun k hk =>
      (State.liveAt_succ_of_ok hu).1 (hlive (k + 1) (Nat.succ_lt_succ hk))
    have hn' : m.step.machine.Affords n := (hreach.affords_iff hone).2 (by rwa [Nat.add_comm])
    obtain ⟨m', hm', rfl⟩ := ih hlive' hut (.inr hn')
    exact ⟨m', .head (State.liveAt_zero_iff.1 (hlive 0 n.succ_pos)) hok hm', rfl⟩

end WhileLang.Machine
