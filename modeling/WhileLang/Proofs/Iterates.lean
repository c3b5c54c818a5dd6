import WhileLang.Proofs.Redex
import WhileLang.State

/-!
# Iterates of a state

`s.after n` is the state that `n` steps lead to. A terminal state steps to itself, so the
iterates of a state that becomes terminal stay where they are from then on. What the
iterates do is said by three predicates:

* `s.LiveAt n`: there is an `n`-th iterate, and it is not terminal. All the earlier ones are
  then live too (`LiveAt.of_le`).
* `s.HaltsIn n t`: the `n`-th iterate `t` is the **first** terminal one.
* `s.FailsIn n t f`: the `n`-th iterate is `t`, and the step from there fails with `f`.

Up to any bound exactly one of the three is the case: `halts_or_fails_or_liveAt` says that one
of them is, and `LiveAt.lt_of_haltsIn`, `LiveAt.le_of_failsIn` and `HaltsIn.not_failsIn` that
no two are.
-/

namespace WhileLang

namespace State

theorem terminal_eq_true_iff {s : State} : s.terminal = true ↔ s.term.reducible = false := by
  simp [terminal]

theorem terminal_eq_false_iff {s : State} : s.terminal = false ↔ s.term.reducible = true := by
  simp [terminal]

/-- The outcome of a terminal state can be read off. -/
theorem exists_outcome_eq_ok {s : State} (h : s.terminal = true) : ∃ o, s.outcome = .ok o := by
  obtain ⟨t, env⟩ := s
  cases t with
  | expr e =>
    obtain ⟨v, rfl, hv⟩ := Expr.exists_operand_eq_ok (terminal_eq_true_iff.1 h)
    exact ⟨.value v, by simp [outcome, hv, Except.map]⟩
  | stmt s => exact ⟨.environment env, rfl⟩

/-- A terminal state has a value for its outcome only if its term is that literal. -/
theorem outcome_eq_value_iff {s : State} {v : Value} :
    s.outcome = .ok (.value v) ↔ s.term = .expr (.literal v) := by
  obtain ⟨t, env⟩ := s
  cases t with
  | expr e => cases e <;> simp [outcome, Expr.operand, Expr.value?, Except.map]
  | stmt s => simp [outcome]

/-- A terminal state has an environment for its outcome only if its term is a finished
statement. -/
theorem outcome_eq_environment_iff {s : State} {env : Environment} (h : s.terminal = true) :
    s.outcome = .ok (.environment env) ↔ s = ⟨.stmt .doNothing, env⟩ := by
  obtain ⟨t, env'⟩ := s
  cases t with
  | expr e => cases e <;> simp [outcome, Expr.operand, Expr.value?, Except.map]
  | stmt s =>
    obtain rfl := Stmt.reducible_eq_false_iff.1 (terminal_eq_true_iff.1 h)
    simp [outcome]

/-- A terminal state steps to itself. -/
theorem step_of_terminal {s : State} (h : s.terminal = true) : s.step = .ok s := by
  rw [step, Term.reduce_of_not_reducible (terminal_eq_true_iff.1 h)]
  rfl

/-- Only a state that is not terminal can fail to step. -/
theorem terminal_eq_false_of_step {s : State} {f : Fault} (h : s.step = .error f) :
    s.terminal = false := by
  cases ht : s.terminal with
  | false => rfl
  | true => rw [step_of_terminal ht] at h; cases h

/-- A step of an expression is one of its reduction, and **leaves the environment as it is**. -/
theorem exists_reduce_of_step_expr {e : Expr} {env : Environment} {t : State}
    (h : step ⟨.expr e, env⟩ = .ok t) :
    ∃ e', e.reduce env = .ok (e', env) ∧ t = ⟨.expr e', env⟩ := by
  obtain ⟨⟨term, env'⟩, hterm, rfl⟩ := Except.map_eq_ok_iff.1 h
  obtain ⟨⟨e', env₁⟩, hred, heq⟩ := Except.map_eq_ok_iff.1 hterm
  obtain ⟨rfl, rfl⟩ := Prod.mk.inj heq
  obtain rfl := Expr.env_of_reduce hred
  exact ⟨e', hred, rfl⟩

/-- A step of a statement is one of its reduction. -/
theorem exists_reduce_of_step_stmt {p : Stmt} {env : Environment} {t : State}
    (h : step ⟨.stmt p, env⟩ = .ok t) :
    ∃ p' env', p.reduce env = .ok (p', env') ∧ t = ⟨.stmt p', env'⟩ := by
  obtain ⟨⟨term, env'⟩, hterm, rfl⟩ := Except.map_eq_ok_iff.1 h
  obtain ⟨⟨p', env₁⟩, hred, heq⟩ := Except.map_eq_ok_iff.1 hterm
  obtain ⟨rfl, rfl⟩ := Prod.mk.inj heq
  exact ⟨p', env₁, hred, rfl⟩

/-! ### Iterates -/

/-- The state after a number of steps, or the fault of the first step that fails. -/
def after : Nat → State → Except Fault State
  | 0, s => .ok s
  | n + 1, s =>
    match s.step with
    | .error f => .error f
    | .ok t => after n t

@[simp]
theorem after_zero (s : State) : s.after 0 = .ok s := rfl

/-- After a first step that succeeds, the others go on from there. -/
theorem after_succ_of_ok {s t : State} (h : s.step = .ok t) (n : Nat) :
    s.after (n + 1) = t.after n := by
  rw [after, h]

/-- A first step that fails decides all that follows. -/
theorem after_succ_of_error {s : State} {f : Fault} (h : s.step = .error f) (n : Nat) :
    s.after (n + 1) = .error f := by
  rw [after, h]

/-- There is a later iterate only if the first step succeeds. -/
theorem after_succ_eq_ok_iff {s u : State} {n : Nat} :
    s.after (n + 1) = .ok u ↔ ∃ t, s.step = .ok t ∧ t.after n = .ok u := by
  cases hs : s.step with
  | error f => simp [after_succ_of_error hs]
  | ok t => simp [after_succ_of_ok hs]

/-- Iterates of iterates are iterates. -/
theorem after_add {s t : State} {m : Nat} (h : s.after m = .ok t) (n : Nat) :
    s.after (m + n) = t.after n := by
  induction m generalizing s with
  | zero =>
    obtain rfl : s = t := by simpa using h
    rw [Nat.zero_add]
  | succ m ih =>
    obtain ⟨u, hu, hut⟩ := after_succ_eq_ok_iff.1 h
    rw [Nat.succ_add, after_succ_of_ok hu, ih hut]

/-- One step more is a step of the last iterate. -/
theorem after_succ {s t : State} {n : Nat} (h : s.after n = .ok t) :
    s.after (n + 1) = t.step := by
  rw [after_add h 1]
  cases ht : t.step with
  | error f => exact after_succ_of_error ht 0
  | ok u => exact after_succ_of_ok ht 0

/-- The iterates of a terminal state are that state. -/
theorem after_of_terminal {s : State} (h : s.terminal = true) (n : Nat) :
    s.after n = .ok s := by
  induction n with
  | zero => rfl
  | succ n ih => rw [after_succ_of_ok (step_of_terminal h), ih]

/-- Before an iterate there are all the earlier ones. -/
theorem exists_after_of_le {s t : State} {k n : Nat} (hkn : k ≤ n) (h : s.after n = .ok t) :
    ∃ u, s.after k = .ok u ∧ u.after (n - k) = .ok t := by
  induction k generalizing s n with
  | zero => exact ⟨s, rfl, h⟩
  | succ k ih =>
    obtain ⟨n, rfl⟩ : ∃ m, n = m + 1 := ⟨n - 1, by omega⟩
    obtain ⟨u, hu, hut⟩ := after_succ_eq_ok_iff.1 h
    obtain ⟨v, hv, hvt⟩ := ih (by omega) hut
    exact ⟨v, by rw [after_succ_of_ok hu, hv], by rwa [Nat.succ_sub_succ]⟩

/-! ### Live states -/

/-- There is an `n`-th iterate, and it is not terminal. -/
def LiveAt (s : State) (n : Nat) : Prop :=
  ∃ t, s.after n = .ok t ∧ t.terminal = false

theorem liveAt_zero_iff {s : State} : s.LiveAt 0 ↔ s.terminal = false := by
  simp [LiveAt]

theorem liveAt_succ_iff {s : State} {n : Nat} :
    s.LiveAt (n + 1) ↔ ∃ t, s.step = .ok t ∧ t.LiveAt n := by
  simp only [LiveAt, after_succ_eq_ok_iff]
  constructor
  · rintro ⟨u, ⟨t, hst, htu⟩, hu⟩
    exact ⟨t, hst, u, htu, hu⟩
  · rintro ⟨t, hst, u, htu, hu⟩
    exact ⟨u, ⟨t, hst, htu⟩, hu⟩

/-- What is live after a step is live one later. -/
theorem liveAt_succ_of_ok {s t : State} {n : Nat} (h : s.step = .ok t) :
    s.LiveAt (n + 1) ↔ t.LiveAt n := by
  rw [LiveAt, LiveAt, after_succ_of_ok h]

/-- What is live later is live before: a terminal state would have stayed where it was. -/
theorem LiveAt.of_le {s : State} {k n : Nat} (h : s.LiveAt n) (hkn : k ≤ n) : s.LiveAt k := by
  obtain ⟨t, ht, hlive⟩ := h
  obtain ⟨u, hu, hut⟩ := exists_after_of_le hkn ht
  refine ⟨u, hu, ?_⟩
  cases hterm : u.terminal with
  | false => rfl
  | true =>
    rw [after_of_terminal hterm] at hut
    cases hut
    exact hterm.symm.trans hlive

/-! ### Ends of a run -/

/-- The `n`-th iterate is `t`, and it is the first terminal one. -/
structure HaltsIn (s : State) (n : Nat) (t : State) : Prop where
  after_eq : s.after n = .ok t
  terminal : t.terminal = true
  liveAt : ∀ k < n, s.LiveAt k

/-- The `n`-th iterate is `t`, and the step from there fails with `f`. -/
structure FailsIn (s : State) (n : Nat) (t : State) (f : Fault) : Prop where
  after_eq : s.after n = .ok t
  step_eq : t.step = .error f

theorem haltsIn_zero_iff {s t : State} : s.HaltsIn 0 t ↔ t = s ∧ s.terminal = true := by
  constructor
  · rintro ⟨h, ht, -⟩
    obtain rfl : s = t := by simpa using h
    exact ⟨rfl, ht⟩
  · rintro ⟨rfl, ht⟩
    exact ⟨rfl, ht, fun k hk => absurd hk (Nat.not_lt_zero k)⟩

theorem haltsIn_succ_iff {s t : State} {n : Nat} :
    s.HaltsIn (n + 1) t ↔ s.terminal = false ∧ ∃ u, s.step = .ok u ∧ u.HaltsIn n t := by
  constructor
  · rintro ⟨h, ht, hlive⟩
    obtain ⟨u, hu, hut⟩ := after_succ_eq_ok_iff.1 h
    refine ⟨liveAt_zero_iff.1 (hlive 0 n.succ_pos), u, hu, hut, ht, fun k hk => ?_⟩
    obtain ⟨v, hv, hvk⟩ := liveAt_succ_iff.1 (hlive (k + 1) (Nat.succ_lt_succ hk))
    cases hu.symm.trans hv
    exact hvk
  · rintro ⟨hs, u, hu, hut, ht, hlive⟩
    refine ⟨after_succ_eq_ok_iff.2 ⟨u, hu, hut⟩, ht, fun k hk => ?_⟩
    cases k with
    | zero => exact liveAt_zero_iff.2 hs
    | succ k => exact liveAt_succ_iff.2 ⟨u, hu, hlive k (Nat.lt_of_succ_lt_succ hk)⟩

theorem failsIn_zero_iff {s t : State} {f : Fault} :
    s.FailsIn 0 t f ↔ t = s ∧ s.step = .error f := by
  constructor
  · rintro ⟨h, hf⟩
    obtain rfl : s = t := by simpa using h
    exact ⟨rfl, hf⟩
  · rintro ⟨rfl, hf⟩
    exact ⟨rfl, hf⟩

theorem failsIn_succ_iff {s t : State} {n : Nat} {f : Fault} :
    s.FailsIn (n + 1) t f ↔ ∃ u, s.step = .ok u ∧ u.FailsIn n t f := by
  constructor
  · rintro ⟨h, hf⟩
    obtain ⟨u, hu, hut⟩ := after_succ_eq_ok_iff.1 h
    exact ⟨u, hu, hut, hf⟩
  · rintro ⟨u, hu, hut, hf⟩
    exact ⟨after_succ_eq_ok_iff.2 ⟨u, hu, hut⟩, hf⟩

/-- A run that fails goes through live states only, the last one included. -/
theorem FailsIn.liveAt {s t : State} {n : Nat} {f : Fault} (h : s.FailsIn n t f) {k : Nat}
    (hkn : k ≤ n) : s.LiveAt k :=
  LiveAt.of_le ⟨t, h.after_eq, terminal_eq_false_of_step h.step_eq⟩ hkn

/-- A run that fails has no further iterates. -/
theorem FailsIn.after_eq_error {s t : State} {n : Nat} {f : Fault} (h : s.FailsIn n t f)
    {k : Nat} (hnk : n < k) : s.after k = .error f := by
  obtain ⟨d, rfl⟩ : ∃ d, k = n + (d + 1) := ⟨k - n - 1, by omega⟩
  rw [after_add h.after_eq, after_succ_of_error h.step_eq]

/-- A live state comes before the terminal one. -/
theorem LiveAt.lt_of_haltsIn {s t : State} {k n : Nat} (hk : s.LiveAt k)
    (hn : s.HaltsIn n t) : k < n := by
  refine Nat.lt_of_not_le fun hle => ?_
  obtain ⟨u, hu, hlive⟩ := hk.of_le hle
  cases hu.symm.trans hn.after_eq
  exact absurd hn.terminal (by simp [hlive])

/-- A live state comes no later than the one whose step fails. -/
theorem LiveAt.le_of_failsIn {s t : State} {k n : Nat} {f : Fault} (hk : s.LiveAt k)
    (hn : s.FailsIn n t f) : k ≤ n := by
  refine Nat.le_of_not_lt fun hlt => ?_
  obtain ⟨u, hu, -⟩ := hk
  rw [hn.after_eq_error hlt] at hu
  cases hu

/-- A run halts in one way only. -/
theorem HaltsIn.unique {s t u : State} {m n : Nat} (hm : s.HaltsIn m t) (hn : s.HaltsIn n u) :
    m = n ∧ t = u := by
  obtain rfl : m = n := by
    -- the earlier of two ends would be live on the way to the later one
    rcases Nat.lt_trichotomy m n with hlt | heq | hgt
    · exact absurd ((hn.liveAt m hlt).lt_of_haltsIn hm) (Nat.lt_irrefl m)
    · exact heq
    · exact absurd ((hm.liveAt n hgt).lt_of_haltsIn hn) (Nat.lt_irrefl n)
  exact ⟨rfl, Except.ok.inj (hm.after_eq.symm.trans hn.after_eq)⟩

/-- A run fails in one way only. -/
theorem FailsIn.unique {s t u : State} {m n : Nat} {f g : Fault} (hm : s.FailsIn m t f)
    (hn : s.FailsIn n u g) : m = n ∧ t = u ∧ f = g := by
  obtain rfl : m = n :=
    Nat.le_antisymm ((hm.liveAt m.le_refl).le_of_failsIn hn)
      ((hn.liveAt n.le_refl).le_of_failsIn hm)
  obtain rfl : t = u := Except.ok.inj (hm.after_eq.symm.trans hn.after_eq)
  exact ⟨rfl, rfl, Except.error.inj (hm.step_eq.symm.trans hn.step_eq)⟩

/-- A run that halts does not fail. -/
theorem HaltsIn.not_failsIn {s t u : State} {m n : Nat} {f : Fault} (hm : s.HaltsIn m t) :
    ¬s.FailsIn n u f := by
  intro hn
  have hlt : n < m := (hn.liveAt n.le_refl).lt_of_haltsIn hm
  have herr := hn.after_eq_error hlt
  rw [hm.after_eq] at herr
  cases herr

/-- **Every run** has halted, has failed, or is live, at any bound. -/
theorem halts_or_fails_or_liveAt (s : State) (n : Nat) :
    (∃ k t, k ≤ n ∧ s.HaltsIn k t) ∨ (∃ k t f, k < n ∧ s.FailsIn k t f) ∨ s.LiveAt n := by
  induction n with
  | zero =>
    cases hs : s.terminal with
    | false => exact .inr (.inr (liveAt_zero_iff.2 hs))
    | true => exact .inl ⟨0, s, Nat.le_refl 0, haltsIn_zero_iff.2 ⟨rfl, hs⟩⟩
  | succ n ih =>
    rcases ih with ⟨k, t, hk, ht⟩ | ⟨k, t, f, hk, ht⟩ | hlive
    · exact .inl ⟨k, t, Nat.le_succ_of_le hk, ht⟩
    · exact .inr (.inl ⟨k, t, f, Nat.lt_succ_of_lt hk, ht⟩)
    · obtain ⟨t, ht, -⟩ := id hlive
      -- the step from the live state decides what there is one further
      cases hstep : t.step with
      | error f => exact .inr (.inl ⟨n, t, f, n.lt_succ_self, ht, hstep⟩)
      | ok u =>
        have hu : s.after (n + 1) = .ok u := (after_succ ht).trans hstep
        cases hterm : u.terminal with
        | false => exact .inr (.inr ⟨u, hu, hterm⟩)
        | true =>
          refine .inl ⟨n + 1, u, Nat.le_refl _, hu, hterm, fun k hk => ?_⟩
          exact hlive.of_le (Nat.le_of_lt_succ hk)

/-- An iterate is missing only because an earlier step fails. -/
theorem exists_failsIn_of_after_eq_error {s : State} {n : Nat} {f : Fault}
    (h : s.after n = .error f) : ∃ k < n, ∃ t, s.FailsIn k t f := by
  rcases s.halts_or_fails_or_liveAt n with ⟨k, t, hk, ht⟩ | ⟨k, t, g, hk, hg⟩ | ⟨t, ht, -⟩
  · -- a terminal state would have stayed where it was
    obtain ⟨d, rfl⟩ : ∃ d, n = k + d := ⟨n - k, by omega⟩
    rw [after_add ht.after_eq, after_of_terminal ht.terminal] at h
    cases h
  · obtain rfl := Except.error.inj (h.symm.trans (hg.after_eq_error hk))
    exact ⟨k, hk, t, hg⟩
  · cases h.symm.trans ht

/-! ### Results of a run -/

/-- After `n` steps the run has the result `r`: the outcome of its terminal state, or the fault
of the step that fails. -/
def EndsIn (s : State) (n : Nat) (r : Except Fault Outcome) : Prop :=
  (∃ t, s.HaltsIn n t ∧ t.outcome = r) ∨ ∃ t f, s.FailsIn n t f ∧ r = .error f

variable {s t : State} {n : Nat} {r : Except Fault Outcome} {f : Fault}

/-- A terminal state has its result at once. -/
theorem endsIn_iff_of_terminal (h : s.terminal = true) :
    s.EndsIn n r ↔ n = 0 ∧ r = s.outcome := by
  have hs : s.HaltsIn 0 s := haltsIn_zero_iff.2 ⟨rfl, h⟩
  constructor
  · rintro (⟨u, hu, rfl⟩ | ⟨u, f, hu, -⟩)
    · obtain ⟨rfl, rfl⟩ := hu.unique hs
      exact ⟨rfl, rfl⟩
    · exact absurd hu hs.not_failsIn
  · rintro ⟨rfl, rfl⟩
    exact .inl ⟨s, hs, rfl⟩

/-- A state that cannot step has its result at once. -/
theorem endsIn_iff_of_step_error (h : s.step = .error f) :
    s.EndsIn n r ↔ n = 0 ∧ r = .error f := by
  have hs : s.FailsIn 0 s f := failsIn_zero_iff.2 ⟨rfl, h⟩
  constructor
  · rintro (⟨u, hu, -⟩ | ⟨u, g, hu, rfl⟩)
    · exact absurd hs hu.not_failsIn
    · obtain ⟨rfl, -, rfl⟩ := hu.unique hs
      exact ⟨rfl, rfl⟩
  · rintro ⟨rfl, rfl⟩
    exact .inr ⟨s, f, hs, rfl⟩

/-- A state that steps has the result of the next state, one step later. -/
theorem endsIn_iff_of_step_ok (hs : s.terminal = false) (h : s.step = .ok t) :
    s.EndsIn n r ↔ ∃ k, n = k + 1 ∧ t.EndsIn k r := by
  cases n with
  | zero =>
    simp only [EndsIn, haltsIn_zero_iff, failsIn_zero_iff, hs, h]
    simp
  | succ n =>
    simp only [EndsIn, haltsIn_succ_iff, failsIn_succ_iff, hs, h]
    simp

end State

end WhileLang
