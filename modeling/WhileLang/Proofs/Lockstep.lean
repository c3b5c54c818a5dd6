import WhileLang.Machine.Trace
import WhileLang.Proofs.Budget
import WhileLang.Proofs.Simulation

/-!
# Runs in lockstep

Two runs can be compared step by step. `x.Alike R y` says that two results are alike as far as
the relation `R` tells: both are the same failure, or both are successes with related values. A
relation between states is in **lockstep** (`Lockstep R`) when related states are terminal
together and have alike next states.

That is a condition on single steps. What follows from it is about everything that is done with
two related states:

* their iterates are alike, and they halt and fail after the same number of steps
  (`Lockstep.after`, `Lockstep.exists_haltsIn_iff`, `Lockstep.exists_failsIn_iff`);
* evaluation finishes for both or for neither (`Lockstep.evaluate`);
* machines that stand side by side (`Machine.Beside`) stay so under every call, whatever their
  common settings are, and their runs reply alike (`Lockstep.step_machine`, `Lockstep.run`);
* their traces answer alike (`Lockstep.take_trace`).
-/

namespace Except

variable {ε α β : Type} {R : α → β → Prop} {x : Except ε α} {y : Except ε β}

/-- Two results are the same failure, or successes with related values. -/
inductive Alike (R : α → β → Prop) : Except ε α → Except ε β → Prop
  | ok {a : α} {b : β} : R a b → Alike R (.ok a) (.ok b)
  | error (e : ε) : Alike R (.error e) (.error e)

theorem Alike.refl {T : α → α → Prop} (hT : ∀ a, T a a) (z : Except ε α) : z.Alike T z := by
  cases z with
  | ok a => exact .ok (hT a)
  | error e => exact .error e

theorem Alike.symm (h : x.Alike R y) : y.Alike (fun b a => R a b) x := by
  cases h with
  | ok hab => exact .ok hab
  | error e => exact .error e

theorem Alike.mono {S : α → β → Prop} (h : x.Alike R y) (hRS : ∀ a b, R a b → S a b) :
    x.Alike S y := by
  cases h with
  | ok hab => exact .ok (hRS _ _ hab)
  | error e => exact .error e

theorem Alike.trans {γ : Type} {S : β → γ → Prop} {T : α → γ → Prop} {z : Except ε γ}
    (h : x.Alike R y) (h' : y.Alike S z) (hT : ∀ a b c, R a b → S b c → T a c) :
    x.Alike T z := by
  cases h with
  | ok hab =>
    cases h' with
    | ok hbc => exact .ok (hT _ _ _ hab hbc)
  | error e =>
    cases h' with
    | error e => exact .error e

/-- Alike results stay alike under functions that lead related values to related ones. -/
theorem Alike.map {α' β' : Type} {S : α' → β' → Prop} {f : α → α'} {g : β → β'}
    (h : x.Alike R y) (hfg : ∀ a b, R a b → S (f a) (g b)) : (x.map f).Alike S (y.map g) := by
  cases h with
  | ok hab => exact .ok (hfg _ _ hab)
  | error e => exact .error e

/-- Mapped by two functions, one result becomes two alike ones. -/
theorem alike_map_map {γ : Type} {f : γ → α} {g : γ → β} (z : Except ε γ)
    (hfg : ∀ c, R (f c) (g c)) : (z.map f).Alike R (z.map g) := by
  cases z with
  | ok c => exact .ok (hfg c)
  | error e => exact .error e

/-- The related values of alike results are the values of these results. -/
theorem Alike.of_eq_ok (h : x.Alike R y) : x.Alike (fun a b => x = .ok a ∧ R a b) y := by
  cases h with
  | ok hab => exact .ok ⟨rfl, hab⟩
  | error e => exact .error e

/-- What is alike to a success is a success. -/
theorem Alike.exists_eq_ok {a : α} (h : x.Alike R y) (hx : x = .ok a) :
    ∃ b, y = .ok b ∧ R a b := by
  subst hx
  cases h with
  | ok hab => exact ⟨_, rfl, hab⟩

/-- What is alike to a failure is that failure. -/
theorem Alike.eq_error {e : ε} (h : x.Alike R y) (hx : x = .error e) : y = .error e := by
  subst hx
  cases h with
  | error e => rfl

end Except

namespace WhileLang

/-- A relation between states that is **kept by steps**: related states are terminal together,
and step to related states or fail with the same fault. -/
structure Lockstep (R : State → State → Prop) : Prop where
  terminal_eq : ∀ {s t : State}, R s t → s.terminal = t.terminal
  step : ∀ {s t : State}, R s t → s.step.Alike R t.step

namespace Lockstep

variable {R : State → State → Prop} {s t u : State} {n : Nat} {f : Fault}

/-- Lockstep has no preferred side. -/
theorem symm (h : Lockstep R) : Lockstep fun s t => R t s where
  terminal_eq hts := (h.terminal_eq hts).symm
  step hts := (h.step hts).symm

/-! ### Iterates -/

/-- The iterates of related states are alike. -/
theorem after (h : Lockstep R) (hst : R s t) (n : Nat) : (s.after n).Alike R (t.after n) := by
  induction n generalizing s t with
  | zero => exact .ok hst
  | succ n ih =>
    have hstep := h.step hst
    rw [State.after, State.after]
    generalize s.step = x, t.step = y at hstep ⊢
    cases hstep with
    | ok hnext => exact ih hnext
    | error f => exact .error f

/-- An iterate on one side has its counterpart on the other. -/
theorem exists_after (h : Lockstep R) (hst : R s t) (hs : s.after n = .ok u) :
    ∃ v, t.after n = .ok v ∧ R u v :=
  (h.after hst n).exists_eq_ok hs

/-- Related states are live at the same numbers of steps. -/
theorem liveAt (h : Lockstep R) (hst : R s t) (hs : s.LiveAt n) : t.LiveAt n := by
  obtain ⟨u, hu, hlive⟩ := hs
  obtain ⟨v, hv, huv⟩ := h.exists_after hst hu
  exact ⟨v, hv, (h.terminal_eq huv).symm.trans hlive⟩

/-- Related states **halt after the same number of steps**, in related states. -/
theorem haltsIn (h : Lockstep R) (hst : R s t) (hs : s.HaltsIn n u) :
    ∃ v, t.HaltsIn n v ∧ R u v := by
  obtain ⟨v, hv, huv⟩ := h.exists_after hst hs.after_eq
  have hterm : v.terminal = true := (h.terminal_eq huv).symm.trans hs.terminal
  exact ⟨v, ⟨hv, hterm, fun k hk => h.liveAt hst (hs.liveAt k hk)⟩, huv⟩

/-- Related states **fail after the same number of steps**, with the same fault. -/
theorem failsIn (h : Lockstep R) (hst : R s t) (hs : s.FailsIn n u f) :
    ∃ v, t.FailsIn n v f ∧ R u v := by
  obtain ⟨v, hv, huv⟩ := h.exists_after hst hs.after_eq
  have hstep : v.step = .error f := (h.step huv).eq_error hs.step_eq
  exact ⟨v, ⟨hv, hstep⟩, huv⟩

/-- Of related states both halt after `n` steps, or neither does. -/
theorem exists_haltsIn_iff (h : Lockstep R) (hst : R s t) :
    (∃ u, s.HaltsIn n u) ↔ ∃ v, t.HaltsIn n v := by
  constructor
  · rintro ⟨u, hu⟩
    obtain ⟨v, hv, -⟩ := h.haltsIn hst hu
    exact ⟨v, hv⟩
  · rintro ⟨v, hv⟩
    obtain ⟨u, hu, -⟩ := h.symm.haltsIn hst hv
    exact ⟨u, hu⟩

/-- Of related states both fail after `n` steps with a fault, or neither does. -/
theorem exists_failsIn_iff (h : Lockstep R) (hst : R s t) :
    (∃ u, s.FailsIn n u f) ↔ ∃ v, t.FailsIn n v f := by
  constructor
  · rintro ⟨u, hu⟩
    obtain ⟨v, hv, -⟩ := h.failsIn hst hu
    exact ⟨v, hv⟩
  · rintro ⟨v, hv⟩
    obtain ⟨u, hu, -⟩ := h.symm.failsIn hst hv
    exact ⟨u, hu⟩

/-! ### Evaluation -/

section Results

variable {Q : Outcome → Outcome → Prop} {r : Except Fault Outcome}

/-- The runs of related states have alike results, if the outcomes of related terminal states
are alike. -/
theorem endsIn (h : Lockstep R)
    (hQ : ∀ {u v : State}, R u v → u.terminal = true → u.outcome.Alike Q v.outcome)
    (hst : R s t) (hs : s.EndsIn n r) : ∃ r', t.EndsIn n r' ∧ r.Alike Q r' := by
  rcases hs with ⟨u, hu, rfl⟩ | ⟨u, f, hu, rfl⟩
  · obtain ⟨v, hv, huv⟩ := h.haltsIn hst hu
    exact ⟨v.outcome, .inl ⟨v, hv, rfl⟩, hQ huv hu.terminal⟩
  · obtain ⟨v, hv, -⟩ := h.failsIn hst hu
    exact ⟨.error f, .inr ⟨v, f, hv, rfl⟩, .error f⟩

/-- **Evaluation finishes for both** of two related states, with alike results, or for
neither. -/
theorem evaluate (h : Lockstep R)
    (hQ : ∀ {u v : State}, R u v → u.terminal = true → u.outcome.Alike Q v.outcome)
    (hst : R s t) {fuel : Nat} (hs : s.term.evaluate fuel s.env = some r) :
    ∃ fuel' r', t.term.evaluate fuel' t.env = some r' ∧ r.Alike Q r' := by
  -- evaluation has the results of runs, and runs go in lockstep
  obtain ⟨n, hn⟩ := State.exists_endsIn_iff.2 ⟨fuel, hs⟩
  obtain ⟨r', hr', halike⟩ := h.endsIn hQ hst hn
  obtain ⟨fuel', hfuel'⟩ := State.exists_endsIn_iff.1 ⟨n, hr'⟩
  exact ⟨fuel', r', hfuel', halike⟩

end Results

end Lockstep

/-! ### Machines -/

/-- Two machines stand **side by side**: in related states, with the same counter and the same
settings. Their journals are not compared. -/
structure Machine.Beside (R : State → State → Prop) (m m' : Machine) : Prop where
  state : R m.state m'.state
  steps_eq : m.steps = m'.steps
  settings_eq : m.settings = m'.settings

variable {R : State → State → Prop} {m m' : Machine}

/-- Machines that start from related states stand side by side. -/
theorem Machine.Beside.start {s t : State} (hst : R s t) (settings : Settings) :
    (Machine.start settings s).Beside R (.start settings t) :=
  ⟨hst, rfl, rfl⟩

/-- Whatever is entered into their journals, machines stay side by side. -/
theorem Machine.Beside.note (h : m.Beside R m') (e e' : Event) :
    (m.note e).Beside R (m'.note e') where
  state := by rw [state_note, state_note]; exact h.state
  steps_eq := by rw [steps_note, steps_note]; exact h.steps_eq
  settings_eq := by rw [settings_note, settings_note]; exact h.settings_eq

/-- Their budgets are spent together. -/
theorem Machine.Beside.spent?_eq (h : m.Beside R m') : m.spent? = m'.spent? := by
  rw [spent?, spent?, h.steps_eq, h.settings_eq]

/-- Moved on to related states, machines stay side by side. -/
theorem Machine.Beside.advance (h : m.Beside R m') {s t : State} (hst : R s t) :
    (m.advance s).Beside R (m'.advance t) :=
  ⟨hst, congrArg (· + 1) h.steps_eq, h.settings_eq⟩

namespace Lockstep

/-- **A step keeps machines side by side** and has the same result for both. -/
theorem step_machine (h : Lockstep R) (hm : m.Beside R m') :
    m.step.result = m'.step.result ∧ m.step.machine.Beside R m'.step.machine := by
  rw [Machine.step, Machine.step, hm.spent?_eq]
  cases m'.spent? with
  | some limit => exact ⟨rfl, hm.note _ _⟩
  | none =>
    have hstep := h.step hm.state
    generalize m.state.step = x, m'.state.step = y at hstep ⊢
    cases hstep with
    | ok hnext => exact ⟨rfl, (hm.advance hnext).note _ _⟩
    | error f => exact ⟨rfl, hm⟩

/-- **Runs of machines side by side reply alike**, and leave them side by side. -/
theorem run (h : Lockstep R) (hm : m.Beside R m') {r : Reply State} (hr : m.RunsTo r) :
    ∃ r', m'.RunsTo r' ∧ r.machine.Beside R r'.machine ∧ r.result.Alike R r'.result := by
  obtain ⟨fuel, hr⟩ := hr
  induction fuel generalizing m m' with
  | zero => simp [Machine.run] at hr
  | succ fuel ih =>
    have hterm := h.terminal_eq hm.state
    obtain ⟨hres, hnext⟩ := h.step_machine hm
    cases hs : m.state.terminal with
    | true =>
      rw [Machine.run_of_terminal hs] at hr
      obtain rfl := Option.some.inj hr
      exact ⟨_, ⟨1, Machine.run_of_terminal (hterm.symm.trans hs)⟩, hm.note _ _, .ok hm.state⟩
    | false =>
      have hs' : m'.state.terminal = false := hterm.symm.trans hs
      cases hstep : m.step.result with
      | ok _ =>
        rw [Machine.run_of_step_ok hs hstep] at hr
        obtain ⟨r', ⟨fuel', hfuel'⟩, hbeside, halike⟩ := ih hnext hr
        have hrun : m'.run (fuel' + 1) = some r' := by
          rw [Machine.run_of_step_ok hs' (hres.symm.trans hstep), hfuel']
        exact ⟨r', ⟨fuel' + 1, hrun⟩, hbeside, halike⟩
      | error stop =>
        rw [Machine.run_of_step_error hs hstep] at hr
        obtain rfl := Option.some.inj hr
        have hrun : m'.run 1 = some ⟨m'.step.machine, .error stop⟩ :=
          Machine.run_of_step_error hs' (hres.symm.trans hstep)
        exact ⟨_, ⟨1, hrun⟩, hnext, .error stop⟩

end Lockstep

/-! ### Traces -/

/-- Two traces stand side by side: equally far, over machines side by side. -/
structure Trace.Beside (R : State → State → Prop) (t t' : Trace) : Prop where
  machine : t.machine.Beside R t'.machine
  phase_eq : t.phase = t'.phase

/-- What a function of states shows of the answers of a trace. Failures are shown as they
are. -/
def seen {β : Type} (f : State → β) (items : List (Option (Except Stop State))) :
    List (Option (Except Stop β)) :=
  items.map fun item => item.map fun r => r.map f

namespace Lockstep

variable {β : Type} {g : State → β}

/-- Arriving in related states looks the same, and keeps traces side by side. -/
theorem arrive (h : Lockstep R) (hg : ∀ {s t : State}, R s t → g s = g t)
    (hm : m.Beside R m') :
    (Trace.arrive m).2.map (Except.map g) = (Trace.arrive m').2.map (Except.map g) ∧
      (Trace.arrive m).1.Beside R (Trace.arrive m').1 := by
  rw [Trace.arrive, Trace.arrive, h.terminal_eq hm.state]
  have hitem : (.ok (g m.state) : Except Stop β) = .ok (g m'.state) :=
    congrArg Except.ok (hg hm.state)
  split
  · exact ⟨congrArg some hitem, hm.note _ _, rfl⟩
  · exact ⟨congrArg some hitem, hm, rfl⟩

/-- A request to traces side by side is answered alike, and keeps them side by side. -/
theorem next (h : Lockstep R) (hg : ∀ {s t : State}, R s t → g s = g t) {t t' : Trace}
    (ht : t.Beside R t') :
    t.next.2.map (Except.map g) = t'.next.2.map (Except.map g) ∧
      t.next.1.Beside R t'.next.1 := by
  obtain ⟨m, phase⟩ := t
  obtain ⟨m', phase'⟩ := t'
  obtain ⟨hm, hphase⟩ := ht
  obtain rfl : phase = phase' := hphase
  match phase with
  | .fresh => exact h.arrive hg hm
  | .underway =>
    obtain ⟨hres, hnext⟩ := h.step_machine hm
    simp only [Trace.next]
    generalize m.step = reply, m'.step = reply' at hres hnext ⊢
    obtain ⟨m₁, result⟩ := reply
    obtain ⟨m₁', result'⟩ := reply'
    obtain rfl : result = result' := hres
    cases result with
    | ok _ => exact h.arrive hg hnext
    | error stop => exact ⟨rfl, hnext, rfl⟩
  | .over => exact ⟨rfl, hm, rfl⟩

/-- Any number of requests to traces side by side are answered alike. -/
theorem take (h : Lockstep R) (hg : ∀ {s t : State}, R s t → g s = g t) {t t' : Trace}
    (ht : t.Beside R t') (n : Nat) : seen g (t.take n).1 = seen g (t'.take n).1 := by
  induction n generalizing t t' with
  | zero => rfl
  | succ n ih =>
    obtain ⟨hitem, hnext⟩ := h.next hg ht
    rw [Trace.take_succ, Trace.take_succ, seen, List.map_cons, seen, List.map_cons]
    exact congr (congrArg List.cons hitem) (ih hnext)

/-- **Traces of machines side by side look the same**, item by item, through every function that
does not tell related states apart. -/
theorem take_trace (h : Lockstep R) (hg : ∀ {s t : State}, R s t → g s = g t)
    (hm : m.Beside R m') (n : Nat) :
    seen g (m.trace.take n).1 = seen g (m'.trace.take n).1 := by
  have ht : m.trace.Beside R m'.trace := ⟨hm, rfl⟩
  exact h.take hg ht n

end Lockstep

end WhileLang
