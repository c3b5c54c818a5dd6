import WhileLang.Proofs.TraceRun

/-!
# Resuming

A trace can be left and taken up again from the state it has come to, by a new machine. Without
budgets the new trace shows what the old one would have shown from there on
(`State.take_trace_after`), although its counter starts anew.

`Trace.Abreast` is the relation that requests keep: two traces are equally far, in the same state,
and nothing else is compared. (For machines with the same counter there is `Trace.Beside`, which
allows for budgets and for states that differ.)
-/

namespace WhileLang

/-! ### Traces abreast of each other -/

/-- Two traces without budgets that are equally far, in the same state. Their counters and
journals are not compared. -/
structure Trace.Abreast (t t' : Trace) : Prop where
  phase_eq : t.phase = t'.phase
  state_eq : t.machine.state = t'.machine.state
  limit_eq_none : t.machine.settings.limit = none
  limit_eq_none' : t'.machine.settings.limit = none

namespace Machine

variable {m m' : Machine}

/-- Without a budget, the state alone decides on a step. -/
theorem step_congr (hstate : m.state = m'.state) (hlimit : m.settings.limit = none)
    (hlimit' : m'.settings.limit = none) :
    m.step.result = m'.step.result ∧ m.step.machine.state = m'.step.machine.state := by
  have hspent : m.spent? = none := spent?_eq_none_iff.2 (affords_of_limit_eq_none hlimit)
  have hspent' : m'.spent? = none := spent?_eq_none_iff.2 (affords_of_limit_eq_none hlimit')
  rw [step, step, hspent, hspent', hstate]
  cases m'.state.step with
  | error f => exact ⟨rfl, hstate⟩
  | ok s => exact ⟨rfl, by simp [advance]⟩

/-- Machines that arrive in the same state show the same. -/
theorem arrive_congr (hstate : m.state = m'.state) (hlimit : m.settings.limit = none)
    (hlimit' : m'.settings.limit = none) :
    (Trace.arrive m).2 = (Trace.arrive m').2 ∧
      (Trace.arrive m).1.Abreast (Trace.arrive m').1 := by
  rw [Trace.arrive, Trace.arrive, hstate]
  split
  · refine ⟨rfl, rfl, ?_, ?_, ?_⟩
    · rw [state_note, state_note, hstate]
    · rw [settings_note, hlimit]
    · rw [settings_note, hlimit']
  · exact ⟨rfl, rfl, hstate, hlimit, hlimit'⟩

end Machine

namespace Trace

variable {t t' : Trace}

theorem Abreast.next (h : t.Abreast t') :
    t.next.2 = t'.next.2 ∧ t.next.1.Abreast t'.next.1 := by
  obtain ⟨m, phase⟩ := t
  obtain ⟨m', phase'⟩ := t'
  obtain ⟨hphase, hstate, hlimit, hlimit'⟩ := h
  obtain rfl : phase = phase' := hphase
  match phase with
  | .fresh => exact Machine.arrive_congr hstate hlimit hlimit'
  | .underway =>
    obtain ⟨hres, hnext⟩ := Machine.step_congr hstate hlimit hlimit'
    have hset : m.step.machine.settings.limit = none := by rw [Machine.settings_step, hlimit]
    have hset' : m'.step.machine.settings.limit = none := by rw [Machine.settings_step, hlimit']
    simp only [Trace.next]
    generalize m.step = reply, m'.step = reply' at hres hnext hset hset' ⊢
    obtain ⟨m₁, result⟩ := reply
    obtain ⟨m₁', result'⟩ := reply'
    obtain rfl : result = result' := hres
    cases result with
    | ok _ => exact Machine.arrive_congr hnext hset hset'
    | error stop => exact ⟨rfl, rfl, hnext, hset, hset'⟩
  | .over => exact ⟨rfl, rfl, hstate, hlimit, hlimit'⟩

/-- Traces abreast of each other **yield the same**, for as long as they are asked. -/
theorem Abreast.take (h : t.Abreast t') (n : Nat) : (t.take n).1 = (t'.take n).1 := by
  induction n generalizing t t' with
  | zero => rfl
  | succ n ih =>
    obtain ⟨hitem, hnext⟩ := h.next
    rw [take_succ, take_succ, hitem, ih hnext]

end Trace

/-- A trace that starts from a later state shows **what the earlier one shows from there on**. -/
theorem State.take_trace_after {s u : State} {k : Nat} (hu : s.after k = .ok u)
    (hlive : ∀ i < k, s.LiveAt i) (recording recording' : Bool) (n : Nat) :
    ((Machine.start ⟨none, recording'⟩ u).trace.take (n + 1)).1
      = ((Machine.start ⟨none, recording⟩ s).trace.take (k + (n + 1))).1.drop k := by
  obtain ⟨m, hm, hstate⟩ := Machine.exists_advances (m := .start ⟨none, recording⟩ s) hlive hu
    (.inr (Machine.affords_of_limit_eq_none rfl))
  have habreast : (Machine.start ⟨none, recording'⟩ u).trace.Abreast m.trace :=
    ⟨rfl, hstate.symm, rfl, congrArg Settings.limit hm.reaches.settings_eq⟩
  rw [Machine.take_trace_of_advances hm n, habreast.take (n + 1), List.drop_left' (by simp)]

end WhileLang
