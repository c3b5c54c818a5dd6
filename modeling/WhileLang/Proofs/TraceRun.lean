import WhileLang.Machine.Trace
import WhileLang.Proofs.Budget

/-!
# Traces and runs

A trace and a run of the same machine take the same steps and meet the same end, but a trace
shows what is on the way. `m.item i` is what it shows at a position: the `i`-th iterate of the
state of `m`.

Both are compared with `Machine.Advances`. As far as the machine advances, the trace yields
the iterates, and goes on like a trace of the machine it has got to
(`take_trace_of_advances`). What it yields at the end depends on whether the run halts there
(`take_trace_of_halt`) or stops with a failure (`take_trace_of_stop`). `Trace.StandsAt` is the
invariant that says where a trace is after a number of requests.
-/

namespace WhileLang

/-- What a trace of the machine yields at a position, as long as it goes on. -/
def Machine.item (m : Machine) (i : Nat) : Option (Except Stop State) :=
  some ((m.state.after i).mapError .fault)

/-- Whether a trace has yielded a state. -/
def isState : Option (Except Stop State) → Bool
  | some (.ok _) => true
  | some (.error _) => false
  | none => false

namespace Machine

variable {m m' : Machine} {i k n : Nat} {u : State} {stop : Stop}

theorem item_of_after (h : m.state.after i = .ok u) : m.item i = some (.ok u) := by
  rw [item, h]
  rfl

/-- The positions of a trace move up with a step. -/
theorem item_succ (hok : m.step.result = .ok ()) (i : Nat) :
    m.item (i + 1) = m.step.machine.item i := by
  rw [item, item, State.after_succ_of_ok (step_of_result_eq_ok hok).1]

/-! ### Single requests -/

/-- A trace of a machine in a terminal state yields that state and is over. -/
theorem next_trace_of_terminal (h : m.state.terminal = true) :
    m.trace.next = (⟨m.note (.finished m.steps), .over⟩, some (.ok m.state)) := by
  rw [Trace.next, trace, Trace.arrive, if_pos h]

/-- A trace of a machine in another state yields that state and is underway. -/
theorem next_trace_of_live (h : m.state.terminal = false) :
    m.trace.next = (⟨m, .underway⟩, some (.ok m.state)) := by
  rw [Trace.next, trace, Trace.arrive, if_neg (by rw [h]; exact Bool.false_ne_true)]

/-- The first thing that a trace yields is the present state. -/
theorem next_trace (m : Machine) :
    m.trace.next.2 = some (.ok m.state) ∧ m.Reaches 0 m.trace.next.1.machine := by
  cases h : m.state.terminal with
  | true =>
    rw [next_trace_of_terminal h]
    exact ⟨rfl, (Reaches.refl m).note _⟩
  | false =>
    rw [next_trace_of_live h]
    exact ⟨rfl, .refl m⟩

/-- A trace that is underway yields what a trace of the machine one step on yields first. -/
theorem next_underway_of_step_ok (hok : m.step.result = .ok ()) :
    (Trace.mk m .underway).next = m.step.machine.trace.next := by
  simp only [Trace.next, trace]
  generalize m.step = reply at hok ⊢
  obtain ⟨m', result⟩ := reply
  cases hok
  rfl

/-- A trace that is underway yields the failure of a step and is over. -/
theorem next_underway_of_step_error (herr : m.step.result = .error stop) :
    (Trace.mk m .underway).next = (⟨m.step.machine, .over⟩, some (.error stop)) := by
  simp only [Trace.next]
  generalize m.step = reply at herr ⊢
  obtain ⟨m', result⟩ := reply
  cases herr
  rfl

end Machine

/-- A trace that is over yields nothing, however often it is asked. -/
theorem Trace.take_of_over {t : Trace} (h : t.phase = .over) (n : Nat) :
    t.take n = (List.replicate n none, t) := by
  induction n with
  | zero => rfl
  | succ n ih => rw [take_succ, next_of_over h, ih, List.replicate_succ]

namespace Machine

variable {m m' : Machine} {i k n : Nat} {stop : Stop}

/-! ### Many requests -/

/-- As far as a machine advances, its trace yields the iterates of its state and **goes on like
a trace of the machine it has got to**. -/
theorem take_trace_of_advances (h : m.Advances n m') (k : Nat) :
    m.trace.take (n + (k + 1))
      = ((List.range n).map m.item ++ (m'.trace.take (k + 1)).1, (m'.trace.take (k + 1)).2) := by
  induction h with
  | refl m => simp
  | @head m m' n hlive hok _ ih =>
    -- once the state is yielded, the trace is as good as one of the next machine
    have hnext : (Trace.mk m .underway).take (n + (k + 1))
        = m.step.machine.trace.take (n + (k + 1)) := by
      rw [← Nat.add_assoc, Trace.take_succ, Trace.take_succ, next_underway_of_step_ok hok]
    have hitems : (List.range n).map (m.item ∘ Nat.succ)
        = (List.range n).map m.step.machine.item :=
      List.map_congr_left fun i _ => item_succ hok i
    rw [Nat.succ_add, Trace.take_succ, next_trace_of_live hlive, hnext, ih,
      List.range_succ_eq_map, List.map_cons, List.map_map, hitems, item_of_after rfl]
    rfl

/-- Up to a state that it has advanced to, a machine's trace yields the iterates. -/
theorem take_trace_succ (h : m.Advances n m') :
    (m.trace.take (n + 1)).1 = (List.range (n + 1)).map m.item := by
  rw [take_trace_of_advances h 0, Trace.take_succ, (next_trace m').1, List.range_succ,
    List.map_append, List.map_singleton, item_of_after h.reaches.after_eq]
  rfl

/-- Where a run halts, the trace yields the state and **nothing any more**. -/
theorem take_trace_of_halt (h : m.Advances n m') (hterm : m'.state.terminal = true) (k : Nat) :
    (m.trace.take (n + 1 + k)).1
      = (List.range (n + 1)).map m.item ++ List.replicate k none := by
  rw [Nat.add_assoc, Nat.add_comm 1, take_trace_of_advances h, Trace.take_succ,
    next_trace_of_terminal hterm, Trace.take_of_over rfl, List.range_succ, List.map_append,
    List.map_singleton, item_of_after h.reaches.after_eq, List.append_assoc]
  rfl

/-- Where a run stops with a failure, the trace yields the state, the failure, and **nothing any
more**. -/
theorem take_trace_of_stop (h : m.Advances n m') (hlive : m'.state.terminal = false)
    (herr : m'.step.result = .error stop) (k : Nat) :
    (m.trace.take (n + 2 + k)).1
      = (List.range (n + 1)).map m.item ++ some (.error stop) :: List.replicate k none := by
  have hlen : n + 2 + k = n + (k + 1 + 1) := by omega
  rw [hlen, take_trace_of_advances h, Trace.take_succ, Trace.take_succ,
    next_trace_of_live hlive, next_underway_of_step_error herr, Trace.take_of_over rfl,
    List.range_succ, List.map_append, List.map_singleton, item_of_after h.reaches.after_eq,
    List.append_assoc]
  rfl

/-- A machine whose run does not end advances forever. -/
theorem exists_advances_of_not_runsTo (h : ∀ r, ¬m.RunsTo r) (n : Nat) :
    ∃ m', m.Advances n m' ∧ m'.state.terminal = false ∧ m'.step.result = .ok () := by
  -- wherever the machine has advanced to, an end there would be the end of a run
  have hgo : ∀ {n m'}, m.Advances n m' → m'.state.terminal = false ∧ m'.step.result = .ok () := by
    intro n m' hm'
    cases hterm : m'.state.terminal with
    | true => exact absurd (runsTo_iff.2 ⟨n, m', hm', .halt hterm⟩) (h _)
    | false =>
      cases hres : m'.step.result with
      | ok u => exact ⟨rfl, rfl⟩
      | error stop => exact absurd (runsTo_iff.2 ⟨n, m', hm', .stop hterm hres⟩) (h _)
  induction n with
  | zero => exact ⟨m, .refl m, hgo (.refl m)⟩
  | succ n ih =>
    obtain ⟨m', hm', hlive, hok⟩ := ih
    exact ⟨m'.step.machine, hm'.tail hlive hok, hgo (hm'.tail hlive hok)⟩

/-- The iterates up to one that exists are all states. -/
theorem countP_isState_items {u : State} (h : m.state.after n = .ok u) :
    ((List.range (n + 1)).map m.item).countP isState = n + 1 := by
  have hstate : ∀ a ∈ (List.range (n + 1)).map m.item, isState a = true := by
    intro a ha
    obtain ⟨i, hi, rfl⟩ := List.mem_map.1 ha
    obtain ⟨v, hv, -⟩ := State.exists_after_of_le (Nat.lt_succ_iff.1 (List.mem_range.1 hi)) h
    rw [item_of_after hv]
    rfl
  rw [List.countP_eq_length.2 hstate, List.length_map, List.length_range]

end Machine

/-! ### Where a trace stands -/

/-- Where a trace of the machine `m` stands after a number of requests: at its start, at a state
that `m` has advanced to and that is not the last one, or past its end. -/
inductive Trace.StandsAt (m : Machine) : Nat → Trace → Prop
  | fresh : StandsAt m 0 m.trace
  | underway {k : Nat} {m' : Machine} : m.Advances k m' → m'.state.terminal = false →
    StandsAt m (k + 1) ⟨m', .underway⟩
  | past {k : Nat} {t : Trace} : t.phase = .over → StandsAt m k t

namespace Trace.StandsAt

variable {m : Machine} {t : Trace} {k : Nat} {stop : Stop}

/-- **All that a request can do**: the trace answers like a fresh one of the machine it has got
to, or it yields no state, is over, and leaves its machine where it was. -/
theorem next_cases (h : StandsAt m k t) :
    (∃ m', m.Advances k m' ∧ t.next = m'.trace.next) ∨
      (t.next.1.phase = .over ∧ (∀ s, t.next.2 ≠ some (.ok s)) ∧
        t.machine.Reaches 0 t.next.1.machine) := by
  cases h with
  | fresh => exact .inl ⟨m, .refl m, rfl⟩
  | @underway k m' hm' hlive =>
    cases hres : m'.step.result with
    | ok u =>
      exact .inl ⟨m'.step.machine, hm'.tail hlive hres, Machine.next_underway_of_step_ok hres⟩
    | error stop =>
      rw [Machine.next_underway_of_step_error hres]
      exact .inr ⟨rfl, fun s => by simp, Machine.reaches_of_step_error hres⟩
  | past hover =>
    rw [next_of_over hover]
    exact .inr ⟨hover, fun s => by simp, .refl _⟩

/-- A request that yields a failure yields that of a step, from a state that is not the last one. -/
theorem exists_advances_of_next_eq_error (h : StandsAt m k t)
    (herr : t.next.2 = some (.error stop)) :
    ∃ n m', m.Advances n m' ∧ m'.state.terminal = false ∧ m'.step.result = .error stop := by
  cases h with
  | fresh => cases (Machine.next_trace m).1.symm.trans herr
  | @underway n m' hm' hlive =>
    cases hres : m'.step.result with
    | ok u =>
      rw [Machine.next_underway_of_step_ok hres] at herr
      cases (Machine.next_trace m'.step.machine).1.symm.trans herr
    | error stop' =>
      rw [Machine.next_underway_of_step_error hres] at herr
      obtain rfl := Except.error.inj (Option.some.inj herr)
      exact ⟨n, m', hm', hlive, hres⟩
  | past hover =>
    rw [next_of_over hover] at herr
    cases herr

/-- A request keeps the invariant. -/
theorem next (h : StandsAt m k t) : StandsAt m (k + 1) t.next.1 := by
  rcases h.next_cases with ⟨m', hm', hnext⟩ | ⟨hover, -⟩
  · rw [hnext]
    cases hterm : m'.state.terminal with
    | true =>
      rw [Machine.next_trace_of_terminal hterm]
      exact .past rfl
    | false =>
      rw [Machine.next_trace_of_live hterm]
      exact .underway hm' hterm
  · exact .past hover

/-- So do many requests. -/
theorem take (h : StandsAt m k t) (n : Nat) : StandsAt m (k + n) (t.take n).2 := by
  induction n generalizing k t with
  | zero => exact h
  | succ n ih =>
    rw [take_succ, ← Nat.succ_add_eq_add_succ]
    exact ih h.next

end Trace.StandsAt

/-- Where a trace stands after as many requests from its start. -/
theorem Trace.standsAt_take (m : Machine) (k : Nat) : StandsAt m k (m.trace.take k).2 := by
  simpa using StandsAt.fresh.take k

namespace Machine

variable {m : Machine} {k : Nat}

/-- A request that yields a state leaves the trace with the machine that has advanced to it. -/
theorem reaches_of_next_eq_ok {s : State} (h : (m.trace.take k).2.next.2 = some (.ok s)) :
    m.Reaches k (m.trace.take k).2.next.1.machine ∧
      (m.trace.take k).2.next.1.machine.state = s ∧
      (m.trace.take (k + 1)).1.countP isState = k + 1 := by
  rcases (Trace.standsAt_take m k).next_cases with ⟨m', hm', hnext⟩ | ⟨-, hnone, -⟩
  · obtain ⟨hitem, hreach⟩ := next_trace m'
    have hstate : m'.state = s := by
      rw [hnext, hitem] at h
      exact Except.ok.inj (Option.some.inj h)
    rw [hnext, take_trace_succ hm', countP_isState_items hm'.reaches.after_eq]
    refine ⟨hm'.reaches.trans hreach, ?_, rfl⟩
    exact (Except.ok.inj hreach.after_eq).symm.trans hstate
  · exact absurd h (hnone s)

/-- A request that yields no state leaves the machine of the trace where it was. -/
theorem reaches_of_next_ne_ok (h : ∀ s, (m.trace.take k).2.next.2 ≠ some (.ok s)) :
    (m.trace.take k).2.machine.Reaches 0 (m.trace.take k).2.next.1.machine := by
  rcases (Trace.standsAt_take m k).next_cases with ⟨m', -, hnext⟩ | ⟨-, -, hreach⟩
  · rw [hnext] at h
    exact absurd (next_trace m').1 (h m'.state)
  · exact hreach

/-- **A trace is exactly the run** of the same machine, step by step.

* Where the run halts after `n` steps, the trace yields the `n + 1` iterates from the present
  state to the terminal one, and nothing after that.
* Where the run stops with a failure after `n` steps, the trace yields the `n + 1` iterates up
  to the state that cannot step, none of them terminal, then the failure once, and nothing
  after that.
* Where the run goes on forever, so does the trace, with one iterate for each request.

A request that yields a state leaves the trace with a machine in that state, whose counter is
ahead by one less than the number of states yielded so far. Any other request changes neither
the state nor the counter. -/
theorem trace_follows_run (m : Machine) :
    (∀ r s, m.RunsTo r → r.result = .ok s →
      ∃ n, m.state.HaltsIn n s ∧ r.machine.steps = m.steps + UInt64.ofNat n ∧
        ∀ k, (m.trace.take (n + 1 + k)).1
          = (List.range (n + 1)).map m.item ++ List.replicate k none) ∧
    (∀ r stop, m.RunsTo r → r.result = .error stop →
      ∃ n, (∀ i ≤ n, m.state.LiveAt i) ∧ m.state.after n = .ok r.machine.state ∧
        r.machine.steps = m.steps + UInt64.ofNat n ∧
        ∀ k, (m.trace.take (n + 2 + k)).1
          = (List.range (n + 1)).map m.item ++ some (.error stop) :: List.replicate k none) ∧
    ((∀ r, ¬m.RunsTo r) →
      ∀ n, m.state.LiveAt n ∧ (m.trace.take (n + 1)).1 = (List.range (n + 1)).map m.item) ∧
    ∀ k,
      let t := (m.trace.take k).2
      (∀ s, t.next.2 = some (.ok s) →
        t.next.1.machine.state = s ∧ m.state.after k = .ok s ∧
          t.next.1.machine.steps
            = m.steps + UInt64.ofNat ((m.trace.take (k + 1)).1.countP isState - 1)) ∧
      ((∀ s, t.next.2 ≠ some (.ok s)) →
        t.next.1.machine.state = t.machine.state ∧ t.next.1.machine.steps = t.machine.steps ∧
          t.next.1.machine.settings = t.machine.settings) := by
  refine ⟨fun r s hr hres => ?halt, fun r stop hr hres => ?stop, fun hr n => ?forever,
    fun k => ⟨fun s hs => ?state, fun hnone => ?still⟩⟩
  case halt =>
    obtain ⟨n, m', hm', hend⟩ := runsTo_iff.1 hr
    cases hend with
    | halt hterm =>
      obtain rfl := Except.ok.inj hres
      have hreach := hm'.reaches.note (.halted m'.steps m'.state)
      exact ⟨n, ⟨hm'.reaches.after_eq, hterm, hm'.liveAt⟩, hreach.steps_eq,
        take_trace_of_halt hm' hterm⟩
    | stop _ _ => exact nomatch hres
  case stop =>
    obtain ⟨n, m', hm', hend⟩ := runsTo_iff.1 hr
    cases hend with
    | halt _ => exact nomatch hres
    | stop hlive herr =>
      obtain rfl := Except.error.inj hres
      have hreach := hm'.reaches.trans (reaches_of_step_error herr)
      have hlast : m.state.LiveAt n := ⟨m'.state, hm'.reaches.after_eq, hlive⟩
      exact ⟨n, fun i hi => hlast.of_le hi, hreach.after_eq, hreach.steps_eq,
        take_trace_of_stop hm' hlive herr⟩
  case forever =>
    obtain ⟨m', hm', hlive, -⟩ := exists_advances_of_not_runsTo hr n
    exact ⟨⟨m'.state, hm'.reaches.after_eq, hlive⟩, take_trace_succ hm'⟩
  case state =>
    obtain ⟨hreach, hstate, hcount⟩ := reaches_of_next_eq_ok hs
    refine ⟨hstate, hstate ▸ hreach.after_eq, ?_⟩
    rw [hcount, Nat.add_sub_cancel]
    exact hreach.steps_eq
  case still =>
    have hreach := reaches_of_next_ne_ok hnone
    refine ⟨(Except.ok.inj hreach.after_eq).symm, ?_, hreach.settings_eq⟩
    rw [hreach.steps_eq]
    exact UInt64.add_zero _

end Machine

end WhileLang
