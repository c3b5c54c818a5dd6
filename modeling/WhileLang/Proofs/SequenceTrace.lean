import WhileLang.Proofs.Resumption
import WhileLang.Proofs.Simulation

/-!
# Traces of sequences

A sequence shows its first part and then its second one. As long as the first part goes on, the
trace of the sequence yields what the trace of that part yields, with the second part put behind
every state (`State.before`). If the first part is finished, the whole trace of the second part
follows from the environment that the first one has left behind, and else nothing follows: a
failure stays the same failure, and a first part that never ends is never left
(`Stmt.trace_seq`).

Traces are compared answer by answer. `s.shows recording i` is what the trace from `s` without a
limit yields to its `i`-th request. What it yields is said step by step (`State.shows_succ_of_step_ok`
and its companions) and through the ends of a run (`State.HaltsIn.shows`, `State.FailsIn.shows`).
-/

namespace WhileLang

/-! ### The answers of a trace -/

namespace Trace

/-- What a trace yields to a request, the requests being counted from zero. -/
def answer (t : Trace) (i : Nat) : Option (Except Stop State) :=
  (t.take i).2.next.2

/-- The later answers of a trace are those of what it has become by the first request. -/
theorem answer_succ (t : Trace) (i : Nat) : t.answer (i + 1) = t.next.1.answer i := by
  rw [answer, take_succ, answer]

/-- To ask for a number of states is to ask for one after the other. -/
theorem take_eq_map_answer (t : Trace) (n : Nat) :
    (t.take n).1 = (List.range n).map t.answer := by
  induction n generalizing t with
  | zero => rfl
  | succ n ih =>
    have hlater : (List.range n).map (t.answer ∘ Nat.succ) = (List.range n).map t.next.1.answer :=
      List.map_congr_left fun i _ => answer_succ t i
    rw [take_succ, ih, List.range_succ_eq_map, List.map_cons, List.map_map, hlater]
    rfl

/-- Traces whose answers differ by a function yield lists that do. -/
theorem take_eq_map_of_answer {t t' : Trace} {n : Nat}
    {f : Option (Except Stop State) → Option (Except Stop State)}
    (h : ∀ i < n, t.answer i = f (t'.answer i)) : (t.take n).1 = (t'.take n).1.map f := by
  rw [take_eq_map_answer, take_eq_map_answer, List.map_map]
  exact List.map_congr_left fun i hi => h i (List.mem_range.1 hi)

/-- A trace whose later answers are those of another one yields the other one's list from there
on. -/
theorem take_add_of_answer {t t' : Trace} {n : Nat} (h : ∀ i, t.answer (n + i) = t'.answer i)
    (k : Nat) : (t.take (n + k)).1 = (t.take n).1 ++ (t'.take k).1 := by
  rw [take_eq_map_answer, take_eq_map_answer, take_eq_map_answer, List.range_add, List.map_append,
    List.map_map]
  exact congrArg _ (List.map_congr_left fun i _ => h i)

/-- A trace that is over has no answers. -/
theorem answer_of_over {t : Trace} (h : t.phase = .over) (i : Nat) : t.answer i = none := by
  rw [answer, take_of_over h, next_of_over h]

/-- Traces that do the same at the next request have the same answers. -/
theorem answer_congr {t t' : Trace} (h : t.next = t'.next) (i : Nat) : t.answer i = t'.answer i := by
  cases i with
  | zero => rw [answer, answer, take_zero, take_zero, h]
  | succ i => rw [answer_succ, answer_succ, h]

/-- Traces abreast of each other have the same answers. -/
theorem Abreast.answer {t t' : Trace} (h : t.Abreast t') (i : Nat) : t.answer i = t'.answer i := by
  induction i generalizing t t' with
  | zero => exact h.next.1
  | succ i ih => rw [answer_succ, answer_succ, ih h.next.2]

end Trace

/-! ### Traces without a limit -/

namespace State

variable {recording : Bool} {s t : State} {f : Fault} {n i : Nat}

/-- What a trace without a limit yields from a state on, answer by answer. -/
def shows (recording : Bool) (s : State) : Nat → Option (Except Stop State) :=
  (Machine.start ⟨none, recording⟩ s).trace.answer

/-- A trace yields its start first. -/
theorem shows_zero : s.shows recording 0 = some (.ok s) :=
  (Machine.next_trace _).1

/-- A trace that has come to a terminal state yields nothing more. -/
theorem shows_succ_of_terminal (h : s.terminal = true) : s.shows recording (i + 1) = none := by
  rw [shows, Trace.answer_succ, Machine.next_trace_of_terminal h]
  exact Trace.answer_of_over rfl i

/-- After its first answer a trace **goes on like one from the next state**. -/
theorem shows_succ_of_step_ok (hlive : s.terminal = false) (hs : s.step = .ok t) :
    s.shows recording (i + 1) = t.shows recording i := by
  have hone : (Machine.start ⟨none, recording⟩ s).Affords 1 := Machine.affords_of_limit_eq_none rfl
  have hok := Machine.step_result_eq_ok_iff.2 ⟨hone, t, hs⟩
  have hstate := hs.symm.trans (Machine.step_of_result_eq_ok hok).1
  have habreast : (Machine.start ⟨none, recording⟩ s).step.machine.trace.Abreast
      (Machine.start ⟨none, recording⟩ t).trace :=
    ⟨rfl, (Except.ok.inj hstate).symm, congrArg Settings.limit (Machine.settings_step _), rfl⟩
  rw [shows, Trace.answer_succ, Machine.next_trace_of_live hlive,
    Trace.answer_congr (Machine.next_underway_of_step_ok hok), habreast.answer]
  rfl

/-- A trace yields the failure of a step once, and nothing more. -/
theorem shows_succ_of_step_error (hs : s.step = .error f) :
    s.shows recording (i + 1) = if i = 0 then some (.error (.fault f)) else none := by
  have hone : (Machine.start ⟨none, recording⟩ s).Affords 1 := Machine.affords_of_limit_eq_none rfl
  have herr := Machine.next_underway_of_step_error (Machine.step_result_eq_fault_iff.2 ⟨hone, hs⟩)
  rw [shows, Trace.answer_succ, Machine.next_trace_of_live (terminal_eq_false_of_step hs)]
  cases i with
  | zero => exact congrArg Prod.snd herr
  | succ i =>
    rw [Trace.answer_succ, herr, if_neg i.succ_ne_zero]
    exact Trace.answer_of_over rfl i

/-- As far as its states are live, a trace yields the iterates and goes on like one from there. -/
theorem shows_add (h : s.after n = .ok t) (hlive : ∀ i < n, s.LiveAt i) :
    s.shows recording (n + i) = t.shows recording i := by
  induction n generalizing s with
  | zero =>
    obtain rfl : s = t := Except.ok.inj h
    rw [Nat.zero_add]
  | succ n ih =>
    obtain ⟨u, hu, hut⟩ := after_succ_eq_ok_iff.1 h
    have hlater : ∀ i < n, u.LiveAt i := fun i hi =>
      (liveAt_succ_of_ok hu).1 (hlive (i + 1) (Nat.succ_lt_succ hi))
    rw [Nat.succ_add, shows_succ_of_step_ok (liveAt_zero_iff.1 (hlive 0 n.succ_pos)) hu,
      ih hut hlater]

/-- A trace yields the states that are live. -/
theorem LiveAt.shows (h : s.LiveAt n) (recording : Bool) :
    ∃ u, s.shows recording n = some (.ok u) ∧ u.terminal = false := by
  obtain ⟨u, hu, hlive⟩ := id h
  have hitem : s.shows recording (n + 0) = u.shows recording 0 :=
    shows_add hu fun i hi => h.of_le (Nat.le_of_lt hi)
  exact ⟨u, hitem.trans shows_zero, hlive⟩

/-- A trace yields the terminal state, and nothing more. -/
theorem HaltsIn.shows (h : s.HaltsIn n t) :
    s.shows recording n = some (.ok t) ∧ ∀ i, s.shows recording (n + 1 + i) = none := by
  have hgo : ∀ i, s.shows recording (n + i) = t.shows recording i :=
    fun i => shows_add h.after_eq h.liveAt
  refine ⟨(hgo 0).trans shows_zero, fun i => ?_⟩
  rw [Nat.add_assoc, Nat.add_comm 1, hgo, shows_succ_of_terminal h.terminal]

/-- A trace yields the state whose step fails, the failure, and nothing more. -/
theorem FailsIn.shows (h : s.FailsIn n t f) :
    s.shows recording (n + 1) = some (.error (.fault f)) ∧
      ∀ i, s.shows recording (n + 2 + i) = none := by
  have hgo : ∀ i, s.shows recording (n + i) = t.shows recording i :=
    fun i => shows_add h.after_eq fun k hk => h.liveAt (Nat.le_of_lt hk)
  refine ⟨?_, fun i => ?_⟩
  · rw [hgo, shows_succ_of_step_error h.step_eq, if_pos rfl]
  · rw [Nat.add_assoc, Nat.add_comm 2, hgo, shows_succ_of_step_error h.step_eq,
      if_neg i.succ_ne_zero]

/-- A trace yields a terminal state only where the run halts. -/
theorem haltsIn_of_shows (h : s.shows recording n = some (.ok t)) (ht : t.terminal = true) :
    s.HaltsIn n t := by
  rcases s.halts_or_fails_or_liveAt n with ⟨k, u, hk, hu⟩ | ⟨k, u, f, hk, hf⟩ | hlive
  · rcases Nat.eq_or_lt_of_le hk with rfl | hlt
    · obtain rfl := Except.ok.inj (Option.some.inj (hu.shows.1.symm.trans h))
      exact hu
    · obtain ⟨d, rfl⟩ := Nat.exists_eq_add_of_le hlt
      cases (hu.shows.2 d).symm.trans h
  · rcases Nat.eq_or_lt_of_le hk with rfl | hlt
    · cases hf.shows.1.symm.trans h
    · obtain ⟨d, rfl⟩ := Nat.exists_eq_add_of_le hlt
      cases (hf.shows.2 d).symm.trans h
  · obtain ⟨u, hu, hulive⟩ := hlive.shows recording
    obtain rfl := Except.ok.inj (Option.some.inj (hu.symm.trans h))
    cases hulive.symm.trans ht

/-- A trace that yields a failure, or a state to every request, is one of a run that never halts. -/
theorem not_haltsIn_of_shows
    (h : (∃ n stop, s.shows recording n = some (.error stop)) ∨
      ∀ n, ∃ u, s.shows recording n = some (.ok u)) : ¬s.HaltsIn i t := by
  intro hhalt
  rcases h with ⟨n, stop, hn⟩ | hall
  · rcases Nat.lt_trichotomy n i with hlt | rfl | hgt
    · obtain ⟨u, hu, -⟩ := (hhalt.liveAt n hlt).shows recording
      cases hu.symm.trans hn
    · cases hhalt.shows.1.symm.trans hn
    · obtain ⟨d, rfl⟩ := Nat.exists_eq_add_of_le hgt
      cases (hhalt.shows.2 d).symm.trans hn
  · obtain ⟨u, hu⟩ := hall (i + 1 + 0)
    cases (hhalt.shows.2 0).symm.trans hu

/-- A run halts, fails, or goes on forever. -/
theorem halts_or_fails_or_lives (s : State) :
    (∃ n t, s.HaltsIn n t) ∨ (∃ n t f, s.FailsIn n t f) ∨ ∀ n, s.LiveAt n := by
  by_cases hhalt : ∃ n t, s.HaltsIn n t
  · exact .inl hhalt
  · by_cases hfail : ∃ n t f, s.FailsIn n t f
    · exact .inr (.inl hfail)
    · refine .inr (.inr fun n => ?_)
      rcases s.halts_or_fails_or_liveAt n with ⟨k, t, -, ht⟩ | ⟨k, t, f, -, hf⟩ | hlive
      · exact absurd ⟨k, t, ht⟩ hhalt
      · exact absurd ⟨k, t, f, hf⟩ hfail
      · exact hlive

/-- A run that is not over yet is not so one step later, with one step less to go. -/
theorem not_haltsIn_before_succ (h : ∀ i < n + 1, ∀ t, ¬s.HaltsIn i t) :
    s.terminal = false ∧ ∀ u, s.step = .ok u → ∀ i < n, ∀ t, ¬u.HaltsIn i t := by
  have hlive : s.terminal = false :=
    Bool.eq_false_iff.2 fun hterm => h 0 n.succ_pos s (haltsIn_zero_iff.2 ⟨rfl, hterm⟩)
  exact ⟨hlive, fun u hu i hi t ht =>
    h (i + 1) (Nat.succ_lt_succ hi) t (haltsIn_succ_iff.2 ⟨hlive, u, hu, ht⟩)⟩

/-! ### Sequences -/

variable {first second : Stmt} {env env' : Environment}

/-- The second part of a sequence, put behind the statement of a state. -/
def before (second : Stmt) : State → State
  | ⟨.stmt first, env⟩ => ⟨.stmt (.seq first second), env⟩
  | ⟨.expr e, env⟩ => ⟨.expr e, env⟩

/-- A sequence whose first part is not finished **steps as that part does**. -/
theorem step_before (h : terminal ⟨.stmt first, env⟩ = false) (second : Stmt) :
    step ⟨.stmt (.seq first second), env⟩ = (step ⟨.stmt first, env⟩).map (before second) := by
  rw [step, step, Term.reduce, Term.reduce, Stmt.reduce_seq_first (terminal_eq_false_iff.1 h)]
  cases first.reduce env <;> rfl

theorem step_seq_of_step_ok {first' : Stmt} (h : terminal ⟨.stmt first, env⟩ = false)
    (hs : step ⟨.stmt first, env⟩ = .ok ⟨.stmt first', env'⟩) (second : Stmt) :
    step ⟨.stmt (.seq first second), env⟩ = .ok ⟨.stmt (.seq first' second), env'⟩ := by
  rw [step_before h, hs]
  rfl

/-- A sequence is not finished with its first part. -/
theorem terminal_seq : terminal ⟨.stmt (.seq first second), env⟩ = false := rfl

/-- Until its first part is finished, a sequence shows **what that part shows**. -/
theorem shows_seq_of_not_haltsIn (h : ∀ i < n, ∀ t, ¬HaltsIn ⟨.stmt first, env⟩ i t) :
    shows recording ⟨.stmt (.seq first second), env⟩ n
      = (shows recording ⟨.stmt first, env⟩ n).map (Except.map (before second)) := by
  induction n generalizing first env with
  | zero =>
    rw [shows_zero, shows_zero]
    rfl
  | succ n ih =>
    obtain ⟨hlive, hlater⟩ := not_haltsIn_before_succ h
    cases hs : step ⟨.stmt first, env⟩ with
    | error f =>
      have hstep : step ⟨.stmt (.seq first second), env⟩ = .error f := by
        rw [step_before hlive, hs]
        rfl
      rw [shows_succ_of_step_error hs, shows_succ_of_step_error hstep]
      split <;> rfl
    | ok t =>
      obtain ⟨first', env₁, -, rfl⟩ := exists_reduce_of_step_stmt hs
      rw [shows_succ_of_step_ok hlive hs,
        shows_succ_of_step_ok terminal_seq (step_seq_of_step_ok hlive hs second)]
      exact ih (hlater _ hs)

/-- When its first part is finished, a sequence **becomes its second part**. -/
theorem HaltsIn.after_seq (h : HaltsIn ⟨.stmt first, env⟩ n ⟨.stmt .doNothing, env'⟩)
    (second : Stmt) :
    after (n + 1) ⟨.stmt (.seq first second), env⟩ = .ok ⟨.stmt second, env'⟩ ∧
      ∀ i < n + 1, LiveAt ⟨.stmt (.seq first second), env⟩ i := by
  induction n generalizing first env with
  | zero =>
    obtain ⟨heq, -⟩ := haltsIn_zero_iff.1 h
    cases heq
    refine ⟨rfl, fun i hi => ?_⟩
    obtain rfl : i = 0 := Nat.lt_one_iff.1 hi
    exact liveAt_zero_iff.2 terminal_seq
  | succ n ih =>
    obtain ⟨hlive, t, hs, ht⟩ := haltsIn_succ_iff.1 h
    obtain ⟨first', env₁, -, rfl⟩ := exists_reduce_of_step_stmt hs
    have hstep := step_seq_of_step_ok hlive hs second
    obtain ⟨hnext, hrest⟩ := ih ht
    refine ⟨(after_succ_of_ok hstep _).trans hnext, fun i hi => ?_⟩
    cases i with
    | zero => exact liveAt_zero_iff.2 terminal_seq
    | succ i => exact (liveAt_succ_of_ok hstep).2 (hrest i (Nat.lt_of_succ_lt_succ hi))

/-- When its first part is finished, a sequence shows **what its second part shows**. -/
theorem shows_seq_of_haltsIn (h : HaltsIn ⟨.stmt first, env⟩ n ⟨.stmt .doNothing, env'⟩) :
    shows recording ⟨.stmt (.seq first second), env⟩ (n + 1 + i)
      = shows recording ⟨.stmt second, env'⟩ i := by
  obtain ⟨hnext, hlive⟩ := h.after_seq second
  exact shows_add hnext hlive

end State

/-- **The trace of a sequence**, without a limit, is put together from the traces of its parts.

* If the first part ends, finished, in some environment, the trace of the sequence is the trace of
  the first part up to there, with the second part put behind every state, and after it the whole
  trace of the second part from that environment.
* If the trace of the first part ends in a failure, or yields a state to every request and so never
  ends, the trace of the sequence is that trace with the second part put behind every state. The
  failure is the same, and no state is one of the second part.
* The trace of the first part ends in one of these three ways. -/
theorem Stmt.trace_seq (recording : Bool) (first second : Stmt) (env : Environment) :
    let trace (s : Stmt) (e : Environment) : Trace :=
      (Machine.start ⟨none, recording⟩ ⟨.stmt s, e⟩).trace
    let wrapped (items : List (Option (Except Stop State))) : List (Option (Except Stop State)) :=
      items.map (Option.map (Except.map (State.before second)))
    (∀ n env', (trace first env).answer n = some (.ok ⟨.stmt .doNothing, env'⟩) →
      ∀ k, ((trace (.seq first second) env).take (n + 1 + k)).1
        = wrapped ((trace first env).take (n + 1)).1 ++ ((trace second env').take k).1) ∧
    ((∃ n stop, (trace first env).answer n = some (.error stop)) ∨
        (∀ n, ∃ u, (trace first env).answer n = some (.ok u)) →
      ∀ k, ((trace (.seq first second) env).take k).1 = wrapped ((trace first env).take k).1) ∧
    ((∃ n env', (trace first env).answer n = some (.ok ⟨.stmt .doNothing, env'⟩)) ∨
      (∃ n stop, (trace first env).answer n = some (.error stop)) ∨
      ∀ n, ∃ u, (trace first env).answer n = some (.ok u)) := by
  intro trace wrapped
  refine ⟨fun n env' hn k => ?finished, fun hgo k => ?unfinished, ?ends⟩
  case finished =>
    have hhalt : State.HaltsIn ⟨.stmt first, env⟩ n ⟨.stmt .doNothing, env'⟩ :=
      State.haltsIn_of_shows hn rfl
    have hbefore : ((trace (.seq first second) env).take (n + 1)).1
        = wrapped ((trace first env).take (n + 1)).1 :=
      Trace.take_eq_map_of_answer fun i hi => State.shows_seq_of_not_haltsIn fun j hj t ht =>
        absurd (ht.unique hhalt).1 (by omega)
    rw [← hbefore]
    exact Trace.take_add_of_answer (fun i => State.shows_seq_of_haltsIn hhalt) k
  case unfinished =>
    exact Trace.take_eq_map_of_answer fun i _ => State.shows_seq_of_not_haltsIn fun j _ t =>
      State.not_haltsIn_of_shows hgo
  case ends =>
    rcases State.halts_or_fails_or_lives ⟨.stmt first, env⟩ with
      ⟨n, t, ht⟩ | ⟨n, t, f, hf⟩ | hlive
    · obtain ⟨env', rfl⟩ := State.exists_eq_of_haltsIn ht
      exact .inl ⟨n, env', ht.shows.1⟩
    · exact .inr (.inl ⟨n + 1, .fault f, hf.shows.1⟩)
    · refine .inr (.inr fun n => ?_)
      obtain ⟨u, hu, -⟩ := (hlive n).shows recording
      exact ⟨u, hu⟩

/-- A first part that is finished from the start is shown, and left, once. -/
example :
    ((Machine.start {} ⟨.stmt (.seq .doNothing .doNothing), .empty⟩).trace.take 3).1
      = [some (.ok ⟨.stmt (.seq .doNothing .doNothing), .empty⟩),
        some (.ok ⟨.stmt .doNothing, .empty⟩), none] := rfl

end WhileLang
