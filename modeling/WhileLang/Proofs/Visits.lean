import WhileLang.Proofs.LoopFree
import WhileLang.Proofs.Rounds
import WhileLang.Proofs.SequenceTrace
import WhileLang.Proofs.StackCode

/-!
# How often a run comes by a statement

A run writes a loop out again and again, so its rounds can be counted by the states that it goes
through. `s.visits p n` is the number of those among the first `n` states from `s` that have the
statement `p` for their term. `s.Passes p n k t` says that `n` steps lead from `s` to `t` and come
by `p` in `k` states.

The one statement that a loop is when its body is to be executed is the body with the loop behind
it. If there is no loop in the body, the run comes by this statement **once in each round**
(`State.exists_passes_rounds`): the steps of the body lower its bound, so that it is not the same
statement again before the round is over.
-/

namespace WhileLang.State

variable {p q rest body : Stmt} {condition : Expr} {s t u : State} {env env' : Environment}
  {k j m n : Nat}

/-- The number of states with the term `p` among the first `n` ones. -/
def visits (p : Stmt) : Nat → State → Nat
  | 0, _ => 0
  | n + 1, s =>
    (if s.term = .stmt p then 1 else 0) +
      match s.step with
      | .ok t => visits p n t
      | .error _ => 0

theorem visits_succ_of_ok (h : s.step = .ok t) (n : Nat) :
    s.visits p (n + 1) = (if s.term = .stmt p then 1 else 0) + t.visits p n := by
  rw [visits, h]

/-- The states before and after one on the way are counted separately. -/
theorem visits_add (h : s.after m = .ok t) (n : Nat) :
    s.visits p (m + n) = s.visits p m + t.visits p n := by
  induction m generalizing s with
  | zero =>
    obtain rfl : s = t := Except.ok.inj h
    rw [Nat.zero_add, visits, Nat.zero_add]
  | succ m ih =>
    obtain ⟨u, hu, hut⟩ := after_succ_eq_ok_iff.1 h
    rw [Nat.succ_add, visits_succ_of_ok hu, visits_succ_of_ok hu, ih hut, Nat.add_assoc]

/-- A run that is over comes by nothing that has a step to take. -/
theorem visits_of_terminal (hs : s.terminal = true) (hp : p.reducible = true) (n : Nat) :
    s.visits p n = 0 := by
  have hne : s.term ≠ .stmt p := by
    intro heq
    have hlive := terminal_eq_true_iff.1 hs
    rw [heq, Term.reducible, hp] at hlive
    cases hlive
  induction n with
  | zero => rfl
  | succ n ih => rw [visits_succ_of_ok (step_of_terminal hs), if_neg hne, ih]

/-- `n` steps lead from `s` to `t`, and `k` of the states on the way, `s` included and `t` not, have
the term `p`. -/
structure Passes (p : Stmt) (s : State) (n k : Nat) (t : State) : Prop where
  after_eq : s.after n = .ok t
  visits_eq : s.visits p n = k

theorem Passes.refl (p : Stmt) (s : State) : s.Passes p 0 0 s :=
  ⟨rfl, rfl⟩

theorem Passes.trans (h : s.Passes p m j t) (h' : t.Passes p n k u) :
    s.Passes p (m + n) (j + k) u where
  after_eq := by rw [after_add h.after_eq, h'.after_eq]
  visits_eq := by rw [visits_add h.after_eq, h.visits_eq, h'.visits_eq]

/-- A step from another term. -/
theorem passes_of_step_ne (hne : s.term ≠ .stmt p) (h : s.step = .ok t) : s.Passes p 1 0 t where
  after_eq := after_succ_of_ok h 0
  visits_eq := by rw [visits_succ_of_ok h, if_neg hne]; rfl

/-- A step from the term itself. -/
theorem passes_of_step_eq (heq : s.term = .stmt p) (h : s.step = .ok t) : s.Passes p 1 1 t where
  after_eq := after_succ_of_ok h 0
  visits_eq := by rw [visits_succ_of_ok h, if_pos heq]; rfl

/-- A run that has led to a terminal state has come by all that the whole run comes by. -/
theorem Passes.visits_of_haltsIn (h : s.Passes p m k t) (ht : t.terminal = true)
    (hp : p.reducible = true) (hu : s.HaltsIn n u) : s.visits p n = k := by
  have hle : n ≤ m := by
    refine Nat.le_of_not_lt fun hlt => ?_
    obtain ⟨v, hv, hlive⟩ := hu.liveAt m hlt
    obtain rfl := Except.ok.inj (hv.symm.trans h.after_eq)
    cases hlive.symm.trans ht
  obtain ⟨d, rfl⟩ := Nat.exists_eq_add_of_le hle
  have hsplit := visits_add (p := p) hu.after_eq d
  rw [visits_of_terminal hu.terminal hp, h.visits_eq] at hsplit
  exact hsplit.symm

/-! ### One round -/

/-- A branching comes by no sequence before it has become one of its branches. -/
theorem exists_passes_branch {truth : Bool} {first second consequence alternative : Stmt}
    (h : condition.holds env = .ok truth) :
    ∃ n, Passes (.seq first second) ⟨.stmt (.branch condition consequence alternative), env⟩ n 0
      ⟨.stmt (if truth then consequence else alternative), env⟩ := by
  obtain ⟨n, hhalt⟩ :
      ∃ n, HaltsIn ⟨.expr condition, env⟩ n ⟨.expr (.literal (.bool truth)), env⟩ :=
    ⟨_, haltsIn_expr (Expr.holds_eq_ok_iff.1 h)⟩
  clear h
  induction n generalizing condition with
  | zero =>
    obtain ⟨heq, -⟩ := haltsIn_zero_iff.1 hhalt
    cases heq
    refine ⟨1, passes_of_step_ne (by simp) ?_⟩
    rw [step, Term.reduce, Stmt.reduce_branch_literal]
    rfl
  | succ n ih =>
    obtain ⟨hlive, u, hu, hrest⟩ := haltsIn_succ_iff.1 hhalt
    obtain ⟨condition', hred, rfl⟩ := exists_reduce_of_step_expr hu
    obtain ⟨m, hm⟩ := ih hrest
    have hstep : step ⟨.stmt (.branch condition consequence alternative), env⟩
        = .ok ⟨.stmt (.branch condition' consequence alternative), env⟩ := by
      rw [step, Term.reduce, Stmt.reduce_branch_condition (terminal_eq_false_iff.1 hlive), hred]
      rfl
    exact ⟨1 + m, (passes_of_step_ne (by simp) hstep).trans hm⟩

/-- A sequence with a smaller first part does not come by the one with `body`. -/
theorem passes_seq_of_bound_lt (hq : q.LoopFree) (hlt : q.bound < body.bound)
    (h : HaltsIn ⟨.stmt q, env⟩ n ⟨.stmt .doNothing, env'⟩) :
    Passes (.seq body rest) ⟨.stmt (.seq q rest), env⟩ (n + 1) 0 ⟨.stmt rest, env'⟩ := by
  -- the bounds tell the two first parts apart
  have hne : ∀ (q : Stmt) (e : Environment), q.bound < body.bound →
      (⟨.stmt (.seq q rest), e⟩ : State).term ≠ .stmt (.seq body rest) := by
    intro q e hlt heq
    obtain ⟨rfl, -⟩ := Stmt.seq.inj (Term.stmt.inj heq)
    exact Nat.lt_irrefl _ hlt
  induction n generalizing q env with
  | zero =>
    obtain ⟨heq, -⟩ := haltsIn_zero_iff.1 h
    cases heq
    exact passes_of_step_ne (hne _ _ hlt) rfl
  | succ n ih =>
    obtain ⟨hlive, u, hu, hrest⟩ := haltsIn_succ_iff.1 h
    obtain ⟨q', env₁, hred, rfl⟩ := exists_reduce_of_step_stmt hu
    obtain ⟨hfree, hbound⟩ :=
      hq.of_step (Stmt.step_of_reduce (terminal_eq_false_iff.1 hlive) hred)
    have hstep := step_seq_of_step_ok hlive hu rest
    rw [Nat.add_comm]
    exact (passes_of_step_ne (hne _ _ hlt) hstep).trans (ih hfree (Nat.lt_trans hbound hlt) hrest)

/-- A sequence whose first part has no loops comes by itself **once**, at its start. -/
theorem exists_passes_seq (hbody : body.LoopFree)
    (h : HaltsIn ⟨.stmt body, env⟩ n ⟨.stmt .doNothing, env'⟩) :
    ∃ m, Passes (.seq body rest) ⟨.stmt (.seq body rest), env⟩ m 1 ⟨.stmt rest, env'⟩ := by
  cases n with
  | zero =>
    obtain ⟨heq, -⟩ := haltsIn_zero_iff.1 h
    cases heq
    exact ⟨1, passes_of_step_eq rfl rfl⟩
  | succ n =>
    obtain ⟨hlive, u, hu, hrest⟩ := haltsIn_succ_iff.1 h
    obtain ⟨q, env₁, hred, rfl⟩ := exists_reduce_of_step_stmt hu
    obtain ⟨hfree, hbound⟩ :=
      hbody.of_step (Stmt.step_of_reduce (terminal_eq_false_iff.1 hlive) hred)
    have hstep := step_seq_of_step_ok hlive hu rest
    exact ⟨_, (passes_of_step_eq rfl hstep).trans (passes_seq_of_bound_lt hfree hbound hrest)⟩

/-- Where its condition is tested, a loop becomes the one branch of its writing-out or the other. -/
theorem exists_passes_test {truth : Bool} {first second : Stmt}
    (h : condition.holds env = .ok truth) :
    ∃ n, Passes (.seq first second) ⟨.stmt (.loop condition body), env⟩ n 0
      ⟨.stmt (if truth then .seq body (.loop condition body) else .doNothing), env⟩ := by
  obtain ⟨n, hn⟩ := exists_passes_branch h
  exact ⟨_, (passes_of_step_ne (by simp) rfl).trans hn⟩

/-! ### All rounds -/

/-- A run of a loop comes by the start of its body **once in each round**, if there is no loop in
the body. -/
theorem exists_passes_rounds {e : Nat → Environment} (hbody : body.LoopFree)
    (h : Stmt.Rounds condition body n e) :
    ∃ m, Passes (.seq body (.loop condition body)) ⟨.stmt (.loop condition body), e 0⟩ m n
      ⟨.stmt (.loop condition body), e n⟩ := by
  induction n generalizing e with
  | zero => exact ⟨0, .refl _ _⟩
  | succ n ih =>
    obtain ⟨htrue, hround, hrest⟩ := Stmt.rounds_succ_iff.1 h
    obtain ⟨j, hj⟩ := exists_passes_test htrue
    obtain ⟨k, hk⟩ := yields_ok_iff_exists_haltsIn.1 hround
    obtain ⟨l, hl⟩ := exists_passes_seq hbody hk
    obtain ⟨m, hm⟩ := ih hrest
    have hall := (hj.trans hl).trans hm
    rw [Nat.zero_add, Nat.add_comm 1] at hall
    exact ⟨_, hall⟩

/-- So does the whole run, of which the last test is no round. -/
theorem exists_passes_loop {e : Nat → Environment} (hbody : body.LoopFree)
    (h : Stmt.Rounds condition body n e) (hlast : condition.holds (e n) = .ok false) :
    ∃ m, Passes (.seq body (.loop condition body)) ⟨.stmt (.loop condition body), e 0⟩ m n
      ⟨.stmt .doNothing, e n⟩ := by
  obtain ⟨m, hm⟩ := exists_passes_rounds hbody h
  obtain ⟨l, hl⟩ := exists_passes_test hlast
  exact ⟨_, hm.trans hl⟩

end WhileLang.State
