import WhileLang.Proofs.Frame
import WhileLang.Proofs.Kinding
import WhileLang.Proofs.Visits

/-!
# Counted loops

A **counted loop** binds a name to zero and goes round as long as it is below a number; each round
ends with one added to it. It goes round as often as the number says, and not at all if the number
is negative, under three conditions on its body: there are no loops in it, it does not assign the
name, and it is well-kinded with numbers for all variables (`CountedLoop`).

The first condition lets the body come to an end, the second one leaves the counter alone, and the
third one keeps the body from failing in any round, as the environment goes on binding its variables
to numbers. Whatever the number is, the counter does not wrap around: it is below that number
whenever one is added (`CountedLoop.Counts`, what every round starts from).
-/

/-- A number that is below another one does not wrap around when one is added. -/
theorem Int64.toInt_add_one {c k : Int64} (h : c.toInt < k.toInt) :
    (c + 1).toInt = c.toInt + 1 := by
  have hlow := Int64.le_toInt c
  have hhigh := Int64.toInt_lt k
  have hone : (1 : Int64).toInt = 1 := rfl
  rw [Int64.toInt_add, hone]
  exact Int.bmod_eq_of_le (by omega) (by omega)

namespace WhileLang

/-- All variables are to be numbers. -/
def allNumbers : String → Kind :=
  fun _ => .number

/-- A well-kinded statement without loops **succeeds**, in an environment that fits the names that it
reads. Whatever names that environment fits, the next one fits too. -/
theorem Stmt.WellKinded.exists_yields {K : String → Kind} {s : Stmt} {env : Environment}
    (hs : s.WellKinded K) (hfree : s.LoopFree) (henv : env.Fits K s.reads) :
    ∃ env', s.Yields env (.ok env') ∧ ∀ xs, env.Fits K xs → env'.Fits K xs := by
  induction s generalizing env with
  | doNothing => exact ⟨env, ⟨0, rfl⟩, fun _ => id⟩
  | assign name expr =>
    obtain ⟨v, hv, hkind⟩ := Expr.HasKind.exists_evaluate (e := expr) hs henv
    refine ⟨env.bind name v, yields_assign_iff.2 ?_, fun xs hxs => hxs.bind hkind⟩
    rw [hv]
    rfl
  | branch condition consequence alternative ihc iha =>
    obtain ⟨hcond, hcons, halt⟩ := hs
    obtain ⟨v, hv, hkind⟩ := hcond.exists_evaluate (henv.mono (List.subset_append_left _ _))
    obtain ⟨truth, rfl⟩ := Value.kind_eq_bool_iff.1 hkind
    have hparts := henv.mono (List.subset_append_right _ _)
    obtain ⟨env', hbranch, hfits⟩ : ∃ env',
        (if truth then consequence else alternative).Yields env (.ok env') ∧
          ∀ xs, env.Fits K xs → env'.Fits K xs := by
      cases truth with
      | true => exact ihc hcons hfree.1 (hparts.mono (List.subset_append_left _ _))
      | false => exact iha halt hfree.2 (hparts.mono (List.subset_append_right _ _))
    exact ⟨env', yields_branch_iff.2 (.inl ⟨truth, Expr.holds_eq_ok_iff.2 hv, hbranch⟩), hfits⟩
  | seq first second ih₁ ih₂ =>
    obtain ⟨env₁, hfirst, hfits₁⟩ :=
      ih₁ hs.1 hfree.1 (henv.mono (List.subset_append_left _ _))
    obtain ⟨env₂, hsecond, hfits₂⟩ :=
      ih₂ hs.2 hfree.2 (hfits₁ _ (henv.mono (List.subset_append_right _ _)))
    exact ⟨env₂, yields_seq_iff.2 (.inl ⟨env₁, hfirst, hsecond⟩), fun xs hxs =>
      hfits₂ xs (hfits₁ xs hxs)⟩
  | loop condition body => exact hfree.elim

/-- A loop that counts a name up from zero to a bound, with a body that lets it. -/
structure CountedLoop where
  /-- The counter. -/
  name : String
  bound : Int64
  body : Stmt
  loopFree : body.LoopFree
  wellKinded : body.WellKinded allNumbers
  name_notMem : name ∉ body.targets

namespace CountedLoop

variable {l : CountedLoop} {env e : Environment} {c : Int64} {j d : Nat}

/-- Whether the counter is below the bound. -/
def condition (l : CountedLoop) : Expr :=
  .binary .lessThan (.var l.name) (.literal (.number l.bound))

/-- The body, and then one more for the counter. -/
def round (l : CountedLoop) : Stmt :=
  .seq l.body (.assign l.name (.binary .add (.var l.name) (.literal (.number 1))))

/-- Rounds, as long as the counter is below the bound. -/
def loop (l : CountedLoop) : Stmt :=
  .loop l.condition l.round

/-- The counter set to zero, and then the loop. -/
def program (l : CountedLoop) : Stmt :=
  .seq (.assign l.name (.literal (.number 0))) l.loop

/-- The number of rounds: the bound, or none if it is negative. -/
def rounds (l : CountedLoop) : Nat :=
  l.bound.toInt.toNat

theorem loopFree_round (l : CountedLoop) : l.round.LoopFree :=
  ⟨l.loopFree, trivial⟩

/-- Two steps bind the counter and lead to the loop. -/
theorem passes_start (l : CountedLoop) (env : Environment) :
    State.Passes (.seq l.round l.loop) ⟨.stmt l.program, env⟩ 2 0
      ⟨.stmt l.loop, env.bind l.name (.number 0)⟩ := by
  have hassign : State.Passes (.seq l.round l.loop) ⟨.stmt l.program, env⟩ 1 0
      ⟨.stmt (.seq .doNothing l.loop), env.bind l.name (.number 0)⟩ :=
    State.passes_of_step_ne (by simp [program, round]) rfl
  have hdone : State.Passes (.seq l.round l.loop)
      ⟨.stmt (.seq .doNothing l.loop), env.bind l.name (.number 0)⟩ 1 0
      ⟨.stmt l.loop, env.bind l.name (.number 0)⟩ :=
    State.passes_of_step_ne (by simp [round]) rfl
  exact hassign.trans hdone

/-! ### One round -/

/-- What the round with the number `j` starts from: the counter has that number, and the variables
of the body are bound to numbers. -/
structure Counts (l : CountedLoop) (e : Environment) (j : Nat) : Prop where
  counter : ∃ c : Int64, e.get? l.name = some (.number c) ∧ c.toInt = j
  fits : e.Fits allNumbers l.body.reads

/-- The round with the number `j` leads from `e` to `e'`: the body leaves the counter as it is, and
then the counter is bound to its value plus one, which does not wrap around. -/
def Goes (l : CountedLoop) (j : Nat) (e e' : Environment) : Prop :=
  ∃ (mid : Environment) (c : Int64), l.body.Yields e (.ok mid) ∧
    e.get? l.name = some (.number c) ∧ mid.get? l.name = some (.number c) ∧
    c.toInt = j ∧ (c + 1).toInt = j + 1 ∧ e' = mid.bind l.name (.number (c + 1))

/-- The first round starts from the environment that binds the counter to zero. -/
theorem counts_zero (henv : ∀ x ∈ l.body.reads, x ≠ l.name → ∃ n, env.get? x = some (.number n)) :
    l.Counts (env.bind l.name (.number 0)) 0 := by
  refine ⟨⟨0, ?_, rfl⟩, fun x hx => ?_⟩
  · rw [Environment.get?_bind, if_pos rfl]
  · rw [Environment.get?_bind]
    split
    · exact ⟨_, rfl, rfl⟩
    · rename_i hne
      obtain ⟨n, hn⟩ := henv x hx hne
      exact ⟨_, hn, rfl⟩

theorem evaluate_condition (h : e.get? l.name = some (.number c)) :
    l.condition.evaluate e = .ok (.bool (decide (c < l.bound))) :=
  Expr.evaluate_binary_eq_ok_iff.2
    ⟨.number c, .number l.bound, Environment.lookup_eq_ok_iff.2 h, rfl, rfl⟩

/-- The condition of a round holds **exactly as long as there are rounds to go**. -/
theorem Counts.holds_eq (h : l.Counts e j) :
    l.condition.holds e = .ok (decide (j < l.rounds)) := by
  obtain ⟨c, hc, hj⟩ := h.counter
  have hless : decide (c < l.bound) = decide (j < l.rounds) := by
    refine decide_eq_decide.2 ?_
    rw [Int64.lt_iff_toInt_lt, hj, rounds]
    omega
  rw [Expr.holds_eq_ok_iff, evaluate_condition hc, hless]

/-- A round that starts well **goes well**, and the next one starts well. -/
theorem Counts.exists_goes (h : l.Counts e j) (hj : j < l.rounds) :
    ∃ e', l.Goes j e e' ∧ l.Counts e' (j + 1) := by
  obtain ⟨c, hc, hcj⟩ := h.counter
  obtain ⟨mid, hbody, hfits⟩ := l.wellKinded.exists_yields l.loopFree h.fits
  obtain ⟨n, bs, -, -, -, hframe⟩ := hbody.exists_framed
  have hmid : mid.get? l.name = some (.number c) :=
    (hframe.get?_eq l.name l.name_notMem).trans hc
  have hbelow : c.toInt < l.bound.toInt := by
    rw [rounds] at hj
    omega
  have hnext : (c + 1).toInt = j + 1 := by rw [Int64.toInt_add_one hbelow, hcj]
  refine ⟨_, ⟨mid, c, hbody, hc, hmid, hcj, hnext, rfl⟩, ⟨c + 1, ?_, hnext⟩, ?_⟩
  · rw [Environment.get?_bind, if_pos rfl]
  · exact (hfits _ h.fits).bind rfl

/-- A round that goes well is one of the loop. -/
theorem Goes.yields {e' : Environment} (h : l.Goes j e e') : l.round.Yields e (.ok e') := by
  obtain ⟨mid, c, hbody, -, hmid, -, -, rfl⟩ := h
  refine Stmt.yields_seq_iff.2 (.inl ⟨mid, hbody, Stmt.yields_assign_iff.2 ?_⟩)
  have hvalue : (Expr.binary .add (.var l.name) (.literal (.number 1))).evaluate mid
      = .ok (.number (c + 1)) :=
    Expr.evaluate_binary_eq_ok_iff.2 ⟨_, _, Environment.lookup_eq_ok_iff.2 hmid, rfl, rfl⟩
  rw [hvalue]
  rfl

/-! ### All rounds -/

/-- From a good start **all the rounds that are left** go well. -/
theorem Counts.exists_rounds (h : l.Counts env j) (hd : j + d = l.rounds) :
    ∃ e : Nat → Environment, e 0 = env ∧ (∀ t < d, l.Goes (j + t) (e t) (e (t + 1))) ∧
      ∀ t ≤ d, l.Counts (e t) (j + t) := by
  induction d generalizing env j with
  | zero =>
    refine ⟨fun _ => env, rfl, fun t ht => absurd ht t.not_lt_zero, fun t ht => ?_⟩
    obtain rfl := Nat.le_zero.1 ht
    exact h
  | succ d ih =>
    obtain ⟨env', hgoes, hnext⟩ := h.exists_goes (by omega)
    obtain ⟨e, rfl, hrest, hcounts⟩ := ih hnext (by omega)
    have hshift : ∀ t, j + 1 + t = j + (t + 1) := fun t => by omega
    refine ⟨fun t => t.casesOn env e, rfl, fun t ht => ?_, fun t ht => ?_⟩
    · cases t with
      | zero => exact hgoes
      | succ t =>
        rw [← hshift]
        exact hrest t (Nat.lt_of_succ_lt_succ ht)
    · cases t with
      | zero => exact h
      | succ t =>
        rw [← hshift]
        exact hcounts t (Nat.le_of_succ_le_succ ht)

/-- **A counted loop goes round exactly as often as it counts.** Let the environment bind every
variable of the body, other than the counter, to a number, and let `n` be the bound, or zero if that
is negative. There is a sequence of environments, from the one that binds the counter to zero, such
that

* each of the first `n` is followed by the one that the body makes of it and that then binds the
  counter to its value plus one, without wrapping around;
* in the last one the counter is the bound, or zero if that is negative;
* both readings of the program succeed, and leave exactly that last one behind;
* rounds of the loop that make its condition false are `n` in number;
* the run of the program comes `n` times by the start of the body. -/
theorem rounds_exactly (l : CountedLoop) (env : Environment)
    (henv : ∀ x ∈ l.body.reads, x ≠ l.name → ∃ n, env.get? x = some (.number n)) :
    ∃ e : Nat → Environment, e 0 = env.bind l.name (.number 0) ∧
      (∀ j < l.rounds, l.Goes j (e j) (e (j + 1))) ∧
      (∃ c : Int64, (e l.rounds).get? l.name = some (.number c) ∧ c.toInt = max l.bound.toInt 0) ∧
      Parity.BothStepTo ⟨.stmt l.program, env⟩ (.environment (e l.rounds)) ∧
      (∀ n e', e' 0 = env.bind l.name (.number 0) → Stmt.Rounds l.condition l.round n e' →
        l.condition.evaluate (e' n) = .ok (.bool false) → n = l.rounds) ∧
      ∀ n t, State.HaltsIn ⟨.stmt l.program, env⟩ n t →
        State.visits (.seq l.round l.loop) n ⟨.stmt l.program, env⟩ = l.rounds := by
  obtain ⟨e, he, hgoes, hcounts⟩ := (counts_zero henv).exists_rounds (Nat.zero_add l.rounds)
  simp only [Nat.zero_add] at hgoes hcounts
  have hrounds : Stmt.Rounds l.condition l.round l.rounds e := by
    refine ⟨fun j hj => ?_, fun j hj => (hgoes j hj).yields⟩
    rw [(hcounts j (Nat.le_of_lt hj)).holds_eq, decide_eq_true hj]
  have hlast : l.condition.holds (e l.rounds) = .ok false := by
    rw [(hcounts l.rounds (Nat.le_refl _)).holds_eq, decide_eq_false (Nat.lt_irrefl _)]
  refine ⟨e, he, hgoes, ?counter, ?both, fun n e' he' hrounds' hfalse => ?unique,
    fun n t ht => ?visits⟩
  case counter =>
    obtain ⟨c, hc, hvalue⟩ := (hcounts l.rounds (Nat.le_refl _)).counter
    refine ⟨c, hc, ?_⟩
    rw [hvalue, rounds]
    omega
  case both =>
    have hloop : (Stmt.loop l.condition l.round).Yields (e 0) (.ok (e l.rounds)) :=
      Stmt.yields_loop_ok_iff.2 ⟨l.rounds, e, rfl, rfl, hrounds, Expr.holds_eq_ok_iff.1 hlast⟩
    rw [he] at hloop
    have hassign : (Stmt.assign l.name (.literal (.number 0))).Yields env
        (.ok (env.bind l.name (.number 0))) := ⟨0, rfl⟩
    exact (Parity.bigStepsTo_iff_yields.2
      (Stmt.yields_seq_iff.2 (.inl ⟨_, hassign, hloop⟩))).both
  case unique =>
    exact hrounds'.length_unique hrounds (he'.trans he.symm) (Expr.holds_eq_ok_iff.2 hfalse) hlast
  case visits =>
    obtain ⟨m, hm⟩ := State.exists_passes_loop l.loopFree_round hrounds hlast
    rw [he] at hm
    have hall := (l.passes_start env).trans hm
    rw [Nat.zero_add] at hall
    exact hall.visits_of_haltsIn rfl rfl ht

/-- Summing up the counter three times. -/
theorem rounds_exactly_summing :
    let l : CountedLoop := {
      name := "i"
      bound := 3
      body := .assign "s" (.binary .add (.var "s") (.var "i"))
      loopFree := trivial
      wellKinded := by decide
      name_notMem := by decide }
    let env : Environment := .ofList [("s", .number 0)]
    (∀ x ∈ l.body.reads, x ≠ l.name → ∃ n, env.get? x = some (.number n)) ∧
      ∃ last, Parity.BothStepTo ⟨.stmt l.program, env⟩ (.environment last) ∧
        last.get? "i" = some (.number 3) ∧
        ∀ n t, State.HaltsIn ⟨.stmt l.program, env⟩ n t →
          State.visits (.seq l.round l.loop) n ⟨.stmt l.program, env⟩ = 3 := by
  intro l env
  have henv : ∀ x ∈ l.body.reads, x ≠ l.name → ∃ n, env.get? x = some (.number n) := by
    intro x hx hne
    have hnames : ∀ x ∈ l.body.reads, x = "s" ∨ x = "i" := by decide
    rcases hnames x hx with rfl | rfl
    · exact ⟨0, rfl⟩
    · exact absurd rfl hne
  obtain ⟨e, -, -, ⟨c, hc, hvalue⟩, hboth, -, hvisits⟩ := rounds_exactly l env henv
  obtain rfl : c = 3 := Int64.toInt_inj.1 hvalue
  exact ⟨henv, e l.rounds, hboth, hc, hvisits⟩

end CountedLoop

end WhileLang
