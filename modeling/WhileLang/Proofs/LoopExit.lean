import WhileLang.Proofs.Cost
import WhileLang.Proofs.Rounds

/-!
# Where a loop ends

A loop that ends has made its condition false, and whatever its rounds keep is still the case
then (`Stmt.holds_of_yields_loop`, `Stmt.invariant_of_yields_loop`). Reduction has no loop to look
at, as it writes the rounds out one after the other. But its runs finish with what evaluation
finds, so both facts are proved by induction on the rounds and hold of the runs as well.

Hence a loop whose condition is true everywhere does not end with success, whatever its body does:
no state of its run is terminal (`State.terminal_eq_false_of_endless`), and no run of a machine on
it succeeds. `Parity.loop_exit` puts all of this together.
-/

namespace WhileLang

/-! ### The last test -/

namespace Stmt

variable {condition : Expr} {body : Stmt} {env env' : Environment}

/-- A loop that ends has made its condition false. -/
theorem holds_of_yields_loop (h : (loop condition body).Yields env (.ok env')) :
    condition.holds env' = .ok false := by
  refine h.loopInduction (fun e hexit => ?_) fun _ _ _ _ hrest => hrest
  obtain ⟨hfalse, rfl⟩ := exits_ok_iff.1 hexit
  exact hfalse

/-- What the rounds of a loop keep is **still the case when it ends**. -/
theorem invariant_of_yields_loop {P : Environment → Prop} (henv : P env)
    (hround : ∀ e e', P e → condition.holds e = .ok true → body.Yields e (.ok e') → P e')
    (h : (loop condition body).Yields env (.ok env')) : P env' := by
  have hkept : P env → P env' := by
    refine h.loopInduction (fun e hexit he => ?_) fun e next htrue hbody hrest he => ?_
    · obtain ⟨-, rfl⟩ := exits_ok_iff.1 hexit
      exact he
    · exact hrest (hround e next he htrue hbody)
  exact hkept henv

/-- A loop whose condition is false leaves the environment as it is. -/
theorem yields_loop_of_false (h : condition.holds env = .ok false) :
    (loop condition body).Yields env (.ok env) :=
  yields_loop_iff.2 (.inl (.done h))

/-- A loop that ends takes at least the steps of one test. -/
theorem Finishes.cost_add_two_le {n : Nat}
    (h : (Stmt.loop condition body).Finishes env n (.ok env')) : condition.cost + 2 ≤ n := by
  obtain ⟨k, rfl, hk⟩ := finishes_loop_iff.1 h
  rcases finishes_branch_iff.1 hk with ⟨truth, m, ht, rfl, -⟩ | ⟨f, -, -, herr⟩
  · have hsteps := Expr.steps_eq_cost_of_holds ht
    omega
  · cases herr

end Stmt

/-! ### Endless loops -/

namespace State

variable {condition : Expr} {body : Stmt} {env : Environment} {n k : Nat} {t u : State}

/-- A loop whose condition is true everywhere **never halts**. -/
theorem not_haltsIn_of_endless (hc : ∀ e, condition.holds e = .ok true) :
    ¬HaltsIn ⟨.stmt (.loop condition body), env⟩ n t := by
  intro h
  obtain ⟨env', rfl⟩ := exists_eq_of_haltsIn h
  have hfalse := Stmt.holds_of_yields_loop (yields_ok_iff_exists_haltsIn.2 ⟨n, h⟩)
  cases (hc env').symm.trans hfalse

/-- No state of the run of such a loop is terminal. -/
theorem terminal_eq_false_of_endless (hc : ∀ e, condition.holds e = .ok true)
    (h : after k ⟨.stmt (.loop condition body), env⟩ = .ok u) : u.terminal = false := by
  rcases halts_or_fails_or_liveAt ⟨.stmt (.loop condition body), env⟩ k with
    ⟨n, t, -, ht⟩ | ⟨n, t, f, hn, hf⟩ | ⟨t, ht, hlive⟩
  · exact absurd ht (not_haltsIn_of_endless hc)
  · cases h.symm.trans (hf.after_eq_error hn)
  · cases h.symm.trans ht
    exact hlive

end State

/-! ### The two readings -/

namespace Parity

variable {settings : Settings} {env env' : Environment}

/-- A budget that does for a loop **does for it once more**: to test the condition again takes no
more steps than the first test did. -/
theorem SmallStepsTo.loop_again {condition : Expr} {body : Stmt}
    (h : SmallStepsTo settings ⟨.stmt (.loop condition body), env⟩ (.environment env')) :
    SmallStepsTo settings ⟨.stmt (.loop condition body), env'⟩ (.environment env') := by
  have hfalse := Stmt.holds_of_yields_loop h.yields
  obtain ⟨n, t, ht, haff, ho⟩ := smallStepsTo_iff.1 h
  obtain rfl := (State.outcome_eq_environment_iff ht.terminal).1 ho
  have hle := (State.finishes_ok_iff_haltsIn.2 ht).cost_add_two_le
  have haff' : (Machine.start settings ⟨.stmt (.loop condition body), env'⟩).Affords
      (condition.cost + 2) := (haff.resolve_left (by omega)).of_le hle
  have hagain : (Stmt.loop condition body).Finishes env' (condition.cost + 2) (.ok env') :=
    Stmt.finishes_loop_of_false hfalse
  exact smallStepsTo_iff.2 ⟨_, _, State.finishes_ok_iff_haltsIn.1 hagain, .inr haff', rfl⟩

/-- **How a loop ends.** If either reading of it succeeds, the condition is false in the
environment that it leaves behind. The same loop leaves that environment as it is, by evaluation
and by the steps of every machine that has no limit or whose limit did the first time. Whatever a
round keeps that starts with the condition true is the case in that environment.

So a loop whose condition is true in every environment does not succeed: no state of its run is
terminal, and under every limit a run of a machine on it ends with a failure. -/
theorem loop_exit (condition : Expr) (body : Stmt) :
    (∀ env env' : Environment,
      BigStepsTo ⟨.stmt (.loop condition body), env⟩ (.environment env') ∨
        (∃ settings,
          SmallStepsTo settings ⟨.stmt (.loop condition body), env⟩ (.environment env')) →
      condition.evaluate env' = .ok (.bool false) ∧
      BigStepsTo ⟨.stmt (.loop condition body), env'⟩ (.environment env') ∧
      (∀ settings : Settings,
        settings.limit = none ∨
          SmallStepsTo settings ⟨.stmt (.loop condition body), env⟩ (.environment env') →
        SmallStepsTo settings ⟨.stmt (.loop condition body), env'⟩ (.environment env')) ∧
      ∀ P : Environment → Prop, P env →
        (∀ e e', P e → condition.evaluate e = .ok (.bool true) →
          BigStepsTo ⟨.stmt body, e⟩ (.environment e') → P e') →
        P env') ∧
    ((∀ e, condition.evaluate e = .ok (.bool true)) → ∀ env : Environment,
      (∀ k u, State.after k ⟨.stmt (.loop condition body), env⟩ = .ok u → u.terminal = false) ∧
      (∀ settings r, (Machine.start settings ⟨.stmt (.loop condition body), env⟩).RunsTo r →
        ∃ stop, r.result = .error stop) ∧
      ∀ (settings : Settings) limit, settings.limit = some limit →
        ∃ r, (Machine.start settings ⟨.stmt (.loop condition body), env⟩).RunsTo r) := by
  constructor
  · intro env env' h
    have hloop : (Stmt.loop condition body).Yields env (.ok env') :=
      h.elim bigStepsTo_iff_yields.1 fun ⟨_, hsmall⟩ => hsmall.yields
    have hfalse := Stmt.holds_of_yields_loop hloop
    have hagain : (Stmt.loop condition body).Yields env' (.ok env') :=
      Stmt.yields_loop_of_false hfalse
    refine ⟨Expr.holds_eq_ok_iff.1 hfalse, bigStepsTo_iff_yields.2 hagain,
      fun settings hbudget => hbudget.elim (smallStepsTo_of_yields · hagain) .loop_again,
      fun P henv hround => ?_⟩
    exact Stmt.invariant_of_yields_loop henv (fun e e' he ht hb =>
      hround e e' he (Expr.holds_eq_ok_iff.1 ht) (bigStepsTo_iff_yields.2 hb)) hloop
  · intro hc env
    have htrue : ∀ e, condition.holds e = .ok true := fun e => Expr.holds_eq_ok_iff.2 (hc e)
    refine ⟨fun k u hu => State.terminal_eq_false_of_endless htrue hu, fun settings r hr => ?_,
      fun settings limit hlimit => ?_⟩
    · cases hres : r.result with
      | error stop => exact ⟨stop, rfl⟩
      | ok t =>
        obtain ⟨n, ht, -⟩ := hr.exists_haltsIn hres
        exact absurd ht (State.not_haltsIn_of_endless htrue)
    · have hzero : (Machine.start settings ⟨.stmt (.loop condition body), env⟩).Affords 0 :=
        (affords_start_iff hlimit).2 (Nat.zero_le _)
      exact Machine.exists_runsTo_of_limit hzero hlimit

/-- The loop that triples `x` up to five, begun at one, ends with `x` at nine, which is one of the
three values that it goes through. With a condition that is always true it does not end. -/
theorem loop_exit_triple :
    let triple : Stmt := .assign "x" (.binary .multiply (.var "x") (.literal (.number 3)))
    let below : Expr := .binary .lessThan (.var "x") (.literal (.number 5))
    let always : Expr := .binary .lessThan (.literal (.number 1)) (.literal (.number 2))
    let one : Environment := .ofList [("x", .number 1)]
    let nine : Environment := .ofList [("x", .number 9)]
    let Power (e : Environment) : Prop := ∃ k ∈ [1, 3, 9], e.get? "x" = some (.number k)
    BigStepsTo ⟨.stmt (.loop below triple), one⟩ (.environment nine) ∧
      below.evaluate nine = .ok (.bool false) ∧
      SmallStepsTo {} ⟨.stmt (.loop below triple), nine⟩ (.environment nine) ∧
      Power nine ∧
      (∀ k u, State.after k ⟨.stmt (.loop always triple), one⟩ = .ok u → u.terminal = false) ∧
      ∃ r stop, (Machine.start { limit := some 10 } ⟨.stmt (.loop always triple), one⟩).RunsTo r ∧
        r.result = .error stop := by
  intro triple below always one nine Power
  have hloop : BigStepsTo ⟨.stmt (.loop below triple), one⟩ (.environment nine) := ⟨3, rfl⟩
  have hround : ∀ e e', Power e → below.evaluate e = .ok (.bool true) →
      BigStepsTo ⟨.stmt triple, e⟩ (.environment e') → Power e' := by
    rintro e e' ⟨k, hk, hx⟩ hbelow hbody
    have hlook : e.lookup "x" = .ok (.number k) := Environment.lookup_eq_ok_iff.2 hx
    obtain ⟨v, hv, rfl⟩ :=
      Except.map_eq_ok_iff.1 (Stmt.yields_assign_iff.1 (bigStepsTo_iff_yields.1 hbody)).symm
    obtain rfl : v = .number (k * 3) := Except.ok.inj
      (hv.symm.trans (Expr.evaluate_binary_eq_ok_iff.2 ⟨_, _, hlook, rfl, rfl⟩))
    have hvalue : below.evaluate e = .ok (.bool (decide (k < 5))) :=
      Expr.evaluate_binary_eq_ok_iff.2 ⟨_, _, hlook, rfl, rfl⟩
    have hlt : decide (k < 5) = true := Value.bool.inj (Except.ok.inj (hvalue.symm.trans hbelow))
    -- the third value is no longer below five, so there is no round from there
    simp only [List.mem_cons, List.not_mem_nil, or_false] at hk
    rcases hk with rfl | rfl | rfl
    · exact ⟨3, by decide, Environment.get?_bind e "x" "x" _⟩
    · exact ⟨9, by decide, Environment.get?_bind e "x" "x" _⟩
    · exact absurd hlt (by decide)
  obtain ⟨hfalse, -, hagain, hinv⟩ := (loop_exit below triple).1 one nine (.inl hloop)
  obtain ⟨hlive, hends, hrun⟩ := (loop_exit always triple).2 (fun _ => rfl) one
  obtain ⟨r, hr⟩ := hrun { limit := some 10 } 10 rfl
  obtain ⟨stop, hstop⟩ := hends _ r hr
  exact ⟨hloop, hfalse, hagain {} (.inl rfl), hinv Power ⟨1, by decide, rfl⟩ hround, hlive, r,
    stop, hr, hstop⟩

end Parity

end WhileLang
