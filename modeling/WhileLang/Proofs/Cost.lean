import WhileLang.Proofs.Agreement

/-!
# What a run costs

The number of steps of a run can be told without running anything: it is a **cost** that adds up
over the parts of the program, along its evaluation.

* An expression costs as much as it has variables and operators, whatever their values.
* An assignment costs one step more than its expression, a branching one more than its condition
  and the branch that it takes, and a sequence one more than its two parts.
* A loop costs three steps for each round on top of its condition and its body, and two for the
  test that ends it on top of the condition.

Only evaluations that succeed have this cost: a fault ends a run before the whole of an expression
is used up. `Stmt.finishes_cost` compares the cost with the count of the rules, and
`Parity.check_steps_eq_cost` says what that means for the check of the two readings, with a limit
and without.
-/

namespace WhileLang

/-! ### Expressions -/

namespace Expr

variable {e : Expr} {env : Environment}

/-- The number of variables and operators of an expression. -/
def cost : Expr → Nat
  | literal _ => 0
  | var _ => 1
  | binary _ left right => left.cost + right.cost + 1

/-- An expression that has a value **takes as many steps as it costs**. -/
theorem steps_eq_cost {v : Value} (h : e.evaluate env = .ok v) : e.steps env = e.cost := by
  induction e generalizing v with
  | literal w => rfl
  | var name =>
    have hv : env.lookup name = .ok v := h
    rw [steps, hv, cost]
  | binary op left right ihl ihr =>
    obtain ⟨a, b, ha, hb, hv⟩ := evaluate_binary_eq_ok_iff.1 h
    simp only [steps, cost, ha, hb, hv, ihl ha, ihr hb]

/-- A condition that has a truth takes as many steps as it costs. -/
theorem steps_eq_cost_of_holds {truth : Bool} (h : e.holds env = .ok truth) :
    e.steps env = e.cost :=
  steps_eq_cost (holds_eq_ok_iff.1 h)

end Expr

/-! ### Statements -/

/-- What it costs to go round a loop, like `goRound` itself: a round takes three steps on top of
the test and the body in the environment of that round, and the last test takes two. Where
`goRound` does not succeed the number has no meaning. -/
def roundsCost (test : Environment → Except Fault Bool)
    (body : Environment → Option (Except Fault Environment)) (testCost : Nat)
    (bodyCost : Environment → Nat) : Nat → Environment → Nat
  | 0, _ => 0
  | fuel + 1, env =>
    match test env with
    | .error _ => 0
    | .ok false => testCost + 2
    | .ok true =>
      match body env with
      | some (.ok next) =>
        testCost + bodyCost env + 3 + roundsCost test body testCost bodyCost fuel next
      | _ => 0

namespace Stmt

/-- The cost of a statement that is evaluated with success. -/
def cost (fuel : Nat) : Stmt → Environment → Nat
  | doNothing, _ => 0
  | assign _ expr, _ => expr.cost + 1
  | branch condition consequence alternative, env =>
    match condition.holds env with
    | .error _ => 0
    | .ok true => condition.cost + 1 + consequence.cost fuel env
    | .ok false => condition.cost + 1 + alternative.cost fuel env
  | seq first second, env =>
    match first.evaluate fuel env with
    | some (.ok next) => first.cost fuel env + 1 + second.cost fuel next
    | _ => 0
  | loop condition body, env =>
    roundsCost (fun env => condition.holds env) (body.evaluate fuel) condition.cost
      (body.cost fuel) fuel env

variable {condition : Expr} {body : Stmt} {env env' : Environment} {fuel : Nat}

/-- The last test of a loop costs two steps on top of the condition. -/
theorem finishes_loop_of_false (ht : condition.holds env = .ok false) :
    (loop condition body).Finishes env (condition.cost + 2) (.ok env) := by
  rw [← Expr.steps_eq_cost_of_holds ht]
  exact .loop (.branch ht .doNothing)

/-- A round of a loop costs three steps on top of the condition and the body: to unroll the loop,
to pick the branch, and to drop the finished body. -/
theorem finishes_loop_of_true {n k : Nat} {r : Except Fault Environment}
    (ht : condition.holds env = .ok true) (hbody : body.Finishes env n (.ok env'))
    (hrest : (loop condition body).Finishes env' k r) :
    (loop condition body).Finishes env (condition.cost + n + 3 + k) r := by
  have hcount : condition.cost + n + 3 + k = condition.steps env + 1 + (n + 1 + k) + 1 := by
    rw [Expr.steps_eq_cost_of_holds ht]
    omega
  rw [hcount]
  exact .loop (.branch ht (.seq hbody hrest))

/-- A loop finishes at the cost of its rounds, if its body finishes at its own cost. -/
theorem finishes_roundsCost {body' : Environment → Option (Except Fault Environment)}
    {bodyCost : Environment → Nat}
    (hbody : ∀ env env', body' env = some (.ok env') →
      body.Finishes env (bodyCost env) (.ok env'))
    (h : goRound (fun env => condition.holds env) body' fuel env = some (.ok env')) :
    (loop condition body).Finishes env
      (roundsCost (fun env => condition.holds env) body' condition.cost bodyCost fuel env)
      (.ok env') := by
  induction fuel generalizing env with
  | zero => simp [goRound] at h
  | succ fuel ih =>
    rcases goRound_succ_eq_ok_iff.1 h with ⟨ht, rfl⟩ | ⟨ht, next, hb, hrest⟩
    · simp only [roundsCost, ht]
      exact finishes_loop_of_false ht
    · simp only [roundsCost, ht, hb]
      exact finishes_loop_of_true ht (hbody env next hb) (ih hrest)

/-- A statement that is evaluated with success **finishes at its cost**. -/
theorem finishes_cost {s : Stmt} (h : s.evaluate fuel env = some (.ok env')) :
    s.Finishes env (s.cost fuel env) (.ok env') := by
  induction s generalizing env env' with
  | doNothing =>
    cases h
    exact .doNothing
  | assign name expr =>
    obtain ⟨v, hv, rfl⟩ := Except.map_eq_ok_iff.1 (Option.some.inj h)
    rw [cost, ← Expr.steps_eq_cost hv]
    exact .assign hv
  | branch condition consequence alternative ihc iha =>
    rw [evaluate] at h
    rw [cost]
    cases ht : condition.holds env with
    | error f => simp [ht] at h
    | ok truth =>
      rw [ht] at h
      rw [← Expr.steps_eq_cost_of_holds ht]
      cases truth with
      | true => exact .branch ht (ihc h)
      | false => exact .branch ht (iha h)
  | seq first second ihf ihs =>
    rw [evaluate] at h
    rw [cost]
    cases hf : first.evaluate fuel env with
    | none => simp [hf] at h
    | some stopped =>
      rw [hf] at h
      cases stopped with
      | error f => simp at h
      | ok next => exact .seq (ihf hf) (ihs h)
  | loop condition body ih => exact finishes_roundsCost (fun _ _ => ih) h

end Stmt

/-! ### Terms -/

/-- The cost of a term that is evaluated with success. -/
def Term.cost (fuel : Nat) (env : Environment) : Term → Nat
  | expr e => e.cost
  | stmt s => s.cost fuel env

namespace State

variable {s : State} {fuel : Nat} {o : Outcome}

/-- A state whose term is evaluated with success **halts after as many steps as it costs**, with
the same outcome. -/
theorem exists_haltsIn_cost (h : s.term.evaluate fuel s.env = some (.ok o)) :
    ∃ t, s.HaltsIn (s.term.cost fuel s.env) t ∧ t.outcome = .ok o := by
  have hfin : s.Finishes (s.term.cost fuel s.env) (.ok o) := by
    obtain ⟨term, env⟩ := s
    match term with
    | .expr e =>
      obtain ⟨v, hv, rfl⟩ := Except.map_eq_ok_iff.1 (Option.some.inj h)
      exact ⟨(Expr.steps_eq_cost hv).symm, by rw [hv]; rfl⟩
    | .stmt p =>
      obtain ⟨q, hq, hmap⟩ := Option.map_eq_some_iff.1 h
      obtain ⟨env', rfl, rfl⟩ := Except.map_eq_ok_iff.1 hmap
      exact ⟨.ok env', Stmt.finishes_cost hq, rfl⟩
  rcases endsIn_iff_finishes.2 hfin with ht | ⟨t, f, -, herr⟩
  · exact ht
  · cases herr

/-- The cost does not depend on the fuel. -/
theorem cost_unique {fuel' : Nat} {o' : Outcome}
    (h : s.term.evaluate fuel s.env = some (.ok o))
    (h' : s.term.evaluate fuel' s.env = some (.ok o')) :
    s.term.cost fuel s.env = s.term.cost fuel' s.env := by
  obtain ⟨t, ht, -⟩ := exists_haltsIn_cost h
  obtain ⟨t', ht', -⟩ := exists_haltsIn_cost h'
  exact (ht.unique ht').1

end State

/-! ### The check of the two readings -/

namespace Parity

variable {settings : Settings} {s t : State} {n : Nat} {o : Outcome}

/-- A check whose machine affords the steps up to the halt reports their number. -/
theorem checksTo_of_haltsIn (ht : s.HaltsIn n t) (ho : t.outcome = .ok o)
    (haff : (Machine.start settings s).Affords n) :
    ChecksTo settings s (.ok ⟨o, o, UInt64.ofNat n⟩) := by
  obtain ⟨r, hr, hres, hreach⟩ :=
    Machine.exists_runsTo_of_haltsIn (m := .start settings s) ht (.inr haff)
  obtain ⟨o', ho', hcheck⟩ := exists_checksTo_of_runsTo_ok hr hres ht
  obtain rfl := Except.ok.inj (ho'.symm.trans ho)
  have hsteps : r.machine.steps = UInt64.ofNat n :=
    hreach.steps_eq.trans (UInt64.zero_add _)
  rwa [hsteps] at hcheck

/-- A check whose limit is below the halt is refused. -/
theorem checksTo_exhausted_of_haltsIn {limit : UInt64} (ht : s.HaltsIn n t)
    (hlimit : settings.limit = some limit) (hlt : limit.toNat < n) :
    ChecksTo settings s (.error (.exhausted limit)) := by
  refine (checksTo_exhausted_iff hlimit).2 ⟨rfl, fun k u hu => ?_, fun k u f hu => ?_⟩
  · rw [(hu.unique ht).1]
    exact hlt
  · exact absurd hu ht.not_failsIn

/-- **The steps of a check are the cost of the evaluation.** Where evaluation succeeds, the check
without a limit reports its cost, up to the overflow of the counter. A limit of at least the cost
gives the same report, and under every lower one the check is refused. The fuel of the evaluation
makes no difference to its cost. -/
theorem check_steps_eq_cost (term : Term) (env : Environment) (fuel : Nat) (o : Outcome)
    (h : bigStep fuel ⟨term, env⟩ = some (.ok o)) :
    let cost := term.cost fuel env
    (∀ fuel' o', bigStep fuel' ⟨term, env⟩ = some (.ok o') → term.cost fuel' env = cost) ∧
    (∀ settings : Settings, settings.limit = none →
      ∃ p, ChecksTo settings ⟨term, env⟩ (.ok p) ∧ p.small = o ∧ p.big = o ∧
        p.steps = UInt64.ofNat cost ∧ (cost < UInt64.size → p.steps.toNat = cost)) ∧
    ∀ (settings : Settings) (limit : UInt64), settings.limit = some limit →
      (cost ≤ limit.toNat →
        ∃ p, ChecksTo settings ⟨term, env⟩ (.ok p) ∧ p.small = o ∧ p.big = o ∧
          p.steps.toNat = cost) ∧
      (limit.toNat < cost → ChecksTo settings ⟨term, env⟩ (.error (.exhausted limit))) := by
  intro cost
  obtain ⟨t, ht, ho⟩ : ∃ t, State.HaltsIn ⟨term, env⟩ cost t ∧ t.outcome = .ok o :=
    State.exists_haltsIn_cost h
  have hcount : cost < UInt64.size → (UInt64.ofNat cost).toNat = cost :=
    UInt64.toNat_ofNat_of_lt'
  refine ⟨fun fuel' o' h' => State.cost_unique h' h, fun settings hnone => ?_,
    fun settings limit hlimit => ⟨fun hle => ?_, fun hlt => ?_⟩⟩
  · have haff : (Machine.start settings ⟨term, env⟩).Affords cost :=
      Machine.affords_of_limit_eq_none hnone
    exact ⟨_, checksTo_of_haltsIn ht ho haff, rfl, rfl, rfl, hcount⟩
  · have hsize : cost < UInt64.size := Nat.lt_of_le_of_lt hle limit.toNat_lt
    exact ⟨_, checksTo_of_haltsIn ht ho ((affords_start_iff hlimit).2 hle), rfl, rfl, hcount hsize⟩
  · exact checksTo_exhausted_of_haltsIn ht hlimit hlt

/-- A loop in the body of a loop, where each round of the outer one goes round the inner one once:
the check takes fifty steps, a limit of fifty will do, and a limit of forty-nine will not. -/
theorem check_steps_eq_cost_nested_loops :
    let below (x : String) (e : Expr) : Expr := .binary .lessThan (.var x) e
    let count (x : String) : Stmt := .assign x (.binary .add (.var x) (.literal (.number 1)))
    let inner : Stmt := .loop (below "y" (.var "x")) (count "y")
    let t : Term := .stmt (.loop (below "x" (.literal (.number 3))) (.seq inner (count "x")))
    let env : Environment := .ofList [("x", .number 1), ("y", .number 0)]
    let o : Outcome := .environment (.ofList [("x", .number 3), ("y", .number 2)])
    bigStep 3 ⟨t, env⟩ = some (.ok o) ∧
      (∃ p, ChecksTo {} ⟨t, env⟩ (.ok p) ∧ p.steps.toNat = 50) ∧
      (∃ p, ChecksTo { limit := some 50 } ⟨t, env⟩ (.ok p) ∧ p.big = o) ∧
      ChecksTo { limit := some 49 } ⟨t, env⟩ (.error (.exhausted 49)) := by
  intro below count inner t env o
  have h : bigStep 3 ⟨t, env⟩ = some (.ok o) := rfl
  have hcost : t.cost 3 env = 50 := by decide
  obtain ⟨-, hfree, hlimit⟩ := check_steps_eq_cost t env 3 o h
  obtain ⟨p, hp, -, -, -, hsteps⟩ := hfree {} rfl
  obtain ⟨q, hq, -, hbig, -⟩ := (hlimit { limit := some 50 } 50 rfl).1 (Nat.le_of_eq hcost)
  have hlt : (49 : UInt64).toNat < t.cost 3 env := by
    rw [hcost]
    decide
  refine ⟨h, ⟨p, hp, ?_⟩, ⟨q, hq, hbig⟩, (hlimit { limit := some 49 } 49 rfl).2 hlt⟩
  rw [hsteps (by rw [hcost]; decide), hcost]

end Parity

end WhileLang
