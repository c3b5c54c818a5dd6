import WhileLang.Evaluation.Fuel
import WhileLang.Reduction

/-!
# Evaluation by rules

Evaluation is given by functions, with fuel for the loops. Here it is given once more, by
rules that need no fuel and that **count**: `s.Finishes env n r` says that in `env` the
statement `s` finishes with `r`, a fault included, and that a run of it takes `n` steps up to
there. The count of an expression is a function, `Expr.steps`.

The rule for a loop is the unrolling of reduction and not the going round of evaluation.
`Stmt.exists_finishes_iff` says that the rules derive the same results all the same: some
count does for `r` exactly when some fuel does. `Stmt.Yields` forgets the count and the fuel.
-/

namespace WhileLang

/-! ### Expressions -/

namespace Expr

/-- The number of steps that an expression takes, up to its value or up to its fault: one for
each variable that is found and for each operator that is applied. -/
def steps (env : Environment) : Expr → Nat
  | literal _ => 0
  | var name =>
    match env.lookup name with
    | .error _ => 0
    | .ok _ => 1
  | binary op left right =>
    match left.evaluate env with
    | .error _ => left.steps env
    | .ok a =>
      match right.evaluate env with
      | .error _ => left.steps env + right.steps env
      | .ok b =>
        match op.apply a b with
        | .error _ => left.steps env + right.steps env
        | .ok _ => left.steps env + right.steps env + 1

end Expr

/-! ### Statements -/

namespace Stmt

/-- In an environment a statement finishes with a result, after a number of steps. -/
inductive Finishes : Stmt → Environment → Nat → Except Fault Environment → Prop
  | doNothing {env : Environment} : Finishes doNothing env 0 (.ok env)
  | assign {name : String} {expr : Expr} {env : Environment} {value : Value} :
    expr.evaluate env = .ok value →
      Finishes (assign name expr) env (expr.steps env + 1) (.ok (env.bind name value))
  | assignFault {name : String} {expr : Expr} {env : Environment} {f : Fault} :
    expr.evaluate env = .error f → Finishes (assign name expr) env (expr.steps env) (.error f)
  | branch {condition : Expr} {consequence alternative : Stmt} {env : Environment}
      {truth : Bool} {n : Nat} {r : Except Fault Environment} :
    condition.holds env = .ok truth →
      Finishes (if truth then consequence else alternative) env n r →
      Finishes (branch condition consequence alternative) env (condition.steps env + 1 + n) r
  | branchFault {condition : Expr} {consequence alternative : Stmt} {env : Environment}
      {f : Fault} :
    condition.holds env = .error f →
      Finishes (branch condition consequence alternative) env (condition.steps env) (.error f)
  | seq {first second : Stmt} {env env' : Environment} {n k : Nat}
      {r : Except Fault Environment} :
    Finishes first env n (.ok env') → Finishes second env' k r →
      Finishes (seq first second) env (n + 1 + k) r
  | seqFault {first second : Stmt} {env : Environment} {n : Nat} {f : Fault} :
    Finishes first env n (.error f) → Finishes (seq first second) env n (.error f)
  | loop {condition : Expr} {body : Stmt} {env : Environment} {n : Nat}
      {r : Except Fault Environment} :
    Finishes (unrolled condition body) env n r → Finishes (loop condition body) env (n + 1) r

variable {condition : Expr} {body : Stmt} {env : Environment} {r : Except Fault Environment}

/-! ### Inversion -/

section Inversion

variable {n : Nat}

theorem finishes_doNothing_iff : doNothing.Finishes env n r ↔ n = 0 ∧ r = .ok env := by
  constructor
  · intro h
    cases h
    exact ⟨rfl, rfl⟩
  · rintro ⟨rfl, rfl⟩
    exact .doNothing

theorem finishes_assign_iff {name : String} {expr : Expr} :
    (assign name expr).Finishes env n r ↔
      (∃ value, expr.evaluate env = .ok value ∧ n = expr.steps env + 1 ∧
        r = .ok (env.bind name value)) ∨
      ∃ f, expr.evaluate env = .error f ∧ n = expr.steps env ∧ r = .error f := by
  constructor
  · intro h
    cases h with
    | assign hv => exact .inl ⟨_, hv, rfl, rfl⟩
    | assignFault hf => exact .inr ⟨_, hf, rfl, rfl⟩
  · rintro (⟨value, hv, rfl, rfl⟩ | ⟨f, hf, rfl, rfl⟩)
    · exact .assign hv
    · exact .assignFault hf

theorem finishes_branch_iff {consequence alternative : Stmt} :
    (branch condition consequence alternative).Finishes env n r ↔
      (∃ truth k, condition.holds env = .ok truth ∧ n = condition.steps env + 1 + k ∧
        (if truth then consequence else alternative).Finishes env k r) ∨
      ∃ f, condition.holds env = .error f ∧ n = condition.steps env ∧ r = .error f := by
  constructor
  · intro h
    cases h with
    | branch ht hk => exact .inl ⟨_, _, ht, rfl, hk⟩
    | branchFault hf => exact .inr ⟨_, hf, rfl, rfl⟩
  · rintro (⟨truth, k, ht, rfl, hk⟩ | ⟨f, hf, rfl, rfl⟩)
    · exact .branch ht hk
    · exact .branchFault hf

theorem finishes_seq_iff {first second : Stmt} :
    (seq first second).Finishes env n r ↔
      (∃ m k env', first.Finishes env m (.ok env') ∧ second.Finishes env' k r ∧
        n = m + 1 + k) ∨
      ∃ f, first.Finishes env n (.error f) ∧ r = .error f := by
  constructor
  · intro h
    cases h with
    | seq hm hk => exact .inl ⟨_, _, _, hm, hk, rfl⟩
    | seqFault hf => exact .inr ⟨_, hf, rfl⟩
  · rintro (⟨m, k, env', hm, hk, rfl⟩ | ⟨f, hf, rfl⟩)
    · exact .seq hm hk
    · exact .seqFault hf

theorem finishes_loop_iff :
    (loop condition body).Finishes env n r ↔
      ∃ k, n = k + 1 ∧ (unrolled condition body).Finishes env k r := by
  constructor
  · intro h
    cases h with
    | loop hk => exact ⟨_, rfl, hk⟩
  · rintro ⟨k, rfl, hk⟩
    exact .loop hk

end Inversion

/-! ### From the rules to evaluation -/

/-- Evaluation of a loop takes one unit of fuel more than that of the loop written out. -/
theorem evaluate_loop_of_unrolled {fuel : Nat}
    (h : (unrolled condition body).evaluate fuel env = some r) :
    (loop condition body).evaluate (fuel + 1) env = some r := by
  rw [unrolled, evaluate] at h
  rw [evaluate, goRound]
  split at h
  · rename_i hf
    simpa only [hf] using h
  · rename_i ht
    simp only [ht]
    rw [evaluate] at h
    cases hb : body.evaluate fuel env with
    | none => simp [hb] at h
    | some stopped =>
      rw [evaluate_mono fuel.le_succ hb]
      rw [hb] at h
      cases stopped with
      | error f => exact h
      | ok next =>
        -- as many rounds are left as before, but their bodies have more fuel
        exact goRound_mono (fun _ _ => evaluate_mono fuel.le_succ) fuel.le_refl h
  · rename_i ht
    simp only [ht]
    exact h

/-- What the rules derive, evaluation finds with enough fuel. -/
theorem Finishes.exists_evaluate_eq {s : Stmt} {n : Nat} (h : s.Finishes env n r) :
    ∃ fuel, s.evaluate fuel env = some r := by
  induction h with
  | doNothing => exact ⟨0, rfl⟩
  | assign hv => exact ⟨0, by rw [evaluate, hv]; rfl⟩
  | assignFault hf => exact ⟨0, by rw [evaluate, hf]; rfl⟩
  | @branch _ _ _ _ truth _ _ ht _ ih =>
    obtain ⟨fuel, hfuel⟩ := ih
    refine ⟨fuel, ?_⟩
    rw [evaluate, ht]
    cases truth <;> exact hfuel
  | branchFault hf => exact ⟨0, by rw [evaluate, hf]⟩
  | seq _ _ ihf ihs =>
    obtain ⟨fuel, hfuel⟩ := ihf
    obtain ⟨fuel', hfuel'⟩ := ihs
    refine ⟨max fuel fuel', ?_⟩
    rw [evaluate, evaluate_mono (Nat.le_max_left fuel fuel') hfuel]
    exact evaluate_mono (Nat.le_max_right fuel fuel') hfuel'
  | seqFault _ ih =>
    obtain ⟨fuel, hfuel⟩ := ih
    exact ⟨fuel, by rw [evaluate, hfuel]⟩
  | loop _ ih =>
    obtain ⟨fuel, hfuel⟩ := ih
    exact ⟨fuel + 1, evaluate_loop_of_unrolled hfuel⟩

/-! ### From evaluation to the rules -/

/-- Going round a loop is derived by unrolling it, if its body is derived. -/
theorem exists_finishes_loop {body' : Environment → Option (Except Fault Environment)}
    (hbody : ∀ env r, body' env = some r → ∃ n, body.Finishes env n r) {fuel : Nat}
    (h : goRound (fun env => condition.holds env) body' fuel env = some r) :
    ∃ n, (loop condition body).Finishes env n r := by
  -- the induction is on the rounds; `body'` is fixed, as the fuel of the body is
  induction fuel generalizing env with
  | zero => simp [goRound] at h
  | succ fuel ih =>
    rw [goRound] at h
    split at h
    · rename_i f hf
      cases h
      exact ⟨_, .loop (.branchFault hf)⟩
    · rename_i ht
      cases h
      exact ⟨_, .loop (.branch ht .doNothing)⟩
    · rename_i ht
      cases hb : body' env with
      | none => simp [hb] at h
      | some stopped =>
        rw [hb] at h
        obtain ⟨n, hn⟩ := hbody env stopped hb
        cases stopped with
        | error f =>
          cases h
          exact ⟨_, .loop (.branch ht (.seqFault hn))⟩
        | ok next =>
          obtain ⟨k, hk⟩ := ih h
          exact ⟨_, .loop (.branch ht (.seq hn hk))⟩

/-- What evaluation finds, the rules derive. -/
theorem exists_finishes_of_evaluate {fuel : Nat} {s : Stmt}
    (h : s.evaluate fuel env = some r) : ∃ n, s.Finishes env n r := by
  induction s generalizing env r with
  | doNothing =>
    cases h
    exact ⟨0, .doNothing⟩
  | assign name expr =>
    rw [evaluate] at h
    cases hv : expr.evaluate env with
    | error f =>
      rw [hv] at h
      cases h
      exact ⟨_, .assignFault hv⟩
    | ok value =>
      rw [hv] at h
      cases h
      exact ⟨_, .assign hv⟩
  | branch condition consequence alternative ihc iha =>
    rw [evaluate] at h
    split at h
    · rename_i f hf
      cases h
      exact ⟨_, .branchFault hf⟩
    · rename_i ht
      obtain ⟨n, hn⟩ := ihc h
      exact ⟨_, .branch ht hn⟩
    · rename_i ht
      obtain ⟨n, hn⟩ := iha h
      exact ⟨_, .branch ht hn⟩
  | seq first second ihf ihs =>
    rw [evaluate] at h
    cases hf : first.evaluate fuel env with
    | none => simp [hf] at h
    | some stopped =>
      rw [hf] at h
      obtain ⟨n, hn⟩ := ihf hf
      cases stopped with
      | error f =>
        cases h
        exact ⟨n, .seqFault hn⟩
      | ok next =>
        obtain ⟨k, hk⟩ := ihs h
        exact ⟨_, .seq hn hk⟩
  | loop condition body ih => exact exists_finishes_loop (fun _ _ => ih) h

/-- The rules derive **exactly the results of evaluation**. -/
theorem exists_finishes_iff {s : Stmt} :
    (∃ n, s.Finishes env n r) ↔ ∃ fuel, s.evaluate fuel env = some r :=
  ⟨fun ⟨_, h⟩ => h.exists_evaluate_eq, fun ⟨_, h⟩ => exists_finishes_of_evaluate h⟩

/-! ### Results without counts -/

/-- In an environment a statement finishes with a result, whatever fuel it takes. -/
def Yields (s : Stmt) (env : Environment) (r : Except Fault Environment) : Prop :=
  ∃ fuel, s.evaluate fuel env = some r

theorem yields_iff_exists_finishes {s : Stmt} : s.Yields env r ↔ ∃ n, s.Finishes env n r :=
  exists_finishes_iff.symm

/-- An assignment passes the value of its expression on, or its fault. -/
theorem yields_assign_iff {name : String} {expr : Expr} :
    (assign name expr).Yields env r ↔ r = (expr.evaluate env).map (env.bind name) := by
  simp [Yields, evaluate, eq_comm]

/-- A branching yields what the branch that its condition picks yields. -/
theorem yields_branch_iff {consequence alternative : Stmt} :
    (branch condition consequence alternative).Yields env r ↔
      (∃ truth, condition.holds env = .ok truth ∧
        (if truth then consequence else alternative).Yields env r) ∨
      ∃ f, condition.holds env = .error f ∧ r = .error f := by
  simp only [yields_iff_exists_finishes, finishes_branch_iff]
  constructor
  · rintro ⟨_, ⟨truth, k, ht, -, hk⟩ | ⟨f, hf, -, rfl⟩⟩
    · exact .inl ⟨truth, ht, k, hk⟩
    · exact .inr ⟨f, hf, rfl⟩
  · rintro (⟨truth, ht, k, hk⟩ | ⟨f, hf, rfl⟩)
    · exact ⟨_, .inl ⟨truth, k, ht, rfl, hk⟩⟩
    · exact ⟨_, .inr ⟨f, hf, rfl, rfl⟩⟩

/-- A sequence yields what its second part yields after the first one, or the fault of the
first one. -/
theorem yields_seq_iff {first second : Stmt} :
    (seq first second).Yields env r ↔
      (∃ env', first.Yields env (.ok env') ∧ second.Yields env' r) ∨
      ∃ f, first.Yields env (.error f) ∧ r = .error f := by
  simp only [yields_iff_exists_finishes, finishes_seq_iff]
  constructor
  · rintro ⟨_, ⟨m, k, env', hm, hk, -⟩ | ⟨f, hf, rfl⟩⟩
    · exact .inl ⟨env', ⟨m, hm⟩, k, hk⟩
    · exact .inr ⟨f, ⟨_, hf⟩, rfl⟩
  · rintro (⟨env', ⟨m, hm⟩, k, hk⟩ | ⟨f, ⟨n, hf⟩, rfl⟩)
    · exact ⟨_, .inl ⟨m, k, env', hm, hk, rfl⟩⟩
    · exact ⟨n, .inr ⟨f, hf, rfl⟩⟩

end Stmt

end WhileLang
