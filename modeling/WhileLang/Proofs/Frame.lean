import WhileLang.Proofs.Agreement
import WhileLang.Proofs.Names
import WhileLang.Proofs.Overlay
import WhileLang.Proofs.Rounds

/-!
# What a program does to its environment

A step changes the environment in one case only: when the statement that is **pending**, the first
part of all the sequences around it, is an assignment of a literal. Then the name is bound to the
literal, and nothing else happens (`Stmt.Step.env_eq`).

So a run lays bindings over its environment, one for each assignment that it executes, in that
order. `State.bindings` lists them for a number of steps, and `Stmt.Executes` lists them for an
evaluation, by rules that mention no steps. The two lists are the same
(`Stmt.executes_bindings`).

What an overlay of names that the program assigns does to an environment is the **frame**
(`Environment.Framed`): the names bound before keep their places, new ones come behind them in the
order in which they are first assigned, and names that the program does not assign keep their
values, or stay unbound.
-/

namespace WhileLang

/-! ### The binding of a step -/

namespace Stmt

variable {s t : Stmt} {env env' : Environment} {x : String} {v : Value}

/-- The part of a statement that its next step is about: the first part of a sequence, and the
first part of that one again. -/
def pending : Stmt → Stmt
  | doNothing => doNothing
  | assign name expr => assign name expr
  | branch condition consequence alternative => branch condition consequence alternative
  | seq first _ => first.pending
  | loop condition body => loop condition body

/-- The binding that the next step of a statement makes, if it makes one. -/
def binding? (s : Stmt) : Option (String × Value) :=
  match s.pending with
  | assign name (.literal v) => some (name, v)
  | _ => none

/-- The next step binds a name exactly when **the assignment of a literal** to it is pending. -/
theorem binding?_eq_some_iff : s.binding? = some (x, v) ↔ s.pending = assign x (.literal v) := by
  unfold binding?
  split
  · rename_i h
    simp [h]
  · rename_i h
    simp only [reduceCtorEq, false_iff]
    exact h x v

/-- An expression that has a step to take has to wait for its value before it can be bound. -/
theorem binding?_assign_of_reducible {name : String} {expr : Expr} (h : expr.reducible = true) :
    (assign name expr).binding? = none := by
  refine Option.eq_none_iff_forall_ne_some.2 fun (x, v) hsome => ?_
  obtain ⟨rfl, rfl⟩ := assign.inj (binding?_eq_some_iff.1 hsome)
  exact Expr.not_reducible_literal v h

theorem binding?_seq {first second : Stmt} : (seq first second).binding? = first.binding? := rfl

/-- A step of a statement makes its binding **and changes nothing else** in the environment. -/
theorem Step.env_eq (h : s.Step env t env') : env' = env.merge s.binding?.toList := by
  induction h with
  | assignExpr hexpr =>
    rw [binding?_assign_of_reducible hexpr.reducible, Option.toList_none, Environment.merge_nil]
    exact hexpr.env_eq
  | assignLiteral => rfl
  | branchCondition hcondition => exact hcondition.env_eq
  | branchLiteral => rfl
  | seqFirst _ ih => exact ih
  | seqDoNothing => rfl
  | loop => rfl

/-- Reduction makes the binding of the step, also where a finished statement has none to make. -/
theorem env_of_reduce (h : s.reduce env = .ok (t, env')) :
    env' = env.merge s.binding?.toList := by
  rcases eq_or_step_of_reduce h with ⟨rfl, rfl, rfl⟩ | hstep
  · rfl
  · exact hstep.env_eq

/-- What is pending assigns only names that the whole statement assigns. -/
theorem targets_pending_subset (s : Stmt) : s.pending.targets ⊆ s.targets := by
  induction s with
  | doNothing => exact List.Subset.refl _
  | assign name expr => exact List.Subset.refl _
  | branch condition consequence alternative => exact List.Subset.refl _
  | seq first second ih => exact List.subset_append_of_subset_left _ ih
  | loop condition body => exact List.Subset.refl _

/-- A step binds only a name that the statement assigns. -/
theorem names_binding?_subset : Bindings.names s.binding?.toList ⊆ s.targets := by
  cases hb : s.binding? with
  | none => exact List.nil_subset _
  | some b =>
    obtain ⟨x, v⟩ := b
    have hsub : s.pending.targets ⊆ s.targets := s.targets_pending_subset
    rw [binding?_eq_some_iff.1 hb] at hsub
    exact hsub

end Stmt

/-- The statement that the next step of a term is about; expressions have none. -/
def Term.pending? : Term → Option Stmt
  | expr _ => none
  | stmt s => some s.pending

/-- The binding that the next step of a term makes, if it makes one. -/
def Term.binding? : Term → Option (String × Value)
  | expr _ => none
  | stmt s => s.binding?

/-- The next step of a term binds a name exactly when the assignment of a literal to it is
pending. -/
theorem Term.binding?_eq_some_iff {t : Term} {x : String} {v : Value} :
    t.binding? = some (x, v) ↔ t.pending? = some (.assign x (.literal v)) := by
  cases t with
  | expr e => simp [binding?, pending?]
  | stmt s => simp [binding?, pending?, Stmt.binding?_eq_some_iff]

/-! ### The bindings of a run -/

namespace State

variable {s t : State} {n : Nat}

/-- The bindings that the first steps of a run make, in order. -/
def bindings : Nat → State → Bindings
  | 0, _ => []
  | n + 1, s =>
    match s.step with
    | .error _ => []
    | .ok t => s.term.binding?.toList ++ bindings n t

/-- After a first step, the bindings of the others follow. -/
theorem bindings_succ (h : s.step = .ok t) :
    s.bindings (n + 1) = s.term.binding?.toList ++ t.bindings n := by
  rw [bindings, h]

/-- A step of a state makes its binding and changes nothing else in the environment. -/
theorem env_step (h : s.step = .ok t) : t.env = s.env.merge s.term.binding?.toList := by
  obtain ⟨term, env⟩ := s
  cases term with
  | expr e =>
    obtain ⟨e', -, rfl⟩ := exists_reduce_of_step_expr h
    rfl
  | stmt p =>
    obtain ⟨p', env', hred, rfl⟩ := exists_reduce_of_step_stmt h
    exact Stmt.env_of_reduce hred

/-- A run **lays its bindings over its environment**, and does nothing else to it. -/
theorem env_after (h : s.after n = .ok t) : t.env = s.env.merge (s.bindings n) := by
  induction n generalizing s with
  | zero =>
    obtain rfl : s = t := by simpa using h
    rfl
  | succ n ih =>
    obtain ⟨u, hu, hut⟩ := after_succ_eq_ok_iff.1 h
    rw [bindings_succ hu, Environment.merge_append, ← env_step hu]
    exact ih hut

/-- A step brings no new names to assign. -/
theorem targets_step_subset (h : s.step = .ok t) : t.term.targets ⊆ s.term.targets := by
  obtain ⟨⟨term', env'⟩, hred, rfl⟩ := Except.map_eq_ok_iff.1 h
  exact (Term.names_subset_of_reduce hred).2

/-- A run binds only names that its term assigns. -/
theorem names_bindings_subset (n : Nat) (s : State) :
    Bindings.names (s.bindings n) ⊆ s.term.targets := by
  induction n generalizing s with
  | zero => exact List.nil_subset _
  | succ n ih =>
    cases hs : s.step with
    | error f =>
      rw [bindings, hs]
      exact List.nil_subset _
    | ok t =>
      have hfirst : Bindings.names s.term.binding?.toList ⊆ s.term.targets := by
        cases s.term with
        | expr e => exact List.nil_subset _
        | stmt p => exact Stmt.names_binding?_subset
      have hrest : Bindings.names (t.bindings n) ⊆ s.term.targets :=
        List.Subset.trans (ih t) (targets_step_subset hs)
      rw [bindings_succ hs, Bindings.names, List.map_append]
      exact List.append_subset.2 ⟨hfirst, hrest⟩

/-- The run of an expression stays an expression and **does not touch the environment**. -/
theorem exists_eq_of_after_expr {e : Expr} {env : Environment}
    (h : after n ⟨.expr e, env⟩ = .ok t) : ∃ e', t = ⟨.expr e', env⟩ := by
  induction n generalizing e with
  | zero => exact ⟨e, (Except.ok.inj h).symm⟩
  | succ n ih =>
    obtain ⟨u, hu, hut⟩ := after_succ_eq_ok_iff.1 h
    obtain ⟨e', -, rfl⟩ := exists_reduce_of_step_expr hu
    exact ih hut

end State

/-! ### The bindings of an evaluation -/

namespace Stmt

variable {s t : Stmt} {env env' : Environment} {bs : Bindings} {n : Nat}

/-- Evaluation of a statement succeeds, and the assignments that it executes make these bindings,
one after the other. -/
inductive Executes : Stmt → Environment → Bindings → Prop
  | doNothing {env : Environment} : Executes doNothing env []
  | assign {name : String} {expr : Expr} {env : Environment} {value : Value} :
    expr.evaluate env = .ok value → Executes (assign name expr) env [(name, value)]
  | branch {condition : Expr} {consequence alternative : Stmt} {env : Environment} {truth : Bool}
      {bs : Bindings} :
    condition.holds env = .ok truth →
      Executes (if truth then consequence else alternative) env bs →
      Executes (branch condition consequence alternative) env bs
  | seq {first second : Stmt} {env : Environment} {bs cs : Bindings} :
    Executes first env bs → Executes second (env.merge bs) cs →
      Executes (seq first second) env (bs ++ cs)
  | loopExit {condition : Expr} {body : Stmt} {env : Environment} :
    condition.holds env = .ok false → Executes (loop condition body) env []
  | loopRound {condition : Expr} {body : Stmt} {env : Environment} {bs cs : Bindings} :
    condition.holds env = .ok true → Executes body env bs →
      Executes (loop condition body) (env.merge bs) cs →
      Executes (loop condition body) env (bs ++ cs)

/-- What a statement executes is **what it yields**, laid over the environment. -/
theorem Executes.yields (h : s.Executes env bs) : s.Yields env (.ok (env.merge bs)) := by
  induction h with
  | doNothing => exact ⟨0, rfl⟩
  | assign hv =>
    rw [yields_assign_iff, hv]
    rfl
  | branch ht _ ih => exact yields_branch_iff.2 (.inl ⟨_, ht, ih⟩)
  | seq _ _ ihf ihs =>
    rw [Environment.merge_append]
    exact yields_seq_iff.2 (.inl ⟨_, ihf, ihs⟩)
  | loopExit hfalse => exact yields_loop_iff.2 (.inl (.done hfalse))
  | loopRound htrue _ _ ihb ihl =>
    rw [Environment.merge_append]
    exact yields_loop_iff.2 (.inr ⟨htrue, _, ihb, ihl⟩)

/-- A step executes its binding before the others. -/
theorem Executes.of_step (h : s.Step env t env') (ht : t.Executes env' bs) :
    s.Executes env (s.binding?.toList ++ bs) := by
  induction h generalizing bs with
  | assignExpr hexpr =>
    rw [binding?_assign_of_reducible hexpr.reducible, Option.toList_none, List.nil_append]
    cases ht with
    | assign hv => exact .assign (hexpr.evaluate_eq ▸ hv)
  | assignLiteral =>
    cases ht with
    | doNothing => exact .assign rfl
  | branchCondition hcondition =>
    cases ht with
    | branch htruth hbranch =>
      have htruth' := hcondition.holds_eq ▸ htruth
      obtain rfl := hcondition.env_eq
      exact .branch htruth' hbranch
  | branchLiteral => exact .branch rfl ht
  | seqFirst hstep ih =>
    cases ht with
    | seq hfirst hsecond =>
      -- the second part is executed where the first one leaves off, before the step as after it
      rw [hstep.env_eq, ← Environment.merge_append] at hsecond
      rw [binding?_seq, ← List.append_assoc]
      exact .seq (ih hfirst) hsecond
  | seqDoNothing => exact .seq .doNothing ht
  | loop =>
    cases ht with
    | @branch _ _ _ _ truth _ htruth hbranch =>
      cases truth with
      | true =>
        cases hbranch with
        | seq hbody hrest =>
          have hround := Executes.loopRound htruth hbody hrest
          exact hround
      | false =>
        cases hbranch with
        | doNothing => exact .loopExit htruth

/-- Evaluation executes **the bindings of the run**, in the same order. -/
theorem executes_bindings (h : State.HaltsIn ⟨.stmt s, env⟩ n ⟨.stmt doNothing, env'⟩) :
    s.Executes env (State.bindings n ⟨.stmt s, env⟩) := by
  induction n generalizing s env with
  | zero =>
    obtain ⟨heq, -⟩ := State.haltsIn_zero_iff.1 h
    obtain ⟨hterm, rfl⟩ := State.mk.inj heq
    obtain rfl := Term.stmt.inj hterm
    exact .doNothing
  | succ n ih =>
    obtain ⟨hlive, u, hu, hhalt⟩ := State.haltsIn_succ_iff.1 h
    rw [State.bindings_succ hu]
    obtain ⟨s', env₁, hred, rfl⟩ := State.exists_reduce_of_step_stmt hu
    exact .of_step (step_of_reduce (State.terminal_eq_false_iff.1 hlive) hred) (ih hhalt)

end Stmt

/-! ### The frame -/

/-- What a program that assigns the names `targets` has made of an environment, by bindings laid
over it one after the other. -/
structure Environment.Framed (targets : List String) (env : Environment) (bs : Bindings)
    (env' : Environment) : Prop where
  /-- The bindings are all that has happened. -/
  eq_merge : env' = env.merge bs
  /-- No name has been dropped or moved. -/
  prefix_names : env.names <+: env'.names
  /-- New names stand in the order in which they are first bound. -/
  names_eq : env'.names = env.names ++ ((Bindings.names bs).filter (· ∉ env.names)).eraseDups
  /-- A name that is not assigned keeps its value, or stays unbound. -/
  get?_eq : ∀ x ∉ targets, env'.get? x = env.get? x

/-- Bindings of names that the program assigns stay within the frame. -/
theorem Environment.framed_merge {targets : List String} {bs : Bindings}
    (h : Bindings.names bs ⊆ targets) (env : Environment) :
    env.Framed targets bs (env.merge bs) where
  eq_merge := rfl
  prefix_names := by
    rw [names_merge]
    exact List.prefix_append _ _
  names_eq := names_merge env bs
  get?_eq := fun _ hx => get?_merge_of_notMem fun hmem => hx (h hmem)

/-- What a statement yields is the frame of the bindings that it executes, in a run as in an
evaluation. -/
theorem Stmt.Yields.exists_framed {s : Stmt} {env env' : Environment}
    (h : s.Yields env (.ok env')) :
    ∃ n bs, State.HaltsIn ⟨.stmt s, env⟩ n ⟨.stmt doNothing, env'⟩ ∧
      State.bindings n ⟨.stmt s, env⟩ = bs ∧ s.Executes env bs ∧
      env.Framed s.targets bs env' := by
  obtain ⟨n, hn⟩ := State.yields_ok_iff_exists_haltsIn.1 h
  have hmerge : env' = env.merge (State.bindings n ⟨.stmt s, env⟩) := State.env_after hn.after_eq
  have hnames : Bindings.names (State.bindings n ⟨.stmt s, env⟩) ⊆ s.targets :=
    State.names_bindings_subset n _
  have hframe := Environment.framed_merge hnames env
  rw [← hmerge] at hframe
  exact ⟨n, _, hn, rfl, executes_bindings hn, hframe⟩

/-- **A program does nothing to its environment but to bind the names that it assigns.**

* A step from a state of its run binds `x` to `v` when the assignment of the literal `v` to `x` is
  pending there, and in every other case it leaves the environment as it is, order included.
* The environment of every state of the run is within the frame of the bindings made up to there.
* Evaluation of a statement succeeds exactly with an overlay of the bindings that it executes.
  These are the bindings of the run, and the environment is within their frame.
* An expression leaves the environment as it is. -/
theorem Term.env_within_frame (t : Term) (env : Environment) :
    let s : State := ⟨t, env⟩
    (∀ n u v, s.after n = .ok u → u.step = .ok v →
      (∀ x value, u.term.pending? = some (.assign x (.literal value)) →
        v.env = u.env.bind x value) ∧
      ((∀ x value, u.term.pending? ≠ some (.assign x (.literal value))) → v.env = u.env)) ∧
    (∀ n u, s.after n = .ok u → env.Framed t.targets (s.bindings n) u.env) ∧
    (∀ p, t = .stmt p →
      (∀ env', Parity.BigStepsTo s (.environment env') ↔
        ∃ bs, p.Executes env bs ∧ env' = env.merge bs) ∧
      ∀ env', Parity.BigStepsTo s (.environment env') →
        ∃ n bs, s.HaltsIn n ⟨.stmt .doNothing, env'⟩ ∧ s.bindings n = bs ∧ p.Executes env bs ∧
          env.Framed t.targets bs env') ∧
    ∀ e, t = .expr e → ∀ n u, s.after n = .ok u → u.env = env := by
  intro s
  refine ⟨fun n u v _ hv => ⟨fun x value hpending => ?_, fun hother => ?_⟩, fun n u hu => ?_,
    fun p hp => ?_, fun e he n u hu => ?_⟩
  · rw [State.env_step hv, Term.binding?_eq_some_iff.2 hpending]
    rfl
  · have hnone : u.term.binding? = none := by
      refine Option.eq_none_iff_forall_ne_some.2 fun (x, value) hsome => ?_
      exact hother x value (Term.binding?_eq_some_iff.1 hsome)
    rw [State.env_step hv, hnone]
    rfl
  · rw [State.env_after hu]
    exact Environment.framed_merge (State.names_bindings_subset n s) env
  · subst hp
    refine ⟨fun env' => ⟨fun h => ?_, ?_⟩, fun env' h => ?_⟩
    · obtain ⟨n, bs, -, -, hexec, hframe⟩ := (Parity.bigStepsTo_iff_yields.1 h).exists_framed
      exact ⟨bs, hexec, hframe.eq_merge⟩
    · rintro ⟨bs, hexec, rfl⟩
      exact Parity.bigStepsTo_iff_yields.2 hexec.yields
    · exact (Parity.bigStepsTo_iff_yields.1 h).exists_framed
  · subst he
    obtain ⟨e', rfl⟩ := State.exists_eq_of_after_expr hu
    rfl

end WhileLang
