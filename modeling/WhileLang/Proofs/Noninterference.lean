import WhileLang.Proofs.Lockstep
import WhileLang.Proofs.Names
import WhileLang.Proofs.Overlay
import WhileLang.Parity

/-!
# Noninterference

What a program does depends on the names that it reads, and on nothing else in its environment.
Two environments that agree on these names may bind different names, and in different orders:
the runs from them go in lockstep. They go through the same terms, meet the same end, and lay
**one and the same overlay** over the two environments.

`Stmt.reduce_alike` says so of a single step. The relation that runs keep is `State.Overlaid`. It
has to remember that the names read and assigned are still those of the whole program, as the
overlay grows with every assignment.

The order of the bindings alone does not matter at all: equivalence of states is itself in
lockstep (`lockstep_equiv`).
-/

namespace WhileLang

open Environment (AgreeOn SameOverlay)

variable {env₁ env₂ : Environment}

/-! ### Single steps -/

/-- The same term, in two environments that one overlay of names among `ys` leads to. -/
def SameStep (ys : List String) (env₁ env₂ : Environment) {α : Type}
    (p q : α × Environment) : Prop :=
  p.1 = q.1 ∧ SameOverlay ys env₁ env₂ p.2 q.2

/-- A step of an expression depends only on the names that the expression reads, and lays nothing
over the environments. -/
theorem Expr.reduce_alike {e : Expr} (h : AgreeOn e.reads env₁ env₂) :
    (e.reduce env₁).Alike (SameStep [] env₁ env₂) (e.reduce env₂) := by
  induction e using redexInduction with
  | literal v => exact .ok ⟨rfl, .refl ..⟩
  | var name =>
    rw [reduce, reduce, h.lookup_eq List.mem_cons_self]
    exact Except.alike_map_map _ fun v => ⟨rfl, .refl ..⟩
  | left op left right hl ih =>
    have hleft : AgreeOn left.reads env₁ env₂ := h.mono (List.subset_append_left _ _)
    rw [reduce_binary_left hl, reduce_binary_left hl]
    refine (ih hleft).map fun p q hpq => ⟨?_, hpq.2⟩
    exact congrArg (fun left' => binary op left' right) hpq.1
  | right op a right hr ih =>
    have hright : AgreeOn right.reads env₁ env₂ := h
    rw [reduce_binary_right hr, reduce_binary_right hr]
    exact (ih hright).map fun p q hpq => ⟨congrArg (binary op (.literal a)) hpq.1, hpq.2⟩
  | apply op a b =>
    rw [reduce_binary_literal, reduce_binary_literal]
    exact Except.alike_map_map _ fun v => ⟨rfl, .refl ..⟩

/-- A step of a statement depends only on the names that the statement reads, and **lays the same
overlay** over environments that agree on these. -/
theorem Stmt.reduce_alike {s : Stmt} (h : AgreeOn s.reads env₁ env₂) :
    (s.reduce env₁).Alike (SameStep s.targets env₁ env₂) (s.reduce env₂) := by
  induction s using redexInduction with
  | doNothing => exact .ok ⟨rfl, .refl ..⟩
  | assignExpr name expr he =>
    rw [reduce_assign_expr he, reduce_assign_expr he]
    refine (Expr.reduce_alike h).map fun p q hpq => ⟨?_, hpq.2.mono (List.nil_subset _)⟩
    exact congrArg (assign name) hpq.1
  | assignLiteral name v =>
    rw [reduce_assign_literal, reduce_assign_literal]
    exact .ok ⟨rfl, .bind List.mem_cons_self ..⟩
  | branchCondition condition consequence alternative hc =>
    have hcond : AgreeOn condition.reads env₁ env₂ := h.mono (List.subset_append_left _ _)
    rw [reduce_branch_condition hc, reduce_branch_condition hc]
    refine (Expr.reduce_alike hcond).map fun p q hpq => ⟨?_, hpq.2.mono (List.nil_subset _)⟩
    exact congrArg (fun c => branch c consequence alternative) hpq.1
  | branchLiteral v consequence alternative =>
    rw [reduce_branch_literal, reduce_branch_literal]
    exact Except.alike_map_map _ fun truth => ⟨rfl, .refl ..⟩
  | seqFirst first second hf ih =>
    have hfirst : AgreeOn first.reads env₁ env₂ := h.mono (List.subset_append_left _ _)
    rw [reduce_seq_first hf, reduce_seq_first hf]
    refine (ih hfirst).map fun p q hpq => ⟨?_, hpq.2.mono (List.subset_append_left _ _)⟩
    exact congrArg (fun first' => seq first' second) hpq.1
  | seqDoNothing second => exact .ok ⟨rfl, .refl ..⟩
  | loop condition body => exact .ok ⟨rfl, .refl ..⟩

/-- A step of a term depends only on the names that the term reads, and lays the same overlay over
environments that agree on these. -/
theorem Term.reduce_alike {t : Term} (h : AgreeOn t.reads env₁ env₂) :
    (t.reduce env₁).Alike (SameStep t.targets env₁ env₂) (t.reduce env₂) := by
  cases t with
  | expr e =>
    have halike := Expr.reduce_alike (e := e) h
    exact halike.map fun p q hpq => ⟨congrArg expr hpq.1, hpq.2⟩
  | stmt s =>
    have halike := Stmt.reduce_alike (s := s) h
    exact halike.map fun p q hpq => ⟨congrArg stmt hpq.1, hpq.2⟩

/-! ### Runs -/

/-- Two states of a program that reads the names `xs` and assigns the names `ys`, in environments
that one overlay leads to. -/
structure State.Overlaid (xs ys : List String) (env₁ env₂ : Environment) (s t : State) :
    Prop where
  term_eq : s.term = t.term
  reads_subset : s.term.reads ⊆ xs
  targets_subset : s.term.targets ⊆ ys
  env : SameOverlay ys env₁ env₂ s.env t.env

/-- At its start, a program has assigned nothing. -/
theorem State.Overlaid.start (t : Term) (env₁ env₂ : Environment) :
    Overlaid t.reads t.targets env₁ env₂ ⟨t, env₁⟩ ⟨t, env₂⟩ :=
  ⟨rfl, List.Subset.refl _, List.Subset.refl _, .refl ..⟩

/-- **Runs lay the same overlay**, step by step, over environments that agree on the names
read. -/
theorem lockstep_overlaid {xs : List String} (h : AgreeOn xs env₁ env₂) (ys : List String) :
    Lockstep (State.Overlaid xs ys env₁ env₂) where
  terminal_eq hst := by rw [State.terminal, State.terminal, hst.term_eq]
  step := by
    rintro ⟨t, e⟩ ⟨_, f⟩ ⟨⟨⟩, hvars, htargets, henv⟩
    have hagree : AgreeOn t.reads e f := (henv.agreeOn h).mono hvars
    refine (Term.reduce_alike hagree).of_eq_ok.map fun p q hpq => ?_
    obtain ⟨hred, hterm, hoverlay⟩ := hpq
    -- the names are still those of the program, and the new overlay comes on top of the old one
    obtain ⟨hvars', htargets'⟩ := Term.names_subset_of_reduce hred
    exact ⟨hterm, List.Subset.trans hvars' hvars, List.Subset.trans htargets' htargets,
      henv.trans (hoverlay.mono htargets)⟩

/-- **The order of bindings does not matter** to a run. -/
theorem lockstep_equiv : Lockstep fun s t => s ≈ t where
  terminal_eq := by
    rintro s t ⟨hterm, -⟩
    rw [State.terminal, State.terminal, hterm]
  step := by
    rintro ⟨t, e⟩ ⟨_, f⟩ ⟨⟨⟩, henv⟩
    have hagree : AgreeOn t.reads e f := Environment.agreeOn_of_equiv henv _
    exact (Term.reduce_alike hagree).map fun p q hpq => ⟨hpq.1, hpq.2.equiv henv⟩

/-! ### Results -/

/-- States with the same term have the same value, or else their environments, for an
outcome. -/
theorem State.outcome_alike {Q : Outcome → Outcome → Prop} {s t : State} (h : s.term = t.term)
    (hvalue : ∀ v, Q (.value v) (.value v)) (henv : Q (.environment s.env) (.environment t.env)) :
    s.outcome.Alike Q t.outcome := by
  obtain ⟨term, e⟩ := s
  obtain ⟨_, f⟩ := t
  obtain rfl : term = _ := h
  cases term with
  | expr e => exact Except.alike_map_map _ hvalue
  | stmt s => exact .ok henv

/-- The same value, or the two environments under the same overlay. -/
inductive Outcome.Overlaid (env₁ env₂ : Environment) : Outcome → Outcome → Prop
  | value (v : Value) : Overlaid env₁ env₂ (.value v) (.value v)
  | environment (bs : Bindings) :
    Overlaid env₁ env₂ (.environment (env₁.merge bs)) (.environment (env₂.merge bs))

theorem State.Overlaid.outcome {xs ys : List String} {s t : State}
    (h : Overlaid xs ys env₁ env₂ s t) :
    s.outcome.Alike (Outcome.Overlaid env₁ env₂) t.outcome := by
  obtain ⟨bs, -, he, hf⟩ := h.env
  refine outcome_alike h.term_eq .value ?_
  rw [he, hf]
  exact .environment bs

/-- Evaluation lays the same overlay over environments that agree on the names read. -/
theorem Term.evaluate_overlaid {t : Term} (h : AgreeOn t.reads env₁ env₂) {fuel : Nat}
    {r : Except Fault Outcome} (hr : t.evaluate fuel env₁ = some r) :
    ∃ fuel' r', t.evaluate fuel' env₂ = some r' ∧ r.Alike (Outcome.Overlaid env₁ env₂) r' :=
  (lockstep_overlaid h t.targets).evaluate (fun huv _ => huv.outcome) (.start t env₁ env₂) hr

/-! ### Main statement -/

/-- At every number of steps, the runs from environments that agree on the names read are in the
same term, under the same overlay, or have failed at the same step with the same fault. -/
theorem Term.after_overlaid_or_failsIn {t : Term} (h : AgreeOn t.reads env₁ env₂) (k : Nat) :
    (∃ u bs, State.after k ⟨t, env₁⟩ = .ok ⟨u, env₁.merge bs⟩ ∧
        State.after k ⟨t, env₂⟩ = .ok ⟨u, env₂.merge bs⟩) ∨
      ∃ n u₁ u₂ f, n < k ∧ State.FailsIn ⟨t, env₁⟩ n u₁ f ∧ State.FailsIn ⟨t, env₂⟩ n u₂ f := by
  have hlock := lockstep_overlaid h t.targets
  have hstart := State.Overlaid.start t env₁ env₂
  cases hk : State.after k ⟨t, env₁⟩ with
  | ok u₁ =>
    obtain ⟨u₂, hu₂, hover⟩ := hlock.exists_after hstart hk
    obtain ⟨u, e₁⟩ := u₁
    obtain ⟨_, e₂⟩ := u₂
    obtain ⟨rfl, -, -, bs, -, rfl, rfl⟩ := hover
    exact .inl ⟨u, bs, rfl, hu₂⟩
  | error f =>
    obtain ⟨n, hn, u₁, hu₁⟩ := State.exists_failsIn_of_after_eq_error hk
    obtain ⟨u₂, hu₂, -⟩ := hlock.failsIn hstart hu₁
    exact .inr ⟨n, u₁, u₂, f, hn, hu₁, hu₂⟩

/-- Evaluation finishes alike in environments that agree on the names read, or in neither. -/
theorem Term.evaluate_cases_of_agreeOn {t : Term} (h : AgreeOn t.reads env₁ env₂) :
    (∃ fuel v, t.evaluate fuel env₁ = some (.ok (.value v)) ∧
        t.evaluate fuel env₂ = some (.ok (.value v))) ∨
      (∃ fuel f, t.evaluate fuel env₁ = some (.error f) ∧
        t.evaluate fuel env₂ = some (.error f)) ∨
      (∃ fuel bs, t.evaluate fuel env₁ = some (.ok (.environment (env₁.merge bs))) ∧
        t.evaluate fuel env₂ = some (.ok (.environment (env₂.merge bs)))) ∨
      ∀ fuel, t.evaluate fuel env₁ = none ∧ t.evaluate fuel env₂ = none := by
  by_cases hfin : ∃ fuel r, t.evaluate fuel env₁ = some r
  · obtain ⟨fuel, r, hr⟩ := hfin
    obtain ⟨fuel', r', hr', halike⟩ := evaluate_overlaid h hr
    -- the same fuel has to do in both environments
    have hmax := evaluate_mono (Nat.le_max_left fuel fuel') hr
    have hmax' := evaluate_mono (Nat.le_max_right fuel fuel') hr'
    cases halike with
    | error f => exact .inr (.inl ⟨_, f, hmax, hmax'⟩)
    | ok hover =>
      cases hover with
      | value v => exact .inl ⟨_, v, hmax, hmax'⟩
      | environment bs => exact .inr (.inr (.inl ⟨_, bs, hmax, hmax'⟩))
  · refine .inr (.inr (.inr fun fuel => ⟨?_, ?_⟩))
    · exact Option.eq_none_iff_forall_ne_some.2 fun r hr => hfin ⟨fuel, r, hr⟩
    · refine Option.eq_none_iff_forall_ne_some.2 fun r hr => ?_
      obtain ⟨fuel', r', hr', -⟩ := evaluate_overlaid h.symm hr
      exact hfin ⟨fuel', r', hr'⟩

/-- **A program depends on the names that it reads, and on nothing else.**

From two environments that agree on these names,

* the runs go in lockstep: at every number of steps both are in the same term, with one and the
  same overlay over the two environments, or both have failed, at the same step and with the same
  fault;
* evaluation finishes with the same value, with the same fault, or with the two environments under
  the same overlay, or it finishes for neither.

If the environments bind the same, in whatever order, then the iterates are the same up to that
order, the runs halt and fail after the same numbers of steps, machines with any settings have
alike replies and the same counter, and evaluation has the same results up to that order. -/
theorem Term.noninterference (t : Term) (env₁ env₂ : Environment) :
    let s₁ : State := ⟨t, env₁⟩
    let s₂ : State := ⟨t, env₂⟩
    (AgreeOn t.reads env₁ env₂ →
      (∀ k,
        (∃ u bs, s₁.after k = .ok ⟨u, env₁.merge bs⟩ ∧ s₂.after k = .ok ⟨u, env₂.merge bs⟩) ∨
          ∃ n u₁ u₂ f, n < k ∧ s₁.FailsIn n u₁ f ∧ s₂.FailsIn n u₂ f) ∧
      ((∃ fuel v, Parity.bigStep fuel s₁ = some (.ok (.value v)) ∧
          Parity.bigStep fuel s₂ = some (.ok (.value v))) ∨
        (∃ fuel f, Parity.bigStep fuel s₁ = some (.error f) ∧
          Parity.bigStep fuel s₂ = some (.error f)) ∨
        (∃ fuel bs, Parity.bigStep fuel s₁ = some (.ok (.environment (env₁.merge bs))) ∧
          Parity.bigStep fuel s₂ = some (.ok (.environment (env₂.merge bs)))) ∨
        ∀ fuel, Parity.bigStep fuel s₁ = none ∧ Parity.bigStep fuel s₂ = none)) ∧
    (env₁ ≈ env₂ →
      (∀ k, (s₁.after k).Alike (fun u₁ u₂ => u₁ ≈ u₂) (s₂.after k)) ∧
      (∀ n, (∃ u, s₁.HaltsIn n u) ↔ ∃ u, s₂.HaltsIn n u) ∧
      (∀ n f, (∃ u, s₁.FailsIn n u f) ↔ ∃ u, s₂.FailsIn n u f) ∧
      (∀ settings r₁, (Machine.start settings s₁).RunsTo r₁ →
        ∃ r₂, (Machine.start settings s₂).RunsTo r₂ ∧
          r₁.machine.steps = r₂.machine.steps ∧
          r₁.result.Alike (fun u₁ u₂ => u₁ ≈ u₂) r₂.result) ∧
      ∀ fuel r₁, Parity.bigStep fuel s₁ = some r₁ →
        ∃ fuel' r₂, Parity.bigStep fuel' s₂ = some r₂ ∧
          r₁.Alike (fun o₁ o₂ => o₁ ≈ o₂) r₂) := by
  intro s₁ s₂
  refine ⟨fun h => ⟨Term.after_overlaid_or_failsIn h, Term.evaluate_cases_of_agreeOn h⟩,
    fun h => ?_⟩
  have hs : s₁ ≈ s₂ := ⟨rfl, h⟩
  refine ⟨lockstep_equiv.after hs, fun n => lockstep_equiv.exists_haltsIn_iff hs,
    fun n f => lockstep_equiv.exists_failsIn_iff hs, fun settings r₁ hr₁ => ?_,
    fun fuel r₁ hr₁ => ?_⟩
  · obtain ⟨r₂, hr₂, hbeside, halike⟩ := lockstep_equiv.run (.start hs settings) hr₁
    exact ⟨r₂, hr₂, hbeside.steps_eq, halike⟩
  · refine lockstep_equiv.evaluate (fun huv _ => ?_) hs hr₁
    exact State.outcome_alike huv.1 (fun v => Setoid.refl _) huv.2

/-- A loop that adds `d` to `x`: in two environments that differ in a name that it does not read,
and in two that differ only in the order of their bindings. -/
theorem noninterference_counting_loop :
    let loop : Term := .stmt (.loop (.binary .lessThan (.var "x") (.literal (.number 2)))
      (.assign "x" (.binary .add (.var "x") (.var "d"))))
    let env₁ : Environment := .ofList [("x", .number 1), ("d", .number 1)]
    let env₂ : Environment := .ofList [("y", .bool true), ("d", .number 1), ("x", .number 1)]
    let env₃ : Environment := .ofList [("d", .number 1), ("x", .number 1)]
    let last : Outcome := .environment (.ofList [("x", .number 2), ("d", .number 1)])
    (AgreeOn loop.reads env₁ env₂ ∧ ¬env₁ ≈ env₂ ∧
      ∃ bs, State.after 13 ⟨loop, env₁⟩ = .ok ⟨.stmt .doNothing, env₁.merge bs⟩ ∧
        State.after 13 ⟨loop, env₂⟩ = .ok ⟨.stmt .doNothing, env₂.merge bs⟩) ∧
    env₁ ≈ env₃ ∧ env₁ ≠ env₃ ∧
      ∃ fuel r, Parity.bigStep fuel ⟨loop, env₃⟩ = some r ∧
        Except.Alike (fun o₁ o₂ => o₁ ≈ o₂) (.ok last) r := by
  intro loop env₁ env₂ env₃ last
  have hagree : AgreeOn loop.reads env₁ env₂ := by decide
  have hequiv : env₁ ≈ env₃ := by decide
  have hlast : State.after 13 ⟨loop, env₁⟩ = .ok ⟨.stmt .doNothing, _⟩ := rfl
  obtain ⟨hruns, -⟩ := (Term.noninterference loop env₁ env₂).1 hagree
  obtain ⟨-, -, -, -, heval⟩ := (Term.noninterference loop env₁ env₃).2 hequiv
  refine ⟨⟨hagree, by decide, ?_⟩, hequiv, by decide, heval 2 (.ok last) rfl⟩
  rcases hruns 13 with ⟨u, bs, hu₁, hu₂⟩ | ⟨n, u₁, u₂, f, hn, hfail, -⟩
  · obtain rfl : Term.stmt .doNothing = u :=
      congrArg State.term (Except.ok.inj (hlast.symm.trans hu₁))
    exact ⟨bs, hu₁, hu₂⟩
  · cases hlast.symm.trans (hfail.after_eq_error hn)

end WhileLang
