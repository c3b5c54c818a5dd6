import WhileLang.Parity
import WhileLang.Proofs.Budget
import WhileLang.Proofs.Names
import WhileLang.Proofs.Simulation

/-!
# Well-kinded programs

A map `K` fixes the kind of value that each name is to have. A program is **well-kinded** for `K`
when its operators have numbers for operands, its conditions are truth values, and it assigns to
each name expressions of the kind of that name. An environment **fits** a list of names when it
binds each of them to a value of its kind.

A well-kinded program never fails in an environment that fits the names that it reads
(`Term.never_fails_of_wellKinded`). Progress and preservation are one statement here,
`State.WellKinded.exists_step`: a well-kinded state can step, and its next state is well-kinded.
Names that the program assigns and never reads need not be bound at all.
-/

namespace WhileLang

variable {K : String → Kind} {env : Environment}

/-! ### Kinds of expressions -/

/-- The kind of value that an operator gives. -/
def Operator.resultKind : Operator → Kind
  | add => .number
  | multiply => .number
  | lessThan => .bool

/-- Between two numbers an operator has a result, and it is of the result kind. -/
theorem Operator.exists_apply_eq_ok (op : Operator) {a b : Value} (ha : a.kind = .number)
    (hb : b.kind = .number) : ∃ v, op.apply a b = .ok v ∧ v.kind = op.resultKind := by
  obtain ⟨m, rfl⟩ := Value.kind_eq_number_iff.1 ha
  obtain ⟨n, rfl⟩ := Value.kind_eq_number_iff.1 hb
  exact ⟨op.onNumbers m n, rfl, by cases op <;> rfl⟩

/-- A truth value can be taken for a condition. -/
theorem Value.exists_truth_eq_ok {v : Value} (h : v.kind = .bool) : ∃ b, v.truth = .ok b := by
  obtain ⟨b, rfl⟩ := kind_eq_bool_iff.1 h
  exact ⟨b, rfl⟩

/-- An expression has a kind: a literal that of its value, a variable that of its name, and an
operator between two numbers its result kind. -/
def Expr.HasKind (K : String → Kind) : Expr → Kind → Prop
  | literal v, k => v.kind = k
  | var name, k => K name = k
  | binary op left right, k =>
    left.HasKind K .number ∧ right.HasKind K .number ∧ op.resultKind = k

instance Expr.decidableHasKind (K : String → Kind) :
    (e : Expr) → (k : Kind) → Decidable (e.HasKind K k)
  | literal v, k => inferInstanceAs (Decidable (v.kind = k))
  | var name, k => inferInstanceAs (Decidable (K name = k))
  | binary op left right, k =>
    have := decidableHasKind K left .number
    have := decidableHasKind K right .number
    inferInstanceAs (Decidable (_ ∧ _ ∧ op.resultKind = k))

/-- The environment binds each of the names to a value of its kind. -/
def Environment.Fits (K : String → Kind) (env : Environment) (xs : List String) : Prop :=
  ∀ x ∈ xs, ∃ v, env.get? x = some v ∧ v.kind = K x

theorem Environment.Fits.mono {xs ys : List String} (h : env.Fits K ys) (hsub : xs ⊆ ys) :
    env.Fits K xs :=
  fun x hx => h x (hsub hx)

/-- Binding a name to a value of its kind keeps the fit. -/
theorem Environment.Fits.bind {xs : List String} (h : env.Fits K xs) {name : String} {v : Value}
    (hv : v.kind = K name) : (env.bind name v).Fits K xs := by
  intro x hx
  rw [get?_bind]
  split
  · rename_i heq
    exact ⟨v, rfl, heq ▸ hv⟩
  · exact h x hx

namespace Expr

variable {e : Expr} {k : Kind}

/-- An expression with a kind **can step, and keeps its kind** and the environment, if the
environment fits the names that it reads. -/
theorem HasKind.exists_reduce (h : e.HasKind K k) (henv : env.Fits K e.reads) :
    ∃ e', e.reduce env = .ok (e', env) ∧ e'.HasKind K k := by
  induction e using redexInduction generalizing k with
  | literal v => exact ⟨literal v, rfl, h⟩
  | var name =>
    obtain ⟨v, hv, hkind⟩ := henv name List.mem_cons_self
    refine ⟨literal v, ?_, hkind.trans h⟩
    rw [reduce, Environment.lookup_eq_ok_iff.2 hv]
    rfl
  | left op left right hl ih =>
    obtain ⟨hleft, hright, hop⟩ := h
    obtain ⟨left', hred, hleft'⟩ := ih hleft (henv.mono (List.subset_append_left _ _))
    refine ⟨binary op left' right, ?_, hleft', hright, hop⟩
    rw [reduce_binary_left hl, hred]
    rfl
  | right op a right hr ih =>
    obtain ⟨ha, hright, hop⟩ := h
    obtain ⟨right', hred, hright'⟩ := ih hright henv
    refine ⟨binary op (literal a) right', ?_, ha, hright', hop⟩
    rw [reduce_binary_right hr, hred]
    rfl
  | apply op a b =>
    obtain ⟨ha, hb, rfl⟩ := h
    obtain ⟨v, hv, hkind⟩ := op.exists_apply_eq_ok ha hb
    refine ⟨literal v, ?_, hkind⟩
    rw [reduce_binary_literal, hv]
    rfl

/-- An expression with a kind **has a value of that kind**, in an environment that fits the names
that it reads. -/
theorem HasKind.exists_evaluate (h : e.HasKind K k) (henv : env.Fits K e.reads) :
    ∃ v, e.evaluate env = .ok v ∧ v.kind = k := by
  induction e generalizing k with
  | literal v => exact ⟨v, rfl, h⟩
  | var name =>
    obtain ⟨v, hv, hkind⟩ := henv name List.mem_cons_self
    exact ⟨v, Environment.lookup_eq_ok_iff.2 hv, hkind.trans h⟩
  | binary op left right ihl ihr =>
    obtain ⟨hleft, hright, rfl⟩ := h
    obtain ⟨a, ha, hakind⟩ := ihl hleft (henv.mono (List.subset_append_left _ _))
    obtain ⟨b, hb, hbkind⟩ := ihr hright (henv.mono (List.subset_append_right _ _))
    obtain ⟨v, hv, hkind⟩ := op.exists_apply_eq_ok hakind hbkind
    refine ⟨v, ?_, hkind⟩
    rw [evaluate, ha, hb]
    exact hv

end Expr

/-! ### Well-kinded statements -/

namespace Stmt

/-- Each name is assigned expressions of its kind, and the conditions are truth values. -/
def WellKinded (K : String → Kind) : Stmt → Prop
  | doNothing => True
  | assign name expr => expr.HasKind K (K name)
  | branch condition consequence alternative =>
    condition.HasKind K .bool ∧ consequence.WellKinded K ∧ alternative.WellKinded K
  | seq first second => first.WellKinded K ∧ second.WellKinded K
  | loop condition body => condition.HasKind K .bool ∧ body.WellKinded K

instance decidableWellKinded (K : String → Kind) : (s : Stmt) → Decidable (s.WellKinded K)
  | doNothing => isTrue trivial
  | assign name expr => inferInstanceAs (Decidable (expr.HasKind K (K name)))
  | branch condition consequence alternative =>
    have := decidableWellKinded K consequence
    have := decidableWellKinded K alternative
    inferInstanceAs (Decidable (condition.HasKind K .bool ∧ _ ∧ _))
  | seq first second =>
    have := decidableWellKinded K first
    have := decidableWellKinded K second
    inferInstanceAs (Decidable (_ ∧ _))
  | loop condition body =>
    have := decidableWellKinded K body
    inferInstanceAs (Decidable (condition.HasKind K .bool ∧ _))

/-- A well-kinded loop is well-kinded written out. -/
theorem WellKinded.unrolled {condition : Expr} {body : Stmt}
    (h : (loop condition body).WellKinded K) : (unrolled condition body).WellKinded K :=
  ⟨h.1, ⟨h.2, h⟩, trivial⟩

/-- A well-kinded statement **can step and stays well-kinded**, in an environment that fits the
names that it reads. Whatever names the environment fits, it still fits after the step. -/
theorem WellKinded.exists_reduce {s : Stmt} (h : s.WellKinded K) (henv : env.Fits K s.reads) :
    ∃ t env', s.reduce env = .ok (t, env') ∧ t.WellKinded K ∧
      ∀ xs, env.Fits K xs → env'.Fits K xs := by
  induction s using redexInduction with
  | doNothing => exact ⟨doNothing, env, rfl, trivial, fun _ => id⟩
  | assignExpr name expr he =>
    obtain ⟨expr', hred, hkind⟩ := Expr.HasKind.exists_reduce (e := expr) h henv
    refine ⟨assign name expr', env, ?_, hkind, fun _ => id⟩
    rw [reduce_assign_expr he, hred]
    rfl
  | assignLiteral name v =>
    have hv : v.kind = K name := h
    exact ⟨doNothing, env.bind name v, reduce_assign_literal, trivial, fun _ hxs => hxs.bind hv⟩
  | branchCondition condition consequence alternative hc =>
    obtain ⟨hcond, hparts⟩ := h
    obtain ⟨condition', hred, hkind⟩ :=
      hcond.exists_reduce (henv.mono (List.subset_append_left _ _))
    refine ⟨branch condition' consequence alternative, env, ?_, ⟨hkind, hparts⟩, fun _ => id⟩
    rw [reduce_branch_condition hc, hred]
    rfl
  | branchLiteral v consequence alternative =>
    obtain ⟨hv, hcons, halt⟩ := h
    obtain ⟨truth, htruth⟩ := Value.exists_truth_eq_ok hv
    have hparts : (if truth then consequence else alternative).WellKinded K := by
      cases truth with
      | true => exact hcons
      | false => exact halt
    refine ⟨_, env, ?_, hparts, fun _ => id⟩
    rw [reduce_branch_literal, htruth]
    rfl
  | seqFirst first second hf ih =>
    obtain ⟨hfirst, hsecond⟩ := h
    obtain ⟨first', env', hred, hfirst', hfits⟩ :=
      ih hfirst (henv.mono (List.subset_append_left _ _))
    refine ⟨seq first' second, env', ?_, ⟨hfirst', hsecond⟩, hfits⟩
    rw [reduce_seq_first hf, hred]
    rfl
  | seqDoNothing second => exact ⟨second, env, reduce_seq_doNothing, h.2, fun _ => id⟩
  | loop condition body => exact ⟨_, env, reduce_loop, h.unrolled, fun _ => id⟩

end Stmt

/-! ### Well-kinded states -/

/-- An expression is well-kinded if it has a kind. -/
def Term.WellKinded (K : String → Kind) : Term → Prop
  | expr e => ∃ k, e.HasKind K k
  | stmt s => s.WellKinded K

/-- A well-kinded term can step and stays well-kinded, in an environment that fits the names that it
reads, and fits all the names after it that it fits before. -/
theorem Term.WellKinded.exists_reduce {t : Term} (h : t.WellKinded K) (henv : env.Fits K t.reads) :
    ∃ u env', t.reduce env = .ok (u, env') ∧ u.WellKinded K ∧
      ∀ xs, env.Fits K xs → env'.Fits K xs := by
  cases t with
  | expr e =>
    obtain ⟨k, hkind⟩ := h
    obtain ⟨e', hred, hkind'⟩ := hkind.exists_reduce henv
    refine ⟨expr e', env, ?_, ⟨k, hkind'⟩, fun _ => id⟩
    rw [reduce, hred]
    rfl
  | stmt s =>
    obtain ⟨s', env', hred, hs', hfits⟩ := Stmt.WellKinded.exists_reduce h henv
    refine ⟨stmt s', env', ?_, hs', hfits⟩
    rw [reduce, hred]
    rfl

namespace State

/-- The term is well-kinded, and the environment fits the names that it reads. -/
structure WellKinded (K : String → Kind) (s : State) : Prop where
  term : s.term.WellKinded K
  fits : s.env.Fits K s.term.reads

variable {s t : State} {n : Nat} {f : Fault}

/-- **Progress and preservation**: a well-kinded state steps to a well-kinded state. -/
theorem WellKinded.exists_step (h : s.WellKinded K) : ∃ t, s.step = .ok t ∧ t.WellKinded K := by
  obtain ⟨u, env', hred, hu, hfits⟩ := h.term.exists_reduce h.fits
  obtain ⟨hvars, -⟩ := Term.names_subset_of_reduce hred
  refine ⟨⟨u, env'⟩, ?_, hu, (hfits _ h.fits).mono hvars⟩
  rw [step, hred]
  rfl

/-- A well-kinded state has all iterates, and they are well-kinded. -/
theorem WellKinded.exists_after (h : s.WellKinded K) (n : Nat) :
    ∃ t, s.after n = .ok t ∧ t.WellKinded K := by
  induction n with
  | zero => exact ⟨s, rfl, h⟩
  | succ n ih =>
    obtain ⟨t, ht, hkinded⟩ := ih
    obtain ⟨u, hu, hkinded'⟩ := hkinded.exists_step
    exact ⟨u, (after_succ ht).trans hu, hkinded'⟩

/-- The run of a well-kinded state does not fail. -/
theorem WellKinded.not_failsIn (h : s.WellKinded K) : ¬s.FailsIn n t f := by
  intro hfail
  obtain ⟨u, hu, -⟩ := h.exists_after (n + 1)
  cases hu.symm.trans (hfail.after_eq_error n.lt_succ_self)

/-- A machine in a well-kinded state **fails only for its budget**. -/
theorem WellKinded.exists_exhausted {m : Machine} (h : m.state.WellKinded K) {r : Reply State}
    (hr : m.RunsTo r) {stop : Stop} (hres : r.result = .error stop) :
    ∃ limit, m.settings.limit = some limit ∧ stop = .exhausted limit := by
  obtain ⟨n, -, ⟨t, -, -, hok⟩ | ⟨t, f, hfail, -⟩ | ⟨limit, hlimit, -, -, herr⟩⟩ := hr.ends
  · cases hok.symm.trans hres
  · exact absurd hfail h.not_failsIn
  · exact ⟨limit, hlimit, Except.error.inj (hres.symm.trans herr)⟩

/-- Evaluation of a well-kinded state does not find a fault. -/
theorem WellKinded.evaluate_ne_error (h : s.WellKinded K) (fuel : Nat) (f : Fault) :
    s.term.evaluate fuel s.env ≠ some (.error f) := by
  intro hev
  obtain ⟨n, t, hfail⟩ := exists_failsIn_iff.2 ⟨fuel, hev⟩
  exact h.not_failsIn hfail

/-- The run of an expression with a value halts with that value. -/
theorem exists_haltsIn_literal {e : Expr} {v : Value} (h : e.evaluate env = .ok v) :
    ∃ n t, HaltsIn ⟨.expr e, env⟩ n t ∧ t.term = .expr (.literal v) :=
  ⟨e.steps env, exists_haltsIn_steps h⟩

end State

/-- **Well-kinded programs never fail.** Let a term be well-kinded, and let the environment bind
each name that it reads to a value of its kind.

* The run has a state at every number of steps. That state is well-kinded, and it is terminal or
  steps to a well-kinded state.
* An expression comes to a value of its kind, in its run and in evaluation.
* A run of a machine in any of these states fails only if its budget is spent.
* Evaluation finds no fault. -/
theorem Term.never_fails_of_wellKinded {t : Term} (ht : t.WellKinded K)
    (henv : env.Fits K t.reads) :
    let s : State := ⟨t, env⟩
    (∀ n, ∃ u, s.after n = .ok u ∧ u.WellKinded K ∧
      (u.terminal = true ∨ ∃ v, u.step = .ok v ∧ v.WellKinded K)) ∧
    (∀ e k, t = .expr e → e.HasKind K k →
      ∃ v, v.kind = k ∧ e.evaluate env = .ok v ∧
        ∃ n u, s.HaltsIn n u ∧ u.term = .expr (.literal v)) ∧
    (∀ n (m : Machine) r stop, s.after n = .ok m.state → m.RunsTo r → r.result = .error stop →
      ∃ limit, m.settings.limit = some limit ∧ stop = .exhausted limit) ∧
    ∀ fuel f, Parity.bigStep fuel s ≠ some (.error f) := by
  intro s
  have hs : s.WellKinded K := ⟨ht, henv⟩
  refine ⟨fun n => ?_, fun e k he hkind => ?_, fun n m r stop hm hr hres => ?_,
    hs.evaluate_ne_error⟩
  · obtain ⟨u, hu, hkinded⟩ := hs.exists_after n
    exact ⟨u, hu, hkinded, .inr hkinded.exists_step⟩
  · subst he
    obtain ⟨v, hv, hvkind⟩ := hkind.exists_evaluate henv
    exact ⟨v, hvkind, hv, State.exists_haltsIn_literal hv⟩
  · obtain ⟨u, hu, hkinded⟩ := hs.exists_after n
    obtain rfl := Except.ok.inj (hm.symm.trans hu)
    exact hkinded.exists_exhausted hr hres

/-- A loop that triples a number and notes whether it is small: it never fails, although what it
notes is not bound at the start. -/
theorem never_fails_tripling_loop :
    let K : String → Kind := fun x => if x = "small" then .bool else .number
    let body : Stmt := .seq (.assign "x" (.binary .multiply (.var "x") (.literal (.number 3))))
      (.assign "small" (.binary .lessThan (.var "x") (.literal (.number 5))))
    let loop : Stmt := .loop (.binary .lessThan (.var "x") (.literal (.number 9))) body
    let s : State := ⟨.stmt loop, .ofList [("x", .number 1)]⟩
    s.term.WellKinded K ∧ s.env.Fits K s.term.reads ∧ ¬s.env.contains "small" ∧
      (∃ u, s.after 20 = .ok u ∧ u.terminal = false ∧ u.WellKinded K) ∧
      ∀ fuel f, Parity.bigStep fuel s ≠ some (.error f) := by
  intro K body loop s
  have hkinded : loop.WellKinded K := by decide
  have hfits : s.env.Fits K s.term.reads := by
    intro x hx
    obtain rfl : x = "x" := (by decide : ∀ y ∈ loop.reads, y = "x") x hx
    exact ⟨.number 1, rfl, by decide⟩
  have hlive : s.LiveAt 20 := ⟨_, rfl, rfl⟩
  obtain ⟨hstates, -, -, heval⟩ := Term.never_fails_of_wellKinded (t := s.term) hkinded hfits
  obtain ⟨u, hu, hu', -⟩ := hstates 20
  obtain ⟨v, hv, hlive⟩ := hlive
  obtain rfl := Except.ok.inj (hu.symm.trans hv)
  exact ⟨hkinded, hfits, by decide, ⟨u, hu, hlive, hu'⟩, heval⟩

end WhileLang
