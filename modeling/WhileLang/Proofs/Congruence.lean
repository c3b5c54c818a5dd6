import WhileLang.Proofs.Agreement
import WhileLang.Proofs.Wording

/-!
# Programs in contexts

Two programs are **equivalent** when in every environment the same is shown of what they finish
with: the same value, the same bindings in the same order, a fault of the same wording, or
nothing at all, as they go on forever. A **context** is a program with a hole in it, at any depth;
the hole is for an expression or for a statement.

**Equivalence is a congruence**: whatever fills the hole of a context can be replaced by something
equivalent (`Term.Context.equivalent_plug`). There is one lemma for each form of program, in which
all parts are replaced at once (`Stmt.SameResults.seq` and the others). The lemma on loops is the
only one that needs an induction, on the steps that the loop takes.
-/

namespace WhileLang

/-! ### Programs with the same results -/

/-- The expressions have the same value or the same fault in every environment. -/
def Expr.SameResults (e f : Expr) : Prop :=
  ∀ env, e.evaluate env = f.evaluate env

/-- The statements finish with the same results in every environment. -/
def Stmt.SameResults (s t : Stmt) : Prop :=
  ∀ env r, s.Yields env r ↔ t.Yields env r

namespace Expr.SameResults

variable {e e' f f' : Expr}

theorem refl (e : Expr) : e.SameResults e :=
  fun _ => rfl

/-- As conditions, too, they are alike. -/
theorem holds_eq (h : e.SameResults f) (env : Environment) : e.holds env = f.holds env := by
  rw [holds, holds, h env]

/-- The operands of an operator can be replaced. -/
theorem binary (he : e.SameResults e') (hf : f.SameResults f') (op : Operator) :
    (Expr.binary op e f).SameResults (.binary op e' f') := by
  intro env
  rw [evaluate, evaluate, he env, hf env]

end Expr.SameResults

namespace Stmt.SameResults

variable {s s' t t' : Stmt} {c c' : Expr}

theorem refl (s : Stmt) : s.SameResults s :=
  fun _ _ => Iff.rfl

/-- The right side of an assignment can be replaced. -/
theorem assign (hc : c.SameResults c') (name : String) :
    (Stmt.assign name c).SameResults (.assign name c') := by
  intro env r
  rw [yields_assign_iff, yields_assign_iff, hc env]

/-- The condition and the branches of a branching can be replaced. -/
theorem branch (hc : c.SameResults c') (hs : s.SameResults s') (ht : t.SameResults t') :
    (Stmt.branch c s t).SameResults (.branch c' s' t') := by
  intro env r
  have picked (truth : Bool) :
      (if truth then s else t).Yields env r ↔ (if truth then s' else t').Yields env r := by
    cases truth with
    | true => exact hs env r
    | false => exact ht env r
  simp only [yields_branch_iff, hc.holds_eq env, picked]

/-- The parts of a sequence can be replaced. -/
theorem seq (hs : s.SameResults s') (ht : t.SameResults t') :
    (Stmt.seq s t).SameResults (.seq s' t') := by
  intro env r
  simp only [yields_seq_iff, hs env _, ht _ r]

/-- What a loop finishes with, another loop finishes with, if its condition is alike and its body
finishes with all that the body of the first one finishes with. -/
theorem yields_loop_of_finishes (hc : ∀ env, c.holds env = c'.holds env)
    (hs : ∀ env r, s.Yields env r → s'.Yields env r) {n : Nat} {env : Environment}
    {r : Except Fault Environment} (h : (loop c s).Finishes env n r) :
    (loop c' s').Yields env r := by
  rw [yields_iff_exists_finishes]
  -- a round takes steps, so the loop after it has fewer left
  induction n using Nat.strongRecOn generalizing env with
  | ind n ih =>
    obtain ⟨_, rfl, hround⟩ := finishes_loop_iff.1 h
    rcases finishes_branch_iff.1 hround with ⟨truth, k, ht, rfl, hk⟩ | ⟨f, hf, rfl, rfl⟩
    · rw [hc env] at ht
      cases truth with
      | false =>
        obtain ⟨rfl, rfl⟩ := finishes_doNothing_iff.1 hk
        exact ⟨_, .loop (.branch ht .doNothing)⟩
      | true =>
        rcases finishes_seq_iff.1 hk with ⟨m, l, env', hm, hl, rfl⟩ | ⟨f, hf, rfl⟩
        · have hbody : s'.Yields env (.ok env') :=
            hs env _ (yields_iff_exists_finishes.2 ⟨m, hm⟩)
          obtain ⟨m', hm'⟩ := yields_iff_exists_finishes.1 hbody
          obtain ⟨l', hl'⟩ := ih l (by omega) hl
          exact ⟨_, .loop (.branch ht (.seq hm' hl'))⟩
        · have hbody : s'.Yields env (.error f) :=
            hs env _ (yields_iff_exists_finishes.2 ⟨k, hf⟩)
          obtain ⟨k', hk'⟩ := yields_iff_exists_finishes.1 hbody
          exact ⟨_, .loop (.branch ht (.seqFault hk'))⟩
    · rw [hc env] at hf
      exact ⟨_, .loop (.branchFault hf)⟩

/-- The condition and the body of a loop can be replaced. -/
theorem loop (hc : c.SameResults c') (hs : s.SameResults s') :
    (Stmt.loop c s).SameResults (.loop c' s') := by
  intro env r
  constructor
  · intro h
    obtain ⟨n, hn⟩ := yields_iff_exists_finishes.1 h
    exact yields_loop_of_finishes hc.holds_eq (fun env r => (hs env r).1) hn
  · intro h
    obtain ⟨n, hn⟩ := yields_iff_exists_finishes.1 h
    exact yields_loop_of_finishes (fun env => (hc.holds_eq env).symm)
      (fun env r => (hs env r).2) hn

end Stmt.SameResults

/-! ### Contexts -/

/-- What a hole is for. -/
inductive Hole where
  | expr
  | stmt

/-- What may fill a hole. -/
def Hole.Filling : Hole → Type
  | expr => Expr
  | stmt => Stmt

/-- A filling as a program of its own. -/
def Hole.toTerm : {h : Hole} → h.Filling → Term
  | expr, e => .expr e
  | stmt, s => .stmt s

/-- Fillings with the same results. -/
def Hole.SameResults : {h : Hole} → h.Filling → h.Filling → Prop
  | expr => Expr.SameResults
  | stmt => Stmt.SameResults

/-- An expression with a hole in it, for an expression. -/
inductive Expr.Context where
  | hole
  | left (op : Operator) (C : Context) (right : Expr)
  | right (op : Operator) (left : Expr) (C : Context)

/-- A statement with a hole in it. The hole is the whole statement, or it lies in an expression
or in a statement that is part of it. -/
inductive Stmt.Context : Hole → Type where
  | hole : Context .stmt
  | assign (name : String) (C : Expr.Context) : Context .expr
  | branchCondition (C : Expr.Context) (consequence alternative : Stmt) : Context .expr
  | loopCondition (C : Expr.Context) (body : Stmt) : Context .expr
  | consequence {h : Hole} (condition : Expr) (C : Context h) (alternative : Stmt) : Context h
  | alternative {h : Hole} (condition : Expr) (consequence : Stmt) (C : Context h) : Context h
  | first {h : Hole} (C : Context h) (second : Stmt) : Context h
  | second {h : Hole} (first : Stmt) (C : Context h) : Context h
  | body {h : Hole} (condition : Expr) (C : Context h) : Context h

/-- A term with a hole in it. -/
inductive Term.Context : Hole → Type where
  | expr (C : Expr.Context) : Context .expr
  | stmt {h : Hole} (C : Stmt.Context h) : Context h

/-- Fills the hole of an expression. -/
def Expr.Context.plug (e : Expr) : Expr.Context → Expr
  | hole => e
  | left op C r => .binary op (C.plug e) r
  | right op l C => .binary op l (C.plug e)

/-- Fills the hole of a statement. -/
def Stmt.Context.plug : {h : Hole} → Stmt.Context h → h.Filling → Stmt
  | _, hole, s => s
  | _, assign name C, e => .assign name (C.plug e)
  | _, branchCondition C s t, e => .branch (C.plug e) s t
  | _, loopCondition C s, e => .loop (C.plug e) s
  | _, consequence c C t, x => .branch c (C.plug x) t
  | _, alternative c s C, x => .branch c s (C.plug x)
  | _, first C t, x => .seq (C.plug x) t
  | _, second s C, x => .seq s (C.plug x)
  | _, body c C, x => .loop c (C.plug x)

/-- Fills the hole of a term. -/
def Term.Context.plug : {h : Hole} → Term.Context h → h.Filling → Term
  | _, expr C, e => .expr (C.plug e)
  | _, stmt C, x => .stmt (C.plug x)

theorem Expr.Context.sameResults_plug (C : Expr.Context) {e f : Expr} (h : e.SameResults f) :
    (C.plug e).SameResults (C.plug f) := by
  induction C with
  | hole => exact h
  | left op C r ih => exact ih.binary (.refl r) op
  | right op l C ih => exact (SameResults.refl l).binary ih op

theorem Stmt.Context.sameResults_plug {h : Hole} (C : Stmt.Context h) {x y : h.Filling}
    (hxy : Hole.SameResults x y) : (C.plug x).SameResults (C.plug y) := by
  induction C with
  | hole => exact hxy
  | assign name C => exact .assign (C.sameResults_plug hxy) name
  | branchCondition C s t => exact .branch (C.sameResults_plug hxy) (.refl s) (.refl t)
  | loopCondition C s => exact .loop (C.sameResults_plug hxy) (.refl s)
  | consequence c C t ih => exact .branch (.refl c) (ih hxy) (.refl t)
  | alternative c s C ih => exact .branch (.refl c) (.refl s) (ih hxy)
  | first C t ih => exact .seq (ih hxy) (.refl t)
  | second s C ih => exact .seq (.refl s) (ih hxy)
  | body c C ih => exact .loop (.refl c) (ih hxy)

/-! ### Equivalent programs -/

/-- In every environment the same is shown of what the terms finish with. -/
def Term.Equivalent (t u : Term) : Prop :=
  ∀ env (r : Except String Outcome),
    (∃ q, (∃ fuel, Parity.bigStep fuel ⟨t, env⟩ = some q) ∧ q.mapError Fault.message = r) ↔
      ∃ q, (∃ fuel, Parity.bigStep fuel ⟨u, env⟩ = some q) ∧ q.mapError Fault.message = r

namespace Term

variable {e f : Expr} {s p : Stmt} {t u : Term} {env : Environment} {q : Except Fault Outcome}

theorem exists_bigStep_expr_iff :
    (∃ fuel, Parity.bigStep fuel ⟨.expr e, env⟩ = some q) ↔ (e.evaluate env).map .value = q := by
  simp [Parity.bigStep, evaluate]

theorem exists_bigStep_stmt_iff :
    (∃ fuel, Parity.bigStep fuel ⟨.stmt s, env⟩ = some q) ↔
      ∃ r, s.Yields env r ∧ r.map .environment = q := by
  simp only [Parity.bigStep, evaluate, Option.map_eq_some_iff, Stmt.Yields]
  constructor
  · rintro ⟨fuel, r, hr, rfl⟩
    exact ⟨r, ⟨fuel, hr⟩, rfl⟩
  · rintro ⟨r, ⟨fuel, hr⟩, rfl⟩
    exact ⟨fuel, r, hr, rfl⟩

/-- A term finishes only with genuine faults. -/
theorem genuine_of_bigStep {f : Fault}
    (h : ∃ fuel, Parity.bigStep fuel ⟨t, env⟩ = some (.error f)) : f.Genuine := by
  cases t with
  | expr e =>
    have he := exists_bigStep_expr_iff.1 h
    exact Expr.genuine_of_evaluate (Except.map_eq_error_iff.1 he)
  | stmt s =>
    obtain ⟨r, hr, heq⟩ := exists_bigStep_stmt_iff.1 h
    obtain rfl := Except.map_eq_error_iff.1 heq
    exact hr.genuine

/-- Terms are equivalent when they **finish with the same results**: what is shown of results
tells them apart. -/
theorem equivalent_iff :
    t.Equivalent u ↔ ∀ env q, (∃ fuel, Parity.bigStep fuel ⟨t, env⟩ = some q) ↔
      ∃ fuel, Parity.bigStep fuel ⟨u, env⟩ = some q :=
  forall_congr' fun _ =>
    Fault.shown_iff (fun _ => genuine_of_bigStep) (fun _ => genuine_of_bigStep)

theorem equivalent_expr_iff : (expr e).Equivalent (expr f) ↔ e.SameResults f := by
  simp only [equivalent_iff, exists_bigStep_expr_iff]
  constructor
  · intro h env
    exact Except.map_injective (fun _ _ => Outcome.value.inj) ((h env _).2 rfl)
  · intro h env q
    rw [h env]

theorem equivalent_stmt_iff : (stmt s).Equivalent (stmt p) ↔ s.SameResults p := by
  simp only [equivalent_iff, exists_bigStep_stmt_iff]
  constructor
  · intro h env r
    constructor
    · intro hr
      obtain ⟨r', hr', heq⟩ := (h env _).1 ⟨r, hr, rfl⟩
      exact Except.map_injective (fun _ _ => Outcome.environment.inj) heq ▸ hr'
    · intro hr
      obtain ⟨r', hr', heq⟩ := (h env _).2 ⟨r, hr, rfl⟩
      exact Except.map_injective (fun _ _ => Outcome.environment.inj) heq ▸ hr'
  · intro h env q
    simp only [h env]

/-- Fillings are equivalent programs exactly when they have the same results. -/
theorem equivalent_toTerm_iff {h : Hole} {x y : h.Filling} :
    (Hole.toTerm x).Equivalent (Hole.toTerm y) ↔ Hole.SameResults x y := by
  cases h with
  | expr => exact equivalent_expr_iff
  | stmt => exact equivalent_stmt_iff

/-- **Equivalence is a congruence.** Whatever fills the hole of a context can be replaced by
something equivalent: the programs are equivalent again, and machines without a limit finish on
both with the same. -/
theorem Context.equivalent_plug {h : Hole} (C : Term.Context h) {x y : h.Filling}
    (hxy : (Hole.toTerm x).Equivalent (Hole.toTerm y)) :
    (C.plug x).Equivalent (C.plug y) ∧
      ∀ env (r : Except Stop Outcome),
        (∃ fuel p, Parity.smallStep fuel {} ⟨C.plug x, env⟩ = some p ∧ p.result = r) ↔
          ∃ fuel p, Parity.smallStep fuel {} ⟨C.plug y, env⟩ = some p ∧ p.result = r := by
  have hsame : Hole.SameResults x y := equivalent_toTerm_iff.1 hxy
  have hplug : (C.plug x).Equivalent (C.plug y) := by
    cases C with
    | expr C => exact equivalent_expr_iff.2 (C.sameResults_plug hsame)
    | stmt C => exact equivalent_stmt_iff.2 (C.sameResults_plug hsame)
  refine ⟨hplug, fun env r => ?_⟩
  -- the machine finishes with what evaluation finishes with
  rw [← Parity.exists_bigStep_iff rfl, ← Parity.exists_bigStep_iff rfl]
  have hiff := equivalent_iff.1 hplug env
  constructor
  · rintro ⟨fuel, q, hq, rfl⟩
    obtain ⟨fuel', hq'⟩ := (hiff q).1 ⟨fuel, hq⟩
    exact ⟨fuel', q, hq', rfl⟩
  · rintro ⟨fuel, q, hq, rfl⟩
    obtain ⟨fuel', hq'⟩ := (hiff q).2 ⟨fuel, hq⟩
    exact ⟨fuel', q, hq', rfl⟩

/-- In a branch inside the body of a loop, `do-nothing` can be dropped before a statement. -/
theorem equivalent_plug_dropped_doNothing :
    let small (n : Int64) : Expr := .binary .lessThan (.var "x") (.literal (.number n))
    let times (e : Expr) : Stmt := .assign "x" (.binary .multiply (.var "x") e)
    let triple : Stmt := times (.literal (.number 3))
    let C : Term.Context .stmt :=
      .stmt (.body (small 5) (.consequence (small 2) .hole (times (.var "x"))))
    let env : Environment := .ofList [("x", .number 1)]
    let last : Outcome := .environment (.ofList [("x", .number 9)])
    (stmt (.seq .doNothing triple)).Equivalent (stmt triple) ∧
      (C.plug (.seq .doNothing triple)).Equivalent (C.plug triple) ∧
      ∃ fuel p, Parity.smallStep fuel {} ⟨C.plug (.seq .doNothing triple), env⟩ = some p ∧
        p.result = .ok last := by
  intro small times triple C env last
  have htriple : (stmt (.seq .doNothing triple)).Equivalent (stmt triple) := by
    rw [equivalent_stmt_iff]
    intro env r
    simp [Stmt.Yields, Stmt.evaluate]
  have hlast : Parity.bigStep 3 ⟨C.plug triple, env⟩ = some (.ok last) := rfl
  obtain ⟨hplug, hsmall⟩ :=
    C.equivalent_plug (x := Stmt.seq .doNothing triple) (y := triple) htriple
  exact ⟨htriple, hplug,
    (hsmall env _).2 ((Parity.exists_bigStep_iff rfl).1 ⟨3, .ok last, hlast, rfl⟩)⟩

end Term

end WhileLang
