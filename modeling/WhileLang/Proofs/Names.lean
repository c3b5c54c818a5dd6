import WhileLang.Proofs.Redex

/-!
# The names in a program

`reads` lists the names that a program reads, and `targets` the names that it assigns, both
wherever they occur: in branches that may not be taken and in loops that may not be entered.

**Steps bring no new names.** What a step leaves of a program reads only names that the program
reads, and assigns only names that it assigns (`Stmt.Step.names_subset`). A loop is no
exception, as its body is written out but not changed.

The reason is the same for every list that is gathered from the parts of a program, if literals add
nothing to it (`Expr.Gathers`, `Stmt.Gathers`): the parts that a step leaves are there before it,
but for a literal.
-/

namespace WhileLang

/-- Lists put together from smaller ones are smaller. -/
theorem append_subset_append {α : Type} {xs xs' ys ys' : List α} (h : xs ⊆ xs') (h' : ys ⊆ ys') :
    xs ++ ys ⊆ xs' ++ ys' :=
  List.append_subset.2 ⟨List.subset_append_of_subset_left ys' h,
    List.subset_append_of_subset_right xs' h'⟩

/-! ### Expressions -/

namespace Expr

/-- The list is gathered from the operators and the leaves of an expression, of which literals add
nothing. -/
structure Gathers {α : Type} (ofOperator : Operator → List α) (gather : Expr → List α) : Prop where
  literal : ∀ v, gather (.literal v) = []
  binary : ∀ op left right,
    gather (.binary op left right) = ofOperator op ++ (gather left ++ gather right)

/-- A step of an expression adds nothing to what is gathered. -/
theorem Gathers.subset_of_step {α : Type} {ofOperator : Operator → List α}
    {gather : Expr → List α} (hg : Gathers ofOperator gather) {e e' : Expr}
    {env env' : Environment} (h : e.Step env e' env') : gather e' ⊆ gather e := by
  induction h with
  | var _ =>
    rw [hg.literal]
    exact List.nil_subset _
  | left _ ih =>
    rw [hg.binary, hg.binary]
    refine append_subset_append (List.Subset.refl _) ?_
    exact append_subset_append ih (List.Subset.refl _)
  | right _ ih =>
    rw [hg.binary, hg.binary]
    refine append_subset_append (List.Subset.refl _) ?_
    exact append_subset_append (List.Subset.refl _) ih
  | apply _ =>
    rw [hg.literal]
    exact List.nil_subset _

/-- The names that an expression reads. -/
def reads : Expr → List String
  | literal _ => []
  | var name => [name]
  | binary _ left right => left.reads ++ right.reads

theorem gathers_reads : Gathers (fun _ => []) reads :=
  ⟨fun _ => rfl, fun _ _ _ => rfl⟩

end Expr

/-! ### Statements -/

namespace Stmt

/-- The list is gathered from the targets and the expressions of a statement, which steps add
nothing to. -/
structure Gathers {α : Type} (ofTarget : String → List α) (ofExpr : Expr → List α)
    (gather : Stmt → List α) : Prop where
  expr : ∀ {e e' : Expr} {env env' : Environment}, e.Step env e' env' → ofExpr e' ⊆ ofExpr e
  doNothing : gather .doNothing = []
  assign : ∀ name expr, gather (.assign name expr) = ofTarget name ++ ofExpr expr
  branch : ∀ condition consequence alternative,
    gather (.branch condition consequence alternative)
      = ofExpr condition ++ (gather consequence ++ gather alternative)
  seq : ∀ first second, gather (.seq first second) = gather first ++ gather second
  loop : ∀ condition body, gather (.loop condition body) = ofExpr condition ++ gather body

/-- A step of a statement adds nothing to what is gathered. -/
theorem Gathers.subset_of_step {α : Type} {ofTarget : String → List α} {ofExpr : Expr → List α}
    {gather : Stmt → List α} (hg : Gathers ofTarget ofExpr gather) {s t : Stmt}
    {env env' : Environment} (h : s.Step env t env') : gather t ⊆ gather s := by
  induction h with
  | assignExpr hexpr =>
    rw [hg.assign, hg.assign]
    exact append_subset_append (List.Subset.refl _) (hg.expr hexpr)
  | assignLiteral =>
    rw [hg.doNothing]
    exact List.nil_subset _
  | branchCondition hcondition =>
    rw [hg.branch, hg.branch]
    exact append_subset_append (hg.expr hcondition) (List.Subset.refl _)
  | @branchLiteral truth _ _ _ =>
    rw [hg.branch]
    refine List.subset_append_of_subset_right _ ?_
    cases truth with
    | true => exact List.subset_append_left _ _
    | false => exact List.subset_append_right _ _
  | seqFirst _ ih =>
    rw [hg.seq, hg.seq]
    exact append_subset_append ih (List.Subset.refl _)
  | seqDoNothing =>
    rw [hg.seq]
    exact List.subset_append_right _ _
  | loop =>
    -- written out, the loop has its condition and its body twice
    rw [unrolled, hg.branch, hg.seq, hg.loop, hg.doNothing]
    intro x hx
    simpa [or_left_comm] using hx

/-- The names that a statement reads. -/
def reads : Stmt → List String
  | doNothing => []
  | assign _ expr => expr.reads
  | branch condition consequence alternative =>
    condition.reads ++ (consequence.reads ++ alternative.reads)
  | seq first second => first.reads ++ second.reads
  | loop condition body => condition.reads ++ body.reads

/-- The names that a statement assigns. -/
def targets : Stmt → List String
  | doNothing => []
  | assign name _ => [name]
  | branch _ consequence alternative => consequence.targets ++ alternative.targets
  | seq first second => first.targets ++ second.targets
  | loop _ body => body.targets

theorem gathers_reads : Gathers (fun _ => []) Expr.reads reads :=
  ⟨Expr.gathers_reads.subset_of_step, rfl, fun _ _ => rfl, fun _ _ _ => rfl, fun _ _ => rfl,
    fun _ _ => rfl⟩

theorem gathers_targets : Gathers (fun name => [name]) (fun _ => []) targets :=
  ⟨fun _ => List.Subset.refl _, rfl, fun _ _ => rfl, fun _ _ _ => rfl, fun _ _ => rfl,
    fun _ _ => rfl⟩

/-- A step of a statement brings **no new names**, neither to be read nor to be assigned. -/
theorem Step.names_subset {s t : Stmt} {env env' : Environment} (h : s.Step env t env') :
    t.reads ⊆ s.reads ∧ t.targets ⊆ s.targets :=
  ⟨gathers_reads.subset_of_step h, gathers_targets.subset_of_step h⟩

end Stmt

/-! ### Terms -/

namespace Term

/-- The names that a term reads. -/
def reads : Term → List String
  | expr e => e.reads
  | stmt s => s.reads

/-- The names that a term assigns. -/
def targets : Term → List String
  | expr _ => []
  | stmt s => s.targets

/-- A step of a term brings no new names, also where the term is finished. -/
theorem names_subset_of_reduce {t u : Term} {env env' : Environment}
    (h : t.reduce env = .ok (u, env')) :
    u.reads ⊆ t.reads ∧ u.targets ⊆ t.targets := by
  rcases eq_or_step_of_reduce h with ⟨rfl, -⟩ | hstep
  · exact ⟨List.Subset.refl _, List.Subset.refl _⟩
  · cases hstep with
    | expr hstep => exact ⟨Expr.gathers_reads.subset_of_step hstep, List.Subset.refl _⟩
    | stmt hstep => exact hstep.names_subset

end Term

end WhileLang
