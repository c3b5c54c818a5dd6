import WhileLang.Proofs.Iterates

/-!
# How large a program can grow

`size` counts the nodes of a term. A step of an expression never adds a node, but writing out a
loop more than doubles it, and a loop may stand in the body of another one that is written out
already. So the size may rise and fall in a run.

What never rises is the **peak**, a bound on the sizes that lie ahead, which is read off the
program (`Stmt.Step.peak_le`). A loop written out has no higher peak than the loop itself,
however often that happens. The peak is at least the size, and at most about its square
(`Stmt.peak_le_sq`), so that holds for the size of all that a run leads to.
-/

namespace WhileLang

/-! ### Expressions -/

namespace Expr

/-- The number of nodes of an expression. -/
def size : Expr → Nat
  | literal _ => 1
  | var _ => 1
  | binary _ left right => left.size + right.size + 1

/-- A step of an expression adds no nodes. -/
theorem Step.size_le {e e' : Expr} {env env' : Environment} (h : e.Step env e' env') :
    e'.size ≤ e.size := by
  induction h with
  | var _ => exact Nat.le_refl 1
  | left _ ih =>
    rw [size, size]
    omega
  | right _ ih =>
    simp only [size]
    omega
  | apply _ => exact Nat.le_add_left 1 _

end Expr

/-! ### Statements -/

/-- The square of a sum exceeds the square of a summand by the sum at least. -/
theorem sq_add_le_sq (m : Nat) {n : Nat} (hn : 0 < n) :
    m * m + m + n ≤ (m + n) * (m + n) := by
  have hm : m ≤ m * n := Nat.le_mul_of_pos_right m hn
  have hnn : n ≤ n * n := Nat.le_mul_of_pos_right n hn
  calc m * m + m + n ≤ m * m + m * n + (m * n + n * n) := by omega
    _ = (m + n) * (m + n) := by rw [Nat.add_mul, Nat.mul_add, Nat.mul_add, Nat.mul_comm n m]

namespace Stmt

variable {s t : Stmt} {env env' : Environment}

/-- The number of nodes of a statement. -/
def size : Stmt → Nat
  | doNothing => 1
  | assign _ expr => expr.size + 1
  | branch condition consequence alternative =>
    condition.size + consequence.size + alternative.size + 1
  | seq first second => first.size + second.size + 1
  | loop condition body => condition.size + body.size + 1

/-- A bound on the size of a statement and of all that it may become. For a loop it is either
that of the loop written out, or that of its body as it runs, with the loop behind it. -/
def peak : Stmt → Nat
  | doNothing => 1
  | assign _ expr => expr.size + 1
  | branch condition consequence alternative =>
    max (condition.size + consequence.size + alternative.size + 1)
      (max consequence.peak alternative.peak)
  | seq first second => max (first.peak + second.size + 1) second.peak
  | loop condition body =>
    max (unrolled condition body).size (body.peak + (loop condition body).size + 1)

theorem size_le_peak (s : Stmt) : s.size ≤ s.peak := by
  induction s with
  | doNothing => exact Nat.le_refl 1
  | assign name expr => exact Nat.le_refl _
  | branch condition consequence alternative => exact Nat.le_max_left _ _
  | seq first second ih =>
    rw [size, peak]
    omega
  | loop condition body =>
    rw [peak]
    omega

/-- Written out, a loop **keeps its peak**. -/
theorem peak_unrolled (condition : Expr) (body : Stmt) :
    (unrolled condition body).peak = (loop condition body).peak := by
  have hsize := body.size_le_peak
  simp only [unrolled, peak, size]
  omega

/-- A step of a statement **does not raise the peak**. -/
theorem Step.peak_le (h : s.Step env t env') : t.peak ≤ s.peak := by
  induction h with
  | assignExpr hexpr => exact Nat.succ_le_succ hexpr.size_le
  | assignLiteral => exact Nat.le_succ 1
  | branchCondition hcondition =>
    have hsize := hcondition.size_le
    rw [peak, peak]
    omega
  | @branchLiteral truth _ _ _ =>
    rw [peak]
    cases truth with
    | true => exact Nat.le_trans (Nat.le_max_left _ _) (Nat.le_max_right _ _)
    | false => exact Nat.le_trans (Nat.le_max_right _ _) (Nat.le_max_right _ _)
  | seqFirst _ ih =>
    simp only [peak]
    omega
  | seqDoNothing => exact Nat.le_max_right _ _
  | @loop condition body _ => exact Nat.le_of_eq (peak_unrolled condition body)

/-- The peak is **at most quadratic** in the size. -/
theorem peak_le_sq (s : Stmt) : s.peak ≤ (s.size + 1) * (s.size + 1) := by
  induction s with
  | doNothing => decide
  | assign name expr => exact Nat.le_trans (Nat.le_succ _) (Nat.le_mul_self _)
  | branch condition consequence alternative ihc iha =>
    have hself := Nat.le_mul_self ((branch condition consequence alternative).size + 1)
    have hc := Nat.mul_self_le_mul_self (m := consequence.size + 1)
      (n := (branch condition consequence alternative).size + 1) (by rw [size]; omega)
    have ha := Nat.mul_self_le_mul_self (m := alternative.size + 1)
      (n := (branch condition consequence alternative).size + 1) (by rw [size]; omega)
    rw [peak]
    exact Nat.max_le.2 ⟨Nat.le_trans (Nat.le_succ _) hself,
      Nat.max_le.2 ⟨Nat.le_trans ihc hc, Nat.le_trans iha ha⟩⟩
  | seq first second ihf ihs =>
    have hsum : (seq first second).size + 1 = (first.size + 1) + (second.size + 1) := by
      rw [size]
      omega
    have hf := sq_add_le_sq (first.size + 1) (n := second.size + 1) (Nat.succ_pos _)
    have hs := Nat.mul_self_le_mul_self (Nat.le_add_left (second.size + 1) (first.size + 1))
    rw [peak, hsum]
    omega
  | loop condition body ih =>
    have hsum : (loop condition body).size + 1 = (body.size + 1) + (condition.size + 1) := by
      rw [size]
      omega
    have hb := sq_add_le_sq (body.size + 1) (n := condition.size + 1) (Nat.succ_pos _)
    have htwice : 2 * ((body.size + 1) + (condition.size + 1))
        ≤ ((body.size + 1) + (condition.size + 1)) * ((body.size + 1) + (condition.size + 1)) :=
      Nat.mul_le_mul_right _ (by omega)
    simp only [peak, unrolled, hsum]
    simp only [size]
    omega

end Stmt

/-! ### Terms -/

namespace Term

/-- The number of nodes of a term. -/
def size : Term → Nat
  | expr e => e.size
  | stmt s => s.size

/-- A bound on the size of a term and of all that it may become. -/
def peak : Term → Nat
  | expr e => e.size
  | stmt s => s.peak

theorem size_le_peak : ∀ t : Term, t.size ≤ t.peak
  | expr e => Nat.le_refl e.size
  | stmt s => s.size_le_peak

theorem peak_le_sq : ∀ t : Term, t.peak ≤ (t.size + 1) * (t.size + 1)
  | expr e => Nat.le_trans (Nat.le_succ e.size) (Nat.le_mul_self _)
  | stmt s => s.peak_le_sq

/-- A step of a term does not raise the peak, also where the term is finished. -/
theorem peak_le_of_reduce {t u : Term} {env env' : Environment}
    (h : t.reduce env = .ok (u, env')) : u.peak ≤ t.peak := by
  rcases eq_or_step_of_reduce h with ⟨rfl, -⟩ | hstep
  · exact Nat.le_refl _
  · cases hstep with
    | expr hstep => exact hstep.size_le
    | stmt hstep => exact hstep.peak_le

end Term

/-! ### Runs -/

namespace State

/-- No state that a run leads to has a higher peak than its start. -/
theorem peak_after_le {s u : State} {n : Nat} (h : s.after n = .ok u) :
    u.term.peak ≤ s.term.peak := by
  induction n generalizing s with
  | zero =>
    obtain rfl : s = u := by simpa using h
    exact Nat.le_refl _
  | succ n ih =>
    obtain ⟨t, hst, htu⟩ := after_succ_eq_ok_iff.1 h
    obtain ⟨⟨term, env⟩, hred, rfl⟩ := Except.map_eq_ok_iff.1 hst
    exact Nat.le_trans (ih htu) (Term.peak_le_of_reduce hred)

/-- Programs **do not grow with the number of their steps**: whatever a run of a term leads to,
after however many steps and in whatever environment, has at most the square of the size of the
term plus one. -/
theorem size_after_le_sq {t : Term} {env : Environment} {n : Nat} {u : State}
    (h : State.after n ⟨t, env⟩ = .ok u) : u.term.size ≤ (t.size + 1) * (t.size + 1) :=
  calc u.term.size ≤ u.term.peak := u.term.size_le_peak
    _ ≤ t.peak := peak_after_le h
    _ ≤ (t.size + 1) * (t.size + 1) := t.peak_le_sq

/-- A loop in the body of a loop, both written out at once: the program has grown, and stays below
the bound. -/
theorem size_after_nested_loops_le :
    let below (x : String) (e : Expr) : Expr := .binary .lessThan (.var x) e
    let count (x : String) : Stmt :=
      .assign x (.binary .add (.var x) (.literal (.number 1)))
    let inner : Stmt := .loop (below "y" (.var "x")) (count "y")
    let t : Term := .stmt (.loop (below "x" (.literal (.number 3))) (.seq inner (count "x")))
    let env : Environment := .ofList [("x", .number 1), ("y", .number 0)]
    ∃ u, State.after 29 ⟨t, env⟩ = .ok u ∧ t.size = 17 ∧ u.term.size = 41 ∧
      u.term.size ≤ (t.size + 1) * (t.size + 1) := by
  intro below count inner t env
  have hrun : State.after 29 ⟨t, env⟩ = .ok ⟨_, _⟩ := rfl
  exact ⟨_, hrun, rfl, rfl, size_after_le_sq hrun⟩

end State

end WhileLang
