import WhileLang.Proofs.Congruence
import WhileLang.Proofs.History

/-!
# The meaning of a step

What a program comes to is the result that evaluation finds for it. A step puts another program in
the place of a program, an assignment another environment in the place of the environment, and a
loop a program of another shape. **None of that changes what is come to**: evaluation finds the
same results before and after the step, and none if it finds none. What cannot step comes to the
fault that stops it, and to nothing else.

For statements this is `Stmt.Step.finishes_iff` with the count of steps left out, so that one rule
of reduction does for each form of program and loops need no induction on their rounds.

Steps add up. The iterates of a state all come to the same (`State.comesTo_iff_of_after`), and a
machine may be called in any way, be refused or fail: what the state that it holds comes to is what
the first one did (`Machine.comesTo_iff_of_replies`). So a program can be stepped for a while, and
be evaluated from there.
-/

namespace WhileLang

/-! ### Expressions -/

/-- A step of an expression keeps its value or its fault. -/
theorem Expr.evaluate_eq_of_reduce {e e' : Expr} {env env' : Environment}
    (h : e.reduce env = .ok (e', env')) : e'.evaluate env' = e.evaluate env := by
  rcases eq_or_step_of_reduce h with ⟨rfl, rfl⟩ | hstep
  · rfl
  · exact hstep.evaluate_eq

/-! ### Statements -/

namespace Stmt

variable {s t : Stmt} {env env' : Environment} {r : Except Fault Environment} {f : Fault}

/-- By every rule, a statement yields **what it steps to yields**. -/
theorem Step.yields_iff (h : s.Step env t env') : s.Yields env r ↔ t.Yields env' r := by
  simp only [yields_iff_exists_finishes, h.finishes_iff]
  constructor
  · rintro ⟨_, k, rfl, hk⟩
    exact ⟨k, hk⟩
  · rintro ⟨k, hk⟩
    exact ⟨k + 1, k, rfl, hk⟩

/-- A step of a statement keeps what it yields, also where the statement is finished. -/
theorem yields_iff_of_reduce (h : s.reduce env = .ok (t, env')) :
    s.Yields env r ↔ t.Yields env' r := by
  rcases eq_or_step_of_reduce h with ⟨rfl, rfl, rfl⟩ | hstep
  · exact Iff.rfl
  · exact hstep.yields_iff

/-- A statement that cannot step yields **the fault that stops it** and nothing else. -/
theorem yields_iff_of_reduce_error (h : s.reduce env = .error f) :
    s.Yields env r ↔ r = .error f := by
  simp only [yields_iff_exists_finishes, finishes_iff_of_reduce_error h]
  constructor
  · rintro ⟨_, rfl, hr⟩
    exact hr
  · intro hr
    exact ⟨0, rfl, hr⟩

end Stmt

/-! ### States -/

namespace State

variable {s t : State} {n : Nat} {r : Except Fault Outcome}

/-- Evaluation of the term of a state finishes with a result, whatever fuel it takes. -/
def ComesTo (s : State) (r : Except Fault Outcome) : Prop :=
  ∃ fuel, Parity.bigStep fuel s = some r

/-- A step of a state keeps what it comes to. -/
theorem comesTo_iff_of_step (h : s.step = .ok t) : s.ComesTo r ↔ t.ComesTo r := by
  obtain ⟨term, env⟩ := s
  cases term with
  | expr e =>
    obtain ⟨e', hred, rfl⟩ := exists_reduce_of_step_expr h
    rw [ComesTo, ComesTo, Term.exists_bigStep_expr_iff, Term.exists_bigStep_expr_iff,
      Expr.evaluate_eq_of_reduce hred]
  | stmt p =>
    obtain ⟨p', env', hred, rfl⟩ := exists_reduce_of_step_stmt h
    simp only [ComesTo, Term.exists_bigStep_stmt_iff, Stmt.yields_iff_of_reduce hred]

/-- **All iterates of a state come to the same.** -/
theorem comesTo_iff_of_after (h : s.after n = .ok t) : s.ComesTo r ↔ t.ComesTo r := by
  induction n generalizing s with
  | zero =>
    obtain rfl : s = t := Except.ok.inj h
    exact Iff.rfl
  | succ n ih =>
    obtain ⟨u, hu, hut⟩ := after_succ_eq_ok_iff.1 h
    exact (comesTo_iff_of_step hu).trans (ih hut)

end State

/-- Whatever is called on a machine, the state that it holds comes to **what the first one came
to**. -/
theorem Machine.comesTo_iff_of_replies {m : Machine} {fuel : Nat} {actions : List Action}
    {rs : List (Reply Unit)} {r : Except Fault Outcome} (h : m.replies fuel actions = some rs) :
    (Reply.lastMachine m rs).state.ComesTo r ↔ m.state.ComesTo r :=
  (State.comesTo_iff_of_after (reaches_of_replies h).after_eq).symm

/-! ### One step and many -/

/-- **A step keeps the meaning of a program.**

* An expression has in its environment the value, or the fault, that the one that it steps to has in
  the environment after the step. An expression that cannot step has the fault that stops it.
* A statement yields in its environment exactly what the statement that it steps to yields in the
  environment after the step: the same bindings in the same order, the same fault, or nothing where
  it goes on forever. A statement that cannot step yields the fault that stops it, and nothing else.
* So it is with any number of steps of a term: evaluation finishes with the same results at the
  start and wherever the run has got to. -/
theorem Term.reduction_keeps_meaning :
    (∀ (e : Expr) (env : Environment),
      (∀ e' env', e.reduce env = .ok (e', env') →
        ∀ r, e.evaluate env = r ↔ e'.evaluate env' = r) ∧
      ∀ f, e.reduce env = .error f → e.evaluate env = .error f) ∧
    (∀ (s : Stmt) (env : Environment),
      (∀ s' env', s.reduce env = .ok (s', env') → ∀ r, s.Yields env r ↔ s'.Yields env' r) ∧
      ∀ f, s.reduce env = .error f → ∀ r, s.Yields env r ↔ r = .error f) ∧
    ∀ (t : Term) (env : Environment) (n : Nat) (s : State), State.after n ⟨t, env⟩ = .ok s →
      ∀ r, (∃ fuel, t.evaluate fuel env = some r) ↔ ∃ fuel, s.term.evaluate fuel s.env = some r := by
  refine ⟨fun e env => ⟨fun e' env' h r => ?value, fun f h => (Expr.evaluate_of_reduce_error h).1⟩,
    fun s env => ⟨fun s' env' h r => Stmt.yields_iff_of_reduce h,
      fun f h r => Stmt.yields_iff_of_reduce_error h⟩,
    fun t env n s h r => State.comesTo_iff_of_after h⟩
  case value => rw [Expr.evaluate_eq_of_reduce h]

/-- Two steps from an assignment the statement after it is left alone, in an environment that has
the binding it reads. Evaluation finds the same there as at the start. -/
example :
    let double : Stmt := .assign "y" (.binary .multiply (.var "x") (.literal (.number 2)))
    let start : State := ⟨.stmt (.seq (.assign "x" (.literal (.number 3))) double), .empty⟩
    let later : State := ⟨.stmt double, Environment.empty.bind "x" (.number 3)⟩
    start.after 2 = .ok later ∧ Parity.bigStep 0 start = Parity.bigStep 0 later ∧
      Parity.bigStep 0 later
        = some (.ok (.environment (.ofList [("x", .number 3), ("y", .number 6)]))) :=
  ⟨rfl, rfl, rfl⟩

end WhileLang
