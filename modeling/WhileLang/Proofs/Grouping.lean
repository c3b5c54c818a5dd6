import WhileLang.Parity
import WhileLang.Proofs.Listing
import WhileLang.Proofs.Lockstep

/-!
# The grouping of sequences

A sequence of three parts can be written as a sequence of two whose first part is a sequence, or
as one whose second part is. `s.Regrouped t` says that two statements differ only in that, at any
place and any depth: also within branches and within the bodies of loops. It is decided by
comparing the two with all sequences grouped to the right (`Stmt.regrouped_iff`).

**Grouping cannot be observed.** Regrouped statements have the same text
(`Stmt.Regrouped.render_eq`) and evaluate alike (`Stmt.Regrouped.evaluate_eq`), and their steps
lead to regrouped statements in the same environment (`Stmt.Regrouped.reduce_alike`). So their runs
go in lockstep, and no trace shows which of the two it is a trace of
(`Stmt.Regrouped.unobservable`).
-/

namespace WhileLang

namespace Stmt

/-- Two statements that differ only in how their sequences are grouped. -/
inductive Regrouped : Stmt → Stmt → Prop
  | assoc (a b c : Stmt) : Regrouped (seq (seq a b) c) (seq a (seq b c))
  | branch (condition : Expr) {a a' b b' : Stmt} : Regrouped a a' → Regrouped b b' →
    Regrouped (branch condition a b) (branch condition a' b')
  | seq {a a' b b' : Stmt} : Regrouped a a' → Regrouped b b' → Regrouped (seq a b) (seq a' b')
  | loop (condition : Expr) {a a' : Stmt} : Regrouped a a' →
    Regrouped (loop condition a) (loop condition a')
  | refl (s : Stmt) : Regrouped s s
  | symm {s t : Stmt} : Regrouped s t → Regrouped t s
  | trans {s t u : Stmt} : Regrouped s t → Regrouped t u → Regrouped s u

/-! ### Grouping to the right -/

/-- Puts a statement after the last part of a sequence that is grouped to the right. -/
def followedBy : Stmt → Stmt → Stmt
  | seq first second, next => seq first (second.followedBy next)
  | doNothing, next => seq doNothing next
  | assign name expr, next => seq (assign name expr) next
  | branch condition consequence alternative, next =>
    seq (branch condition consequence alternative) next
  | loop condition body, next => seq (loop condition body) next

/-- The statement with all its sequences grouped to the right. -/
def straightened : Stmt → Stmt
  | doNothing => doNothing
  | assign name expr => assign name expr
  | branch condition consequence alternative =>
    branch condition consequence.straightened alternative.straightened
  | seq first second => first.straightened.followedBy second.straightened
  | loop condition body => loop condition body.straightened

/-- Appending parts to a sequence does not depend on how they are grouped. -/
theorem followedBy_assoc (a b c : Stmt) :
    (a.followedBy b).followedBy c = a.followedBy (b.followedBy c) := by
  induction a with
  | seq first second _ ih => rw [followedBy, followedBy, followedBy, ih]
  | doNothing => rfl
  | assign name expr => rfl
  | branch condition consequence alternative => rfl
  | loop condition body => rfl

theorem regrouped_followedBy (a b : Stmt) : Regrouped (seq a b) (a.followedBy b) := by
  induction a with
  | seq first second _ ih => exact .trans (.assoc first second b) (.seq (.refl first) ih)
  | doNothing => exact .refl _
  | assign name expr => exact .refl _
  | branch condition consequence alternative => exact .refl _
  | loop condition body => exact .refl _

theorem regrouped_straightened (s : Stmt) : Regrouped s s.straightened := by
  induction s with
  | doNothing => exact .refl _
  | assign name expr => exact .refl _
  | branch condition consequence alternative ihc iha => exact .branch condition ihc iha
  | seq first second ihf ihs => exact .trans (.seq ihf ihs) (regrouped_followedBy _ _)
  | loop condition body ih => exact .loop condition ih

theorem Regrouped.straightened_eq {s t : Stmt} (h : s.Regrouped t) :
    s.straightened = t.straightened := by
  induction h with
  | assoc a b c => exact followedBy_assoc _ _ _
  | branch condition _ _ iha ihb => rw [straightened, straightened, iha, ihb]
  | seq _ _ iha ihb => rw [straightened, straightened, iha, ihb]
  | loop condition _ ih => rw [straightened, straightened, ih]
  | refl s => rfl
  | symm _ ih => exact ih.symm
  | trans _ _ ih ih' => exact ih.trans ih'

/-- Two statements differ only in their grouping **exactly when they are the same, grouped to the
right**. -/
theorem regrouped_iff {s t : Stmt} : s.Regrouped t ↔ s.straightened = t.straightened := by
  refine ⟨Regrouped.straightened_eq, fun h => ?_⟩
  have hs : s.Regrouped t.straightened := h ▸ regrouped_straightened s
  exact hs.trans (regrouped_straightened t).symm

instance (s t : Stmt) : Decidable (s.Regrouped t) :=
  decidable_of_iff _ regrouped_iff.symm

/-! ### What grouping does not change -/

namespace Regrouped

variable {s t : Stmt}

/-- Regrouped statements have the same listing. -/
theorem listing_eq (h : s.Regrouped t) : s.listing = t.listing := by
  induction h with
  | assoc a b c => exact Listing.append_assoc _ _ _
  | branch condition _ _ iha ihb => rw [listing, listing, iha, ihb]
  | seq _ _ iha ihb => rw [listing, listing, iha, ihb]
  | loop condition _ ih => rw [listing, listing, ih]
  | refl s => rfl
  | symm _ ih => exact ih.symm
  | trans _ _ ih ih' => exact ih.trans ih'

/-- Regrouped statements have the same text. -/
theorem render_eq (h : s.Regrouped t) : s.render = t.render := by
  rw [← s.render_listing, ← t.render_listing, h.listing_eq]

/-- Regrouped statements are finished together. -/
theorem reducible_eq (h : s.Regrouped t) : s.reducible = t.reducible := by
  induction h with
  | assoc a b c => rfl
  | branch condition _ _ _ _ => rfl
  | seq _ _ _ _ => rfl
  | loop condition _ _ => rfl
  | refl s => rfl
  | symm _ ih => exact ih.symm
  | trans _ _ ih ih' => exact ih.trans ih'

/-- Regrouped statements **evaluate alike**, with the same fuel. -/
theorem evaluate_eq (h : s.Regrouped t) (fuel : Nat) (env : Environment) :
    s.evaluate fuel env = t.evaluate fuel env := by
  induction h generalizing env with
  | assoc a b c =>
    simp only [evaluate]
    rcases a.evaluate fuel env with _ | _ | _ <;> rfl
  | branch condition _ _ iha ihb => simp only [evaluate, iha, ihb]
  | seq _ _ iha ihb => simp only [evaluate, iha, ihb]
  | @loop condition a a' _ ih =>
    have hbody : a.evaluate fuel = a'.evaluate fuel := funext ih
    rw [evaluate, evaluate, hbody]
  | refl s => rfl
  | symm _ ih => exact (ih env).symm
  | trans _ _ ih ih' => exact (ih env).trans (ih' env)

/-- Regrouped statements **step to regrouped ones** in the same environment, or fail alike. -/
theorem reduce_alike (h : s.Regrouped t) (env : Environment) :
    (s.reduce env).Alike (fun p q => p.1.Regrouped q.1 ∧ p.2 = q.2) (t.reduce env) := by
  induction h with
  | assoc a b c =>
    have hab : (Stmt.seq a b).reducible = true := rfl
    cases ha : a.reducible with
    | true =>
      rw [reduce_seq_first hab, reduce_seq_first ha, reduce_seq_first ha]
      cases a.reduce env with
      | error f => exact .error f
      | ok p => exact .ok ⟨.assoc p.1 b c, rfl⟩
    | false =>
      obtain rfl := reducible_eq_false_iff.1 ha
      exact .ok ⟨.refl (.seq b c), rfl⟩
  | @branch condition a a' b b' ha hb _ _ =>
    cases hc : condition.reducible with
    | true =>
      rw [reduce_branch_condition hc, reduce_branch_condition hc]
      exact Except.alike_map_map _ fun p => ⟨.branch p.1 ha hb, rfl⟩
    | false =>
      obtain ⟨v, rfl⟩ := Expr.reducible_eq_false_iff.1 hc
      rw [reduce_branch_literal, reduce_branch_literal]
      refine Except.alike_map_map _ fun truth => ⟨?_, rfl⟩
      cases truth with
      | true => exact ha
      | false => exact hb
  | @seq a a' b b' ha hb ih _ =>
    -- the first parts are finished together
    have hred := ha.reducible_eq
    cases hf : a.reducible with
    | true =>
      rw [reduce_seq_first hf, reduce_seq_first (hred.symm.trans hf)]
      exact ih.map fun p q hpq => ⟨.seq hpq.1 hb, hpq.2⟩
    | false =>
      obtain rfl := reducible_eq_false_iff.1 hf
      obtain rfl := reducible_eq_false_iff.1 (hred.symm.trans hf)
      exact .ok ⟨hb, rfl⟩
  | loop condition ha _ =>
    exact .ok ⟨.branch condition (.seq ha (.loop condition ha)) (.refl doNothing), rfl⟩
  | refl s => exact .refl (fun p => ⟨.refl p.1, rfl⟩) _
  | symm _ ih => exact ih.symm.mono fun p q hpq => ⟨hpq.1.symm, hpq.2.symm⟩
  | trans _ _ ih ih' =>
    exact ih.trans ih' fun p q r hpq hqr => ⟨hpq.1.trans hqr.1, hpq.2.trans hqr.2⟩

end Regrouped

end Stmt

/-! ### Runs -/

/-- Two states with regrouped statements in the same environment. -/
inductive State.Regrouped : State → State → Prop
  | intro {s t : Stmt} (env : Environment) : s.Regrouped t →
    Regrouped ⟨.stmt s, env⟩ ⟨.stmt t, env⟩

/-- States with regrouped statements cannot be told apart by what they show. -/
theorem State.Regrouped.shown_eq {s t : State} (h : s.Regrouped t) :
    s.render = t.render ∧ s.terminal = t.terminal ∧ s.env = t.env := by
  obtain ⟨env, hst⟩ := h
  refine ⟨?_, congrArg Bool.not hst.reducible_eq, rfl⟩
  rw [render, render, Term.render, Term.render, hst.render_eq]

/-- **Runs of regrouped statements go in lockstep.** -/
theorem lockstep_regrouped : Lockstep State.Regrouped where
  terminal_eq hst := hst.shown_eq.2.1
  step := by
    rintro _ _ ⟨env, hst⟩
    -- a step of a state is a step of its statement, put back into a term and into a state
    refine ((hst.reduce_alike env).map ?_).map
      fun p q (hpq : State.Regrouped ⟨p.1, p.2⟩ ⟨q.1, q.2⟩) => hpq
    rintro ⟨p, e⟩ ⟨q, _⟩ ⟨hpq, rfl⟩
    exact .intro e hpq

/-- **The grouping of sequences cannot be observed.** From the same environment and under the same
settings, the traces of regrouped statements show the same lines, the same environments and the
same terminal states at the same positions, and the same failures; and evaluation gives the
same. -/
theorem Stmt.Regrouped.unobservable {s t : Stmt} (h : s.Regrouped t) :
    (∀ (env : Environment) (settings : Settings) (n : Nat),
      let items (p : Stmt) := ((Machine.start settings ⟨.stmt p, env⟩).trace.take n).1
      seen State.render (items s) = seen State.render (items t) ∧
        seen State.terminal (items s) = seen State.terminal (items t) ∧
        seen State.env (items s) = seen State.env (items t)) ∧
    ∀ (env : Environment) (fuel : Nat),
      Parity.bigStep fuel ⟨.stmt s, env⟩ = Parity.bigStep fuel ⟨.stmt t, env⟩ := by
  refine ⟨fun env settings n => ?_, fun env fuel => ?_⟩
  · have hm := Machine.Beside.start (State.Regrouped.intro env h) settings
    exact ⟨lockstep_regrouped.take_trace (fun huv => huv.shown_eq.1) hm n,
      lockstep_regrouped.take_trace (fun huv => huv.shown_eq.2.1) hm n,
      lockstep_regrouped.take_trace (fun huv => huv.shown_eq.2.2) hm n⟩
  · rw [Parity.bigStep, Parity.bigStep, Term.evaluate, Term.evaluate, h.evaluate_eq]

/-- Three parts in the body of an endless loop, grouped in the two ways: under a limit, the traces
show the same, up to the failure and beyond it. -/
theorem Stmt.regrouped_loop_unobservable :
    let a : Stmt := .assign "x" (.binary .add (.var "x") (.literal (.number 1)))
    let b : Stmt := .assign "y" (.var "x")
    let c : Stmt := .branch (.binary .lessThan (.var "y") (.literal (.number 2))) a b
    let left : Stmt := .loop (.literal (.bool true)) (.seq (.seq a b) c)
    let right : Stmt := .loop (.literal (.bool true)) (.seq a (.seq b c))
    let start (p : Stmt) : State := ⟨.stmt p, .ofList [("x", .number 0)]⟩
    let items (p : Stmt) := ((Machine.start { limit := some 20 } (start p)).trace.take 25).1
    left.Regrouped right ∧ left ≠ right ∧
      seen State.render (items left) = seen State.render (items right) ∧
      seen State.env (items left) = seen State.env (items right) ∧
      Parity.bigStep 5 (start left) = Parity.bigStep 5 (start right) := by
  intro a b c left right start items
  have h : left.Regrouped right := by decide
  obtain ⟨htraces, heval⟩ := h.unobservable
  obtain ⟨hlines, -, henvs⟩ := htraces (.ofList [("x", .number 0)]) { limit := some 20 } 25
  exact ⟨h, by decide, hlines, henvs, heval _ 5⟩

end WhileLang
