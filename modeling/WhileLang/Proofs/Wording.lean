import WhileLang.Proofs.Rules

/-!
# The wording of faults

Programs fail only with **genuine** faults: an operator refuses nothing but truth values, a
condition is refused only if it is a number, and a cast to a literal is never refused
(`Expr.genuine_of_evaluate`, `Stmt.Yields.genuine`).

The wordings of genuine faults differ (`Fault.Genuine.message_inj`), so nothing is lost when the
results of programs are compared by what is shown of them (`Fault.shown_iff`).
-/

namespace WhileLang

/-! ### Genuine faults -/

/-- The faults that a program can have. -/
def Fault.Genuine : Fault → Prop
  | unbound _ => True
  | operands _ left right => left = .bool ∨ right = .bool
  | condition kind => kind = .number
  | notValue _ => False

variable {f g : Fault} {env : Environment}

theorem Operator.genuine_of_apply {op : Operator} {a b : Value} (h : op.apply a b = .error f) :
    f.Genuine := by
  obtain ⟨hkinds, rfl⟩ := apply_eq_error_iff.1 h
  exact hkinds

theorem Value.genuine_of_truth {v : Value} (h : v.truth = .error f) : f.Genuine := by
  obtain ⟨-, rfl⟩ := truth_eq_error_iff.1 h
  rfl

/-- Evaluation of an expression finds only genuine faults. -/
theorem Expr.genuine_of_evaluate {e : Expr} (h : e.evaluate env = .error f) : f.Genuine := by
  induction e with
  | literal v => cases h
  | var name =>
    obtain ⟨-, rfl⟩ := Environment.lookup_eq_error_iff.1 h
    exact trivial
  | binary op left right ihl ihr =>
    rw [evaluate] at h
    cases hl : left.evaluate env with
    | error f' =>
      rw [hl] at h
      cases h
      exact ihl hl
    | ok a =>
      cases hr : right.evaluate env with
      | error f' =>
        rw [hl, hr] at h
        cases h
        exact ihr hr
      | ok b =>
        rw [hl, hr] at h
        exact Operator.genuine_of_apply h

/-- A condition has only genuine faults. -/
theorem Expr.genuine_of_holds {e : Expr} (h : e.holds env = .error f) : f.Genuine := by
  rw [holds] at h
  cases he : e.evaluate env with
  | error f' =>
    rw [he] at h
    cases h
    exact genuine_of_evaluate he
  | ok v =>
    rw [he] at h
    exact Value.genuine_of_truth h

/-- The rules derive only genuine faults. -/
theorem Stmt.Finishes.genuine {s : Stmt} {n : Nat} {r : Except Fault Environment}
    (h : s.Finishes env n r) (hr : r = .error f) : f.Genuine := by
  induction h with
  | doNothing => cases hr
  | assign hv => cases hr
  | assignFault hf =>
    cases hr
    exact Expr.genuine_of_evaluate hf
  | branch _ _ ih => exact ih hr
  | branchFault hf =>
    cases hr
    exact Expr.genuine_of_holds hf
  | seq _ _ _ ih => exact ih hr
  | seqFault _ ih =>
    cases hr
    exact ih rfl
  | loop _ ih => exact ih hr

/-- A statement finishes only with genuine faults. -/
theorem Stmt.Yields.genuine {s : Stmt} (h : s.Yields env (.error f)) : f.Genuine := by
  obtain ⟨n, hn⟩ := yields_iff_exists_finishes.1 h
  exact hn.genuine rfl

/-! ### Wordings -/

/-- The sign of an operator is told from what comes after it. -/
theorem Operator.toList_symbol_append_inj {op op' : Operator} {r r' : List Char}
    (h : op.symbol.toList ++ r = op'.symbol.toList ++ r') : op = op' ∧ r = r' := by
  cases op <;> cases op' <;> simp_all [symbol]

theorem Operator.symbol_append_inj {op op' : Operator} {s t : String}
    (h : op.symbol ++ s = op'.symbol ++ t) : op = op' ∧ s = t := by
  have hlist : op.symbol.toList ++ s.toList = op'.symbol.toList ++ t.toList := by
    simpa using congrArg String.toList h
  obtain ⟨hop, hrest⟩ := toList_symbol_append_inj hlist
  exact ⟨hop, String.toList_inj.1 hrest⟩

/-- Two kinds are told from the way a fault lists them. -/
theorem Kind.list_inj {k l k' l' : Kind}
    (h : k.name ++ (" and " ++ l.name) = k'.name ++ (" and " ++ l'.name)) : k = k' ∧ l = l' := by
  revert h
  cases k <;> cases l <;> cases k' <;> cases l' <;> decide

namespace Fault

theorem message_unbound (x : String) : (unbound x).message = "unbound variable: " ++ x := rfl

theorem message_operands (op : Operator) (k l : Kind) :
    (operands op k l).message = "type mismatch: operator '" ++ op.symbol
      ++ "' expects two numbers, got " ++ k.name ++ " and " ++ l.name := rfl

theorem message_condition (k : Kind) :
    (condition k).message = "type mismatch: condition must be bool, got " ++ k.name := rfl

/-- The wordings of an unbound name and of refused operands part at their first letter. -/
theorem message_unbound_ne_operands (x : String) (op : Operator) (k l : Kind) :
    (unbound x).message ≠ (operands op k l).message := by
  simp [message_unbound, message_operands, ← String.toList_inj]

/-- The wordings of an unbound name and of a refused condition part at their first letter. -/
theorem message_unbound_ne_condition (x : String) (k : Kind) :
    (unbound x).message ≠ (condition k).message := by
  simp [message_unbound, message_condition, ← String.toList_inj]

/-- The wordings of refused operands and of a refused condition part at their third word. -/
theorem message_operands_ne_condition (op : Operator) (k l k' : Kind) :
    (operands op k l).message ≠ (condition k').message := by
  simp [message_operands, message_condition, ← String.toList_inj]

/-- Different genuine faults have **different wordings**. -/
theorem Genuine.message_inj (hf : f.Genuine) (hg : g.Genuine) (h : f.message = g.message) :
    f = g := by
  cases f with
  | notValue e => exact hf.elim
  | unbound x =>
    cases g with
    | notValue e => exact hg.elim
    | unbound y =>
      rw [message_unbound, message_unbound, String.append_right_inj] at h
      rw [h]
    | operands op k l => exact absurd h (message_unbound_ne_operands x op k l)
    | condition k => exact absurd h (message_unbound_ne_condition x k)
  | operands op k l =>
    cases g with
    | notValue e => exact hg.elim
    | unbound y => exact absurd h.symm (message_unbound_ne_operands y op k l)
    | operands op' k' l' =>
      simp only [message_operands, String.append_assoc, String.append_right_inj] at h
      obtain ⟨rfl, hkinds⟩ := Operator.symbol_append_inj h
      obtain ⟨rfl, rfl⟩ := Kind.list_inj ((String.append_right_inj _).1 hkinds)
      rfl
    | condition k' => exact absurd h (message_operands_ne_condition op k l k')
  | condition k =>
    cases g with
    | notValue e => exact hg.elim
    | unbound y => exact absurd h.symm (message_unbound_ne_condition y k)
    | operands op k' l => exact absurd h.symm (message_operands_ne_condition op k' l k)
    | condition k' => rw [show k = k' from Eq.trans hf (Eq.symm hg)]

end Fault

/-! ### What is shown of results -/

section Shown

variable {α : Type}

/-- A result whose fault, if it is one, is genuine is told from what is shown of it. -/
theorem Fault.mapError_message_inj {q r : Except Fault α}
    (hq : ∀ f, q = .error f → f.Genuine) (hr : ∀ f, r = .error f → f.Genuine)
    (h : q.mapError message = r.mapError message) : q = r := by
  cases q with
  | ok a =>
    cases r with
    | ok b => exact congrArg Except.ok (Except.ok.inj h)
    | error g => cases h
  | error f =>
    cases r with
    | ok b => cases h
    | error g =>
      exact congrArg Except.error ((hq f rfl).message_inj (hr g rfl) (Except.error.inj h))

/-- Two sets of results with genuine faults only are the same if **the same is shown** of
both. -/
theorem Fault.shown_iff {P Q : Except Fault α → Prop} (hP : ∀ f, P (.error f) → f.Genuine)
    (hQ : ∀ f, Q (.error f) → f.Genuine) :
    (∀ r : Except String α,
      (∃ q, P q ∧ q.mapError message = r) ↔ ∃ q, Q q ∧ q.mapError message = r) ↔
        ∀ q, P q ↔ Q q := by
  constructor
  · intro h q
    constructor
    · intro hq
      obtain ⟨r, hr, heq⟩ := (h _).1 ⟨q, hq, rfl⟩
      obtain rfl : r = q :=
        mapError_message_inj (fun f hf => hQ f (hf ▸ hr)) (fun f hf => hP f (hf ▸ hq)) heq
      exact hr
    · intro hq
      obtain ⟨r, hr, heq⟩ := (h _).2 ⟨q, hq, rfl⟩
      obtain rfl : r = q :=
        mapError_message_inj (fun f hf => hP f (hf ▸ hr)) (fun f hf => hQ f (hf ▸ hq)) heq
      exact hr
  · intro h r
    simp only [h]

end Shown

end WhileLang
