import WhileLang.Proofs.Cost
import WhileLang.Proofs.Frame

/-!
# Expressions as code for a stack

The **code** of an expression is its postfix form: the code of the left operand, the code of the
right operand, and then the operator. A stack machine executes it one instruction after the other
and stops at the first one that fails.

Reduction looks for the next redex from the root of an expression, and evaluation recurses on its
operands. Both come to what the stack machine comes to: the value that is left on the stack
(`Expr.execute_code`), or the fault of the instruction that fails (`Expr.exists_stopsAt_code`). The
steps of a run are the instructions other than `push` that were executed before the end, so that
`Expr.evaluates_as_stack_code` tells not only which fault is found, but also after how many steps.
-/

namespace WhileLang

/-! ### Instructions -/

/-- What an operator makes of two integers: their sum or product, of which 64 bits are kept, or
whether the left one is the smaller one. -/
def Operator.onIntegers (a b : Int) : Operator → Value
  | add => .number (.ofInt (a + b))
  | multiply => .number (.ofInt (a * b))
  | lessThan => .bool (a < b)

/-- Numbers wrap around, and are compared, **as the integers that they stand for**. -/
theorem Operator.onNumbers_eq_onIntegers (op : Operator) (a b : Int64) :
    op.onNumbers a b = op.onIntegers a.toInt b.toInt := by
  cases op with
  | add => simp [onNumbers, onIntegers, Int64.ofInt_add]
  | multiply => simp [onNumbers, onIntegers, Int64.ofInt_mul]
  | lessThan => simp [onNumbers, onIntegers, Int64.lt_iff_toInt_lt]

/-- An instruction to a machine with a stack of values. -/
inductive Instruction where
  /-- Puts a value on the stack. -/
  | push (v : Value)
  /-- Puts the value of a name on the stack. -/
  | load (name : String)
  /-- Takes the right and then the left operand off the stack, and puts the result there. -/
  | apply (op : Operator)
  deriving DecidableEq, Repr

/-- Why a stack machine stops before the end of its code. -/
inductive Trap where
  /-- The instruction failed. -/
  | fault (f : Fault)
  /-- There were too few values on the stack for an operator. -/
  | underflow
  deriving DecidableEq, Repr

namespace Instruction

/-- What an instruction makes of a stack, whose top comes first. -/
def exec (env : Environment) : Instruction → List Value → Except Trap (List Value)
  | push v, stack => .ok (v :: stack)
  | load name, stack =>
    match env.get? name with
    | some v => .ok (v :: stack)
    | none => .error (.fault (.unbound name))
  | apply op, .number right :: .number left :: stack =>
    .ok (op.onIntegers left.toInt right.toInt :: stack)
  | apply op, right :: left :: _ => .error (.fault (.operands op left.kind right.kind))
  | apply _, _ => .error .underflow

/-- Whether an instruction looks a name up or applies an operator. -/
def works : Instruction → Bool
  | push _ => false
  | load _ => true
  | apply _ => true

variable {env : Environment} {stack : List Value} {i : Instruction} {f : Fault}

theorem exec_load_of_ok {name : String} {v : Value} (h : env.lookup name = .ok v) :
    (load name).exec env stack = .ok (v :: stack) := by
  rw [exec, Environment.lookup_eq_ok_iff.1 h]

theorem exec_load_of_error {name : String} (h : env.lookup name = .error f) :
    (load name).exec env stack = .error (.fault f) := by
  obtain ⟨hnone, rfl⟩ := Environment.lookup_eq_error_iff.1 h
  rw [exec, hnone]

theorem exec_apply_of_ok {op : Operator} {left right v : Value} (h : op.apply left right = .ok v) :
    (apply op).exec env (right :: left :: stack) = .ok (v :: stack) := by
  match left, right with
  | .number a, .number b =>
    obtain rfl : op.onNumbers a b = v := Except.ok.inj h
    rw [exec, ← op.onNumbers_eq_onIntegers]
  | .bool _, _ => cases h
  | .number _, .bool _ => cases h

theorem exec_apply_of_error {op : Operator} {left right : Value}
    (h : op.apply left right = .error f) :
    (apply op).exec env (right :: left :: stack) = .error (.fault f) := by
  obtain ⟨hkinds, rfl⟩ := Operator.apply_eq_error_iff.1 h
  match left, right with
  | .number _, .number _ => cases h
  | .bool _, .number _ => rfl
  | .bool _, .bool _ => rfl
  | .number _, .bool _ => rfl

/-- **The faults of instructions**: a name that is not bound, and an operator with a truth value
among the two values that it takes off the stack. -/
theorem exec_eq_fault_iff :
    i.exec env stack = .error (.fault f) ↔
      (∃ name, i = load name ∧ env.get? name = none ∧ f = .unbound name) ∨
      ∃ op left right below, i = apply op ∧ stack = right :: left :: below ∧
        (left.kind = .bool ∨ right.kind = .bool) ∧ f = .operands op left.kind right.kind := by
  constructor
  · intro h
    match i, stack with
    | push v, stack => cases h
    | load name, stack =>
      cases hlookup : env.lookup name with
      | ok v => cases (exec_load_of_ok hlookup).symm.trans h
      | error g =>
        obtain rfl := Trap.fault.inj (Except.error.inj ((exec_load_of_error hlookup).symm.trans h))
        obtain ⟨hnone, rfl⟩ := Environment.lookup_eq_error_iff.1 hlookup
        exact .inl ⟨name, rfl, hnone, rfl⟩
    | apply op, right :: left :: below =>
      cases happly : op.apply left right with
      | ok v => cases (exec_apply_of_ok happly).symm.trans h
      | error g =>
        obtain rfl := Trap.fault.inj (Except.error.inj ((exec_apply_of_error happly).symm.trans h))
        obtain ⟨hkinds, rfl⟩ := Operator.apply_eq_error_iff.1 happly
        exact .inr ⟨op, left, right, below, rfl, rfl, hkinds, rfl⟩
    | apply op, [] => cases h
    | apply op, [v] => simp [exec] at h
  · rintro (⟨name, rfl, hnone, rfl⟩ | ⟨op, left, right, below, rfl, rfl, hkinds, rfl⟩)
    · exact exec_load_of_error (Environment.lookup_eq_error_iff.2 ⟨hnone, rfl⟩)
    · exact exec_apply_of_error (Operator.apply_eq_error_iff.2 ⟨hkinds, rfl⟩)

end Instruction

/-! ### Execution -/

/-- Executes code on a stack, up to its end or to the first instruction that fails. -/
def execute (env : Environment) (code : List Instruction) (stack : List Value) :
    Except Trap (List Value) :=
  code.foldlM (fun stack i => i.exec env stack) stack

section Execute

variable {env : Environment} {code code' executed : List Instruction}
  {stack stack' top : List Value} {i : Instruction} {f : Fault}

theorem execute_singleton : execute env [i] stack = i.exec env stack := by
  simp [execute]

/-- Code behind code that succeeds is executed on the stack that this leaves. -/
theorem execute_append_of_ok (h : execute env code stack = .ok stack') :
    execute env (code ++ code') stack = execute env code' stack' := by
  have hfirst : code.foldlM (fun stack i => i.exec env stack) stack = .ok stack' := h
  rw [execute, List.foldlM_append, hfirst]
  rfl

/-- Code behind code that fails is not executed. -/
theorem execute_append_of_error {trap : Trap} (h : execute env code stack = .error trap) :
    execute env (code ++ code') stack = .error trap := by
  have hfirst : code.foldlM (fun stack i => i.exec env stack) stack = .error trap := h
  rw [execute, List.foldlM_append, hfirst]
  rfl

/-- Execution stops with a fault: it gets through `executed`, and the instruction `i` behind that
fails on the stack `top`. -/
structure StopsAt (env : Environment) (code : List Instruction) (stack : List Value)
    (executed : List Instruction) (i : Instruction) (top : List Value) (f : Fault) : Prop where
  exists_rest : ∃ rest, code = executed ++ i :: rest
  execute_eq : execute env executed stack = .ok top
  exec_eq : i.exec env top = .error (.fault f)

/-- An instruction that fails at once. -/
theorem stopsAt_singleton (h : i.exec env stack = .error (.fault f)) :
    StopsAt env [i] stack [] i stack f where
  exists_rest := ⟨[], rfl⟩
  execute_eq := rfl
  exec_eq := h

/-- Code behind the place where execution stops makes no difference. -/
theorem StopsAt.append (h : StopsAt env code stack executed i top f) (code' : List Instruction) :
    StopsAt env (code ++ code') stack executed i top f where
  exists_rest := by
    obtain ⟨rest, rfl⟩ := h.exists_rest
    exact ⟨rest ++ code', by simp⟩
  execute_eq := h.execute_eq
  exec_eq := h.exec_eq

/-- Behind code that succeeds, execution stops where it stops on the stack that this leaves. -/
theorem StopsAt.after (h : StopsAt env code' stack' executed i top f)
    (hcode : execute env code stack = .ok stack') :
    StopsAt env (code ++ code') stack (code ++ executed) i top f where
  exists_rest := by
    obtain ⟨rest, rfl⟩ := h.exists_rest
    exact ⟨rest, by simp⟩
  execute_eq := (execute_append_of_ok hcode).trans h.execute_eq
  exec_eq := h.exec_eq

/-- Where execution stops, it stops with the fault of the instruction there. -/
theorem StopsAt.execute_eq_error (h : StopsAt env code stack executed i top f) :
    execute env code stack = .error (.fault f) := by
  obtain ⟨rest, rfl⟩ := h.exists_rest
  have hfails : execute env [i] top = .error (.fault f) := execute_singleton.trans h.exec_eq
  rw [execute_append_of_ok h.execute_eq, ← List.singleton_append]
  exact execute_append_of_error hfails

end Execute

/-! ### The code of expressions -/

namespace Expr

variable {e : Expr} {env : Environment} {v : Value} {f : Fault}

/-- The code of an expression, operands before their operator. -/
def code : Expr → List Instruction
  | literal v => [.push v]
  | var name => [.load name]
  | binary op left right => left.code ++ (right.code ++ [.apply op])

/-- The cost of an expression is the number of instructions in its code that do some work. -/
theorem countP_works_code (e : Expr) : e.code.countP Instruction.works = e.cost := by
  induction e with
  | literal v => rfl
  | var name => rfl
  | binary op left right ihl ihr =>
    rw [code, List.countP_append, List.countP_append, ihl, ihr, cost, Nat.add_assoc]
    rfl

/-- The code of an expression that has a value **leaves that value on the stack**, on top of what
was there. -/
theorem execute_code (h : e.evaluate env = .ok v) (stack : List Value) :
    execute env e.code stack = .ok (v :: stack) := by
  induction e generalizing v stack with
  | literal w =>
    obtain rfl : w = v := Except.ok.inj h
    rfl
  | var name =>
    have hlookup : env.lookup name = .ok v := h
    exact execute_singleton.trans (Instruction.exec_load_of_ok hlookup)
  | binary op left right ihl ihr =>
    obtain ⟨a, b, ha, hb, hv⟩ := evaluate_binary_eq_ok_iff.1 h
    calc execute env (left.code ++ (right.code ++ [.apply op])) stack
        = execute env (right.code ++ [.apply op]) (a :: stack) :=
          execute_append_of_ok (ihl ha stack)
      _ = execute env [.apply op] (b :: a :: stack) := execute_append_of_ok (ihr hb (a :: stack))
      _ = .ok (v :: stack) := execute_singleton.trans (Instruction.exec_apply_of_ok hv)

/-- The code of an expression that has no value **stops with the fault of the expression**. The
instructions executed before that do as much work as the expression takes steps. -/
theorem exists_stopsAt_code (h : e.evaluate env = .error f) (stack : List Value) :
    ∃ executed i top, StopsAt env e.code stack executed i top f ∧
      executed.countP Instruction.works = e.steps env := by
  induction e generalizing stack with
  | literal v => cases h
  | var name =>
    have hlookup : env.lookup name = .error f := h
    refine ⟨[], .load name, stack, stopsAt_singleton (Instruction.exec_load_of_error hlookup), ?_⟩
    rw [steps, hlookup]
    rfl
  | binary op left right ihl ihr =>
    cases ha : left.evaluate env with
    | error g =>
      -- the right operand is not looked at
      obtain rfl : g = f := by
        rw [evaluate, ha] at h
        exact Except.error.inj h
      obtain ⟨executed, i, top, hstop, hcount⟩ := ihl ha stack
      refine ⟨executed, i, top, hstop.append _, ?_⟩
      rw [hcount, steps, ha]
    | ok a =>
      have hleft := execute_code ha stack
      have hcost : left.code.countP Instruction.works = left.steps env :=
        left.countP_works_code.trans (steps_eq_cost ha).symm
      cases hb : right.evaluate env with
      | error g =>
        obtain rfl : g = f := by
          rw [evaluate, ha, hb] at h
          exact Except.error.inj h
        obtain ⟨executed, i, top, hstop, hcount⟩ := ihr hb (a :: stack)
        refine ⟨left.code ++ executed, i, top, (hstop.append _).after hleft, ?_⟩
        rw [List.countP_append, hcost, hcount, steps, ha, hb]
      | ok b =>
        have happly : op.apply a b = .error f := by
          rw [evaluate, ha, hb] at h
          exact h
        have hright := execute_code hb (a :: stack)
        have hstop : StopsAt env [.apply op] (b :: a :: stack) [] (.apply op) (b :: a :: stack) f :=
          stopsAt_singleton (Instruction.exec_apply_of_error happly)
        refine ⟨left.code ++ (right.code ++ []), .apply op, b :: a :: stack,
          (hstop.after hright).after hleft, ?_⟩
        rw [List.append_nil, List.countP_append, hcost, right.countP_works_code, ← steps_eq_cost hb]
        simp only [steps, ha, hb, happly]

end Expr

/-! ### Runs of expressions -/

namespace State

variable {e : Expr} {env : Environment} {v : Value} {f : Fault}

/-- The run of an expression that has a value halts with it. -/
theorem haltsIn_expr (h : e.evaluate env = .ok v) :
    HaltsIn ⟨.expr e, env⟩ e.cost ⟨.expr (.literal v), env⟩ := by
  obtain ⟨t, ht, hterm⟩ := exists_haltsIn_steps h
  obtain ⟨e', rfl⟩ := exists_eq_of_after_expr ht.after_eq
  obtain rfl := Term.expr.inj hterm
  rwa [Expr.steps_eq_cost h] at ht

/-- The run of an expression that has no value fails after its steps. -/
theorem exists_failsIn_expr (h : e.evaluate env = .error f) :
    ∃ e', FailsIn ⟨.expr e, env⟩ (e.steps env) ⟨.expr e', env⟩ f := by
  have hend := endsIn_expr e env
  rw [h] at hend
  obtain ⟨t, ht, hout⟩ | ⟨t, g, ht, herr⟩ := hend
  · obtain ⟨o, ho⟩ := exists_outcome_eq_ok ht.terminal
    cases ho.symm.trans hout
  · obtain rfl := Except.error.inj herr
    obtain ⟨e', rfl⟩ := exists_eq_of_after_expr ht.after_eq
    exact ⟨e', ht⟩

end State

/-- **Expressions are evaluated like code for a stack.** The code of an expression, executed on an
empty stack, either succeeds or stops with a fault, and never runs out of values.

* If it succeeds, one value is left. Evaluation finds that value, and so do the small steps, which
  halt after as many steps as there are lookups and operators in the code.
* If it stops, then at an instruction that looks up a name that is not bound, or that applies an
  operator to two values with a truth value among them; the fault names their kinds, the left one
  first. Evaluation finds that fault, and so do the small steps, after as many steps as lookups
  and operators were executed before.

No step changes the environment. -/
theorem Expr.evaluates_as_stack_code (e : Expr) (env : Environment) :
    let s : State := ⟨.expr e, env⟩
    ((∃ v, execute env e.code [] = .ok [v] ∧
        (∀ fuel, Parity.bigStep fuel s = some (.ok (.value v))) ∧
        s.HaltsIn (e.code.countP Instruction.works) ⟨.expr (.literal v), env⟩ ∧
        ∃ fuel p, Parity.smallStep fuel {} s = some p ∧ p.result = .ok (.value v)) ∨
      ∃ executed i rest stack f, e.code = executed ++ i :: rest ∧
        execute env executed [] = .ok stack ∧ i.exec env stack = .error (.fault f) ∧
        ((∃ name, i = .load name ∧ env.get? name = none ∧ f = .unbound name) ∨
          ∃ op left right below, i = .apply op ∧ stack = right :: left :: below ∧
            (left.kind = .bool ∨ right.kind = .bool) ∧ f = .operands op left.kind right.kind) ∧
        execute env e.code [] = .error (.fault f) ∧
        (∀ fuel, Parity.bigStep fuel s = some (.error f)) ∧
        (∃ e', s.FailsIn (executed.countP Instruction.works) ⟨.expr e', env⟩ f) ∧
        ∃ fuel p, Parity.smallStep fuel {} s = some p ∧ p.result = .error (.fault f)) ∧
    ∀ n u, s.after n = .ok u → u.env = env := by
  intro s
  constructor
  · have hbig : ∀ fuel, Parity.bigStep fuel s = some ((e.evaluate env).map .value) := fun _ => rfl
    have hnone : ({} : Settings).limit = none := rfl
    have hsmall := (Parity.exists_bigStep_iff hnone).1 ⟨0, _, hbig 0, rfl⟩
    cases hv : e.evaluate env with
    | ok v =>
      rw [hv] at hbig hsmall
      have hhalt := State.haltsIn_expr hv
      rw [← e.countP_works_code] at hhalt
      exact .inl ⟨v, execute_code hv [], hbig, hhalt, hsmall⟩
    | error f =>
      rw [hv] at hbig hsmall
      obtain ⟨executed, i, stack, hstop, hcount⟩ := exists_stopsAt_code hv []
      obtain ⟨rest, hrest⟩ := hstop.exists_rest
      have hfail := State.exists_failsIn_expr hv
      rw [← hcount] at hfail
      exact .inr ⟨executed, i, rest, stack, f, hrest, hstop.execute_eq, hstop.exec_eq,
        Instruction.exec_eq_fault_iff.1 hstop.exec_eq, hstop.execute_eq_error, hbig, hfail, hsmall⟩
  · intro n u hu
    obtain ⟨e', rfl⟩ := State.exists_eq_of_after_expr hu
    rfl

-- The name on the right is found to be missing before the kind of the left operand matters.
example : execute .empty (Expr.binary .add (.literal (.bool true)) (.var "x")).code []
    = .error (.fault (.unbound "x")) := rfl

end WhileLang
