import Mathlib.Algebra.MvPolynomial.Eval
import Mathlib.Data.Int.ModEq
import WhileLang.Proofs.Agreement
import WhileLang.Proofs.Names

/-!
# Arithmetic modulo 2⁶⁴

Sums and products wrap around at every operator. All of that wrapping comes to the same as to
calculate with **exact integers** and to wrap around once, at the end: the value of an arithmetic
expression is the one number that is congruent to its exact value modulo 2⁶⁴
(`Expr.ExactValue.evaluate_eq`). For keeping 64 bits of an integer, `Int64.ofInt`, is a
homomorphism, and so it is enough to go over the expression once.

Hence an expression may be rewritten like a polynomial. Two expressions that **denote** the same
integer polynomial (`Expr.Denotes`) have the same exact value, whatever their intermediate results
are, and so the same value. A comparison is not one of exact values, but of the wrapped ones.
-/

/-- The numbers that are congruent to an integer modulo 2⁶⁴ are **just one**: what is kept of that
integer. -/
theorem Int64.toInt_modEq_iff {k : Int64} {z : ℤ} :
    k.toInt ≡ z [ZMOD 2 ^ 64] ↔ k = .ofInt z := by
  constructor
  · intro h
    have hrem : k.toInt % (Int64.size : ℕ) = z % (Int64.size : ℕ) := h
    have hbmod : k.toInt.bmod Int64.size = z.bmod Int64.size := by
      rw [← Int.emod_bmod, hrem, Int.emod_bmod]
    rw [← Int64.toInt_inj, Int64.toInt_ofInt, ← hbmod, ← Int64.toInt_ofInt, Int64.ofInt_toInt]
  · rintro rfl
    rw [Int64.toInt_ofInt]
    exact Int.bmod_emod

namespace WhileLang

variable {env : Environment} {e : Expr} {z : ℤ}

/-! ### Exact values -/

namespace Expr

/-- An arithmetic expression and its exact value: that of its sums and products as integers,
without any wrapping, where the environment has numbers for its variables. -/
inductive ExactValue (env : Environment) : Expr → ℤ → Prop
  | number (n : Int64) : ExactValue env (literal (.number n)) n.toInt
  | var {name : String} {n : Int64} : env.get? name = some (.number n) →
    ExactValue env (var name) n.toInt
  | add {left right : Expr} {a b : ℤ} : ExactValue env left a → ExactValue env right b →
    ExactValue env (binary .add left right) (a + b)
  | multiply {left right : Expr} {a b : ℤ} : ExactValue env left a → ExactValue env right b →
    ExactValue env (binary .multiply left right) (a * b)

/-- Where its operands have numbers, an operator is applied to them. -/
theorem evaluate_binary_of_numbers {op : Operator} {left right : Expr} {a b : Int64}
    (hleft : left.evaluate env = .ok (.number a)) (hright : right.evaluate env = .ok (.number b)) :
    (binary op left right).evaluate env = .ok (op.onNumbers a b) :=
  evaluate_binary_eq_ok_iff.2 ⟨_, _, hleft, hright, rfl⟩

/-- To wrap around at every operator is **to wrap around once**, at the end. -/
theorem ExactValue.evaluate_eq (h : e.ExactValue env z) :
    e.evaluate env = .ok (.number (.ofInt z)) := by
  induction h with
  | number n => rw [Int64.ofInt_toInt, evaluate]
  | var hx => rw [Int64.ofInt_toInt, evaluate, Environment.lookup_eq_ok_iff.2 hx]
  | add _ _ ihl ihr => rw [Int64.ofInt_add, evaluate_binary_of_numbers ihl ihr]; rfl
  | multiply _ _ ihl ihr => rw [Int64.ofInt_mul, evaluate_binary_of_numbers ihl ihr]; rfl

/-! ### Polynomials -/

/-- An arithmetic expression and the polynomial that it denotes, in the names as indeterminates. -/
inductive Denotes : Expr → MvPolynomial String ℤ → Prop
  | number (n : Int64) : Denotes (literal (.number n)) (MvPolynomial.C n.toInt)
  | var (name : String) : Denotes (var name) (MvPolynomial.X name)
  | add {left right : Expr} {p q : MvPolynomial String ℤ} : Denotes left p → Denotes right q →
    Denotes (binary .add left right) (p + q)
  | multiply {left right : Expr} {p q : MvPolynomial String ℤ} : Denotes left p →
    Denotes right q → Denotes (binary .multiply left right) (p * q)

end Expr

/-- The integer that an environment has for a name, and zero if it has no number for it. -/
def Environment.integer (env : Environment) (name : String) : ℤ :=
  match env.get? name with
  | some (.number n) => n.toInt
  | _ => 0

namespace Expr

/-- The exact value of an expression is that of **its polynomial**, where its variables are bound to
numbers. -/
theorem Denotes.exactValue {p : MvPolynomial String ℤ} (h : e.Denotes p)
    (henv : ∀ x ∈ e.reads, ∃ n, env.get? x = some (.number n)) :
    e.ExactValue env (MvPolynomial.eval env.integer p) := by
  induction h with
  | number n =>
    rw [MvPolynomial.eval_C]
    exact .number n
  | var name =>
    obtain ⟨n, hn⟩ := henv name List.mem_cons_self
    have hinteger : env.integer name = n.toInt := by rw [Environment.integer, hn]
    rw [MvPolynomial.eval_X, hinteger]
    exact .var hn
  | add _ _ ihl ihr =>
    rw [map_add]
    exact .add (ihl fun x hx => henv x (List.mem_append_left _ hx))
      (ihr fun x hx => henv x (List.mem_append_right _ hx))
  | multiply _ _ ihl ihr =>
    rw [map_mul]
    exact .multiply (ihl fun x hx => henv x (List.mem_append_left _ hx))
      (ihr fun x hx => henv x (List.mem_append_right _ hx))

end Expr

/-! ### The two readings -/

namespace Parity

/-- Both readings of an expression succeed with its value. -/
theorem bothStepTo_of_evaluate {v : Value} (h : e.evaluate env = .ok v) :
    BothStepTo ⟨.expr e, env⟩ (.value v) := by
  refine BigStepsTo.both ⟨0, ?_⟩
  rw [bigStep, Term.evaluate, h]
  rfl

/-- **Arithmetic is exact modulo 2⁶⁴.**

* An arithmetic expression has, in both readings, the one number that is congruent to its exact
  value.
* Where its variables are bound to numbers, that is the value of the polynomial that it denotes.
* Two expressions that denote the same polynomial have the same number, in both readings and in
  every environment that binds their variables to numbers.
* A comparison of two arithmetic expressions compares the numbers that they have, as signed
  integers. -/
theorem arithmetic_exact_modulo :
    (∀ e env z, Expr.ExactValue env e z →
      ∃ n : Int64, (∀ k : Int64, k.toInt ≡ z [ZMOD 2 ^ 64] ↔ k = n) ∧
        BothStepTo ⟨.expr e, env⟩ (.value (.number n))) ∧
    (∀ e p, Expr.Denotes e p → ∀ env : Environment,
      (∀ x ∈ e.reads, ∃ n, env.get? x = some (.number n)) →
      e.ExactValue env (MvPolynomial.eval env.integer p)) ∧
    (∀ e e' p, Expr.Denotes e p → Expr.Denotes e' p → ∀ env : Environment,
      (∀ x ∈ e.reads ++ e'.reads, ∃ n, env.get? x = some (.number n)) →
      ∃ n : Int64, BothStepTo ⟨.expr e, env⟩ (.value (.number n)) ∧
        BothStepTo ⟨.expr e', env⟩ (.value (.number n))) ∧
    ∀ e e' env z z', Expr.ExactValue env e z → Expr.ExactValue env e' z' →
      ∀ n n' : Int64, n.toInt ≡ z [ZMOD 2 ^ 64] → n'.toInt ≡ z' [ZMOD 2 ^ 64] →
        BothStepTo ⟨.expr (.binary .lessThan e e'), env⟩
          (.value (.bool (decide (n.toInt < n'.toInt)))) := by
  refine ⟨fun e env z h => ?number, fun e p h env henv => h.exactValue henv,
    fun e e' p h h' env henv => ?polynomial, fun e e' env z z' h h' n n' hn hn' => ?compare⟩
  case number =>
    exact ⟨.ofInt z, fun k => Int64.toInt_modEq_iff, bothStepTo_of_evaluate h.evaluate_eq⟩
  case polynomial =>
    have hexact := h.exactValue fun x hx => henv x (List.mem_append_left _ hx)
    have hexact' := h'.exactValue fun x hx => henv x (List.mem_append_right _ hx)
    exact ⟨_, bothStepTo_of_evaluate hexact.evaluate_eq, bothStepTo_of_evaluate hexact'.evaluate_eq⟩
  case compare =>
    have hvalue : (Expr.binary .lessThan e e').evaluate env = .ok (Operator.lessThan.onNumbers _ _) :=
      Expr.evaluate_binary_of_numbers h.evaluate_eq h'.evaluate_eq
    rw [← Int64.toInt_modEq_iff.1 hn, ← Int64.toInt_modEq_iff.1 hn'] at hvalue
    have hless : decide (n < n') = decide (n.toInt < n'.toInt) :=
      decide_eq_decide.2 Int64.lt_iff_toInt_lt
    rw [Operator.onNumbers, hless] at hvalue
    exact bothStepTo_of_evaluate hvalue

/-- A product with a sum, and the same multiplied out. The one comes to the least number by a sum
that wraps around, the other by a product and a sum that do. Their exact value exceeds the greatest
number, and still they compare as less. -/
theorem arithmetic_exact_modulo_multiplied_out :
    let product : Expr := .binary .multiply (.var "x") (.binary .add (.var "y") (.var "z"))
    let sum : Expr := .binary .add (.binary .multiply (.var "x") (.var "y"))
      (.binary .multiply (.var "x") (.var "z"))
    let p : MvPolynomial String ℤ := .X "x" * (.X "y" + .X "z")
    let env : Environment :=
      .ofList [("x", .number 3), ("y", .number Int64.maxValue), ("z", .number 1)]
    product.Denotes p ∧ sum.Denotes p ∧
      (∀ x ∈ product.reads ++ sum.reads, ∃ n, env.get? x = some (.number n)) ∧
      product.ExactValue env (3 * 2 ^ 63) ∧
      (∃ n : Int64, BothStepTo ⟨.expr product, env⟩ (.value (.number n)) ∧
        BothStepTo ⟨.expr sum, env⟩ (.value (.number n))) ∧
      BothStepTo ⟨.expr product, env⟩ (.value (.number Int64.minValue)) ∧
      BothStepTo ⟨.expr (.binary .lessThan product (.var "y")), env⟩ (.value (.bool true)) := by
  intro product sum p env
  obtain ⟨hnumber, hpolynomial, hsame, hcompare⟩ := arithmetic_exact_modulo
  have hproduct : product.Denotes p := .multiply (.var "x") (.add (.var "y") (.var "z"))
  have hsum : sum.Denotes p := by
    have hexpanded : p = .X "x" * .X "y" + .X "x" * .X "z" := mul_add _ _ _
    rw [hexpanded]
    exact .add (.multiply (.var "x") (.var "y")) (.multiply (.var "x") (.var "z"))
  have hbound : ∀ x ∈ product.reads ++ sum.reads, ∃ n, env.get? x = some (.number n) := by
    intro x hx
    have hnames : ∀ x ∈ product.reads ++ sum.reads, x = "x" ∨ x = "y" ∨ x = "z" :=
      of_decide_eq_true rfl
    rcases hnames x hx with rfl | rfl | rfl
    · exact ⟨3, rfl⟩
    · exact ⟨Int64.maxValue, rfl⟩
    · exact ⟨1, rfl⟩
  have hexact : product.ExactValue env (3 * 2 ^ 63) := by
    have heval : MvPolynomial.eval env.integer p = 3 * 2 ^ 63 := by
      rw [map_mul, map_add, MvPolynomial.eval_X, MvPolynomial.eval_X, MvPolynomial.eval_X]
      rfl
    rw [← heval]
    exact hpolynomial product p hproduct env fun x hx => hbound x (List.mem_append_left _ hx)
  have hleast : Int64.minValue.toInt ≡ 3 * 2 ^ 63 [ZMOD 2 ^ 64] := by decide
  obtain ⟨n, hn, hboth⟩ := hnumber product env _ hexact
  obtain rfl : Int64.minValue = n := (hn Int64.minValue).1 hleast
  exact ⟨hproduct, hsum, hbound, hexact, hsame product sum p hproduct hsum env hbound, hboth,
    hcompare product (.var "y") env _ _ hexact (.var rfl) _ _ hleast (Int.ModEq.refl _)⟩

end Parity

end WhileLang
