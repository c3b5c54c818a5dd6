import WhileLang.State

/-!
# Terms without their grouping

The text of a term shows no parentheses and writes nested sequences flat. This module has the terms
without what is thereby lost:

* a `Chain` is an expression as a row of leaves with operators between them, not saying which
  operator is applied first;
* a `Listing` is a statement as a row of clauses. A `Clause` is a statement other than a sequence,
  with chains for its expressions and listings for its parts.

`Expr.chain` and `Stmt.listing` drop the grouping of a term, and terms are the same up to grouping
if nothing else tells them apart (`Term.SameUpToGrouping`). The text of a term is **that of its
chain or listing** (`Expr.render_chain`, `Stmt.render_listing`), so terms that are the same up to
grouping have the same text. That the text loses nothing more is shown in
`WhileLang.Proofs.TraceLine`.
-/

namespace WhileLang

/-! ### Chains -/

/-- An operand without an operator in it. -/
inductive Leaf where
  | literal (v : Value)
  | var (name : String)
  deriving DecidableEq, Repr

/-- The text of a leaf. -/
def Leaf.render : Leaf → String
  | literal v => v.render
  | var name => name

/-- A first leaf, and then operators, each with the leaf behind it. -/
structure Chain where
  first : Leaf
  rest : List (Operator × Leaf)
  deriving DecidableEq, Repr

namespace Chain

/-- Two chains with an operator between them. -/
def join (op : Operator) (c d : Chain) : Chain where
  first := c.first
  rest := c.rest ++ (op, d.first) :: d.rest

/-- The text of operators with the leaves behind them. -/
def links : List (Operator × Leaf) → String
  | [] => ""
  | (op, leaf) :: rest => " " ++ (op.symbol ++ (" " ++ (leaf.render ++ links rest)))

/-- The text of a chain. -/
def render (c : Chain) : String :=
  c.first.render ++ links c.rest

theorem links_append (ps qs : List (Operator × Leaf)) :
    links (ps ++ qs) = links ps ++ links qs := by
  induction ps with
  | nil => rw [List.nil_append, links, String.empty_append]
  | cons p rest ih =>
    obtain ⟨op, leaf⟩ := p
    rw [List.cons_append, links, links, ih]
    simp only [String.append_assoc]

theorem render_join (op : Operator) (c d : Chain) :
    (join op c d).render = c.render ++ (" " ++ (op.symbol ++ (" " ++ d.render))) := by
  rw [render, render, render, join, links_append, links]
  simp only [String.append_assoc]

end Chain

/-- The leaves and operators of an expression, from left to right. -/
def Expr.chain : Expr → Chain
  | literal v => ⟨.literal v, []⟩
  | var name => ⟨.var name, []⟩
  | binary op left right => .join op left.chain right.chain

/-- The text of an expression is that of its chain. -/
theorem Expr.render_chain (e : Expr) : e.chain.render = e.render := by
  induction e with
  | literal v => exact String.append_empty
  | var name => exact String.append_empty
  | binary op left right ihl ihr =>
    rw [chain, Chain.render_join, ihl, ihr, render]
    simp only [String.append_assoc]

/-! ### Listings -/

mutual

/-- A statement that is not a sequence, without the grouping inside it. -/
inductive Clause where
  | doNothing
  | assign (name : String) (value : Chain)
  | branch (condition : Chain) (consequence alternative : Listing)
  | loop (condition : Chain) (body : Listing)

/-- One clause or more. -/
inductive Listing where
  | last (clause : Clause)
  | next (clause : Clause) (rest : Listing)

end

mutual

/-- The text of a clause. -/
def Clause.render : Clause → String
  | .doNothing => "do-nothing"
  | .assign name value => name ++ (" = " ++ value.render)
  | .branch condition consequence alternative =>
    "if (" ++ (condition.render ++ (") \x7b " ++ (consequence.render ++ (" \x7d else \x7b "
      ++ (alternative.render ++ " \x7d")))))
  | .loop condition body =>
    "while (" ++ (condition.render ++ (") \x7b " ++ (body.render ++ " \x7d")))

/-- The text of a listing. -/
def Listing.render : Listing → String
  | .last clause => clause.render
  | .next clause rest => clause.render ++ ("; " ++ rest.render)

end

namespace Listing

/-- The clauses of one listing and then those of another. -/
def append : Listing → Listing → Listing
  | last clause, m => next clause m
  | next clause rest, m => next clause (rest.append m)

theorem append_assoc : ∀ k l m : Listing, (k.append l).append m = k.append (l.append m)
  | last clause, l, m => rfl
  | next clause rest, l, m => by rw [append, append, append, append_assoc rest l m]

theorem render_append : ∀ l m : Listing, (l.append m).render = l.render ++ ("; " ++ m.render)
  | last clause, m => by rw [append, render, render]
  | next clause rest, m => by
    rw [append, render, render, render_append rest m]
    simp only [String.append_assoc]

end Listing

namespace Stmt

/-- The statements other than sequences that a statement consists of, from first to last. -/
def listing : Stmt → Listing
  | doNothing => .last .doNothing
  | assign name expr => .last (.assign name expr.chain)
  | branch condition consequence alternative =>
    .last (.branch condition.chain consequence.listing alternative.listing)
  | seq first second => first.listing.append second.listing
  | loop condition body => .last (.loop condition.chain body.listing)

/-- The text of a statement is that of its listing. -/
theorem render_listing (s : Stmt) : s.listing.render = s.render := by
  induction s with
  | doNothing => rw [listing, Listing.render, Clause.render, render]
  | assign name expr =>
    rw [listing, Listing.render, Clause.render, Expr.render_chain, render, String.append_assoc]
  | branch condition consequence alternative ihc iha =>
    rw [listing, Listing.render, Clause.render, Expr.render_chain, ihc, iha, render]
    simp only [String.append_assoc]
  | seq first second ihf ihs =>
    rw [listing, Listing.render_append, ihf, ihs, render, String.append_assoc]
  | loop condition body ih =>
    rw [listing, Listing.render, Clause.render, Expr.render_chain, ih, render]
    simp only [String.append_assoc]

end Stmt

/-! ### Terms -/

namespace Term

/-- Terms that differ at most in the grouping of their operators and of their sequences. -/
def SameUpToGrouping : Term → Term → Prop
  | expr e, expr e' => e.chain = e'.chain
  | stmt s, stmt s' => s.listing = s'.listing
  | expr _, stmt _ => False
  | stmt _, expr _ => False

/-- Terms that are the same up to grouping have the same text. -/
theorem SameUpToGrouping.render_eq {t u : Term} (h : t.SameUpToGrouping u) :
    t.render = u.render := by
  match t, u with
  | expr e, expr e' =>
    have hchain : e.chain = e'.chain := h
    rw [render, render, ← e.render_chain, ← e'.render_chain, hchain]
  | stmt s, stmt s' =>
    have hlisting : s.listing = s'.listing := h
    rw [render, render, ← s.render_listing, ← s'.render_listing, hlisting]
  | expr e, stmt s => exact h.elim
  | stmt s, expr e => exact h.elim

end Term

end WhileLang
