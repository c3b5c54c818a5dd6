import WhileLang.Proofs.Legibility
import WhileLang.Proofs.Names

/-!
# What a trace line tells

The text of a state is one line of a trace: the term, and behind it the environment. It shows no
parentheses, no brackets around sequences and no quotes around names, and yet **it loses nothing but
the grouping** of the term (`State.render_eq_iff`), as long as all names are identifiers.

The term is told from the environment behind it by `WhileLang.Proofs.Legibility`, and the bindings
are told from each other by the guillemets around their values.
-/

namespace WhileLang

/-! ### Terms -/

/-- The names in the chain of an expression are those that it reads. -/
theorem Expr.legible_chain {e : Expr} (h : ∀ x ∈ e.reads, isIdentifier x = true) :
    e.chain.Legible := by
  induction e with
  | literal v => exact ⟨trivial, fun p hp => nomatch hp⟩
  | var name => exact ⟨h name (List.mem_singleton_self name), fun p hp => nomatch hp⟩
  | binary op left right ihl ihr =>
    obtain ⟨hl, hr⟩ := List.forall_mem_append.1 h
    obtain ⟨hfirst, hrest⟩ := ihl hl
    obtain ⟨hfirst', hrest'⟩ := ihr hr
    exact ⟨hfirst, List.forall_mem_append.2 ⟨hrest, List.forall_mem_cons.2 ⟨hfirst', hrest'⟩⟩⟩

theorem Listing.Legible.append : ∀ {l m : Listing}, l.Legible → m.Legible → (l.append m).Legible
  | .last _, _, hl, hm => ⟨hl, hm⟩
  | .next _ _, _, hl, hm => ⟨hl.1, Legible.append hl.2 hm⟩

/-- The names in the listing of a statement are those that it reads and assigns. -/
theorem Stmt.legible_listing {s : Stmt} (hreads : ∀ x ∈ s.reads, isIdentifier x = true)
    (htargets : ∀ x ∈ s.targets, isIdentifier x = true) : s.listing.Legible := by
  induction s with
  | doNothing => exact trivial
  | assign name expr =>
    exact ⟨htargets name (List.mem_singleton_self name), Expr.legible_chain hreads⟩
  | branch condition consequence alternative ihc iha =>
    obtain ⟨hcondition, hbranches⟩ := List.forall_mem_append.1 hreads
    obtain ⟨hconsequence, halternative⟩ := List.forall_mem_append.1 hbranches
    obtain ⟨hconsequence', halternative'⟩ := List.forall_mem_append.1 htargets
    exact ⟨Expr.legible_chain hcondition, ihc hconsequence hconsequence',
      iha halternative halternative'⟩
  | seq first second ihf ihs =>
    obtain ⟨hfirst, hsecond⟩ := List.forall_mem_append.1 hreads
    obtain ⟨hfirst', hsecond'⟩ := List.forall_mem_append.1 htargets
    exact (ihf hfirst hfirst').append (ihs hsecond hsecond')
  | loop condition body ih =>
    obtain ⟨hcondition, hbody⟩ := List.forall_mem_append.1 hreads
    exact ⟨Expr.legible_chain hcondition, ih hbody htargets⟩

/-- The term of a state is told from the environment behind it, **up to grouping**. -/
theorem Term.sameUpToGrouping_of_append_eq {t u : Term} {r r' : List Char}
    (ht : ∀ x ∈ t.reads ++ t.targets, isIdentifier x = true)
    (hu : ∀ x ∈ u.reads ++ u.targets, isIdentifier x = true) (hr : Closes r) (hr' : Closes r')
    (h : t.render.toList ++ r = u.render.toList ++ r') : t.SameUpToGrouping u ∧ r = r' := by
  obtain ⟨htreads, httargets⟩ := List.forall_mem_append.1 ht
  obtain ⟨hureads, hutargets⟩ := List.forall_mem_append.1 hu
  match t, u with
  | expr e, expr e' =>
    rw [render, render, ← e.render_chain, ← e'.render_chain] at h
    exact (Expr.legible_chain htreads).eq_of_append_eq (Expr.legible_chain hureads) hr.stops
      hr'.stops h
  | stmt s, stmt s' =>
    rw [render, render, ← s.render_listing, ← s'.render_listing] at h
    exact Listing.eq_of_append_eq (Stmt.legible_listing htreads httargets)
      (Stmt.legible_listing hureads hutargets) hr hr' h
  | expr e, stmt s =>
    rw [render, render, ← e.render_chain, ← s.render_listing] at h
    exact absurd h.symm (Listing.append_ne_chain (Stmt.legible_listing hureads hutargets)
      (Expr.legible_chain htreads) hr' hr)
  | stmt s, expr e =>
    rw [render, render, ← s.render_listing, ← e.render_chain] at h
    exact absurd h (Listing.append_ne_chain (Stmt.legible_listing htreads httargets)
      (Expr.legible_chain hureads) hr hr')

/-! ### Environments -/

namespace Bindings

/-- The characters of a binding. -/
def entry (b : String × Value) : List Char :=
  b.1.toList ++ ' ' :: '=' :: '>' :: ' ' :: '«' :: (b.2.render.toList ++ ['»'])

/-- The characters of bindings behind others, and of the brace at the end. -/
def further : Bindings → List Char
  | [] => ['\x7d']
  | b :: rest => ',' :: ' ' :: (entry b ++ further rest)

/-- The characters of bindings, and of the brace at the end. -/
def chars : Bindings → List Char
  | [] => ['\x7d']
  | b :: rest => entry b ++ further rest

theorem intercalate_entries (bs : Bindings) :
    List.intercalate [',', ' '] (bs.map entry) ++ ['\x7d'] = chars bs := by
  cases bs with
  | nil => rfl
  | cons b rest =>
    induction rest generalizing b with
    | nil => simp [chars, further]
    | cons c rest ih =>
      rw [List.map_cons, List.map_cons, List.intercalate_cons_cons, List.append_assoc,
        ← List.map_cons, ih, chars, chars, further, List.append_assoc]
      rfl

variable {bs cs : Bindings} {b c : String × Value} {r r' : List Char}

/-- A binding is told from what is behind it. -/
theorem entry_inj (hb : isIdentifier b.1 = true) (hc : isIdentifier c.1 = true)
    (h : entry b ++ r = entry c ++ r') : b = c ∧ r = r' := by
  obtain ⟨name, value⟩ := b
  obtain ⟨name', value'⟩ := c
  simp only [entry, List.append_assoc, List.cons_append, List.nil_append] at h
  obtain ⟨hname, hvalue⟩ := word_eq_of_append_eq (inWord_of_isIdentifier hb)
    (inWord_of_isIdentifier hc) (apart_cons rfl) (apart_cons rfl) h
  simp only [List.cons.injEq, true_and] at hvalue
  obtain ⟨htext, hrest⟩ := word_eq_of_append_eq Value.inWord_of_mem_render
    Value.inWord_of_mem_render (apart_cons rfl) (apart_cons rfl) hvalue
  obtain rfl := String.toList_inj.1 hname
  obtain rfl := Value.render_inj (String.toList_inj.1 htext)
  exact ⟨rfl, (List.cons.inj hrest).2⟩

theorem further_inj (hbs : ∀ x ∈ names bs, isIdentifier x = true)
    (hcs : ∀ x ∈ names cs, isIdentifier x = true) (h : further bs = further cs) : bs = cs := by
  induction bs generalizing cs with
  | nil =>
    cases cs with
    | nil => rfl
    | cons c cs => simp [further] at h
  | cons b bs ih =>
    cases cs with
    | nil => simp [further] at h
    | cons c cs =>
      obtain ⟨hb, hbs'⟩ := List.forall_mem_cons.1 hbs
      obtain ⟨hc, hcs'⟩ := List.forall_mem_cons.1 hcs
      simp only [further, List.cons.injEq, true_and] at h
      obtain ⟨rfl, hrest⟩ := entry_inj hb hc h
      rw [ih hbs' hcs' hrest]

/-- A binding does not begin with a brace. -/
theorem brace_ne_entry (hb : isIdentifier b.1 = true) : '\x7d' :: r ≠ entry b ++ r' := by
  intro h
  rw [← List.nil_append ('\x7d' :: r), entry, List.append_assoc] at h
  obtain ⟨hnil, -⟩ := word_eq_of_append_eq (List.forall_mem_nil _) (inWord_of_isIdentifier hb)
    (apart_cons rfl) (apart_cons rfl) h
  exact toList_ne_nil_of_isIdentifier hb hnil.symm

/-- Bindings of identifiers are told from their text. -/
theorem chars_inj (hbs : ∀ x ∈ names bs, isIdentifier x = true)
    (hcs : ∀ x ∈ names cs, isIdentifier x = true) (h : chars bs = chars cs) : bs = cs := by
  cases bs with
  | nil =>
    cases cs with
    | nil => rfl
    | cons c cs => exact absurd h (brace_ne_entry (hcs c.1 List.mem_cons_self))
  | cons b bs =>
    cases cs with
    | nil => exact absurd h.symm (brace_ne_entry (hbs b.1 List.mem_cons_self))
    | cons c cs =>
      obtain ⟨hb, hbs'⟩ := List.forall_mem_cons.1 hbs
      obtain ⟨hc, hcs'⟩ := List.forall_mem_cons.1 hcs
      obtain ⟨rfl, hrest⟩ := entry_inj hb hc h
      rw [further_inj hbs' hcs' hrest]

end Bindings

theorem Environment.toList_render (e : Environment) :
    e.render.toList = '\x7b' :: Bindings.chars e.toList := by
  have hentry : (String.toList ∘ fun b : String × Value => b.1 ++ " => " ++ b.2.inspect)
      = Bindings.entry := by
    funext b
    simp [Bindings.entry, Value.inspect, guillemets]
  rw [render, String.toList_append, String.toList_append, String.toList_intercalate, List.map_map,
    hentry, List.append_assoc, ← Bindings.intercalate_entries]
  simp

/-! ### States -/

namespace State

/-- All the names in a state: those that the term reads or assigns, and those that the environment
binds. -/
def names (s : State) : List String :=
  s.term.reads ++ s.term.targets ++ s.env.names

/-- **A trace line loses only the grouping.** States whose names are identifiers have the same text
exactly if their environments have the same bindings in the same order and their terms are the same
up to grouping. -/
theorem render_eq_iff {s t : State} (hs : ∀ x ∈ s.names, isIdentifier x = true)
    (ht : ∀ x ∈ t.names, isIdentifier x = true) :
    s.render = t.render ↔ s.env.toList = t.env.toList ∧ s.term.SameUpToGrouping t.term := by
  obtain ⟨hsterm, hsenv⟩ := List.forall_mem_append.1 hs
  obtain ⟨htterm, htenv⟩ := List.forall_mem_append.1 ht
  have hrender : ∀ u : State, u.render.toList
      = u.term.render.toList ++ ',' :: ' ' :: '\x7b' :: Bindings.chars u.env.toList := by
    intro u
    simp [render, Environment.toList_render]
  constructor
  · intro h
    have hlist := congrArg String.toList h
    rw [hrender, hrender] at hlist
    obtain ⟨hterm, hrest⟩ :=
      Term.sameUpToGrouping_of_append_eq hsterm htterm (.comma _) (.comma _) hlist
    simp only [List.cons.injEq, true_and] at hrest
    exact ⟨Bindings.chars_inj hsenv htenv hrest, hterm⟩
  · rintro ⟨henv, hterm⟩
    rw [render, render, hterm.render_eq, Environment.ext henv]

/-- Two programs with the same text, of which one assigns a sum and the other one a product. A third
state has the same bindings as the first one, but shows them in another order. -/
theorem render_eq_iff_regrouped :
    let one : Expr := .literal (.number 1)
    let stop : Stmt := .assign "do" (.literal (.bool false))
    let sum : Expr := .binary .add (.binary .multiply one one) (.var "_2")
    let product : Expr := .binary .multiply one (.binary .add one (.var "_2"))
    let s : State := {
      term := .stmt (.loop (.var "do") (.seq (.seq (.assign "if" sum) stop) stop))
      env := .ofList [("_2", .number (-2)), ("do", .bool true)] }
    let t : State := {
      term := .stmt (.loop (.var "do") (.seq (.assign "if" product) (.seq stop stop)))
      env := .ofList [("_2", .number (-2)), ("do", .bool true)] }
    let u : State := { s with env := .ofList [("do", .bool true), ("_2", .number (-2))] }
    (∀ x ∈ s.names, isIdentifier x = true) ∧ (∀ x ∈ t.names, isIdentifier x = true) ∧
      (∀ x ∈ u.names, isIdentifier x = true) ∧
      s.term ≠ t.term ∧ s.render = t.render ∧ s.env ≈ u.env ∧ s.render ≠ u.render := by
  intro one stop sum product s t u
  have hs : ∀ x ∈ s.names, isIdentifier x = true := by decide
  have ht : ∀ x ∈ t.names, isIdentifier x = true := by decide
  have hu : ∀ x ∈ u.names, isIdentifier x = true := by decide
  refine ⟨hs, ht, hu, by decide, (render_eq_iff hs ht).2 ⟨rfl, rfl⟩, by decide, ?_⟩
  intro h
  have henv : s.env.toList ≠ u.env.toList := by decide
  exact henv ((render_eq_iff hs hu).1 h).1

/-- Without a restriction on names, a variable can have the text of a literal. -/
example : render ⟨.expr (.var "true"), .empty⟩ = render ⟨.expr (.literal (.bool true)), .empty⟩ :=
  rfl

end State

end WhileLang
