import WhileLang.Json.Numeral.Lemmas
import WhileLang.Proofs.Listing
import WhileLang.Proofs.Wording

/-!
# Reading listings back

The text of a chain or a listing is told from whatever stands behind it, in only one way, as long as
its names are identifiers (`isIdentifier`).

Texts are read from the front. A leaf, a key word or a name is told from what follows by its
characters: they are those of words, and what follows begins with another one (`Apart`). What may
stand behind an expression or a clause is not the beginning of an operator (`Stops`), and what may
stand behind a listing is not the beginning of another clause either (`Closes`). So when two texts
begin with chains, clauses or listings, these are the same and **so is all that is left over**:
`Chain.Legible.eq_of_append_eq`, and by induction on clauses and listings
`Clause.eq_of_append_eq` and `Listing.eq_of_append_eq`.
-/

namespace WhileLang

/-! ### Words -/

/-- An ASCII letter or underscore, followed by ASCII letters, digits and underscores, but not one of
the truth values. -/
def isIdentifier (name : String) : Bool :=
  match name.toList with
  | [] => false
  | c :: cs =>
    (c.isAlpha || c == '_') && cs.all (fun d => d.isAlphanum || d == '_')
      && name != "true" && name != "false"

/-- The characters of identifiers, of numerals and of key words. -/
def inWord (c : Char) : Bool :=
  c.isAlphanum || c == '_' || c == '-'

/-- The text does not go on with the word before it. -/
def Apart (r : List Char) : Prop :=
  ∀ c ∈ r.head?, inWord c = false

theorem apart_cons {c : Char} {r : List Char} (h : inWord c = false) : Apart (c :: r) := by
  intro d hd
  obtain rfl : c = d := Option.some.inj hd
  exact h

variable {w w' r r' : List Char}

/-- What does not go on with a word does not begin with one. -/
theorem Apart.ne_cons_append {c : Char} (h : Apart r) (hw : ∀ d ∈ c :: w, inWord d = true) :
    r ≠ c :: w ++ r' := by
  rintro rfl
  have hc : inWord c = false := h c rfl
  exact Bool.false_ne_true (hc.symm.trans (hw c List.mem_cons_self))

/-- A word ends **where the characters of words do**. -/
theorem word_eq_of_append_eq (hw : ∀ c ∈ w, inWord c = true) (hw' : ∀ c ∈ w', inWord c = true)
    (hr : Apart r) (hr' : Apart r') (h : w ++ r = w' ++ r') : w = w' ∧ r = r' := by
  induction w generalizing w' with
  | nil =>
    cases w' with
    | nil => exact ⟨rfl, h⟩
    | cons d w' => exact absurd h (hr.ne_cons_append hw')
  | cons c w ih =>
    cases w' with
    | nil => exact absurd h.symm (hr'.ne_cons_append hw)
    | cons d w' =>
      obtain ⟨rfl, hrest⟩ := List.cons.inj h
      obtain ⟨-, htail⟩ := List.forall_mem_cons.1 hw
      obtain ⟨-, htail'⟩ := List.forall_mem_cons.1 hw'
      obtain ⟨rfl, hrr⟩ := ih htail htail' hrest
      exact ⟨rfl, hrr⟩

section Identifiers

/-- Letters are not digits. -/
theorem not_isDigit_of_isAlpha {c : Char} (h : c.isAlpha = true) : ¬c.isDigit = true := by
  intro hdigit
  have hle : c.val ≤ '9'.val := of_decide_eq_true (Bool.and_eq_true_iff.1 hdigit).2
  rcases Bool.or_eq_true_iff.1 h with hupper | hlower
  · obtain ⟨hge, -⟩ : 'A'.val ≤ c.val ∧ c.val ≤ 'Z'.val := of_decide_eq_true hupper
    exact absurd (UInt32.le_trans hge hle) (by decide)
  · have hge : 'a'.val ≤ c.val := of_decide_eq_true (Bool.and_eq_true_iff.1 hlower).1
    exact absurd (UInt32.le_trans hge hle) (by decide)

variable {name : String}

theorem isIdentifier_iff :
    isIdentifier name = true ↔
      (∃ c cs, name.toList = c :: cs ∧ (c.isAlpha = true ∨ c = '_') ∧
        ∀ d ∈ cs, d.isAlphanum = true ∨ d = '_') ∧ name ≠ "true" ∧ name ≠ "false" := by
  rw [isIdentifier]
  cases name.toList with
  | nil => simp
  | cons c cs => simp [and_assoc]

theorem inWord_of_isIdentifier (h : isIdentifier name = true) :
    ∀ c ∈ name.toList, inWord c = true := by
  obtain ⟨⟨c, cs, hname, hc, hcs⟩, -⟩ := isIdentifier_iff.1 h
  simp only [hname, List.mem_cons, inWord, Char.isAlphanum] at hcs ⊢
  grind

theorem toList_ne_nil_of_isIdentifier (h : isIdentifier name = true) : name.toList ≠ [] := by
  obtain ⟨⟨c, cs, hname, -⟩, -⟩ := isIdentifier_iff.1 h
  rw [hname]
  exact List.cons_ne_nil c cs

/-- There is no hyphen in an identifier. -/
theorem hyphen_notMem_of_isIdentifier (h : isIdentifier name = true) : '-' ∉ name.toList := by
  obtain ⟨⟨c, cs, hname, hc, hcs⟩, -⟩ := isIdentifier_iff.1 h
  rw [hname]
  intro hmem
  rcases List.mem_cons.1 hmem with rfl | hmem
  · exact absurd hc (by decide)
  · exact absurd (hcs _ hmem) (by decide)

end Identifiers

namespace Value

variable {v v' : Value}

theorem inWord_of_mem_render : ∀ c ∈ v.render.toList, inWord c = true := by
  cases v with
  | bool b => cases b <;> simp [render, inWord]
  | number n =>
    intro c hc
    rw [render, Decimal.toList_render] at hc
    rcases Decimal.isDigit_or_eq_of_mem_chars hc with hdigit | rfl
    · simp [inWord, Char.isAlphanum, hdigit]
    · rfl

/-- The text of a value is read back as that value. -/
theorem readWord_render (v : Value) :
    Json.readWord v.render.toList = match v with
      | bool b => some (.bool b)
      | number n => some (.int n.toInt) := by
  cases v with
  | bool b => cases b <;> simp [render, Json.readWord]
  | number n => rw [render, Decimal.toList_render, Json.readWord_chars]

/-- Different values have different texts. -/
theorem render_inj (h : v.render = v'.render) : v = v' := by
  have hread := congrArg (fun text : String => Json.readWord text.toList) h
  simp only [readWord_render] at hread
  cases v <;> cases v' <;> simp_all [Int64.toInt_inj]

/-- No identifier is the text of a value. -/
theorem render_ne_of_isIdentifier {name : String} (h : isIdentifier name = true) :
    v.render ≠ name := by
  rintro rfl
  cases v with
  | bool b => cases b <;> simp [isIdentifier, render] at h
  | number n =>
    -- a numeral begins with a digit or a minus sign
    obtain ⟨⟨c, cs, hname, hc, -⟩, -⟩ := isIdentifier_iff.1 h
    rw [render, Decimal.toList_render] at hname
    rcases Decimal.isDigit_or_eq_of_mem_chars (hname ▸ List.mem_cons_self) with hdigit | rfl
    · rcases hc with halpha | rfl
      · exact not_isDigit_of_isAlpha halpha hdigit
      · exact absurd hdigit (by decide)
    · exact absurd hc (by decide)

/-- A value is not written like the statement that does nothing. -/
theorem render_ne_doNothing (v : Value) : v.render ≠ "do-nothing" := by
  intro h
  have hread := readWord_render v
  rw [h] at hread
  cases v <;> simp [Json.readWord, Json.Numeral.read, Json.Numeral.readUnsigned,
    Json.Numeral.splitWhole] at hread

end Value

/-! ### Chains -/

namespace Leaf

/-- A name in the leaf is an identifier. -/
def Legible : Leaf → Prop
  | literal _ => True
  | var name => isIdentifier name = true

variable {l l' : Leaf}

theorem Legible.inWord (h : l.Legible) : ∀ c ∈ l.render.toList, inWord c = true := by
  cases l with
  | literal v => exact Value.inWord_of_mem_render
  | var name => exact inWord_of_isIdentifier h

theorem Legible.render_inj (h : l.Legible) (h' : l'.Legible) (heq : l.render = l'.render) :
    l = l' := by
  cases l with
  | literal v =>
    cases l' with
    | literal v' => rw [Value.render_inj heq]
    | var name => exact absurd heq (Value.render_ne_of_isIdentifier h')
  | var name =>
    cases l' with
    | literal v' => exact absurd heq.symm (Value.render_ne_of_isIdentifier h)
    | var name' => exact congrArg var heq

theorem Legible.render_ne_doNothing (h : l.Legible) : l.render ≠ "do-nothing" := by
  cases l with
  | literal v => exact v.render_ne_doNothing
  | var name =>
    rintro (rfl : name = "do-nothing")
    exact hyphen_notMem_of_isIdentifier h (by simp)

/-- A leaf is told from what does not go on with it. -/
theorem Legible.eq_of_append_eq (h : l.Legible) (h' : l'.Legible) (hr : Apart r) (hr' : Apart r')
    (heq : l.render.toList ++ r = l'.render.toList ++ r') : l = l' ∧ r = r' := by
  obtain ⟨hword, hrest⟩ := word_eq_of_append_eq h.inWord h'.inWord hr hr' heq
  exact ⟨h.render_inj h' (String.toList_inj.1 hword), hrest⟩

end Leaf

/-- What may stand behind an expression or a clause: not the beginning of an operator. -/
inductive Stops : List Char → Prop
  | parenthesis (r : List Char) : Stops (')' :: r)
  | semicolon (r : List Char) : Stops (';' :: r)
  | comma (r : List Char) : Stops (',' :: r)
  | brace (r : List Char) : Stops (' ' :: '\x7d' :: r)

theorem Stops.apart (h : Stops r) : Apart r := by
  cases h <;> exact apart_cons rfl

namespace Chain

/-- The names in the chain are identifiers. -/
def Legible (c : Chain) : Prop :=
  c.first.Legible ∧ ∀ p ∈ c.rest, p.2.Legible

variable {c c' : Chain} {op : Operator} {l : Leaf} {ps qs : List (Operator × Leaf)}

theorem toList_links_cons : (links ((op, l) :: ps)).toList
    = ' ' :: (op.symbol.toList ++ ' ' :: (l.render.toList ++ (links ps).toList)) := by
  simp [links]

/-- What stops an expression is not an operator. -/
theorem ne_links_of_stops (h : Stops r) {t : List Char} :
    r ≠ (links ((op, l) :: ps)).toList ++ t := by
  rw [toList_links_cons]
  cases h <;> cases op <;> simp [Operator.symbol]

theorem apart_links (h : Stops r) : Apart ((links ps).toList ++ r) := by
  cases ps with
  | nil => exact h.apart
  | cons p ps =>
    obtain ⟨op, l⟩ := p
    rw [toList_links_cons]
    exact apart_cons rfl

theorem links_eq_of_append_eq (hps : ∀ p ∈ ps, p.2.Legible) (hqs : ∀ p ∈ qs, p.2.Legible)
    (hr : Stops r) (hr' : Stops r')
    (h : (links ps).toList ++ r = (links qs).toList ++ r') : ps = qs ∧ r = r' := by
  induction ps generalizing qs with
  | nil =>
    cases qs with
    | nil => exact ⟨rfl, h⟩
    | cons q qs => exact absurd h (ne_links_of_stops hr)
  | cons p ps ih =>
    cases qs with
    | nil => exact absurd h.symm (ne_links_of_stops hr')
    | cons q qs =>
      obtain ⟨op, l⟩ := p
      obtain ⟨op', l'⟩ := q
      obtain ⟨hl, hlinks⟩ := List.forall_mem_cons.1 hps
      obtain ⟨hl', hlinks'⟩ := List.forall_mem_cons.1 hqs
      simp only [toList_links_cons, List.cons_append, List.append_assoc] at h
      obtain ⟨rfl, hleaf⟩ := Operator.toList_symbol_append_inj (List.cons.inj h).2
      obtain ⟨rfl, hrest⟩ := hl.eq_of_append_eq hl' (apart_links hr) (apart_links hr')
        (List.cons.inj hleaf).2
      obtain ⟨rfl, hrr⟩ := ih hlinks hlinks' hrest
      exact ⟨rfl, hrr⟩

/-- A chain is told **from what stops it**. -/
theorem Legible.eq_of_append_eq (hc : c.Legible) (hc' : c'.Legible) (hr : Stops r)
    (hr' : Stops r') (h : c.render.toList ++ r = c'.render.toList ++ r') : c = c' ∧ r = r' := by
  obtain ⟨first, rest⟩ := c
  obtain ⟨first', rest'⟩ := c'
  simp only [render, String.toList_append, List.append_assoc] at h
  obtain ⟨rfl, hrest⟩ := hc.1.eq_of_append_eq hc'.1 (apart_links hr) (apart_links hr') h
  obtain ⟨rfl, hrr⟩ := links_eq_of_append_eq hc.2 hc'.2 hr hr' hrest
  exact ⟨rfl, hrr⟩

/-- A condition is told from the block behind it. -/
theorem Legible.eq_of_append_block_eq (hc : c.Legible) (hc' : c'.Legible)
    (h : c.render.toList ++ ')' :: ' ' :: '\x7b' :: ' ' :: r
      = c'.render.toList ++ ')' :: ' ' :: '\x7b' :: ' ' :: r') : c = c' ∧ r = r' := by
  obtain ⟨rfl, hblock⟩ := hc.eq_of_append_eq hc' (.parenthesis _) (.parenthesis _) h
  simp only [List.cons.injEq, true_and] at hblock
  exact ⟨rfl, hblock⟩

/-- Behind an expression there is neither an equals sign nor a parenthesis after a blank. -/
theorem links_append_ne {d : Char} (hd : d = '=' ∨ d = '(') (hr : Stops r) {t : List Char} :
    (links ps).toList ++ r ≠ ' ' :: d :: t := by
  cases ps with
  | nil =>
    intro h
    change r = _ at h
    subst h
    cases hr
    exact absurd hd (by decide)
  | cons p ps =>
    obtain ⟨op, l⟩ := p
    rw [toList_links_cons]
    rcases hd with rfl | rfl <;> cases op <;> simp [Operator.symbol]

end Chain

/-! ### Clauses and listings -/

mutual

/-- The names in the clause are identifiers. -/
def Clause.Legible : Clause → Prop
  | .doNothing => True
  | .assign name value => isIdentifier name = true ∧ value.Legible
  | .branch condition consequence alternative =>
    condition.Legible ∧ consequence.Legible ∧ alternative.Legible
  | .loop condition body => condition.Legible ∧ body.Legible

/-- The names in the listing are identifiers. -/
def Listing.Legible : Listing → Prop
  | .last clause => clause.Legible
  | .next clause rest => clause.Legible ∧ rest.Legible

end

/-- What may stand behind a listing: not the beginning of another clause. -/
inductive Closes : List Char → Prop
  | comma (r : List Char) : Closes (',' :: r)
  | brace (r : List Char) : Closes (' ' :: '\x7d' :: r)

theorem Closes.stops (h : Closes r) : Stops r := by
  cases h with
  | comma r => exact .comma r
  | brace r => exact .brace r

theorem Closes.ne_semicolon (h : Closes r) {t : List Char} : r ≠ ';' :: t := by
  cases h <;> simp

namespace Clause

/-- The word that a clause begins with. -/
def word : Clause → String
  | doNothing => "do-nothing"
  | assign name _ => name
  | branch _ _ _ => "if"
  | loop _ _ => "while"

/-- The characters behind the first word of a clause. -/
def more : Clause → List Char
  | doNothing => []
  | assign _ value => ' ' :: '=' :: ' ' :: value.render.toList
  | branch condition consequence alternative =>
    ' ' :: '(' :: (condition.render.toList ++ ')' :: ' ' :: '\x7b' :: ' ' ::
      (consequence.render.toList ++ ' ' :: '\x7d' :: ' ' :: 'e' :: 'l' :: 's' :: 'e' :: ' '
        :: '\x7b' :: ' ' :: (alternative.render.toList ++ [' ', '\x7d'])))
  | loop condition body =>
    ' ' :: '(' :: (condition.render.toList ++ ')' :: ' ' :: '\x7b' :: ' ' ::
      (body.render.toList ++ [' ', '\x7d']))

theorem toList_render (l : Clause) : l.render.toList = l.word.toList ++ l.more := by
  cases l <;> simp [render, word, more]

variable {l l' : Clause}

theorem Legible.inWord (h : l.Legible) : ∀ c ∈ l.word.toList, inWord c = true := by
  cases l with
  | doNothing => simp [word, WhileLang.inWord]
  | assign name value => exact inWord_of_isIdentifier h.1
  | branch condition consequence alternative => simp [word, WhileLang.inWord]
  | loop condition body => simp [word, WhileLang.inWord]

theorem apart_more (h : Stops r) : Apart (l.more ++ r) := by
  cases l with
  | doNothing => exact h.apart
  | assign name value => exact apart_cons rfl
  | branch condition consequence alternative => exact apart_cons rfl
  | loop condition body => exact apart_cons rfl

/-- The first word of a clause is told from what is behind it. -/
theorem Legible.begins_alike (hl : l.Legible) (hl' : l'.Legible) (hr : Stops r)
    (hr' : Stops r') (h : l.render.toList ++ r = l'.render.toList ++ r') :
    l.word = l'.word ∧ l.more ++ r = l'.more ++ r' := by
  rw [toList_render, toList_render, List.append_assoc, List.append_assoc] at h
  obtain ⟨hword, hmore⟩ :=
    word_eq_of_append_eq hl.inWord hl'.inWord (apart_more hr) (apart_more hr') h
  exact ⟨String.toList_inj.1 hword, hmore⟩

/-- Clauses of one form, and of one name where they are assignments. -/
inductive SameForm : Clause → Clause → Prop
  | doNothing : SameForm doNothing doNothing
  | assign (name : String) (value value' : Chain) :
    SameForm (assign name value) (assign name value')
  | branch (condition condition' : Chain)
      (consequence consequence' alternative alternative' : Listing) :
    SameForm (branch condition consequence alternative)
      (branch condition' consequence' alternative')
  | loop (condition condition' : Chain) (body body' : Listing) :
    SameForm (loop condition body) (loop condition' body')

theorem SameForm.symm (h : SameForm l l') : SameForm l' l := by
  cases h <;> constructor

/-- Nothing else begins like `do-nothing`. -/
theorem sameForm_doNothing (hl : l.Legible) (hword : l.word = "do-nothing") :
    SameForm doNothing l := by
  cases l with
  | doNothing => exact .doNothing
  | assign name value =>
    obtain rfl : name = "do-nothing" := hword
    exact absurd (hyphen_notMem_of_isIdentifier hl.1) (by simp)
  | branch condition consequence alternative => simp [word] at hword
  | loop condition body => simp [word] at hword

/-- A clause is told from those of other forms by **its first word and the sign behind it**. -/
theorem Legible.sameForm (hl : l.Legible) (hl' : l'.Legible) (hword : l.word = l'.word)
    (hmore : l.more ++ r = l'.more ++ r') : SameForm l l' := by
  cases l with
  | doNothing => exact sameForm_doNothing hl' hword.symm
  | assign name value =>
    cases l' with
    | doNothing => exact (sameForm_doNothing hl hword).symm
    | assign name' value' =>
      obtain rfl : name = name' := hword
      exact .assign ..
    | branch condition consequence alternative => simp [more] at hmore
    | loop condition body => simp [more] at hmore
  | branch condition consequence alternative =>
    cases l' with
    | doNothing => exact (sameForm_doNothing hl hword).symm
    | assign name value => simp [more] at hmore
    | branch condition' consequence' alternative' => exact .branch ..
    | loop condition body => simp [word] at hword
  | loop condition body =>
    cases l' with
    | doNothing => exact (sameForm_doNothing hl hword).symm
    | assign name value => simp [more] at hmore
    | branch condition consequence alternative => simp [word] at hword
    | loop condition' body' => exact .loop ..

end Clause

theorem Listing.toList_render_next_append (clause : Clause) (rest : Listing) (r : List Char) :
    (Listing.next clause rest).render.toList ++ r
      = clause.render.toList ++ ';' :: ' ' :: (rest.render.toList ++ r) := by
  simp [Listing.render]

mutual

/-- A clause is told **from what stops it**. -/
theorem Clause.eq_of_append_eq {l l' : Clause} {r r' : List Char} (hl : l.Legible)
    (hl' : l'.Legible) (hr : Stops r) (hr' : Stops r')
    (h : l.render.toList ++ r = l'.render.toList ++ r') : l = l' ∧ r = r' := by
  obtain ⟨hword, hmore⟩ := hl.begins_alike hl' hr hr' h
  have hform := hl.sameForm hl' hword hmore
  match l, l', hform with
  | .doNothing, _, .doNothing => exact ⟨rfl, hmore⟩
  | .assign name value, _, .assign _ _ value' =>
    simp only [Clause.more, List.cons_append, List.cons.injEq, true_and] at hmore
    obtain ⟨rfl, hrr⟩ := hl.2.eq_of_append_eq hl'.2 hr hr' hmore
    exact ⟨rfl, hrr⟩
  | .branch condition consequence alternative, _,
      .branch _ condition' _ consequence' _ alternative' =>
    simp only [Clause.more, List.cons_append, List.append_assoc, List.cons.injEq,
      true_and] at hmore
    -- each part is stopped by what the clause itself has behind that part
    obtain ⟨rfl, hthen⟩ := hl.1.eq_of_append_block_eq hl'.1 hmore
    obtain ⟨rfl, helse⟩ := Listing.eq_of_append_eq hl.2.1 hl'.2.1 (.brace _) (.brace _) hthen
    simp only [List.cons.injEq, true_and] at helse
    obtain ⟨rfl, hend⟩ := Listing.eq_of_append_eq hl.2.2 hl'.2.2 (.brace _) (.brace _) helse
    simp only [List.cons.injEq, true_and, List.nil_append] at hend
    exact ⟨rfl, hend⟩
  | .loop condition body, _, .loop _ condition' _ body' =>
    simp only [Clause.more, List.cons_append, List.append_assoc, List.cons.injEq,
      true_and] at hmore
    obtain ⟨rfl, hbody⟩ := hl.1.eq_of_append_block_eq hl'.1 hmore
    obtain ⟨rfl, hend⟩ := Listing.eq_of_append_eq hl.2 hl'.2 (.brace _) (.brace _) hbody
    simp only [List.cons.injEq, true_and, List.nil_append] at hend
    exact ⟨rfl, hend⟩

/-- A listing is told **from what closes it**. -/
theorem Listing.eq_of_append_eq {l l' : Listing} {r r' : List Char} (hl : l.Legible)
    (hl' : l'.Legible) (hr : Closes r) (hr' : Closes r')
    (h : l.render.toList ++ r = l'.render.toList ++ r') : l = l' ∧ r = r' := by
  match l, l' with
  | .last clause, .last clause' =>
    rw [Listing.render, Listing.render] at h
    obtain ⟨rfl, hrr⟩ := Clause.eq_of_append_eq hl hl' hr.stops hr'.stops h
    exact ⟨rfl, hrr⟩
  | .last clause, .next clause' rest' =>
    rw [Listing.render, Listing.toList_render_next_append] at h
    obtain ⟨-, hrr⟩ := Clause.eq_of_append_eq hl hl'.1 hr.stops (.semicolon _) h
    exact absurd hrr hr.ne_semicolon
  | .next clause rest, .last clause' =>
    rw [Listing.render, Listing.toList_render_next_append] at h
    obtain ⟨-, hrr⟩ := Clause.eq_of_append_eq hl.1 hl' (.semicolon _) hr'.stops h
    exact absurd hrr.symm hr'.ne_semicolon
  | .next clause rest, .next clause' rest' =>
    rw [Listing.toList_render_next_append, Listing.toList_render_next_append] at h
    obtain ⟨rfl, hnext⟩ := Clause.eq_of_append_eq hl.1 hl'.1 (.semicolon _) (.semicolon _) h
    simp only [List.cons.injEq, true_and] at hnext
    obtain ⟨rfl, hrr⟩ := Listing.eq_of_append_eq hl.2 hl'.2 hr hr' hnext
    exact ⟨rfl, hrr⟩

end

/-- A listing does not read like a chain. -/
theorem Listing.append_ne_chain {l : Listing} {c : Chain} {r r' : List Char} (hl : l.Legible)
    (hc : c.Legible) (hr : Closes r) (hr' : Closes r') :
    l.render.toList ++ r ≠ c.render.toList ++ r' := by
  intro h
  -- it is enough to look at the first clause, and at what stands behind it
  obtain ⟨clause, t, hclause, ht, heq⟩ : ∃ (clause : Clause) (t : List Char),
      clause.Legible ∧ Stops t ∧ l.render.toList ++ r = clause.render.toList ++ t := by
    cases l with
    | last clause => exact ⟨clause, r, hl, hr.stops, by rw [render]⟩
    | next clause rest =>
      exact ⟨clause, _, hl.1, .semicolon _, toList_render_next_append clause rest r⟩
  rw [heq, Clause.toList_render, Chain.render, String.toList_append, List.append_assoc,
    List.append_assoc] at h
  obtain ⟨hword, hmore⟩ := word_eq_of_append_eq hclause.inWord hc.1.inWord (Clause.apart_more ht)
    (Chain.apart_links hr'.stops) h
  cases clause with
  | doNothing => exact hc.1.render_ne_doNothing (String.toList_inj.1 hword).symm
  | assign name value => exact Chain.links_append_ne (.inl rfl) hr'.stops hmore.symm
  | branch condition consequence alternative =>
    exact Chain.links_append_ne (.inr rfl) hr'.stops hmore.symm
  | loop condition body => exact Chain.links_append_ne (.inr rfl) hr'.stops hmore.symm

end WhileLang
