import WhileLang.Json.RoundTrip
import WhileLang.Proofs.Resumption
import WhileLang.Proofs.Spelling

/-!
# Writing and reading back

`RoundTrips toJson ofJson?` says that what is written is read back, and as nothing else. It is read
back just if it is not nested deeper than reading allows, and different things have different texts
however deep they are.

* What is written is one of the spellings, so that it is read (`Stmt.spelledBy_toJson` and its
  like). States and outcomes are read part by part.
* Reading looks at all that is written, so that it needs the full depth
  (`Stmt.depth_le_of_ofJson?` and its like).

`exchange_round_trips` puts this together, with what it means for a program that is **resumed** from
a state that was read back.
-/

namespace WhileLang

variable {depth : Nat}

/-! ### What is written is a spelling -/

namespace Json

/-- The parts of an object with no other members. -/
theorem hasParts_self (fields : List (String × Json)) : (object fields).HasParts fields :=
  .object (holdFields_self fields)

end Json

theorem Value.spelledBy_toJson (v : Value) : v.SpelledBy v.toJson :=
  .object .bare (Json.holdFields_self _)

theorem Expr.spelledBy_toJson : ∀ e : Expr, e.SpelledBy e.toJson
  | literal (.bool b) => .bool b
  | literal (.number n) => .number n
  | var name => .var name
  | binary op left right => .binary op left.spelledBy_toJson right.spelledBy_toJson

theorem Stmt.spelledBy_toJson : ∀ s : Stmt, s.SpelledBy s.toJson
  | doNothing => .doNothing .bare
  | assign _ expr => .assign expr.spelledBy_toJson (Json.hasParts_self _)
  | branch condition consequence alternative =>
    .branch condition.spelledBy_toJson consequence.spelledBy_toJson alternative.spelledBy_toJson
      (Json.hasParts_self _)
  | seq first second => .seq first.spelledBy_toJson second.spelledBy_toJson (Json.hasParts_self _)
  | loop condition body =>
    .loop condition.spelledBy_toJson body.spelledBy_toJson (Json.hasParts_self _)

theorem Term.spelledBy_toJson : ∀ t : Term, t.SpelledBy t.toJson
  | expr e => .expr e.spelledBy_toJson
  | stmt s => .stmt s.spelledBy_toJson

theorem Bindings.spelledBy_map_toJson (bs : Bindings) :
    bs.SpelledBy (bs.map fun b => (b.1, b.2.toJson)) := by
  induction bs with
  | nil => exact .nil
  | cons b rest ih => exact .cons b.2.spelledBy_toJson ih

/-- The bindings are written in their order, and **make the environment anew**. -/
theorem Environment.spelledBy_toJson (env : Environment) : env.SpelledBy env.toJson := by
  have h := SpelledBy.ofList (Bindings.spelledBy_map_toJson env.toList)
  rwa [ofList_toList] at h

/-! ### States and outcomes -/

theorem State.ofJson?_toJson (s : State) (hd : s.toJson.depth ≤ depth) :
    ofJson? depth s.toJson = some s := by
  have hparts : s.toJson.HasParts [("term", s.term.toJson), ("env", s.env.toJson)] :=
    Json.hasParts_self _
  have hlt : s.term.toJson.depth < s.toJson.depth ∧ s.env.toJson.depth < s.toJson.depth :=
    ⟨hparts.depth_lt List.mem_cons_self,
      hparts.depth_lt (List.mem_cons_of_mem _ List.mem_cons_self)⟩
  obtain ⟨depth, rfl⟩ : ∃ k, depth = k + 1 := ⟨depth - 1, by omega⟩
  have hterm : Term.ofJson? depth s.term.toJson = some s.term :=
    s.term.spelledBy_toJson.ofJson? (by omega)
  have henv : Environment.ofJson? depth s.env.toJson = some s.env :=
    s.env.spelledBy_toJson.ofJson? (by omega)
  simp [ofJson?, (Json.parts_pair_eq_some_iff (by decide)).2 hparts, hterm, henv]

theorem Outcome.ofJson?_toJson (o : Outcome) (hd : o.toJson.depth ≤ depth) :
    ofJson? depth o.toJson = some o := by
  cases o with
  | value v =>
    obtain ⟨depth, rfl, hcontent⟩ := Json.exists_depth_of_choice hd
    simp [ofJson?, toJson, Json.choice?, v.spelledBy_toJson.ofJson? hcontent]
  | environment env =>
    obtain ⟨depth, rfl, hcontent⟩ := Json.exists_depth_of_choice hd
    simp [ofJson?, toJson, Json.choice?, env.spelledBy_toJson.ofJson? hcontent]

/-! ### Reading looks at all that is written -/

/-- A form of two parts, neither of them passed over. -/
theorem Json.parts_pair_self {a b : String} (hab : a ≠ b) (x y : Json) :
    (object [(a, x), (b, y)]).parts [a, b] = some [x, y] :=
  (parts_pair_eq_some_iff hab).2 (hasParts_self _)

theorem Value.depth_toJson (v : Value) : v.toJson.depth = 1 := by
  cases v <;> rfl

theorem Value.depth_le_of_ofJson? {v w : Value} (h : ofJson? depth v.toJson = some w) :
    v.toJson.depth ≤ depth := by
  rw [depth_toJson]
  cases depth with
  | zero => cases h
  | succ depth => exact Nat.succ_pos depth

theorem Expr.depth_le_of_ofJson? {e e' : Expr} (h : ofJson? depth e.toJson = some e') :
    e.toJson.depth ≤ depth := by
  induction e generalizing depth e' with
  | literal v =>
    cases depth with
    | zero => cases h
    | succ depth => cases v <;> exact Nat.succ_pos depth
  | var name =>
    cases depth with
    | zero => cases h
    | succ depth => exact Nat.succ_pos depth
  | binary op left right ihl ihr =>
    rcases depth with _ | _ | depth
    · cases h
    · cases op <;> cases h
    · simp only [ofJson?, toJson, Json.choice?, op.tag_ne, ↓reduceIte,
        Operator.ofTag?_eq_some_iff.2 rfl, Option.bind_eq_bind, Option.bind_eq_some_iff] at h
      obtain ⟨l, hl, r, hr, -⟩ := h
      have hl := ihl hl
      have hr := ihr hr
      simp only [toJson, Json.depth, Json.depthMembers, Json.depthItems]
      omega

/-- A choice with data is read as a statement only where two levels are left. -/
theorem Stmt.exists_depth_of_ofJson?_choice {tag : String} {content : Json} {s : Stmt}
    (htag : tag ≠ "DoNothing") (h : ofJson? depth (.object [(tag, content)]) = some s) :
    ∃ k, depth = k + 2 := by
  rcases depth with _ | _ | depth
  · rw [ofJson?, if_neg (name?_choice_ne htag _)] at h
    cases h
  · rw [ofJson?, if_neg (name?_choice_ne htag _)] at h
    cases h
  · exact ⟨depth, rfl⟩

theorem Stmt.depth_le_of_ofJson? {s s' : Stmt} (h : ofJson? depth s.toJson = some s') :
    s.toJson.depth ≤ depth := by
  induction s generalizing depth s' with
  | doNothing => exact Nat.zero_le depth
  | assign name expr =>
    obtain ⟨depth, rfl⟩ := exists_depth_of_ofJson?_choice (by decide) h
    have hparts := Json.parts_pair_self (a := "name") (b := "expr") (by decide)
      (.str name) expr.toJson
    rw [ofJson?, toJson, if_neg (name?_choice_ne (by decide) _)] at h
    simp only [Json.choice?, ↓reduceIte, hparts, Json.str?, Option.bind_eq_bind,
      Option.bind_some, Option.bind_eq_some_iff] at h
    obtain ⟨e, he, -⟩ := h
    have he := Expr.depth_le_of_ofJson? he
    simp only [toJson, Json.depth, Json.depthMembers]
    omega
  | branch condition consequence alternative ihs iht =>
    obtain ⟨depth, rfl⟩ := exists_depth_of_ofJson?_choice (by decide) h
    have hparts := (Json.parts_triple_eq_some_iff (by decide)).2
      (Json.hasParts_self [("condition", condition.toJson), ("consequence", consequence.toJson),
        ("alternative", alternative.toJson)])
    rw [ofJson?, toJson, if_neg (name?_choice_ne (by decide) _)] at h
    simp only [Json.choice?, String.reduceEq, ↓reduceIte, hparts, Option.bind_eq_bind,
      Option.bind_eq_some_iff] at h
    obtain ⟨c, hc, s, hs, t, ht, -⟩ := h
    have hc := Expr.depth_le_of_ofJson? hc
    have hs := ihs hs
    have ht := iht ht
    simp only [toJson, Json.depth, Json.depthMembers]
    omega
  | seq first second ihs iht =>
    obtain ⟨depth, rfl⟩ := exists_depth_of_ofJson?_choice (by decide) h
    have hparts := Json.parts_pair_self (a := "first") (b := "second") (by decide)
      first.toJson second.toJson
    rw [ofJson?, toJson, if_neg (name?_choice_ne (by decide) _)] at h
    simp only [Json.choice?, String.reduceEq, ↓reduceIte, hparts, Option.bind_eq_bind,
      Option.bind_eq_some_iff] at h
    obtain ⟨s, hs, t, ht, -⟩ := h
    have hs := ihs hs
    have ht := iht ht
    simp only [toJson, Json.depth, Json.depthMembers]
    omega
  | loop condition body ih =>
    obtain ⟨depth, rfl⟩ := exists_depth_of_ofJson?_choice (by decide) h
    have hparts := Json.parts_pair_self (a := "condition") (b := "body") (by decide)
      condition.toJson body.toJson
    rw [ofJson?, toJson, if_neg (name?_choice_ne (by decide) _)] at h
    simp only [Json.choice?, String.reduceEq, ↓reduceIte, hparts, Option.bind_eq_bind,
      Option.bind_eq_some_iff] at h
    obtain ⟨c, hc, s, hs, -⟩ := h
    have hc := Expr.depth_le_of_ofJson? hc
    have hs := ih hs
    simp only [toJson, Json.depth, Json.depthMembers]
    omega

theorem Term.depth_le_of_ofJson? {t t' : Term} (h : ofJson? depth t.toJson = some t') :
    t.toJson.depth ≤ depth := by
  cases depth with
  | zero => cases h
  | succ depth =>
    cases t with
    | expr e =>
      obtain ⟨e', he, -⟩ := Option.map_eq_some_iff.1 h
      rw [toJson, Json.depth_choice]
      exact Nat.succ_le_succ (Expr.depth_le_of_ofJson? he)
    | stmt s =>
      obtain ⟨s', hs, -⟩ := Option.map_eq_some_iff.1 h
      rw [toJson, Json.depth_choice]
      exact Nat.succ_le_succ (Stmt.depth_le_of_ofJson? hs)

theorem Bindings.depthMembers_le_of_mapM {bs bs' : Bindings}
    (h : (bs.map fun b => (b.1, b.2.toJson)).mapM
      (fun m => (Value.ofJson? depth m.2).map fun v => (m.1, v)) = some bs') :
    Json.depthMembers (bs.map fun b => (b.1, b.2.toJson)) ≤ depth := by
  induction bs generalizing bs' with
  | nil => exact Nat.zero_le depth
  | cons b rest ih =>
    rw [List.map_cons, List.mapM_cons] at h
    obtain ⟨b', hb, h⟩ := Option.bind_eq_some_iff.1 h
    obtain ⟨rest', hrest, -⟩ := Option.bind_eq_some_iff.1 h
    obtain ⟨v, hv, -⟩ := Option.map_eq_some_iff.1 hb
    rw [List.map_cons, Json.depthMembers]
    exact Nat.max_le.2 ⟨Value.depth_le_of_ofJson? hv, ih hrest⟩

theorem Environment.depth_le_of_ofJson? {env env' : Environment}
    (h : ofJson? depth env.toJson = some env') : env.toJson.depth ≤ depth := by
  cases depth with
  | zero => cases h
  | succ depth =>
    obtain ⟨bs, hbs, -⟩ := Option.map_eq_some_iff.1 h
    rw [toJson, Json.depth]
    exact Nat.succ_le_succ (Bindings.depthMembers_le_of_mapM hbs)

theorem State.depth_le_of_ofJson? {s s' : State} (h : ofJson? depth s.toJson = some s') :
    s.toJson.depth ≤ depth := by
  cases depth with
  | zero => cases h
  | succ depth =>
    have hparts := Json.parts_pair_self (a := "term") (b := "env") (by decide)
      s.term.toJson s.env.toJson
    rw [ofJson?, toJson, hparts] at h
    obtain ⟨t, ht, h⟩ := Option.bind_eq_some_iff.1 h
    obtain ⟨e, he, -⟩ := Option.bind_eq_some_iff.1 h
    have ht := Term.depth_le_of_ofJson? ht
    have he := Environment.depth_le_of_ofJson? he
    simp only [toJson, Json.depth, Json.depthMembers]
    omega

theorem Outcome.depth_le_of_ofJson? {o o' : Outcome} (h : ofJson? depth o.toJson = some o') :
    o.toJson.depth ≤ depth := by
  cases depth with
  | zero => cases h
  | succ depth =>
    cases o with
    | value v =>
      obtain ⟨v', hv, -⟩ := Option.map_eq_some_iff.1 h
      rw [toJson, Json.depth_choice]
      exact Nat.succ_le_succ (Value.depth_le_of_ofJson? hv)
    | environment env =>
      obtain ⟨env', henv, -⟩ := Option.map_eq_some_iff.1 h
      rw [toJson, Json.depth_choice]
      exact Nat.succ_le_succ (Environment.depth_le_of_ofJson? henv)

/-! ### Round trips -/

/-- What is written is read back, as deep as reading goes, and is written again as it was.
Different things have different texts, however deep. -/
structure RoundTrips {α : Type} (toJson : α → Json) (ofJson? : Nat → Json → Option α) : Prop where
  decode?_iff : ∀ x y, decode? ofJson? (toJson x).render = some y ↔
    y = x ∧ (toJson x).depth ≤ nestingLimit
  render_decode? : ∀ x, (toJson x).depth ≤ nestingLimit →
    (decode? ofJson? (toJson x).render).map (fun y => (toJson y).render)
      = some (toJson x).render
  render_inj : ∀ x y, (toJson x).render = (toJson y).render → x = y

/-- It is enough that reading succeeds with just the depth of what is written. -/
theorem roundTrips_of {α : Type} {toJson : α → Json} {ofJson? : Nat → Json → Option α}
    (read : ∀ {depth} x, (toJson x).depth ≤ depth → ofJson? depth (toJson x) = some x)
    (deep : ∀ {depth x y}, ofJson? depth (toJson x) = some y → (toJson x).depth ≤ depth) :
    RoundTrips toJson ofJson? := by
  have hdecode (x : α) : decode? ofJson? (toJson x).render = ofJson? nestingLimit (toJson x) := by
    rw [decode?, Json.read_render, Option.bind_some]
  refine ⟨fun x y => ?_, fun x hd => ?_, fun x y h => ?_⟩
  · rw [hdecode]
    constructor
    · intro h
      have hd := deep h
      exact ⟨Option.some.inj (h.symm.trans (read x hd)), hd⟩
    · rintro ⟨rfl, hd⟩
      exact read y hd
  · rw [hdecode, read x hd]
    rfl
  · -- the texts are the same, and so is what is read, at whatever depth
    have hxy : toJson x = toJson y := Json.render_injective h
    have hx := read x (Nat.le_refl _)
    rw [hxy, read y (Nat.le_refl _)] at hx
    exact (Option.some.inj hx).symm

/-! ### The whole of the format -/

/-- **Everything that is written is read back**: values, expressions, statements, terms,
environments with the order of their bindings, states and outcomes.

A state on the way of a program that is written and read back goes on as before. Its iterates are
the later iterates of the start; and if the program was not finished earlier, a trace from it shows
what a trace from the start shows from there on. -/
theorem exchange_round_trips :
    RoundTrips Value.toJson Value.ofJson? ∧
    RoundTrips Expr.toJson Expr.ofJson? ∧
    RoundTrips Stmt.toJson Stmt.ofJson? ∧
    RoundTrips Term.toJson Term.ofJson? ∧
    RoundTrips Environment.toJson Environment.ofJson? ∧
    RoundTrips State.toJson State.ofJson? ∧
    RoundTrips Outcome.toJson Outcome.ofJson? ∧
    ∀ (s u : State) (k : Nat), s.after k = .ok u → u.toJson.depth ≤ nestingLimit →
      ∃ v, decode? State.ofJson? u.toJson.render = some v ∧
        (∀ n, v.after n = s.after (k + n)) ∧
        ((∀ i < k, s.LiveAt i) → ∀ (recording recording' : Bool) (n : Nat),
          ((Machine.start ⟨none, recording'⟩ v).trace.take (n + 1)).1
            = ((Machine.start ⟨none, recording⟩ s).trace.take (k + (n + 1))).1.drop k) := by
  have hstate : RoundTrips State.toJson State.ofJson? :=
    roundTrips_of State.ofJson?_toJson State.depth_le_of_ofJson?
  refine ⟨?value, ?expr, ?stmt, ?term, ?environment, hstate, ?outcome, ?resume⟩
  case value =>
    exact roundTrips_of (fun v => v.spelledBy_toJson.ofJson?) Value.depth_le_of_ofJson?
  case expr => exact roundTrips_of (fun e => e.spelledBy_toJson.ofJson?) Expr.depth_le_of_ofJson?
  case stmt => exact roundTrips_of (fun s => s.spelledBy_toJson.ofJson?) Stmt.depth_le_of_ofJson?
  case term => exact roundTrips_of (fun t => t.spelledBy_toJson.ofJson?) Term.depth_le_of_ofJson?
  case environment =>
    exact roundTrips_of (fun env => env.spelledBy_toJson.ofJson?)
      Environment.depth_le_of_ofJson?
  case outcome => exact roundTrips_of Outcome.ofJson?_toJson Outcome.depth_le_of_ofJson?
  case resume =>
    intro s u k hu hd
    exact ⟨u, (hstate.decode?_iff u u).2 ⟨rfl, hd⟩, fun n => (State.after_add hu n).symm,
      fun hlive recording recording' n => State.take_trace_after hu hlive recording recording' n⟩

/-- A program with names that have to be escaped is written after its first step, in the midst of a
loop, and goes on from there. -/
theorem resumed_from_escaped_names :
    let assign : Stmt := .assign "\"\\\n" (.literal (.number Int64.minValue))
    let s : State := ⟨.stmt (.loop (.var "") assign),
      .ofList [("", .bool true), ("é\x01", .number (-1))]⟩
    let u : State := ⟨.stmt (.branch (.var "") (.seq assign (.loop (.var "") assign)) .doNothing),
      .ofList [("", .bool true), ("é\x01", .number (-1))]⟩
    (s.after 1 = .ok u ∧ u.toJson.depth ≤ nestingLimit ∧ ∀ i < 1, s.LiveAt i) ∧
      decode? Term.ofJson? u.term.toJson.render = some u.term ∧
      ∃ v, decode? State.ofJson? u.toJson.render = some v ∧
        v.after 5 = s.after 6 ∧
        ((Machine.start ⟨none, false⟩ v).trace.take 7).1
          = ((Machine.start ⟨none, false⟩ s).trace.take 8).1.drop 1 := by
  intro assign s u
  have hu : s.after 1 = .ok u := rfl
  have hd : u.toJson.depth ≤ nestingLimit := by decide
  have hlive : ∀ i < 1, s.LiveAt i := by
    intro i hi
    obtain rfl : i = 0 := by omega
    exact State.liveAt_zero_iff.2 rfl
  obtain ⟨-, -, -, hterm, -, -, -, hresume⟩ := exchange_round_trips
  obtain ⟨v, hv, hafter, htrace⟩ := hresume s u 1 hu hd
  exact ⟨⟨hu, hd, hlive⟩, (hterm.decode?_iff _ _).2 ⟨rfl, by decide⟩, v, hv, hafter 5,
    htrace hlive false false 6⟩

end WhileLang
