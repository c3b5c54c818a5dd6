import WhileLang.Decoding

/-!
# The parts of a form

A form such as an assignment has named parts. `Json.HasParts` says when a value holds given parts:
as members of an object, in any order and among any other members, or as the items of an array, in
their order. `Json.parts_eq_some_iff` says that `Json.parts` finds exactly these.

The other leaves of reading are treated likewise: the name of a choice without data
(`Json.IsName`), the contents of a choice, and the scalars, which stand for themselves only.
-/

namespace WhileLang

namespace Json

/-! ### Depth -/

theorem depth_le_depthItems {items : List Json} {j : Json} (h : j ∈ items) :
    j.depth ≤ depthItems items := by
  induction items with
  | nil => cases h
  | cons k rest ih =>
    rw [depthItems]
    rcases List.mem_cons.1 h with rfl | h
    · exact Nat.le_max_left _ _
    · exact Nat.le_trans (ih h) (Nat.le_max_right _ _)

theorem depth_le_depthMembers {members : List (String × Json)} {m : String × Json}
    (h : m ∈ members) : m.2.depth ≤ depthMembers members := by
  induction members with
  | nil => cases h
  | cons k rest ih =>
    rw [depthMembers]
    rcases List.mem_cons.1 h with rfl | h
    · exact Nat.le_max_left _ _
    · exact Nat.le_trans (ih h) (Nat.le_max_right _ _)

/-- A choice is one level deeper than its content. -/
theorem depth_choice (tag : String) (content : Json) :
    (object [(tag, content)]).depth = content.depth + 1 := by
  simp [depth, depthMembers]

/-- Where a choice is no deeper than allowed, a level is left for it. -/
theorem exists_depth_of_choice {tag : String} {content : Json} {depth : Nat}
    (hd : (object [(tag, content)]).depth ≤ depth) : ∃ k, depth = k + 1 ∧ content.depth ≤ k := by
  rw [depth_choice] at hd
  exact ⟨depth - 1, by omega, by omega⟩

/-! ### Scalars, names and choices -/

variable {j : Json}

theorem bool?_eq_some_iff {b : Bool} : j.bool? = some b ↔ j = .bool b := by
  cases j <;> simp [bool?]

theorem str?_eq_some_iff {s : String} : j.str? = some s ↔ j = .str s := by
  cases j <;> simp [str?]

/-- The integers read are those of 64 bits, each standing for itself. -/
theorem int64?_eq_some_iff {n : Int64} : j.int64? = some n ↔ j = .int n.toInt := by
  cases j with
  | int i =>
    simp only [int64?, int.injEq]
    constructor
    · intro h
      split at h
      · rename_i hi
        obtain rfl := Option.some.inj h
        refine (Int64.toInt_ofInt_of_le hi.1 ?_).symm
        exact Int.lt_of_le_of_lt hi.2 (by decide)
      · cases h
    · rintro rfl
      rw [if_pos ⟨n.minValue_le_toInt, n.toInt_le⟩, Int64.ofInt_toInt]
  | null | bool _ | str _ | array _ | object _ | foreign => simp [int64?]

theorem choice?_eq_some_iff {tag : String} {content : Json} :
    j.choice? = some (tag, content) ↔ j = .object [(tag, content)] := by
  unfold choice?
  split
  · simp
  · rename_i h
    simpa using h (tag, content)

/-- A value that says the name of a choice without data: the bare name, or the object whose only
member has that name and `null`. -/
inductive IsName (name : String) : Json → Prop
  | bare : IsName name (.str name)
  | member : IsName name (.object [(name, .null)])

theorem isName_of_name? {depth : Nat} {name : String} (h : j.name? depth = some name) :
    j.IsName name := by
  unfold name? at h
  split at h
  · obtain rfl := Option.some.inj h
    exact .bare
  · obtain rfl := Option.some.inj h
    exact .member
  · cases h

theorem IsName.name? {depth : Nat} {name : String} (h : j.IsName name) (hd : j.depth ≤ depth) :
    j.name? depth = some name := by
  cases h with
  | bare => rw [Json.name?]
  | member =>
    obtain ⟨depth, rfl, -⟩ := exists_depth_of_choice hd
    rw [Json.name?]

/-! ### Fields -/

/-- The members hold the fields: those with the names of fields are just the fields, in any
order. -/
def HoldFields (members fields : List (String × Json)) : Prop :=
  (members.filter fun m => m.1 ∈ fields.map Prod.fst).Perm fields

/-- The members that have one of several names can be gone through name by name. -/
theorem filter_mem_cons_perm {name : String} {names : List String} (hname : name ∉ names)
    (members : List (String × Json)) :
    (members.filter fun m => m.1 ∈ name :: names).Perm
      ((members.filter fun m => m.1 = name) ++ members.filter fun m => m.1 ∈ names) := by
  induction members with
  | nil => exact .nil
  | cons m members ih =>
    by_cases hm : m.1 = name
    · have hnot : m.1 ∉ names := hm ▸ hname
      simpa [List.filter_cons, hm, hname] using ih
    · by_cases hmem : m.1 ∈ names
      · have hmiddle := (ih.cons m).trans List.perm_middle.symm
        simpa [List.filter_cons, hm, hmem] using hmiddle
      · simpa [List.filter_cons, hm, hmem] using ih

/-- All fields have names of fields. -/
theorem filter_mem_names_self (fields : List (String × Json)) :
    (fields.filter fun m => m.1 ∈ fields.map Prod.fst) = fields :=
  List.filter_eq_self.2 fun m hm => by simpa using ⟨m.2, hm⟩

/-- Fields hold themselves. -/
theorem holdFields_self (fields : List (String × Json)) : HoldFields fields fields :=
  .of_eq (filter_mem_names_self fields)

/-- The first field is **the only member of its name**, and the others are held as well. -/
theorem holdFields_cons_iff {name : String} {members fields : List (String × Json)}
    (hname : name ∉ fields.map Prod.fst) :
    HoldFields members ((name, j) :: fields) ↔
      (members.filter fun m => m.1 = name) = [(name, j)] ∧ HoldFields members fields := by
  unfold HoldFields
  rw [List.map_cons]
  have hself : (fields.filter fun m => m.1 = name) = [] := by
    refine List.filter_eq_nil_iff.2 fun m hm => ?_
    simp only [decide_eq_true_eq]
    rintro rfl
    exact hname (List.mem_map_of_mem hm)
  constructor
  · intro h
    constructor
    · have hsame := h.filter fun m => m.1 = name
      rw [List.filter_filter, List.filter_cons, if_pos (by simp), hself] at hsame
      have hmembers : (members.filter fun m => m.1 = name && m.1 ∈ name :: fields.map Prod.fst)
          = members.filter fun m => m.1 = name :=
        List.filter_congr fun m _ => by by_cases hm : m.1 = name <;> simp [hm]
      rw [hmembers] at hsame
      exact List.perm_singleton.1 hsame
    · have hsame := h.filter fun m => m.1 ∈ fields.map Prod.fst
      rw [List.filter_filter, List.filter_cons, if_neg (by simpa using hname),
        filter_mem_names_self] at hsame
      have hmembers : (members.filter fun m =>
          m.1 ∈ fields.map Prod.fst && m.1 ∈ name :: fields.map Prod.fst)
          = members.filter fun m => m.1 ∈ fields.map Prod.fst :=
        List.filter_congr fun m _ => by
          by_cases hm : m.1 ∈ fields.map Prod.fst <;> simp [hm]
      rwa [hmembers] at hsame
  · rintro ⟨hfirst, hrest⟩
    refine (filter_mem_cons_perm hname members).trans ?_
    rw [hfirst]
    exact hrest.cons (name, j)

theorem uniqueMember_eq_some_iff {name : String} {members : List (String × Json)} :
    uniqueMember members name = some j ↔
      (members.filter fun m => m.1 = name) = [(name, j)] := by
  unfold uniqueMember
  split
  · rename_i name' k heq
    have hmem : (name', k) ∈ members.filter fun m => m.1 = name := by simp [heq]
    obtain rfl : name' = name := by simpa using (List.mem_filter.1 hmem).2
    rw [heq]
    simp
  · rename_i h
    constructor
    · intro h'
      cases h'
    · intro heq
      exact absurd heq (h name j)

/-- The members of given names, each the only one, are found if they are fields. -/
theorem mapM_uniqueMember_eq_some_iff {names : List String} (hnames : names.Nodup)
    {members : List (String × Json)} {items : List Json} :
    names.mapM (uniqueMember members) = some items ↔
      items.length = names.length ∧ HoldFields members (names.zip items) := by
  induction names generalizing items with
  | nil =>
    constructor
    · intro h
      obtain rfl : [] = items := Option.some.inj h
      exact ⟨rfl, by simp [HoldFields]⟩
    · rintro ⟨hlen, -⟩
      rw [List.length_eq_zero_iff.1 hlen]
      rfl
  | cons name names ih =>
    obtain ⟨hname, hnames⟩ := List.nodup_cons.1 hnames
    have hzip (rest : List Json) (hlen : rest.length = names.length) :
        name ∉ (names.zip rest).map Prod.fst := by
      rwa [List.map_fst_zip (Nat.le_of_eq hlen.symm)]
    simp only [List.mapM_cons, bind, pure, Option.bind_eq_some_iff, uniqueMember_eq_some_iff,
      ih hnames]
    constructor
    · rintro ⟨j, hj, rest, ⟨hlen, hrest⟩, heq⟩
      obtain rfl := Option.some.inj heq
      refine ⟨congrArg (· + 1) hlen, ?_⟩
      exact (holdFields_cons_iff (hzip rest hlen)).2 ⟨hj, hrest⟩
    · rintro ⟨hlen, hfields⟩
      cases items with
      | nil => cases hlen
      | cons j rest =>
        have hlen' : rest.length = names.length := Nat.succ.inj hlen
        obtain ⟨hj, hrest⟩ := (holdFields_cons_iff (hzip rest hlen')).1 hfields
        exact ⟨j, hj, rest, ⟨hlen', hrest⟩, rfl⟩

/-! ### Parts -/

/-- A value that holds parts: as members of an object, in any order and among any others, or as
the items of an array, in their order. -/
inductive HasParts (fields : List (String × Json)) : Json → Prop
  | object {members : List (String × Json)} :
    HoldFields members fields → HasParts fields (.object members)
  | array : HasParts fields (.array (fields.map Prod.snd))

/-- The parts **found are the parts held**. -/
theorem parts_eq_some_iff {names : List String} (hnames : names.Nodup) {items : List Json} :
    j.parts names = some items ↔
      items.length = names.length ∧ j.HasParts (names.zip items) := by
  cases j with
  | object members =>
    rw [parts, mapM_uniqueMember_eq_some_iff hnames]
    refine and_congr_right fun _ => ⟨.object, ?_⟩
    rintro ⟨h⟩
    exact h
  | array elems =>
    rw [parts]
    constructor
    · intro h
      split at h
      · rename_i hlen
        obtain rfl := Option.some.inj h
        refine ⟨hlen, ?_⟩
        have hparts : HasParts (names.zip elems) (array _) := .array
        rwa [List.map_snd_zip (Nat.le_of_eq hlen)] at hparts
      · cases h
    · rintro ⟨hlen, h⟩
      have heq : (names.zip items).map Prod.snd = items := List.map_snd_zip (Nat.le_of_eq hlen)
      generalize names.zip items = fields at h heq
      cases h
      rw [heq, if_pos hlen]
  | null | bool _ | int _ | str _ | foreign =>
    constructor
    · intro h
      cases h
    · rintro ⟨-, h⟩
      cases h

/-- The parts of a form with two parts. -/
theorem parts_pair_eq_some_iff {a b : String} (hab : a ≠ b) {x y : Json} :
    j.parts [a, b] = some [x, y] ↔ j.HasParts [(a, x), (b, y)] := by
  rw [parts_eq_some_iff (by simp [hab])]
  simp

/-- The parts of a form with three parts. -/
theorem parts_triple_eq_some_iff {a b c : String} (habc : [a, b, c].Nodup) {x y z : Json} :
    j.parts [a, b, c] = some [x, y, z] ↔ j.HasParts [(a, x), (b, y), (c, z)] := by
  rw [parts_eq_some_iff habc]
  simp

/-- The parts of a value are **less deep** than the value. -/
theorem HasParts.depth_lt {fields : List (String × Json)} (h : j.HasParts fields)
    {field : String × Json} (hfield : field ∈ fields) : field.2.depth < j.depth := by
  cases h with
  | object h =>
    have hmem := (List.mem_filter.1 (h.mem_iff.2 hfield)).1
    exact Nat.lt_succ_of_le (depth_le_depthMembers hmem)
  | array => exact Nat.lt_succ_of_le (depth_le_depthItems (List.mem_map_of_mem hfield))

end Json

end WhileLang
