import Mathlib.Data.List.Nodup
import Mathlib.Data.List.Perm.Subperm
import WhileLang.Proofs.Overlay

/-!
# The laws of overlays

An environment can be looked into in several ways: a name is looked up or asked for, the names are
counted, and the bindings are listed. All of these tell of the same map (`Environment.Coherent`), so
an environment is given by the order of its names and by what is found under them
(`Environment.eq_of_names_eq`).

An overlay is told completely by these two (`Environment.listed_merge`): where a name stands is
decided by its **first** occurrence, what is found under it by its **last** one. The laws of overlays
follow, and are put together in `Environment.overlay_laws`.

Environments are equivalent if they have the same bindings in whatever order
(`Environment.equiv_iff_perm`), and for that it is enough to compare their sizes and to look the
bindings of one of them up in the other (`Environment.sameBindings_iff`).
-/

namespace WhileLang

/-- Where no name occurs twice, **what is found is what is listed**. -/
theorem Bindings.lookup_eq_some_iff {bs : Bindings} (h : (names bs).Nodup) {x : String}
    {v : Value} : bs.lookup x = some v ↔ (x, v) ∈ bs := by
  induction bs with
  | nil => simp
  | cons b rest ih =>
    obtain ⟨name, value⟩ := b
    obtain ⟨hnew, hrest⟩ := List.nodup_cons.1 h
    rw [lookup_cons, List.mem_cons, Prod.mk.injEq]
    by_cases hx : x = name
    · have hnone : (x, v) ∉ rest := fun hmem => hnew (List.mem_map.2 ⟨(x, v), hmem, hx⟩)
      simp [hx, hx ▸ hnone, eq_comm]
    · simp [hx, ih hrest]

namespace Environment

variable {e f : Environment} {x : String} {v : Value}

/-! ### One map -/

theorem get?_eq_some_iff : e.get? x = some v ↔ (x, v) ∈ e.toList :=
  Bindings.lookup_eq_some_iff e.nodup_names

theorem contains_iff : e.contains x = true ↔ x ∈ e.names := by
  rw [contains, ← Option.ne_none_iff_isSome, Ne, get?_eq_none_iff, not_not]

theorem size_eq_length_names (e : Environment) : e.size = e.names.length :=
  (List.length_map Prod.fst).symm

theorem isEmpty_iff : e.isEmpty = true ↔ e.names = [] := by
  rw [isEmpty, List.isEmpty_iff, names, Bindings.names, List.map_eq_nil_iff]

/-- All the ways to look into an environment **tell of the same map**. -/
structure Coherent (e : Environment) : Prop where
  /-- No name is listed twice. -/
  nodup : (e.toList.map Prod.fst).Nodup
  /-- What is found is what is listed. -/
  lookup_eq_ok : ∀ x v, e.lookup x = .ok v ↔ (x, v) ∈ e.toList
  /-- Only of a name that is not listed it is said that it is not bound, and nothing else is. -/
  lookup_eq_error : ∀ x g, e.lookup x = .error g ↔ x ∉ e.toList.map Prod.fst ∧ g = .unbound x
  /-- The names that are contained are those that are listed. -/
  contains_eq_true : ∀ x, e.contains x = true ↔ x ∈ e.toList.map Prod.fst
  /-- As many names are counted as are listed. -/
  size_eq : e.size = (e.toList.map Prod.fst).length
  /-- An environment is empty if no name is contained. -/
  isEmpty_eq_true : e.isEmpty = true ↔ ∀ x, e.contains x = false

theorem coherent (e : Environment) : e.Coherent where
  nodup := e.nodup_names
  lookup_eq_ok := fun _ _ => lookup_eq_ok_iff.trans get?_eq_some_iff
  lookup_eq_error := fun _ _ => by rw [lookup_eq_error_iff, get?_eq_none_iff, names, Bindings.names]
  contains_eq_true := fun _ => contains_iff
  size_eq := size_eq_length_names e
  isEmpty_eq_true := by
    rw [isEmpty_iff, List.eq_nil_iff_forall_not_mem]
    refine forall_congr' fun x => ?_
    rw [contains_eq_false_iff, get?_eq_none_iff]

/-- The bindings are the names, in order, each with what is found under it. -/
theorem map_toList (e : Environment) :
    e.toList.map (fun b => (b.1, some b.2)) = e.names.map fun x => (x, e.get? x) := by
  rw [names, Bindings.names, List.map_map]
  refine List.map_congr_left fun b hb => ?_
  have hfound : e.get? b.1 = some b.2 := get?_eq_some_iff.2 hb
  exact congrArg (Prod.mk b.1) hfound.symm

/-- An environment is given by the order of its names and **by what is found under them**. -/
theorem eq_of_names_eq (hnames : e.names = f.names) (h : ∀ x, e.get? x = f.get? x) : e = f := by
  have hget : (fun x => (x, e.get? x)) = fun x => (x, f.get? x) := by
    funext x
    rw [h]
  have hinj : Function.Injective fun b : String × Value => (b.1, some b.2) := by
    intro b c heq
    obtain ⟨hname, hvalue⟩ := Prod.mk.inj heq
    exact Prod.ext hname (Option.some.inj hvalue)
  refine Environment.ext (List.map_injective_iff.2 hinj ?_)
  rw [map_toList, map_toList, hnames, hget]

/-! ### Overlays -/

/-- An overlay lists the names that were bound before, in their order, and behind them those that
are new, in the order in which they **occur first**; each name with the value that it is given
**last**, or else with the one that it had. -/
theorem listed_merge (e : Environment) (bs : Bindings) :
    (e.merge bs).toList.map (fun b => (b.1, some b.2))
      = (e.names ++ ((Bindings.names bs).filter (· ∉ e.names)).eraseDups).map fun x =>
          (x, (bs.reverse.lookup x).or (e.get? x)) := by
  rw [map_toList, names_merge]
  refine List.map_congr_left fun x _ => ?_
  rw [get?_merge]

/-- A name that is bound already keeps its place; a new one that is given twice stands where it is
given first, with the value that it is given then. -/
example :
    ((ofList [("a", .number 1), ("b", .number 2)]).merge
      [("c", .number 3), ("a", .number 10), ("d", .bool true), ("c", .number 4)]).toList
      = [("a", .number 10), ("b", .number 2), ("c", .number 4), ("d", .bool true)] :=
  rfl

/-- An environment does not change when its own bindings are laid over it. -/
theorem merge_toList (e : Environment) : e.merge e.toList = e := by
  have hknown : e.names.filter (· ∉ e.names) = [] :=
    List.filter_eq_nil_iff.2 fun x hx => by simpa using hx
  refine eq_of_names_eq ?_ fun x => ?_
  · rw [names_merge, ← names, hknown, List.eraseDups_nil, List.append_nil]
  · rw [get?_merge, ← get?_ofList, ofList_toList, Option.or_self]

/-! ### Equivalence -/

/-- Compares environments by their sizes, and by looking the bindings of one up in the other. -/
def sameBindings (e f : Environment) : Bool :=
  e.size = f.size ∧ ∀ b ∈ e.toList, f.get? b.1 = some b.2

theorem nodup_toList (e : Environment) : e.toList.Nodup :=
  e.nodup_names.of_map Prod.fst

/-- Equivalent environments have **the same bindings in whatever order**. -/
theorem equiv_iff_perm : e ≈ f ↔ e.toList.Perm f.toList := by
  rw [List.perm_ext_iff_of_nodup e.nodup_toList f.nodup_toList]
  constructor
  · rintro h ⟨x, v⟩
    rw [← get?_eq_some_iff, ← get?_eq_some_iff, h x]
  · intro h x
    refine Option.ext fun v => ?_
    rw [get?_eq_some_iff, get?_eq_some_iff, h]

/-- Bindings that are as many, and all found, are the same. -/
theorem sameBindings_iff : e.sameBindings f = true ↔ e ≈ f := by
  rw [sameBindings, decide_eq_true_iff, equiv_iff_perm]
  constructor
  · rintro ⟨hsize, hfound⟩
    have hsub : e.toList ⊆ f.toList := fun b hb => get?_eq_some_iff.1 (hfound b hb)
    exact (List.subperm_of_subset e.nodup_toList hsub).perm_of_length_le (Nat.le_of_eq hsize.symm)
  · intro h
    refine ⟨h.length_eq, fun b hb => ?_⟩
    exact get?_eq_some_iff.2 (h.mem_iff.1 hb)

/-- Environments that agree on what is found are equivalent, also if they are asked for faults. -/
theorem equiv_iff_lookup : e ≈ f ↔ ∀ x, e.lookup x = f.lookup x := by
  constructor
  · intro h x
    rw [lookup, lookup, h x]
  · intro h x
    refine Option.ext fun v => ?_
    rw [← lookup_eq_ok_iff, ← lookup_eq_ok_iff, h]

/-- Different names can be bound in either order. -/
theorem bind_bind_comm {y : String} (h : x ≠ y) (e : Environment) (v w : Value) :
    (e.bind x v).bind y w ≈ (e.bind y w).bind x v := by
  have hdisjoint : ∀ z ∈ Bindings.names [(x, v)], z ∉ Bindings.names [(y, w)] := by
    intro z hz
    rw [List.mem_singleton.1 hz]
    exact fun hy => h (List.mem_singleton.1 hy)
  exact merge_merge_comm e hdisjoint

/-! ### All the laws -/

/-- **The laws of overlays**, for every environment and all lists of bindings, also where names
repeat.

* All the ways to look into the environment tell of the same map.
* An overlay keeps the names that were bound before at their places, puts the new ones behind them in
  the order in which they occur first, and gives each name the value that it is given last, if it is
  given one.
* Overlays one after the other are one overlay. So an overlay binds its bindings one by one; to bind
  is an overlay of one binding, and a list of bindings is made an environment by laying it over the
  empty one.
* The environment's own bindings change nothing, and make the environment.
* It is equivalent to another one when all lookups agree, and this is decided by comparing sizes and
  looking up the bindings of one of the two. Names that differ can be bound in either order. -/
theorem overlay_laws (e : Environment) (xs ys : Bindings) :
    e.Coherent ∧
    ((e.merge xs).names = e.names ++ ((Bindings.names xs).filter (· ∉ e.names)).eraseDups ∧
      (e.merge xs).toList.map (fun b => (b.1, some b.2))
        = (e.merge xs).names.map fun x => (x, (xs.reverse.lookup x).or (e.get? x))) ∧
    (e.merge (xs ++ ys) = (e.merge xs).merge ys ∧
      e.merge xs = xs.foldl (fun env b => env.bind b.1 b.2) e ∧
      (∀ x v, e.bind x v = e.merge [(x, v)]) ∧ ofList xs = empty.merge xs) ∧
    (e.merge e.toList = e ∧ ofList e.toList = e) ∧
    (∀ f, (e ≈ f ↔ ∀ x, e.lookup x = f.lookup x) ∧ (e.sameBindings f = true ↔ e ≈ f)) ∧
    (∀ x y v w, x ≠ y → (e.bind x v).bind y w ≈ (e.bind y w).bind x v) := by
  refine ⟨e.coherent, ⟨names_merge e xs, ?_⟩,
    ⟨merge_append e xs ys, rfl, fun _ _ => rfl, rfl⟩, ⟨merge_toList e, ofList_toList e⟩,
    fun f => ⟨equiv_iff_lookup, sameBindings_iff⟩, fun x y v w h => bind_bind_comm h e v w⟩
  rw [names_merge]
  exact listed_merge e xs

end Environment

end WhileLang
