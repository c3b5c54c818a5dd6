import WhileLang.Environment.Equivalence

/-!
# Overlays of bindings

What is found in an environment after a list of bindings is laid over it, and when two
environments that differ cannot be told apart.

* An overlay decides the names that it binds, and leaves all others alone
  (`get?_merge_congr`, `get?_merge_of_notMem`). So overlays that bind different names can be laid
  in either order (`merge_merge_comm`).
* Of the values that an overlay gives a name the last one counts (`get?_merge`), and of the places
  the first one, behind the names that were bound before (`names_merge`). So an environment is made
  by its own bindings (`ofList_toList`).
* `e.AgreeOn xs f` says that the names `xs` have the same values in `e` and `f`, or are bound in
  neither. The same overlay on both sides keeps that (`AgreeOn.merge`).
* `SameOverlay ys e₀ f₀ e f` says that `e` and `f` come from `e₀` and `f₀` by one and the same
  overlay, which binds only names among `ys`.
-/

namespace WhileLang

/-- Setting a name that does not occur adds it at the end. -/
theorem Bindings.set_of_notMem {name : String} {value : Value} {bs : Bindings}
    (h : name ∉ names bs) : set name value bs = bs ++ [(name, value)] := by
  induction bs with
  | nil => rfl
  | cons b rest ih =>
    obtain ⟨other, old⟩ := b
    have hne : other ≠ name := fun heq => h (heq ▸ List.mem_cons_self)
    have hrest : name ∉ names rest := fun hmem => h (List.mem_cons_of_mem _ hmem)
    rw [set, if_neg hne, ih hrest, List.cons_append]

namespace Environment

variable {e f : Environment} {x : String} {xs ys : List String}

/-- A name is not contained where it has no value. -/
theorem contains_eq_false_iff : e.contains x = false ↔ e.get? x = none :=
  Option.isSome_eq_false_iff.trans Option.isNone_iff_eq_none

/-! ### Lookups through an overlay -/

/-- An overlay does not make a difference where there is none. -/
theorem get?_merge_congr (h : e.get? x = f.get? x) (bs : Bindings) :
    (e.merge bs).get? x = (f.merge bs).get? x := by
  induction bs generalizing e f with
  | nil => exact h
  | cons b rest ih =>
    obtain ⟨name, value⟩ := b
    refine ih ?_
    rw [get?_bind, get?_bind, h]

/-- An overlay leaves the names alone that it does not bind. -/
theorem get?_merge_of_notMem {bs : Bindings} (h : x ∉ Bindings.names bs) :
    (e.merge bs).get? x = e.get? x := by
  induction bs generalizing e with
  | nil => rfl
  | cons b rest ih =>
    obtain ⟨name, value⟩ := b
    have hne : x ≠ name := fun heq => h (heq ▸ List.mem_cons_self)
    have hrest : x ∉ Bindings.names rest := fun hx => h (List.mem_cons_of_mem _ hx)
    rw [merge_cons, ih hrest, get?_bind, if_neg hne]

/-- The same overlay on equivalent environments. -/
theorem merge_equiv_merge (h : e ≈ f) (bs : Bindings) : e.merge bs ≈ f.merge bs :=
  fun x => get?_merge_congr (h x) bs

/-- Overlays that bind different names **can be laid in either order**, up to the order of the
bindings. -/
theorem merge_merge_comm (e : Environment) {bs cs : Bindings}
    (h : ∀ x ∈ Bindings.names bs, x ∉ Bindings.names cs) :
    (e.merge bs).merge cs ≈ (e.merge cs).merge bs := by
  intro x
  by_cases hx : x ∈ Bindings.names bs
  · -- `cs` does not bind the name, so it can be left out on both sides
    have hcs := h x hx
    rw [get?_merge_of_notMem hcs]
    exact get?_merge_congr (get?_merge_of_notMem hcs).symm bs
  · rw [get?_merge_of_notMem hx]
    exact get?_merge_congr (get?_merge_of_notMem hx) cs

/-- Of several values for a name **the last one counts**. -/
theorem get?_merge (e : Environment) (bs : Bindings) (x : String) :
    (e.merge bs).get? x = (bs.reverse.lookup x).or (e.get? x) := by
  induction bs generalizing e with
  | nil => rfl
  | cons b rest ih =>
    obtain ⟨name, value⟩ := b
    rw [merge_cons, ih, get?_bind, List.reverse_cons, List.lookup_append, Option.or_assoc,
      Bindings.lookup_cons]
    split <;> simp

/-- The names of an overlay stand **where they occur first**, behind those bound before. -/
theorem names_merge (e : Environment) (bs : Bindings) :
    (e.merge bs).names
      = e.names ++ ((Bindings.names bs).filter (· ∉ e.names)).eraseDups := by
  induction bs generalizing e with
  | nil => simp
  | cons b rest ih =>
    obtain ⟨name, value⟩ := b
    have hnames : Bindings.names ((name, value) :: rest) = name :: Bindings.names rest := rfl
    rw [merge_cons, ih, names_bind, hnames, List.filter_cons]
    by_cases h : name ∈ e.names
    · simp [h]
    · have hrest : (fun x => decide (x ∉ e.names ++ [name]))
          = fun x => !(x == name) && decide (x ∉ e.names) := by
        funext x
        by_cases hx : x = name <;> simp [hx]
      rw [if_neg h, if_pos (by simpa using h), hrest, List.eraseDups_cons, List.filter_filter,
        List.append_assoc, List.singleton_append]

/-- A name is unbound after an overlay if it was so before **and the overlay does not bind it**. -/
theorem get?_merge_eq_none_iff {bs : Bindings} :
    (e.merge bs).get? x = none ↔ x ∉ Bindings.names bs ∧ e.get? x = none := by
  rw [get?_eq_none_iff, get?_eq_none_iff, names_merge, List.mem_append, List.mem_eraseDups,
    List.mem_filter, decide_eq_true_iff]
  constructor
  · intro h
    have hold : x ∉ e.names := fun hx => h (.inl hx)
    exact ⟨fun hnew => h (.inr ⟨hnew, hold⟩), hold⟩
  · rintro ⟨hnew, hold⟩ (hx | ⟨hx, -⟩)
    · exact hold hx
    · exact hnew hx

/-- An overlay of names that are not bound yet comes last, as it is. -/
theorem toList_merge {e : Environment} {bs : Bindings}
    (h : (Bindings.names (e.toList ++ bs)).Nodup) : (e.merge bs).toList = e.toList ++ bs := by
  induction bs generalizing e with
  | nil => simp
  | cons b rest ih =>
    obtain ⟨name, value⟩ := b
    have hnew : name ∉ Bindings.names e.toList := by
      rw [Bindings.names, List.map_append, List.map_cons] at h
      exact fun hmem => (List.nodup_append.1 h).2.2 name hmem name List.mem_cons_self rfl
    have hbind : (e.bind name value).toList ++ rest = e.toList ++ (name, value) :: rest := by
      rw [toList_bind, Bindings.set_of_notMem hnew, List.append_assoc, List.singleton_append]
    rw [merge_cons, ih (by rwa [hbind]), hbind]

/-- An environment is **made by its own bindings**. -/
theorem ofList_toList (e : Environment) : ofList e.toList = e :=
  Environment.ext (toList_merge e.nodup_names)

theorem get?_ofList (bs : Bindings) (x : String) : (ofList bs).get? x = bs.reverse.lookup x := by
  rw [ofList, get?_merge, get?_empty, Option.or_none]

theorem names_ofList (bs : Bindings) : (ofList bs).names = (Bindings.names bs).eraseDups := by
  have hall : ((Bindings.names bs).filter (· ∉ empty.names)) = Bindings.names bs :=
    List.filter_eq_self.2 fun x _ => by simp [names]
  rw [ofList, names_merge, hall]
  rfl

/-! ### Agreement -/

/-- The names `xs` have the same values in both environments, or are bound in neither. -/
def AgreeOn (xs : List String) (e f : Environment) : Prop :=
  ∀ x ∈ xs, e.get? x = f.get? x

instance : Decidable (AgreeOn xs e f) :=
  inferInstanceAs (Decidable (∀ x ∈ xs, e.get? x = f.get? x))

/-- Equivalent environments agree on all names. -/
theorem agreeOn_of_equiv (h : e ≈ f) (xs : List String) : AgreeOn xs e f :=
  fun x _ => h x

theorem AgreeOn.symm (h : AgreeOn xs e f) : AgreeOn xs f e :=
  fun x hx => (h x hx).symm

theorem AgreeOn.mono (h : AgreeOn ys e f) (hsub : xs ⊆ ys) : AgreeOn xs e f :=
  fun x hx => h x (hsub hx)

/-- Agreement outlasts an overlay on both sides. -/
theorem AgreeOn.merge (h : AgreeOn xs e f) (bs : Bindings) :
    AgreeOn xs (e.merge bs) (f.merge bs) :=
  fun x hx => get?_merge_congr (h x hx) bs

/-- An environment agrees with itself under an overlay that binds none of the names. -/
theorem agreeOn_merge_self {bs : Bindings} (h : ∀ x ∈ xs, x ∉ Bindings.names bs) :
    AgreeOn xs e (e.merge bs) :=
  fun x hx => (get?_merge_of_notMem (h x hx)).symm

/-- A name that is agreed on is found in both environments, or faulted in both. -/
theorem AgreeOn.lookup_eq (h : AgreeOn xs e f) (hx : x ∈ xs) : e.lookup x = f.lookup x := by
  rw [lookup, lookup, h x hx]

/-! ### The same overlay on both sides -/

/-- One overlay, of names among `ys`, leads from `e₀` to `e` and from `f₀` to `f`. -/
def SameOverlay (ys : List String) (e₀ f₀ e f : Environment) : Prop :=
  ∃ bs : Bindings, Bindings.names bs ⊆ ys ∧ e = e₀.merge bs ∧ f = f₀.merge bs

variable {e₀ f₀ e' f' : Environment}

/-- The overlay that binds nothing. -/
theorem SameOverlay.refl (ys : List String) (e f : Environment) : SameOverlay ys e f e f :=
  ⟨[], List.nil_subset _, rfl, rfl⟩

/-- The overlay that binds one name. -/
theorem SameOverlay.bind {name : String} (h : name ∈ ys) (e f : Environment) (v : Value) :
    SameOverlay ys e f (e.bind name v) (f.bind name v) :=
  ⟨[(name, v)], List.cons_subset.2 ⟨h, List.nil_subset _⟩, rfl, rfl⟩

theorem SameOverlay.mono (h : SameOverlay xs e₀ f₀ e f) (hsub : xs ⊆ ys) :
    SameOverlay ys e₀ f₀ e f := by
  obtain ⟨bs, hbs, he, hf⟩ := h
  exact ⟨bs, List.Subset.trans hbs hsub, he, hf⟩

/-- Two overlays laid one after the other are one. -/
theorem SameOverlay.trans (h : SameOverlay ys e₀ f₀ e f) (h' : SameOverlay ys e f e' f') :
    SameOverlay ys e₀ f₀ e' f' := by
  obtain ⟨bs, hbs, rfl, rfl⟩ := h
  obtain ⟨cs, hcs, rfl, rfl⟩ := h'
  have hsub : Bindings.names (bs ++ cs) ⊆ ys := by
    rw [Bindings.names, List.map_append]
    exact List.append_subset.2 ⟨hbs, hcs⟩
  exact ⟨bs ++ cs, hsub, (merge_append ..).symm, (merge_append ..).symm⟩

/-- Environments that agree still do so under the same overlay. -/
theorem SameOverlay.agreeOn (h : SameOverlay ys e₀ f₀ e f) (hagree : AgreeOn xs e₀ f₀) :
    AgreeOn xs e f := by
  obtain ⟨bs, -, rfl, rfl⟩ := h
  exact hagree.merge bs

/-- Equivalent environments still are so under the same overlay. -/
theorem SameOverlay.equiv (h : SameOverlay ys e₀ f₀ e f) (hequiv : e₀ ≈ f₀) : e ≈ f := by
  obtain ⟨bs, -, rfl, rfl⟩ := h
  exact merge_equiv_merge hequiv bs

end Environment

end WhileLang
