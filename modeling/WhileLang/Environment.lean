import WhileLang.Fault

/-!
# Environments

An environment binds names to values. It remembers the order in which its names were first
bound: binding a name again gives it a new value **at its old place**, and a new name goes to
the end. The order is only ever shown; looking a name up does not depend on it. Two
environments with the same bindings in whatever order are equivalent
(`WhileLang.Environment.Equivalence`).

Environments are values. `bind` and `merge` give new ones and leave the old one as it was.
-/

namespace WhileLang

/-! ### Lists of bindings -/

/-- A list of bindings, in which names may repeat. -/
abbrev Bindings := List (String × Value)

namespace Bindings

/-- Gives the first binding of `name` the value `value`, or adds such a binding at the end. -/
def set (name : String) (value : Value) : Bindings → Bindings
  | [] => [(name, value)]
  | (other, old) :: rest =>
    if other = name then (name, value) :: rest else (other, old) :: set name value rest

/-- The names, in order. -/
abbrev names (bs : Bindings) : List String :=
  bs.map Prod.fst

/-- Setting a name that occurs keeps the names as they are; a new one comes last. -/
theorem names_set (name : String) (value : Value) (bs : Bindings) :
    names (set name value bs) = if name ∈ names bs then names bs else names bs ++ [name] := by
  induction bs with
  | nil => simp [set]
  | cons b rest ih =>
    obtain ⟨other, old⟩ := b
    by_cases h : other = name
    · simp [set, h]
    · have h' : name ≠ other := fun e => h e.symm
      simp only [set, h, if_false, List.map_cons, ih, List.mem_cons, h', false_or]
      split <;> simp

/-- Setting a name keeps names distinct. -/
theorem nodup_names_set {bs : Bindings} (h : (names bs).Nodup) (name : String) (value : Value) :
    (names (set name value bs)).Nodup := by
  rw [names_set]
  split
  · exact h
  · rename_i hn
    exact List.nodup_append.2 ⟨h, by simp, by
      intro a ha b hb
      rw [List.mem_singleton.1 hb]
      exact fun e => hn (e ▸ ha)⟩

/-- The first binding of a name decides what is found. -/
theorem lookup_cons (name x : String) (value : Value) (bs : Bindings) :
    List.lookup x ((name, value) :: bs) = if x = name then some value else bs.lookup x := by
  simp only [List.lookup_cons]
  split <;> simp_all

/-- What is found after setting a name: the new value there, and what was found before
everywhere else. -/
theorem lookup_set (name x : String) (value : Value) (bs : Bindings) :
    (set name value bs).lookup x = if x = name then some value else bs.lookup x := by
  induction bs with
  | nil => rw [set, lookup_cons]
  | cons b rest ih =>
    obtain ⟨other, old⟩ := b
    by_cases h : other = name
    · subst h
      rw [set, if_pos rfl, lookup_cons, lookup_cons]
      split <;> rfl
    · rw [set, if_neg h, lookup_cons, lookup_cons, ih]
      by_cases hx : x = name
      · simp [hx, Ne.symm h]
      · simp [hx]

end Bindings

/-! ### Environments -/

/-- An environment: bindings in the order in which their names were first bound. -/
@[ext]
structure Environment where
  /-- The bindings, in order. -/
  toList : Bindings
  /-- No name is bound twice. -/
  nodup_names : (Bindings.names toList).Nodup := by simp
  deriving DecidableEq, Repr

namespace Environment

/-- The environment that binds nothing. -/
def empty : Environment where
  toList := []

instance : Inhabited Environment := ⟨empty⟩

/-- The names bound, in order. -/
def names (env : Environment) : List String :=
  Bindings.names env.toList

/-- The value of a name, if it is bound. -/
def get? (env : Environment) (name : String) : Option Value :=
  env.toList.lookup name

/-- The value of a name, or the fault of using a name that is not bound. -/
def lookup (env : Environment) (name : String) : Except Fault Value :=
  match env.get? name with
  | some value => .ok value
  | none => .error (.unbound name)

/-- Whether a name is bound. -/
def contains (env : Environment) (name : String) : Bool :=
  (env.get? name).isSome

/-- The number of names bound. -/
def size (env : Environment) : Nat :=
  env.toList.length

/-- Whether nothing is bound. -/
def isEmpty (env : Environment) : Bool :=
  env.toList.isEmpty

/-- Binds one name: at its old place if it has one, else at the end. -/
def bind (env : Environment) (name : String) (value : Value) : Environment where
  toList := Bindings.set name value env.toList
  nodup_names := Bindings.nodup_names_set env.nodup_names name value

/-- Lays a list of bindings over an environment, one after the other. -/
def merge (env : Environment) (bs : Bindings) : Environment :=
  bs.foldl (fun e b => e.bind b.1 b.2) env

/-- The environment of a list of bindings: each name stands where it occurs first and has
the value that it is given last. -/
def ofList (bs : Bindings) : Environment :=
  empty.merge bs

/-- The text of an environment: `{x => «3», y => «4»}`. -/
def render (env : Environment) : String :=
  "\x7b" ++ String.intercalate ", " (env.toList.map fun b => b.1 ++ " => " ++ b.2.inspect)
    ++ "\x7d"

/-! ### What the operations do to names and values -/

@[simp]
theorem get?_empty (x : String) : empty.get? x = none := rfl

@[simp]
theorem toList_empty : empty.toList = [] := rfl

@[simp]
theorem toList_bind (env : Environment) (name : String) (value : Value) :
    (env.bind name value).toList = Bindings.set name value env.toList := rfl

/-- Binding a name changes what is found under that name and nothing else. -/
theorem get?_bind (env : Environment) (name x : String) (value : Value) :
    (env.bind name value).get? x = if x = name then some value else env.get? x :=
  Bindings.lookup_set name x value env.toList

/-- Binding a known name keeps the names as they are; a new one comes last. -/
theorem names_bind (env : Environment) (name : String) (value : Value) :
    (env.bind name value).names
      = if name ∈ env.names then env.names else env.names ++ [name] :=
  Bindings.names_set name value env.toList

@[simp]
theorem merge_nil (env : Environment) : env.merge [] = env := rfl

@[simp]
theorem merge_cons (env : Environment) (name : String) (value : Value) (bs : Bindings) :
    env.merge ((name, value) :: bs) = (env.bind name value).merge bs := rfl

/-- Overlays can be laid one after the other or in one go. -/
theorem merge_append (env : Environment) (xs ys : Bindings) :
    env.merge (xs ++ ys) = (env.merge xs).merge ys := by
  simp [merge]

/-- A lookup fails exactly on names that are not bound, and says which one. -/
theorem lookup_eq_error_iff {env : Environment} {x : String} {f : Fault} :
    env.lookup x = .error f ↔ env.get? x = none ∧ f = .unbound x := by
  unfold lookup
  cases env.get? x <;> simp [eq_comm]

/-- A lookup succeeds exactly with the value bound. -/
theorem lookup_eq_ok_iff {env : Environment} {x : String} {v : Value} :
    env.lookup x = .ok v ↔ env.get? x = some v := by
  unfold lookup
  cases env.get? x <;> simp

end Environment

end WhileLang
