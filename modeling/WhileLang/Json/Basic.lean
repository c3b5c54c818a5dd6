/-!
# JSON values

The data in which programs and states are exchanged. An object is the list of its members in
the order of the text, and a name may occur more than once: what a repeated name means is for
the reader of the object to say (`WhileLang.Decoding`). Of the numbers only integers are
kept, however large.

A text can also hold well-formed data that nothing here ever stands for: a number with a
fraction or an exponent, the numeral `-0`, and a string with half a surrogate pair in it.
All of these are the value `foreign`. It is not an error, as such data may stand in a place
that nobody looks at.
-/

namespace WhileLang

/-- A JSON value. -/
inductive Json where
  | null
  | bool (b : Bool)
  | int (i : Int)
  | str (s : String)
  | array (items : List Json)
  | object (members : List (String × Json))
  /-- Well-formed data that is none of the above. -/
  | foreign

namespace Json

instance : Inhabited Json := ⟨null⟩

mutual

/-- How deep arrays and objects are nested: `0` for a scalar, `1` for `[]`. -/
def depth : Json → Nat
  | array items => depthItems items + 1
  | object members => depthMembers members + 1
  | null => 0
  | bool _ => 0
  | int _ => 0
  | str _ => 0
  | foreign => 0

/-- The greatest depth in a list of values. -/
def depthItems : List Json → Nat
  | [] => 0
  | j :: rest => max j.depth (depthItems rest)

/-- The greatest depth in a list of members. -/
def depthMembers : List (String × Json) → Nat
  | [] => 0
  | (_, j) :: rest => max j.depth (depthMembers rest)

end

/-- The value of a member list whose names may be ill-formed: an object if all names are
texts, else foreign. -/
def ofMembers (members : List (Option String × Json)) : Json :=
  match members.mapM fun m => m.1.map fun name => (name, m.2) with
  | some members => object members
  | none => foreign

end Json

end WhileLang
