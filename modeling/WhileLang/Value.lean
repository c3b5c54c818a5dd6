import WhileLang.Decimal

/-!
# Values

A program computes with two kinds of value: truth values and 64-bit signed numbers. The
kind is what error messages name; `Value.render` is the text of a value as it stands in a
program, and `Value.inspect` the same text between guillemets, the form in which a value
stands beside other text.
-/

namespace WhileLang

/-- A text between guillemets: `«x < 5»`. -/
def guillemets (text : String) : String :=
  "«" ++ text ++ "»"

/-! ### Kinds -/

/-- The two kinds of value. -/
inductive Kind where
  | bool
  | number
  deriving DecidableEq, Repr

namespace Kind

/-- The name of a kind, as error messages and the exchange form write it. -/
def name : Kind → String
  | bool => "bool"
  | number => "number"

end Kind

/-! ### Values -/

/-- A value: what an expression comes to, and what a name is bound to. -/
inductive Value where
  | bool (b : Bool)
  | number (n : Int64)
  deriving DecidableEq, Repr

namespace Value

/-- The kind of a value. -/
def kind : Value → Kind
  | bool _ => .bool
  | number _ => .number

/-- The truth value, if the value is one. -/
def bool? : Value → Option Bool
  | bool b => some b
  | number _ => none

/-- The number, if the value is one. -/
def number? : Value → Option Int64
  | bool _ => none
  | number n => some n

/-- The text of a value: `true`, `false`, or a decimal numeral. -/
def render : Value → String
  | bool true => "true"
  | bool false => "false"
  | number n => Decimal.render n.toInt

/-- The text of a value between guillemets. -/
def inspect (v : Value) : String :=
  guillemets v.render

/-- A value is a truth value exactly when its kind says so. -/
theorem isSome_bool?_iff {v : Value} : v.bool?.isSome ↔ v.kind = .bool := by
  cases v <;> simp [bool?, kind]

/-- A value is a number exactly when its kind says so. -/
theorem isSome_number?_iff {v : Value} : v.number?.isSome ↔ v.kind = .number := by
  cases v <;> simp [number?, kind]

/-- The values of kind `bool`. -/
theorem kind_eq_bool_iff {v : Value} : v.kind = .bool ↔ ∃ b, v = bool b := by
  cases v <;> simp [kind]

/-- The values of kind `number`. -/
theorem kind_eq_number_iff {v : Value} : v.kind = .number ↔ ∃ n, v = number n := by
  cases v <;> simp [kind]

end Value

end WhileLang
