import WhileLang.Json.Quoted
import WhileLang.Json.Numeral

/-!
# The text of JSON values

`render` writes a value compactly: no blanks anywhere, members in their order. `write` puts
the text of a value in front of a given rest, so that long texts are written in one pass.
A foreign value is written `-0`, which is read as foreign again.
-/

namespace WhileLang.Json

mutual

/-- The text of a value, followed by `rest`. -/
def write : Json → List Char → List Char
  | null, rest => 'n' :: 'u' :: 'l' :: 'l' :: rest
  | bool true, rest => 't' :: 'r' :: 'u' :: 'e' :: rest
  | bool false, rest => 'f' :: 'a' :: 'l' :: 's' :: 'e' :: rest
  | int i, rest => Decimal.chars i ++ rest
  | str s, rest => Quoted.write s rest
  | array [], rest => '[' :: ']' :: rest
  | array (j :: items), rest => '[' :: write j (writeItems items (']' :: rest))
  | object [], rest => '\x7b' :: '\x7d' :: rest
  | object ((name, j) :: members), rest =>
    '\x7b' :: Quoted.write name (':' :: write j (writeMembers members ('\x7d' :: rest)))
  | foreign, rest => '-' :: '0' :: rest

/-- The text of further values of an array, each after a comma. -/
def writeItems : List Json → List Char → List Char
  | [], rest => rest
  | j :: items, rest => ',' :: write j (writeItems items rest)

/-- The text of further members of an object, each after a comma. -/
def writeMembers : List (String × Json) → List Char → List Char
  | [], rest => rest
  | (name, j) :: members, rest =>
    ',' :: Quoted.write name (':' :: write j (writeMembers members rest))

end

/-- The compact text of a value. -/
def render (j : Json) : String :=
  String.ofList (j.write [])

end WhileLang.Json
