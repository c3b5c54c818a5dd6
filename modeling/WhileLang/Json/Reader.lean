import WhileLang.Json.Lexeme

/-!
# Reading JSON texts

The second stage: lexemes become a value. The reader keeps the arrays and objects that are
still open on a stack, innermost first, and a `Turn` that says what may come next. Commas
stand between values and nowhere else, and nothing may follow the value but blanks.

`read` puts the two stages together. It accepts any text of the JSON grammar, however deeply
nested.
-/

namespace WhileLang.Json

/-- An array or object that is still open, with what it holds so far, last first. -/
inductive Frame where
  | array (items : List Json)
  /-- Also the name whose value is being read. -/
  | object (members : List (Option String × Json)) (name : Option String)

/-- What may come next. -/
inductive Turn where
  /-- A value. -/
  | value
  /-- The first value of an array, or its end. -/
  | firstItem
  /-- The name of a member after the ones given; or, if there are none, the end of the
  object. -/
  | name (members : List (Option String × Json))
  /-- The colon after a name. -/
  | colon (members : List (Option String × Json)) (name : Option String)
  /-- What comes after a value. -/
  | after (j : Json)

namespace Turn

/-- Takes in the first lexeme of a value. -/
def start (stack : List Frame) : Lexeme → Option (Turn × List Frame)
  | .word j => some (after j, stack)
  | .text s => some (after ((s.map Json.str).getD .foreign), stack)
  | .openArray => some (firstItem, stack)
  | .openObject => some (name [], stack)
  | _ => none

/-- Takes in the lexeme after a value, in the innermost open array or object. -/
def proceed (j : Json) : List Frame → Lexeme → Option (Turn × List Frame)
  | .array items :: stack, .comma => some (value, .array (j :: items) :: stack)
  | .array items :: stack, .closeArray => some (after (.array (j :: items).reverse), stack)
  | .object members key :: stack, .comma => some (name ((key, j) :: members), stack)
  | .object members key :: stack, .closeObject =>
    some (after (.ofMembers ((key, j) :: members).reverse), stack)
  | _, _ => none

/-- Takes in one lexeme. -/
def step (stack : List Frame) (l : Lexeme) : Turn → Option (Turn × List Frame)
  | value => start stack l
  | firstItem =>
    match l with
    | .closeArray => some (after (.array []), stack)
    | l => start (.array [] :: stack) l
  | name members =>
    match l, members with
    | .text key, members => some (colon members key, stack)
    | .closeObject, [] => some (after (.object []), stack)
    | _, _ => none
  | colon members key =>
    match l with
    | .colon => some (value, .object members key :: stack)
    | _ => none
  | after j => proceed j stack l

/-- Takes in all lexemes of a text. -/
def run (stack : List Frame) (t : Turn) : List Lexeme → Option Json
  | [] =>
    match t, stack with
    | after j, [] => some j
    | _, _ => none
  | l :: rest =>
    match t.step stack l with
    | some (t, stack) => run stack t rest
    | none => none

end Turn

/-- The value that a text denotes, if it is a JSON text. -/
def read (text : String) : Option Json :=
  (lexemes text.toList).bind (Turn.value.run [])

end WhileLang.Json
