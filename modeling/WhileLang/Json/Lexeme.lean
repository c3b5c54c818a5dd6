import WhileLang.Json.Text

/-!
# Lexemes of JSON texts

The first stage of reading a JSON text: characters become lexemes. There are six signs, the
quoted strings, and the words that stand without quotes. Blanks — space, tab, line feed and
carriage return — end a word and are otherwise passed over. Where a word ends is decided by
the first character that cannot stand in one, so that `truefalse` is one word, and not one
that means anything.

The text is gone through once, a character at a time. `Lexing` is what is remembered in
between.
-/

namespace WhileLang.Json

/-- A lexeme. -/
inductive Lexeme where
  | openArray
  | closeArray
  | openObject
  | closeObject
  | comma
  | colon
  /-- A word without quotes, by its meaning. -/
  | word (j : Json)
  /-- A quoted string; `none` if it is no text. -/
  | text (s : Option String)

/-- The sign that a character is. -/
def Lexeme.sign? (c : Char) : Option Lexeme :=
  if c = '[' then some openArray
  else if c = ']' then some closeArray
  else if c = '\x7b' then some openObject
  else if c = '\x7d' then some closeObject
  else if c = ',' then some comma
  else if c = ':' then some colon
  else none

/-- The characters that separate lexemes and mean nothing else. -/
def isBlank (c : Char) : Bool :=
  c = ' ' || c = '\t' || c = '\n' || c = '\r'

/-- The characters that may stand in a word: unaccented letters, digits, signs, the point. -/
def isWordChar (c : Char) : Bool :=
  c.isAlphanum || c = '-' || c = '+' || c = '.'

/-- What is being read. -/
inductive Lexing where
  /-- Nothing in particular. -/
  | between
  /-- A word; its characters so far, last first. -/
  | word (chars : List Char)
  /-- A quoted string; its pieces so far, last first. -/
  | quoted (pending : Quoted.Pending) (pieces : List Quoted.Piece)

namespace Lexing

/-- Takes in a character that belongs to nothing begun. `found` are the lexemes so far, last
first. -/
def fresh (found : List Lexeme) (c : Char) : Option (Lexing × List Lexeme) :=
  if isBlank c then some (between, found)
  else if c = '"' then some (quoted .plain [], found)
  else if isWordChar c then some (word [c], found)
  else (Lexeme.sign? c).map fun sign => (between, sign :: found)

/-- Takes in one character. -/
def step (found : List Lexeme) (c : Char) : Lexing → Option (Lexing × List Lexeme)
  | between => fresh found c
  | word chars =>
    if isWordChar c then some (word (c :: chars), found)
    else (readWord chars.reverse).bind fun j => fresh (.word j :: found) c
  | quoted pending pieces =>
    if pending = .plain ∧ c = '"' then
      some (between, .text (Quoted.assemble pieces.reverse) :: found)
    else (pending.step c).map fun p => (quoted p.1 (p.2.toList ++ pieces), found)

/-- Ends the text. A word may end here, a quoted string may not. -/
def finish (found : List Lexeme) : Lexing → Option (List Lexeme)
  | between => some found.reverse
  | word chars => (readWord chars.reverse).map fun j => (.word j :: found).reverse
  | quoted _ _ => none

/-- Takes in all characters of a text. -/
def run (found : List Lexeme) (l : Lexing) : List Char → Option (List Lexeme)
  | [] => l.finish found
  | c :: rest =>
    match l.step found c with
    | some (l, found) => run found l rest
    | none => none

end Lexing

/-- The lexemes of a text, if it consists of lexemes. -/
def lexemes (text : List Char) : Option (List Lexeme) :=
  Lexing.run [] .between text

end WhileLang.Json
