/-!
# Quoted strings

Strings between double quotes. Writing escapes the quote, the backslash and the control
characters below U+0020, the five common ones by a letter (`\n`) and the others by four
hexadecimal digits (`\u001f`); everything else stands for itself.

Reading goes over the characters one at a time. It collects *pieces*: a character that stands
for itself or is escaped by a letter, or a 16-bit code written in hexadecimal. In a second
pass `assemble` turns the pieces into text, where a high surrogate and the low one right
after it make one character, and any other surrogate makes the string no text at all.
-/

namespace WhileLang.Json.Quoted

/-! ### Writing -/

/-- The letter that stands for a character after a backslash, if there is one. -/
def letter? (c : Char) : Option Char :=
  if c = '"' then some '"'
  else if c = '\\' then some '\\'
  else if c = '\x08' then some 'b'
  else if c = '\x0c' then some 'f'
  else if c = '\n' then some 'n'
  else if c = '\r' then some 'r'
  else if c = '\t' then some 't'
  else none

/-- The characters that stand for one character of a string between quotes. -/
def escape (c : Char) : List Char :=
  match letter? c with
  | some l => ['\\', l]
  | none =>
    if c.toNat < 0x20 then
      ['\\', 'u', '0', '0', Nat.digitChar (c.toNat / 16), Nat.digitChar (c.toNat % 16)]
    else [c]

/-- A string in quotes, followed by `rest`. -/
def write (s : String) (rest : List Char) : List Char :=
  '"' :: (s.toList.flatMap escape ++ '"' :: rest)

/-! ### Reading: pieces -/

/-- A piece of a quoted string. -/
inductive Piece where
  /-- A character, plain or escaped by a letter. -/
  | char (c : Char)
  /-- A 16-bit code in hexadecimal. -/
  | code (n : Nat)
  deriving DecidableEq

/-- What has been read of the present piece. -/
inductive Pending where
  /-- Nothing yet. -/
  | plain
  /-- A backslash. -/
  | escape
  /-- A backslash, `u`, and digits of value `n`; `more` digits are to follow the next one. -/
  | code (n more : Nat)
  deriving DecidableEq

/-- The character that a letter after a backslash stands for. -/
def unescape (c : Char) : Option Char :=
  if c = '"' then some '"'
  else if c = '\\' then some '\\'
  else if c = '/' then some '/'
  else if c = 'b' then some '\x08'
  else if c = 'f' then some '\x0c'
  else if c = 'n' then some '\n'
  else if c = 'r' then some '\r'
  else if c = 't' then some '\t'
  else none

/-- The value of a hexadecimal digit, in either case. -/
def hexValue (c : Char) : Option Nat :=
  if '0' ≤ c ∧ c ≤ '9' then some (c.toNat - '0'.toNat)
  else if 'a' ≤ c ∧ c ≤ 'f' then some (c.toNat - 'a'.toNat + 10)
  else if 'A' ≤ c ∧ c ≤ 'F' then some (c.toNat - 'A'.toNat + 10)
  else none

/-- Takes in one character inside the quotes. The second part of the result is the piece that
the character completes, if it completes one. -/
def Pending.step (c : Char) : Pending → Option (Pending × Option Piece)
  | plain =>
    if c = '\\' then some (escape, none)
    else if c.toNat < 0x20 then none
    else some (plain, some (.char c))
  | escape =>
    if c = 'u' then some (code 0 3, none)
    else (unescape c).map fun d => (plain, some (.char d))
  | code n more =>
    match hexValue c, more with
    | none, _ => none
    | some d, 0 => some (plain, some (.code (16 * n + d)))
    | some d, more + 1 => some (code (16 * n + d) more, none)

/-! ### Reading: surrogates -/

/-- The first halves of surrogate pairs. -/
def isHigh (n : Nat) : Bool :=
  0xd800 ≤ n && n < 0xdc00

/-- The second halves of surrogate pairs. -/
def isLow (n : Nat) : Bool :=
  0xdc00 ≤ n && n < 0xe000

/-- The character that a surrogate pair stands for. -/
def pair (high low : Nat) : Char :=
  Char.ofNat (0x10000 + (high - 0xd800) * 0x400 + (low - 0xdc00))

/-- The text of pieces. `high` is a high surrogate that waits for its other half, and `text`
holds the characters so far, last first. -/
def assembleFrom (high : Option Nat) (text : List Char) : List Piece → Option String
  | [] =>
    match high with
    | none => some (String.ofList text.reverse)
    | some _ => none
  | .char c :: us =>
    match high with
    | none => assembleFrom none (c :: text) us
    | some _ => none
  | .code n :: us =>
    match high with
    | none =>
      if isHigh n then assembleFrom (some n) text us
      else if isLow n then none
      else assembleFrom none (Char.ofNat n :: text) us
    | some h =>
      if isLow n then assembleFrom none (pair h n :: text) us
      else none

/-- The text of pieces, unless half a surrogate pair is among them. -/
def assemble (us : List Piece) : Option String :=
  assembleFrom none [] us

end WhileLang.Json.Quoted
