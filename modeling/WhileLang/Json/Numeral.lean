import WhileLang.Json.Basic
import WhileLang.Decimal

/-!
# Bare words

What stands in a JSON text without quotes: `null`, `true`, `false`, and the numerals. A
numeral is an integer part without leading zeros, after an optional minus sign, then perhaps
a fraction and an exponent. Only a numeral that is a plain integer part is an integer; the
numeral `-0` is not one, as there is no negative zero among the integers.
-/

namespace WhileLang.Json.Numeral

/-- Splits off the integer part: a zero, or digits that do not begin with a zero. -/
def splitWhole : List Char → Option (List Char × List Char)
  | [] => none
  | c :: rest =>
    if c = '0' then some (['0'], rest)
    else if c.isDigit then
      some (c :: rest.takeWhile Char.isDigit, rest.dropWhile Char.isDigit)
    else none

/-- Drops digits, of which there must be at least one. -/
def dropDigits : List Char → Option (List Char)
  | [] => none
  | c :: rest => if c.isDigit then some (rest.dropWhile Char.isDigit) else none

/-- Drops a fraction, if there is one. -/
def dropFraction : List Char → Option (List Char)
  | [] => some []
  | c :: rest => if c = '.' then dropDigits rest else some (c :: rest)

/-- Drops the sign of an exponent, if there is one. -/
def dropSign : List Char → List Char
  | [] => []
  | c :: rest => if c = '+' ∨ c = '-' then rest else c :: rest

/-- Drops an exponent, if there is one. -/
def dropExponent : List Char → Option (List Char)
  | [] => some []
  | c :: rest => if c = 'e' ∨ c = 'E' then dropDigits (dropSign rest) else some (c :: rest)

/-- Reads a numeral without its minus sign. -/
def readUnsigned (negative : Bool) (word : List Char) : Option Json :=
  match splitWhole word with
  | none => none
  | some (digits, []) =>
    if negative then
      if digits = ['0'] then some .foreign
      else some (.int (-Int.ofNat (Nat.ofDigitChars 10 digits 0)))
    else some (.int (Int.ofNat (Nat.ofDigitChars 10 digits 0)))
  | some (_, rest) =>
    match dropFraction rest >>= dropExponent with
    | some [] => some .foreign
    | _ => none

/-- Reads a numeral. -/
def read : List Char → Option Json
  | [] => none
  | c :: rest => if c = '-' then readUnsigned true rest else readUnsigned false (c :: rest)

end Numeral

/-- Reads what stands without quotes. -/
def readWord (word : List Char) : Option Json :=
  if word = ['n', 'u', 'l', 'l'] then some .null
  else if word = ['t', 'r', 'u', 'e'] then some (.bool true)
  else if word = ['f', 'a', 'l', 's', 'e'] then some (.bool false)
  else Numeral.read word

end WhileLang.Json
