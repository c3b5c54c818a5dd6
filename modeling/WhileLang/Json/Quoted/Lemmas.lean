import WhileLang.Json.Quoted

/-!
# Quoted strings are read back

What `escape` writes for a character is one piece, and the pieces of a string assemble to
that string. No surrogates come up on this way: the only codes written are those of control
characters.
-/

namespace WhileLang.Json.Quoted

/-- The piece that a character is written as. -/
def pieceOf (c : Char) : Piece :=
  if letter? c = none ∧ c.toNat < 0x20 then .code c.toNat else .char c

theorem assembleFrom_map_pieceOf (text cs : List Char) :
    assembleFrom none text (cs.map pieceOf) = some (String.ofList (text.reverse ++ cs)) := by
  induction cs generalizing text with
  | nil => simp [assembleFrom]
  | cons c cs ih =>
    rw [List.map_cons, pieceOf]
    split
    · rename_i h
      have high : isHigh c.toNat = false := by
        simp [isHigh]
        omega
      have low : isLow c.toNat = false := by
        simp [isLow]
        omega
      simp [assembleFrom, high, low, ih]
    · simp [assembleFrom, ih]

/-- The pieces of a string assemble to it. -/
theorem assemble_map_pieceOf (s : String) : assemble (s.toList.map pieceOf) = some s := by
  rw [assemble, assembleFrom_map_pieceOf]
  simp

/-- A letter stands for the character it was written for. It is never the `u` that announces
hexadecimal digits. -/
theorem unescape_of_letter? {c l : Char} (h : letter? c = some l) :
    l ≠ 'u' ∧ unescape l = some c := by
  unfold letter? at h
  repeat' split at h
  all_goals cases h
  all_goals
    subst_vars
    decide

/-- The quote and the backslash are only ever written by a letter. -/
theorem ne_of_letter?_eq_none {c : Char} (h : letter? c = none) : c ≠ '"' ∧ c ≠ '\\' := by
  constructor <;>
  · rintro rfl
    exact absurd h (by decide)

/-- The hexadecimal digits written have their values. -/
theorem hexValue_digitChar : ∀ n < 16, hexValue (Nat.digitChar n) = some n := by
  decide

end WhileLang.Json.Quoted
