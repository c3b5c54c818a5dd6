import WhileLang.Json.Numeral

/-!
# Integers are read back

The decimal numeral of an integer is read as that integer.
-/

namespace WhileLang.Json

namespace Numeral

/-- The digits of a number are an integer part with nothing after it. -/
theorem splitWhole_toDigits (n : Nat) :
    splitWhole (Nat.toDigits 10 n) = some (Nat.toDigits 10 n, []) := by
  obtain ⟨c, ds, hd, hc, hds, h0⟩ := Decimal.exists_toDigits_eq_cons n
  rw [hd, splitWhole]
  by_cases hz : c = '0'
  · rw [if_pos hz, (h0 hz).1, hz]
  · have take : (ds ++ []).takeWhile Char.isDigit = ds ++ [].takeWhile Char.isDigit :=
      List.takeWhile_append_of_pos hds
    have drop : (ds ++ []).dropWhile Char.isDigit = [].dropWhile Char.isDigit :=
      List.dropWhile_append_of_pos hds
    simp only [List.append_nil, List.takeWhile_nil, List.dropWhile_nil] at take drop
    rw [if_neg hz, if_pos hc, take, drop]

theorem readUnsigned_toDigits (n : Nat) :
    readUnsigned false (Nat.toDigits 10 n) = some (.int (.ofNat n)) := by
  simp [readUnsigned, splitWhole_toDigits, Nat.ofDigitChars_toDigits]

theorem readUnsigned_toDigits_succ (n : Nat) :
    readUnsigned true (Nat.toDigits 10 (n + 1)) = some (.int (.negSucc n)) := by
  have hne : Nat.toDigits 10 (n + 1) ≠ ['0'] := by
    intro h
    obtain ⟨c, ds, hd, -, -, h0⟩ := Decimal.exists_toDigits_eq_cons (n + 1)
    rw [h] at hd
    have := (h0 (List.cons.inj hd).1.symm).2
    omega
  simp [readUnsigned, splitWhole_toDigits, Nat.ofDigitChars_toDigits, hne]
  omega

/-- An integer's numeral is read as that integer. -/
theorem read_chars (i : Int) : read (Decimal.chars i) = some (.int i) := by
  cases i with
  | ofNat n =>
    obtain ⟨c, ds, hd, hc, -, -⟩ := Decimal.exists_toDigits_eq_cons n
    have hne : c ≠ '-' := by
      rintro rfl
      exact absurd hc (by decide)
    have hr := readUnsigned_toDigits n
    rw [Decimal.chars, hd] at *
    rw [read, if_neg hne, hr]
  | negSucc n => rw [Decimal.chars, read, if_pos rfl, readUnsigned_toDigits_succ]

end Numeral

/-- What begins with a digit or a minus sign is read as a numeral. -/
theorem readWord_eq_read {c : Char} {word : List Char} (h : c.isDigit = true ∨ c = '-') :
    readWord (c :: word) = Numeral.read (c :: word) := by
  have hn : c ≠ 'n' := by
    rintro rfl
    exact absurd h (by decide)
  have ht : c ≠ 't' := by
    rintro rfl
    exact absurd h (by decide)
  have hf : c ≠ 'f' := by
    rintro rfl
    exact absurd h (by decide)
  simp [readWord, hn, ht, hf]

/-- As a word, too, an integer's numeral is read as that integer. -/
theorem readWord_chars (i : Int) : readWord (Decimal.chars i) = some (.int i) := by
  obtain ⟨c, word, hw⟩ := List.exists_cons_of_ne_nil (Decimal.chars_ne_nil i)
  have hc : c ∈ Decimal.chars i := by simp [hw]
  rw [hw, readWord_eq_read (Decimal.isDigit_or_eq_of_mem_chars hc), ← hw, Numeral.read_chars]

end WhileLang.Json
