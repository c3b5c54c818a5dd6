/-!
# Decimal numerals

The one way integers are written, in programs as well as in data: an optional minus sign
and the decimal digits, without leading zeros and without a plus sign. The digits are those
of `Nat.toDigits`, so that `Nat.ofDigitChars_toDigits` reads them back.
-/

namespace WhileLang.Decimal

/-- The characters of an integer in base ten. -/
def chars : Int → List Char
  | .ofNat n => Nat.toDigits 10 n
  | .negSucc n => '-' :: Nat.toDigits 10 (n + 1)

/-- The text of an integer in base ten. -/
def render (i : Int) : String :=
  String.ofList (chars i)

@[simp]
theorem toList_render (i : Int) : (render i).toList = chars i :=
  String.toList_ofList

/-- A numeral has at least one character. -/
theorem chars_ne_nil (i : Int) : chars i ≠ [] := by
  cases i with
  | ofNat n => exact Nat.toDigits_ne_nil
  | negSucc n => exact List.cons_ne_nil _ _

/-- A numeral consists of digits and perhaps a minus sign. -/
theorem isDigit_or_eq_of_mem_chars {i : Int} {c : Char} (h : c ∈ chars i) :
    c.isDigit = true ∨ c = '-' := by
  cases i with
  | ofNat n => exact .inl (Nat.isDigit_of_mem_toDigits (by decide) (by decide) h)
  | negSucc n =>
    rcases List.mem_cons.1 h with h | h
    · exact .inr h
    · exact .inl (Nat.isDigit_of_mem_toDigits (by decide) (by decide) h)

/-- There are **no leading zeros**: digits begin with a zero only for the number zero, whose
only digit it is. -/
theorem exists_toDigits_eq_cons (n : Nat) :
    ∃ c ds, Nat.toDigits 10 n = c :: ds ∧ c.isDigit = true ∧ (∀ d ∈ ds, d.isDigit = true) ∧
      (c = '0' → ds = [] ∧ n = 0) := by
  have digit : ∀ m < 10, m.digitChar.isDigit = true := by decide
  have zero : ∀ m < 10, m.digitChar = '0' → m = 0 := by decide
  induction n using Nat.strongRecOn with
  | _ n ih =>
    rw [Nat.toDigits_eq_if (by decide)]
    split
    · rename_i h
      exact ⟨n.digitChar, [], rfl, digit n h, by simp, fun h0 => ⟨rfl, zero n h h0⟩⟩
    · rename_i h
      obtain ⟨c, ds, hd, hc, hds, h0⟩ := ih (n / 10) (by omega)
      refine ⟨c, ds ++ [(n % 10).digitChar], by rw [hd]; rfl, hc, fun d hm => ?_, fun hz => ?_⟩
      · rcases List.mem_append.1 hm with hm | hm
        · exact hds d hm
        · rw [List.mem_singleton.1 hm]
          exact digit _ (by omega)
      · have := (h0 hz).2
        omega

end WhileLang.Decimal
