import Mathlib.Algebra.Order.Ring.Nat
import Pagewright.Expression.Number

/-!
# Decimal digits

Numbers are written by `Nat.toDigits` and read by `digitsValue`. Written digits
have the value of the number, never start with a zero unless the number is zero,
and are told apart from whatever follows them if it does not start with a digit.
-/

namespace Pagewright

variable {number : Nat}

/-- What may stand behind digits, since it does not go on with them. -/
def EndsDigits (rest : List Char) : Prop :=
  ∀ c ∈ rest.head?, c.isDigit = false

theorem endsDigits_cons {c : Char} (other : c.isDigit = false) (rest : List Char) :
    EndsDigits (c :: rest) := by
  rintro _ ⟨⟩
  exact other

section Span

variable {digits rest : List Char} (all : ∀ c ∈ digits, c.isDigit) (ends : EndsDigits rest)

include all ends

theorem takeWhile_isDigit_append : (digits ++ rest).takeWhile Char.isDigit = digits := by
  rw [List.takeWhile_append_of_pos all]
  cases rest with
  | nil => simp
  | cons c rest => simp [ends c rfl]

theorem dropWhile_isDigit_append : (digits ++ rest).dropWhile Char.isDigit = rest := by
  rw [List.dropWhile_append_of_pos all]
  cases rest with
  | nil => simp
  | cons c rest => simp [ends c rfl]

end Span

theorem isDigit_of_mem_toDigits : ∀ c ∈ Nat.toDigits 10 number, c.isDigit :=
  fun _ member => Nat.isDigit_of_mem_toDigits (by decide) (by decide) member

theorem toDigits_eq_cons (number : Nat) :
    ∃ c tail, Nat.toDigits 10 number = c :: tail ∧ c.isDigit := by
  cases written : Nat.toDigits 10 number with
  | nil => exact absurd written Nat.toDigits_ne_nil
  | cons c tail => exact ⟨c, tail, rfl, isDigit_of_mem_toDigits c (written ▸ List.mem_cons_self)⟩

theorem head_toDigits_ne_zero (positive : 0 < number) :
    (Nat.toDigits 10 number).head? ≠ some '0' := by
  induction number using Nat.strongRecOn with
  | ind number ih =>
    rw [Nat.toDigits_eq_if (by decide)]
    split_ifs with small
    · have digits : ∀ digit < 10, 0 < digit → [Nat.digitChar digit].head? ≠ some '0' := by decide
      exact digits number small positive
    · have front := ih (number / 10) (by omega) (by omega)
      obtain ⟨c, tail, written, -⟩ := toDigits_eq_cons (number / 10)
      rwa [written] at front ⊢

private theorem digitsValue_eq_ofDigitChars (digits : List Char) :
    digitsValue digits = Nat.ofDigitChars 10 digits 0 :=
  Nat.ofDigitChars_eq_foldl.symm

/-- A number is read back from its digits. -/
theorem digitsValue_toDigits (number : Nat) : digitsValue (Nat.toDigits 10 number) = number := by
  rw [digitsValue_eq_ofDigitChars, Nat.ofDigitChars_ten_toDigits]

/-- Zeros behind digits shift them. -/
theorem digitsValue_append_zeros (digits : List Char) (count : Nat) :
    digitsValue (digits ++ List.replicate count '0') = 10 ^ count * digitsValue digits := by
  rw [digitsValue_eq_ofDigitChars, digitsValue_eq_ofDigitChars, Nat.ofDigitChars_append,
    Nat.ofDigitChars_replicate_zero]

/-- Zeros in front of digits do not count. -/
theorem digitsValue_zeros_append (digits : List Char) (count : Nat) :
    digitsValue (List.replicate count '0' ++ digits) = digitsValue digits := by
  rw [digitsValue_eq_ofDigitChars, digitsValue_eq_ofDigitChars, Nat.ofDigitChars_append,
    Nat.ofDigitChars_replicate_zero, Nat.mul_zero]

/-- A word is read back from its digits. -/
theorem wordValue?_toDigits (word : number < UInt64.size) :
    wordValue? (Nat.toDigits 10 number) = some number := by
  have digits : (Nat.toDigits 10 number).all Char.isDigit := by
    simpa using isDigit_of_mem_toDigits
  simp [wordValue?, digits, digitsValue_toDigits, word, Nat.toDigits_ne_nil]

end Pagewright
