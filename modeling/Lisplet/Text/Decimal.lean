/-
Decimal integers: an optional minus sign and at least one digit.  Leading zeros
are read, but never written.
-/

namespace Lisplet

def decimal : Int → List Char
  | .ofNat n => Nat.toDigits 10 n
  | .negSucc n => '-' :: Nat.toDigits 10 (n + 1)

/-- The natural number that a non-empty row of digits denotes. -/
def ofDigits? (chars : List Char) : Option Nat :=
  if chars ≠ [] ∧ chars.all Char.isDigit then some (Nat.ofDigitChars 10 chars 0) else none

def ofDecimal? : List Char → Option Int
  | '-' :: digits => (ofDigits? digits).map fun n => -(n : Int)
  | digits => (ofDigits? digits).map Int.ofNat

/-- The integer as a signed 64-bit number, if it is in range. -/
def int64? (n : Int) : Option Int64 :=
  if Int64.minValue.toInt ≤ n ∧ n ≤ Int64.maxValue.toInt then some (.ofInt n) else none

/-- The digits of a natural number denote it. -/
theorem ofDigits?_toDigits (n : Nat) : ofDigits? (Nat.toDigits 10 n) = some n := by
  have hdigits : (Nat.toDigits 10 n).all Char.isDigit = true :=
    List.all_eq_true.mpr fun c hc => Nat.isDigit_of_mem_toDigits (by decide) (by decide) hc
  rw [ofDigits?, if_pos ⟨Nat.toDigits_ne_nil, hdigits⟩, Nat.ofDigitChars_ten_toDigits]

theorem ofDecimal?_decimal (n : Int) : ofDecimal? (decimal n) = some n := by
  cases n with
  | ofNat n =>
      have hhead : ∀ digits, Nat.toDigits 10 n ≠ '-' :: digits := by
        intro digits heq
        have hmem : '-' ∈ Nat.toDigits 10 n := by simp [heq]
        have := Nat.isDigit_of_mem_toDigits (by decide) (by decide) hmem
        exact absurd this (by decide)
      rw [decimal, ofDecimal?, ofDigits?_toDigits]
      · rfl
      · exact hhead
  | negSucc n =>
      rw [decimal, ofDecimal?, ofDigits?_toDigits]
      rfl

/-- A number that has been taken into range denotes the integer it was taken from. -/
theorem toInt_of_int64? {n : Int} {word : Int64} (h : int64? n = some word) :
    word.toInt = n := by
  rw [int64?] at h
  split at h
  · next hrange =>
      cases h
      rw [Int64.toInt_minValue, Int64.toInt_maxValue] at hrange
      exact Int64.toInt_ofInt_of_le hrange.1 (by omega)
  · cases h

/-- An integer has no word exactly when it is beyond the range. -/
theorem int64?_eq_none_iff {n : Int} :
    int64? n = none ↔ n < Int64.minValue.toInt ∨ Int64.maxValue.toInt < n := by
  rw [int64?, ite_eq_right_iff]
  simp only [reduceCtorEq, imp_false]
  omega

theorem int64?_toInt (word : Int64) : int64? word.toInt = some word := by
  have hlow := word.le_toInt
  have hhigh := word.toInt_lt
  have hrange : Int64.minValue.toInt ≤ word.toInt ∧ word.toInt ≤ Int64.maxValue.toInt := by
    rw [Int64.toInt_minValue, Int64.toInt_maxValue]
    omega
  rw [int64?, if_pos hrange, Int64.ofInt_toInt]

end Lisplet
