/-
Tokens.  The reader's decimal numbers are the grammar's rows of digits, and a
token is read as what it denotes.
-/
import Lisplet.Proofs.Grammar

namespace Lisplet

/-- Every decimal digit is the sign of a number below ten. -/
theorem exists_digitChar {c : Char} (hc : c.isDigit = true) :
    ∃ digit, digit < 10 ∧ c = digit.digitChar := by
  have hrange : 48 ≤ c.toNat ∧ c.toNat ≤ 57 := by
    simpa [Char.isDigit, UInt32.le_iff_toNat_le] using hc
  refine ⟨c.toNat - 48, by omega, ?_⟩
  rw [← Char.toNat_inj, Nat.toNat_digitChar_of_lt_ten (by omega)]
  omega

/-- More digits after a row of digits go on where the row ends. -/
theorem Digits.append {digits more : List Char} {n : Nat} (h : Digits digits n)
    (hmore : more.all Char.isDigit = true) :
    Digits (digits ++ more) (Nat.ofDigitChars 10 more n) := by
  induction more generalizing digits n with
  | nil => simpa using h
  | cons c more ih =>
      rw [List.all_cons, Bool.and_eq_true] at hmore
      obtain ⟨digit, hdigit, rfl⟩ := exists_digitChar hmore.1
      rw [Nat.ofDigitChars_cons_digitChar_of_lt_ten hdigit, List.append_cons]
      exact ih (.snoc h hdigit) hmore.2

theorem Digits.all_isDigit {digits : List Char} {n : Nat} (h : Digits digits n) :
    digits.all Char.isDigit = true := by
  induction h with
  | one hdigit => simpa [Nat.isDigit_digitChar] using hdigit
  | snoc hdigits hdigit ih => simpa [Nat.isDigit_digitChar, ih] using hdigit

theorem ofDigits?_eq_some_iff {chars : List Char} {n : Nat} :
    ofDigits? chars = some n ↔ Digits chars n := by
  constructor
  · intro h
    rw [ofDigits?] at h
    by_cases hdigits : chars ≠ [] ∧ chars.all Char.isDigit
    · rw [if_pos hdigits] at h
      cases h
      obtain ⟨hne, hall⟩ := hdigits
      rcases chars with _ | ⟨c, chars⟩
      · exact (hne rfl).elim
      · rw [List.all_cons, Bool.and_eq_true] at hall
        obtain ⟨digit, hdigit, rfl⟩ := exists_digitChar hall.1
        rw [Nat.ofDigitChars_cons_digitChar_of_lt_ten hdigit]
        simpa using (Digits.one hdigit).append hall.2
    · rw [if_neg hdigits] at h
      cases h
  · intro h
    have hne : chars ≠ [] := by cases h <;> simp
    rw [ofDigits?, if_pos ⟨hne, h.all_isDigit⟩]
    clear hne
    induction h with
    | one hdigit => simp [Nat.ofDigitChars_cons_digitChar_of_lt_ten hdigit]
    | snoc hdigits hdigit ih =>
        rw [Option.some.injEq] at ih ⊢
        rw [Nat.ofDigitChars_append, ih, Nat.ofDigitChars_cons_digitChar_of_lt_ten hdigit,
          Nat.ofDigitChars_nil]

theorem Digits.head_ne_minus {digits : List Char} {n : Nat} (h : Digits digits n) :
    ∀ rest, digits ≠ '-' :: rest := by
  rintro rest rfl
  have hall := h.all_isDigit
  rw [List.all_cons] at hall
  exact absurd hall (by simp)

/-- The integers that the reader knows are those of the grammar. -/
theorem ofDecimal?_eq_some_iff {chars : List Char} {n : Int} :
    ofDecimal? chars = some n ↔ IntegerText chars n := by
  constructor
  · intro h
    rw [ofDecimal?.eq_def] at h
    split at h
    · next digits =>
        rcases hdigits : ofDigits? digits with _ | n
        · rw [hdigits] at h
          cases h
        · rw [hdigits] at h
          cases h
          exact .minus (ofDigits?_eq_some_iff.mp hdigits)
    · rw [Option.map_eq_some_iff] at h
      obtain ⟨n, hdigits, rfl⟩ := h
      exact .plain (ofDigits?_eq_some_iff.mp hdigits)
  · intro h
    cases h with
    | plain hdigits =>
        rw [ofDecimal?, ofDigits?_eq_some_iff.mpr hdigits]
        · rfl
        · exact hdigits.head_ne_minus
    | minus hdigits =>
        rw [ofDecimal?, ofDigits?_eq_some_iff.mpr hdigits]
        rfl

/-- A token that is no integer is not taken for one. -/
theorem ofDecimal?_eq_none_iff {chars : List Char} :
    ofDecimal? chars = none ↔ ∀ n, ¬ IntegerText chars n := by
  rw [Option.eq_none_iff_forall_ne_some]
  exact forall_congr' fun n => not_congr ofDecimal?_eq_some_iff

theorem IntegerText.not_mem_words {chars : List Char} {n : Int} (h : IntegerText chars n) :
    chars ∉ words := by
  rw [← ofDecimal?_eq_some_iff] at h
  intro hword
  simp only [words, List.mem_cons, List.not_mem_nil, or_false] at hword
  rcases hword with rfl | rfl | rfl <;> cases h

theorem ofToken?_of_not_mem_words {chars : List Char}
    (h : chars ∉ words) :
    ofToken? chars =
      match ofDecimal? chars with
      | some n => (int64? n).map .number
      | none => some (.symbol (.ofList chars)) := by
  simp only [words, List.mem_cons, List.not_mem_nil, or_false, not_or] at h
  obtain ⟨hnil, htrue, hfalse⟩ := h
  exact (if_neg hnil).trans ((if_neg htrue).trans (if_neg hfalse))

/-- A token is read as what it denotes. -/
theorem ofToken?_eq_some_iff {chars : List Char} {value : Value} :
    ofToken? chars = some value ↔ Token chars value := by
  constructor
  · intro h
    by_cases hword : chars ∈ words
    · simp only [words, List.mem_cons, List.not_mem_nil, or_false] at hword
      rcases hword with rfl | rfl | rfl
      · cases h
        exact .nil
      · cases h
        exact .true
      · cases h
        exact .false
    · rw [ofToken?_of_not_mem_words hword] at h
      rcases hinteger : ofDecimal? chars with _ | n
      · rw [hinteger] at h
        cases h
        exact .symbol hword (ofDecimal?_eq_none_iff.mp hinteger)
      · rw [hinteger] at h
        obtain ⟨word, hword, rfl⟩ := Option.map_eq_some_iff.mp h
        refine .number ?_
        rw [toInt_of_int64? hword]
        exact ofDecimal?_eq_some_iff.mp hinteger
  · intro h
    cases h with
    | nil | true | false => rfl
    | number hinteger =>
        rw [ofToken?_of_not_mem_words hinteger.not_mem_words,
          ofDecimal?_eq_some_iff.mpr hinteger]
        simp only [int64?_toInt, Option.map_some]
    | symbol hword hinteger =>
        rw [ofToken?_of_not_mem_words hword, ofDecimal?_eq_none_iff.mpr hinteger]

end Lisplet
