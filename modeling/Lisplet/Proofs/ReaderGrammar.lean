/-
The reader accepts its grammar, and nothing else.  A text is the form of the
grammar that it reads as, between separators; and the reader finds no form in a
text exactly when there are only separators.
-/
import Lisplet.Proofs.ReaderComplete

namespace Lisplet

theorem readLeading_of_cons {text : String} {c : Char} {tail : List Char}
    (h : skipSeparators text.toList = c :: tail) :
    readLeading text =
      (readForm (text.length + 1) maxNesting (c :: tail)).mapError (·.error text) := by
  rw [readLeading, h]
  simp only
  cases readForm (text.length + 1) maxNesting (c :: tail) <;> rfl

/-- The first form of a text, and what follows it, as the grammar says. -/
theorem readLeading_eq_ok_iff {text : String} {form : Value} {rest : List Char} :
    readLeading text = .ok (form, rest) ↔
      ∃ gap inner, text.toList = gap ++ (inner ++ rest) ∧ Separators gap (inner ++ rest) ∧
        Reads Token 0 inner form rest := by
  constructor
  · intro h
    obtain ⟨gap, hgap, hseparators⟩ := exists_separators text.toList
    rcases hskipped : skipSeparators text.toList with _ | ⟨c, tail⟩
    · rw [readLeading, hskipped] at h
      cases h
    · rw [hskipped] at hgap hseparators
      rw [readLeading_of_cons hskipped] at h
      rcases hread : readForm (text.length + 1) maxNesting (c :: tail) with stuck | read
      · rw [hread] at h
        cases h
      · rw [hread] at h
        cases h
        obtain ⟨gap', inner, htail, hgap', hinner⟩ :=
          readForm_sound (Nat.zero_add maxNesting) _ _ _ hread
        rw [htail] at hgap hseparators
        refine ⟨gap ++ gap', inner, ?_, hseparators.append hgap', hinner⟩
        rw [hgap, List.append_assoc]
  · rintro ⟨gap, inner, htext, hgap, hinner⟩
    have hlength : inner.length ≤ text.length + 1 := by
      have htotal := congrArg List.length htext
      rw [String.length_toList, List.length_append, List.length_append] at htotal
      omega
    have hread := hinner.complete (text.length + 1) maxNesting (Nat.zero_add _) hlength
    have hskip := hgap.skip
    rw [← htext, skipSeparators_of_atForm (hinner.atForm rest)] at hskip
    obtain ⟨c, tail, rfl, -⟩ := hinner.head
    rw [List.cons_append] at hskip hread
    rw [readLeading_of_cons hskip, hread]
    rfl

/-- No fault inside a text says that there is no form. -/
theorem ReadFault.kind_ne_noForm (fault : ReadFault) : fault.kind ≠ .noForm := by
  cases fault <;> decide

theorem readLeading_noForm_iff {text : String} :
    (∃ cause, readLeading text = .error cause ∧ cause.kind = .noForm) ↔
      Separators text.toList [] := by
  rw [← skipSeparators_eq_nil_iff]
  constructor
  · rintro ⟨cause, h, hkind⟩
    rcases hskipped : skipSeparators text.toList with _ | ⟨c, tail⟩
    · rfl
    · rw [readLeading_of_cons hskipped] at h
      rcases hread : readForm (text.length + 1) maxNesting (c :: tail) with stuck | read
      · rw [hread] at h
        cases h
        exact (stuck.fault.kind_ne_noForm hkind).elim
      · rw [hread] at h
        cases h
  · intro hskipped
    refine ⟨.ofMessage .noForm "No form to read", ?_, rfl⟩
    rw [readLeading, hskipped]

/-- After the first form of a text only separators may follow. -/
theorem readWhole_of_leading {text : String} {form : Value} {rest : List Char}
    (h : readLeading text = .ok (form, rest)) :
    Separators rest [] ∧ readWhole text = .ok form ∨
      ¬ Separators rest [] ∧
        ∃ cause, readWhole text = .error cause ∧ cause.kind = .trailingContent := by
  rw [← skipSeparators_eq_nil_iff]
  rcases hskipped : skipSeparators rest with _ | ⟨c, tail⟩
  · refine .inl ⟨rfl, ?_⟩
    rw [readWhole, h]
    simp only [bind, Except.bind, hskipped]
  · refine .inr ⟨List.cons_ne_nil c tail, ?_⟩
    rw [readWhole, h]
    simp only [bind, Except.bind, hskipped]
    exact ⟨_, rfl, rfl⟩

theorem readWhole_of_leading_error {text : String} {cause : ReadError}
    (h : readLeading text = .error cause) : readWhole text = .error cause := by
  rw [readWhole, h]
  rfl

/-- The reader gives a form exactly when the text is separators, the form as the
grammar says, and separators. -/
theorem readWhole_eq_ok_iff {text : String} {form : Value} :
    readWhole text = .ok form ↔ IsTextOf Token text.toList form := by
  constructor
  · intro h
    rcases hleading : readLeading text with cause | ⟨first, after⟩
    · rw [readWhole_of_leading_error hleading] at h
      cases h
    · obtain ⟨hafter, hwhole⟩ | ⟨-, cause, hwhole, -⟩ := readWhole_of_leading hleading
      · rw [hwhole] at h
        cases h
        obtain ⟨before, inner, htext, hbefore, hinner⟩ := readLeading_eq_ok_iff.mp hleading
        exact ⟨before, inner, after, htext, hbefore, hinner, hafter⟩
      · rw [hwhole] at h
        cases h
  · rintro ⟨before, inner, after, htext, hbefore, hinner, hafter⟩
    have hleading := readLeading_eq_ok_iff.mpr ⟨before, inner, htext, hbefore, hinner⟩
    obtain ⟨-, hwhole⟩ | ⟨hnot, -⟩ := readWhole_of_leading hleading
    · exact hwhole
    · exact (hnot hafter).elim

/-- What follows the first form makes no text one without a form. -/
theorem readWhole_noForm_iff {text : String} :
    (∃ cause, readWhole text = .error cause ∧ cause.kind = .noForm) ↔
      Separators text.toList [] := by
  rw [← readLeading_noForm_iff]
  constructor
  · rintro ⟨cause, h, hkind⟩
    rcases hleading : readLeading text with cause' | ⟨form, after⟩
    · rw [readWhole_of_leading_error hleading] at h
      cases h
      exact ⟨cause, rfl, hkind⟩
    · obtain ⟨-, hwhole⟩ | ⟨-, cause', hwhole, hkind'⟩ := readWhole_of_leading hleading
      · rw [hwhole] at h
        cases h
      · rw [hwhole] at h
        cases h
        rw [hkind'] at hkind
        cases hkind
  · rintro ⟨cause, h, hkind⟩
    exact ⟨cause, readWhole_of_leading_error h, hkind⟩

/-- The reader takes a text for a form exactly when the text is separators, the
form as the grammar says, and separators; and it finds no form exactly in the
texts that are separators only. -/
theorem readWhole_accepts_grammar :
    (∀ text form, readWhole text = .ok form ↔ IsTextOf Token text.toList form) ∧
    ∀ text, (∃ cause, readWhole text = .error cause ∧ cause.kind = .noForm) ↔
      Separators text.toList [] := by
  constructor
  · intro text form
    exact readWhole_eq_ok_iff
  · intro text
    exact readWhole_noForm_iff

/-- What tokens would denote if an integer beyond the range of numbers were a symbol. -/
def LooseToken (chars : List Char) (form : Value) : Prop :=
  Token chars form ∨
    form = .symbol (.ofList chars) ∧ chars ∉ words ∧ ∀ word : Int64, ¬ IntegerText chars word.toInt

/-- The first integer beyond the range is no symbol to the reader, which refuses it. -/
theorem readWhole_refuses_large_integer :
    IsTextOf LooseToken "9223372036854775808".toList (.symbol "9223372036854775808") ∧
      ¬ readWhole "9223372036854775808" = .ok (.symbol "9223372036854775808") := by
  constructor
  · refine ⟨[], "9223372036854775808".toList, [], by simp, .nil, ?_, .nil⟩
    have hvalue : LooseToken ('9' :: "223372036854775808".toList)
        (.symbol "9223372036854775808") := by
      refine .inr ⟨rfl, by decide, fun word hinteger => ?_⟩
      have hdecimal := ofDecimal?_eq_some_iff.mpr hinteger
      have hbound := word.toInt_lt
      have hlarge : ofDecimal? ('9' :: "223372036854775808".toList) = some 9223372036854775808 := by
        decide
      rw [hlarge, Option.some.injEq] at hdecimal
      omega
    have hchars : ∀ d ∈ '9' :: "223372036854775808".toList, isTokenChar d = true :=
      List.all_eq_true.mp (by decide)
    exact .token (by decide) (by decide) hchars (by simp) hvalue
  · have hskipped : skipSeparators "9223372036854775808".toList =
        '9' :: "223372036854775808".toList := by decide
    have hread : readForm 20 maxNesting ('9' :: "223372036854775808".toList) =
        .error ⟨.integerOutOfRange, '9' :: "223372036854775808".toList⟩ := rfl
    have hleading := readLeading_of_cons hskipped
    rw [show "9223372036854775808".length + 1 = 20 by decide, hread] at hleading
    rw [readWhole_of_leading_error hleading]
    exact fun h => by cases h

end Lisplet
