/-
The first form of a text.  Whether a text is read as a whole or for its first form
only, the form and the errors are the same; they differ where more than separators
follows the form.  And a form that has been read stays what it is when more lines
follow the text, whatever is in them.
-/
import Lisplet.Proofs.Excerpts
import Lisplet.Proofs.MoreText

namespace Lisplet

/-- A form with separators around it, before what is neither separator nor nothing. -/
structure FormThenMore (form : Value) (before rest : List Char) : Prop where
  form : ∃ gap inner after, before = gap ++ (inner ++ after) ∧
    Separators gap (inner ++ (after ++ rest)) ∧ Reads Token 0 inner form (after ++ rest) ∧
    Separators after rest
  more : ∃ c tail, rest = c :: tail ∧ NoSeparator c

def trailingError (text : String) (before rest : List Char) : ReadError :=
  .atOffset .trailingContent
    ("Unexpected remaining input: '" ++ trimEnd (.ofList rest) ++ "'") text (byteLength before)

/-- An error at the end of a beginning finds what comes next. -/
theorem found_atOffset {kind : ReadErrorKind} {message text : String} {before rest : List Char}
    (h : text.toList = before ++ rest) :
    (ReadError.atOffset kind message text (byteLength before)).found = rest.head? := by
  have hsplit := splitAtByte?_append 0 before rest
  rw [← h] at hsplit
  rw [ReadError.atOffset, excerptAround_found, hsplit]
  rfl

theorem readFirst_of_leading {text : String} {form : Value} {rest : List Char}
    (h : readLeading text = .ok (form, rest)) : readFirst text = .ok form := by
  rw [readFirst, h]
  rfl

theorem readFirst_eq_ok_iff {text : String} {form : Value} :
    readFirst text = .ok form ↔ ∃ rest, readLeading text = .ok (form, rest) := by
  constructor
  · intro h
    rcases hleading : readLeading text with cause | ⟨first, rest⟩
    · rw [readFirst, hleading] at h
      cases h
    · rw [readFirst_of_leading hleading] at h
      cases h
      exact ⟨rest, rfl⟩
  · rintro ⟨rest, h⟩
    exact readFirst_of_leading h

theorem readFirst_eq_error_iff {text : String} {cause : ReadError} :
    readFirst text = .error cause ↔ readLeading text = .error cause := by
  rw [readFirst]
  rcases readLeading text with cause' | read
  · simp [Except.map]
  · simp [Except.map]

/-- What follows the first form and is no separator is the error. -/
theorem FormThenMore.readWhole {text : String} {form : Value} {before rest : List Char}
    (h : FormThenMore form before rest) (hsplit : text.toList = before ++ rest) :
    Lisplet.readWhole text = .error (trailingError text before rest) := by
  obtain ⟨⟨gap, inner, after, rfl, hgap, hinner, hafter⟩, c, tail, rfl, hc⟩ := h
  have htext : text.toList = gap ++ (inner ++ (after ++ c :: tail)) := by
    rw [hsplit]
    simp
  have hleading := readLeading_eq_ok_iff.mpr ⟨gap, inner, htext, hgap, hinner⟩
  have hskip := hafter.skip.trans (skipSeparators_of_atForm (atForm_cons.mpr hc))
  rw [Lisplet.readWhole, hleading]
  simp only [bind, Except.bind, hskip]
  rw [trailingError, offsetOf_append hsplit]

theorem formThenMore_of_leading {text : String} {form : Value} {rest : List Char}
    (h : readLeading text = .ok (form, rest)) (hrest : ¬ Separators rest []) :
    ∃ before more, text.toList = before ++ more ∧ FormThenMore form before more := by
  obtain ⟨gap, inner, htext, hgap, hinner⟩ := readLeading_eq_ok_iff.mp h
  obtain ⟨after, hafter, hseparators⟩ := exists_separators rest
  have hatForm := (atForm_skipped rest).1
  rw [← skipSeparators_eq_nil_iff] at hrest
  obtain ⟨c, tail, hskip⟩ := List.exists_cons_of_ne_nil hrest
  rw [hskip] at hafter hseparators hatForm
  subst hafter
  refine ⟨gap ++ (inner ++ after), c :: tail, ?_,
    ⟨gap, inner, after, rfl, hgap, hinner, hseparators⟩, c, tail, rfl, atForm_cons.mp hatForm⟩
  rw [htext]
  simp

/-- A form that has been read stays when a line feed and more text follow. -/
theorem readLeading_followed {text : String} {form : Value} {rest : List Char}
    (h : readLeading text = .ok (form, rest)) (more : String) :
    readLeading (text ++ "\n" ++ more) = .ok (form, rest ++ '\n' :: more.toList) := by
  obtain ⟨gap, inner, htext, hgap, hinner⟩ := readLeading_eq_ok_iff.mp h
  have hnext := beginsLike_newline rest more.toList
  refine readLeading_eq_ok_iff.mpr ⟨gap, inner, ?_, ?_, hinner.followed hnext⟩
  · simp [String.toList_append, htext]
  · exact hgap.followed (hnext.append_left inner)

/-- Reading a text as a whole and reading its first form give the same form, or fail
with the same error, unless the first form is followed by more; then the error of the
whole is at what follows.  The form of a whole text is also the first form of every
text that goes on with more lines. -/
theorem readFirst_agrees_with_readWhole (text : String) :
    (∀ form, readWhole text = .ok form → readFirst text = .ok form) ∧
    (∀ cause, readFirst text = .error cause → readWhole text = .error cause) ∧
    (∀ form cause, readFirst text = .ok form → readWhole text = .error cause →
      ∃ before rest, text.toList = before ++ rest ∧ FormThenMore form before rest ∧
        cause = trailingError text before rest ∧ cause.found = rest.head?) ∧
    ∀ form, readWhole text = .ok form → ∀ more, readFirst (text ++ "\n" ++ more) = .ok form := by
  have hleading : ∀ form, readWhole text = .ok form →
      ∃ rest, readLeading text = .ok (form, rest) := by
    intro form h
    obtain ⟨before, inner, after, htext, hbefore, hinner, -⟩ := readWhole_eq_ok_iff.mp h
    exact ⟨after, readLeading_eq_ok_iff.mpr ⟨before, inner, htext, hbefore, hinner⟩⟩
  refine ⟨fun form h => ?_, fun cause h => ?_, fun form cause hfirst hwhole => ?_,
    fun form h more => ?_⟩
  · exact readFirst_eq_ok_iff.mpr (hleading form h)
  · exact readWhole_of_leading_error (readFirst_eq_error_iff.mp h)
  · obtain ⟨rest, hread⟩ := readFirst_eq_ok_iff.mp hfirst
    obtain ⟨-, hok⟩ | ⟨hrest, -⟩ := readWhole_of_leading hread
    · rw [hok] at hwhole
      cases hwhole
    · obtain ⟨before, more, hsplit, hform⟩ := formThenMore_of_leading hread hrest
      rw [hform.readWhole hsplit] at hwhole
      cases hwhole
      exact ⟨before, more, hsplit, hform, rfl, found_atOffset hsplit⟩
  · obtain ⟨rest, hread⟩ := hleading form h
    exact readFirst_of_leading (readLeading_followed hread more)

/-- A list with a closing bracket in a comment, and a quote in another at the end. -/
def commentedList : String := "(a ; ]\n) ; \""

/-- The list is read with or without another line after it; a bracket on that line is
an error of the whole.  Without its own closing bracket it is no form either way. -/
theorem readFirst_agrees_with_readWhole_commentedList :
    readWhole commentedList = .ok (.list [.symbol "a"]) ∧
      readFirst (commentedList ++ "\n" ++ "]") = .ok (.list [.symbol "a"]) ∧
      (∃ before rest, FormThenMore (.list [.symbol "a"]) before rest ∧ rest.head? = some ']' ∧
        readWhole (commentedList ++ "\n" ++ "]") =
          .error (trailingError (commentedList ++ "\n" ++ "]") before rest)) ∧
      ∃ cause, readFirst "(a" = .error cause ∧ readWhole "(a" = .error cause := by
  have hwhole : readWhole commentedList = .ok (.list [.symbol "a"]) := rfl
  obtain ⟨-, -, -, hlonger⟩ := readFirst_agrees_with_readWhole commentedList
  have hfirst := hlonger _ hwhole "]"
  refine ⟨hwhole, hfirst, ?_, ?_⟩
  · obtain ⟨cause, hcause, hfound⟩ : ∃ cause,
        readWhole (commentedList ++ "\n" ++ "]") = .error cause ∧ cause.found = some ']' :=
      ⟨_, rfl, rfl⟩
    obtain ⟨before, rest, -, hform, rfl, hhead⟩ :=
      (readFirst_agrees_with_readWhole _).2.2.1 _ _ hfirst hcause
    exact ⟨before, rest, hform, hhead.symm.trans hfound, hcause⟩
  · obtain ⟨cause, hcause⟩ : ∃ cause, readFirst "(a" = .error cause := ⟨_, rfl⟩
    exact ⟨cause, hcause, (readFirst_agrees_with_readWhole "(a").2.1 cause hcause⟩

end Lisplet
