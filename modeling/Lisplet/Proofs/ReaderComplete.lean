/-
What is in the grammar the reader accepts, given as many steps as the text has
characters.  A form of the grammar begins with a character that no separator
and no closing bracket is, so that the reader stops where it begins.
-/
import Lisplet.Proofs.ReaderSound

namespace Lisplet

def closers : List Char := [')', ']', '\x7d']

theorem Bracket.opener_mem {opener closer : Char} {items : List Value} {form : Value}
    (h : Bracket opener closer items form) : opener ∈ openers := by
  cases h <;> decide

theorem Bracket.closer_mem {opener closer : Char} {items : List Value} {form : Value}
    (h : Bracket opener closer items form) : closer ∈ closers := by
  cases h <;> decide

theorem noSeparator_of_opener {c : Char} (h : c ∈ openers) : NoSeparator c ∧ c ∉ closers := by
  simp only [openers, List.mem_cons, List.not_mem_nil, or_false] at h
  rcases h with rfl | rfl | rfl | rfl | rfl | rfl | rfl <;> decide

theorem noSeparator_of_closer {c : Char} (h : c ∈ closers) : NoSeparator c := by
  simp only [closers, List.mem_cons, List.not_mem_nil, or_false] at h
  rcases h with rfl | rfl | rfl <;> decide

theorem Mark.exists_opener {mark : List Char} {name : String} (h : Mark mark name) :
    ∃ c rest, mark = c :: rest ∧ c ∈ openers := by
  cases h <;> exact ⟨_, _, rfl, by decide⟩

theorem ne_of_isTokenChar {c d : Char} (h : isTokenChar c = true) (hd : d ∈ delimiters) :
    c ≠ d := by
  rintro rfl
  exact (isTokenChar_iff.mp h).2 hd

theorem noSeparator_of_isTokenChar {c : Char} (h : isTokenChar c = true) :
    NoSeparator c ∧ c ∉ closers := by
  refine ⟨⟨(isTokenChar_iff.mp h).1, ?_, ?_⟩, fun hc => ?_⟩
  · exact ne_of_isTokenChar h (by decide)
  · exact ne_of_isTokenChar h (by decide)
  · refine ne_of_isTokenChar h ?_ rfl
    simp only [closers, List.mem_cons, List.not_mem_nil, or_false] at hc
    rcases hc with rfl | rfl | rfl <;> decide

variable {token : List Char → Value → Prop}

/-- A form begins where separators end, and not with a closing bracket. -/
theorem Reads.head {level : Nat} {text next : List Char} {form : Value}
    (h : Reads token level text form next) :
    ∃ c rest, text = c :: rest ∧ NoSeparator c ∧ c ∉ closers := by
  cases h with
  | token hlevel hinitial hchars hmaximal hvalue =>
      exact ⟨_, _, rfl, noSeparator_of_isTokenChar (hchars _ List.mem_cons_self)⟩
  | string hlevel hbody => exact ⟨_, _, rfl, by decide, by decide⟩
  | bracketed hlevel hbracket hitems =>
      exact ⟨_, _, rfl, noSeparator_of_opener hbracket.opener_mem⟩
  | marked hlevel hmark hprefer hgap hform =>
      obtain ⟨c, rest, rfl, hc⟩ := hmark.exists_opener
      exact ⟨_, _, rfl, noSeparator_of_opener hc⟩

theorem Reads.atForm {level : Nat} {text next : List Char} {form : Value}
    (h : Reads token level text form next) (more : List Char) : AtForm (text ++ more) := by
  obtain ⟨c, rest, rfl, hc, -⟩ := h.head
  exact atForm_cons.mpr hc

theorem Reads.level_lt {level : Nat} {text next : List Char} {form : Value}
    (h : Reads token level text form next) : level < maxNesting := by
  cases h <;> assumption

/-- Separators before a form make no difference to the reader. -/
theorem readForm_gap {steps levels : Nat} {gap next : List Char} (h : Separators gap next)
    (hlevels : 0 < levels) :
    readForm steps levels (gap ++ next) = readForm steps levels next := by
  obtain ⟨levels, rfl⟩ : ∃ below, levels = below + 1 := ⟨levels - 1, by omega⟩
  rw [readForm, readForm, h.skip]

theorem takeWhile_token {chars next : List Char} (hchars : ∀ c ∈ chars, isTokenChar c = true)
    (hmaximal : ∀ c, next.head? = some c → isTokenChar c = false) :
    (chars ++ next).takeWhile isTokenChar = chars ∧
      (chars ++ next).dropWhile isTokenChar = next := by
  rw [List.takeWhile_append_of_pos hchars, List.dropWhile_append_of_pos hchars]
  rcases next with _ | ⟨c, next⟩
  · exact ⟨List.append_nil chars, rfl⟩
  · have hc : ¬ isTokenChar c = true := by simp [hmaximal c rfl]
    rw [List.takeWhile_cons_of_neg hc, List.dropWhile_cons_of_neg hc, List.append_nil]
    exact ⟨rfl, rfl⟩

/-- A token is read to its end, which is where the first other character is. -/
theorem readToken_complete {chars next : List Char} {value : Value}
    (hchars : ∀ c ∈ chars, isTokenChar c = true)
    (hmaximal : ∀ c, next.head? = some c → isTokenChar c = false)
    (hvalue : Token chars value) : readToken (chars ++ next) = .ok (value, next) := by
  obtain ⟨htake, hdrop⟩ := takeWhile_token hchars hmaximal
  rw [readToken, htake, hdrop, ofToken?_eq_some_iff.mpr hvalue]

theorem readAtom_token {c : Char} {chars next : List Char} {value : Value}
    (hinitial : c ∉ notInitial) (hchars : ∀ d ∈ c :: chars, isTokenChar d = true)
    (hmaximal : ∀ d, next.head? = some d → isTokenChar d = false)
    (hvalue : Token (c :: chars) value) :
    readAtom (c :: chars ++ next) = .ok (value, next) := by
  have hc := hchars c List.mem_cons_self
  have hcloser : ¬ (c = ')' ∨ c = ']' ∨ c = '\x7d') := by
    have hclosers := (noSeparator_of_isTokenChar hc).2
    simpa [closers] using hclosers
  have hcaret : c ≠ '^' := by
    rintro rfl
    exact hinitial (by decide)
  have hquote : c ≠ '"' := ne_of_isTokenChar hc (by decide)
  rw [List.cons_append, readAtom, if_neg hcloser, if_neg hcaret, ← List.cons_append]
  · exact readToken_complete hchars hmaximal hvalue
  · exact fun heq => hquote heq

theorem not_opener_of_isTokenChar {c : Char} (hinitial : c ∉ notInitial)
    (h : isTokenChar c = true) : c ∉ openers := by
  intro hc
  have hmem : c ∈ notInitial ∨ c ∈ delimiters := by
    simp only [openers, List.mem_cons, List.not_mem_nil, or_false] at hc
    rcases hc with rfl | rfl | rfl | rfl | rfl | rfl | rfl <;> decide
  rcases hmem with hmem | hmem
  · exact hinitial hmem
  · exact ne_of_isTokenChar h hmem rfl

theorem readForm_bracketed {opener closer : Char} {items : List Value} {form : Value}
    (h : Bracket opener closer items form) {steps levels : Nat} {chars rest : List Char}
    (hitems : readItems (readForm steps levels) closer steps [] chars = .ok (items, rest)) :
    readForm steps (levels + 1) (opener :: chars) = .ok (form, rest) := by
  have hopener := (noSeparator_of_opener h.opener_mem).1
  rw [readForm, skipSeparators_of_atForm (atForm_cons.mpr hopener)]
  cases h with
  | list | vector => simp only [hitems, reading]
  | map heven => simp only [hitems, pairedMap, if_pos heven]

theorem readForm_marked {mark : List Char} {name : String} (h : Mark mark name)
    {steps levels : Nat} {chars : List Char} (hprefer : mark = ['~'] → chars.head? ≠ some '@') :
    readForm steps (levels + 1) (mark ++ chars) =
      reading (shorthand name) (readForm steps levels chars) := by
  have hform : AtForm (mark ++ chars) := by
    obtain ⟨c, rest, rfl, hc⟩ := h.exists_opener
    exact atForm_cons.mpr (noSeparator_of_opener hc).1
  rw [readForm, skipSeparators_of_atForm hform]
  cases h with
  | unquote =>
      simp only [List.cons_append, List.nil_append]
      split
      · next heq => cases heq
      · next heq => cases heq
      · next heq => cases heq
      · next heq => cases heq
      · next heq => cases heq
      · next heq =>
          cases heq
          exact absurd rfl (hprefer rfl)
      · next heq =>
          cases heq
          rfl
      · next heq => cases heq
      · next hunquote _ => exact (hunquote _ rfl).elim
  | quote | quasiquote | spliceUnquote | deref => rfl

mutual

/-- Every form of the grammar is read, whatever comes next. -/
theorem Reads.complete {level : Nat} {text next : List Char} {form : Value}
    (h : Reads Token level text form next) (steps levels : Nat)
    (hlevels : level + levels = maxNesting) (hsteps : text.length ≤ steps) :
    readForm steps levels (text ++ next) = .ok (form, next) := by
  obtain ⟨levels, rfl⟩ : ∃ below, levels = below + 1 := by
    have hlevel := h.level_lt
    exact ⟨levels - 1, by omega⟩
  have hform := h.atForm next
  match h with
  | .token hlevel hinitial hchars hmaximal hvalue =>
      have hopener := not_opener_of_isTokenChar hinitial (hchars _ List.mem_cons_self)
      rw [readForm_of_not_opener hform]
      · exact readAtom_token hinitial hchars hmaximal hvalue
      · intro c hc
        cases hc
        exact hopener
  | .string hlevel hbody =>
      rw [readForm_of_not_opener hform]
      · rw [List.cons_append, List.append_assoc]
        exact readString_eq_ok_iff.mpr ⟨_, _, rfl, hbody, by rw [String.empty_append]⟩
      · intro c hc
        cases hc
        decide
  | .bracketed hlevel hbracket hitems =>
      rw [List.length_cons, List.length_append, List.length_singleton] at hsteps
      rw [List.cons_append, List.append_assoc]
      refine readForm_bracketed hbracket ?_
      exact hitems.complete rfl (by omega) (by omega) (by omega) hbracket.closer_mem
  | .marked hlevel hmark hprefer hgap hinner =>
      rw [List.length_append, List.length_append] at hsteps
      have hread := hinner.complete steps levels (by omega) (by omega)
      rw [List.append_assoc, List.append_assoc, readForm_marked hmark]
      · rw [readForm_gap hgap (by have := hinner.level_lt; omega), hread]
        rfl
      · intro hunquote
        obtain ⟨c, rest, rfl, -⟩ := hinner.head
        have hhead := hprefer hunquote
        rw [List.head?_append] at hhead ⊢
        exact hhead

theorem ReadsItems.complete {level : Nat} {text next rest : List Char} {items : List Value}
    {steps levels count : Nat} {closer : Char} {before : List Value}
    (h : ReadsItems Token level text items next) (hnext : next = closer :: rest)
    (hlevels : level + levels = maxNesting) (hsteps : text.length ≤ steps)
    (hcount : text.length < count) (hcloser : closer ∈ closers) :
    readItems (readForm steps levels) closer count before (text ++ next) =
      .ok (before.reverse ++ items, rest) := by
  obtain ⟨count, rfl⟩ : ∃ below, count = below + 1 := ⟨count - 1, by omega⟩
  match h with
  | .nil hgap =>
      have hatForm : AtForm next := by
        rw [hnext]
        exact atForm_cons.mpr (noSeparator_of_closer hcloser)
      rw [readItems, hgap.skip, skipSeparators_of_atForm hatForm, hnext]
      simp only [↓reduceIte, List.append_nil]
  | @ReadsItems.cons _ _ _ _ body _ _ _ hgap hitem hitems =>
      rw [List.length_append, List.length_append] at hsteps hcount
      have hread := hitem.complete steps levels hlevels (by omega)
      have hskip := skipSeparators_of_atForm (hitem.atForm (body ++ next))
      obtain ⟨c, tail, rfl, -, hc⟩ := hitem.head
      have hne : c ≠ closer := by
        rintro rfl
        exact hc hcloser
      rw [List.length_cons] at hsteps hcount
      rw [List.append_assoc, List.append_assoc, readItems, hgap.skip, hskip, List.cons_append]
      simp only [if_neg hne]
      rw [← List.cons_append, hread]
      simp only
      rw [hitems.complete hnext hlevels (by omega) (by omega) hcloser, List.reverse_cons,
        List.append_assoc, List.singleton_append]

end

end Lisplet
