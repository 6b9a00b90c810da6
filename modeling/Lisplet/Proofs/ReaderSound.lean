/-
What the reader accepts is in the grammar.  The text that a form has been read
from stands between the separators skipped before it and what is left after it.
-/
import Lisplet.Proofs.Lexical
import Lisplet.Proofs.Tokens
import Mathlib.Data.List.TakeWhile

namespace Lisplet

theorem Separators.append {text more next : List Char} (h : Separators text (more ++ next))
    (hmore : Separators more next) : Separators (text ++ more) next := by
  generalize hnext : more ++ next = following at h
  induction h with
  | nil => exact hmore
  | blank hc htext ih => exact .blank hc (ih hnext)
  | comment hbody hend htext ih =>
      subst hnext
      rw [List.cons_append, List.append_assoc]
      exact .comment hbody (by rwa [List.append_assoc]) (ih rfl)

def openers : List Char := ['(', '[', '\x7b', '\'', '\x60', '~', '@']

/-- At such a character the reader looks for more forms; elsewhere it reads an atom. -/
theorem readForm_of_not_opener {steps levels : Nat} {chars : List Char} (hform : AtForm chars)
    (h : ∀ c, chars.head? = some c → c ∉ openers) :
    readForm steps (levels + 1) chars = readAtom chars := by
  rw [readForm, skipSeparators_of_atForm hform]
  split
  · exact absurd (h _ rfl) (by decide)
  · exact absurd (h _ rfl) (by decide)
  · exact absurd (h _ rfl) (by decide)
  · exact absurd (h _ rfl) (by decide)
  · exact absurd (h _ rfl) (by decide)
  · exact absurd (h _ rfl) (by decide)
  · exact absurd (h _ rfl) (by decide)
  · exact absurd (h _ rfl) (by decide)
  · rfl

theorem delimiters_eq :
    delimiters = ['[', ']', '\x7b', '\x7d', '(', ')', '\'', '"', '\x60', ',', ';'] := by
  decide

theorem isTokenChar_iff {c : Char} :
    isTokenChar c = true ↔ isBlank c = false ∧ c ∉ delimiters := by
  simp [isTokenChar]

/-- What is no separator, no opener and no closer, and no quote, is in a token. -/
theorem isTokenChar_of_atForm {c : Char} {chars : List Char} (hform : AtForm (c :: chars))
    (hopener : c ∉ openers) (hcloser : ¬ (c = ')' ∨ c = ']' ∨ c = '\x7d')) (hquote : c ≠ '"') :
    isTokenChar c = true := by
  obtain ⟨hblank, hcomma, hcomment⟩ := atForm_cons.mp hform
  refine isTokenChar_iff.mpr ⟨hblank, fun hmem => ?_⟩
  rw [delimiters_eq] at hmem
  simp only [openers, List.mem_cons, List.not_mem_nil, or_false, not_or] at hmem hopener hcloser
  grind

theorem readToken_sound {chars rest : List Char} {value : Value}
    (h : readToken chars = .ok (value, rest)) :
    chars = chars.takeWhile isTokenChar ++ rest ∧ Token (chars.takeWhile isTokenChar) value ∧
      ∀ c, rest.head? = some c → isTokenChar c = false := by
  rw [readToken] at h
  split at h
  · next value hvalue =>
      cases h
      refine ⟨List.takeWhile_append_dropWhile.symm, ofToken?_eq_some_iff.mp hvalue, ?_⟩
      intro c hc
      simpa [hc] using List.head?_dropWhile_not isTokenChar chars
  · cases h

/-- An atom is in the grammar at every level. -/
theorem readAtom_sound {level : Nat} {chars rest : List Char} {value : Value}
    (hlevel : level < maxNesting) (hform : AtForm chars)
    (hopener : ∀ c, chars.head? = some c → c ∉ openers)
    (h : readAtom chars = .ok (value, rest)) :
    ∃ text, chars = text ++ rest ∧ Reads Token level text value rest := by
  rw [readAtom.eq_def] at h
  split at h
  · cases h
  · obtain ⟨body, inner, hbody, hinner, rfl⟩ := readString_eq_ok_iff.mp h
    refine ⟨'"' :: (body ++ ['"']), ?_, ?_⟩
    · rw [hbody]
      simp
    · rw [String.empty_append]
      exact .string hlevel hinner
  · next c tail hquote =>
      by_cases hcloser : c = ')' ∨ c = ']' ∨ c = '\x7d'
      · rw [if_pos hcloser] at h
        cases h
      · by_cases hcaret : c = '^'
        · rw [if_neg hcloser, if_pos hcaret] at h
          cases h
        · rw [if_neg hcloser, if_neg hcaret] at h
          obtain ⟨hsplit, hvalue, hmaximal⟩ := readToken_sound h
          have hc : isTokenChar c = true := by
            refine isTokenChar_of_atForm hform (hopener c rfl) hcloser ?_
            rintro rfl
            exact hquote rfl
          refine ⟨_, hsplit, ?_⟩
          rw [List.takeWhile_cons_of_pos hc] at hvalue ⊢
          refine .token hlevel ?_ ?_ hmaximal hvalue
          · have hopener := hopener c rfl
            simp only [openers, notInitial, List.mem_cons, List.not_mem_nil, or_false,
              not_or] at hopener ⊢
            exact ⟨hopener.2.2.2.2.2.1, hopener.2.2.2.2.2.2, hcaret⟩
          · intro d hd
            rcases List.mem_cons.mp hd with rfl | hd
            · exact hc
            · exact List.mem_takeWhile_imp hd

/-- What is read as a form of the level is in the grammar, with separators before it. -/
def ReadsForms (level : Nat) (form : List Char → Reading Value) : Prop :=
  ∀ chars value rest, form chars = .ok (value, rest) →
    ∃ gap text, chars = gap ++ (text ++ rest) ∧ Separators gap (text ++ rest) ∧
      Reads Token level text value rest

theorem ReadsForms.readItems {level : Nat} {form : List Char → Reading Value}
    (hform : ReadsForms level form) {closer : Char} {steps : Nat} {before items : List Value}
    {chars rest : List Char} (h : readItems form closer steps before chars = .ok (items, rest)) :
    ∃ body more, items = before.reverse ++ more ∧ chars = body ++ closer :: rest ∧
      ReadsItems Token level body more (closer :: rest) := by
  induction steps generalizing before chars with
  | zero => cases h
  | succ steps ih =>
      obtain ⟨gap, hgap, hseparators⟩ := exists_separators chars
      rw [Lisplet.readItems] at h
      rcases hskipped : skipSeparators chars with _ | ⟨c, tail⟩
      · rw [hskipped] at h
        cases h
      · rw [hskipped] at h hgap hseparators
        by_cases hcloser : c = closer
        · subst hcloser
          simp only [↓reduceIte] at h
          cases h
          exact ⟨gap, [], by simp, hgap, .nil hseparators⟩
        · simp only [if_neg hcloser] at h
          rcases hitem : form (c :: tail) with stuck | ⟨item, after⟩
          · rw [hitem] at h
            cases h
          · rw [hitem] at h
            obtain ⟨body, more, rfl, rfl, hmore⟩ := ih h
            obtain ⟨gap', text, htail, hgap', htext⟩ := hform _ _ _ hitem
            rw [htail] at hgap hseparators
            -- The reader skips separators once for the sequence and once for the item.
            refine ⟨gap ++ gap' ++ (text ++ body), item :: more, ?_, ?_, ?_⟩
            · simp
            · rw [hgap]
              simp
            · exact .cons (hseparators.append hgap') htext hmore

theorem reading_eq_ok {α β : Type} {make : α → β} {read : Reading α} {value : β}
    {rest : List Char} (h : reading make read = .ok (value, rest)) :
    ∃ inner, read = .ok (inner, rest) ∧ value = make inner := by
  rcases read with stuck | ⟨inner, after⟩
  · cases h
  · cases h
    exact ⟨inner, rfl, rfl⟩

theorem pairedMap_eq_ok {opening rest : List Char} {read : Reading (List Value)} {value : Value}
    (h : pairedMap opening read = .ok (value, rest)) :
    ∃ entries, read = .ok (entries, rest) ∧ entries.length % 2 = 0 ∧ value = .map entries := by
  rcases read with stuck | ⟨entries, after⟩
  · cases h
  · rw [pairedMap] at h
    by_cases heven : entries.length % 2 = 0
    · rw [if_pos heven] at h
      cases h
      exact ⟨entries, rfl, heven, rfl⟩
    · rw [if_neg heven] at h
      cases h

/-- A sequence is read between its brackets. -/
theorem ReadsForms.bracketed {level : Nat} {form : List Char → Reading Value}
    (hform : ReadsForms (level + 1) form) (hlevel : level < maxNesting) {opener closer : Char}
    {steps : Nat} {items : List Value} {value : Value} {chars rest : List Char}
    (h : Lisplet.readItems form closer steps [] chars = .ok (items, rest))
    (hbracket : Bracket opener closer items value) :
    ∃ text, opener :: chars = text ++ rest ∧ Reads Token level text value rest := by
  obtain ⟨body, more, rfl, rfl, hmore⟩ := hform.readItems h
  exact ⟨opener :: (body ++ [closer]), by simp, .bracketed hlevel hbracket hmore⟩

theorem ReadsForms.marked {level : Nat} {form : List Char → Reading Value}
    (hform : ReadsForms (level + 1) form) (hlevel : level < maxNesting) {mark : List Char}
    {name : String} {value : Value} {chars rest : List Char}
    (h : reading (shorthand name) (form chars) = .ok (value, rest)) (hmark : Mark mark name)
    (hprefer : mark = ['~'] → chars.head? ≠ some '@') :
    ∃ text, mark ++ chars = text ++ rest ∧ Reads Token level text value rest := by
  obtain ⟨inner, hinner, rfl⟩ := reading_eq_ok h
  obtain ⟨gap, text, rfl, hgap, htext⟩ := hform _ _ _ hinner
  refine ⟨mark ++ (gap ++ text), by simp, .marked hlevel hmark ?_ hgap htext⟩
  intro hunquote hat
  refine hprefer hunquote ?_
  rw [← List.append_assoc, List.head?_append, hat]
  rfl

/-- A text that begins in none of the ways that the reader tells apart begins with no opener. -/
theorem no_opener {chars : List Char} (hlist : ∀ rest, chars = '(' :: rest → False)
    (hvector : ∀ rest, chars = '[' :: rest → False) (hmap : ∀ rest, chars = '\x7b' :: rest → False)
    (hquote : ∀ rest, chars = '\'' :: rest → False)
    (hquasiquote : ∀ rest, chars = '\x60' :: rest → False)
    (hunquote : ∀ rest, chars = '~' :: rest → False)
    (hderef : ∀ rest, chars = '@' :: rest → False) (c : Char) (hc : chars.head? = some c) :
    c ∉ openers := by
  obtain ⟨rest, hrest⟩ := List.head?_eq_some_iff.mp hc
  simp only [openers, List.mem_cons, List.not_mem_nil, or_false]
  rintro (rfl | rfl | rfl | rfl | rfl | rfl | rfl)
  · exact hlist rest hrest
  · exact hvector rest hrest
  · exact hmap rest hrest
  · exact hquote rest hrest
  · exact hquasiquote rest hrest
  · exact hunquote rest hrest
  · exact hderef rest hrest

/-- Every form that the reader reads is in the grammar. -/
theorem readForm_sound {steps levels level : Nat} (hlevels : level + levels = maxNesting) :
    ReadsForms level (readForm steps levels) := by
  induction levels generalizing level with
  | zero =>
      intro chars value rest h
      cases h
  | succ levels ih =>
      intro chars value rest h
      have hlevel : level < maxNesting := by omega
      have hform : ReadsForms (level + 1) (readForm steps levels) := ih (by omega)
      obtain ⟨gap, hgap, hseparators⟩ := exists_separators chars
      suffices htext : ∃ text, skipSeparators chars = text ++ rest ∧
          Reads Token level text value rest by
        obtain ⟨text, htext, hreads⟩ := htext
        rw [htext] at hgap hseparators
        exact ⟨gap, text, hgap, hseparators, hreads⟩
      have hatForm := (atForm_skipped chars).1
      rw [readForm] at h
      generalize skipSeparators chars = skipped at h hatForm ⊢
      split at h
      · obtain ⟨items, hitems, rfl⟩ := reading_eq_ok h
        exact hform.bracketed hlevel hitems .list
      · obtain ⟨items, hitems, rfl⟩ := reading_eq_ok h
        exact hform.bracketed hlevel hitems .vector
      · obtain ⟨entries, hentries, heven, rfl⟩ := pairedMap_eq_ok h
        exact hform.bracketed hlevel hentries (.map heven)
      · exact hform.marked hlevel h .quote (by simp)
      · exact hform.marked hlevel h .quasiquote (by simp)
      · exact hform.marked hlevel h .spliceUnquote (by simp)
      · next rest' hsplice =>
          refine hform.marked hlevel h .unquote ?_
          intro _ hat
          obtain ⟨tail, rfl⟩ := List.head?_eq_some_iff.mp hat
          exact hsplice tail rfl
      · exact hform.marked hlevel h .deref (by simp)
      · next hlist hvector hmap hquote hquasiquote hsplice hunquote hderef =>
          exact readAtom_sound hlevel hatForm
            (no_opener hlist hvector hmap hquote hquasiquote hunquote hderef) h

end Lisplet
