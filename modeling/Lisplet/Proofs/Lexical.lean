/-
The reader's ways with separators, strings and tokens, against the grammar.
Each skips or takes exactly the text that the grammar says.
-/
import Lisplet.Proofs.Grammar

namespace Lisplet

/-- The character is no separator and begins none. -/
def NoSeparator (c : Char) : Prop :=
  isBlank c = false ∧ c ≠ ',' ∧ c ≠ ';'

instance (c : Char) : Decidable (NoSeparator c) :=
  inferInstanceAs (Decidable (_ ∧ _))

/-- What comes first, if anything does, is no separator. -/
def AtForm (chars : List Char) : Prop :=
  ∀ c, chars.head? = some c → NoSeparator c

theorem atForm_nil : AtForm [] := by
  intro c hc
  cases hc

theorem atForm_cons {c : Char} {chars : List Char} :
    AtForm (c :: chars) ↔ NoSeparator c := by
  constructor
  · intro h
    exact h c rfl
  · intro h d hd
    cases hd
    exact h

theorem skipSeparators_of_atForm {chars : List Char} (h : AtForm chars) :
    skipSeparators chars = chars := by
  rcases chars with _ | ⟨c, chars⟩
  · rfl
  · obtain ⟨hblank, hcomma, hcomment⟩ := atForm_cons.mp h
    have hne : (isBlank c || c == ',') = false := by simp [hblank, hcomma]
    rw [skipSeparators, hne, if_neg Bool.false_ne_true, if_neg hcomment]

theorem skipSeparators_blank {c : Char} (hc : isBlank c = true ∨ c = ',') (chars : List Char) :
    skipSeparators (c :: chars) = skipSeparators chars := by
  have heq : (isBlank c || c == ',') = true := by simpa using hc
  rw [skipSeparators, if_pos heq]

/-- A comment reaches to the end of its line. -/
theorem skipComment_append {body chars : List Char} (hbody : '\n' ∉ body)
    (hend : ∀ c, chars.head? = some c → c = '\n') :
    skipComment (body ++ chars) = skipSeparators chars := by
  induction body with
  | nil =>
      rcases chars with _ | ⟨c, chars⟩
      · rfl
      · rw [hend c rfl, List.nil_append, skipComment, if_pos rfl,
          skipSeparators_blank (.inl (by decide))]
  | cons c body ih =>
      rw [List.mem_cons, not_or] at hbody
      rw [List.cons_append, skipComment, if_neg (Ne.symm hbody.1), ih hbody.2]

theorem Separators.skip {text next : List Char} (h : Separators text next) :
    skipSeparators (text ++ next) = skipSeparators next := by
  induction h with
  | nil => rfl
  | blank hc htext ih => rw [List.cons_append, skipSeparators_blank hc, ih]
  | comment hbody hend htext ih =>
      rw [List.cons_append, List.append_assoc, skipSeparators, if_neg (by decide), if_pos rfl,
        skipComment_append hbody hend, ih]

/-- What is skipped is separators.  A comment that is begun goes on to the end
of its line, and separators follow. -/
theorem skipped_is_separators (chars : List Char) :
    (∃ text, chars = text ++ skipSeparators chars ∧ Separators text (skipSeparators chars)) ∧
    ∃ body text, chars = body ++ (text ++ skipComment chars) ∧ '\n' ∉ body ∧
      (∀ c, (text ++ skipComment chars).head? = some c → c = '\n') ∧
      Separators text (skipComment chars) := by
  induction chars with
  | nil => exact ⟨⟨[], rfl, .nil⟩, [], [], rfl, by simp, by simp [skipComment], .nil⟩
  | cons c chars ih =>
      obtain ⟨⟨text, htext, hseparators⟩, body, rest, hrest, hbody, hend, hafter⟩ := ih
      constructor
      · by_cases hblank : isBlank c = true ∨ c = ','
        · rw [skipSeparators_blank hblank]
          exact ⟨c :: text, congrArg (c :: ·) htext, .blank hblank hseparators⟩
        · rw [not_or] at hblank
          by_cases hcomment : c = ';'
          · subst hcomment
            rw [skipSeparators, if_neg (by decide), if_pos rfl]
            refine ⟨';' :: (body ++ rest), ?_, .comment hbody hend hafter⟩
            rw [List.cons_append, List.append_assoc, ← hrest]
          · rw [skipSeparators_of_atForm]
            · exact ⟨[], rfl, .nil⟩
            · exact atForm_cons.mpr ⟨by simpa using hblank.1, hblank.2, hcomment⟩
      · by_cases hnewline : c = '\n'
        · subst hnewline
          rw [skipComment, if_pos rfl]
          refine ⟨[], '\n' :: text, congrArg ('\n' :: ·) htext, by simp, ?_,
            .blank (.inl (by decide)) hseparators⟩
          intro c hc
          cases hc
          rfl
        · rw [skipComment, if_neg hnewline]
          refine ⟨c :: body, rest, congrArg (c :: ·) hrest, ?_, hend, hafter⟩
          rw [List.mem_cons, not_or]
          exact ⟨Ne.symm hnewline, hbody⟩

theorem exists_separators (chars : List Char) :
    ∃ text, chars = text ++ skipSeparators chars ∧ Separators text (skipSeparators chars) :=
  (skipped_is_separators chars).1

/-- After the separators comes a form, or nothing. -/
theorem atForm_skipped (chars : List Char) :
    AtForm (skipSeparators chars) ∧ AtForm (skipComment chars) := by
  induction chars with
  | nil => exact ⟨atForm_nil, atForm_nil⟩
  | cons c chars ih =>
      constructor
      · rw [skipSeparators]
        split
        · exact ih.1
        · split
          · exact ih.2
          · next hblank hcomment =>
              rw [atForm_cons, NoSeparator]
              simpa [hcomment] using hblank
      · rw [skipComment]
        split
        · exact ih.1
        · exact ih.2

/-- Nothing is left exactly when all of it was separators. -/
theorem skipSeparators_eq_nil_iff {chars : List Char} :
    skipSeparators chars = [] ↔ Separators chars [] := by
  constructor
  · intro hnil
    obtain ⟨text, htext, hseparators⟩ := exists_separators chars
    rw [hnil] at htext hseparators
    rw [htext, List.append_nil]
    exact hseparators
  · intro h
    have hskip := h.skip
    rwa [List.append_nil] at hskip

/-- Only these characters stand after a backslash. -/
theorem unescapeChar?_eq_some {escaped c : Char} (h : unescapeChar? escaped = some c) :
    escaped = 'n' ∧ c = '\n' ∨ escaped = '\\' ∧ c = '\\' ∨ escaped = '"' ∧ c = '"' := by
  rw [unescapeChar?.eq_def] at h
  split at h <;> cases h <;> simp

theorem push_append_ofList (text : String) (c : Char) (chars : List Char) :
    text.push c ++ String.ofList chars = text ++ String.ofList (c :: chars) := by
  rw [← String.toList_inj]
  simp

/-- The inside of a string is read to its end, and no other way. -/
theorem readString_eq_ok_iff {opening chars rest : List Char} {text : String} {value : Value} :
    readString opening text chars = .ok (value, rest) ↔
      ∃ body inner, chars = body ++ '"' :: rest ∧ StringBody body inner ∧
        value = .string (text ++ .ofList inner) := by
  constructor
  · intro h
    fun_induction readString opening text chars with
    | case1 | case3 => cases h
    | case2 text rest' =>
        cases h
        exact ⟨[], [], rfl, .nil, by simp⟩
    | case4 text escaped rest' c hescaped ih =>
        obtain ⟨body, inner, rfl, hbody, rfl⟩ := ih h
        rw [push_append_ofList]
        refine ⟨'\\' :: escaped :: body, c :: inner, rfl, ?_, rfl⟩
        obtain ⟨rfl, rfl⟩ | ⟨rfl, rfl⟩ | ⟨rfl, rfl⟩ := unescapeChar?_eq_some hescaped
        · exact .newline hbody
        · exact .backslash hbody
        · exact .quote hbody
    | case5 => cases h
    | case6 text c rest' hquote hend hbackslash ih =>
        obtain ⟨body, inner, rfl, hbody, rfl⟩ := ih h
        rw [push_append_ofList]
        refine ⟨c :: body, c :: inner, rfl, .plain ?_ ?_ hbody, rfl⟩
        · rintro rfl
          exact hquote rfl
        · rintro rfl
          cases body <;> exact hbackslash _ _ rfl rfl
  · rintro ⟨body, inner, rfl, hbody, rfl⟩
    induction hbody generalizing text with
    | nil => simp [readString]
    | plain hquote hbackslash hbody ih =>
        rw [List.cons_append, readString, ih, push_append_ofList]
        · exact fun heq => hquote heq
        · exact fun heq => (hbackslash heq).elim
        · exact fun _ _ heq => (hbackslash heq).elim
    | newline hbody ih | backslash hbody ih | quote hbody ih =>
        simp only [List.cons_append, readString, unescapeChar?]
        rw [ih, push_append_ofList]

end Lisplet
