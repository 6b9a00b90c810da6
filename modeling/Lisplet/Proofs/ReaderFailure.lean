/-
How reading fails.  Beside the grammar of what can be read stands a grammar of
what cannot: where a text stops being a form, and what is wrong there.  The
reader gets stuck in exactly these ways.
-/
import Lisplet.Proofs.FileText

namespace Lisplet

/-- A string that begins before the text does not end in it. -/
def Unclosed (text : List Char) : Prop :=
  ∃ body inner, StringBody body inner ∧ (text = body ∨ text = body ++ ['\\'])

/-- In a string that begins before the text a backslash stands at `rest`, before a
character that it cannot stand before. -/
def BadEscape (text rest : List Char) : Prop :=
  ∃ body inner escaped after, StringBody body inner ∧ text = body ++ rest ∧
    rest = '\\' :: escaped :: after ∧ unescapeChar? escaped = none

theorem StringBody.escape {escaped c : Char} {body inner : List Char}
    (hescaped : unescapeChar? escaped = some c) (hbody : StringBody body inner) :
    StringBody ('\\' :: escaped :: body) (c :: inner) := by
  obtain ⟨rfl, rfl⟩ | ⟨rfl, rfl⟩ | ⟨rfl, rfl⟩ := unescapeChar?_eq_some hescaped
  · exact .newline hbody
  · exact .backslash hbody
  · exact .quote hbody

theorem StringBody.append {body more inner others : List Char} (h : StringBody body inner)
    (hmore : StringBody more others) : StringBody (body ++ more) (inner ++ others) := by
  induction h with
  | nil => exact hmore
  | plain hquote hbackslash _ ih => exact .plain hquote hbackslash ih
  | newline _ ih => exact .newline ih
  | backslash _ ih => exact .backslash ih
  | quote _ ih => exact .quote ih

theorem StringBody.readString {opening body inner chars : List Char} {text : String}
    (h : StringBody body inner) :
    readString opening text (body ++ chars) =
      readString opening (text ++ .ofList inner) chars := by
  induction h generalizing text with
  | nil =>
      rw [List.nil_append, String.ofList_nil, String.append_empty]
  | plain hquote hbackslash hbody ih =>
      rw [List.cons_append, Lisplet.readString, ih, push_append_ofList]
      · exact fun heq => hquote heq
      · exact fun heq => (hbackslash heq).elim
      · exact fun _ _ heq => (hbackslash heq).elim
  | newline hbody ih | backslash hbody ih | quote hbody ih =>
      simp only [List.cons_append, Lisplet.readString, unescapeChar?]
      rw [ih, push_append_ofList]

/-- A string is not read when it does not end or has an escape without a meaning. -/
theorem readString_eq_error_iff {opening chars : List Char} {text : String} {stuck : Stuck} :
    readString opening text chars = .error stuck ↔
      Unclosed chars ∧ stuck = ⟨.unclosedString, opening⟩ ∨
        ∃ rest, BadEscape chars rest ∧ stuck = ⟨.unknownEscape, rest⟩ := by
  constructor
  · intro h
    fun_induction readString opening text chars with
    | case1 =>
        cases h
        exact .inl ⟨⟨[], [], .nil, .inl rfl⟩, rfl⟩
    | case2 => cases h
    | case3 =>
        cases h
        exact .inl ⟨⟨[], [], .nil, .inr rfl⟩, rfl⟩
    | case4 text escaped rest c hescaped ih =>
        obtain ⟨⟨body, inner, hbody, hrest⟩, rfl⟩ |
          ⟨after, ⟨body, inner, bad, tail, hbody, rfl, hafter⟩, rfl⟩ := ih h
        · refine .inl ⟨⟨_, _, .escape hescaped hbody, ?_⟩, rfl⟩
          rcases hrest with rfl | rfl
          · exact .inl rfl
          · exact .inr rfl
        · exact .inr ⟨after, ⟨_, _, bad, tail, .escape hescaped hbody, rfl, hafter⟩, rfl⟩
    | case5 text escaped rest hescaped =>
        cases h
        exact .inr ⟨_, ⟨[], [], escaped, rest, .nil, rfl, rfl, hescaped⟩, rfl⟩
    | case6 text c rest hquote hend hbackslash ih =>
        have hc : c ≠ '\\' := by
          rintro rfl
          rcases rest with _ | ⟨escaped, rest⟩
          · exact hend rfl rfl
          · exact hbackslash escaped rest rfl rfl
        obtain ⟨⟨body, inner, hbody, hrest⟩, rfl⟩ |
          ⟨after, ⟨body, inner, bad, tail, hbody, rfl, hafter⟩, rfl⟩ := ih h
        · refine .inl ⟨⟨_, _, .plain (fun heq => hquote heq) hc hbody, ?_⟩, rfl⟩
          rcases hrest with rfl | rfl
          · exact .inl rfl
          · exact .inr rfl
        · refine .inr ⟨after, ⟨_, _, bad, tail, .plain (fun heq => hquote heq) hc hbody, rfl,
            hafter⟩, rfl⟩
  · rintro (⟨⟨body, inner, hbody, rfl | rfl⟩, rfl⟩ |
      ⟨rest, ⟨body, inner, escaped, after, hbody, rfl, rfl, hescaped⟩, rfl⟩)
    · rw [← List.append_nil chars, hbody.readString, readString]
    · rw [hbody.readString, readString]
    · rw [hbody.readString, readString, hescaped]

mutual

/-- How a text is no form at a level of nesting: at the text stands, separators
aside, what the fault is about.  A text at the innermost level is refused before
anything is skipped. -/
inductive Sticks : (level : Nat) → (text : List Char) → Stuck → Prop
  | tooDeep {level text} (hlevel : maxNesting ≤ level) : Sticks level text ⟨.tooDeep, text⟩
  | ended {level text} (hlevel : level < maxNesting) (hskip : skipSeparators text = []) :
      Sticks level text ⟨.unexpectedEnd, []⟩
  | unclosed {level text rest} (hlevel : level < maxNesting)
      (hskip : skipSeparators text = '"' :: rest) (hunclosed : Unclosed rest) :
      Sticks level text ⟨.unclosedString, '"' :: rest⟩
  | badEscape {level text rest after} (hlevel : level < maxNesting)
      (hskip : skipSeparators text = '"' :: rest) (hescape : BadEscape rest after) :
      Sticks level text ⟨.unknownEscape, after⟩
  | closer {level text c rest} (hlevel : level < maxNesting)
      (hskip : skipSeparators text = c :: rest) (hc : c ∈ closers) :
      Sticks level text ⟨.unexpectedCloser, c :: rest⟩
  | metadata {level text rest} (hlevel : level < maxNesting)
      (hskip : skipSeparators text = '^' :: rest) : Sticks level text ⟨.metadata, '^' :: rest⟩
  | integer {level text token n rest} (hlevel : level < maxNesting)
      (hskip : skipSeparators text = token ++ rest) (hinteger : IntegerText token n)
      (hrange : int64? n = none) (hrest : EndsToken rest) :
      Sticks level text ⟨.integerOutOfRange, token ++ rest⟩
  | bracketed {level text opener closer empty rest stuck} (hlevel : level < maxNesting)
      (hskip : skipSeparators text = opener :: rest) (hbracket : Bracket opener closer [] empty)
      (hinside : SticksInside (level + 1) closer rest stuck) : Sticks level text stuck
  | unpaired {level text body entries after} (hlevel : level < maxNesting)
      (hskip : skipSeparators text = '\x7b' :: (body ++ '\x7d' :: after))
      (hentries : ReadsItems Token (level + 1) body entries ('\x7d' :: after))
      (hodd : entries.length % 2 = 1) :
      Sticks level text ⟨.unpairedMap, '\x7b' :: (body ++ '\x7d' :: after)⟩
  | marked {level text mark name rest stuck} (hlevel : level < maxNesting)
      (hskip : skipSeparators text = mark ++ rest) (hmark : Mark mark name)
      (hprefer : mark = ['~'] → rest.head? ≠ some '@') (hform : Sticks (level + 1) rest stuck) :
      Sticks level text stuck

/-- How a text after an opening bracket does not read as forms and the closing
bracket: it ends, or after some forms comes what is none. -/
inductive SticksInside : (level : Nat) → (closer : Char) → (text : List Char) → Stuck → Prop
  | ended {level closer text} (hskip : skipSeparators text = []) :
      SticksInside level closer text ⟨.unexpectedEnd, []⟩
  | item {level closer text c rest stuck} (hskip : skipSeparators text = c :: rest)
      (hc : c ≠ closer) (hitem : Sticks level (c :: rest) stuck) :
      SticksInside level closer text stuck
  | later {level closer text inner item rest stuck} (hskip : skipSeparators text = inner ++ rest)
      (hitem : Reads Token level inner item rest) (hrest : SticksInside level closer rest stuck) :
      SticksInside level closer text stuck

end

/-- A token denotes nothing when it is an integer beyond the range. -/
theorem ofToken?_eq_none_iff {token : List Char} :
    ofToken? token = none ↔ ∃ n, IntegerText token n ∧ int64? n = none := by
  constructor
  · intro h
    by_cases hword : token ∈ words
    · simp only [words, List.mem_cons, List.not_mem_nil, or_false] at hword
      rcases hword with rfl | rfl | rfl <;> cases h
    · rw [ofToken?_of_not_mem_words hword] at h
      rcases hinteger : ofDecimal? token with _ | n
      · rw [hinteger] at h
        cases h
      · rw [hinteger] at h
        exact ⟨n, ofDecimal?_eq_some_iff.mp hinteger, Option.map_eq_none_iff.mp h⟩
  · rintro ⟨n, hinteger, hrange⟩
    rw [ofToken?_of_not_mem_words hinteger.not_mem_words, ofDecimal?_eq_some_iff.mpr hinteger]
    exact Option.map_eq_none_iff.mpr hrange

theorem length_skipSeparators_le (text : List Char) :
    (skipSeparators text).length ≤ text.length := by
  obtain ⟨gap, hgap, -⟩ := exists_separators text
  have hlength := congrArg List.length hgap
  rw [List.length_append] at hlength
  omega

/-- Where a form has been read from, if no separator stands before it. -/
theorem ReadsForms.at_form {level : Nat} {form : List Char → Reading Value}
    (hform : ReadsForms level form) {chars rest : List Char} {item : Value}
    (hchars : AtForm chars) (h : form chars = .ok (item, rest)) :
    ∃ inner, chars = inner ++ rest ∧ Reads Token level inner item rest := by
  obtain ⟨gap, inner, rfl, hgap, hinner⟩ := hform _ _ _ h
  have hskip := hgap.skip
  rw [skipSeparators_of_atForm hchars, skipSeparators_of_atForm (hinner.atForm rest)] at hskip
  exact ⟨inner, hskip, hinner⟩

section Sound

variable {steps levels level : Nat} {form : List Char → Reading Value}

/-- Inside brackets the reader gets stuck where the text ends, or in a form. -/
theorem readItems_sticks (hreads : ReadsForms level form)
    (hsticks : ∀ chars stuck, chars.length ≤ steps → form chars = .error stuck →
      Sticks level chars stuck) {closer : Char} {count : Nat} {before : List Value}
    {chars : List Char} {stuck : Stuck} (hsteps : chars.length ≤ steps)
    (hcount : chars.length < count) (h : readItems form closer count before chars = .error stuck) :
    SticksInside level closer chars stuck := by
  induction count generalizing before chars with
  | zero => omega
  | succ count ih =>
      have hatForm := (atForm_skipped chars).1
      have hlength := length_skipSeparators_le chars
      rw [readItems] at h
      rcases hskip : skipSeparators chars with _ | ⟨c, tail⟩
      · rw [hskip] at h
        cases h
        exact .ended hskip
      · rw [hskip] at h hatForm hlength
        by_cases hcloser : c = closer
        · simp only [if_pos hcloser] at h
          cases h
        · simp only [if_neg hcloser] at h
          rcases hitem : form (c :: tail) with stuck' | ⟨item, rest⟩
          · rw [hitem] at h
            cases h
            exact .item hskip hcloser (hsticks _ _ (by omega) hitem)
          · rw [hitem] at h
            obtain ⟨inner, hinner, hreads'⟩ := hreads.at_form hatForm hitem
            obtain ⟨d, inner', rfl, -⟩ := hreads'.head
            have htotal := congrArg List.length hinner
            simp only [List.length_append, List.length_cons] at htotal hlength
            rw [hinner] at hskip
            exact .later hskip hreads' (ih (by omega) (by omega) h)

/-- An atom is not read when it is a string that is not, a closing bracket, the mark
of metadata, or an integer beyond the range. -/
theorem readAtom_sticks {text : List Char} {stuck : Stuck} (hlevel : level < maxNesting)
    (hopener : ∀ c, (skipSeparators text).head? = some c → c ∉ openers)
    (h : readAtom (skipSeparators text) = .error stuck) : Sticks level text stuck := by
  have hatForm := (atForm_skipped text).1
  generalize hskip : skipSeparators text = chars at h hopener hatForm
  rw [readAtom.eq_def] at h
  split at h
  · cases h
    exact .ended hlevel hskip
  · obtain ⟨hunclosed, rfl⟩ | ⟨after, hescape, rfl⟩ := readString_eq_error_iff.mp h
    · exact .unclosed hlevel hskip hunclosed
    · exact .badEscape hlevel hskip hescape
  · next c tail hquote =>
      split at h
      · next hcloser =>
          cases h
          exact .closer hlevel hskip (by simpa [closers] using hcloser)
      · next hcloser =>
          split at h
          · next hcaret =>
              cases h
              subst hcaret
              exact .metadata hlevel hskip
          · have hc : isTokenChar c = true :=
              isTokenChar_of_atForm hatForm (hopener c rfl) hcloser (fun heq => hquote heq)
            rw [readToken] at h
            split at h
            · cases h
            · next hnone =>
                cases h
                obtain ⟨n, hinteger, hrange⟩ := ofToken?_eq_none_iff.mp hnone
                rw [← List.takeWhile_append_dropWhile (p := isTokenChar) (l := c :: tail)]
                  at hskip ⊢
                refine .integer hlevel hskip hinteger hrange ?_
                intro d hd
                simpa [hd] using List.head?_dropWhile_not isTokenChar (c :: tail)

theorem reading_eq_error {α β : Type} {make : α → β} {read : Reading α} {stuck : Stuck} :
    reading make read = .error stuck ↔ read = .error stuck := by
  rcases read with stuck' | ⟨value, rest⟩
  · simp [reading]
  · simp [reading]

theorem pairedMap_eq_error {opening : List Char} {read : Reading (List Value)} {stuck : Stuck}
    (h : pairedMap opening read = .error stuck) :
    read = .error stuck ∨ ∃ entries rest, read = .ok (entries, rest) ∧
      entries.length % 2 = 1 ∧ stuck = ⟨.unpairedMap, opening⟩ := by
  rcases read with stuck' | ⟨entries, rest⟩
  · cases h
    exact .inl rfl
  · rw [pairedMap] at h
    split at h
    · cases h
    · next hodd =>
        cases h
        exact .inr ⟨entries, rest, rfl, by omega, rfl⟩

/-- The reader gets stuck as the grammar of failures says. -/
theorem readForm_sticks {chars : List Char} {stuck : Stuck} (hlevels : level + levels = maxNesting)
    (hsteps : chars.length ≤ steps) (h : readForm steps levels chars = .error stuck) :
    Sticks level chars stuck := by
  induction levels generalizing level chars stuck with
  | zero =>
      cases h
      exact .tooDeep (by omega)
  | succ levels ih =>
      have hlevel : level < maxNesting := by omega
      have hlength := length_skipSeparators_le chars
      have hreads : ReadsForms (level + 1) (readForm steps levels) := readForm_sound (by omega)
      have hinner : ∀ {chars stuck}, chars.length ≤ steps →
          readForm steps levels chars = .error stuck → Sticks (level + 1) chars stuck :=
        fun hsteps h => ih (by omega) hsteps h
      have hinside : ∀ {closer rest stuck}, rest.length < (skipSeparators chars).length →
          readItems (readForm steps levels) closer steps [] rest = .error stuck →
          SticksInside (level + 1) closer rest stuck := by
        intro closer rest stuck hlt hitems
        exact readItems_sticks hreads (fun _ _ => hinner) (by omega) (by omega) hitems
      rw [readForm] at h
      split at h
      · next rest hskip =>
          rw [hskip] at hinside
          exact .bracketed hlevel hskip .list
            (hinside (Nat.lt_succ_self _) (reading_eq_error.mp h))
      · next rest hskip =>
          rw [hskip] at hinside
          exact .bracketed hlevel hskip .vector
            (hinside (Nat.lt_succ_self _) (reading_eq_error.mp h))
      · next rest hskip =>
          rw [hskip] at hinside
          obtain hitems | ⟨entries, after, hitems, hodd, rfl⟩ := pairedMap_eq_error h
          · exact .bracketed hlevel hskip (.map rfl) (hinside (Nat.lt_succ_self _) hitems)
          · obtain ⟨body, more, rfl, rfl, hmore⟩ := hreads.readItems hitems
            exact .unpaired hlevel hskip hmore hodd
      · next rest hskip =>
          rw [hskip, List.length_cons] at hlength
          exact .marked hlevel hskip .quote (by simp)
            (hinner (by omega) (reading_eq_error.mp h))
      · next rest hskip =>
          rw [hskip, List.length_cons] at hlength
          exact .marked hlevel hskip .quasiquote (by simp)
            (hinner (by omega) (reading_eq_error.mp h))
      · next rest hskip =>
          rw [hskip, List.length_cons, List.length_cons] at hlength
          exact .marked hlevel hskip .spliceUnquote (by simp)
            (hinner (by omega) (reading_eq_error.mp h))
      · next rest hsplice hskip =>
          rw [hskip, List.length_cons] at hlength
          refine .marked hlevel hskip .unquote (fun _ hat => ?_)
            (hinner (by omega) (reading_eq_error.mp h))
          obtain ⟨tail, rfl⟩ := List.head?_eq_some_iff.mp hat
          exact hsplice tail rfl
      · next rest hskip =>
          rw [hskip, List.length_cons] at hlength
          exact .marked hlevel hskip .deref (by simp)
            (hinner (by omega) (reading_eq_error.mp h))
      · next hlist hvector hmap hquote hquasiquote hsplice hunquote hderef =>
          exact readAtom_sticks hlevel
            (no_opener hlist hvector hmap hquote hquasiquote hunquote hderef) h

end Sound

/-- The reader skips the separators first. -/
theorem readForm_skip {steps levels : Nat} {text skipped : List Char}
    (h : skipSeparators text = skipped) :
    readForm steps (levels + 1) text = readForm steps (levels + 1) skipped := by
  obtain ⟨gap, hgap, hseparators⟩ := exists_separators text
  rw [h] at hgap hseparators
  rw [hgap, readForm_gap hseparators (Nat.succ_pos levels)]

theorem readForm_bracketed_error {opener closer : Char} {empty : Value}
    (h : Bracket opener closer [] empty) {steps levels : Nat} {chars : List Char} {stuck : Stuck}
    (hitems : readItems (readForm steps levels) closer steps [] chars = .error stuck) :
    readForm steps (levels + 1) (opener :: chars) = .error stuck := by
  have hopener := (noSeparator_of_opener h.opener_mem).1
  rw [readForm, skipSeparators_of_atForm (atForm_cons.mpr hopener)]
  cases h with
  | list | vector => simp only [hitems, reading]
  | map => simp only [hitems, pairedMap]

theorem readForm_closer {c : Char} (hc : c ∈ closers) {steps levels : Nat} {rest : List Char} :
    readForm steps (levels + 1) (c :: rest) = .error ⟨.unexpectedCloser, c :: rest⟩ := by
  rw [readForm_of_not_opener (atForm_cons.mpr (noSeparator_of_closer hc))]
  · simp only [closers, List.mem_cons, List.not_mem_nil, or_false] at hc
    rcases hc with rfl | rfl | rfl <;> rfl
  · intro d hd
    cases hd
    simp only [closers, List.mem_cons, List.not_mem_nil, or_false] at hc
    rcases hc with rfl | rfl | rfl <;> decide

theorem readForm_integer {token rest : List Char} {n : Int} (hinteger : IntegerText token n)
    (hrange : int64? n = none) (hrest : EndsToken rest) {steps levels : Nat} :
    readForm steps (levels + 1) (token ++ rest) =
      .error ⟨.integerOutOfRange, token ++ rest⟩ := by
  obtain ⟨hne, hchars⟩ := hinteger.tokenChars
  obtain ⟨htake, -⟩ := takeWhile_token (fun c hc => (hchars c hc).1) hrest
  rcases token with _ | ⟨c, token⟩
  · exact (hne rfl).elim
  · obtain ⟨hc, hinitial⟩ := hchars c List.mem_cons_self
    have hnone := ofToken?_eq_none_iff.mpr ⟨n, hinteger, hrange⟩
    have hcloser : ¬ (c = ')' ∨ c = ']' ∨ c = '\x7d') := by
      simpa [closers] using (noSeparator_of_isTokenChar hc).2
    have hcaret : c ≠ '^' := by
      rintro rfl
      exact hinitial (by decide)
    rw [List.cons_append,
      readForm_of_not_opener (atForm_cons.mpr (noSeparator_of_isTokenChar hc).1)]
    · rw [readAtom, if_neg hcloser, if_neg hcaret, readToken, ← List.cons_append, htake, hnone]
      exact fun heq => ne_of_isTokenChar hc (by decide) heq
    · intro d hd
      cases hd
      exact not_opener_of_isTokenChar hinitial hc

mutual

/-- In each of these ways the reader gets stuck. -/
theorem Sticks.complete {level : Nat} {text : List Char} {stuck : Stuck}
    (h : Sticks level text stuck) (steps levels : Nat) (hlevels : level + levels = maxNesting)
    (hsteps : text.length ≤ steps) : readForm steps levels text = .error stuck := by
  have hlength := length_skipSeparators_le text
  rcases levels with _ | levels
  · -- At the innermost level every text is too deep.
    cases h <;> first | rfl | omega
  match h with
  | .tooDeep hlevel => omega
  | .ended hlevel hskip =>
      rw [readForm_skip hskip]
      rfl
  | .unclosed hlevel hskip hunclosed =>
      rw [readForm_skip hskip]
      exact readString_eq_error_iff.mpr (.inl ⟨hunclosed, rfl⟩)
  | .badEscape hlevel hskip hescape =>
      rw [readForm_skip hskip]
      exact readString_eq_error_iff.mpr (.inr ⟨_, hescape, rfl⟩)
  | .closer hlevel hskip hc =>
      rw [readForm_skip hskip, readForm_closer hc]
  | .metadata hlevel hskip =>
      rw [readForm_skip hskip]
      rfl
  | .integer hlevel hskip hinteger hrange hrest =>
      rw [readForm_skip hskip, readForm_integer hinteger hrange hrest]
  | .bracketed hlevel hskip hbracket hinside =>
      rw [hskip, List.length_cons] at hlength
      rw [readForm_skip hskip]
      exact readForm_bracketed_error hbracket
        (hinside.complete (by omega) (by omega) (by omega) hbracket.closer_mem)
  | @Sticks.unpaired _ _ body entries after hlevel hskip hentries hodd =>
      rw [hskip, List.length_cons, List.length_append] at hlength
      have hread : readItems (readForm steps levels) '\x7d' steps [] (body ++ '\x7d' :: after) =
          .ok ([].reverse ++ entries, after) :=
        hentries.complete rfl (by omega) (by omega) (by omega) (by decide)
      rw [readForm_skip hskip, readForm, skipSeparators_of_atForm (atForm_cons.mpr (by decide))]
      simp only [hread, pairedMap]
      rw [if_neg]
      simp only [List.reverse_nil, List.nil_append]
      omega
  | .marked hlevel hskip hmark hprefer hform =>
      rw [hskip, List.length_append] at hlength
      rw [readForm_skip hskip, readForm_marked hmark hprefer]
      exact reading_eq_error.mpr (hform.complete steps levels (by omega) (by omega))

theorem SticksInside.complete {level steps levels count : Nat} {closer : Char}
    {text : List Char} {stuck : Stuck} {before : List Value}
    (h : SticksInside level closer text stuck) (hlevels : level + levels = maxNesting)
    (hsteps : text.length ≤ steps) (hcount : text.length < count) (hcloser : closer ∈ closers) :
    readItems (readForm steps levels) closer count before text = .error stuck := by
  have hlength := length_skipSeparators_le text
  obtain ⟨count, rfl⟩ : ∃ below, count = below + 1 := ⟨count - 1, by omega⟩
  match h with
  | .ended hskip =>
      rw [readItems, hskip]
  | .item hskip hc hitem =>
      rw [hskip] at hlength
      rw [readItems, hskip]
      simp only [if_neg hc, hitem.complete steps levels hlevels (by omega)]
  | .later hskip hitem hrest =>
      rw [hskip, List.length_append] at hlength
      have hread := hitem.complete steps levels hlevels (by omega)
      obtain ⟨c, tail, rfl, -, hc⟩ := hitem.head
      have hne : c ≠ closer := by
        rintro rfl
        exact hc hcloser
      rw [List.length_cons] at hlength
      rw [readItems, hskip, List.cons_append]
      simp only [if_neg hne]
      rw [← List.cons_append, hread]
      exact hrest.complete hlevels (by omega) (by omega) hcloser

end

/-- The reader gets stuck in a text exactly as the grammar of failures says. -/
theorem readForm_eq_error_iff {level levels steps : Nat} {text : List Char} {stuck : Stuck}
    (hlevels : level + levels = maxNesting) (hsteps : text.length ≤ steps) :
    readForm steps levels text = .error stuck ↔ Sticks level text stuck :=
  ⟨readForm_sticks hlevels hsteps, fun h => h.complete steps levels hlevels hsteps⟩

/-- There is no first form in a text without forms and in a text that the reader
gets stuck in. -/
theorem readLeading_eq_error_iff {text : String} {cause : ReadError} :
    readLeading text = .error cause ↔
      skipSeparators text.toList = [] ∧ cause = .ofMessage .noForm "No form to read" ∨
        skipSeparators text.toList ≠ [] ∧
          ∃ stuck, Sticks 0 text.toList stuck ∧ cause = stuck.error text := by
  rcases hskip : skipSeparators text.toList with _ | ⟨c, tail⟩
  · rw [readLeading, hskip]
    simp [eq_comm]
  · have hread : readForm (text.length + 1) maxNesting text.toList =
        readForm (text.length + 1) maxNesting (c :: tail) := readForm_skip hskip
    have hsticks : ∀ {stuck}, readForm (text.length + 1) maxNesting (c :: tail) = .error stuck ↔
        Sticks 0 text.toList stuck := by
      intro stuck
      rw [← hread]
      exact readForm_eq_error_iff (Nat.zero_add _) (by rw [String.length_toList]; omega)
    rw [readLeading_of_cons hskip]
    rcases hform : readForm (text.length + 1) maxNesting (c :: tail) with stuck | read
    · have hstuck := hsticks.mp hform
      constructor
      · intro h
        cases h
        exact .inr ⟨List.cons_ne_nil c tail, stuck, hstuck, rfl⟩
      · rintro (⟨hnil, -⟩ | ⟨-, stuck', hstuck', rfl⟩)
        · cases hnil
        · rw [← hsticks, hform, Except.error.injEq] at hstuck'
          rw [hstuck']
          rfl
    · constructor
      · intro h
        cases h
      · rintro (⟨hnil, -⟩ | ⟨-, stuck', hstuck', -⟩)
        · cases hnil
        · rw [← hsticks, hform] at hstuck'
          cases hstuck'

end Lisplet
