/-
How reading goes on, and that it ends.  The reader is followed here without the steps that
it is allowed, as it calls itself form by form: each round of its loops leaves a shorter
text and each call a deeper level, so that every text is read or refused in the end, after
no more calls than it has characters.
-/
import Lisplet.Proofs.MoreText

namespace Lisplet

variable {α β : Type}

/-- What is read leaves less of the text, from its end, and where reading stops is in the
text. -/
structure Advances (chars : List Char) (result : Reading α) : Prop where
  suffix : ∀ value rest, result = .ok (value, rest) → rest <:+ chars
  shorter : ∀ value rest, result = .ok (value, rest) → rest.length < chars.length
  stuck : ∀ stuck, result = .error stuck → stuck.rest <:+ chars

namespace Advances

theorem error {chars : List Char} {stuck : Stuck} (h : stuck.rest <:+ chars) :
    Advances chars (.error stuck : Reading α) where
  suffix := nofun
  shorter := nofun
  stuck := by
    rintro _ ⟨⟩
    exact h

theorem ok {chars rest : List Char} (value : α) (h : rest <:+ chars)
    (hlt : rest.length < chars.length) : Advances chars (.ok (value, rest)) where
  suffix := by
    rintro _ _ ⟨⟩
    exact h
  shorter := by
    rintro _ _ ⟨⟩
    exact hlt
  stuck := nofun

theorem mono {chars more : List Char} {result : Reading α} (h : Advances chars result)
    (hmore : chars <:+ more) : Advances more result where
  suffix value rest hresult := (h.suffix value rest hresult).trans hmore
  shorter value rest hresult := (h.shorter value rest hresult).trans_le hmore.length_le
  stuck stuck hresult := (h.stuck stuck hresult).trans hmore

theorem reading {chars : List Char} {result : Reading α} (h : Advances chars result)
    (make : α → β) : Advances chars (reading make result) := by
  rcases result with stuck | ⟨value, rest⟩
  · exact .error (h.stuck stuck rfl)
  · exact .ok _ (h.suffix value rest rfl) (h.shorter value rest rfl)

theorem pairedMap {chars opening : List Char} {result : Reading (List Value)}
    (h : Advances chars result) (hopening : chars <:+ opening) :
    Advances opening (pairedMap opening result) := by
  rcases result with stuck | ⟨entries, rest⟩
  · exact .error ((h.stuck stuck rfl).trans hopening)
  · rw [Lisplet.pairedMap]
    split
    · exact (Advances.ok _ (h.suffix entries rest rfl) (h.shorter entries rest rfl)).mono hopening
    · exact .error List.suffix_rfl

end Advances

section Separators

def isBlankOrComma (c : Char) : Bool :=
  isBlank c || c == ','

/-- One round of skipping separators: a run of blanks and commas, or a comment up to the end
of its line; nothing if there is neither. -/
def separator? : List Char → Option (List Char)
  | [] => none
  | c :: chars =>
      if isBlankOrComma c then some ((c :: chars).dropWhile isBlankOrComma)
      else if c = ';' then some (chars.dropWhile (· ≠ '\n'))
      else none

/-- The loop that takes rounds as long as there are any.  It gives up on a round that leaves
as much as there was. -/
inductive Loops (round : List Char → Option (List Char)) :
    List Char → Option (List Char) → Prop
  | done {chars} (hnone : round chars = none) : Loops round chars (some chars)
  | stalled {chars rest} (hround : round chars = some rest)
      (hsame : rest.length = chars.length) : Loops round chars none
  | next {chars rest ended} (hround : round chars = some rest)
      (hother : rest.length ≠ chars.length) (hrest : Loops round rest ended) :
      Loops round chars ended

theorem skipSeparators_dropWhile (chars : List Char) :
    skipSeparators (chars.dropWhile isBlankOrComma) = skipSeparators chars := by
  induction chars with
  | nil => rfl
  | cons c chars ih =>
      by_cases hblank : isBlankOrComma c = true
      · have hc : isBlank c = true ∨ c = ',' := by simpa [isBlankOrComma] using hblank
        rw [List.dropWhile_cons_of_pos hblank, ih, skipSeparators_blank hc]
      · rw [List.dropWhile_cons_of_neg hblank]

theorem skipComment_eq (chars : List Char) :
    skipComment chars = skipSeparators (chars.dropWhile (· ≠ '\n')) := by
  induction chars with
  | nil => rfl
  | cons c chars ih =>
      by_cases hnewline : c = '\n'
      · rw [skipComment, if_pos hnewline, List.dropWhile_cons_of_neg (by simpa using hnewline),
          hnewline, skipSeparators_blank (.inl (by decide))]
      · rw [skipComment, if_neg hnewline, ih, List.dropWhile_cons_of_pos (by simpa using hnewline)]

theorem separator?_eq_none {chars : List Char} (h : separator? chars = none) :
    skipSeparators chars = chars := by
  rcases chars with _ | ⟨c, chars⟩
  · rfl
  · rw [separator?] at h
    rw [skipSeparators]
    split at h
    · cases h
    · next hblank =>
        split at h
        · cases h
        · next hcomment =>
            rw [isBlankOrComma] at hblank
            rw [if_neg hblank, if_neg hcomment]

/-- A round takes some of the separators, and at least one character. -/
theorem separator?_eq_some {chars rest : List Char} (h : separator? chars = some rest) :
    rest.length < chars.length ∧ skipSeparators rest = skipSeparators chars := by
  rcases chars with _ | ⟨c, chars⟩
  · cases h
  · rw [separator?] at h
    split at h
    · next hblank =>
        cases h
        rw [skipSeparators_dropWhile]
        refine ⟨?_, rfl⟩
        rw [List.dropWhile_cons_of_pos hblank]
        exact Nat.lt_succ_of_le (List.dropWhile_suffix _).length_le
    · next hblank =>
        split at h
        · next hcomment =>
            cases h
            refine ⟨Nat.lt_succ_of_le (List.dropWhile_suffix _).length_le, ?_⟩
            rw [isBlankOrComma] at hblank
            rw [← skipComment_eq, skipSeparators, if_neg hblank, if_pos hcomment]
        · cases h

/-- The loop ends for every text and never gives up; it skips the separators. -/
theorem loops_separator?_iff {chars : List Char} {ended : Option (List Char)} :
    Loops separator? chars ended ↔ ended = some (skipSeparators chars) := by
  constructor
  · intro h
    induction h with
    | done hnone => rw [separator?_eq_none hnone]
    | stalled hround hsame => exact absurd hsame (separator?_eq_some hround).1.ne
    | next hround _ _ ih => rw [ih, (separator?_eq_some hround).2]
  · rintro rfl
    induction hlength : chars.length using Nat.strongRecOn generalizing chars with
    | ind length ih =>
        subst hlength
        rcases hround : separator? chars with _ | rest
        · rw [separator?_eq_none hround]
          exact .done hround
        · obtain ⟨hlt, hskip⟩ := separator?_eq_some hround
          rw [← hskip]
          exact .next hround hlt.ne (ih rest.length hlt rfl)

end Separators

/-- The inside of a string is read to a place after it, or refused there or at the opening
quote. -/
theorem readString_advances {opening chars : List Char} {text : String} :
    (∀ value rest, readString opening text chars = .ok (value, rest) →
      rest <:+ chars ∧ rest.length < chars.length) ∧
    ∀ stuck, readString opening text chars = .error stuck →
      stuck.rest = opening ∨ stuck.rest <:+ chars := by
  constructor
  · intro value rest h
    obtain ⟨body, inner, rfl, -, -⟩ := readString_eq_ok_iff.mp h
    refine ⟨(List.suffix_cons _ _).trans (List.suffix_append _ _), ?_⟩
    rw [List.length_append, List.length_cons]
    omega
  · intro stuck h
    obtain ⟨-, rfl⟩ | ⟨rest, ⟨body, _, _, _, -, rfl, -, -⟩, rfl⟩ := readString_eq_error_iff.mp h
    · exact .inl rfl
    · exact .inr (List.suffix_append _ _)

theorem skipSeparators_suffix_self (chars : List Char) : skipSeparators chars <:+ chars :=
  skipSeparators_suffix rfl

/-- An atom is read where separators end, if what stands there opens nothing. -/
theorem readAtom_advances {level : Nat} {chars : List Char} (hlevel : level < maxNesting)
    (hatom : ∀ c, (skipSeparators chars).head? = some c → c ∉ openers) :
    Advances chars (readAtom (skipSeparators chars)) := by
  rcases hread : readAtom (skipSeparators chars) with stuck | ⟨value, rest⟩
  · exact .error (readAtom_sticks hlevel hatom hread).suffix
  · obtain ⟨text, htext, hreads⟩ := readAtom_sound hlevel (atForm_skipped chars).1 hatom hread
    obtain ⟨c, tail, rfl, -⟩ := hreads.head
    have hskipped : Advances (skipSeparators chars) (.ok (value, rest)) := by
      rw [htext]
      refine .ok _ (List.suffix_append _ _) ?_
      rw [List.length_append, List.length_cons]
      omega
    exact hskipped.mono (skipSeparators_suffix_self chars)

/-- A call of the reader for a form: at a level, on the characters that are left. -/
structure FormCall where
  level : Nat
  chars : List Char

mutual

/-- The reader, called for a form at a level, makes these calls for forms inside, in this
order, and ends with the result. -/
inductive RunsForm : (level : Nat) → (chars : List Char) → List FormCall → Reading Value → Prop
  | tooDeep {level chars} (hlevel : maxNesting ≤ level) :
      RunsForm level chars [] (.error ⟨.tooDeep, chars⟩)
  | atom {level chars} (hlevel : level < maxNesting)
      (hatom : ∀ c, (skipSeparators chars).head? = some c → c ∉ openers) :
      RunsForm level chars [] (readAtom (skipSeparators chars))
  | list {level chars rest calls result} (hlevel : level < maxNesting)
      (hskip : skipSeparators chars = '(' :: rest)
      (hitems : RunsItems (level + 1) ')' [] rest calls result) :
      RunsForm level chars calls (reading .list result)
  | vector {level chars rest calls result} (hlevel : level < maxNesting)
      (hskip : skipSeparators chars = '[' :: rest)
      (hitems : RunsItems (level + 1) ']' [] rest calls result) :
      RunsForm level chars calls (reading .vector result)
  | map {level chars rest calls result} (hlevel : level < maxNesting)
      (hskip : skipSeparators chars = '\x7b' :: rest)
      (hitems : RunsItems (level + 1) '\x7d' [] rest calls result) :
      RunsForm level chars calls (pairedMap ('\x7b' :: rest) result)
  | marked {level chars mark name rest calls result} (hlevel : level < maxNesting)
      (hskip : skipSeparators chars = mark ++ rest) (hmark : Mark mark name)
      (hprefer : mark = ['~'] → rest.head? ≠ some '@')
      (hform : RunsForm (level + 1) rest calls result) :
      RunsForm level chars (⟨level + 1, rest⟩ :: calls) (reading (shorthand name) result)

/-- The loop over the forms up to a closing bracket, after those read before, makes these
calls for forms and ends with the result. -/
inductive RunsItems : (level : Nat) → (closer : Char) → (before : List Value) →
    (chars : List Char) → List FormCall → Reading (List Value) → Prop
  | ended {level closer before chars} (hskip : skipSeparators chars = []) :
      RunsItems level closer before chars [] (.error ⟨.unexpectedEnd, []⟩)
  | closed {level closer before chars rest} (hskip : skipSeparators chars = closer :: rest) :
      RunsItems level closer before chars [] (.ok (before.reverse, rest))
  | stuck {level closer before chars c rest calls stuck}
      (hskip : skipSeparators chars = c :: rest) (hc : c ≠ closer)
      (hform : RunsForm level (c :: rest) calls (.error stuck)) :
      RunsItems level closer before chars (⟨level, c :: rest⟩ :: calls) (.error stuck)
  | item {level closer before chars c rest calls item after later result}
      (hskip : skipSeparators chars = c :: rest) (hc : c ≠ closer)
      (hform : RunsForm level (c :: rest) calls (.ok (item, after)))
      (hitems : RunsItems level closer (item :: before) after later result) :
      RunsItems level closer before chars (⟨level, c :: rest⟩ :: (calls ++ later)) result

end

theorem suffix_of_skip {chars skipped rest : List Char}
    (hskip : skipSeparators chars = skipped ++ rest) : rest <:+ chars :=
  (List.suffix_append _ _).trans (skipSeparators_suffix hskip)

theorem suffix_of_skip_cons {c : Char} {chars rest : List Char}
    (hskip : skipSeparators chars = c :: rest) : rest <:+ chars :=
  (List.suffix_cons _ _).trans (skipSeparators_suffix hskip)

theorem length_lt_of_skip_cons {c : Char} {chars rest : List Char}
    (hskip : skipSeparators chars = c :: rest) : rest.length < chars.length :=
  (skipSeparators_suffix hskip).length_le

mutual

/-- A call for a form makes progress. -/
theorem RunsForm.advances {level : Nat} {chars : List Char} {calls : List FormCall}
    {result : Reading Value} (h : RunsForm level chars calls result) : Advances chars result := by
  match h with
  | .tooDeep _ => exact .error List.suffix_rfl
  | .atom hlevel hatom => exact readAtom_advances hlevel hatom
  | .list _ hskip hitems | .vector _ hskip hitems =>
      exact (hitems.advances.reading _).mono (suffix_of_skip_cons hskip)
  | .map _ hskip hitems =>
      exact (hitems.advances.pairedMap (List.suffix_cons _ _)).mono (skipSeparators_suffix hskip)
  | .marked _ hskip _ _ hform => exact (hform.advances.reading _).mono (suffix_of_skip hskip)

theorem RunsItems.advances {level : Nat} {closer : Char} {before : List Value}
    {chars : List Char} {calls : List FormCall} {result : Reading (List Value)}
    (h : RunsItems level closer before chars calls result) : Advances chars result := by
  match h with
  | .ended _ => exact .error List.nil_suffix
  | .closed hskip =>
      have hsuffix := skipSeparators_suffix hskip
      exact (Advances.ok _ (List.suffix_cons _ _) (Nat.lt_succ_self _)).mono hsuffix
  | .stuck hskip _ hform =>
      exact .error ((hform.advances.stuck _ rfl).trans (skipSeparators_suffix hskip))
  | .item hskip _ hform hitems =>
      have hafter := (hform.advances.suffix _ _ rfl).trans (skipSeparators_suffix hskip)
      exact hitems.advances.mono hafter

end

theorem levels_of_lt {level : Nat} (hlevel : level < maxNesting) :
    maxNesting - level = (maxNesting - (level + 1)) + 1 := by
  omega

mutual

/-- With as many steps as there are characters, the reader ends in the same way. -/
theorem RunsForm.readForm_eq {level : Nat} {chars : List Char} {calls : List FormCall}
    {result : Reading Value} (h : RunsForm level chars calls result) {steps : Nat}
    (hsteps : chars.length ≤ steps) : readForm steps (maxNesting - level) chars = result := by
  match h with
  | .tooDeep hlevel =>
      rw [Nat.sub_eq_zero_of_le hlevel]
      rfl
  | .atom hlevel hatom =>
      rw [levels_of_lt hlevel, readForm_skip rfl,
        readForm_of_not_opener (atForm_skipped chars).1 hatom]
  | .list hlevel hskip hitems =>
      have hinside := (length_lt_of_skip_cons hskip).trans_le hsteps
      rw [levels_of_lt hlevel, readForm, hskip]
      simp only [hitems.readItems_eq hinside.le hinside]
  | .vector hlevel hskip hitems =>
      have hinside := (length_lt_of_skip_cons hskip).trans_le hsteps
      rw [levels_of_lt hlevel, readForm, hskip]
      simp only [hitems.readItems_eq hinside.le hinside]
  | .map hlevel hskip hitems =>
      have hinside := (length_lt_of_skip_cons hskip).trans_le hsteps
      rw [levels_of_lt hlevel, readForm, hskip]
      simp only [hitems.readItems_eq hinside.le hinside]
  | .marked hlevel hskip hmark hprefer hform =>
      have hlength := (suffix_of_skip hskip).length_le
      rw [levels_of_lt hlevel, readForm_skip hskip, readForm_marked hmark hprefer,
        hform.readForm_eq (by omega)]

theorem RunsItems.readItems_eq {level : Nat} {closer : Char} {before : List Value}
    {chars : List Char} {calls : List FormCall} {result : Reading (List Value)}
    (h : RunsItems level closer before chars calls result) {steps count : Nat}
    (hsteps : chars.length ≤ steps) (hcount : chars.length < count) :
    readItems (readForm steps (maxNesting - level)) closer count before chars = result := by
  obtain ⟨count, rfl⟩ : ∃ below, count = below + 1 := ⟨count - 1, by omega⟩
  match h with
  | .ended hskip => rw [readItems, hskip]
  | .closed hskip =>
      rw [readItems, hskip]
      simp only [↓reduceIte]
  | .stuck hskip hc hform =>
      have hlength := (skipSeparators_suffix hskip).length_le
      rw [readItems, hskip]
      simp only [if_neg hc, hform.readForm_eq (hlength.trans hsteps)]
  | .item hskip hc hform hitems =>
      have hlength := (skipSeparators_suffix hskip).length_le
      have hafter := hform.advances.shorter _ _ rfl
      rw [readItems, hskip]
      simp only [if_neg hc, hform.readForm_eq (hlength.trans hsteps)]
      -- What is left after a form is shorter, so that one round fewer is enough for it.
      exact hitems.readItems_eq (by omega) (by omega)

end

/-- The loop over forms ends if every call for a form does, since each leaves less of the
text. -/
theorem exists_runsItems {level : Nat}
    (hforms : ∀ chars, ∃ calls result, RunsForm level chars calls result) (closer : Char)
    (before : List Value) (chars : List Char) :
    ∃ calls result, RunsItems level closer before chars calls result := by
  induction hlength : chars.length using Nat.strongRecOn generalizing before chars with
  | ind length ih =>
      subst hlength
      rcases hskip : skipSeparators chars with _ | ⟨c, rest⟩
      · exact ⟨_, _, .ended hskip⟩
      · by_cases hc : c = closer
        · subst hc
          exact ⟨_, _, .closed hskip⟩
        · obtain ⟨calls, stuck | ⟨item, after⟩, hform⟩ := hforms (c :: rest)
          · exact ⟨_, _, .stuck hskip hc hform⟩
          · have hafter := (hform.advances.shorter _ _ rfl).trans_le
              (skipSeparators_suffix hskip).length_le
            obtain ⟨later, result, hitems⟩ := ih after.length hafter (item :: before) after rfl
            exact ⟨_, _, .item hskip hc hform hitems⟩

/-- Every call for a form ends, since each call inside is a level deeper. -/
theorem exists_runsForm (level : Nat) (chars : List Char) :
    ∃ calls result, RunsForm level chars calls result := by
  induction hlevels : maxNesting - level generalizing level chars with
  | zero => exact ⟨_, _, .tooDeep (by omega)⟩
  | succ levels ih =>
      have hlevel : level < maxNesting := by omega
      have hinside := fun chars => ih (level + 1) chars (by omega)
      have hmarked : ∀ {mark name rest}, skipSeparators chars = mark ++ rest → Mark mark name →
          (mark = ['~'] → rest.head? ≠ some '@') →
          ∃ calls result, RunsForm level chars calls result := by
        intro mark name rest hskip hmark hprefer
        obtain ⟨calls, result, hform⟩ := hinside rest
        exact ⟨_, _, .marked hlevel hskip hmark hprefer hform⟩
      by_cases hopener : ∃ c rest, skipSeparators chars = c :: rest ∧ c ∈ openers
      · obtain ⟨c, rest, hskip, hopener⟩ := hopener
        simp only [openers, List.mem_cons, List.not_mem_nil, or_false] at hopener
        rcases hopener with rfl | rfl | rfl | rfl | rfl | rfl | rfl
        · obtain ⟨calls, result, hitems⟩ := exists_runsItems hinside ')' [] rest
          exact ⟨_, _, .list hlevel hskip hitems⟩
        · obtain ⟨calls, result, hitems⟩ := exists_runsItems hinside ']' [] rest
          exact ⟨_, _, .vector hlevel hskip hitems⟩
        · obtain ⟨calls, result, hitems⟩ := exists_runsItems hinside '\x7d' [] rest
          exact ⟨_, _, .map hlevel hskip hitems⟩
        · exact hmarked hskip .quote (by simp)
        · exact hmarked hskip .quasiquote (by simp)
        · -- `~` marks an unquoted form, if it is not the beginning of `~@`.
          by_cases hat : rest.head? = some '@'
          · obtain ⟨tail, rfl⟩ := List.head?_eq_some_iff.mp hat
            exact hmarked hskip .spliceUnquote (by simp)
          · exact hmarked hskip .unquote fun _ => hat
        · exact hmarked hskip .deref (by simp)
      · refine ⟨_, _, .atom hlevel fun c hhead hmem => hopener ?_⟩
        obtain ⟨rest, hskip⟩ := List.head?_eq_some_iff.mp hhead
        exact ⟨c, rest, hskip, hmem⟩

/-- How many characters are left, and one for the end of what has been read. -/
def Reading.remaining : Reading α → Nat
  | .ok (_, rest) => rest.length + 1
  | .error _ => 0

theorem remaining_reading (make : α → β) (result : Reading α) :
    (reading make result).remaining = result.remaining := by
  rcases result with stuck | ⟨value, rest⟩ <;> rfl

theorem remaining_pairedMap_le (opening : List Char) (result : Reading (List Value)) :
    (pairedMap opening result).remaining ≤ result.remaining := by
  rcases result with stuck | ⟨entries, rest⟩
  · exact Nat.le_refl _
  · rw [pairedMap]
    split
    · exact Nat.le_refl _
    · exact Nat.zero_le _

theorem Advances.remaining_le {chars : List Char} {result : Reading α}
    (h : Advances chars result) : result.remaining ≤ chars.length := by
  rcases result with stuck | ⟨value, rest⟩
  · exact Nat.zero_le _
  · exact h.shorter value rest rfl

mutual

/-- Each call takes a character of its own, apart from the last if it fails. -/
theorem RunsForm.length_calls {level : Nat} {chars : List Char} {calls : List FormCall}
    {result : Reading Value} (h : RunsForm level chars calls result) :
    calls.length + result.remaining ≤ chars.length := by
  match h with
  | .tooDeep _ => exact Nat.zero_le _
  | .atom hlevel hatom =>
      rw [List.length_nil, Nat.zero_add]
      exact (readAtom_advances hlevel hatom).remaining_le
  | .list _ hskip hitems | .vector _ hskip hitems =>
      have hlength := (skipSeparators_suffix hskip).length_le
      rw [remaining_reading]
      exact hitems.length_calls.trans hlength
  | .map _ hskip hitems =>
      have hlength := (skipSeparators_suffix hskip).length_le
      exact (Nat.add_le_add_left (remaining_pairedMap_le _ _) _).trans
        (hitems.length_calls.trans hlength)
  | @RunsForm.marked _ _ mark _ rest _ _ _ hskip hmark _ hform =>
      have hlength := (skipSeparators_suffix hskip).length_le
      have hcalls := hform.length_calls
      obtain ⟨c, tail, rfl, -⟩ := hmark.exists_opener
      rw [List.length_append, List.length_cons] at hlength
      rw [remaining_reading, List.length_cons]
      omega

theorem RunsItems.length_calls {level : Nat} {closer : Char} {before : List Value}
    {chars : List Char} {calls : List FormCall} {result : Reading (List Value)}
    (h : RunsItems level closer before chars calls result) :
    calls.length + result.remaining ≤ chars.length + 1 := by
  match h with
  | .ended _ => exact Nat.zero_le _
  | .closed hskip =>
      have hlength := length_lt_of_skip_cons hskip
      rw [List.length_nil, Reading.remaining]
      omega
  | .stuck hskip _ hform =>
      have hlength := (skipSeparators_suffix hskip).length_le
      have hcalls := hform.length_calls
      rw [Reading.remaining] at hcalls ⊢
      rw [List.length_cons]
      omega
  | .item hskip _ hform hitems =>
      have hlength := (skipSeparators_suffix hskip).length_le
      have hcalls := hform.length_calls
      have hlater := hitems.length_calls
      rw [Reading.remaining] at hcalls
      rw [List.length_cons, List.length_append]
      omega

end

/-- The calls are at these levels, on ends of the text. -/
def CallsWithin (low : Nat) (chars : List Char) (calls : List FormCall) : Prop :=
  ∀ call ∈ calls, low ≤ call.level ∧ call.level ≤ maxNesting ∧ call.chars <:+ chars

theorem CallsWithin.mono {low low' : Nat} {chars more : List Char} {calls : List FormCall}
    (h : CallsWithin low chars calls) (hlow : low' ≤ low) (hmore : chars <:+ more) :
    CallsWithin low' more calls := by
  intro call hcall
  obtain ⟨hlevel, hmax, hsuffix⟩ := h call hcall
  exact ⟨hlow.trans hlevel, hmax, hsuffix.trans hmore⟩

mutual

/-- The calls inside a form are deeper, and none is below the deepest level. -/
theorem RunsForm.callsWithin {level : Nat} {chars : List Char} {calls : List FormCall}
    {result : Reading Value} (h : RunsForm level chars calls result) :
    CallsWithin (level + 1) chars calls := by
  match h with
  | .tooDeep _ | .atom _ _ => exact fun _ hcall => by cases hcall
  | .list hlevel hskip hitems | .vector hlevel hskip hitems | .map hlevel hskip hitems =>
      exact (hitems.callsWithin hlevel).mono (Nat.le_refl _) (suffix_of_skip_cons hskip)
  | .marked hlevel hskip _ _ hform =>
      have hrest := suffix_of_skip hskip
      exact List.forall_mem_cons.mpr ⟨⟨Nat.le_refl _, hlevel, hrest⟩,
        hform.callsWithin.mono (Nat.le_succ _) hrest⟩

theorem RunsItems.callsWithin {level : Nat} {closer : Char} {before : List Value}
    {chars : List Char} {calls : List FormCall} {result : Reading (List Value)}
    (h : RunsItems level closer before chars calls result) (hlevel : level ≤ maxNesting) :
    CallsWithin level chars calls := by
  match h with
  | .ended _ | .closed _ => exact fun _ hcall => by cases hcall
  | .stuck hskip _ hform =>
      have hskipped := skipSeparators_suffix hskip
      exact List.forall_mem_cons.mpr ⟨⟨Nat.le_refl _, hlevel, hskipped⟩,
        hform.callsWithin.mono (Nat.le_succ _) hskipped⟩
  | .item hskip _ hform hitems =>
      have hskipped := skipSeparators_suffix hskip
      have hafter := (hform.advances.suffix _ _ rfl).trans hskipped
      refine List.forall_mem_cons.mpr ⟨⟨Nat.le_refl _, hlevel, hskipped⟩, ?_⟩
      exact List.forall_mem_append.mpr ⟨hform.callsWithin.mono (Nat.le_succ _) hskipped,
        (hitems.callsWithin hlevel).mono (Nat.le_refl _) hafter⟩

end

mutual

/-- How many levels of nesting a form has, of which a form without items takes one. -/
def Value.nesting : Value → Nat
  | .list items | .vector items | .map items => nestingOf items + 1
  | _ => 1

def nestingOf : List Value → Nat
  | [] => 0
  | form :: forms => max form.nesting (nestingOf forms)

end

mutual

theorem Readable.nesting_le {levels : Nat} {form : Value} (h : Readable levels form) :
    form.nesting ≤ levels := by
  match h with
  | .nil | .bool | .number | .string | .symbol _ => exact Nat.le_add_left 1 _
  | .list hitems | .vector hitems | .map _ hitems =>
      exact Nat.succ_le_succ hitems.nestingOf_le

theorem ReadableItems.nestingOf_le {levels : Nat} {items : List Value}
    (h : ReadableItems levels items) : nestingOf items ≤ levels := by
  match h with
  | .nil => exact Nat.zero_le _
  | .cons hitem hitems => exact Nat.max_le.mpr ⟨hitem.nesting_le, hitems.nestingOf_le⟩

end

/-- A form that is read at a level nests no deeper than there is room below it. -/
theorem RunsForm.nesting_le {level : Nat} {chars rest : List Char} {calls : List FormCall}
    {form : Value} (h : RunsForm level chars calls (.ok (form, rest))) :
    level + form.nesting ≤ maxNesting := by
  by_cases hlevel : level ≤ maxNesting
  · have hlevels : level + (maxNesting - level) = maxNesting := Nat.add_sub_cancel' hlevel
    have hread := h.readForm_eq (Nat.le_refl _)
    obtain ⟨_, _, -, -, hreads⟩ := readForm_sound hlevels _ _ _ hread
    have hnesting := (hreads.readable hlevels).nesting_le
    omega
  · have hread := h.readForm_eq (Nat.le_refl _)
    rw [Nat.sub_eq_zero_of_le (by omega)] at hread
    cases hread

/-- The reader goes on and ends, whatever the text and the level.  Separators are skipped by
rounds that each take a character, so that the loop over them never gives up.  Every call for
a form and every loop over forms ends, as the reader does when it has a step for each
character, and no call is below the deepest level.  What has been read, as it is or after a
mark, leaves a shorter end of the text, a fault is at an end of the text, and a form nests no
deeper than there is room for. -/
theorem reader_makes_progress_and_ends :
    (∀ chars, skipSeparators chars <:+ chars ∧
      ∀ ended, Loops separator? chars ended ↔ ended = some (skipSeparators chars)) ∧
    (∀ opening chars text,
      (∀ value rest, readString opening text chars = .ok (value, rest) →
        rest <:+ chars ∧ rest.length < chars.length) ∧
      ∀ stuck, readString opening text chars = .error stuck →
        stuck.rest = opening ∨ stuck.rest <:+ chars) ∧
    (∀ level chars,
      (∃ calls result, RunsForm level chars calls result) ∧
      ∀ calls result, RunsForm level chars calls result →
        (∀ steps, chars.length ≤ steps → readForm steps (maxNesting - level) chars = result) ∧
        Advances chars result ∧ (∀ name, Advances chars (reading (shorthand name) result)) ∧
        CallsWithin (level + 1) chars calls ∧ calls.length ≤ chars.length ∧
        ∀ form rest, result = .ok (form, rest) → level + form.nesting ≤ maxNesting) ∧
    ∀ level closer before chars, level ≤ maxNesting →
      (∃ calls result, RunsItems level closer before chars calls result) ∧
      ∀ calls result, RunsItems level closer before chars calls result →
        (∀ steps count, chars.length ≤ steps → chars.length < count →
          readItems (readForm steps (maxNesting - level)) closer count before chars = result) ∧
        Advances chars result ∧ CallsWithin level chars calls ∧
        calls.length ≤ chars.length + 1 := by
  refine ⟨fun chars => ⟨skipSeparators_suffix_self chars, fun _ => loops_separator?_iff⟩,
    fun _ _ _ => readString_advances, fun level chars => ?_, ?_⟩
  · refine ⟨exists_runsForm level chars, fun calls result h => ?_⟩
    refine ⟨fun _ => h.readForm_eq, h.advances, fun _ => h.advances.reading _, h.callsWithin,
      (Nat.le_add_right _ _).trans h.length_calls, ?_⟩
    rintro form rest rfl
    exact h.nesting_le
  · intro level closer before chars hlevel
    refine ⟨exists_runsItems (exists_runsForm level) closer before chars, fun calls result h => ?_⟩
    exact ⟨fun _ _ => h.readItems_eq, h.advances, h.callsWithin hlevel,
      (Nat.le_add_right _ _).trans h.length_calls⟩

/-- A list with a quoted symbol, two levels above the deepest. -/
def quotedInList : List Char := ['(', '\'', 'a', ')']

/-- The symbol is too deep there, and the loop over the forms of the list ends with it. -/
theorem reader_makes_progress_and_ends_quotedInList :
    (∃ calls, RunsForm 254 quotedInList calls (.error ⟨.tooDeep, ['a', ')']⟩) ∧
      calls.length ≤ 4 ∧ ['a', ')'] <:+ quotedInList) ∧
    ∃ calls, RunsItems 255 ')' [] quotedInList.tail calls (.error ⟨.tooDeep, ['a', ')']⟩) := by
  obtain ⟨-, -, hforms, hitems⟩ := reader_makes_progress_and_ends
  constructor
  · obtain ⟨⟨calls, result, hruns⟩, hall⟩ := hforms 254 quotedInList
    obtain ⟨hread, hadvances, -, -, hcount, -⟩ := hall calls result hruns
    have hresult : readForm 4 (maxNesting - 254) quotedInList =
        .error ⟨.tooDeep, ['a', ')']⟩ := rfl
    rw [hread 4 (by decide)] at hresult
    subst hresult
    exact ⟨calls, hruns, hcount, hadvances.stuck _ rfl⟩
  · obtain ⟨⟨calls, result, hruns⟩, hall⟩ :=
      hitems 255 ')' [] quotedInList.tail (by decide)
    have hresult : readItems (readForm 4 (maxNesting - 255)) ')' 4 [] quotedInList.tail =
        .error ⟨.tooDeep, ['a', ')']⟩ := rfl
    rw [(hall calls result hruns).1 4 4 (by decide) (by decide)] at hresult
    subst hresult
    exact ⟨calls, hruns⟩

end Lisplet
