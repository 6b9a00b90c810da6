/-
What more text can mend.  The reader's errors of one kind say that the text is the
beginning of a form; those of the other kinds stay what they are whatever more
text follows, since where the reader stops nothing has been looked at that comes
later.  An integer beyond the range is in between: while the text ends with it,
more characters can make a symbol of it.
-/
import Lisplet.Proofs.Completion

namespace Lisplet

theorem skipSeparators_append {text skipped : List Char} (hskip : skipSeparators text = skipped)
    (hne : skipped ≠ []) (more : List Char) :
    skipSeparators (text ++ more) = skipped ++ more := by
  obtain ⟨gap, hgap, hseparators⟩ := separators_before hskip hne
  have hatForm : AtForm (skipped ++ more) := by
    have hskipped := (atForm_skipped text).1
    rw [hskip] at hskipped
    rcases skipped with _ | ⟨c, skipped⟩
    · exact (hne rfl).elim
    · exact atForm_cons.mpr (atForm_cons.mp hskipped)
  rw [hgap, (hseparators more).skip, skipSeparators_of_atForm hatForm]

/-- The fault is there to stay: it is not that the text ends, and if it is about a
token, the token does not end with the text. -/
structure Stuck.IsFinal (stuck : Stuck) : Prop where
  kind : stuck.fault.kind ≠ .incomplete
  integer : stuck.fault = .integerOutOfRange → stuck.rest.dropWhile isTokenChar ≠ []

/-- Without any text nothing is wrong but its end, or the level. -/
theorem Sticks.tooDeep_of_nil {level : Nat} {stuck : Stuck} (h : Sticks level [] stuck)
    (hfinal : stuck.IsFinal) : stuck.fault = .tooDeep ∧ maxNesting ≤ level := by
  cases h with
  | tooDeep hlevel => exact ⟨rfl, hlevel⟩
  | ended => exact (hfinal.kind rfl).elim
  | unclosed _ hskip _ | badEscape _ hskip _ | closer _ hskip _ | metadata _ hskip
  | bracketed _ hskip _ _ | unpaired _ hskip _ _ => cases hskip
  | integer _ hskip hinteger _ _ =>
      have hnil := (List.append_eq_nil_iff.mp hskip.symm).1
      exact (hinteger.tokenChars.1 hnil).elim
  | marked _ hskip hmark _ _ => cases hmark <;> cases hskip

theorem SticksInside.ne_nil {level : Nat} {closer : Char} {text : List Char} {stuck : Stuck}
    (h : SticksInside level closer text stuck) (hfinal : stuck.IsFinal) : text ≠ [] := by
  cases h with
  | ended => exact (hfinal.kind rfl).elim
  | item hskip _ _ => exact ne_nil_of_skip hskip (List.cons_ne_nil _ _)
  | later hskip hitem _ =>
      obtain ⟨c, tail, rfl, -⟩ := hitem.head
      exact ne_nil_of_skip hskip (List.cons_ne_nil _ _)

mutual

/-- The reader gets stuck with the same fault in every longer text. -/
theorem Sticks.prolong {level : Nat} {text : List Char} {stuck : Stuck}
    (h : Sticks level text stuck) (hfinal : stuck.IsFinal) (more : List Char) :
    ∃ rest, Sticks level (text ++ more) ⟨stuck.fault, rest⟩ := by
  match h with
  | .tooDeep hlevel => exact ⟨_, .tooDeep hlevel⟩
  | .ended _ _ | .unclosed _ _ _ => exact (hfinal.kind rfl).elim
  | .badEscape hlevel hskip ⟨body, inner, escaped, tail, hbody, hrest, hafter, hescaped⟩ =>
      have hskip' := skipSeparators_append hskip (List.cons_ne_nil _ _) more
      rw [hrest, hafter, List.cons_append, List.append_assoc] at hskip'
      exact ⟨_, .badEscape hlevel hskip' ⟨body, inner, escaped, _, hbody, rfl, rfl, hescaped⟩⟩
  | .closer hlevel hskip hc =>
      exact ⟨_, .closer hlevel (skipSeparators_append hskip (List.cons_ne_nil _ _) more) hc⟩
  | .metadata hlevel hskip =>
      exact ⟨_, .metadata hlevel (skipSeparators_append hskip (List.cons_ne_nil _ _) more)⟩
  | @Sticks.integer _ _ token _ rest hlevel hskip hinteger hrange hrest =>
      obtain ⟨hne, hchars⟩ := hinteger.tokenChars
      have hrest' : rest ≠ [] := by
        have hdrop := (takeWhile_token (fun c hc => (hchars c hc).1) hrest).2
        rw [← hdrop]
        exact hfinal.integer rfl
      have hskip' := skipSeparators_append hskip (List.append_ne_nil_of_left_ne_nil hne rest) more
      rw [List.append_assoc] at hskip'
      refine ⟨_, .integer hlevel hskip' hinteger hrange fun c hc => ?_⟩
      rcases beginsLike_append hrest' more c hc with hold | rfl
      · exact hrest c hold
      · decide
  | .bracketed hlevel hskip hbracket hinside =>
      obtain ⟨rest, hinside'⟩ := hinside.prolong hfinal more
      have hskip' := skipSeparators_append hskip (List.cons_ne_nil _ _) more
      exact ⟨rest, .bracketed hlevel hskip' hbracket hinside'⟩
  | .unpaired hlevel hskip hentries hodd =>
      have hskip' := skipSeparators_append hskip (List.cons_ne_nil _ _) more
      rw [List.cons_append, List.append_assoc] at hskip'
      have hentries' := hentries.followed (beginsLike_append (List.cons_ne_nil _ _) more)
      exact ⟨_, .unpaired hlevel hskip' hentries' hodd⟩
  | @Sticks.marked _ _ mark _ rest _ hlevel hskip hmark hprefer hform =>
      have hne : mark ++ rest ≠ [] := by cases hmark <;> simp
      have hskip' := skipSeparators_append hskip hne more
      rw [List.append_assoc] at hskip'
      obtain ⟨rest', hform'⟩ := hform.prolong hfinal more
      rcases rest with _ | ⟨c, rest⟩
      · -- A tilde at the end can become the mark of two characters, at the same level.
        obtain ⟨hfault, hdeep⟩ := hform.tooDeep_of_nil hfinal
        rw [hfault]
        by_cases hsplice : mark = ['~'] ∧ more.head? = some '@'
        · obtain ⟨rfl, hat⟩ := hsplice
          obtain ⟨tail, rfl⟩ := List.head?_eq_some_iff.mp hat
          have hmark' : skipSeparators (text ++ '@' :: tail) = ['~', '@'] ++ tail := hskip'
          exact ⟨_, .marked hlevel hmark' .spliceUnquote (by simp) (.tooDeep hdeep)⟩
        · exact ⟨_, .marked hlevel hskip' hmark (not_and.mp hsplice) (.tooDeep hdeep)⟩
      · exact ⟨rest', .marked hlevel hskip' hmark hprefer hform'⟩

theorem SticksInside.prolong {level : Nat} {closer : Char} {text : List Char} {stuck : Stuck}
    (h : SticksInside level closer text stuck) (hfinal : stuck.IsFinal) (more : List Char) :
    ∃ rest, SticksInside level closer (text ++ more) ⟨stuck.fault, rest⟩ := by
  match h with
  | .ended _ => exact (hfinal.kind rfl).elim
  | .item hskip hc hitem =>
      obtain ⟨rest, hitem'⟩ := hitem.prolong hfinal more
      exact ⟨rest, .item (skipSeparators_append hskip (List.cons_ne_nil _ _) more) hc hitem'⟩
  | @SticksInside.later _ _ _ inner _ _ _ hskip hitem hrest =>
      obtain ⟨rest, hrest'⟩ := hrest.prolong hfinal more
      have hitem' := hitem.followed (beginsLike_append (hrest.ne_nil hfinal) more)
      have hne := List.append_ne_nil_of_right_ne_nil inner (hrest.ne_nil hfinal)
      have hskip' := skipSeparators_append hskip hne more
      rw [List.append_assoc] at hskip'
      exact ⟨rest, .later hskip' hitem' hrest'⟩

end

theorem skipSeparators_suffix {text skipped : List Char} (hskip : skipSeparators text = skipped) :
    skipped <:+ text := by
  obtain ⟨gap, hgap, -⟩ := exists_separators text
  rw [hskip] at hgap
  exact ⟨gap, hgap.symm⟩

mutual

/-- What is left where the reader got stuck is the end of the text. -/
theorem Sticks.suffix {level : Nat} {text : List Char} {stuck : Stuck}
    (h : Sticks level text stuck) : stuck.rest <:+ text := by
  match h with
  | .tooDeep _ => exact List.suffix_rfl
  | .ended _ _ => exact List.nil_suffix
  | .unclosed _ hskip _ | .closer _ hskip _ | .metadata _ hskip | .integer _ hskip _ _ _
  | .unpaired _ hskip _ _ => exact skipSeparators_suffix hskip
  | .badEscape _ hskip ⟨body, _, _, _, _, hrest, _, _⟩ =>
      rw [hrest] at hskip
      exact (List.suffix_append ('"' :: body) _).trans (skipSeparators_suffix hskip)
  | .bracketed _ hskip _ hinside =>
      exact hinside.suffix.trans
        ((List.suffix_cons _ _).trans (skipSeparators_suffix hskip))
  | .marked _ hskip _ _ hform =>
      exact hform.suffix.trans ((List.suffix_append _ _).trans (skipSeparators_suffix hskip))

theorem SticksInside.suffix {level : Nat} {closer : Char} {text : List Char} {stuck : Stuck}
    (h : SticksInside level closer text stuck) : stuck.rest <:+ text := by
  match h with
  | .ended _ => exact List.nil_suffix
  | .item hskip _ hitem => exact hitem.suffix.trans (skipSeparators_suffix hskip)
  | .later hskip _ hrest =>
      exact hrest.suffix.trans ((List.suffix_append _ _).trans (skipSeparators_suffix hskip))

end

/-- The text begins with an integer beyond the range of numbers, and `after` is what
follows it. -/
def LargeInteger (text token after : List Char) : Prop :=
  text = token ++ after ∧ (∃ n, IntegerText token n ∧ int64? n = none) ∧ EndsToken after

mutual

/-- An integer that is refused stands where the reader got stuck. -/
theorem Sticks.integer_of_fault {level : Nat} {text : List Char} {stuck : Stuck}
    (h : Sticks level text stuck) (hfault : stuck.fault = .integerOutOfRange) :
    ∃ token after, LargeInteger stuck.rest token after := by
  match h with
  | .integer _ _ hinteger hrange hrest => exact ⟨_, _, rfl, ⟨_, hinteger, hrange⟩, hrest⟩
  | .bracketed _ _ _ hinside => exact hinside.integer_of_fault hfault
  | .marked _ _ _ _ hform => exact hform.integer_of_fault hfault
  | .tooDeep _ | .ended _ _ | .unclosed _ _ _ | .badEscape _ _ _ | .closer _ _ _
  | .metadata _ _ | .unpaired _ _ _ _ => cases hfault

theorem SticksInside.integer_of_fault {level : Nat} {closer : Char} {text : List Char}
    {stuck : Stuck} (h : SticksInside level closer text stuck)
    (hfault : stuck.fault = .integerOutOfRange) :
    ∃ token after, LargeInteger stuck.rest token after := by
  match h with
  | .ended _ => cases hfault
  | .item _ _ hitem => exact hitem.integer_of_fault hfault
  | .later _ _ hrest => exact hrest.integer_of_fault hfault

end

/-- The error points at an integer beyond the range of numbers, which stands in the
text after `before` and before `after`. -/
structure PointsAtInteger (text : String) (cause : ReadError) (before token after : List Char) :
    Prop where
  split : text.toList = before ++ (token ++ after)
  integer : ∃ n, IntegerText token n ∧ (n < Int64.minValue.toInt ∨ Int64.maxValue.toInt < n)
  ends : EndsToken after
  cause : cause = .atOffset .implementationLimit
    ("Integer literal out of range at position " ++ toString (byteLength before)) text
    (byteLength before)

theorem offsetOf_append {text : String} {before rest : List Char}
    (h : text.toList = before ++ rest) : offsetOf text rest = byteLength before := by
  rw [offsetOf, h, byteLength_append, Nat.add_sub_cancel]

/-- An error about an integer points at it. -/
theorem Sticks.pointsAtInteger {text : String} {stuck : Stuck} (h : Sticks 0 text.toList stuck)
    (hfault : stuck.fault = .integerOutOfRange) :
    ∃ before token after, stuck.rest = token ++ after ∧
      PointsAtInteger text (stuck.error text) before token after := by
  obtain ⟨before, hbefore⟩ := h.suffix
  obtain ⟨token, after, hrest, ⟨n, hinteger, hrange⟩, hends⟩ := h.integer_of_fault hfault
  refine ⟨before, token, after, hrest, ?_, ⟨n, hinteger, int64?_eq_none_iff.mp hrange⟩, hends, ?_⟩
  · rw [← hbefore, hrest]
  · rw [Stuck.error, offsetOf_append hbefore.symm, hfault]
    rfl

/-- The text is in error, of that kind. -/
def FailsWith (kind : ReadErrorKind) (text : String) : Prop :=
  ∃ cause, readWhole text = .error cause ∧ cause.kind = kind

theorem Sticks.failsWith {text : String} {stuck : Stuck}
    (hskip : skipSeparators text.toList ≠ []) (h : Sticks 0 text.toList stuck) :
    readWhole text = .error (stuck.error text) :=
  readWhole_of_leading_error (readLeading_eq_error_iff.mpr (.inr ⟨hskip, stuck, h, rfl⟩))

theorem skipSeparators_append_ne_nil {text : List Char} (h : skipSeparators text ≠ [])
    (more : List Char) : skipSeparators (text ++ more) ≠ [] := by
  rw [skipSeparators_append rfl h]
  exact List.append_ne_nil_of_left_ne_nil h more

/-- A fault that is there to stay is there in every longer text. -/
theorem Sticks.failsWith_append {text : String} {stuck : Stuck}
    (hskip : skipSeparators text.toList ≠ []) (h : Sticks 0 text.toList stuck)
    (hfinal : stuck.IsFinal) (more : String) : FailsWith stuck.fault.kind (text ++ more) := by
  obtain ⟨rest, hmore⟩ := h.prolong hfinal more.toList
  rw [← String.toList_append] at hmore
  have hskip' := skipSeparators_append_ne_nil hskip more.toList
  rw [← String.toList_append] at hskip'
  exact ⟨_, hmore.failsWith hskip', rfl⟩

/-- What follows the first form still does so in every longer text. -/
theorem trailing_append {text : String} {form : Value} {rest : List Char}
    (h : readLeading text = .ok (form, rest)) (hrest : ¬ Separators rest []) (more : String) :
    FailsWith .trailingContent (text ++ more) := by
  rw [← skipSeparators_eq_nil_iff] at hrest
  have hne := ne_nil_of_skip rfl hrest
  obtain ⟨gap, inner, htext, hgap, hinner⟩ := readLeading_eq_ok_iff.mp h
  have hlonger : readLeading (text ++ more) = .ok (form, rest ++ more.toList) := by
    refine readLeading_eq_ok_iff.mpr ⟨gap, inner, ?_, ?_, ?_⟩
    · rw [String.toList_append, htext, List.append_assoc, List.append_assoc]
    · exact hgap.followed ((beginsLike_append hne _).append_left inner)
    · exact hinner.followed (beginsLike_append hne _)
  obtain ⟨hnil, -⟩ | ⟨-, htrailing⟩ := readWhole_of_leading hlonger
  · rw [← skipSeparators_eq_nil_iff] at hnil
    exact (skipSeparators_append_ne_nil hrest _ hnil).elim
  · exact htrailing

/-- An error is that there is no form, that the reader got stuck, or that more
follows the first form. -/
theorem readWhole_error_cases {text : String} {cause : ReadError}
    (h : readWhole text = .error cause) :
    skipSeparators text.toList = [] ∧ cause.kind = .noForm ∨
    (∃ stuck, skipSeparators text.toList ≠ [] ∧ Sticks 0 text.toList stuck ∧
      cause = stuck.error text) ∨
    ∃ form rest, readLeading text = .ok (form, rest) ∧ ¬ Separators rest [] ∧
      cause.kind = .trailingContent := by
  rcases hleading : readLeading text with cause' | ⟨form, rest⟩
  · rw [readWhole_of_leading_error hleading] at h
    cases h
    obtain ⟨hnil, rfl⟩ | ⟨hskip, stuck, hsticks, rfl⟩ := readLeading_eq_error_iff.mp hleading
    · exact .inl ⟨hnil, rfl⟩
    · exact .inr (.inl ⟨stuck, hskip, hsticks, rfl⟩)
  · obtain ⟨-, hwhole⟩ | ⟨hrest, cause', hwhole, hkind⟩ := readWhole_of_leading hleading
    · rw [hwhole] at h
      cases h
    · rw [hwhole] at h
      cases h
      exact .inr (.inr ⟨form, rest, rfl, hrest, hkind⟩)

/-- A completion of the characters makes a text that is one form. -/
theorem CompletedBy.readWhole {text : String} {more : List Char}
    (h : CompletedBy 0 text.toList more) : ∃ more form, readWhole (text ++ more) = .ok form := by
  obtain ⟨-, gap, inner, form, hsplit, hreads⟩ := h
  obtain ⟨hgap, hinner⟩ := hreads []
  refine ⟨.ofList more, form, readWhole_eq_ok_iff.mpr ⟨gap, inner, [], ?_, hgap, hinner, .nil⟩⟩
  rw [String.toList_append, String.toList_ofList, hsplit, List.append_nil]

/-- The kind of an error tells what more text can do.  A text that is incomplete or
holds no form can be gone on with to be one form; an error of any other kind stays
in every longer text, except that an integer beyond the range may be no integer
yet where the text ends with it. -/
theorem readWhole_error_foresees_more_text (text : String) (cause : ReadError)
    (h : readWhole text = .error cause) :
    (cause.kind = .incomplete ∨ cause.kind = .noForm →
      ∃ more form, readWhole (text ++ more) = .ok form) ∧
    (cause.kind = .invalidSyntax ∨ cause.kind = .tooDeeplyNested ∨ cause.kind = .unsupported ∨
        cause.kind = .trailingContent → ∀ more, FailsWith cause.kind (text ++ more)) ∧
    (cause.kind = .implementationLimit →
      ∃ before token after, PointsAtInteger text cause before token after ∧
        (after ≠ [] → ∀ more, FailsWith .implementationLimit (text ++ more))) := by
  obtain ⟨hnil, hkind⟩ | ⟨stuck, hskip, hsticks, rfl⟩ | ⟨form, rest, hleading, hrest, hkind⟩ :=
    readWhole_error_cases h
  · refine ⟨fun _ => ?_, ?_, ?_⟩
    · exact (CompletedBy.of_separators (by decide) hnil).readWhole
    · simp [hkind]
    · simp [hkind]
  · have hfault : (stuck.error text).kind = stuck.fault.kind := rfl
    rw [hfault]
    refine ⟨fun hkind => ?_, fun hkind => ?_, fun hkind => ?_⟩
    · obtain ⟨more, hmore⟩ :=
        hsticks.completes (hkind.resolve_right stuck.fault.kind_ne_noForm)
      exact hmore.readWhole
    · refine hsticks.failsWith_append hskip ⟨?_, ?_⟩
      · rintro hincomplete
        simp [hincomplete] at hkind
      · intro hinteger
        simp [hinteger, ReadFault.kind] at hkind
    · have hinteger : stuck.fault = .integerOutOfRange := by
        generalize stuck.fault = fault at hkind
        cases fault <;> first | rfl | cases hkind
      obtain ⟨before, token, after, hsplit, hpoints⟩ := hsticks.pointsAtInteger hinteger
      refine ⟨before, token, after, hpoints, fun hafter more => ?_⟩
      rw [← hkind]
      refine hsticks.failsWith_append hskip ⟨?_, fun _ => ?_⟩ more
      · rw [hkind]
        decide
      · obtain ⟨n, htoken, -⟩ := hpoints.integer
        rw [hsplit, (takeWhile_token (fun c hc => (htoken.tokenChars.2 c hc).1) hpoints.ends).2]
        exact hafter
  · refine ⟨?_, fun _ more => ?_, ?_⟩
    · simp [hkind]
    · rw [hkind]
      exact trailing_append hleading hrest more
    · simp [hkind]

/-- A string that is open inside a list, up to a backslash. -/
def openText : String := "(a \"b\\"

theorem readWhole_error_foresees_more_text_openText :
    (∃ cause, readWhole openText = .error cause ∧ cause.kind = .incomplete) ∧
      ∃ more form, readWhole (openText ++ more) = .ok form := by
  have hskip : skipSeparators openText.toList = ['(', 'a', ' ', '"', 'b', '\\'] := by decide
  have hread : readForm (openText.length + 1) maxNesting ['(', 'a', ' ', '"', 'b', '\\'] =
      .error ⟨.unclosedString, ['"', 'b', '\\']⟩ := by
    rw [show openText.length + 1 = 7 by decide]
    rfl
  have hleading := readLeading_of_cons hskip
  rw [hread] at hleading
  have hwhole := readWhole_of_leading_error hleading
  have hforesees := readWhole_error_foresees_more_text openText _ hwhole
  exact ⟨⟨_, hwhole, rfl⟩, hforesees.1 (.inl rfl)⟩

end Lisplet
