/-
Culprits.  An error of reading names a place in the text, and what stands there is what
is wrong.  The way to the place goes through brackets and marks that are still open, past
the forms that were complete; so it can be said of every character what the innermost
thing open is where it stands.
-/
import Lisplet.Proofs.FirstForm

namespace Lisplet

/-- What is open: a bracket, which the character closes, or a mark without its form. -/
inductive Enclosure where
  | bracket (closer : Char)
  | mark (name : String)

/-- Between the text before and what comes next these are open, the innermost first:
the text before is their openers, with separators and, inside brackets, complete forms
after them. -/
inductive Within : (opened : List Enclosure) → (before next : List Char) → Prop
  | outermost {next} : Within [] [] next
  | separators {opened before gap next} (h : Within opened before (gap ++ next))
      (hgap : Separators gap next) : Within opened (before ++ gap) next
  | bracket {opened before opener closer empty next} (h : Within opened before (opener :: next))
      (hroom : opened.length < maxNesting) (hbracket : Bracket opener closer [] empty) :
      Within (.bracket closer :: opened) (before ++ [opener]) next
  /-- A mark is gone past if there is a level left for its form. -/
  | mark {opened before mark name next} (h : Within opened before (mark ++ next))
      (hroom : opened.length + 1 < maxNesting) (hmark : Mark mark name)
      (hprefer : mark = ['~'] → next.head? ≠ some '@') :
      Within (.mark name :: opened) (before ++ mark) next
  | item {closer outer before text form next}
      (h : Within (.bracket closer :: outer) before (text ++ next))
      (hitem : Reads Token (outer.length + 1) text form next) :
      Within (.bracket closer :: outer) (before ++ text) next

/-- The character does not close the innermost thing that is open: nothing is, or a
bracket that it does not fit, or a mark, which no character closes. -/
def DoesNotClose (c : Char) : List Enclosure → Prop
  | [] | .mark _ :: _ => True
  | .bracket closer :: _ => c ≠ closer

/-- What is wrong at an offset, where the text before it ends and `rest` begins: the kind
of error, and the message. -/
inductive Culprit (offset : Nat) : (before rest : List Char) → ReadErrorKind → String → Prop
  | ended {opened before} (h : Within opened before []) (hopened : opened ≠ []) :
      Culprit offset before [] .incomplete "unbalanced: unexpected end of input"
  /-- The opening quote of a string without a closing one. -/
  | unclosed {opened before rest} (h : Within opened before ('"' :: rest))
      (hroom : opened.length < maxNesting) (hunclosed : Unclosed rest) :
      Culprit offset before ('"' :: rest) .incomplete
        "unbalanced string: missing closing '\"'"
  /-- The backslash in a string, before a character that it cannot stand before. -/
  | badEscape {opened before body inner escaped rest}
      (h : Within opened before ('"' :: (body ++ '\\' :: escaped :: rest)))
      (hroom : opened.length < maxNesting) (hbody : StringBody body inner)
      (hescaped : unescapeChar? escaped = none) :
      Culprit offset (before ++ '"' :: body) ('\\' :: escaped :: rest) .invalidSyntax
        ("Unknown escape sequence in string at position " ++ toString offset)
  /-- A closing bracket that nothing open waits for. -/
  | closer {opened before c rest} (h : Within opened before (c :: rest))
      (hroom : opened.length < maxNesting) (hc : c ∈ closers) (hclose : DoesNotClose c opened) :
      Culprit offset before (c :: rest) .invalidSyntax
        ("Unexpected closing delimiter at position " ++ toString offset)
  /-- The opening brace of a map with an odd number of forms. -/
  | unpaired {opened before body entries rest}
      (h : Within opened before ('\x7b' :: (body ++ '\x7d' :: rest)))
      (hroom : opened.length < maxNesting)
      (hentries : ReadsItems Token (opened.length + 1) body entries ('\x7d' :: rest))
      (hodd : entries.length % 2 = 1) :
      Culprit offset before ('\x7b' :: (body ++ '\x7d' :: rest)) .invalidSyntax
        "Map literal requires an even number of forms"
  /-- The first character of an integer beyond the range of numbers. -/
  | integer {opened before token n rest} (h : Within opened before (token ++ rest))
      (hroom : opened.length < maxNesting) (hinteger : IntegerText token n)
      (hrange : n < Int64.minValue.toInt ∨ Int64.maxValue.toInt < n) (hrest : EndsToken rest) :
      Culprit offset before (token ++ rest) .implementationLimit
        ("Integer literal out of range at position " ++ toString offset)
  | metadata {opened before rest} (h : Within opened before ('^' :: rest))
      (hroom : opened.length < maxNesting) :
      Culprit offset before ('^' :: rest) .unsupported
        "Metadata reader macro '^' is not supported"
  /-- What begins inside the innermost brackets there can be. -/
  | tooDeep {closer outer before c rest} (h : Within (.bracket closer :: outer) before (c :: rest))
      (hlevel : outer.length + 1 = maxNesting) (hc : NoSeparator c) (hclose : c ≠ closer) :
      Culprit offset before (c :: rest) .tooDeeplyNested
        "Expression too deeply nested (max depth: 256)"
  /-- What comes after a mark at the last level. -/
  | tooDeepMark {opened before mark name rest} (h : Within opened before (mark ++ rest))
      (hlevel : opened.length + 1 = maxNesting) (hmark : Mark mark name)
      (hprefer : mark = ['~'] → rest.head? ≠ some '@') :
      Culprit offset (before ++ mark) rest .tooDeeplyNested
        "Expression too deeply nested (max depth: 256)"
  | trailing {form before rest} (h : FormThenMore form before rest) :
      Culprit offset before rest .trailingContent
        ("Unexpected remaining input: '" ++ trimEnd (.ofList rest) ++ "'")

/-- A mark that is open leaves a level for its form, and has only separators after it. -/
theorem Within.after_mark {name : String} {outer : List Enclosure} {before next : List Char}
    (h : Within (.mark name :: outer) before next) :
    outer.length + 1 < maxNesting ∧ ∃ passed mark gap, before = passed ++ (mark ++ gap) ∧
      Mark mark name ∧ Separators gap next := by
  generalize hopened : Enclosure.mark name :: outer = opened at h
  induction h with
  | outermost | bracket | item => cases hopened
  | separators h hgap ih =>
      obtain ⟨hroom, passed, mark, gap', rfl, hmark, hgap'⟩ := ih hopened
      refine ⟨hroom, passed, mark, gap' ++ _, ?_, hmark, hgap'.append hgap⟩
      rw [List.append_assoc, List.append_assoc]
  | mark h hroom hmark hprefer ih =>
      cases hopened
      exact ⟨hroom, _, _, [], by rw [List.append_nil], hmark, .nil⟩

theorem Within.closer_mem {closer : Char} {outer : List Enclosure} {before next : List Char}
    (h : Within (.bracket closer :: outer) before next) : closer ∈ closers := by
  generalize hopened : Enclosure.bracket closer :: outer = opened at h
  induction h with
  | outermost | mark => cases hopened
  | bracket h hroom hbracket ih =>
      cases hopened
      exact hbracket.closer_mem
  | separators h hgap ih | item h hitem ih => exact ih hopened

/-- Only closing brackets close what is open. -/
theorem Within.doesNotClose {opened : List Enclosure} {before next : List Char}
    (h : Within opened before next) {c : Char} (hc : c ∉ closers) : DoesNotClose c opened := by
  match opened with
  | [] | .mark _ :: _ => trivial
  | .bracket closer :: outer =>
      rintro rfl
      exact hc h.closer_mem

/-- The separators that come next may be gone past. -/
theorem Within.skip {opened : List Enclosure} {before text skipped : List Char}
    (h : Within opened before text) (hskip : skipSeparators text = skipped) :
    ∃ passed, before ++ text = passed ++ skipped ∧ Within opened passed skipped := by
  obtain ⟨gap, hgap, hseparators⟩ := exists_separators text
  rw [hskip] at hgap hseparators
  subst hgap
  exact ⟨before ++ gap, (List.append_assoc _ _ _).symm, h.separators hseparators⟩

/-- What the reader got stuck at is a culprit, with the text up to it. -/
def Stuck.IsCulprit (stuck : Stuck) (text : List Char) : Prop :=
  ∃ before, text = before ++ stuck.rest ∧
    Culprit (byteLength before) before stuck.rest stuck.fault.kind
      (stuck.fault.message (byteLength before))

theorem message_tooDeep (offset : Nat) :
    ReadFault.tooDeep.message offset = "Expression too deeply nested (max depth: 256)" := by
  have hmessage : "Expression too deeply nested (max depth: " ++ toString maxNesting ++ ")" =
      "Expression too deeply nested (max depth: 256)" := by decide
  exact hmessage

mutual

/-- Where the reader gets stuck in a form is a culprit. -/
theorem Sticks.isCulprit {level : Nat} {text : List Char} {stuck : Stuck}
    (h : Sticks level text stuck) {opened : List Enclosure} {before : List Char}
    (hwithin : Within opened before text) (hlevel : opened.length = level)
    (hroom : opened.length < maxNesting) (hform : opened = [] → skipSeparators text ≠ [])
    (hclose : ∀ c, (skipSeparators text).head? = some c → DoesNotClose c opened) :
    stuck.IsCulprit (before ++ text) := by
  match h with
  | .tooDeep hdeep => omega
  | .ended _ hskip =>
      obtain ⟨passed, hsplit, hhere⟩ := hwithin.skip hskip
      exact ⟨passed, hsplit, .ended hhere fun hopened => hform hopened hskip⟩
  | .unclosed _ hskip hunclosed =>
      obtain ⟨passed, hsplit, hhere⟩ := hwithin.skip hskip
      exact ⟨passed, hsplit, .unclosed hhere hroom hunclosed⟩
  | .badEscape _ hskip ⟨body, inner, escaped, after, hbody, hrest, hafter, hescaped⟩ =>
      obtain ⟨passed, hsplit, hhere⟩ := hwithin.skip hskip
      subst hrest hafter
      refine ⟨passed ++ '"' :: body, ?_, .badEscape hhere hroom hbody hescaped⟩
      rw [hsplit, List.append_assoc]
      rfl
  | .closer _ hskip hc =>
      obtain ⟨passed, hsplit, hhere⟩ := hwithin.skip hskip
      rw [hskip] at hclose
      exact ⟨passed, hsplit, .closer hhere hroom hc (hclose _ rfl)⟩
  | .metadata _ hskip =>
      obtain ⟨passed, hsplit, hhere⟩ := hwithin.skip hskip
      exact ⟨passed, hsplit, .metadata hhere hroom⟩
  | .integer _ hskip hinteger hrange hrest =>
      obtain ⟨passed, hsplit, hhere⟩ := hwithin.skip hskip
      exact ⟨passed, hsplit, .integer hhere hroom hinteger (int64?_eq_none_iff.mp hrange) hrest⟩
  | .unpaired _ hskip hentries hodd =>
      obtain ⟨passed, hsplit, hhere⟩ := hwithin.skip hskip
      rw [← hlevel] at hentries
      exact ⟨passed, hsplit, .unpaired hhere hroom hentries hodd⟩
  | .bracketed _ hskip hbracket hinside =>
      obtain ⟨passed, hsplit, hhere⟩ := hwithin.skip hskip
      rw [hsplit, List.append_cons]
      exact hinside.isCulprit (hhere.bracket hroom hbracket) (by omega) hroom
  | .marked _ hskip hmark hprefer hinner =>
      obtain ⟨passed, hsplit, hhere⟩ := hwithin.skip hskip
      rw [hsplit, ← List.append_assoc]
      by_cases hroom' : opened.length + 1 < maxNesting
      · have hlevel' : opened.length + 1 = level + 1 := by omega
        exact hinner.isCulprit (hhere.mark hroom' hmark hprefer) hlevel' hroom'
          (fun hnil => nomatch hnil) (fun _ _ => trivial)
      · -- The mark leaves no level for a form, whatever comes after it.
        cases hinner with
        | tooDeep =>
            refine ⟨_, rfl, ?_⟩
            rw [message_tooDeep]
            exact .tooDeepMark hhere (by omega) hmark hprefer
        | _ => omega

theorem SticksInside.isCulprit {level : Nat} {closer : Char} {text : List Char} {stuck : Stuck}
    (h : SticksInside level closer text stuck) {outer : List Enclosure} {before : List Char}
    (hwithin : Within (.bracket closer :: outer) before text) (hlevel : outer.length + 1 = level)
    (hroom : outer.length < maxNesting) : stuck.IsCulprit (before ++ text) := by
  match h with
  | .ended hskip =>
      obtain ⟨passed, hsplit, hhere⟩ := hwithin.skip hskip
      exact ⟨passed, hsplit, .ended hhere (List.cons_ne_nil _ _)⟩
  | .item hskip hc hitem =>
      have hatForm := (atForm_skipped text).1
      obtain ⟨passed, hsplit, hhere⟩ := hwithin.skip hskip
      rw [hskip] at hatForm
      rw [hsplit]
      by_cases hroom' : outer.length + 1 < maxNesting
      · refine hitem.isCulprit hhere hlevel hroom' (fun hnil => nomatch hnil) fun d hd => ?_
        rw [skipSeparators_of_atForm hatForm] at hd
        cases hd
        exact hc
      · cases hitem with
        | tooDeep =>
            refine ⟨_, rfl, ?_⟩
            rw [message_tooDeep]
            exact .tooDeep hhere (by omega) (atForm_cons.mp hatForm) hc
        | _ => omega
  | .later hskip hitem hrest =>
      obtain ⟨passed, hsplit, hhere⟩ := hwithin.skip hskip
      rw [← hlevel] at hitem
      rw [hsplit, ← List.append_assoc]
      exact hrest.isCulprit (hhere.item hitem) hlevel hroom

end

theorem skipSeparators_cons {c : Char} (hc : NoSeparator c) (rest : List Char) :
    skipSeparators (c :: rest) = c :: rest :=
  skipSeparators_of_atForm (atForm_cons.mpr hc)

theorem Sticks.of_skip {level : Nat} {text text' : List Char} {stuck : Stuck}
    (h : Sticks level text stuck) (hlevel : level < maxNesting)
    (hskip : skipSeparators text' = skipSeparators text) : Sticks level text' stuck := by
  cases h with
  | tooDeep hdeep => omega
  | ended _ h => exact .ended hlevel (hskip.trans h)
  | unclosed _ h hunclosed => exact .unclosed hlevel (hskip.trans h) hunclosed
  | badEscape _ h hescape => exact .badEscape hlevel (hskip.trans h) hescape
  | closer _ h hc => exact .closer hlevel (hskip.trans h) hc
  | metadata _ h => exact .metadata hlevel (hskip.trans h)
  | integer _ h hinteger hrange hrest =>
      exact .integer hlevel (hskip.trans h) hinteger hrange hrest
  | bracketed _ h hbracket hinside => exact .bracketed hlevel (hskip.trans h) hbracket hinside
  | unpaired _ h hentries hodd => exact .unpaired hlevel (hskip.trans h) hentries hodd
  | marked _ h hmark hprefer hform =>
      exact .marked hlevel (hskip.trans h) hmark hprefer hform

theorem SticksInside.of_skip {level : Nat} {closer : Char} {text text' : List Char}
    {stuck : Stuck} (h : SticksInside level closer text stuck)
    (hskip : skipSeparators text' = skipSeparators text) :
    SticksInside level closer text' stuck := by
  cases h with
  | ended h => exact .ended (hskip.trans h)
  | item h hc hitem => exact .item (hskip.trans h) hc hitem
  | later h hitem hrest => exact .later (hskip.trans h) hitem hrest

/-- How the reader gets stuck in a text with these things open before it. -/
def StuckIn : List Enclosure → List Char → Stuck → Prop
  | [], text, stuck => skipSeparators text ≠ [] ∧ Sticks 0 text stuck
  | .mark _ :: outer, text, stuck =>
      outer.length + 1 < maxNesting ∧ Sticks (outer.length + 1) text stuck
  | .bracket closer :: outer, text, stuck => SticksInside (outer.length + 1) closer text stuck

/-- A form that the reader gets stuck in is what it gets stuck in. -/
theorem StuckIn.of_form {opened : List Enclosure} {c : Char} {rest : List Char} {stuck : Stuck}
    (hc : NoSeparator c) (hroom : opened.length < maxNesting) (hclose : DoesNotClose c opened)
    (h : Sticks opened.length (c :: rest) stuck) : StuckIn opened (c :: rest) stuck := by
  have hskip := skipSeparators_cons hc rest
  match opened with
  | [] =>
      refine ⟨?_, h⟩
      rw [hskip]
      exact List.cons_ne_nil _ _
  | .mark _ :: _ => exact ⟨hroom, h⟩
  | .bracket _ :: _ => exact .item hskip hclose h

theorem StuckIn.of_skip {opened : List Enclosure} {text text' : List Char} {stuck : Stuck}
    (h : StuckIn opened text stuck) (hskip : skipSeparators text' = skipSeparators text) :
    StuckIn opened text' stuck := by
  match opened with
  | [] => exact ⟨hskip ▸ h.1, h.2.of_skip (by decide) hskip⟩
  | .mark _ :: _ => exact ⟨h.1, h.2.of_skip h.1 hskip⟩
  | .bracket _ :: _ => exact SticksInside.of_skip h hskip

/-- What begins a form, and closes nothing, is where the reader goes on. -/
theorem Within.stuckIn_form {opened : List Enclosure} {before rest : List Char} {c : Char}
    {stuck : Stuck} (h : Within opened before (c :: rest)) (hroom : opened.length < maxNesting)
    (hc : NoSeparator c ∧ c ∉ closers)
    (hsticks : skipSeparators (c :: rest) = c :: rest → Sticks opened.length (c :: rest) stuck) :
    StuckIn opened (c :: rest) stuck :=
  .of_form hc.1 hroom (h.doesNotClose hc.2) (hsticks (skipSeparators_cons hc.1 rest))

/-- A mark is gone past to the form that the reader gets stuck in. -/
theorem Within.stuckIn_mark {opened : List Enclosure} {before mark rest : List Char}
    {name : String} {stuck : Stuck} (h : Within opened before (mark ++ rest))
    (hroom : opened.length < maxNesting) (hmark : Mark mark name)
    (hprefer : mark = ['~'] → rest.head? ≠ some '@')
    (hform : Sticks (opened.length + 1) rest stuck) : StuckIn opened (mark ++ rest) stuck := by
  obtain ⟨c, tail, rfl, hc⟩ := hmark.exists_opener
  exact h.stuckIn_form hroom (noSeparator_of_opener hc) fun hskip =>
    .marked hroom hskip hmark hprefer hform

/-- What gets the reader stuck on the way gets it stuck in the whole text. -/
theorem Within.stuckIn {opened : List Enclosure} {before next : List Char} {stuck : Stuck}
    (h : Within opened before next) (hstuck : StuckIn opened next stuck) :
    StuckIn [] (before ++ next) stuck := by
  induction h with
  | outermost => exact hstuck
  | separators h hgap ih =>
      rw [List.append_assoc]
      exact ih (hstuck.of_skip hgap.skip)
  | bracket h hroom hbracket ih =>
      rw [List.append_assoc]
      exact ih (h.stuckIn_form hroom (noSeparator_of_opener hbracket.opener_mem) fun hskip =>
        .bracketed hroom hskip hbracket hstuck)
  | mark h hroom hmark hprefer ih =>
      rw [List.append_assoc]
      exact ih (h.stuckIn_mark (Nat.lt_of_succ_lt hroom) hmark hprefer hstuck.2)
  | item h hitem ih =>
      rw [List.append_assoc]
      refine ih (SticksInside.later ?_ hitem hstuck)
      exact skipSeparators_of_atForm (hitem.atForm _)

/-- The error where the reader gets stuck on the way, with the text before that place. -/
theorem Within.readWhole {opened : List Enclosure} {passed next : List Char} {stuck : Stuck}
    (h : Within opened passed next) (hstuck : StuckIn opened next stuck) {text : String}
    {offset : Nat} {before : List Char} (hsplit : SplitsAt text.toList offset before stuck.rest)
    (hpassed : before ++ stuck.rest = passed ++ next) :
    Lisplet.readWhole text =
      .error (.atOffset stuck.fault.kind (stuck.fault.message offset) text offset) := by
  obtain ⟨htext, rfl⟩ := hsplit
  obtain ⟨hskip, hsticks⟩ := h.stuckIn hstuck
  rw [← hpassed, ← htext] at hskip hsticks
  rw [hsticks.failsWith hskip, Stuck.error, offsetOf_append htext]

theorem Culprit.readWhole {text : String} {offset : Nat} {before rest : List Char}
    {kind : ReadErrorKind} {message : String} (h : Culprit offset before rest kind message)
    (hsplit : SplitsAt text.toList offset before rest) :
    Lisplet.readWhole text = .error (.atOffset kind message text offset) := by
  have hquote : NoSeparator '"' ∧ '"' ∉ closers := by decide
  cases h with
  | @ended opened _ h hopened =>
      have hstuck : StuckIn opened [] ⟨.unexpectedEnd, []⟩ := by
        match opened with
        | [] => exact (hopened rfl).elim
        | .mark _ :: _ => exact ⟨h.after_mark.1, .ended h.after_mark.1 rfl⟩
        | .bracket _ :: _ => exact .ended rfl
      exact h.readWhole hstuck hsplit rfl
  | unclosed h hroom hunclosed =>
      have hstuck := h.stuckIn_form hroom hquote fun hskip => .unclosed hroom hskip hunclosed
      exact h.readWhole hstuck hsplit rfl
  | badEscape h hroom hbody hescaped =>
      have hstuck := h.stuckIn_form hroom hquote fun hskip =>
        .badEscape hroom hskip ⟨_, _, _, _, hbody, rfl, rfl, hescaped⟩
      exact h.readWhole hstuck hsplit (by simp)
  | @closer _ _ _ rest h hroom hc hclose =>
      have hcloser := noSeparator_of_closer hc
      have hstuck := StuckIn.of_form hcloser hroom hclose
        (.closer hroom (skipSeparators_cons hcloser rest) hc)
      exact h.readWhole hstuck hsplit rfl
  | unpaired h hroom hentries hodd =>
      have hbrace : NoSeparator '\x7b' ∧ '\x7b' ∉ closers := by decide
      have hstuck := h.stuckIn_form hroom hbrace fun hskip =>
        .unpaired hroom hskip hentries hodd
      exact h.readWhole hstuck hsplit rfl
  | @integer _ _ token n rest h hroom hinteger hrange hrest =>
      obtain ⟨hne, hchars⟩ := hinteger.tokenChars
      obtain ⟨c, tail, rfl⟩ := List.exists_cons_of_ne_nil hne
      have hc := noSeparator_of_isTokenChar (hchars c List.mem_cons_self).1
      have hstuck := h.stuckIn_form hroom hc fun hskip =>
        .integer hroom hskip hinteger (int64?_eq_none_iff.mpr hrange) hrest
      exact h.readWhole hstuck hsplit rfl
  | metadata h hroom =>
      have hcaret : NoSeparator '^' ∧ '^' ∉ closers := by decide
      have hstuck := h.stuckIn_form hroom hcaret fun hskip => .metadata hroom hskip
      exact h.readWhole hstuck hsplit rfl
  | @tooDeep closer outer _ c rest h hlevel hc hclose =>
      have hstuck : StuckIn (.bracket closer :: outer) (c :: rest) ⟨.tooDeep, c :: rest⟩ :=
        .item (skipSeparators_cons hc rest) hclose (.tooDeep (Nat.le_of_eq hlevel.symm))
      rw [← message_tooDeep offset]
      exact h.readWhole hstuck hsplit rfl
  | tooDeepMark h hlevel hmark hprefer =>
      have hstuck := h.stuckIn_mark (by omega) hmark hprefer
        (.tooDeep (Nat.le_of_eq hlevel.symm))
      rw [← message_tooDeep offset]
      exact h.readWhole hstuck hsplit (by simp)
  | trailing h =>
      obtain ⟨htext, rfl⟩ := hsplit
      exact h.readWhole htext

theorem Culprit.kind_ne_noForm {offset : Nat} {before rest : List Char} {kind : ReadErrorKind}
    {message : String} (h : Culprit offset before rest kind message) : kind ≠ .noForm := by
  cases h <;> decide

/-- Every culprit is told in words of its own. -/
theorem Culprit.message_specific {offset : Nat} {before rest : List Char} {kind : ReadErrorKind}
    {message : String} (h : Culprit offset before rest kind message) :
    ¬ "Invalid syntax at position".toList <+: message.toList := by
  intro hprefix
  have hopening := List.prefix_iff_eq_take.mp hprefix
  cases h <;> simp at hopening

/-- The reader fails, other than for want of a form, exactly when something in the text
is wrong, and then at that place: the offset is a boundary in the text, the message is
about what stands there and quotes the offset, and the character there is what is found. -/
theorem readWhole_error_iff_culprit (text : String) (cause : ReadError) :
    readWhole text = .error cause ∧ cause.kind ≠ .noForm ↔
      ∃ offset before rest, SplitsAt text.toList offset before rest ∧
        Culprit offset before rest cause.kind cause.message ∧
        cause = .atOffset cause.kind cause.message text offset ∧
        offset ≤ text.utf8ByteSize ∧ cause.found = rest.head? ∧
        ¬ "Invalid syntax at position".toList <+: cause.message.toList := by
  constructor
  · rintro ⟨h, hkind⟩
    suffices hculprit : ∃ before rest kind message, text.toList = before ++ rest ∧
        Culprit (byteLength before) before rest kind message by
      obtain ⟨before, rest, kind, message, hsplit, hculprit⟩ := hculprit
      rw [hculprit.readWhole ⟨hsplit, rfl⟩] at h
      cases h
      refine ⟨byteLength before, before, rest, ⟨hsplit, rfl⟩, hculprit, rfl, ?_,
        found_atOffset hsplit, hculprit.message_specific⟩
      rw [← byteLength_toList, hsplit, byteLength_append]
      exact Nat.le_add_right _ _
    obtain ⟨-, hnone⟩ | ⟨stuck, hskip, hsticks, -⟩ | ⟨form, rest, hleading, hrest, -⟩ :=
      readWhole_error_cases h
    · exact (hkind hnone).elim
    · obtain ⟨before, hsplit, hculprit⟩ := hsticks.isCulprit .outermost rfl (by decide)
        (fun _ => hskip) (fun _ _ => trivial)
      exact ⟨before, _, _, _, hsplit, hculprit⟩
    · obtain ⟨before, more, hsplit, hform⟩ := formThenMore_of_leading hleading hrest
      exact ⟨before, more, _, _, hsplit, .trailing hform⟩
  · rintro ⟨offset, before, rest, hsplit, hculprit, hcause, -⟩
    refine ⟨?_, hculprit.kind_ne_noForm⟩
    rw [hcause]
    exact hculprit.readWhole hsplit

end Lisplet
