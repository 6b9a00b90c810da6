/-
The text of a file inside a form.  A text that reads as a row of forms still
reads as those forms when a line feed and more text follow it, however it ends,
and one level deeper if the forms leave a level.  So a file, put between `(do ` and
a line feed with `nil)`, reads as the sequence of its forms.
-/
import Lisplet.Proofs.RoundTrip

namespace Lisplet

/-- The second text begins like the first, or with a line feed, or is empty. -/
def BeginsLike (next next' : List Char) : Prop :=
  ∀ c, next'.head? = some c → next.head? = some c ∨ c = '\n'

theorem BeginsLike.append_left {next next' : List Char} (h : BeginsLike next next')
    (text : List Char) : BeginsLike (text ++ next) (text ++ next') := by
  intro c hc
  rcases text with _ | ⟨d, text⟩
  · exact h c hc
  · exact .inl hc

/-- More text may follow what there is. -/
theorem beginsLike_append {next : List Char} (h : next ≠ []) (more : List Char) :
    BeginsLike next (next ++ more) := by
  intro c hc
  rcases next with _ | ⟨d, next⟩
  · exact (h rfl).elim
  · exact .inl hc

/-- A line feed and more text may be put at the end. -/
theorem beginsLike_newline (next more : List Char) : BeginsLike next (next ++ '\n' :: more) := by
  intro c hc
  rcases next with _ | ⟨d, next⟩
  · cases hc
    exact .inr rfl
  · exact .inl hc

/-- A comment at the end of the text ends at the line feed. -/
theorem Separators.followed {text next next' : List Char} (h : Separators text next)
    (hnext : BeginsLike next next') : Separators text next' := by
  induction h with
  | nil => exact .nil
  | blank hc _ ih => exact .blank hc (ih hnext)
  | comment hbody hend _ ih =>
      refine .comment hbody (fun c hc => ?_) (ih hnext)
      rcases hnext.append_left _ c hc with hold | hnew
      · exact hend c hold
      · exact hnew

variable {token : List Char → Value → Prop}

mutual

/-- A token at the end of the text ends at the line feed. -/
theorem Reads.followed {level : Nat} {text next next' : List Char} {form : Value}
    (h : Reads token level text form next) (hnext : BeginsLike next next') :
    Reads token level text form next' := by
  match h with
  | .token hlevel hinitial hchars hmaximal hvalue =>
      refine .token hlevel hinitial hchars (fun d hd => ?_) hvalue
      rcases hnext d hd with hold | rfl
      · exact hmaximal d hold
      · decide
  | .string hlevel hbody => exact .string hlevel hbody
  | .bracketed hlevel hbracket hitems =>
      exact .bracketed hlevel hbracket (hitems.followed (hnext.append_left [_]))
  | .marked hlevel hmark hprefer hgap hform =>
      exact .marked hlevel hmark hprefer (hgap.followed (hnext.append_left _))
        (hform.followed hnext)

theorem ReadsItems.followed {level : Nat} {text next next' : List Char} {items : List Value}
    (h : ReadsItems token level text items next) (hnext : BeginsLike next next') :
    ReadsItems token level text items next' := by
  match h with
  | .nil hgap => exact .nil (hgap.followed hnext)
  | .cons hgap hitem hitems =>
      exact .cons (hgap.followed ((hnext.append_left _).append_left _))
        (hitem.followed (hnext.append_left _)) (hitems.followed hnext)

end

/-- A row of forms and another after it are one row. -/
theorem ReadsItems.append {level : Nat} {text more next : List Char} {items others : List Value}
    (h : ReadsItems token level text items (more ++ next))
    (hmore : ReadsItems token level more others next) :
    ReadsItems token level (text ++ more) (items ++ others) next := by
  match h with
  | .nil hgap =>
      match hmore with
      | .nil hgap' => exact .nil (hgap.append hgap')
      | .cons hgap' hitem hitems =>
          rw [List.append_assoc, List.append_assoc] at hgap
          rw [← List.append_assoc]
          exact .cons (hgap.append hgap') hitem hitems
  | .cons hgap hitem hitems =>
      have hrest := hitems.append hmore
      rw [← List.append_assoc _ more] at hgap hitem
      rw [List.append_assoc, List.append_assoc]
      exact .cons hgap hitem hrest

mutual

/-- Where a form stands in the nesting makes no difference, if there are levels
enough for it. -/
theorem Reads.relevel {level level' levels : Nat} {text next : List Char} {form : Value}
    (h : Reads token level text form next) (hform : Readable levels form)
    (hroom : level' + levels ≤ maxNesting) : Reads token level' text form next := by
  have hlevel' : level' < maxNesting := by
    cases hform <;> omega
  match h with
  | .token _ hinitial hchars hmaximal hvalue =>
      exact .token hlevel' hinitial hchars hmaximal hvalue
  | .string _ hbody => exact .string hlevel' hbody
  | .bracketed _ hbracket hitems =>
      refine .bracketed hlevel' hbracket ?_
      cases hbracket with
      | list =>
          cases hform with
          | list hforms => exact hitems.relevel hforms (by omega)
      | vector =>
          cases hform with
          | vector hforms => exact hitems.relevel hforms (by omega)
      | map heven =>
          cases hform with
          | map _ hforms => exact hitems.relevel hforms (by omega)
  | .marked _ hmark hprefer hgap hinner =>
      match hform with
      | .list (.cons _ (.cons hform _)) =>
          exact .marked hlevel' hmark hprefer hgap (hinner.relevel hform (by omega))

theorem ReadsItems.relevel {level level' levels : Nat} {text next : List Char}
    {items : List Value} (h : ReadsItems token level text items next)
    (hforms : ReadableItems levels items) (hroom : level' + levels ≤ maxNesting) :
    ReadsItems token level' text items next := by
  match h, hforms with
  | .nil hgap, _ => exact .nil hgap
  | .cons hgap hitem hitems, .cons hform hforms =>
      exact .cons hgap (hitem.relevel hform hroom) (hitems.relevel hforms hroom)

end

/-- The text is a row of forms with separators around them, and each of the forms
leaves one level of nesting. -/
structure IsFileOf (text : String) (forms : List Value) : Prop where
  reads : ReadsItems Token 0 text.toList forms []
  nesting : ReadableItems 255 forms

/-- A text without a form is a file of no forms. -/
theorem IsFileOf.nil {text : String} (h : skipSeparators text.toList = []) : IsFileOf text [] :=
  ⟨.nil (skipSeparators_eq_nil_iff.mp h), .nil⟩

/-- A file is what its first form and the text after it are. -/
theorem IsFileOf.cons {text : String} {form : Value} {rest : List Char} {forms : List Value}
    (hfirst : readLeading text = .ok (form, rest)) (hform : Readable 255 form)
    (hrest : IsFileOf (.ofList rest) forms) : IsFileOf text (form :: forms) := by
  obtain ⟨gap, inner, htext, hgap, hinner⟩ := readLeading_eq_ok_iff.mp hfirst
  have hreads := hrest.reads
  rw [String.toList_ofList] at hreads
  refine ⟨?_, .cons hform hrest.nesting⟩
  rw [htext]
  rw [← List.append_nil rest] at hgap hinner
  exact .cons hgap hinner hreads

/-- The line that is put after the text of a file holds `nil`. -/
theorem reads_lastLine : ReadsItems Token 1 ['\n', 'n', 'i', 'l'] [.nil] [')'] := by
  have hnext : EndsToken [')'] := by
    intro c hc
    cases hc
    decide
  have hitem : Reads Token 1 "nil".toList .nil [')'] :=
    reads_plain_token (by decide) (word_chars (by decide)) hnext .nil
  have hlineFeed : isBlank '\n' = true ∨ '\n' = ',' := .inl (by decide)
  exact .cons (.blank hlineFeed .nil) hitem (.nil .nil)

/-- What stands before the text of a file begins a `do`. -/
theorem reads_firstWord {body : List Char} {forms : List Value}
    (h : ReadsItems Token 1 body forms [')']) :
    ReadsItems Token 1 (['d', 'o'] ++ ' ' :: body) (.symbol "do" :: forms) [')'] := by
  have hname : IsName "do" := by decide
  have hvalue := Token.symbol hname.word hname.integer
  have hitem : Reads Token 1 "do".toList (.symbol "do") (' ' :: body ++ [')']) :=
    reads_token (by decide) (by decide) hname.chars hname.initial (by
      intro c hc
      cases hc
      decide) hvalue
  exact .cons .nil hitem h.blank

/-- A file between `(do ` and a line with `nil)` is read as a `do` of its forms and
`nil`, whatever it begins and ends with. -/
theorem readWhole_wrapped {text : String} {forms : List Value} (h : IsFileOf text forms) :
    readWhole ("(do " ++ text ++ "\nnil)") =
      .ok (.list (.symbol "do" :: (forms ++ [.nil]))) := by
  -- Inside the bracket the forms stand one level deeper than in the file.
  have hinside : ReadsItems Token 1 text.toList forms [] :=
    h.reads.relevel h.nesting (by decide)
  have hline : ReadsItems Token 1 text.toList forms (['\n', 'n', 'i', 'l'] ++ [')']) :=
    hinside.followed (beginsLike_newline [] ['n', 'i', 'l', ')'])
  have hbody := hline.append reads_lastLine
  have hform : Reads Token 0 _ (.list (.symbol "do" :: (forms ++ [.nil]))) [] :=
    .bracketed (by decide) .list (reads_firstWord hbody)
  refine readWhole_eq_ok_iff.mpr ⟨[], _, [], ?_, .nil, hform, .nil⟩
  simp

end Lisplet
