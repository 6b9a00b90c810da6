/-
Texts that only end too early.  Where the reader meets the end of the text, inside
brackets, after a mark or in a string, some more text makes a form of what is
there: what is open is closed from the inside out, an empty list is put where a
form is missing, and another where the entries of a map are odd in number.
-/
import Lisplet.Proofs.ReaderFailure

namespace Lisplet

variable {level : Nat} {text more : List Char}

/-- With `more` after it the text is separators and a form, whatever comes next.
Nothing at all is gone on with on a new line, where it can stand after a token,
a comment or a tilde. -/
structure CompletedBy (level : Nat) (text more : List Char) : Prop where
  newline : text = [] → more.head? = some '\n'
  reads : ∃ gap inner form, text ++ more = gap ++ inner ∧
    ∀ next, Separators gap (inner ++ next) ∧ Reads Token level inner form next

/-- With `more` after it the text reads as the items, whatever comes next. -/
structure CompletedInside (level : Nat) (text more : List Char) (items : List Value) : Prop where
  newline : text = [] → more.head? = some '\n'
  reads : ∀ next, ReadsItems Token level (text ++ more) items next

theorem ReadsItems.level_lt {next : List Char} {items : List Value}
    (h : ReadsItems Token level text items next) (hne : items ≠ []) : level < maxNesting := by
  cases h with
  | nil => exact (hne rfl).elim
  | cons hgap hitem hitems => exact hitem.level_lt

theorem reads_emptyList (hlevel : level < maxNesting) (next : List Char) :
    Reads Token level ['(', ')'] (.list []) next :=
  .bracketed hlevel .list (.nil .nil : ReadsItems Token (level + 1) [] [] (')' :: next))

/-- On a new line anything may follow separators. -/
theorem Separators.endLine (h : Separators text []) (next : List Char) :
    Separators (text ++ ['\n']) next := by
  have hline : Separators text (['\n'] ++ next) := h.followed (beginsLike_newline [] next)
  exact hline.append (.blank (.inl (by decide)) .nil)

theorem head?_newLine {text more : List Char} (h : text = [] → more.head? = some '\n')
    (next : List Char) : BeginsLike text (text ++ (more ++ next)) := by
  rcases text with _ | ⟨c, text⟩
  · obtain ⟨more, rfl⟩ := List.head?_eq_some_iff.mp (h rfl)
    exact beginsLike_newline [] (more ++ next)
  · exact beginsLike_append (List.cons_ne_nil c text) _

/-- The separators before what there is stay separators. -/
theorem separators_before {skipped : List Char} (hskip : skipSeparators text = skipped)
    (hne : skipped ≠ []) :
    ∃ gap, (∀ more, text ++ more = gap ++ (skipped ++ more)) ∧
      ∀ more, Separators gap (skipped ++ more) := by
  obtain ⟨gap, hgap, hseparators⟩ := exists_separators text
  rw [hskip] at hgap hseparators
  refine ⟨gap, fun more => ?_, fun more => hseparators.followed (beginsLike_append hne more)⟩
  rw [hgap, List.append_assoc]

theorem ne_nil_of_skip {skipped : List Char} (hskip : skipSeparators text = skipped)
    (hne : skipped ≠ []) : text ≠ [] := by
  rintro rfl
  exact hne hskip.symm

theorem CompletedBy.of_skip {skipped : List Char}
    (hskip : skipSeparators text = skipped) (hne : skipped ≠ [])
    (h : ∃ form, ∀ next, Reads Token level (skipped ++ more) form next) :
    CompletedBy level text more := by
  obtain ⟨form, h⟩ := h
  obtain ⟨gap, hgap, hseparators⟩ := separators_before hskip hne
  refine ⟨fun hnil => (ne_nil_of_skip hskip hne hnil).elim, gap, skipped ++ more, form,
    hgap more, fun next => ⟨?_, h next⟩⟩
  rw [List.append_assoc]
  exact hseparators _

/-- Where nothing but separators stands an empty list may follow. -/
theorem CompletedBy.of_separators (hlevel : level < maxNesting) (h : skipSeparators text = []) :
    CompletedBy level text ['\n', '(', ')'] := by
  refine ⟨fun _ => rfl, text ++ ['\n'], ['(', ')'], .list [], by simp, fun next => ⟨?_, ?_⟩⟩
  · exact (skipSeparators_eq_nil_iff.mp h).endLine _
  · exact reads_emptyList hlevel next

/-- A string that is open is closed with a quote.  A backslash at the end is
made an escape first. -/
theorem Unclosed.completes {rest : List Char} (h : Unclosed rest) (hlevel : level < maxNesting)
    (hskip : skipSeparators text = '"' :: rest) : ∃ more, CompletedBy level text more := by
  obtain ⟨body, inner, hbody, rfl | rfl⟩ := h
  · exact ⟨['"'], .of_skip hskip (List.cons_ne_nil _ _) ⟨_, fun _ => .string hlevel hbody⟩⟩
  · have hbody' : StringBody (body ++ ['\\', '\\']) (inner ++ ['\\']) :=
      hbody.append (.backslash .nil)
    refine ⟨['\\', '"'], .of_skip hskip (List.cons_ne_nil _ _)
      ⟨.string (.ofList (inner ++ ['\\'])), fun next => ?_⟩⟩
    have hreads : Reads Token level _ _ next := .string hlevel hbody'
    rw [List.append_assoc] at hreads
    rw [List.cons_append, List.append_assoc]
    exact hreads

/-- Brackets that match are brackets around an even number of items. -/
theorem Bracket.around {opener closer : Char} {empty : Value} {items : List Value}
    (h : Bracket opener closer [] empty) (heven : items.length % 2 = 0) :
    ∃ form, Bracket opener closer items form := by
  cases h with
  | list => exact ⟨_, .list⟩
  | vector => exact ⟨_, .vector⟩
  | map => exact ⟨_, .map heven⟩

/-- If the items are odd in number, an empty list can be one more. -/
theorem CompletedInside.even {items : List Value} (h : CompletedInside level text more items) :
    ∃ more items, CompletedInside level text more items ∧ items.length % 2 = 0 := by
  rcases Nat.mod_two_eq_zero_or_one items.length with heven | hodd
  · exact ⟨more, items, h, heven⟩
  · have hlevel : level < maxNesting := by
      refine (h.reads []).level_lt ?_
      rintro rfl
      cases hodd
    refine ⟨more ++ ['(', ')'], items ++ [.list []], ⟨?_, fun next => ?_⟩, ?_⟩
    · intro hnil
      rw [List.head?_append, h.newline hnil]
      rfl
    · rw [← List.append_assoc]
      have hone : ReadsItems Token level ['(', ')'] [.list []] next :=
        .cons .nil (reads_emptyList hlevel _) (.nil .nil)
      exact (h.reads _).append hone
    · rw [List.length_append, List.length_singleton]
      omega

/-- The closing bracket completes what is complete inside. -/
theorem CompletedInside.close {opener closer : Char} {empty : Value} {rest : List Char}
    {items : List Value} (h : CompletedInside (level + 1) rest more items)
    (hlevel : level < maxNesting) (hbracket : Bracket opener closer [] empty)
    (hskip : skipSeparators text = opener :: rest) : ∃ more, CompletedBy level text more := by
  obtain ⟨more, items, h, heven⟩ := h.even
  obtain ⟨form, hform⟩ := hbracket.around heven
  refine ⟨more ++ [closer], .of_skip hskip (List.cons_ne_nil _ _) ⟨form, fun next => ?_⟩⟩
  rw [List.cons_append, ← List.append_assoc]
  exact .bracketed hlevel hform (h.reads _)

theorem CompletedBy.marked {mark : List Char} {name : String} {rest : List Char}
    (h : CompletedBy (level + 1) rest more) (hlevel : level < maxNesting) (hmark : Mark mark name)
    (hprefer : mark = ['~'] → rest.head? ≠ some '@')
    (hskip : skipSeparators text = mark ++ rest) : CompletedBy level text more := by
  obtain ⟨hnewline, gap, inner, form, hsplit, hreads⟩ := h
  have hne : mark ++ rest ≠ [] := by cases hmark <;> simp
  refine .of_skip hskip hne ⟨.list [.symbol name, form], fun next => ?_⟩
  rw [List.append_assoc, hsplit]
  refine .marked hlevel hmark (fun hunquote => ?_) (hreads next).1 (hreads next).2
  rw [← hsplit, List.head?_append]
  rcases rest with _ | ⟨c, rest⟩
  · rw [hnewline rfl]
    decide
  · exact hprefer hunquote

/-- An item that is complete is the last one. -/
theorem CompletedBy.inside {rest : List Char} (h : CompletedBy level rest more)
    (hskip : skipSeparators text = rest) (hne : rest ≠ []) :
    ∃ items, CompletedInside level text more items := by
  obtain ⟨-, gap', inner, form, hsplit, hreads⟩ := h
  obtain ⟨gap, hgap, hseparators⟩ := separators_before hskip hne
  refine ⟨[form], fun hnil => (ne_nil_of_skip hskip hne hnil).elim, fun next => ?_⟩
  have hgap' : Separators gap (gap' ++ (inner ++ next)) := by
    rw [← List.append_assoc, ← hsplit, List.append_assoc]
    exact hseparators _
  rw [hgap, hsplit, ← List.append_assoc, ← List.append_nil inner]
  exact .cons (hgap'.append (hreads next).1) (hreads _).2 (.nil .nil)

/-- An item stays what it is when what comes after it is completed. -/
theorem CompletedInside.later {inner rest : List Char} {item : Value} {items : List Value}
    (h : CompletedInside level rest more items) (hitem : Reads Token level inner item rest)
    (hskip : skipSeparators text = inner ++ rest) :
    CompletedInside level text more (item :: items) := by
  have hne : inner ++ rest ≠ [] := by
    obtain ⟨c, tail, rfl, -⟩ := hitem.head
    exact List.cons_ne_nil _ _
  obtain ⟨gap, hgap, hseparators⟩ := separators_before hskip hne
  refine ⟨fun hnil => (ne_nil_of_skip hskip hne hnil).elim, fun next => ?_⟩
  have hnext : BeginsLike rest ((rest ++ more) ++ next) := by
    rw [List.append_assoc]
    exact head?_newLine h.newline next
  rw [hgap, List.append_assoc]
  refine .cons ?_ (hitem.followed hnext) (h.reads next)
  have hgap' := hseparators (more ++ next)
  rwa [List.append_assoc, ← List.append_assoc rest] at hgap'

mutual

/-- What only ends too early can be completed. -/
theorem Sticks.completes {level : Nat} {text : List Char} {stuck : Stuck}
    (h : Sticks level text stuck) (hkind : stuck.fault.kind = .incomplete) :
    ∃ more, CompletedBy level text more := by
  match h with
  | .ended hlevel hskip => exact ⟨_, .of_separators hlevel hskip⟩
  | .unclosed hlevel hskip hunclosed => exact hunclosed.completes hlevel hskip
  | .bracketed hlevel hskip hbracket hinside =>
      obtain ⟨more, items, hcompletes⟩ := hinside.completes hkind
      exact hcompletes.close hlevel hbracket hskip
  | .marked hlevel hskip hmark hprefer hform =>
      obtain ⟨more, hcompletes⟩ := hform.completes hkind
      exact ⟨more, hcompletes.marked hlevel hmark hprefer hskip⟩
  | .tooDeep _ | .badEscape _ _ _ | .closer _ _ _ | .metadata _ _ | .integer _ _ _ _ _
  | .unpaired _ _ _ _ => cases hkind

theorem SticksInside.completes {level : Nat} {closer : Char} {text : List Char} {stuck : Stuck}
    (h : SticksInside level closer text stuck) (hkind : stuck.fault.kind = .incomplete) :
    ∃ more items, CompletedInside level text more items := by
  match h with
  | .ended hskip =>
      refine ⟨['\n'], [], fun _ => rfl, fun next => .nil ?_⟩
      exact (skipSeparators_eq_nil_iff.mp hskip).endLine next
  | .item hskip hc hitem =>
      obtain ⟨more, hcompletes⟩ := hitem.completes hkind
      exact ⟨more, hcompletes.inside hskip (List.cons_ne_nil _ _)⟩
  | .later hskip hitem hrest =>
      obtain ⟨more, items, hcompletes⟩ := hrest.completes hkind
      exact ⟨more, _, hcompletes.later hitem hskip⟩

end

end Lisplet
