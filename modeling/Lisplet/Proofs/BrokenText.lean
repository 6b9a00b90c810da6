/-
The text of a file that is no row of forms.  Put between `(do ` and a line with
`nil)`, such a text is not read as a form either: the closing bracket of the `do`
can only be the last one, and nothing of the line put after the text can be part
of a string, a comment or a token of the text.  One thing can take it in, which is
a mark without a form after it.
-/
import Lisplet.Proofs.ReaderFailure

namespace Lisplet

/-- Marks that have no form after them. -/
inductive Dangling : List Char → Prop
  | mark {mark name gap} (hmark : Mark mark name) (hgap : Separators gap []) :
      Dangling (mark ++ gap)
  | marked {mark name gap text} (hmark : Mark mark name) (hgap : Separators gap text)
      (htext : Dangling text) : Dangling (mark ++ (gap ++ text))

/-- A line feed in a text of two parts is in the second or in the first. -/
theorem newline_in_append {front back text line : List Char}
    (h : front ++ back = text ++ '\n' :: line) :
    (∃ rest, text = front ++ rest ∧ back = rest ++ '\n' :: line) ∨
      ∃ rest, front = text ++ '\n' :: rest ∧ line = rest ++ back := by
  obtain ⟨rest, htext, hback⟩ | ⟨rest, rfl, hline⟩ := List.append_eq_append_iff.mp h
  · exact .inl ⟨rest, htext, hback⟩
  · rcases rest with _ | ⟨c, rest⟩
    · exact .inl ⟨[], by simp, hline.symm⟩
    · obtain ⟨rfl, hline'⟩ := List.cons.inj hline
      exact .inr ⟨rest, rfl, hline'⟩

/-- It is in the second if there is none in the first. -/
theorem newline_in_back {front back text line : List Char} (hfront : '\n' ∉ front)
    (h : front ++ back = text ++ '\n' :: line) :
    ∃ rest, text = front ++ rest ∧ back = rest ++ '\n' :: line := by
  refine (newline_in_append h).resolve_right ?_
  rintro ⟨rest, rfl, -⟩
  simp at hfront

/-- Separators after a line feed are separators by themselves. -/
theorem Separators.after_newline {before text next : List Char}
    (h : Separators (before ++ '\n' :: text) next) : Separators text next := by
  generalize hwhole : before ++ '\n' :: text = whole at h
  induction h generalizing before with
  | nil => simp at hwhole
  | blank hc htext ih =>
      rcases before with _ | ⟨c, before⟩
      · cases hwhole
        exact htext
      · cases hwhole
        exact ih rfl
  | comment hbody hend hrest ih =>
      rcases before with _ | ⟨c, before⟩
      · cases hwhole
      · obtain ⟨rfl, hsplit⟩ := List.cons.inj hwhole
        obtain ⟨rest, -, hrest⟩ := newline_in_back hbody hsplit.symm
        exact ih hrest.symm

theorem Separators.beginning {text more next : List Char} (h : Separators (text ++ more) next) :
    Separators text [] := by
  generalize hwhole : text ++ more = whole at h
  induction h generalizing text with
  | nil =>
      rw [(List.append_eq_nil_iff.mp hwhole).1]
      exact .nil
  | blank hc htext ih =>
      rcases text with _ | ⟨c, text⟩
      · exact .nil
      · cases hwhole
        exact .blank hc (ih rfl)
  | @comment body rest next hbody hend hrest ih =>
      rcases text with _ | ⟨c, text⟩
      · exact .nil
      · obtain ⟨rfl, hsplit⟩ := List.cons.inj hwhole
        obtain ⟨more', rfl, -⟩ | ⟨more', rfl, hrest'⟩ := List.append_eq_append_iff.mp hsplit
        · rw [← List.append_nil text]
          refine .comment (fun hmem => hbody ?_) (by simp) .nil
          exact List.mem_append_left _ hmem
        · refine .comment hbody (fun c hc => hend c ?_) (ih hrest'.symm)
          rw [List.append_nil] at hc
          rw [hrest', List.append_assoc, List.head?_append, hc]
          rfl

/-- What stands before more text may as well stand before its beginning. -/
theorem beginsLike_beginning (text more : List Char) : BeginsLike (text ++ more) text := by
  intro c hc
  rw [List.head?_append, hc]
  exact .inl rfl

/-- There is nothing in the line that ends a string or a sequence. -/
def PlainLine (line : List Char) : Prop :=
  ∀ c ∈ line, c ≠ '"' ∧ c ∉ closers

instance (line : List Char) : Decidable (PlainLine line) :=
  List.decidableBAll (fun c => c ≠ '"' ∧ c ∉ closers) line

theorem PlainLine.ne_concat {text line body : List Char} {last : Char} (h : PlainLine line)
    (hlast : last = '"' ∨ last ∈ closers) : text ++ '\n' :: line ≠ body ++ [last] := by
  intro heq
  have hmem : last ∈ '\n' :: line := by
    have hlast := congrArg List.getLast? heq
    rw [List.getLast?_concat, List.getLast?_append] at hlast
    rcases hend : ('\n' :: line).getLast? with _ | c
    · simp at hend
    · rw [hend] at hlast
      cases hlast
      exact List.mem_of_getLast? hend
  rcases List.mem_cons.mp hmem with rfl | hmem
  · exact absurd hlast (by decide)
  · rcases hlast with rfl | hlast
    · exact (h _ hmem).1 rfl
    · exact (h _ hmem).2 hlast

variable {token : List Char → Value → Prop}

/-- A form that goes over the end of a line, but is not closed on the next, is a mark
whose form begins on that line. -/
theorem Reads.dangling {level : Nat} {whole next : List Char} {form : Value}
    (h : Reads token level whole form next) {text line : List Char}
    (hwhole : whole = text ++ '\n' :: line) (hline : PlainLine line) : Dangling text := by
  match h with
  | .token hlevel hinitial hchars hmaximal hvalue =>
      have hmem : '\n' ∈ text ++ '\n' :: line := by simp
      rw [← hwhole] at hmem
      exact absurd (hchars _ hmem) (by decide)
  | @Reads.string _ _ body _ _ hlevel hbody =>
      have hend : text ++ '\n' :: line = ('"' :: body) ++ ['"'] := hwhole.symm
      exact (hline.ne_concat (.inl rfl) hend).elim
  | @Reads.bracketed _ _ opener closer body _ _ _ hlevel hbracket hitems =>
      have hend : text ++ '\n' :: line = (opener :: body) ++ [closer] := hwhole.symm
      exact (hline.ne_concat (.inr hbracket.closer_mem) hend).elim
  | @Reads.marked _ _ mark _ _ _ _ _ hlevel hmark hprefer hgap hform =>
      have hmarkLine : '\n' ∉ mark := by cases hmark <;> decide
      obtain ⟨rest, rfl, hrest⟩ := newline_in_back hmarkLine hwhole
      obtain ⟨rest', rfl, hinner⟩ | ⟨rest', rfl, -⟩ := newline_in_append hrest
      · refine .marked hmark (hgap.followed ?_) (hform.dangling hinner hline)
        rw [hinner, List.append_assoc]
        exact beginsLike_beginning rest' _
      · exact .mark hmark hgap.beginning

/-- If forms go over the end of a line and none is closed on the next, then the text
up to there is a row of forms, and perhaps marks without a form. -/
theorem ReadsItems.upTo_newline {level : Nat} {whole next : List Char} {items : List Value}
    (h : ReadsItems token level whole items next) {text line : List Char}
    (hwhole : whole = text ++ '\n' :: line) (hline : PlainLine line) :
    ∃ before marks items, text = before ++ marks ∧ ReadsItems token level before items marks ∧
      (marks = [] ∨ Dangling marks) := by
  match h with
  | .nil hgap =>
      rw [hwhole] at hgap
      exact ⟨text, [], [], by simp, .nil hgap.beginning, .inl rfl⟩
  | @ReadsItems.cons _ _ gap inner body item _ _ hgap hitem hitems =>
      obtain ⟨rest, rfl, hrest⟩ | ⟨rest, rfl, -⟩ := newline_in_append hwhole
      · obtain ⟨rest', rfl, hbody⟩ | ⟨rest', rfl, rfl⟩ := newline_in_append hrest
        · -- The item stands before the end of the line.
          obtain ⟨before, marks, others, rfl, hbefore, hmarks⟩ := hitems.upTo_newline hbody hline
          have hnext : BeginsLike (body ++ next) (before ++ marks) := by
            rw [hbody, List.append_assoc]
            exact beginsLike_beginning _ _
          exact ⟨gap ++ (inner ++ before), marks, item :: others, by simp,
            .cons (hgap.followed (hnext.append_left inner)) (hitem.followed hnext) hbefore,
            hmarks⟩
        · -- The item goes over the end of the line.
          have hline' : PlainLine rest' := fun c hc => hline c (List.mem_append_left _ hc)
          refine ⟨gap, rest, [], rfl, .nil (hgap.followed ?_), .inr (hitem.dangling rfl hline')⟩
          rw [List.append_assoc]
          exact beginsLike_beginning rest _
      · exact ⟨text, [], [], by simp, .nil hgap.beginning, .inl rfl⟩

/-- The text is a row of forms and marks without a form after it. -/
def EndsInMark (text : List Char) : Prop :=
  ∃ before marks items, text = before ++ marks ∧ ReadsItems Token 0 before items marks ∧
    Dangling marks

/-- What is a row of forms, one level deeper, is one. -/
theorem ReadsItems.outside {text next : List Char} {items : List Value}
    (h : ReadsItems Token 1 text items next) : ReadsItems Token 0 text items next :=
  h.relevel (h.readable (rfl : 1 + 255 = maxNesting)) (by decide)

theorem Separators.eq_nil {gap more next : List Char} (h : Separators gap next)
    (hform : AtForm (gap ++ more)) : gap = [] := by
  cases h with
  | nil => rfl
  | blank hc =>
      obtain ⟨hblank, hcomma, -⟩ := atForm_cons.mp hform
      rcases hc with hc | hc
      · exact absurd hc (by simp [hblank])
      · exact (hcomma hc).elim
  | comment => exact absurd (atForm_cons.mp hform) (by decide)

theorem Reads.token_of_head {level : Nat} {c : Char} {text tail next : List Char} {form : Value}
    (h : Reads token level text form next) (hhead : text = c :: tail) (hopener : c ∉ openers)
    (hquote : c ≠ '"') : (∀ d ∈ text, isTokenChar d = true) ∧ EndsToken next := by
  match h with
  | .token _ _ hchars hmaximal _ => exact ⟨hchars, hmaximal⟩
  | .string _ _ =>
      cases hhead
      exact (hquote rfl).elim
  | .bracketed _ hbracket _ =>
      cases hhead
      exact (hopener hbracket.opener_mem).elim
  | .marked _ hmark _ _ _ =>
      obtain ⟨d, rest, rfl, hd⟩ := hmark.exists_opener
      cases hhead
      exact (hopener hd).elim

theorem Reads.list_of_head {level : Nat} {text tail next : List Char} {form : Value}
    (h : Reads token level text form next) (hhead : text = '(' :: tail) :
    ∃ body items, tail = body ++ [')'] ∧ ReadsItems token (level + 1) body items (')' :: next) := by
  match h with
  | .token _ _ hchars _ _ =>
      cases hhead
      exact absurd (hchars _ List.mem_cons_self) (by decide)
  | .string _ _ => cases hhead
  | .bracketed _ hbracket hitems =>
      cases hhead
      cases hbracket with
      | list => exact ⟨_, _, rfl, hitems⟩
  | .marked _ hmark _ _ _ => cases hmark <;> cases hhead

/-- A blank before the items is one of the separators. -/
theorem ReadsItems.of_blank {level : Nat} {whole body next : List Char} {items : List Value}
    (h : ReadsItems token level whole items next) (hwhole : whole = ' ' :: body) :
    ReadsItems token level body items next := by
  match h with
  | .nil hgap =>
      subst hwhole
      cases hgap with
      | blank _ htext => exact .nil htext
  | .cons .nil hitem _ =>
      obtain ⟨c, tail, rfl, hc, -⟩ := hitem.head
      cases hwhole
      exact absurd hc (by decide)
  | .cons (.blank _ htext) hitem hitems =>
      cases hwhole
      exact .cons htext hitem hitems
  | .cons (.comment _ _ _) _ _ => cases hwhole

theorem ReadsItems.of_firstWord {level : Nat} {whole body next : List Char} {items : List Value}
    (h : ReadsItems token level whole items next) (hwhole : whole = 'd' :: 'o' :: ' ' :: body) :
    ∃ items, ReadsItems token level body items next := by
  match h with
  | .nil hgap =>
      subst hwhole
      have hform : AtForm (('d' :: 'o' :: ' ' :: body) ++ []) := atForm_cons.mpr (by decide)
      exact absurd (hgap.eq_nil hform) (by simp)
  | @ReadsItems.cons _ _ gap inner rest item items _ hgap hitem hitems =>
      have hform : AtForm (gap ++ (inner ++ rest)) := by
        rw [hwhole]
        exact atForm_cons.mpr (by decide)
      rw [hgap.eq_nil hform, List.nil_append] at hwhole
      obtain ⟨c, tail, rfl, -⟩ := hitem.head
      obtain ⟨rfl, -⟩ := List.cons.inj hwhole
      obtain ⟨hchars, hends⟩ := hitem.token_of_head rfl (by decide) (by decide)
      obtain ⟨-, hdrop⟩ := takeWhile_token hchars hends
      rw [← List.append_assoc, hwhole] at hdrop
      have hrest : (' ' :: body) ++ next = rest ++ next := hdrop
      exact ⟨items, hitems.of_blank (List.append_cancel_right hrest).symm⟩

/-- What a file stands in is closed by the last bracket only. -/
theorem closed_at_end {text body after : List Char}
    (h : body ++ ')' :: after = text ++ '\n' :: ['n', 'i', 'l', ')'])
    (hafter : Separators after []) : body = text ++ '\n' :: ['n', 'i', 'l'] ∧ after = [] := by
  obtain ⟨rest, rfl, hrest⟩ | ⟨rest, rfl, hrest⟩ := newline_in_append h
  · rcases rest with _ | ⟨c, rest⟩
    · cases hrest
    · obtain ⟨-, rfl⟩ := List.cons.inj hrest
      exact absurd (skipSeparators_eq_nil_iff.mpr hafter.after_newline) (by decide)
  · rcases rest with _ | ⟨_, _ | ⟨_, _ | ⟨_, _ | ⟨_, rest⟩⟩⟩⟩ <;> simp_all

/-- If the text between `(do ` and a line with `nil)` is read as a form, then it is a
row of forms, or it ends in a mark. -/
theorem row_of_wrapped {text : List Char} {form : Value}
    (h : IsTextOf Token ('(' :: 'd' :: 'o' :: ' ' :: (text ++ '\n' :: ['n', 'i', 'l', ')'])) form) :
    (∃ items, ReadsItems Token 0 text items []) ∨ EndsInMark text := by
  obtain ⟨gap, inner, after, hwhole, hgap, hinner, hafter⟩ := h
  have hform : AtForm (gap ++ (inner ++ after)) := by
    rw [← hwhole]
    exact atForm_cons.mpr (by decide)
  rw [hgap.eq_nil hform, List.nil_append] at hwhole
  obtain ⟨c, tail, rfl, -⟩ := hinner.head
  obtain rfl : '(' = c := (List.cons.inj hwhole).1
  obtain ⟨body, items, rfl, hitems⟩ := hinner.list_of_head rfl
  rw [List.cons_append, List.append_assoc] at hwhole
  have hsplit : body ++ ')' :: after =
      ('d' :: 'o' :: ' ' :: text) ++ '\n' :: ['n', 'i', 'l', ')'] := (List.cons.inj hwhole).2.symm
  obtain ⟨rfl, rfl⟩ := closed_at_end hsplit hafter
  obtain ⟨others, hothers⟩ := hitems.of_firstWord rfl
  have hline : PlainLine ['n', 'i', 'l'] := by decide
  obtain ⟨before, marks, row, rfl, hrow, rfl | hmarks⟩ := hothers.upTo_newline rfl hline
  · rw [List.append_nil]
    exact .inl ⟨row, hrow.outside⟩
  · exact .inr ⟨before, marks, row, rfl, hrow.outside, hmarks⟩

end Lisplet
