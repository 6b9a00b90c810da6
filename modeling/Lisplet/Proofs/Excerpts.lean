/-
Excerpts.  What an error shows of a text is a view of it: a row of its characters
that begins a little before the offset, with a mark at either end where characters are
left out.  The character at the offset is found exactly where there is one, and then
it is among those shown.
-/
import Lisplet.ReadError
import Mathlib.Data.String.Basic

namespace Lisplet

def SplitsAt (chars : List Char) (offset : Nat) (front back : List Char) : Prop :=
  chars = front ++ back ∧ byteLength front = offset

/-- The offset is at either end of the characters or between two of them. -/
def IsBoundary (chars : List Char) (offset : Nat) : Prop :=
  ∃ front back, SplitsAt chars offset front back

/-- The bytes of a text are counted as the library counts them. -/
theorem byteLength_toList (text : String) : byteLength text.toList = text.utf8ByteSize := by
  have hchars (chars : List Char) : byteLength chars = (String.ofList chars).utf8ByteSize := by
    induction chars with
    | nil => rfl
    | cons c chars ih =>
        rw [byteLength_cons, ih, String.ofList_cons, String.utf8ByteSize_append,
          String.utf8ByteSize_singleton]
  rw [hchars, String.ofList_toList]

theorem splitAtByte?_eq_some_iff {passed offset count : Nat} {chars back : List Char} :
    splitAtByte? passed offset chars = some (count, back) ↔
      ∃ front, SplitsAt chars offset front back ∧ count = passed + front.length := by
  constructor
  · intro h
    fun_induction splitAtByte? passed offset chars with
    | case1 passed =>
        cases h
        exact ⟨[], ⟨rfl, rfl⟩, rfl⟩
    | case2 => cases h
    | case3 passed c chars =>
        cases h
        exact ⟨[], ⟨rfl, rfl⟩, rfl⟩
    | case4 passed offset c chars hne hle ih =>
        obtain ⟨front, ⟨rfl, hbytes⟩, rfl⟩ := ih h
        refine ⟨c :: front, ⟨rfl, ?_⟩, ?_⟩
        · rw [byteLength_cons]
          omega
        · rw [List.length_cons]
          omega
    | case5 => cases h
  · rintro ⟨front, ⟨rfl, rfl⟩, rfl⟩
    exact splitAtByte?_append passed front back

theorem splitAtByte?_eq_none_iff {offset : Nat} {chars : List Char} :
    splitAtByte? 0 offset chars = none ↔ ¬ IsBoundary chars offset := by
  rw [Option.eq_none_iff_forall_ne_some]
  constructor
  · rintro h ⟨front, back, hsplit⟩
    exact h _ (splitAtByte?_eq_some_iff.mpr ⟨front, hsplit, rfl⟩)
  · rintro h ⟨count, back⟩ hsome
    obtain ⟨front, hsplit, -⟩ := splitAtByte?_eq_some_iff.mp hsome
    exact h ⟨front, back, hsplit⟩

/-- There is one way to split at an offset. -/
theorem SplitsAt.unique {chars front back front' back' : List Char} {offset : Nat}
    (h : SplitsAt chars offset front back) (h' : SplitsAt chars offset front' back') :
    front = front' ∧ back = back' := by
  have hsome : splitAtByte? 0 offset chars = some (0 + front.length, back) :=
    splitAtByte?_eq_some_iff.mpr ⟨front, h, rfl⟩
  rw [splitAtByte?_eq_some_iff.mpr ⟨front', h', rfl⟩, Option.some.injEq, Prod.mk.injEq] at hsome
  refine List.append_inj (h.1.symm.trans h'.1) ?_
  omega

/-- So many characters come before the offset; all of them if it is no boundary. -/
def CountBefore (chars : List Char) (offset count : Nat) : Prop :=
  (∃ front back, SplitsAt chars offset front back ∧ count = front.length) ∨
    ¬ IsBoundary chars offset ∧ count = chars.length

theorem countBefore_excerpt (chars : List Char) (offset : Nat) :
    CountBefore chars offset
      (((splitAtByte? 0 offset chars).map Prod.fst).getD chars.length) := by
  rcases hsplit : splitAtByte? 0 offset chars with _ | ⟨count, back⟩
  · exact .inr ⟨splitAtByte?_eq_none_iff.mp hsplit, rfl⟩
  · obtain ⟨front, hfront, rfl⟩ := splitAtByte?_eq_some_iff.mp hsplit
    exact .inl ⟨front, back, hfront, by simp⟩

/-- The characters as they are seen from a byte offset with so many of them before it:
from twenty before the offset on, a hundred, or all there are. -/
structure View (chars : List Char) (offset count : Nat) (left window right : List Char) :
    Prop where
  before : CountBefore chars offset count
  split : chars = left ++ (window ++ right)
  lead : left.length = count - 20
  width : window.length ≤ 100
  full : right ≠ [] → window.length = 100

/-- The mark that stands for what is left out, if anything is. -/
def markFor (omitted : List Char) : List Char :=
  if omitted = [] then [] else "[...]".toList

theorem CountBefore.le_length {chars : List Char} {offset count : Nat}
    (h : CountBefore chars offset count) : count ≤ chars.length := by
  obtain ⟨front, back, ⟨rfl, -⟩, rfl⟩ | ⟨-, rfl⟩ := h
  · rw [List.length_append]
    omega
  · exact Nat.le_refl _

/-- What is shown is a view, with marks for what is left out. -/
theorem excerptAround_shows_view (text : String) (offset : Nat) :
    ∃ count left window right, View text.toList offset count left window right ∧
      (excerptAround text offset).shown =
        .ofList (onOneLine (markFor left ++ window ++ markFor right)) := by
  have hcount := countBefore_excerpt text.toList offset
  have hle := hcount.le_length
  rw [excerptAround]
  generalize ((splitAtByte? 0 offset text.toList).map Prod.fst).getD text.toList.length = count
    at hcount hle ⊢
  generalize text.toList = chars at hcount hle ⊢
  refine ⟨count, chars.take (count - 20), (chars.drop (count - 20)).take 100,
    (chars.drop (count - 20)).drop 100, ⟨hcount, ?_, ?_, ?_, ?_⟩, ?_⟩
  · rw [List.take_append_drop, List.take_append_drop]
  · rw [List.length_take]
    omega
  · exact List.length_take_le _ _
  · rw [ne_eq, List.drop_eq_nil_iff, List.length_take]
    omega
  · have hopening : markFor (chars.take (count - 20)) =
        if 0 < count - 20 then ellipsis else [] := by
      rw [markFor, ← ite_not]
      refine if_congr ?_ rfl rfl
      rw [List.take_eq_nil_iff, List.eq_nil_iff_length_eq_zero]
      omega
    have hclosing : markFor ((chars.drop (count - 20)).drop 100) =
        if count - 20 + ((chars.drop (count - 20)).take 100).length < chars.length
          then ellipsis else [] := by
      rw [markFor, ← ite_not]
      refine if_congr ?_ rfl rfl
      rw [List.drop_eq_nil_iff, List.length_take, List.length_drop]
      omega
    rw [hopening, hclosing]
    rfl

theorem excerptAround_found (text : String) (offset : Nat) :
    (excerptAround text offset).found =
      (splitAtByte? 0 offset text.toList).bind fun split => split.2.head? := rfl

/-- A character is found where it stands at the offset. -/
theorem found_eq_some_iff {text : String} {offset : Nat} {c : Char} :
    (excerptAround text offset).found = some c ↔
      ∃ front back, SplitsAt text.toList offset front (c :: back) := by
  rw [excerptAround_found, Option.bind_eq_some_iff]
  constructor
  · rintro ⟨⟨count, rest⟩, hsplit, hhead⟩
    obtain ⟨front, hfront, -⟩ := splitAtByte?_eq_some_iff.mp hsplit
    obtain ⟨back, rfl⟩ := List.head?_eq_some_iff.mp hhead
    exact ⟨front, back, hfront⟩
  · rintro ⟨front, back, hsplit⟩
    exact ⟨_, splitAtByte?_eq_some_iff.mpr ⟨front, hsplit, rfl⟩, rfl⟩

/-- Nothing is found at the end, past it and inside a character. -/
theorem found_eq_none_iff {text : String} {offset : Nat} :
    (excerptAround text offset).found = none ↔
      text.utf8ByteSize ≤ offset ∨ ¬ IsBoundary text.toList offset := by
  rw [← byteLength_toList, Option.eq_none_iff_forall_ne_some]
  simp only [ne_eq, found_eq_some_iff]
  constructor
  · intro hnone
    by_cases hboundary : IsBoundary text.toList offset
    · obtain ⟨front, back, htext, hbytes⟩ := hboundary
      rcases back with _ | ⟨c, back⟩
      · rw [htext, List.append_nil, hbytes]
        exact .inl (Nat.le_refl _)
      · exact (hnone c ⟨front, back, htext, hbytes⟩).elim
    · exact .inr hboundary
  · rintro hend c ⟨front, back, htext, hbytes⟩
    rcases hend with hend | hinside
    · have hpos := c.utf8Size_pos
      rw [htext, byteLength_append, byteLength_cons] at hend
      omega
    · exact hinside ⟨front, c :: back, htext, hbytes⟩

/-- What stands at the offset is in the window, after what is shown before it. -/
theorem View.getElem?_window {chars left window right front back : List Char}
    {offset count : Nat} {c : Char} (h : View chars offset count left window right)
    (hc : SplitsAt chars offset front (c :: back)) : window[min count 20]? = some c := by
  have hcount : count = front.length := by
    obtain ⟨front', back', hsplit, rfl⟩ | ⟨hinside, -⟩ := h.before
    · rw [(hsplit.unique hc).1]
    · exact (hinside ⟨front, c :: back, hc⟩).elim
  have hlead := h.lead
  have hfull := h.full
  have hchars : chars[count]? = some c := by
    rw [hc.1, hcount, List.getElem?_append_right (Nat.le_refl _), Nat.sub_self]
    rfl
  have hlength : count < chars.length := List.getElem?_eq_some_iff.mp hchars |>.1
  have hplace : left.length + min count 20 = count := by omega
  have hwindow : min count 20 < window.length := by
    rw [h.split, List.length_append, List.length_append] at hlength
    by_cases hright : right = []
    · rw [hright, List.length_nil] at hlength
      omega
    · have := hfull hright
      omega
  rw [h.split, ← hplace, List.getElem?_append_right (Nat.le_add_right _ _),
    Nat.add_sub_cancel_left, List.getElem?_append_left hwindow] at hchars
  exact hchars

/-- An error at a byte offset shows a view of the text from there, on one line and with
marks for what is left out; what it has found is the character at the offset, which is
among those shown. -/
theorem atOffset_shows_view (kind : ReadErrorKind) (message text : String) (offset : Nat) :
    ∃ count left window right, View text.toList offset count left window right ∧
      (ReadError.atOffset kind message text offset).context =
        some (.ofList (onOneLine (markFor left ++ window ++ markFor right))) ∧
      (∀ c, (ReadError.atOffset kind message text offset).found = some c ↔
        ∃ front back, SplitsAt text.toList offset front (c :: back)) ∧
      ((ReadError.atOffset kind message text offset).found = none ↔
        text.utf8ByteSize ≤ offset ∨ ¬ IsBoundary text.toList offset) ∧
      ∀ c, (ReadError.atOffset kind message text offset).found = some c →
        window[min count 20]? = some c := by
  obtain ⟨count, left, window, right, hview, hshown⟩ := excerptAround_shows_view text offset
  refine ⟨count, left, window, right, hview, congrArg some hshown, fun c => found_eq_some_iff,
    found_eq_none_iff, fun c hc => ?_⟩
  obtain ⟨front, back, hsplit⟩ := found_eq_some_iff.mp hc
  exact hview.getElem?_window hsplit

end Lisplet
