/-
Renderings without end.  Writing a value follows the atoms in it into their contents, and
those into theirs.  The cells of a machine are finitely many, so that the writing either
ends or comes to a cell that contains itself, directly or through others.
-/
import Lisplet.Value.Text
import Mathlib.Data.List.Perm.Subperm
import Mathlib.Logic.Relation

namespace Lisplet

open Relation

mutual

def Value.cells : Value → List Nat
  | .atom cell => [cell]
  | .list items | .vector items | .map items => cellsOf items
  | _ => []

def cellsOf : List Value → List Nat
  | [] => []
  | value :: values => value.cells ++ cellsOf values

end

/-- The atom of the other cell occurs in the content of the first. -/
def Machine.Contains (m : Machine) (cell other : Nat) : Prop :=
  other ∈ (m.cells[cell]?.getD .nil).cells

/-- The value leads to a cell that contains itself, through however many others. -/
def Machine.IsEndless (m : Machine) (value : Value) : Prop :=
  ∃ cell ∈ value.cells, ∃ other, ReflTransGen m.Contains cell other ∧ TransGen m.Contains other other

section

variable {style : Style} {cellText : Nat → Rendering}

mutual

/-- A value is written unless there is no text for one of its cells. -/
theorem Value.write_eq_none_iff (out : String) (value : Value) :
    value.write style cellText out = none ↔ ∃ cell ∈ value.cells, cellText cell = none := by
  cases value with
  | list items | vector items | map items =>
      rw [write, Option.map_eq_none_iff, Value.cells]
      exact writeItems_eq_none_iff _ items
  | bool truth | closure truth => cases truth <;> simp [write, Value.cells]
  | _ => simp [write, Value.cells]

theorem Value.writeItems_eq_none_iff (out : String) (items : List Value) :
    Value.writeItems style cellText out items = none ↔
      ∃ cell ∈ cellsOf items, cellText cell = none := by
  match items with
  | [] => simp [writeItems, cellsOf]
  | [item] =>
      rw [writeItems, write_eq_none_iff, cellsOf, cellsOf, List.append_nil]
  | item :: next :: items =>
      have hfirst := write_eq_none_iff out item
      rw [writeItems, cellsOf]
      simp only [List.mem_append, or_and_right, exists_or]
      rw [← hfirst]
      cases item.write style cellText out with
      | none => simp
      | some text => simpa using writeItems_eq_none_iff (text.push ' ') (next :: items)

end

end

section

variable {m : Machine} {style : Style} {cell : Nat}

theorem Machine.Contains.lt_size {other : Nat} (h : m.Contains cell other) :
    cell < m.cells.size := by
  by_contra hsize
  rw [Contains, Array.getElem?_eq_none (Nat.le_of_not_lt hsize)] at h
  cases h

theorem Machine.cellText_succ_eq_none_iff {fuel : Nat} :
    m.cellText style (fuel + 1) cell = none ↔
      ∃ other, m.Contains cell other ∧ m.cellText style fuel other = none :=
  Value.write_eq_none_iff _ _

/-- Where writing the content of a cell takes more than so many cells, they lead one to
the next. -/
theorem exists_chain_of_cellText {fuel : Nat} (h : m.cellText style (fuel + 1) cell = none) :
    ∃ others, others.length = fuel ∧ (cell :: others).IsChain m.Contains ∧
      ∀ other ∈ cell :: others, other < m.cells.size := by
  induction fuel generalizing cell with
  | zero =>
      obtain ⟨other, hcontains, -⟩ := Machine.cellText_succ_eq_none_iff.mp h
      exact ⟨[], rfl, .singleton _, by simpa using hcontains.lt_size⟩
  | succ fuel ih =>
      obtain ⟨other, hcontains, hother⟩ := Machine.cellText_succ_eq_none_iff.mp h
      obtain ⟨others, hlength, hchain, hsize⟩ := ih hother
      exact ⟨other :: others, congrArg (· + 1) hlength, .cons_cons hcontains hchain,
        List.forall_mem_cons.mpr ⟨hcontains.lt_size, hsize⟩⟩

/-- A chain of more cells than there are comes back to one of its own. -/
theorem exists_cycle_of_cellText (h : m.cellText style (m.cells.size + 1) cell = none) :
    ∃ other, ReflTransGen m.Contains cell other ∧ TransGen m.Contains other other := by
  obtain ⟨others, hlength, hchain, hsize⟩ := exists_chain_of_cellText h
  by_contra hnone
  push Not at hnone
  have hpairs : (cell :: others).Pairwise (TransGen m.Contains) :=
    List.isChain_iff_pairwise.mp (hchain.imp fun _ _ => .single)
  have hreach : ∀ other ∈ cell :: others, ReflTransGen m.Contains cell other := by
    intro other hother
    rcases List.mem_cons.mp hother with rfl | hother
    · exact .refl
    · exact (List.rel_of_pairwise_cons hpairs hother).to_reflTransGen
  have hnodup : (cell :: others).Nodup := by
    refine hpairs.imp_of_mem fun hfirst _ htrans heq => ?_
    subst heq
    exact hnone _ (hreach _ hfirst) htrans
  have hle := (hnodup.subperm fun other hother => List.mem_range.mpr (hsize other hother)).length_le
  rw [List.length_cons, hlength, List.length_range] at hle
  omega

/-- A cell that leads to one which contains itself has no text, whatever the cells that
are allowed. -/
theorem cellText_eq_none_of_cycle {other : Nat} (hreach : ReflTransGen m.Contains cell other)
    (hcycle : TransGen m.Contains other other) (fuel : Nat) :
    m.cellText style fuel cell = none := by
  induction fuel generalizing cell with
  | zero => rfl
  | succ fuel ih =>
      obtain ⟨next, hcontains, hnext⟩ : ∃ next, m.Contains cell next ∧
          ReflTransGen m.Contains next other := by
        rcases hreach.cases_head with rfl | hstep
        · exact TransGen.head'_iff.mp hcycle
        · exact hstep
      exact Machine.cellText_succ_eq_none_iff.mpr ⟨next, hcontains, ih hnext⟩

/-- The writing of a value has no end exactly where the value leads to a cell that
contains itself. -/
theorem Machine.text_eq_none_iff {value : Value} :
    m.text style value = none ↔ m.IsEndless value := by
  rw [text, Value.write_eq_none_iff]
  constructor
  · rintro ⟨cell, hcell, hnone⟩
    exact ⟨cell, hcell, exists_cycle_of_cellText hnone⟩
  · rintro ⟨cell, hcell, other, hreach, hcycle⟩
    exact ⟨cell, hcell, cellText_eq_none_of_cycle hreach hcycle _⟩

end

section

variable {m m' : Machine}

theorem Machine.cellText_eq_of_cells (h : m'.cells = m.cells) (style : Style) (fuel : Nat) :
    m'.cellText style fuel = m.cellText style fuel := by
  induction fuel with
  | zero => rfl
  | succ fuel ih =>
      funext cell
      simp only [Machine.cellText, h, ih]

/-- What is written of a value depends on the cells alone. -/
theorem Machine.text_eq_of_cells (h : m'.cells = m.cells) (style : Style) (value : Value) :
    m'.text style value = m.text style value := by
  simp only [Machine.text, Machine.cellText_eq_of_cells h, h]

theorem Machine.textAll_eq_of_cells (h : m'.cells = m.cells) (style : Style) (separator : String)
    (values : List Value) : m'.textAll style separator values = m.textAll style separator values := by
  simp only [Machine.textAll, funext (Machine.text_eq_of_cells h style)]

end

end Lisplet
