/-
What machines hold.  Frames bind names to values, cells and the bodies of
closures are values, and native functions occur inside values.  What holds of
all values in a machine stays true when the machine is given more such values.
-/
import Lisplet.Parameters
import Lisplet.Proofs.RoundTrip
import Lisplet.Primitive.Call

namespace Lisplet

mutual

def Value.natives : Value → List Native
  | .native function => [function]
  | .list items | .vector items | .map items => nativesOf items
  | _ => []

def nativesOf : List Value → List Native
  | [] => []
  | value :: values => value.natives ++ nativesOf values

end

theorem mem_nativesOf {native : Native} {values : List Value} :
    native ∈ nativesOf values ↔ ∃ value ∈ values, native ∈ value.natives := by
  induction values with
  | nil => simp [nativesOf]
  | cons value values ih => simp [nativesOf, ih]

/-- Every native function that occurs in the value is allowed. -/
def Value.NativesIn (allowed : Native → Prop) (value : Value) : Prop :=
  ∀ native ∈ value.natives, allowed native

instance (allowed : Native → Prop) [DecidablePred allowed] (value : Value) :
    Decidable (value.NativesIn allowed) :=
  inferInstanceAs (Decidable (∀ native ∈ value.natives, allowed native))

section

variable {allowed : Native → Prop}

theorem nativesOf_allowed_iff {values : List Value} :
    (∀ native ∈ nativesOf values, allowed native) ↔
      ∀ value ∈ values, value.NativesIn allowed := by
  constructor
  · intro h value hvalue native hnative
    exact h native (mem_nativesOf.mpr ⟨value, hvalue, hnative⟩)
  · intro h native hnative
    obtain ⟨value, hvalue, hmem⟩ := mem_nativesOf.mp hnative
    exact h value hvalue native hmem

@[simp] theorem nativesIn_list {items : List Value} :
    (Value.list items).NativesIn allowed ↔ ∀ item ∈ items, item.NativesIn allowed :=
  nativesOf_allowed_iff

@[simp] theorem nativesIn_vector {items : List Value} :
    (Value.vector items).NativesIn allowed ↔ ∀ item ∈ items, item.NativesIn allowed :=
  nativesOf_allowed_iff

@[simp] theorem nativesIn_map {entries : List Value} :
    (Value.map entries).NativesIn allowed ↔ ∀ entry ∈ entries, entry.NativesIn allowed :=
  nativesOf_allowed_iff

@[simp] theorem nativesIn_native {native : Native} :
    (Value.native native).NativesIn allowed ↔ allowed native := by
  simp [Value.NativesIn, Value.natives]

mutual

theorem Readable.nativesIn : ∀ {levels form}, Readable levels form → form.NativesIn allowed
  | _, _, .nil | _, _, .bool | _, _, .number | _, _, .string | _, _, .symbol _ =>
      fun _ hnative => by cases hnative
  | _, _, .list hitems => nativesIn_list.mpr (ReadableItems.nativesIn hitems)
  | _, _, .vector hitems => nativesIn_vector.mpr (ReadableItems.nativesIn hitems)
  | _, _, .map _ hentries => nativesIn_map.mpr (ReadableItems.nativesIn hentries)

theorem ReadableItems.nativesIn : ∀ {levels items}, ReadableItems levels items →
    ∀ item ∈ items, item.NativesIn allowed
  | _, _, .nil => fun _ hitem => by cases hitem
  | _, _, .cons hitem hitems =>
      List.forall_mem_cons.mpr ⟨Readable.nativesIn hitem, ReadableItems.nativesIn hitems⟩

end

/-- What a program reads while it runs has no native functions in it. -/
theorem nativesIn_of_readText {text : String} {form : Value} (h : readText text = .ok form) :
    form.NativesIn allowed := by
  rw [readText] at h
  split at h
  · next read hread =>
      cases h
      exact (readable_of_readWhole hread).nativesIn
  · split at h
    · cases h
      exact (Readable.nil : Readable 1 .nil).nativesIn
    · cases h

end

/-- Cells change by one step: there is a new one, or one gets another content. -/
inductive Rewrites (cells : Array Value) : Array Value → Prop
  | make (content : Value) : Rewrites cells (cells.push content)
  | replace (cell : Nat) (content : Value) : Rewrites cells (cells.setIfInBounds cell content)

/-- All values in the machine satisfy the predicate. -/
structure Machine.Holds (value : Value → Prop) (m : Machine) : Prop where
  frames : ∀ frame ∈ m.frames, ∀ binding ∈ frame, value binding.2
  cells : ∀ content ∈ m.cells, value content
  closures : ∀ closure ∈ m.closures, value closure.body

namespace Frame

variable {value : Value → Prop}

theorem holds_set {frame : Frame} (h : ∀ binding ∈ frame, value binding.2) {name : String}
    {bound : Value} (hbound : value bound) : ∀ binding ∈ frame.set name bound, value binding.2 := by
  induction frame with
  | nil => simpa [set] using hbound
  | cons binding frame ih =>
      rw [List.forall_mem_cons] at h
      obtain ⟨name', old⟩ := binding
      by_cases heq : name' = name
      · rw [set, if_pos heq, List.forall_mem_cons]
        exact ⟨hbound, h.2⟩
      · rw [set, if_neg heq, List.forall_mem_cons]
        exact ⟨h.1, ih h.2⟩

theorem holds_get? {frame : Frame} (h : ∀ binding ∈ frame, value binding.2) {name : String}
    {bound : Value} (hget : frame.get? name = some bound) : value bound := by
  induction frame with
  | nil => cases hget
  | cons binding frame ih =>
      rw [List.forall_mem_cons] at h
      obtain ⟨name', old⟩ := binding
      by_cases heq : name' = name
      · rw [get?, if_pos heq] at hget
        cases hget
        exact h.1
      · rw [get?, if_neg heq] at hget
        exact ih h.2 hget

/-- Names bound one by one stand for the values that they were given. -/
theorem holds_bindEach (names : List String) {values : List Value}
    (h : ∀ bound ∈ values, value bound) : ∀ binding ∈ bindEach names values, value binding.2 := by
  suffices hfold : ∀ frame : Frame, (∀ binding ∈ frame, value binding.2) →
      ∀ binding ∈ (names.zip values).foldl (fun frame binding => frame.set binding.1 binding.2)
        frame, value binding.2 from hfold [] (by simp)
  induction names generalizing values with
  | nil => exact fun _ hframe => hframe
  | cons name names ih =>
      rcases values with _ | ⟨first, values⟩
      · exact fun _ hframe => hframe
      · rw [List.forall_mem_cons] at h
        intro frame hframe
        exact ih h.2 _ (holds_set hframe h.1)

end Frame

namespace Machine.Holds

variable {value : Value → Prop} {m : Machine}

theorem lookup? (h : m.Holds value) {scope : Scope} {name : String} {bound : Value}
    (hbound : m.lookup? scope name = some bound) : value bound := by
  rw [Machine.lookup?] at hbound
  obtain ⟨index, -, hget⟩ := List.exists_of_findSome?_eq_some hbound
  refine Frame.holds_get? (fun binding hbinding => ?_) hget
  by_cases hindex : index < m.frames.size
  · rw [Machine.frame, Array.getElem?_eq_getElem hindex, Option.getD_some] at hbinding
    exact h.frames _ (Array.getElem_mem hindex) binding hbinding
  · rw [Machine.frame, Array.getElem?_eq_none (by omega), Option.getD_none] at hbinding
    cases hbinding

theorem closure (h : m.Holds value) {code : Nat} {closure : Closure}
    (hclosure : m.closures[code]? = some closure) : value closure.body :=
  h.closures closure (Array.mem_of_getElem? hclosure)

theorem define (h : m.Holds value) (scope : Scope) (name : String) {bound : Value}
    (hbound : value bound) :
    Machine.Holds value { m with frames := m.frames.modify scope.own (·.set name bound) } where
  frames := by
    intro frame hframe
    obtain ⟨index, hindex, rfl⟩ := Array.mem_iff_getElem.mp hframe
    rw [Array.size_modify] at hindex
    rw [Array.getElem_modify]
    split
    · exact Frame.holds_set (h.frames _ (Array.getElem_mem hindex)) hbound
    · exact h.frames _ (Array.getElem_mem hindex)
  cells := h.cells
  closures := h.closures

theorem pushFrame (h : m.Holds value) {frame : Frame}
    (hframe : ∀ binding ∈ frame, value binding.2) :
    Machine.Holds value { m with frames := m.frames.push frame } where
  frames := by
    intro other hother
    rcases Array.mem_push.mp hother with hold | rfl
    · exact h.frames other hold
    · exact hframe
  cells := h.cells
  closures := h.closures

theorem pushClosure (h : m.Holds value) {closure : Closure} (hbody : value closure.body) :
    Machine.Holds value { m with closures := m.closures.push closure } where
  frames := h.frames
  cells := h.cells
  closures := by
    intro other hother
    rcases Array.mem_push.mp hother with hold | rfl
    · exact h.closures other hold
    · exact hbody

/-- Cells and printed text may change, as long as the cells hold such values. -/
theorem replace (h : m.Holds value) {cells : Array Value}
    (hcells : ∀ content ∈ cells, value content)
    (printed : String) : Machine.Holds value { m with cells := cells, printed := printed } where
  frames := h.frames
  cells := hcells
  closures := h.closures

end Machine.Holds

end Lisplet
