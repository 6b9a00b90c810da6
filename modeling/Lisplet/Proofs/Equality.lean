/-
Equality and order.  Two values are equal when they come to the same value once every vector
is written as a list, so equality is an equivalence; and since it and the four order relations
are transitive, comparing each two neighbours compares all the arguments.
-/
import Lisplet.Proofs.ExactArithmetic
import Mathlib.Data.List.Chain
import Mathlib.Order.Basic

namespace Lisplet

namespace Value

mutual

/-- The value with every vector in it written as a list.  Atoms and functions are references
and stay as they are. -/
def listed : Value → Value
  | list items | vector items => list (listedItems items)
  | map entries => map (listedItems entries)
  | other => other

def listedItems : List Value → List Value
  | [] => []
  | value :: values => listed value :: listedItems values

end

mutual

/-- Values are equal when they come to the same value without vectors. -/
theorem same_iff_listed_eq (a b : Value) : a.same b = true ↔ a.listed = b.listed := by
  cases a with
  | list as | vector as =>
      cases b with
      | list bs | vector bs => simpa [same, listed] using sameItems_iff_listedItems_eq as bs
      | _ => simp [same, listed]
  | map as =>
      cases b with
      | map bs => simpa [same, listed] using sameItems_iff_listedItems_eq as bs
      | _ => simp [same, listed]
  | _ => cases b <;> simp [same, listed]

theorem sameItems_iff_listedItems_eq (as bs : List Value) :
    sameItems as bs = true ↔ listedItems as = listedItems bs := by
  rcases as with _ | ⟨a, as⟩ <;> rcases bs with _ | ⟨b, bs⟩
  · simp [sameItems]
  · simp [sameItems, listedItems]
  · simp [sameItems, listedItems]
  · simp [sameItems, listedItems, same_iff_listed_eq a b, sameItems_iff_listedItems_eq as bs]

end

def Same (a b : Value) : Prop :=
  a.same b = true

instance (a b : Value) : Decidable (Same a b) :=
  inferInstanceAs (Decidable (_ = _))

theorem same_eq_true_iff {a b : Value} : a.same b = true ↔ a.Same b :=
  Iff.rfl

theorem same_equivalence : Equivalence Same := by
  have hsame : Same = fun a b => a.listed = b.listed :=
    funext₂ fun a b => propext (same_iff_listed_eq a b)
  rw [hsame]
  exact eq_equivalence.comap listed

instance : Trans Same Same Same :=
  ⟨same_equivalence.trans⟩

instance : Std.Symm Same :=
  ⟨fun _ _ => same_equivalence.symm⟩

end Value

namespace Comparison

/-- The relation between the integers that two numbers are. -/
def Relates : Comparison → Int64 → Int64 → Prop
  | less, a, b => a.toInt < b.toInt
  | lessOrEqual, a, b => a.toInt ≤ b.toInt
  | greater, a, b => b.toInt < a.toInt
  | greaterOrEqual, a, b => b.toInt ≤ a.toInt

theorem holds_iff_relates (relation : Comparison) (a b : Int64) :
    relation.holds a b = true ↔ relation.Relates a b := by
  cases relation <;> simp [holds, Relates, Int64.lt_iff_toInt_lt, Int64.le_iff_toInt_le]

instance (relation : Comparison) : Trans relation.Relates relation.Relates relation.Relates :=
  ⟨fun {_ _ _} hab hbc => by
    cases relation with
    | less => exact Int.lt_trans hab hbc
    | lessOrEqual => exact Int.le_trans hab hbc
    | greater => exact Int.lt_trans hbc hab
    | greaterOrEqual => exact Int.le_trans hbc hab⟩

end Comparison

/-- A check of neighbours is a chain of the relation that it checks. -/
theorem chained_iff_isChain {related : α → α → Bool} {Related : α → α → Prop}
    (h : ∀ a b, related a b = true ↔ Related a b) (values : List α) :
    chained related values = true ↔ values.IsChain Related := by
  induction values using chained.induct with
  | case1 a b rest ih => simp [chained, h, ih]
  | case2 values hshort =>
      rcases values with _ | ⟨a, _ | ⟨b, rest⟩⟩
      · simp [chained]
      · simp [chained]
      · exact (hshort a b rest rfl).elim

/-- For a transitive relation, a check of neighbours is a check of every two. -/
theorem chained_iff_pairwise {related : α → α → Bool} {Related : α → α → Prop}
    [Trans Related Related Related] (h : ∀ a b, related a b = true ↔ Related a b)
    (values : List α) : chained related values = true ↔ values.Pairwise Related :=
  (chained_iff_isChain h values).trans List.isChain_iff_pairwise

theorem chained_same_iff (values : List Value) :
    chained Value.same values = true ↔ ∀ a ∈ values, ∀ b ∈ values, a.Same b := by
  have hpairs : chained Value.same values = true ↔ values.Pairwise Value.Same :=
    chained_iff_pairwise (fun _ _ => Value.same_eq_true_iff) values
  rw [hpairs]
  constructor
  · intro h a ha b hb
    exact h.forall_of_forall (fun c _ => Value.same_equivalence.refl c) ha hb
  · exact List.pairwise_of_forall_mem_list

section Call

variable {native : Native} {relation : Comparison} (evaluator : Evaluator) (m : Machine)

/-- `=` is true when each two of its arguments are equal. -/
theorem apply_equal (hnative : native.operation = .primitive .equal) {arguments : List Value}
    (hsome : arguments ≠ []) :
    ∃ truth, apply evaluator (.native native) arguments m = .value (.bool truth) m ∧
      (truth = true ↔ ∀ a ∈ arguments, ∀ b ∈ arguments, a.Same b) := by
  refine ⟨chained Value.same arguments, ?_, chained_same_iff arguments⟩
  rcases arguments with _ | ⟨first, others⟩
  · exact (hsome rfl).elim
  · rw [apply_primitive evaluator hnative rfl]
    rfl

theorem apply_compare (hnative : native.operation = .primitive (.compare relation))
    {arguments : List Value} (hsome : arguments ≠ []) :
    apply evaluator (.native native) arguments m =
      match Value.toNumbers arguments with
      | .error cause => .error cause m
      | .ok numbers => .value (.bool (chained relation.holds numbers)) m := by
  rcases arguments with _ | ⟨first, others⟩
  · exact (hsome rfl).elim
  · rw [apply_primitive evaluator hnative rfl]
    rcases Value.toNumbers (first :: others) with cause | numbers <;> rfl

/-- A comparison of numbers is true when each of them is so related to every later one. -/
theorem apply_compare_numbers (hnative : native.operation = .primitive (.compare relation))
    {numbers : List Int64} (hsome : numbers ≠ []) :
    ∃ truth, apply evaluator (.native native) (numbers.map .number) m = .value (.bool truth) m ∧
      (truth = true ↔ numbers.Pairwise relation.Relates) := by
  refine ⟨chained relation.holds numbers, ?_,
    chained_iff_pairwise relation.holds_iff_relates numbers⟩
  rw [apply_compare evaluator m hnative (by simpa using hsome), toNumbers_numbers]

/-- A comparison refuses the first argument that is no number, however the numbers before it
are related. -/
theorem apply_compare_other (hnative : native.operation = .primitive (.compare relation))
    {arguments : List Value} (hother : ∃ value ∈ arguments, value.kind ≠ .number) :
    ∃ (numbers : List Int64) (other : Value) (others : List Value),
      arguments = numbers.map .number ++ other :: others ∧ other.kind ≠ .number ∧
      apply evaluator (.native native) arguments m =
        .error (.type (.unmet .number other.kind) none) m := by
  obtain ⟨numbers, rfl⟩ | ⟨numbers, other, others, rfl, hkind⟩ := numbers_before_other arguments
  · obtain ⟨value, hvalue, hkind⟩ := hother
    obtain ⟨n, -, rfl⟩ := List.mem_map.mp hvalue
    exact (hkind rfl).elim
  · refine ⟨numbers, other, others, rfl, hkind, ?_⟩
    rw [apply_compare evaluator m hnative (by simp), toNumbers_other numbers hkind others]
    rfl

end Call

/-- Equality is an equivalence: two values are equal when they differ only in which of their
sequences are lists and which are vectors.  So `=` compares all its arguments with each
other, and the order relations compare each number with every later one; an argument that is
no number is refused wherever it stands.  With nothing to compare, all five are refused. -/
theorem equality_equivalence_comparisons_global :
    Equivalence Value.Same ∧
    (∀ a b : Value, a.Same b ↔ a.listed = b.listed) ∧
    ∀ (native : Native) (evaluator : Evaluator) (m : Machine),
      (native.operation = .primitive .equal →
        (∀ arguments : List Value, arguments ≠ [] →
          ∃ truth, apply evaluator (.native native) arguments m = .value (.bool truth) m ∧
            (truth = true ↔ ∀ a ∈ arguments, ∀ b ∈ arguments, a.Same b)) ∧
        apply evaluator (.native native) [] m = .error (.arity (.atLeast 1) 0 none) m) ∧
      ∀ relation : Comparison, native.operation = .primitive (.compare relation) →
        (∀ numbers : List Int64, numbers ≠ [] →
          ∃ truth, apply evaluator (.native native) (numbers.map .number) m =
              .value (.bool truth) m ∧
            (truth = true ↔ numbers.Pairwise relation.Relates)) ∧
        (∀ arguments : List Value, (∃ value ∈ arguments, value.kind ≠ .number) →
          ∃ (numbers : List Int64) (other : Value) (others : List Value),
            arguments = numbers.map .number ++ other :: others ∧ other.kind ≠ .number ∧
            apply evaluator (.native native) arguments m =
              .error (.type (.unmet .number other.kind) none) m) ∧
        apply evaluator (.native native) [] m = .error (.arity (.atLeast 1) 0 none) m := by
  have hnothing (native : Native) (evaluator : Evaluator) (m : Machine)
      (harity : native.operation.arity = .atLeast 1) :
      apply evaluator (.native native) [] m = .error (.arity (.atLeast 1) 0 none) m := by
    rw [apply_wrongCount evaluator (by rw [harity]; rfl), wrongCount, harity]
    rfl
  refine ⟨Value.same_equivalence, Value.same_iff_listed_eq, fun native evaluator m => ?_⟩
  constructor
  · intro hnative
    exact ⟨fun _ hsome => apply_equal evaluator m hnative hsome,
      hnothing native evaluator m (by rw [hnative]; rfl)⟩
  · intro relation hnative
    exact ⟨fun _ hsome => apply_compare_numbers evaluator m hnative hsome,
      fun _ hother => apply_compare_other evaluator m hnative hother,
      hnothing native evaluator m (by rw [hnative]; rfl)⟩

def equality : Native := ⟨"=", .primitive .equal, 4⟩

def isLess : Native := ⟨"<", .primitive (.compare .less), 5⟩

/-- A list with a vector in it, and the same the other way about. -/
def mixedNestings : List Value :=
  [.list [.number 1, .vector [.list [], .map [.string "k", .vector [.nil]]]],
    .vector [.number 1, .list [.vector [], .map [.string "k", .list [.nil]]]]]

/-- The last number is not greater than all before it, though it is greater than the one
next to it. -/
def notIncreasing : List Int64 := [3, 1, 2]

def stringLast : List Value := [.number 2, .number 1, .string "three"]

theorem equality_equivalence_comparisons_global_mixedNestings :
    apply evaluate (.native equality) mixedNestings (.fresh noFiles) =
        .value (.bool true) (.fresh noFiles) ∧
      apply evaluate (.native isLess) (notIncreasing.map .number) (.fresh noFiles) =
        .value (.bool false) (.fresh noFiles) ∧
      apply evaluate (.native isLess) stringLast (.fresh noFiles) =
        .error (.type (.unmet .number .string) none) (.fresh noFiles) := by
  obtain ⟨-, -, hcalls⟩ := equality_equivalence_comparisons_global
  obtain ⟨hequal, -⟩ := (hcalls equality evaluate (.fresh noFiles)).1 rfl
  obtain ⟨hnumbers, hother, -⟩ := (hcalls isLess evaluate (.fresh noFiles)).2 .less rfl
  refine ⟨?_, ?_, ?_⟩
  · obtain ⟨truth, htruth, hall⟩ := hequal mixedNestings (by simp [mixedNestings])
    have hsame : ∀ a ∈ mixedNestings, ∀ b ∈ mixedNestings, a.Same b := by decide
    rw [htruth, hall.mpr hsame]
  · obtain ⟨truth, htruth, hpairs⟩ := hnumbers notIncreasing (by simp [notIncreasing])
    have hnot : ¬ notIncreasing.Pairwise Comparison.less.Relates := by
      simp [notIncreasing, Comparison.Relates]
    rw [htruth, Bool.eq_false_iff.mpr (mt hpairs.mp hnot)]
  · obtain ⟨numbers, other, others, hsplit, hkind, herror⟩ :=
      hother stringLast ⟨.string "three", by simp [stringLast], by simp [Value.kind]⟩
    rw [herror]
    rcases numbers with _ | ⟨_, _ | ⟨_, _ | ⟨_, numbers⟩⟩⟩ <;> cases hsplit
    · exact (hkind rfl).elim
    · exact (hkind rfl).elim
    · rfl

end Lisplet
