/-
Exact arithmetic.  A calculation goes from left to right, on unbounded integers; the
primitives carry it out exactly, or refuse it at the first step that divides by zero or
leaves the range of numbers.
-/
import Lisplet.Proofs.Calls

namespace Lisplet

def InRange (n : Int) : Prop :=
  Int64.minValue.toInt ≤ n ∧ n ≤ Int64.maxValue.toInt

instance (n : Int) : Decidable (InRange n) :=
  inferInstanceAs (Decidable (_ ∧ _))

theorem int64?_eq_none_iff_not_inRange {n : Int} : int64? n = none ↔ ¬ InRange n := by
  rw [int64?_eq_none_iff, InRange]
  omega

namespace Arithmetic

/-- The operation on unbounded integers; division rounds toward zero. -/
def exact : Arithmetic → Int → Int → Int
  | add, a, b => a + b
  | subtract, a, b => a - b
  | multiply, a, b => a * b
  | divide, a, b => a.tdiv b

/-- The calculation on unbounded integers, from left to right. -/
def calculate (operation : Arithmetic) (start : Int) (steps : List Int) : Int :=
  steps.foldl operation.exact start

/-- Where the calculation on the integers starts, and what it goes on with.  To negate an
integer is to subtract it from zero. -/
inductive Begins : Arithmetic → (integers : List Int) → (start : Int) → (steps : List Int) → Prop
  | sum {integers} : Begins add integers 0 integers
  | product {integers} : Begins multiply integers 1 integers
  | negation {n} : Begins subtract [n] 0 [n]
  | difference {n m integers} : Begins subtract (n :: m :: integers) n (m :: integers)
  | reciprocal {n} : Begins divide [n] 1 [n]
  | quotient {n m integers} : Begins divide (n :: m :: integers) n (m :: integers)

def HasZeroDivisor (operation : Arithmetic) (next : Int) : Prop :=
  operation = divide ∧ next = 0

instance (operation : Arithmetic) (next : Int) : Decidable (operation.HasZeroDivisor next) :=
  inferInstanceAs (Decidable (_ ∧ _))

/-- No step of the calculation divides by zero or leaves the range. -/
def StaysInRange (operation : Arithmetic) (start : Int) (steps : List Int) : Prop :=
  ∀ before next after, steps = before ++ next :: after →
    ¬ operation.HasZeroDivisor next ∧ InRange (operation.calculate start (before ++ [next]))

/-- The fault of the first step that divides by zero or leaves the range. -/
inductive FirstFault (operation : Arithmetic) (start : Int) :
    (steps : List Int) → EvaluationFault → Prop
  | zeroDivisor {before next after} (hbefore : operation.StaysInRange start before)
      (hzero : operation.HasZeroDivisor next) :
      FirstFault operation start (before ++ next :: after) .divisionByZero
  | outOfRange {before next after} (hbefore : operation.StaysInRange start before)
      (hzero : ¬ operation.HasZeroDivisor next)
      (hrange : ¬ InRange (operation.calculate start (before ++ [next]))) :
      FirstFault operation start (before ++ next :: after) (.overflow operation.name)

variable {operation : Arithmetic}

theorem staysInRange_nil {start : Int} : operation.StaysInRange start [] := by
  intro before next after h
  simp at h

theorem staysInRange_cons {start next : Int} {steps : List Int} :
    operation.StaysInRange start (next :: steps) ↔
      (¬ operation.HasZeroDivisor next ∧ InRange (operation.exact start next)) ∧
        operation.StaysInRange (operation.exact start next) steps := by
  constructor
  · intro h
    refine ⟨h [] next steps rfl, fun before later after hsteps => ?_⟩
    rw [hsteps] at h
    exact h (next :: before) later after rfl
  · rintro ⟨hnext, h⟩ before later after hsteps
    rcases before with _ | ⟨first, before⟩
    · cases hsteps
      exact hnext
    · cases hsteps
      exact h before later after rfl

/-- What goes wrong later goes wrong after a step that can be made. -/
theorem FirstFault.cons {start next : Int} {steps : List Int} {fault : EvaluationFault}
    (hnext : ¬ operation.HasZeroDivisor next ∧ InRange (operation.exact start next))
    (h : operation.FirstFault (operation.exact start next) steps fault) :
    operation.FirstFault start (next :: steps) fault := by
  cases h with
  | @zeroDivisor before later after hbefore hzero =>
      have hstays := staysInRange_cons.mpr ⟨hnext, hbefore⟩
      exact @FirstFault.zeroDivisor _ _ (next :: before) later after hstays hzero
  | @outOfRange before later after hbefore hzero hrange =>
      have hstays := staysInRange_cons.mpr ⟨hnext, hbefore⟩
      exact @FirstFault.outOfRange _ _ (next :: before) later after hstays hzero hrange

theorem FirstFault.not_staysInRange {start : Int} {steps : List Int} {fault : EvaluationFault}
    (h : operation.FirstFault start steps fault) : ¬ operation.StaysInRange start steps := by
  intro hstays
  cases h with
  | zeroDivisor hbefore hzero => exact (hstays _ _ _ rfl).1 hzero
  | outOfRange hbefore hzero hrange => exact hrange (hstays _ _ _ rfl).2

theorem integer?_eq (a b : Int) :
    operation.integer? a b =
      if operation.HasZeroDivisor b then none else some (operation.exact a b) := by
  cases operation <;> simp [integer?, HasZeroDivisor, exact]

/-- A step divides by zero, or leaves the range, or is made exactly. -/
theorem apply_cases (operation : Arithmetic) (a b : Int64) :
    operation.HasZeroDivisor b.toInt ∧ operation.apply a b = .error .divisionByZero ∨
    (¬ operation.HasZeroDivisor b.toInt ∧ ¬ InRange (operation.exact a.toInt b.toInt)) ∧
      operation.apply a b = .error (.overflow operation.name) ∨
    (¬ operation.HasZeroDivisor b.toInt ∧ InRange (operation.exact a.toInt b.toInt)) ∧
      ∃ result : Int64, operation.apply a b = .ok result ∧
        result.toInt = operation.exact a.toInt b.toInt := by
  rw [apply, integer?_eq]
  by_cases hzero : operation.HasZeroDivisor b.toInt
  · rw [if_pos hzero]
    exact .inl ⟨hzero, rfl⟩
  · rw [if_neg hzero]
    generalize operation.exact a.toInt b.toInt = n
    simp only
    rcases hword : int64? n with _ | word
    · exact .inr (.inl ⟨⟨hzero, int64?_eq_none_iff_not_inRange.mp hword⟩, rfl⟩)
    · have hrange : InRange n := by
        rw [← Decidable.not_not (p := InRange n), ← int64?_eq_none_iff_not_inRange, hword]
        simp
      exact .inr (.inr ⟨⟨hzero, hrange⟩, word, rfl, toInt_of_int64? hword⟩)

/-- The steps are all made exactly, or the first that cannot be made is refused. -/
theorem foldlM_apply_cases (operation : Arithmetic) (first : Int64) (others : List Int64) :
    operation.StaysInRange first.toInt (others.map Int64.toInt) ∧
      (∃ result : Int64, others.foldlM operation.apply first = .ok result ∧
        result.toInt = operation.calculate first.toInt (others.map Int64.toInt)) ∨
    ∃ fault, operation.FirstFault first.toInt (others.map Int64.toInt) fault ∧
      others.foldlM operation.apply first = .error fault := by
  induction others generalizing first with
  | nil => exact .inl ⟨staysInRange_nil, first, rfl, rfl⟩
  | cons next others ih =>
      rw [List.foldlM_cons, List.map_cons]
      obtain ⟨hzero, hstep⟩ | ⟨⟨hzero, hrange⟩, hstep⟩ | ⟨hnext, middle, hstep, hmiddle⟩ :=
        operation.apply_cases first next
      · rw [hstep]
        exact .inr ⟨_, @FirstFault.zeroDivisor _ _ [] _ _ staysInRange_nil hzero, rfl⟩
      · rw [hstep]
        exact .inr ⟨_, @FirstFault.outOfRange _ _ [] _ _ staysInRange_nil hzero hrange, rfl⟩
      · rw [hstep]
        obtain ⟨hstays, result, hresult, hexact⟩ | ⟨fault, hfault, herror⟩ := ih middle
        · rw [hmiddle] at hstays hexact
          exact .inl ⟨staysInRange_cons.mpr ⟨hnext, hstays⟩, result, hresult, hexact⟩
        · rw [hmiddle] at hfault
          exact .inr ⟨fault, hfault.cons hnext, herror⟩

theorem begins_start {numbers : List Int64}
    (h : numbers = [] → operation = add ∨ operation = multiply) :
    Begins operation (numbers.map Int64.toInt) (operation.start numbers).1.toInt
      ((operation.start numbers).2.map Int64.toInt) := by
  rcases operation with _ | _ | _ | _
  · exact .sum
  · match numbers with
    | [] => simp at h
    | [_] => exact .negation
    | _ :: _ :: _ => exact .difference
  · exact .product
  · match numbers with
    | [] => simp at h
    | [_] => exact .reciprocal
    | _ :: _ :: _ => exact .quotient

end Arithmetic

theorem Value.kind_eq_number_iff {value : Value} :
    value.kind = .number ↔ ∃ n, value = .number n := by
  cases value with
  | closure isMacro code => cases isMacro <;> simp [kind]
  | _ => simp [kind]

/-- Values are numbers up to the first that is none. -/
theorem numbers_before_other (values : List Value) :
    (∃ numbers : List Int64, values = numbers.map .number) ∨
      ∃ (numbers : List Int64) (other : Value) (others : List Value),
        values = numbers.map .number ++ other :: others ∧ other.kind ≠ .number := by
  induction values with
  | nil => exact .inl ⟨[], rfl⟩
  | cons value values ih =>
      by_cases hvalue : value.kind = .number
      · obtain ⟨n, rfl⟩ := Value.kind_eq_number_iff.mp hvalue
        obtain ⟨numbers, rfl⟩ | ⟨numbers, other, others, rfl, hother⟩ := ih
        · exact .inl ⟨n :: numbers, rfl⟩
        · exact .inr ⟨n :: numbers, other, others, rfl, hother⟩
      · exact .inr ⟨[], value, values, rfl, hvalue⟩

theorem toNumbers_numbers (numbers : List Int64) :
    Value.toNumbers (numbers.map .number) = .ok numbers := by
  induction numbers with
  | nil => rfl
  | cons n numbers ih =>
      rw [Value.toNumbers] at ih ⊢
      rw [List.map_cons, List.mapM_cons, ih]
      rfl

theorem toNumbers_other (numbers : List Int64) {other : Value} (hother : other.kind ≠ .number)
    (others : List Value) :
    Value.toNumbers (numbers.map .number ++ other :: others) = .error (.unmet .number other) := by
  induction numbers with
  | nil =>
      have hnumber : other.toNumber = .error (.unmet .number other) := by
        cases other <;> first | rfl | exact (hother rfl).elim
      rw [List.map_nil, List.nil_append, Value.toNumbers, List.mapM_cons, hnumber]
      rfl
  | cons n numbers ih =>
      rw [Value.toNumbers] at ih ⊢
      rw [List.map_cons, List.cons_append, List.mapM_cons, ih]
      rfl

section Call

variable {operation : Arithmetic} {native : Native} {arguments : List Value}

/-- What a call of the primitive does with arguments that it takes. -/
theorem apply_arithmetic (hnative : native.operation = .primitive (.arithmetic operation))
    (hcount : arguments = [] → operation = .add ∨ operation = .multiply)
    (evaluator : Evaluator) (m : Machine) :
    apply evaluator (.native native) arguments m =
      match Value.toNumbers arguments with
      | .error cause => .error cause m
      | .ok numbers =>
          match operation.total numbers with
          | .ok n => .value (.number n) m
          | .error fault => .error (.evaluation fault none) m := by
  have hcall : Primitive.call? (.arithmetic operation) arguments = some (do
      let numbers ← .ofExcept (Value.toNumbers arguments)
      match operation.total numbers with
      | .ok n => return .number n
      | .error fault => .fail (.evaluation fault none)) := by
    rcases arguments with _ | ⟨value, values⟩
    · rcases hcount rfl with rfl | rfl <;> rfl
    · cases operation <;> rfl
  have htotal (total : Except EvaluationFault Int64) :
      (match total with
        | .ok n => pure (.number n)
        | .error fault => .fail (.evaluation fault none) : Eval Value) m =
      match total with
      | .ok n => .value (.number n) m
      | .error fault => .error (.evaluation fault none) m := by
    cases total <;> rfl
  rw [apply_primitive evaluator hnative hcall]
  rcases Value.toNumbers arguments with cause | numbers
  · rfl
  · exact htotal (operation.total numbers)

/-- The arithmetic primitives refuse the first argument that is no number, whatever the
others are.  On numbers they carry out the calculation exactly, if no step divides by
zero or leaves the range, and refuse it with the fault of the first step that does. -/
theorem arithmetic_exact_or_refused
    (hnative : native.operation = .primitive (.arithmetic operation))
    (hcount : arguments = [] → operation = .add ∨ operation = .multiply)
    (evaluator : Evaluator) (m : Machine) :
    ((∃ value ∈ arguments, value.kind ≠ .number) →
      ∃ (numbers : List Int64) (other : Value) (others : List Value),
        arguments = numbers.map .number ++ other :: others ∧ other.kind ≠ .number ∧
        apply evaluator (.native native) arguments m =
          .error (.type (.unmet .number other.kind) none) m) ∧
    ((∀ value ∈ arguments, value.kind = .number) →
      ∃ (numbers : List Int64) (start : Int) (steps : List Int),
        arguments = numbers.map .number ∧
        operation.Begins (numbers.map Int64.toInt) start steps ∧
        (∀ n, apply evaluator (.native native) arguments m = .value (.number n) m ↔
          operation.StaysInRange start steps ∧ n.toInt = operation.calculate start steps) ∧
        (operation.StaysInRange start steps →
          ∃ n, apply evaluator (.native native) arguments m = .value (.number n) m) ∧
        (¬ operation.StaysInRange start steps →
          ∃ fault, operation.FirstFault start steps fault ∧
            apply evaluator (.native native) arguments m =
              .error (.evaluation fault none) m)) := by
  rw [apply_arithmetic hnative hcount]
  obtain ⟨numbers, rfl⟩ | ⟨numbers, other, others, rfl, hother⟩ := numbers_before_other arguments
  · refine ⟨?_, fun _ => ?_⟩
    · rintro ⟨value, hvalue, hkind⟩
      obtain ⟨n, -, rfl⟩ := List.mem_map.mp hvalue
      exact (hkind rfl).elim
    · have hstart : numbers = [] → operation = .add ∨ operation = .multiply :=
        fun hnil => hcount (by rw [hnil, List.map_nil])
      refine ⟨numbers, _, _, rfl, Arithmetic.begins_start hstart, ?_⟩
      rw [toNumbers_numbers]
      simp only [Arithmetic.total]
      obtain ⟨hstays, result, hresult, hexact⟩ | ⟨fault, hfault, herror⟩ :=
        operation.foldlM_apply_cases (operation.start numbers).1 (operation.start numbers).2
      · rw [hresult, ← hexact]
        refine ⟨fun n => ?_, fun _ => ⟨result, rfl⟩, fun hnot => (hnot hstays).elim⟩
        simp [hstays, Int64.toInt_inj, eq_comm]
      · rw [herror]
        refine ⟨fun n => ?_, fun hstays => (hfault.not_staysInRange hstays).elim,
          fun _ => ⟨fault, hfault, rfl⟩⟩
        simp [hfault.not_staysInRange]
  · refine ⟨fun _ => ⟨numbers, other, others, rfl, hother, ?_⟩, fun hall => ?_⟩
    · rw [toNumbers_other numbers hother others]
      rfl
    · exact (hother (hall other (by simp))).elim

end Call

def division : Native := ⟨"/", .primitive (.arithmetic .divide), 3⟩

/-- The smallest number, to be divided by minus one and then by zero. -/
def smallestDivided : List Int64 := [Int64.minValue, -1, 0]

/-- The first quotient is out of range, before anything is divided by zero. -/
theorem arithmetic_exact_or_refused_smallestDivided :
    Arithmetic.FirstFault .divide Int64.minValue.toInt [-1, 0] (.overflow "/") ∧
      apply evaluate (.native division) (smallestDivided.map Value.number) (.fresh noFiles) =
        .error (.evaluation (.overflow "/") none) (.fresh noFiles) := by
  have hdivision : division.operation = .primitive (.arithmetic .divide) := rfl
  have hcount : smallestDivided.map Value.number = [] →
      Arithmetic.divide = .add ∨ Arithmetic.divide = .multiply := by
    simp [smallestDivided]
  have hnumbers : ∀ value ∈ smallestDivided.map Value.number, value.kind = .number := by
    simp [smallestDivided, Value.kind]
  obtain ⟨numbers, start, steps, hsame, hbegins, -, -, hrefused⟩ :=
    (arithmetic_exact_or_refused hdivision hcount evaluate (.fresh noFiles)).2 hnumbers
  obtain rfl : smallestDivided = numbers :=
    List.map_injective_iff.mpr (fun _ _ => Value.number.inj) hsame
  have hoverflow : apply evaluate (.native division) (smallestDivided.map Value.number)
      (.fresh noFiles) = .error (.evaluation (.overflow "/") none) (.fresh noFiles) := by
    rw [apply_arithmetic hdivision hcount]
    rfl
  cases hbegins with
  | quotient =>
      obtain ⟨fault, hfault, herror⟩ := hrefused fun hstays =>
        absurd (hstays [] (-1) [0] rfl).2 (by decide)
      rw [hoverflow] at herror
      cases herror
      exact ⟨hfault, hoverflow⟩

end Lisplet
