/-
Integer arithmetic.  Results are exact: an operation whose result leaves the
range of signed 64-bit numbers, or that divides by zero, is refused.
-/
import Lisplet.Error
import Lisplet.Text.Decimal

namespace Lisplet

namespace Arithmetic

/-- The operation on unbounded integers; division rounds toward zero and has no
result for a zero divisor. -/
def integer? : Arithmetic → Int → Int → Option Int
  | add, a, b => some (a + b)
  | subtract, a, b => some (a - b)
  | multiply, a, b => some (a * b)
  | divide, a, b => if b = 0 then none else some (a.tdiv b)

def apply (operation : Arithmetic) (a b : Int64) : Except EvaluationFault Int64 :=
  match operation.integer? a.toInt b.toInt with
  | none => .error .divisionByZero
  | some n =>
      match int64? n with
      | none => .error (.overflow operation.name)
      | some result => .ok result

/-- Where a calculation starts and which numbers it goes on with.  A single
number is negated by subtraction, and inverted by division. -/
def start : Arithmetic → List Int64 → Int64 × List Int64
  | add, numbers => (0, numbers)
  | multiply, numbers => (1, numbers)
  | subtract, [n] => (0, [n])
  | divide, [n] => (1, [n])
  | _, n :: numbers => (n, numbers)
  | _, [] => (0, [])

/-- The calculation on any number of arguments, from left to right. -/
def total (operation : Arithmetic) (numbers : List Int64) : Except EvaluationFault Int64 :=
  let (first, others) := operation.start numbers
  others.foldlM operation.apply first

end Arithmetic

namespace Comparison

def holds : Comparison → Int64 → Int64 → Bool
  | less, a, b => a < b
  | lessOrEqual, a, b => a ≤ b
  | greater, a, b => b < a
  | greaterOrEqual, a, b => b ≤ a

end Comparison

/-- Does a relation hold between each two neighbours? -/
def chained (related : α → α → Bool) : List α → Bool
  | a :: b :: rest => related a b && chained related (b :: rest)
  | _ => true

def Value.toNumber : Value → Except Error Int64
  | .number n => .ok n
  | other => .error (.unmet .number other)

/-- The numbers that values are; the first value that is none is at fault. -/
def Value.toNumbers (values : List Value) : Except Error (List Int64) :=
  values.mapM Value.toNumber

end Lisplet
