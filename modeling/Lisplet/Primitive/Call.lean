/-
What the primitives do.  A primitive looks at its argument list; the lists that
it has no use for are exactly those that its arity refuses.
-/
import Lisplet.Eval
import Lisplet.Primitive.Arithmetic
import Lisplet.Reading
import Lisplet.Value.Text

namespace Lisplet

namespace Value

def toText : Value → Except Error String
  | .string text => .ok text
  | other => .error (.unmet .string other)

/-- The items of the sequence that a value is, for the operation named. -/
def toItems (operation : String) (value : Value) : Except Error (List Value) :=
  match value.items? with
  | some items => .ok items
  | none => .error (.unmet (.sequence operation) value)

def toCell (operation : String) : Value → Except Error Nat
  | .atom cell => .ok cell
  | other => .error (.unmet (.atom operation) other)

/-- The first item of a sequence, `nil` if there is none. -/
def first (value : Value) : Except Error Value := do
  return (← value.toItems "first").head?.getD .nil

def rest (value : Value) : Except Error Value := do
  return .list (← value.toItems "rest").tail

def nth (value : Value) (index : Int64) : Except Error Value := do
  let items ← value.toItems "nth"
  match index.toInt with
  | .ofNat i =>
      match items[i]? with
      | some item => .ok item
      | none => .error (.indexOutOfRange index.toInt items.length)
  | .negSucc _ => .error (.indexOutOfRange index.toInt items.length)

def count (value : Value) : Except Error Nat := do
  return (← value.toItems "count").length

def isEmpty (value : Value) : Except Error Bool := do
  return (← value.toItems "empty?").isEmpty

end Value

def Test.answer : Test → Value → Bool
  | isList, value => value.kind = .list
  | isVector, value => value.kind = .vector
  | isSequential, value => value.kind = .list ∨ value.kind = .vector
  | isNil, value => value.kind = .nil
  | isTrue, value => (value matches .bool true)
  | isFalse, value => (value matches .bool false)
  | isSymbol, value => value.kind = .symbol
  | isString, value => value.kind = .string
  | isNumber, value => value.kind = .number
  | isFunction, value => value.kind = .function ∨ value.kind = .native
  | isMacro, value => value.isMacro
  | isAtom, value => value.kind = .atom

/-- The form that a text holds; `nil` if it holds none. -/
def readText (text : String) : Except Error Value :=
  match readWhole text with
  | .ok form => .ok form
  | .error e => if e.kind = .noForm then .ok .nil else .error (.read e)

def Machine.readFile (m : Machine) (path : String) : Except Error String :=
  (m.files path).mapError fun fault => .io (.file path fault)

namespace Primitive

/-- What a primitive does with its arguments, or nothing if it does not take
that many. -/
def call? : Primitive → List Value → Option (Eval Value)
  | arithmetic .subtract, [] => none
  | arithmetic .divide, [] => none
  | arithmetic operation, arguments => some do
      let numbers ← .ofExcept (Value.toNumbers arguments)
      match operation.total numbers with
      | .ok n => return .number n
      | .error fault => .fail (.evaluation fault none)
  | equal, [] => none
  | equal, arguments => some (return .bool (chained Value.same arguments))
  | compare _, [] => none
  | compare relation, arguments => some do
      let numbers ← .ofExcept (Value.toNumbers arguments)
      return .bool (chained relation.holds numbers)
  | list, arguments => some (return .list arguments)
  | vector, arguments => some (return .vector arguments)
  | isEmpty, [value] => some do return .bool (← .ofExcept value.isEmpty)
  | count, [value] => some do return .number (.ofNat (← .ofExcept value.count))
  | cons, [head, tail] => some do return .list (head :: (← .ofExcept (tail.toItems "cons")))
  | concat, arguments => some do
      let sequences ← .ofExcept (arguments.mapM (Value.toItems "concat"))
      return .list sequences.flatten
  | vec, [value] => some do return .vector (← .ofExcept (value.toItems "vec"))
  | first, [value] => some (.ofExcept value.first)
  | rest, [value] => some (.ofExcept value.rest)
  | nth, [value, index] => some do
      let index ← .ofExcept index.toNumber
      .ofExcept (value.nth index)
  | test question, [value] => some (return .bool (question.answer value))
  | not, [value] => some (return .bool !value.isTruthy)
  | symbol, [value] => some do return .symbol (← .ofExcept value.toText)
  | str, arguments => some do
      return .string (← .writing fun m => m.textAll .display "" arguments)
  | prStr, arguments => some do
      return .string (← .writing fun m => m.textAll .readable " " arguments)
  | prn, arguments => some do
      .printLine (← .writing fun m => m.textAll .readable " " arguments)
      return .nil
  | println, arguments => some do
      .printLine (← .writing fun m => m.textAll .display " " arguments)
      return .nil
  | slurp, [path] => some do
      let path ← .ofExcept path.toText
      let text ← .read fun m => m.readFile path
      return .string (← .ofExcept text)
  | readString, [text] => some do
      let text ← .ofExcept text.toText
      .ofExcept (readText text)
  | atom, [content] => some (.newAtom content)
  | deref, [target] => some do
      let cell ← .ofExcept (target.toCell "deref")
      .content cell
  | reset, [target, content] => some do
      let cell ← .ofExcept (target.toCell "reset!")
      .replace cell content
      return content
  | _, _ => none

end Primitive

end Lisplet
