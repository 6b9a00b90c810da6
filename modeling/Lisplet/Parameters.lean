/-
Parameters: the names that a function gives to its arguments.  A name after the
marker `&` stands for all arguments that the names before it leave over.
-/
import Lisplet.Error
import Lisplet.Frame

namespace Lisplet

def parameterName : Value → Except Error String
  | .symbol name => .ok name
  | other => .error (.unmet .parameterName other)

/-- The names in a parameter list.  The first marker, if there is one, has
exactly one name after it. -/
def parameterNames (forms : List Value) : Except Error (List String) := do
  let names ← forms.mapM parameterName
  match names.dropWhile (· ≠ restMarker) with
  | [] | [_, _] => .ok names
  | _ => .error (.evaluation .misplacedRest none)

/-- Bind names to values one by one, the last binding of a name winning. -/
def bindEach (names : List String) (values : List Value) : Frame :=
  (names.zip values).foldl (fun frame binding => frame.set binding.1 binding.2) []

/-- The frame in which each parameter names its argument. -/
def bindArguments (parameters : List String) (arguments : List Value) : Except Error Frame :=
  let fixed := parameters.takeWhile (· ≠ restMarker)
  match parameters.dropWhile (· ≠ restMarker) with
  | [] =>
      if arguments.length = fixed.length then .ok (bindEach fixed arguments)
      else .error (.arity (.exactly fixed.length) arguments.length none)
  | [_] => .error (.evaluation .unnamedRest none)
  | _ :: rest :: _ =>
      if fixed.length ≤ arguments.length then
        .ok ((bindEach fixed arguments).set rest (.list (arguments.drop fixed.length)))
      else .error (.arity (.atLeast fixed.length) arguments.length none)

end Lisplet
