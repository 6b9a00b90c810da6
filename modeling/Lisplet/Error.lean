/-
Errors of evaluation.  An error is kept as its cause; the words are put
together in one place, `Error.text`.  Faults of evaluation and of type also
carry the list form in whose evaluation they arose.
-/
import Lisplet.Files
import Lisplet.ReadError
import Lisplet.Value

namespace Lisplet

/-- What writing a value comes to: its text, or nothing where the writing has no
end. -/
abbrev Rendering := Option String

/-- How deep evaluations may nest, tail positions aside. -/
def maxDepth : Nat := 4096

/-- The parameter that gathers the remaining arguments under the next name. -/
def restMarker : String := "&"

/-- What goes wrong in evaluation, apart from values of the wrong kind. -/
inductive EvaluationFault where
  | tooDeep
  | overflow (operation : String)
  | divisionByZero
  /-- The bindings of a `let*` do not come in pairs. -/
  | unpairedBindings
  /-- The rest marker is not second to last among the parameters. -/
  | misplacedRest
  /-- No name follows the rest marker. -/
  | unnamedRest
  | other (message : String)
deriving DecidableEq

def EvaluationFault.text : EvaluationFault → String
  | tooDeep => "Evaluation depth limit exceeded (max: " ++ toString maxDepth ++ ")"
  | overflow operation => "Integer overflow in " ++ operation
  | divisionByZero => "Division by zero"
  | unpairedBindings => "let* bindings require an even number of forms"
  | misplacedRest => "'" ++ restMarker ++ "' must be followed by exactly one parameter name"
  | unnamedRest => "'" ++ restMarker ++ "' must be followed by a parameter name"
  | other message => message

/-- What a place in a program asks of the value that comes there. -/
inductive Demand where
  | number
  | string
  | sequence (operation : String)
  | atom (operation : String)
  /-- A form that names something takes a symbol. -/
  | target (form : String)
  | function (form : String)
  | bindings (form : String)
  | bindingName
  | parameterName
deriving DecidableEq

def Demand.text : Demand → String
  | number => "expected number"
  | string => "expected string"
  | sequence operation => operation ++ " expects a list or vector"
  | atom operation => operation ++ " expects an atom"
  | target form => form ++ " requires a symbol"
  | function form => form ++ " requires a function"
  | bindings form => form ++ " expects a list or vector of bindings"
  | bindingName => "let* binding names must be symbols"
  | parameterName => "fn* parameters must be symbols"

inductive TypeFault where
  | unmet (demand : Demand) (got : Kind)
  | other (message : String)
deriving DecidableEq

def TypeFault.text : TypeFault → String
  | unmet demand got => demand.text ++ ", got " ++ got.name
  | other message => message

/-- What goes wrong outside the program. -/
inductive IoFault where
  | file (path : String) (fault : FileFault)
  | other (message : String)
deriving DecidableEq

def IoFault.text : IoFault → String
  | file path fault => path ++ ": " ++ fault.text
  | other message => message

/-- Why an evaluation has no value.  Messages other than the program's own come
from a host.  What an error quotes of the program is written when the error
arises, so that an error with a rendering that has no end is one that the
program never comes back with. -/
inductive Error where
  | read (e : ReadError)
  | unbound (name : String)
  /-- The value, as written, cannot be called. -/
  | notCallable (written : Rendering)
  | evaluation (fault : EvaluationFault) (context : Option Rendering)
  | type (fault : TypeFault) (context : Option Rendering)
  | arity (expected : Arity) (got : Nat) (callee : Option Rendering)
  | indexOutOfRange (index : Int) (length : Nat)
  | io (fault : IoFault)
  | raised (message : String)
  /-- A text was asked for whose writing has no end. -/
  | endless
deriving DecidableEq

namespace Error

/-- A value of the wrong kind, nowhere in particular. -/
def unmet (demand : Demand) (got : Value) : Error :=
  .type (.unmet demand got.kind) none

/-- The suffix that shows the list form in whose evaluation the fault arose. -/
def contextText : Option Rendering → Rendering
  | none => some ""
  | some written => written.map ("\n  Context: while evaluating: " ++ ·)

/-- The error in words, after the name of its sort; nothing if the program never
comes back with it. -/
def text : Error → Rendering
  | read e => some ("ParseError: " ++ e.text)
  | unbound name => some ("'" ++ name ++ "' not found")
  | notCallable written => written.map ("NotCallable: cannot apply " ++ ·)
  | evaluation fault context =>
      (contextText context).map ("EvaluationError: " ++ fault.text ++ ·)
  | type fault context => (contextText context).map ("Type error: " ++ fault.text ++ ·)
  | arity expected got none =>
      some ("ArityError: function expected " ++ expected.text ++ " arguments but got "
        ++ toString got)
  | arity expected got (some callee) =>
      callee.map fun callee =>
        "ArityError: " ++ callee ++ ": expected " ++ expected.text ++ " arguments, got "
          ++ toString got
  | indexOutOfRange index length =>
      some ("IndexOutOfRange: index " ++ toString index ++ " out of range for sequence of length "
        ++ toString length)
  | io fault => some ("IoError: " ++ fault.text)
  | raised message => some ("UserRaised: " ++ message)
  | endless => none

/-- Give a fault of evaluation or of type its context, unless it has one: the
innermost list form comes first and stays. -/
def inContext (written : Unit → Rendering) : Error → Error
  | evaluation fault none => evaluation fault (some (written ()))
  | type fault none => type fault (some (written ()))
  | e => e

/-- Name the callee in an arity error that does not name it yet. -/
def naming (callee : Unit → Rendering) : Error → Error
  | arity expected got none => arity expected got (some (callee ()))
  | e => e

end Error

end Lisplet
