/-
Values: what programs are made of and what they compute.  Lists, vectors and
maps hold their items; atoms and closures are references into the machine that
made them, so that two of them are the same value exactly when they are the
same reference.
-/
import Lisplet.Primitive
import Lisplet.Scope

namespace Lisplet

/-- What a native function does when it is called. -/
inductive Operation where
  | primitive (p : Primitive)
  /-- Replace the content of an atom by what a function makes of it. -/
  | swap
  /-- Evaluate a form in a root scope.  The program holds on to its root for as long
  as it runs, and no frame is ever removed; so every call finds the root there, and
  there is no error for a root that is gone. -/
  | evaluate (root : Scope)
  /-- Count the arguments, of which `arity` says how many there may be. -/
  | countArguments (arity : Arity)
deriving DecidableEq

def Operation.arity : Operation → Arity
  | primitive p => p.arity
  | swap => .atLeast 2
  | evaluate _ => .exactly 1
  | countArguments arity => arity

/-- A registered function: the name it was registered under, what it does, and
a serial number that tells registrations apart. -/
structure Native where
  name : String
  operation : Operation
  serial : Nat
deriving DecidableEq

/-- The values of the language, which are also its forms. -/
inductive Value where
  | nil
  | bool (truth : Bool)
  | number (n : Int64)
  | symbol (name : String)
  | string (text : String)
  | list (items : List Value)
  | vector (items : List Value)
  /-- Keys and values in turn, in the order they were written. -/
  | map (entries : List Value)
  /-- A mutable cell of the machine. -/
  | atom (cell : Nat)
  /-- A closure of the machine, to be called as a function or as a macro. -/
  | closure (isMacro : Bool) (code : Nat)
  | native (function : Native)

inductive Kind where
  | nil
  | boolean
  | number
  | symbol
  | string
  | list
  | vector
  | map
  | atom
  | function
  | macroFunction
  | native
deriving DecidableEq

def Kind.name : Kind → String
  | nil => "nil"
  | boolean => "boolean"
  | number => "number"
  | symbol => "symbol"
  | string => "string"
  | list => "list"
  | vector => "vector"
  | map => "map"
  | atom => "atom"
  | function => "function"
  | macroFunction => "macro"
  | native => "builtin-function"

namespace Value

def kind : Value → Kind
  | nil => .nil
  | bool _ => .boolean
  | number _ => .number
  | symbol _ => .symbol
  | string _ => .string
  | list _ => .list
  | vector _ => .vector
  | map _ => .map
  | atom _ => .atom
  | closure true _ => .macroFunction
  | closure false _ => .function
  | native _ => .native

/-- Everything but `nil` and `false` counts as true. -/
def isTruthy : Value → Bool
  | nil | bool false => false
  | _ => true

def isMacro : Value → Bool
  | closure isMacro _ => isMacro
  | _ => false

/-- The items of a list or a vector; `nil` is the empty sequence. -/
def items? : Value → Option (List Value)
  | list items | vector items => some items
  | nil => some []
  | _ => none

/-- If the value is the two-item list `(name x)`, the form `x`. -/
def argumentOf? (name : String) : Value → Option Value
  | list [symbol head, argument] => if head = name then some argument else none
  | _ => none

mutual

/-- Equality as programs see it: a list equals a vector with equal items, and
atoms and functions equal only themselves. -/
def same : Value → Value → Bool
  | nil, nil => true
  | bool a, bool b => a == b
  | number a, number b => a == b
  | symbol a, symbol b => a == b
  | string a, string b => a == b
  | list as, list bs | list as, vector bs => sameItems as bs
  | vector as, list bs | vector as, vector bs => sameItems as bs
  | map as, map bs => sameItems as bs
  | atom a, atom b => a == b
  | closure asMacro a, closure bsMacro b => asMacro == bsMacro && a == b
  | native a, native b => a == b
  | _, _ => false

def sameItems : List Value → List Value → Bool
  | [], [] => true
  | a :: as, b :: bs => same a b && sameItems as bs
  | _, _ => false

end

end Value

end Lisplet
