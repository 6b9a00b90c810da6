/-
Primitives: the functions that a root scope offers before anything is
defined.  Each has a name and an arity; what it does is a matter of its own
module.
-/
import Lisplet.Arity

namespace Lisplet

inductive Arithmetic where
  | add
  | subtract
  | multiply
  | divide
deriving DecidableEq

def Arithmetic.name : Arithmetic → String
  | add => "+"
  | subtract => "-"
  | multiply => "*"
  | divide => "/"

inductive Comparison where
  | less
  | lessOrEqual
  | greater
  | greaterOrEqual
deriving DecidableEq

def Comparison.name : Comparison → String
  | less => "<"
  | lessOrEqual => "<="
  | greater => ">"
  | greaterOrEqual => ">="

/-- The questions about a single value that look at its outermost shape. -/
inductive Test where
  | isList
  | isVector
  | isSequential
  | isNil
  | isTrue
  | isFalse
  | isSymbol
  | isString
  | isNumber
  | isFunction
  | isMacro
  | isAtom
deriving DecidableEq

def Test.name : Test → String
  | isList => "list?"
  | isVector => "vector?"
  | isSequential => "sequential?"
  | isNil => "nil?"
  | isTrue => "true?"
  | isFalse => "false?"
  | isSymbol => "symbol?"
  | isString => "string?"
  | isNumber => "number?"
  | isFunction => "fn?"
  | isMacro => "macro?"
  | isAtom => "atom?"

/-- The primitive functions that call no other function. -/
inductive Primitive where
  | arithmetic (operation : Arithmetic)
  | equal
  | compare (relation : Comparison)
  | list
  | vector
  | isEmpty
  | count
  | cons
  | concat
  | vec
  | first
  | rest
  | nth
  | test (question : Test)
  | not
  | symbol
  | str
  | prStr
  | prn
  | println
  | slurp
  | readString
  | atom
  | deref
  | reset
deriving DecidableEq

namespace Primitive

def name : Primitive → String
  | arithmetic operation => operation.name
  | equal => "="
  | compare relation => relation.name
  | list => "list"
  | vector => "vector"
  | isEmpty => "empty?"
  | count => "count"
  | cons => "cons"
  | concat => "concat"
  | vec => "vec"
  | first => "first"
  | rest => "rest"
  | nth => "nth"
  | test question => question.name
  | not => "not"
  | symbol => "symbol"
  | str => "str"
  | prStr => "pr-str"
  | prn => "prn"
  | println => "println"
  | slurp => "slurp"
  | readString => "read-string"
  | atom => "atom"
  | deref => "deref"
  | reset => "reset!"

def arity : Primitive → Arity
  | arithmetic .add | arithmetic .multiply => .any
  | arithmetic .subtract | arithmetic .divide => .atLeast 1
  | equal | compare _ => .atLeast 1
  | list | vector | concat => .any
  | cons | nth | reset => .exactly 2
  | str | prStr | prn | println => .any
  | isEmpty | count | vec | first | rest | test _ | not | symbol => .exactly 1
  | slurp | readString | atom | deref => .exactly 1

def all : List Primitive :=
  [arithmetic .add, arithmetic .subtract, arithmetic .multiply, arithmetic .divide,
   equal, compare .less, compare .lessOrEqual, compare .greater, compare .greaterOrEqual,
   list, test .isList, vector, test .isVector, test .isSequential,
   isEmpty, count, cons, concat, vec, first, rest, nth,
   test .isNil, test .isTrue, test .isFalse, test .isSymbol, test .isString,
   test .isNumber, test .isFunction, test .isMacro, not, symbol,
   str, prStr, prn, println, slurp, readString,
   atom, test .isAtom, deref, reset]

/-- No two primitives share a name. -/
theorem nodup_names : (all.map name).Nodup := by decide

end Primitive

end Lisplet
