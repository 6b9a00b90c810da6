/-
Arities: how many arguments an operation takes.
-/

namespace Lisplet

/-- The numbers of arguments that an operation accepts. -/
inductive Arity where
  | exactly (count : Nat)
  | atLeast (low : Nat)
  | between (low high : Nat)
  | any
deriving DecidableEq

namespace Arity

def accepts : Arity → Nat → Bool
  | exactly n, count => count == n
  | atLeast low, count => low ≤ count
  | between low high, count => low ≤ count && count ≤ high
  | any, _ => true

/-- The arity as error messages word it. -/
def text : Arity → String
  | exactly n => toString n
  | atLeast low => "at least " ++ toString low
  | between low high => toString low ++ " to " ++ toString high
  | any => "any number of"

end Arity

end Lisplet
