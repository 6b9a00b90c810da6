/-
The root scope: every primitive under its name, `eval`, and two definitions in
the language itself.
-/
import Lisplet.Evaluation

namespace Lisplet

def newScope : Eval Scope := do
  return ⟨← .newFrame [], []⟩

def newInner (scope : Scope) (bindings : Frame) : Eval Scope := do
  return scope.enter (← .newFrame bindings)

/-- Reads a file as the body of one form, so that nothing in it is evaluated
unless all of it can be read. -/
def loadFileText : String :=
  "(def! load-file (fn* (f) (eval (read-string (str \"(do \" (slurp f) \"\\nnil)\")))))"

/-- The first clause becomes an `if`, and the others its alternative. -/
def condText : String :=
  "(defmacro! cond (fn* (& xs) (if (> (count xs) 0) (list 'if (first xs) (nth xs 1) "
    ++ "(cons 'cond (rest (rest xs)))))))"

/-- Register the native functions in a scope, which is also the one that `eval`
evaluates in. -/
def registerNatives (root : Scope) : Eval Unit := do
  Primitive.all.forM fun p => .register root p.name (.primitive p)
  .register root "swap!" .swap
  .register root "eval" (.evaluate root)

def newRoot : Eval Scope := do
  let root ← newScope
  registerNatives root
  let _ ← evaluateText loadFileText root
  let _ ← evaluateText condText root
  return root

end Lisplet
