/-
The machine: everything that evaluation can change.  Frames hold bindings,
cells hold the contents of atoms, and closures are stored when they are made;
each is named by its index, and none is ever removed.  The machine also keeps
what has been printed, how deep evaluation is nested, and the files in reach.
-/
import Lisplet.Error
import Lisplet.Frame

namespace Lisplet

/-- A function of the program: what it calls its arguments, what it evaluates,
and the scope that it does so in. -/
structure Closure where
  parameters : List String
  body : Value
  scope : Scope

/-- The state of a program that runs. -/
structure Machine where
  frames : Array Frame
  cells : Array Value
  closures : Array Closure
  /-- How many native functions have been registered. -/
  natives : Nat
  printed : String
  /-- How many evaluations are under way. -/
  depth : Nat
  files : Files

namespace Machine

/-- A machine that has done nothing yet. -/
def fresh (files : Files) : Machine :=
  ⟨#[], #[], #[], 0, "", 0, files⟩

def frame (m : Machine) (index : Nat) : Frame :=
  m.frames[index]?.getD []

/-- What a name stands for in a scope: its binding in the innermost frame that
has one. -/
def lookup? (m : Machine) (scope : Scope) (name : String) : Option Value :=
  scope.frames.findSome? fun index => (m.frame index).get? name

end Machine

end Lisplet
