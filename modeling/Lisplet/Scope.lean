/-
Scopes.  A frame is named by a number; a scope is the frame in which names are
bound now, followed by the frames that enclose it.  The chain never changes
once a scope exists: only the bindings in its frames do.
-/

namespace Lisplet

/-- A chain of frames, innermost first.  It has at least one frame. -/
structure Scope where
  /-- The frame that new bindings go to. -/
  own : Nat
  /-- The enclosing frames, nearest first. -/
  outer : List Nat
deriving DecidableEq

namespace Scope

def frames (scope : Scope) : List Nat :=
  scope.own :: scope.outer

/-- The scope whose innermost frame is `frame` and which `scope` encloses. -/
def enter (scope : Scope) (frame : Nat) : Scope :=
  ⟨frame, scope.frames⟩

@[simp] theorem own_enter (scope : Scope) (frame : Nat) : (scope.enter frame).own = frame := rfl

@[simp] theorem outer_enter (scope : Scope) (frame : Nat) :
    (scope.enter frame).outer = scope.frames := rfl

end Scope

end Lisplet
