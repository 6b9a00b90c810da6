/-
Actions on the machine.  An action ends with a result or with an error, and
either way leaves a machine; or it does not end within the steps that it was
allowed.  Actions are put together so that the first error ends them all.
-/
import Lisplet.Machine

namespace Lisplet

/-- How an action ends.  The machine after an error has every effect that came
before it. -/
inductive Outcome (α : Type) where
  | value (result : α) (after : Machine)
  | error (cause : Error) (after : Machine)
  | unfinished

/-- An action on the machine. -/
def Eval (α : Type) := Machine → Outcome α

namespace Eval

@[always_inline, inline]
protected def pure (result : α) : Eval α :=
  fun m => .value result m

/-- One action after another, unless the first fails or does not end. -/
@[always_inline, inline]
protected def bind (act : Eval α) (next : α → Eval β) : Eval β :=
  fun m =>
    match act m with
    | .value result m => next result m
    | .error cause m => .error cause m
    | .unfinished => .unfinished

@[always_inline]
instance : Monad Eval where
  pure := Eval.pure
  bind := Eval.bind

@[always_inline, inline]
def fail (cause : Error) : Eval α :=
  fun m => .error cause m

@[always_inline, inline]
def unfinished : Eval α :=
  fun _ => .unfinished

@[always_inline, inline]
def read (look : Machine → α) : Eval α :=
  fun m => .value (look m) m

@[always_inline, inline]
def update (change : Machine → Machine) : Eval Unit :=
  fun m => .value () (change m)

def ofExcept : Except Error α → Eval α
  | .ok result => Eval.pure result
  | .error cause => fail cause

/-- The text that is written off the machine.  Where it has no end, the program
never comes back. -/
def writing (look : Machine → Rendering) : Eval String := do
  match ← read look with
  | some text => return text
  | none => fail .endless

/-- Pass an error on with a note added, which may look at the machine that the
failure left. -/
@[always_inline, inline]
def onError (act : Eval α) (note : Machine → Error → Error) : Eval α :=
  fun m =>
    match act m with
    | .error cause m => .error (note m cause) m
    | outcome => outcome

/-- Go on after an error, from the machine that the failure left. -/
def attempt (act : Eval α) : Eval (Except Error α) :=
  fun m =>
    match act m with
    | .value result m => .value (.ok result) m
    | .error cause m => .value (.error cause) m
    | .unfinished => .unfinished

/-- Run an action one level deeper, unless that is too deep. -/
def nested (act : Eval α) : Eval α :=
  fun m =>
    if m.depth < maxDepth then
      match act { m with depth := m.depth + 1 } with
      | .value result m => .value result { m with depth := m.depth - 1 }
      | .error cause m => .error cause { m with depth := m.depth - 1 }
      | .unfinished => .unfinished
    else .error (.evaluation .tooDeep none) m

/-- Make a frame with these bindings; its index. -/
def newFrame (bindings : Frame) : Eval Nat :=
  fun m =>
    let index := m.frames.size
    .value index { m with frames := m.frames.push bindings }

def define (scope : Scope) (name : String) (value : Value) : Eval Unit :=
  update fun m => { m with frames := m.frames.modify scope.own (·.set name value) }

def newClosure (isMacro : Bool) (closure : Closure) : Eval Value :=
  fun m =>
    let index := m.closures.size
    .value (.closure isMacro index) { m with closures := m.closures.push closure }

def newAtom (content : Value) : Eval Value :=
  fun m =>
    let index := m.cells.size
    .value (.atom index) { m with cells := m.cells.push content }

def content (cell : Nat) : Eval Value :=
  read fun m => m.cells[cell]?.getD .nil

def replace (cell : Nat) (content : Value) : Eval Unit :=
  update fun m => { m with cells := m.cells.setIfInBounds cell content }

def register (scope : Scope) (name : String) (operation : Operation) : Eval Unit := do
  let serial ← read Machine.natives
  update fun m => { m with natives := m.natives + 1 }
  define scope name (.native ⟨name, operation, serial⟩)

def printLine (text : String) : Eval Unit :=
  update fun m => { m with printed := (m.printed ++ text).push '\n' }

end Eval

end Lisplet
