/-
The depth counter apart from the rest of the machine.  An action is blind to
the counter when it neither reads nor changes it.  Everything that evaluation
is made of is blind, except for entering a nested evaluation.
-/
import Lisplet.Proofs.Outcome
import Lisplet.Proofs.Rendering

namespace Lisplet

variable {α β : Type}

def Machine.atDepth (m : Machine) (depth : Nat) : Machine :=
  { m with depth := depth }

@[simp] theorem Machine.depth_atDepth (m : Machine) (depth : Nat) :
    (m.atDepth depth).depth = depth := rfl

@[simp] theorem Machine.cells_atDepth (m : Machine) (depth : Nat) :
    (m.atDepth depth).cells = m.cells := rfl

@[simp] theorem Machine.atDepth_atDepth (m : Machine) (first second : Nat) :
    (m.atDepth first).atDepth second = m.atDepth second := rfl

@[simp] theorem Machine.atDepth_self (m : Machine) : m.atDepth m.depth = m := rfl

def Outcome.atDepth (outcome : Outcome α) (depth : Nat) : Outcome α :=
  match outcome with
  | .value result m => .value result (m.atDepth depth)
  | .error cause m => .error cause (m.atDepth depth)
  | .unfinished => .unfinished

@[simp] theorem Outcome.atDepth_atDepth (outcome : Outcome α) (first second : Nat) :
    (outcome.atDepth first).atDepth second = outcome.atDepth second := by
  cases outcome <;> rfl

/-- The action neither reads nor changes the depth counter. -/
def Blind (act : Eval α) : Prop :=
  ∀ m depth, act (m.atDepth depth) = (act m).atDepth depth

theorem Blind.atDepth_self {act : Eval α} (h : Blind act) (m : Machine) :
    (act m).atDepth m.depth = act m := by
  rw [← h m m.depth, Machine.atDepth_self]

namespace Blind

theorem pure (result : α) : Blind (Pure.pure result : Eval α) :=
  fun _ _ => rfl

theorem fail (cause : Error) : Blind (Eval.fail cause : Eval α) :=
  fun _ _ => rfl

theorem unfinished : Blind (Eval.unfinished : Eval α) :=
  fun _ _ => rfl

theorem bind {act : Eval α} {next : α → Eval β} (hact : Blind act)
    (hnext : ∀ result, Blind (next result)) : Blind (act >>= next) := by
  intro m depth
  rw [Eval.bind_apply, Eval.bind_apply, hact m depth]
  rcases act m with ⟨result, after⟩ | ⟨cause, after⟩ | _
  · exact hnext result after depth
  · rfl
  · rfl

theorem ofExcept (result : Except Error α) : Blind (Eval.ofExcept result) := by
  rcases result with cause | result
  · exact .fail cause
  · exact .pure result

theorem read {look : Machine → α} (h : ∀ m depth, look (m.atDepth depth) = look m) :
    Blind (Eval.read look) := by
  intro m depth
  simp only [Eval.read, h]
  rfl

theorem writing {look : Machine → Rendering} (h : ∀ m depth, look (m.atDepth depth) = look m) :
    Blind (Eval.writing look) := by
  refine .bind (.read h) ?_
  intro written
  rcases written with _ | text
  · exact .fail _
  · exact .pure _

theorem update {change : Machine → Machine}
    (h : ∀ m depth, change (m.atDepth depth) = (change m).atDepth depth) :
    Blind (Eval.update change) := by
  intro m depth
  simp only [Eval.update, h]
  rfl

theorem newFrame (bindings : Frame) : Blind (Eval.newFrame bindings) :=
  fun _ _ => rfl

theorem define (scope : Scope) (name : String) (value : Value) :
    Blind (Eval.define scope name value) :=
  .update fun _ _ => rfl

theorem newClosure (isMacro : Bool) (closure : Closure) :
    Blind (Eval.newClosure isMacro closure) :=
  fun _ _ => rfl

theorem newAtom (content : Value) : Blind (Eval.newAtom content) :=
  fun _ _ => rfl

theorem content (cell : Nat) : Blind (Eval.content cell) :=
  .read fun _ _ => rfl

theorem replace (cell : Nat) (content : Value) : Blind (Eval.replace cell content) :=
  .update fun _ _ => rfl

theorem printLine (text : String) : Blind (Eval.printLine text) :=
  .update fun _ _ => rfl

end Blind

/-- What is written of a value does not show how deep evaluation is nested. -/
@[simp] theorem Machine.text_atDepth (m : Machine) (depth : Nat) (style : Style) (value : Value) :
    (m.atDepth depth).text style value = m.text style value :=
  Machine.text_eq_of_cells (m.cells_atDepth depth) style value

namespace Blind

theorem refuseCall (value : Value) : Blind (refuseCall value : Eval α) := by
  intro m depth
  simp only [Lisplet.refuseCall, Machine.text_atDepth]
  rfl

theorem enterClosure (isMacro : Bool) (code : Nat) (arguments : List Value) :
    Blind (enterClosure isMacro code arguments) := by
  refine .bind (.read fun _ _ => rfl) ?_
  intro found
  rcases found with _ | closure
  · exact .refuseCall _
  · exact .bind (.ofExcept _) fun _ => .bind (.newFrame _) fun _ => .pure _

theorem text (style : Style) (separator : String) (values : List Value) :
    Blind (Eval.writing fun m => m.textAll style separator values) :=
  .writing fun m depth => Machine.textAll_eq_of_cells (m.cells_atDepth depth) style separator values

/-- No primitive looks at the counter. -/
theorem of_call? {p : Primitive} {arguments : List Value} {act : Eval Value}
    (h : p.call? arguments = some act) : Blind act := by
  unfold Primitive.call? at h
  split at h <;> cases h
  case h_3 _ operation _ _ =>
      refine .bind (.ofExcept _) ?_
      intro numbers
      rcases operation.total numbers with fault | n
      · exact .fail _
      · exact .pure _
  all_goals first
    | exact .pure _
    | exact .ofExcept _
    | exact .newAtom _
    | exact .bind (.ofExcept _) fun _ => .pure _
    | exact .bind (.ofExcept _) fun _ => .ofExcept _
    | exact .bind (.ofExcept _) fun _ => .content _
    | exact .bind (.ofExcept _) fun _ => .bind (.replace _ _) fun _ => .pure _
    | exact .bind (.text _ _ _) fun _ => .pure _
    | exact .bind (.text _ _ _) fun _ => .bind (.printLine _) fun _ => .pure _
    | exact .bind (.ofExcept _) fun _ => .bind (.read fun _ _ => rfl) fun _ =>
        .bind (.ofExcept _) fun _ => .pure _

end Blind

end Lisplet
