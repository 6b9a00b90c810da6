/-
Evaluation.  One step of evaluation either finishes or hands over another form
and scope; forms in tail position are handed over, so that they cost no depth.
Every other evaluation inside a step is nested, through the evaluator that the
step is given.  The only recursion that a program can prolong is the loop over
steps, and repeated macro expansion; both are allowed so many steps.
-/
import Lisplet.Parameters
import Lisplet.Primitive.Call
import Lisplet.SpecialForm
import Lisplet.Template

namespace Lisplet

/-- What evaluates the forms inside a form. -/
abbrev Evaluator := Value → Scope → Eval Value

/-- How one step of evaluation ends. -/
inductive Step where
  | done (value : Value)
  | next (form : Value) (scope : Scope)

def evaluateAll (evaluator : Evaluator) (scope : Scope) : List Value → Eval (List Value)
  | [] => return []
  | form :: forms => do
      let value ← evaluator form scope
      let values ← evaluateAll evaluator scope forms
      return value :: values

/-- Evaluate forms from left to right for their effects. -/
def evaluateEach (evaluator : Evaluator) (scope : Scope) : List Value → Eval Unit
  | [] => return ()
  | form :: forms => do
      let _ ← evaluator form scope
      evaluateEach evaluator scope forms

def refuseCall (value : Value) : Eval α :=
  fun m => .error (.notCallable (m.text .readable value)) m

/-- Begin a call of a closure: the body, and a scope in which the parameters
name the arguments. -/
def enterClosure (isMacro : Bool) (code : Nat) (arguments : List Value) :
    Eval (Value × Scope) := do
  match ← .read fun m => m.closures[code]? with
  | none => refuseCall (.closure isMacro code)
  | some closure =>
      let bindings ← .ofExcept (bindArguments closure.parameters arguments)
      let frame ← .newFrame bindings
      return (closure.body, closure.scope.enter frame)

/-- Call a function with arguments that are values already. -/
def apply (evaluator : Evaluator) (function : Value) (arguments : List Value) : Eval Value :=
  match function with
  | .closure false code => do
      let (body, scope) ← enterClosure false code arguments
      evaluator body scope
  | .native native =>
      let refuse : Eval Value :=
        .fail (.arity native.operation.arity arguments.length none)
      match native.operation with
      | .primitive p => (p.call? arguments).getD refuse
      | .swap =>
          match arguments with
          | target :: updater :: others => do
              let cell ← .ofExcept (target.toCell "swap!")
              let content ← .content cell
              let result ← apply evaluator updater (content :: others)
              .replace cell result
              return result
          | _ => refuse
      | .evaluate root =>
          match arguments with
          | [form] => evaluator form root
          | _ => refuse
      | .countArguments arity =>
          if arity.accepts arguments.length then return .number (.ofNat arguments.length)
          else refuse
  | other => refuseCall other
termination_by arguments.length

/-- The macro that a form calls, and its operands as they stand. -/
def Machine.macroCall? (m : Machine) (scope : Scope) : Value → Option (Nat × List Value)
  | .list (.symbol name :: operands) =>
      match m.lookup? scope name with
      | some (.closure true code) => some (code, operands)
      | _ => none
  | _ => none

/-- Expand a macro call once; nothing if the form is none. -/
def expandOnce (evaluator : Evaluator) (form : Value) (scope : Scope) :
    Eval (Option Value) := do
  match ← .read fun m => m.macroCall? scope form with
  | none => return none
  | some (code, operands) =>
      let (body, scope) ← enterClosure true code operands
      let expansion ← evaluator body scope
      return some expansion

def expandFully (evaluator : Evaluator) : Nat → Value → Scope → Eval Value
  | 0, _, _ => .unfinished
  | steps + 1, form, scope => do
      match ← expandOnce evaluator form scope with
      | none => return form
      | some expansion => expandFully evaluator steps expansion scope

/-- The form that stands for the body of a function or a `let*`: its only form,
or all of them under a `do`. -/
def bodyForm : List Value → Value
  | [form] => form
  | forms => .list (.symbol "do" :: forms)

def bindingForms (special : SpecialForm) : Value → Except Error (List Value)
  | .list forms | .vector forms => .ok forms
  | other => .error (.unmet (.bindings special.name) other)

def pairs? : List Value → Option (List (Value × Value))
  | [] => some []
  | [_] => none
  | first :: second :: forms => (pairs? forms).map ((first, second) :: ·)

/-- Evaluate the bindings of a `let*` in turn, each in the scope of those before. -/
def bindInTurn (evaluator : Evaluator) (scope : Scope) : List (Value × Value) → Eval Unit
  | [] => return ()
  | (.symbol name, form) :: bindings => do
      let value ← evaluator form scope
      .define scope name value
      bindInTurn evaluator scope bindings
  | (other, _) :: _ => .fail (.unmet .bindingName other)

def stepSpecial (steps : Nat) (evaluator : Evaluator) (scope : Scope) : Special → Eval Step
  | .define (.symbol name) form => do
      let value ← evaluator form scope
      .define scope name value
      return .done value
  | .define target _ => .fail (.unmet (.target SpecialForm.define.name) target)
  | .defineMacro (.symbol name) form => do
      match ← evaluator form scope with
      | .closure isMacro code =>
          match ← .read fun m => m.closures[code]? with
          | none => refuseCall (.closure isMacro code)
          | some closure =>
              let value ← .newClosure true closure
              .define scope name value
              return .done value
      | other => .fail (.unmet (.function SpecialForm.defineMacro.name) other)
  | .defineMacro target _ => .fail (.unmet (.target SpecialForm.defineMacro.name) target)
  | .bind bindings body => do
      match pairs? (← .ofExcept (bindingForms .bind bindings)) with
      | none => .fail (.evaluation .unpairedBindings none)
      | some bindings =>
          let frame ← .newFrame []
          let inner := scope.enter frame
          bindInTurn evaluator inner bindings
          return .next (bodyForm body) inner
  | .sequence forms =>
      match forms.getLast? with
      | none => return .done .nil
      | some last => do
          evaluateEach evaluator scope forms.dropLast
          return .next last scope
  | .branch condition consequent alternative => do
      if (← evaluator condition scope).isTruthy then return .next consequent scope
      else
        match alternative with
        | some form => return .next form scope
        | none => return .done .nil
  | .function parameters body => do
      let names ← .ofExcept (bindingForms .function parameters >>= parameterNames)
      return .done (← .newClosure false ⟨names, bodyForm body, scope⟩)
  | .quote form => return .done form
  | .quasiquote template => return .next (expandTemplate template) scope
  | .quasiquoteExpand template => return .done (expandTemplate template)
  | .macroExpand form => do
      return .done (← expandFully evaluator steps form scope)

/-- A step at a call: evaluate the head and the operands, then call. -/
def stepCall (evaluator : Evaluator) (scope : Scope) (head : Value) (operands : List Value) :
    Eval Step := do
  let function ← evaluator head scope
  let arguments ← evaluateAll evaluator scope operands
  match function with
  | .closure false code =>
      let (body, inner) ← (enterClosure false code arguments).onError fun m e =>
        e.naming fun _ => m.text .readable head
      return .next body inner
  | _ => return .done (← apply evaluator function arguments)

/-- A step at a list: a macro call is expanded, a special form goes by its own
rule, and everything else is a call. -/
def stepList (steps : Nat) (evaluator : Evaluator) (scope : Scope) (head : Value)
    (operands : List Value) : Eval Step := do
  match ← expandOnce evaluator (.list (head :: operands)) scope with
  | some expansion => return .next expansion scope
  | none =>
      match head with
      | .symbol name =>
          match SpecialForm.ofName? name with
          | some form =>
              match form.place? operands with
              | some special => stepSpecial steps evaluator scope special
              | none => .fail (.arity form.arity operands.length (some (some name)))
          | none => stepCall evaluator scope head operands
      | _ => stepCall evaluator scope head operands

/-- One step of evaluating a form.  Faults in a list get it as their context. -/
def step (steps : Nat) (evaluator : Evaluator) (form : Value) (scope : Scope) : Eval Step :=
  match form with
  | .symbol name => do
      match ← .read fun m => m.lookup? scope name with
      | some value => return .done value
      | none => .fail (.unbound name)
  | .vector items => return .done (.vector (← evaluateAll evaluator scope items))
  | .map entries => return .done (.map (← evaluateAll evaluator scope entries))
  | .list (head :: operands) =>
      (stepList steps evaluator scope head operands).onError fun m e =>
        e.inContext fun _ => m.text .readable form
  | other => return .done other

/-- Evaluate a form within so many steps, counted along each chain of nested
evaluations. -/
def run (steps : Nat) (form : Value) (scope : Scope) (m : Machine) : Outcome Value :=
  match steps with
  | 0 => .unfinished
  | steps + 1 =>
      match step steps (fun form scope => .nested (run steps form scope)) form scope m with
      | .value (.done value) m => .value value m
      | .value (.next form scope) m => run steps form scope m
      | .error cause m => .error cause m
      | .unfinished => .unfinished

/-- Evaluate a form, one level deeper, within so many steps. -/
def evaluateWithin (steps : Nat) : Evaluator :=
  fun form scope => .nested (run steps form scope)

/-- The steps that evaluation is allowed where nothing else is said; no run that
anyone waits for comes near them. -/
def unlimited : Nat := Nat.pow 2 62

def evaluate : Evaluator :=
  evaluateWithin unlimited

def call : Value → List Value → Eval Value :=
  apply evaluate

def macroExpand : Value → Scope → Eval Value :=
  expandFully evaluate unlimited

def readOnly (text : String) : Eval Value :=
  .ofExcept ((readWhole text).mapError .read)

def evaluateText (text : String) (scope : Scope) : Eval Value := do
  let form ← readOnly text
  evaluate form scope

end Lisplet
