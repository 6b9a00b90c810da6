/-
Evaluation as a big-step semantics.  The rules below say what a form comes to,
with plain recursion in every position: a form in tail position is evaluated by
a premise like any other.  A derivation within `n + 1` levels may nest other
evaluations within `n` levels; what stands in tail position stays at its level.
An error ends an evaluation at once, and the machine that goes with it has the
effects made so far.
-/
import Lisplet.Proofs.Calls
import Lisplet.Proofs.ErrorMessage
import Lisplet.Proofs.StepParts

namespace Lisplet

variable {α β : Type}

/-- Is the form neither a name nor a container of forms? -/
def Value.IsConstant : Value → Prop
  | .symbol _ | .vector _ | .map _ | .list (_ :: _) => False
  | _ => True

mutual

/-- Within so many levels, the form comes to the outcome in the scope, from the
machine. -/
inductive Evaluates : Nat → Value → Scope → Machine → Outcome Value → Prop
  | symbol {n name scope m value} (hbound : m.lookup? scope name = some value) :
      Evaluates (n + 1) (.symbol name) scope m (.value value m)
  | unbound {n name scope m} (hunbound : m.lookup? scope name = none) :
      Evaluates (n + 1) (.symbol name) scope m (.error (.unbound name) m)
  | vector {n items scope m outcome} (hitems : EvaluatesAll n items scope m outcome) :
      Evaluates (n + 1) (.vector items) scope m (outcome.map .vector)
  | map {n entries scope m outcome} (hentries : EvaluatesAll n entries scope m outcome) :
      Evaluates (n + 1) (.map entries) scope m (outcome.map .map)
  | constant {n form scope m} (hconstant : form.IsConstant) :
      Evaluates (n + 1) form scope m (.value form m)
  /-- A list is the context of every error that arises while it is evaluated
  and has none yet. -/
  | list {n head operands scope m outcome}
      (hlist : EvaluatesList n head operands scope m outcome) :
      Evaluates (n + 1) (.list (head :: operands)) scope m
        (outcome.noted fun m cause => cause.inContext fun _ =>
          m.text .readable (.list (head :: operands)))

/-- The forms come to their values from left to right, nested evaluations all. -/
inductive EvaluatesAll : Nat → List Value → Scope → Machine → Outcome (List Value) → Prop
  | nil {n scope m} : EvaluatesAll n [] scope m (.value [] m)
  | cons {n form forms scope m m₁ value outcome}
      (hform : Evaluates n form scope m (.value value m₁))
      (hforms : EvaluatesAll n forms scope m₁ outcome) :
      EvaluatesAll n (form :: forms) scope m (outcome.map (value :: ·))
  | fails {n form forms scope m m₁ cause}
      (hform : Evaluates n form scope m (.error cause m₁)) :
      EvaluatesAll n (form :: forms) scope m (.error cause m₁)

/-- A list with a head: a macro call, then a special form, then a call. -/
inductive EvaluatesList :
    Nat → Value → List Value → Scope → Machine → Outcome Value → Prop
  | macroCall {n head operands scope m code arguments m₁ expansion outcome}
      (hmacroCall : m.macroCall? scope (.list (head :: operands)) = some (code, arguments))
      (hexpansion : CallsClosure n true code arguments m (.value expansion m₁))
      (htail : Evaluates (n + 1) expansion scope m₁ outcome) :
      EvaluatesList n head operands scope m outcome
  | macroFails {n head operands scope m code arguments m₁ cause}
      (hmacroCall : m.macroCall? scope (.list (head :: operands)) = some (code, arguments))
      (hexpansion : CallsClosure n true code arguments m (.error cause m₁)) :
      EvaluatesList n head operands scope m (.error cause m₁)
  | special {n name operands scope m form special outcome}
      (hmacroCall : m.macroCall? scope (.list (.symbol name :: operands)) = none)
      (hform : SpecialForm.ofName? name = some form)
      (hplace : form.place? operands = some special)
      (hspecial : EvaluatesSpecial n special scope m outcome) :
      EvaluatesList n (.symbol name) operands scope m outcome
  | wrongCount {n name operands scope m form}
      (hmacroCall : m.macroCall? scope (.list (.symbol name :: operands)) = none)
      (hform : SpecialForm.ofName? name = some form)
      (hcount : form.arity.accepts operands.length = false) :
      EvaluatesList n (.symbol name) operands scope m
        (.error (.arity form.arity operands.length (some (some name))) m)
  | call {n head operands scope m function arguments m₁ outcome}
      (hmacroCall : m.macroCall? scope (.list (head :: operands)) = none)
      (hhead : head.specialForm? = none)
      (hparts : EvaluatesAll n (head :: operands) scope m (.value (function :: arguments) m₁))
      (hcall : EvaluatesCall n head function arguments m₁ outcome) :
      EvaluatesList n head operands scope m outcome
  | partFails {n head operands scope m m₁ cause}
      (hmacroCall : m.macroCall? scope (.list (head :: operands)) = none)
      (hhead : head.specialForm? = none)
      (hparts : EvaluatesAll n (head :: operands) scope m (.error cause m₁)) :
      EvaluatesList n head operands scope m (.error cause m₁)

/-- A special form with its operands in their places. -/
inductive EvaluatesSpecial : Nat → Special → Scope → Machine → Outcome Value → Prop
  | define {n name form scope m outcome} (hform : Evaluates n form scope m outcome) :
      EvaluatesSpecial n (.define (.symbol name) form) scope m
        (outcome.andThen fun value m => .value value (m.define scope name value))
  | defineTarget {n target form scope m} (htarget : ∀ name, target ≠ .symbol name) :
      EvaluatesSpecial n (.define target form) scope m
        (.error (.unmet (.target SpecialForm.define.name) target) m)
  | defineMacro {n name form scope m outcome} (hform : Evaluates n form scope m outcome) :
      EvaluatesSpecial n (.defineMacro (.symbol name) form) scope m
        (outcome.andThen (bindMacro scope name))
  | defineMacroTarget {n target form scope m} (htarget : ∀ name, target ≠ .symbol name) :
      EvaluatesSpecial n (.defineMacro target form) scope m
        (.error (.unmet (.target SpecialForm.defineMacro.name) target) m)
  | bindingForms {n bindings body scope m cause}
      (hforms : Lisplet.bindingForms .bind bindings = .error cause) :
      EvaluatesSpecial n (.bind bindings body) scope m (.error cause m)
  | unpaired {n bindings body scope m forms}
      (hforms : Lisplet.bindingForms .bind bindings = .ok forms) (hpairs : pairs? forms = none) :
      EvaluatesSpecial n (.bind bindings body) scope m
        (.error (.evaluation .unpairedBindings none) m)
  | bind {n bindings body scope m forms pairs outcome}
      (hforms : Lisplet.bindingForms .bind bindings = .ok forms)
      (hpairs : pairs? forms = some pairs)
      (hbody : EvaluatesBound n pairs body (scope.enter m.frames.size)
        { m with frames := m.frames.push [] } outcome) :
      EvaluatesSpecial n (.bind bindings body) scope m outcome
  | sequence {n forms scope m outcome} (hforms : EvaluatesSequence n forms scope m outcome) :
      EvaluatesSpecial n (.sequence forms) scope m outcome
  | branchFails {n condition consequent alternative scope m m₁ cause}
      (hcondition : Evaluates n condition scope m (.error cause m₁)) :
      EvaluatesSpecial n (.branch condition consequent alternative) scope m (.error cause m₁)
  | branchTrue {n condition consequent alternative scope m m₁ value outcome}
      (hcondition : Evaluates n condition scope m (.value value m₁))
      (htruth : value.isTruthy = true)
      (htail : Evaluates (n + 1) consequent scope m₁ outcome) :
      EvaluatesSpecial n (.branch condition consequent alternative) scope m outcome
  | branchFalse {n condition consequent alternative scope m m₁ value outcome}
      (hcondition : Evaluates n condition scope m (.value value m₁))
      (htruth : value.isTruthy = false)
      (htail : Evaluates (n + 1) alternative scope m₁ outcome) :
      EvaluatesSpecial n (.branch condition consequent (some alternative)) scope m outcome
  | branchNil {n condition consequent scope m m₁ value}
      (hcondition : Evaluates n condition scope m (.value value m₁))
      (htruth : value.isTruthy = false) :
      EvaluatesSpecial n (.branch condition consequent none) scope m (.value .nil m₁)
  | function {n parameters body scope m} :
      EvaluatesSpecial n (.function parameters body) scope m
        (makeFunction scope parameters body m)
  | quote {n form scope m} : EvaluatesSpecial n (.quote form) scope m (.value form m)
  | quasiquote {n template scope m outcome}
      (htail : Evaluates (n + 1) (expandTemplate template) scope m outcome) :
      EvaluatesSpecial n (.quasiquote template) scope m outcome
  | quasiquoteExpand {n template scope m} :
      EvaluatesSpecial n (.quasiquoteExpand template) scope m
        (.value (expandTemplate template) m)
  | macroExpand {n form scope m outcome} (hform : ExpandsFully n form scope m outcome) :
      EvaluatesSpecial n (.macroExpand form) scope m outcome

/-- The forms of a `do`: all of them for their effects but the last. -/
inductive EvaluatesSequence : Nat → List Value → Scope → Machine → Outcome Value → Prop
  | nil {n scope m} : EvaluatesSequence n [] scope m (.value .nil m)
  | last {n form scope m outcome} (htail : Evaluates (n + 1) form scope m outcome) :
      EvaluatesSequence n [form] scope m outcome
  | cons {n form next forms scope m m₁ value outcome}
      (hform : Evaluates n form scope m (.value value m₁))
      (hforms : EvaluatesSequence n (next :: forms) scope m₁ outcome) :
      EvaluatesSequence n (form :: next :: forms) scope m outcome
  | fails {n form next forms scope m m₁ cause}
      (hform : Evaluates n form scope m (.error cause m₁)) :
      EvaluatesSequence n (form :: next :: forms) scope m (.error cause m₁)

/-- The bindings of a `let*` in turn, and then its body, in the new scope. -/
inductive EvaluatesBound :
    Nat → List (Value × Value) → List Value → Scope → Machine → Outcome Value → Prop
  | body {n body scope m outcome} (htail : Evaluates (n + 1) (bodyForm body) scope m outcome) :
      EvaluatesBound n [] body scope m outcome
  | bind {n name form bindings body scope m m₁ value outcome}
      (hform : Evaluates n form scope m (.value value m₁))
      (hrest : EvaluatesBound n bindings body scope (m₁.define scope name value) outcome) :
      EvaluatesBound n ((.symbol name, form) :: bindings) body scope m outcome
  | fails {n name form bindings body scope m m₁ cause}
      (hform : Evaluates n form scope m (.error cause m₁)) :
      EvaluatesBound n ((.symbol name, form) :: bindings) body scope m (.error cause m₁)
  | badName {n target form bindings body scope m} (htarget : ∀ name, target ≠ .symbol name) :
      EvaluatesBound n ((target, form) :: bindings) body scope m
        (.error (.unmet .bindingName target) m)

/-- A call of what the head of a list has come to.  The body of a closure is in
tail position, and a wrong number of arguments is reported under the head. -/
inductive EvaluatesCall :
    Nat → Value → Value → List Value → Machine → Outcome Value → Prop
  | closure {n head code arguments m body scope m₁ outcome}
      (henter : enterClosure false code arguments m = .value (body, scope) m₁)
      (htail : Evaluates (n + 1) body scope m₁ outcome) :
      EvaluatesCall n head (.closure false code) arguments m outcome
  | refused {n head code arguments m m₁ cause}
      (henter : enterClosure false code arguments m = .error cause m₁) :
      EvaluatesCall n head (.closure false code) arguments m
        (.error (cause.naming fun _ => m₁.text .readable head) m₁)
  | other {n head function arguments m outcome}
      (hfunction : ∀ code, function ≠ .closure false code)
      (hcall : Applies n function arguments m outcome) :
      EvaluatesCall n head function arguments m outcome

inductive CallsClosure : Nat → Bool → Nat → List Value → Machine → Outcome Value → Prop
  | body {n isMacro code arguments m body scope m₁ outcome}
      (henter : enterClosure isMacro code arguments m = .value (body, scope) m₁)
      (hbody : Evaluates n body scope m₁ outcome) :
      CallsClosure n isMacro code arguments m outcome
  | refused {n isMacro code arguments m m₁ cause}
      (henter : enterClosure isMacro code arguments m = .error cause m₁) :
      CallsClosure n isMacro code arguments m (.error cause m₁)

inductive Applies : Nat → Value → List Value → Machine → Outcome Value → Prop
  | closure {n code arguments m outcome}
      (hcall : CallsClosure n false code arguments m outcome) :
      Applies n (.closure false code) arguments m outcome
  | primitive {n native p arguments act m outcome} (hoperation : native.operation = .primitive p)
      (hcall : p.call? arguments = some act) (houtcome : act m = outcome) :
      Applies n (.native native) arguments m outcome
  | swap {n native target updater others cell m outcome}
      (hoperation : native.operation = .swap) (hcell : target.toCell "swap!" = .ok cell)
      (hupdate : Applies n updater (m.cells[cell]?.getD .nil :: others) m outcome) :
      Applies n (.native native) (target :: updater :: others) m
        (outcome.andThen fun value m =>
          .value value { m with cells := m.cells.setIfInBounds cell value })
  | swapTarget {n native target updater others cause m}
      (hoperation : native.operation = .swap) (hcell : target.toCell "swap!" = .error cause) :
      Applies n (.native native) (target :: updater :: others) m (.error cause m)
  | evaluate {n native root form m outcome} (hoperation : native.operation = .evaluate root)
      (hform : Evaluates n form root m outcome) :
      Applies n (.native native) [form] m outcome
  | countArguments {n native arity arguments m}
      (hoperation : native.operation = .countArguments arity)
      (haccepts : arity.accepts arguments.length = true) :
      Applies n (.native native) arguments m (.value (.number (.ofNat arguments.length)) m)
  | wrongCount {n native arguments m}
      (hcount : native.operation.arity.accepts arguments.length = false) :
      Applies n (.native native) arguments m (.error (wrongCount native arguments) m)
  | notCallable {n function arguments m} (hfunction : ¬ function.IsCallable) :
      Applies n function arguments m
        (.error (.notCallable (m.text .readable function)) m)

inductive ExpandsFully : Nat → Value → Scope → Machine → Outcome Value → Prop
  | done {n form scope m} (hmacroCall : m.macroCall? scope form = none) :
      ExpandsFully n form scope m (.value form m)
  | next {n form scope m code arguments m₁ expansion outcome}
      (hmacroCall : m.macroCall? scope form = some (code, arguments))
      (hexpansion : CallsClosure n true code arguments m (.value expansion m₁))
      (hrest : ExpandsFully n expansion scope m₁ outcome) :
      ExpandsFully n form scope m outcome
  | fails {n form scope m code arguments m₁ cause}
      (hmacroCall : m.macroCall? scope form = some (code, arguments))
      (hexpansion : CallsClosure n true code arguments m (.error cause m₁)) :
      ExpandsFully n form scope m (.error cause m₁)

end

/-- No list around the evaluation is the context of its error. -/
def Outcome.InContext : Outcome α → Prop
  | .error cause _ => ∀ written, cause.inContext written = cause
  | _ => True

theorem Outcome.InContext.noted_eq {outcome : Outcome α} (h : outcome.InContext)
    (written : Machine → Unit → Rendering) :
    outcome.noted (fun m cause => cause.inContext (written m)) = outcome := by
  cases outcome with
  | error cause m => rw [noted_error, h]
  | _ => rfl

theorem Outcome.InContext.map {outcome : Outcome α} (h : outcome.InContext) (make : α → β) :
    (outcome.map make).InContext := by
  rcases outcome with ⟨result, m⟩ | ⟨cause, m⟩ | _
  · trivial
  · exact h
  · trivial

theorem Outcome.inContext_noted (outcome : Outcome α) (written : Machine → Unit → Rendering) :
    (outcome.noted fun m cause => cause.inContext (written m)).InContext := by
  cases outcome with
  | error cause m => exact fun outer => cause.inContext_inContext (written m) outer
  | _ => trivial

mutual

/-- An error that an evaluation ends with has found its context, so that the
lists around it, of which it is in tail position, need not be remembered. -/
theorem Evaluates.inContext : ∀ {n form scope m outcome},
    Evaluates n form scope m outcome → outcome.InContext
  | _, _, _, _, _, .symbol _ => trivial
  | _, _, _, _, _, .unbound _ => fun _ => rfl
  | _, _, _, _, _, .vector hitems => (EvaluatesAll.inContext hitems).map _
  | _, _, _, _, _, .map hentries => (EvaluatesAll.inContext hentries).map _
  | _, _, _, _, _, .constant _ => trivial
  | _, _, _, _, _, .list _ => Outcome.inContext_noted _ _

theorem EvaluatesAll.inContext : ∀ {n forms scope m outcome},
    EvaluatesAll n forms scope m outcome → outcome.InContext
  | _, _, _, _, _, .nil => trivial
  | _, _, _, _, _, .cons _ hforms => (EvaluatesAll.inContext hforms).map _
  | _, _, _, _, _, .fails hform => (Evaluates.inContext hform : Outcome.InContext (.error _ _))

end

theorem EvaluatesAll.exists_eq_cons {n : Nat} {form : Value} {forms values : List Value}
    {scope : Scope} {m after : Machine}
    (h : EvaluatesAll n (form :: forms) scope m (.value values after)) :
    ∃ first rest, values = first :: rest := by
  generalize houtcome : Outcome.value values after = outcome at h
  cases h with
  | @cons _ _ _ _ _ _ value outcome hform hforms =>
      cases outcome with
      | value rest after =>
          cases houtcome
          exact ⟨value, rest, rfl⟩
      | error | unfinished => cases houtcome
  | fails => cases houtcome

end Lisplet
