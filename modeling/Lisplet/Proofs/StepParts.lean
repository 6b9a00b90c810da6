/-
The parts of a step.  At a list macro expansion comes first, and a special form
or a call follows.  A step ends with a value or hands over the form in its tail;
those that always end with a value are done with the outcome of one action.
-/
import Lisplet.Proofs.Outcome

namespace Lisplet

/-- The outcome of a step, carried on to the outcome of the evaluation: what a
step hands over goes on as `tail` says. -/
def Ends (tail : Value → Scope → Machine → Outcome Value → Prop) :
    Outcome Step → Outcome Value → Prop
  | .value (.done value) m, outcome => outcome = .value value m
  | .value (.next form scope) m, outcome => tail form scope m outcome
  | .error cause m, outcome => outcome = .error cause m
  | .unfinished, outcome => outcome = .unfinished

/-- A step that is done with the outcome of an action ends with that outcome. -/
theorem ends_map_done {tail : Value → Scope → Machine → Outcome Value → Prop}
    {ended outcome : Outcome Value} : Ends tail (ended.map .done) outcome ↔ outcome = ended := by
  cases ended <;> exact Iff.rfl

/-- The template `(unquote x)` expands to `x`. -/
theorem expandTemplate_of_unquote {template form : Value}
    (h : template.argumentOf? "unquote" = some form) : expandTemplate template = form := by
  cases template with
  | list items => rw [expandTemplate, h]
  | _ => cases h

/-- The special form that a list with this head is, unless it is a macro call. -/
def Value.specialForm? : Value → Option SpecialForm
  | .symbol name => SpecialForm.ofName? name
  | _ => none

theorem Value.exists_symbol_of_specialForm? (head : Value) {form : SpecialForm}
    (h : head.specialForm? = some form) :
    ∃ name, head = .symbol name ∧ SpecialForm.ofName? name = some form := by
  cases head with
  | symbol name => exact ⟨name, rfl, h⟩
  | _ => cases h

theorem Value.symbol_or_other (target : Value) :
    (∃ name, target = .symbol name) ∨ ∀ name, target ≠ .symbol name := by
  cases target with
  | symbol name => exact .inl ⟨name, rfl⟩
  | _ => exact .inr fun name heq => by cases heq

def Machine.define (m : Machine) (scope : Scope) (name : String) (value : Value) : Machine :=
  { m with frames := m.frames.modify scope.own (·.set name value) }

/-- Bind a name to a copy of a function that is called as a macro. -/
def bindMacro (scope : Scope) (name : String) : Value → Eval Value
  | .closure isMacro code => do
      match ← .read fun m => m.closures[code]? with
      | none => refuseCall (.closure isMacro code)
      | some closure =>
          let value ← .newClosure true closure
          .define scope name value
          return value
  | other => .fail (.unmet (.function SpecialForm.defineMacro.name) other)

def makeFunction (scope : Scope) (parameters : Value) (body : List Value) : Eval Value := do
  let names ← .ofExcept (bindingForms .function parameters >>= parameterNames)
  .newClosure false ⟨names, bodyForm body, scope⟩

def callClosure (evaluator : Evaluator) (isMacro : Bool) (code : Nat) (arguments : List Value) :
    Eval Value := do
  let (body, scope) ← enterClosure isMacro code arguments
  evaluator body scope

/-- The end of a step at a call, when the head and the operands have values. -/
def finishCall (evaluator : Evaluator) (head function : Value) (arguments : List Value) :
    Eval Step :=
  match function with
  | .closure false code => do
      let (body, inner) ← (enterClosure false code arguments).onError fun m cause =>
        cause.naming fun _ => m.text .readable head
      return .next body inner
  | _ => return .done (← apply evaluator function arguments)

theorem finishCall_other (evaluator : Evaluator) (head : Value) {function : Value}
    (hfunction : ∀ code, function ≠ .closure false code) (arguments : List Value) (m : Machine) :
    finishCall evaluator head function arguments m =
      (apply evaluator function arguments m).map .done := by
  match function with
  | .closure false code => exact (hfunction code rfl).elim
  | .closure true _ | .nil | .bool _ | .number _ | .symbol _ | .string _ | .list _
  | .vector _ | .map _ | .atom _ | .native _ => rfl

/-- The end of a step at a `let*`, from the bindings that are left. -/
def finishBind (evaluator : Evaluator) (bindings : List (Value × Value)) (body : List Value)
    (scope : Scope) : Eval Step := do
  bindInTurn evaluator scope bindings
  return .next (bodyForm body) scope

theorem finishBind_badName (evaluator : Evaluator) {target : Value}
    (htarget : ∀ name, target ≠ .symbol name) (form : Value) (bindings : List (Value × Value))
    (body : List Value) (scope : Scope) :
    finishBind evaluator ((target, form) :: bindings) body scope =
      .fail (.unmet .bindingName target) := by
  cases target with
  | symbol name => exact (htarget name rfl).elim
  | _ => rfl

section

variable {evaluator : Evaluator} {scope : Scope} {m after : Machine} {cause : Error}

/-- Of forms that are evaluated in turn, the first to fail makes them all fail. -/
theorem evaluateEach_eq_error_iff {forms : List Value} :
    evaluateEach evaluator scope forms m = .error cause after ↔
      ∃ earlier form later m₁, forms = earlier ++ form :: later ∧
        evaluateEach evaluator scope earlier m = .value () m₁ ∧
        evaluator form scope m₁ = .error cause after := by
  induction forms generalizing m with
  | nil => simp [evaluateEach, Eval.pure_apply]
  | cons form forms ih =>
      simp only [evaluateEach, Eval.bind_apply, Outcome.andThen_eq_error_iff, ih]
      constructor
      · rintro (hform | ⟨value, m₁, hform, earlier, first, later, m₂, rfl, hearlier, hfirst⟩)
        · exact ⟨[], form, forms, m, rfl, rfl, hform⟩
        · refine ⟨form :: earlier, first, later, m₂, rfl, ?_, hfirst⟩
          rw [evaluateEach, Eval.bind_apply, hform]
          exact hearlier
      · rintro ⟨earlier, first, later, m₂, hsplit, hearlier, hfirst⟩
        rcases earlier with _ | ⟨other, earlier⟩
        · cases hsplit
          cases hearlier
          exact .inl hfirst
        · cases hsplit
          obtain ⟨value, m₁, hform, hrest⟩ := Outcome.andThen_eq_value hearlier
          exact .inr ⟨value, m₁, hform, earlier, first, later, m₂, rfl, hrest, hfirst⟩

theorem evaluateAll_eq_error_iff {forms : List Value} :
    evaluateAll evaluator scope forms m = .error cause after ↔
      ∃ earlier form later values m₁, forms = earlier ++ form :: later ∧
        evaluateAll evaluator scope earlier m = .value values m₁ ∧
        evaluator form scope m₁ = .error cause after := by
  induction forms generalizing m with
  | nil => simp [evaluateAll, Eval.pure_apply]
  | cons form forms ih =>
      simp only [evaluateAll, Eval.bind_apply, Outcome.andThen_eq_error_iff, ih]
      constructor
      · rintro (hform | ⟨value, m₁, hform,
          ⟨earlier, first, later, values, m₂, rfl, hearlier, hfirst⟩ | ⟨_, _, -, hnone⟩⟩)
        · exact ⟨[], form, forms, [], m, rfl, rfl, hform⟩
        · refine ⟨form :: earlier, first, later, value :: values, m₂, rfl, ?_, hfirst⟩
          simp only [evaluateAll, Eval.bind_apply, hform, Outcome.andThen_value, hearlier]
          rfl
        · cases hnone
      · rintro ⟨earlier, first, later, values, m₂, hsplit, hearlier, hfirst⟩
        rcases earlier with _ | ⟨other, earlier⟩
        · cases hsplit
          cases hearlier
          exact .inl hfirst
        · cases hsplit
          obtain ⟨value, m₁, hform, hrest⟩ := Outcome.andThen_eq_value hearlier
          obtain ⟨rest, m₃, hrest, hvalues⟩ := Outcome.andThen_eq_value hrest
          cases hvalues
          exact .inr ⟨value, m₁, hform,
            .inl ⟨earlier, first, later, rest, m₂, rfl, hrest, hfirst⟩⟩

/-- Bindings fail at a value, or at what is no name to bind a value to. -/
theorem bindInTurn_eq_error {bindings : List (Value × Value)}
    (h : bindInTurn evaluator scope bindings m = .error cause after) :
    (∃ earlier name form later m₁, bindings = earlier ++ (.symbol name, form) :: later ∧
      bindInTurn evaluator scope earlier m = .value () m₁ ∧
      evaluator form scope m₁ = .error cause after) ∨
    ∃ target, cause = .unmet .bindingName target := by
  induction bindings generalizing m with
  | nil => cases h
  | cons binding bindings ih =>
      obtain ⟨target, form⟩ := binding
      cases target with
      | symbol name =>
          rw [bindInTurn, Eval.bind_apply, Outcome.andThen_eq_error_iff] at h
          rcases h with hform | ⟨value, m₁, hform, hbindings⟩
          · exact .inl ⟨[], name, form, bindings, m, rfl, rfl, hform⟩
          · rcases ih hbindings with
              ⟨earlier, other, first, later, m₂, rfl, hearlier, hfirst⟩ | hname
            · refine .inl
                ⟨(.symbol name, form) :: earlier, other, first, later, m₂, rfl, ?_, hfirst⟩
              rw [bindInTurn, Eval.bind_apply, hform]
              exact hearlier
            · exact .inr hname
      | _ =>
          cases h
          exact .inr ⟨_, rfl⟩

theorem bindInTurn_fails {earlier later : List (Value × Value)} {name : String} {form : Value}
    {m₁ : Machine} (hearlier : bindInTurn evaluator scope earlier m = .value () m₁)
    (hform : evaluator form scope m₁ = .error cause after) :
    bindInTurn evaluator scope (earlier ++ (.symbol name, form) :: later) m =
      .error cause after := by
  induction earlier generalizing m with
  | nil =>
      cases hearlier
      rw [List.nil_append, bindInTurn, Eval.bind_apply, hform]
      rfl
  | cons binding earlier ih =>
      obtain ⟨target, first⟩ := binding
      cases target with
      | symbol other =>
          obtain ⟨value, m₂, hfirst, hrest⟩ := Outcome.andThen_eq_value hearlier
          rw [List.cons_append, bindInTurn, Eval.bind_apply, hfirst]
          exact ih hrest
      | _ => cases hearlier

end

/-- A call begins with the values of the head and of the operands. -/
theorem stepCall_apply (evaluator : Evaluator) (scope : Scope) (head : Value)
    (operands : List Value) (m : Machine) :
    stepCall evaluator scope head operands m =
      (evaluateAll evaluator scope (head :: operands) m).andThen fun values =>
        finishCall evaluator head (values.headD .nil) values.tail := by
  simp only [stepCall, evaluateAll, Eval.bind_apply]
  cases evaluator head scope m with
  | value function after =>
      simp only [Outcome.andThen_value, Eval.bind_apply]
      cases evaluateAll evaluator scope operands after <;> rfl
  | error cause after => rfl
  | unfinished => rfl

theorem step_vector (steps : Nat) (evaluator : Evaluator) (items : List Value) (scope : Scope)
    (m : Machine) :
    step steps evaluator (.vector items) scope m =
      ((evaluateAll evaluator scope items m).map .vector).map .done := by
  rw [step, Eval.bind_apply]
  cases evaluateAll evaluator scope items m <;> rfl

theorem step_map (steps : Nat) (evaluator : Evaluator) (entries : List Value) (scope : Scope)
    (m : Machine) :
    step steps evaluator (.map entries) scope m =
      ((evaluateAll evaluator scope entries m).map .map).map .done := by
  rw [step, Eval.bind_apply]
  cases evaluateAll evaluator scope entries m <;> rfl

theorem expandOnce_of_none {evaluator : Evaluator} {form : Value} {scope : Scope} {m : Machine}
    (hmacroCall : m.macroCall? scope form = none) :
    expandOnce evaluator form scope m = .value none m := by
  simp only [expandOnce, Eval.bind_apply, Eval.read_apply, Outcome.andThen_value, hmacroCall,
    Eval.pure_apply]

theorem expandOnce_of_some {evaluator : Evaluator} {form : Value} {scope : Scope} {m : Machine}
    {code : Nat} {arguments : List Value}
    (hmacroCall : m.macroCall? scope form = some (code, arguments)) :
    expandOnce evaluator form scope m =
      (callClosure evaluator true code arguments m).map some := by
  simp only [expandOnce, callClosure, Eval.bind_apply, Eval.read_apply, Outcome.andThen_value,
    hmacroCall]
  cases enterClosure true code arguments m <;> rfl

theorem stepList_macroCall {evaluator : Evaluator} {scope : Scope} {head : Value}
    {operands : List Value} {m : Machine} {code : Nat} {arguments : List Value} (steps : Nat)
    (hmacroCall : m.macroCall? scope (.list (head :: operands)) = some (code, arguments)) :
    stepList steps evaluator scope head operands m =
      (callClosure evaluator true code arguments m).map fun expansion => .next expansion scope := by
  rw [stepList.eq_def, Eval.bind_apply, expandOnce_of_some hmacroCall]
  cases callClosure evaluator true code arguments m <;> rfl

theorem stepList_call {evaluator : Evaluator} {scope : Scope} {head : Value}
    {operands : List Value} {m : Machine} (steps : Nat)
    (hmacroCall : m.macroCall? scope (.list (head :: operands)) = none)
    (hhead : head.specialForm? = none) :
    stepList steps evaluator scope head operands m = stepCall evaluator scope head operands m := by
  rw [stepList.eq_def, Eval.bind_apply, expandOnce_of_none hmacroCall]
  cases head with
  | symbol name =>
      rw [Value.specialForm?] at hhead
      simp only [Outcome.andThen_value, hhead]
  | _ => rfl

/-- A list that is no macro call and has its operands in their places. -/
theorem stepList_special {evaluator : Evaluator} {scope : Scope} {name : String}
    {operands : List Value} {m : Machine} {form : SpecialForm} {special : Special} (steps : Nat)
    (hmacroCall : m.macroCall? scope (.list (.symbol name :: operands)) = none)
    (hform : SpecialForm.ofName? name = some form)
    (hplace : form.place? operands = some special) :
    stepList steps evaluator scope (.symbol name) operands m =
      stepSpecial steps evaluator scope special m := by
  rw [stepList.eq_def, Eval.bind_apply, expandOnce_of_none hmacroCall]
  simp only [Outcome.andThen_value, hform, hplace]

/-- A list that is no macro call and has no places for its operands. -/
theorem stepList_wrongCount {evaluator : Evaluator} {scope : Scope} {name : String}
    {operands : List Value} {m : Machine} {form : SpecialForm} (steps : Nat)
    (hmacroCall : m.macroCall? scope (.list (.symbol name :: operands)) = none)
    (hform : SpecialForm.ofName? name = some form) (hplace : form.place? operands = none) :
    stepList steps evaluator scope (.symbol name) operands m =
      .error (.arity form.arity operands.length (some (some name))) m := by
  rw [stepList.eq_def, Eval.bind_apply, expandOnce_of_none hmacroCall]
  simp only [Outcome.andThen_value, hform, hplace]
  rfl

theorem stepSpecial_define (steps : Nat) (evaluator : Evaluator) (scope : Scope) (name : String)
    (form : Value) (m : Machine) :
    stepSpecial steps evaluator scope (.define (.symbol name) form) m =
      ((evaluator form scope m).andThen fun value m =>
        .value value (m.define scope name value)).map .done := by
  rw [stepSpecial, Eval.bind_apply]
  cases evaluator form scope m <;> rfl

theorem stepSpecial_defineMacro (steps : Nat) (evaluator : Evaluator) (scope : Scope)
    (name : String) (form : Value) (m : Machine) :
    stepSpecial steps evaluator scope (.defineMacro (.symbol name) form) m =
      ((evaluator form scope m).andThen (bindMacro scope name)).map .done := by
  rw [stepSpecial, Eval.bind_apply]
  cases evaluator form scope m with
  | value value m =>
      cases value with
      | closure isMacro code =>
          simp only [Outcome.andThen_value, bindMacro, Eval.bind_apply, Eval.read_apply]
          cases m.closures[code]? <;> rfl
      | _ => rfl
  | error cause m => rfl
  | unfinished => rfl

theorem stepSpecial_function (steps : Nat) (evaluator : Evaluator) (scope : Scope)
    (parameters : Value) (body : List Value) (m : Machine) :
    stepSpecial steps evaluator scope (.function parameters body) m =
      (makeFunction scope parameters body m).map .done := by
  simp only [stepSpecial, makeFunction, Eval.bind_apply]
  cases bindingForms .function parameters >>= parameterNames <;> rfl

theorem stepSpecial_macroExpand (steps : Nat) (evaluator : Evaluator) (scope : Scope)
    (form : Value) (m : Machine) :
    stepSpecial steps evaluator scope (.macroExpand form) m =
      (expandFully evaluator steps form scope m).map .done := rfl

/-- Only names can be defined. -/
theorem stepSpecial_defineTarget (steps : Nat) (evaluator : Evaluator) (scope : Scope)
    {target : Value} (htarget : ∀ name, target ≠ .symbol name) (form : Value) :
    stepSpecial steps evaluator scope (.define target form) =
      .fail (.unmet (.target SpecialForm.define.name) target) := by
  cases target with
  | symbol name => exact (htarget name rfl).elim
  | _ => rfl

theorem stepSpecial_defineMacroTarget (steps : Nat) (evaluator : Evaluator) (scope : Scope)
    {target : Value} (htarget : ∀ name, target ≠ .symbol name) (form : Value) :
    stepSpecial steps evaluator scope (.defineMacro target form) =
      .fail (.unmet (.target SpecialForm.defineMacro.name) target) := by
  cases target with
  | symbol name => exact (htarget name rfl).elim
  | _ => rfl

theorem stepSequence_cons (steps : Nat) (evaluator : Evaluator) (scope : Scope)
    (form next : Value) (forms : List Value) (m : Machine) :
    stepSpecial steps evaluator scope (.sequence (form :: next :: forms)) m =
      (evaluator form scope m).andThen fun _ =>
        stepSpecial steps evaluator scope (.sequence (next :: forms)) := by
  obtain ⟨last, hlast⟩ : ∃ last, (next :: forms).getLast? = some last :=
    ⟨_, List.getLast?_eq_some_getLast (List.cons_ne_nil next forms)⟩
  have hlast' : (form :: next :: forms).getLast? = some last := by
    rw [List.getLast?_cons_cons, hlast]
  simp only [stepSpecial, hlast, hlast', List.dropLast_cons_cons, evaluateEach]
  simp only [Eval.bind_apply]
  cases evaluator form scope m <;> rfl

end Lisplet
