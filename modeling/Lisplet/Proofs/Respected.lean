/-
Relations between actions that evaluation respects.  A step of evaluation does
nothing with the evaluator it is given but perform it between actions that are
blind to the depth counter.  Two evaluators that are related on every form
therefore make two steps that are related, for each relation that the ways of
putting actions together preserve.
-/
import Lisplet.Proofs.Calls
import Lisplet.Proofs.DepthBlind

namespace Lisplet

variable {α β : Type}

def Error.IsTooDeep (cause : Error) : Prop :=
  ∃ context, cause = .evaluation .tooDeep context

/-- A note on an error that does not look at the counter, and that leaves an
error of depth what it is. -/
structure Mild (note : Machine → Error → Error) : Prop where
  blind : ∀ m depth cause, note (m.atDepth depth) cause = note m cause
  tooDeep : ∀ m cause, cause.IsTooDeep → (note m cause).IsTooDeep

theorem mild_inContext (form : Value) :
    Mild fun m cause => cause.inContext fun _ => m.text .readable form where
  blind m depth cause := by simp only [Machine.text_atDepth]
  tooDeep m cause := by
    rintro ⟨context, rfl⟩
    cases context <;> exact ⟨_, rfl⟩

theorem mild_naming (head : Value) :
    Mild fun m cause => cause.naming fun _ => m.text .readable head where
  blind m depth cause := by simp only [Machine.text_atDepth]
  tooDeep m cause := by
    rintro ⟨context, rfl⟩
    exact ⟨_, rfl⟩

/-- The ways of putting actions together preserve the relation. -/
structure Respected (R : ⦃α : Type⦄ → Eval α → Eval α → Prop) : Prop where
  blind : ∀ {α : Type} {act : Eval α}, Blind act → R act act
  bind : ∀ {α β : Type} {act act' : Eval α} {next next' : α → Eval β},
    R act act' → (∀ result, R (next result) (next' result)) → R (act >>= next) (act' >>= next')
  onError : ∀ {α : Type} {act act' : Eval α} {note : Machine → Error → Error},
    R act act' → Mild note → R (act.onError note) (act'.onError note)

theorem Blind.onError {act : Eval α} {note : Machine → Error → Error} (hact : Blind act)
    (hnote : Mild note) : Blind (act.onError note) := by
  intro m depth
  simp only [Eval.onError_apply, hact m depth]
  rcases act m with ⟨result, after⟩ | ⟨cause, after⟩ | _
  · rfl
  · exact congrArg (Outcome.error · _) (hnote.blind after depth cause)
  · rfl

/-- Blindness itself, as a relation. -/
theorem respected_blind : Respected fun _ act act' => act' = act ∧ Blind act where
  blind hact := ⟨rfl, hact⟩
  bind := by
    rintro α β act _ next next' ⟨rfl, hact⟩ hnext
    obtain rfl : next' = next := funext fun result => (hnext result).1
    exact ⟨rfl, .bind hact fun result => (hnext result).2⟩
  onError := by
    rintro α act _ note ⟨rfl, hact⟩ hnote
    exact ⟨rfl, .onError hact hnote⟩

namespace Respected

variable {R : ⦃α : Type⦄ → Eval α → Eval α → Prop} {evaluator evaluator' : Evaluator}

section

variable (hR : Respected R)
  (hevaluator : ∀ form scope, R (evaluator form scope) (evaluator' form scope))
include hR hevaluator

theorem evaluateAll (scope : Scope) (forms : List Value) :
    R (evaluateAll evaluator scope forms) (evaluateAll evaluator' scope forms) := by
  induction forms with
  | nil => exact hR.blind (.pure _)
  | cons form forms ih =>
      exact hR.bind (hevaluator form scope) fun _ => hR.bind ih fun _ => hR.blind (.pure _)

theorem evaluateEach (scope : Scope) (forms : List Value) :
    R (evaluateEach evaluator scope forms) (evaluateEach evaluator' scope forms) := by
  induction forms with
  | nil => exact hR.blind (.pure _)
  | cons form forms ih => exact hR.bind (hevaluator form scope) fun _ => ih

theorem apply (function : Value) (arguments : List Value) :
    R (apply evaluator function arguments) (apply evaluator' function arguments) := by
  induction function, arguments using call_induction with
  | closure code arguments =>
      rw [apply_closure, apply_closure]
      exact hR.bind (hR.blind (.enterClosure _ _ _)) fun entered => hevaluator _ _
  | primitive native p act arguments hoperation hcall =>
      rw [apply_primitive _ hoperation hcall, apply_primitive _ hoperation hcall]
      exact hR.blind (.of_call? hcall)
  | swap native target updater others hoperation ih =>
      rw [apply_swap _ hoperation, apply_swap _ hoperation]
      refine hR.bind (hR.blind (.ofExcept _)) ?_
      intro cell
      refine hR.bind (hR.blind (.content _)) ?_
      intro content
      refine hR.bind (ih content) fun result => hR.blind ?_
      exact .bind (.replace _ _) fun _ => .pure _
  | evaluate native root form hoperation =>
      rw [apply_evaluate _ _ hoperation, apply_evaluate _ _ hoperation]
      exact hevaluator form root
  | countArguments native arity arguments hoperation haccepts =>
      rw [apply_countArguments _ hoperation haccepts, apply_countArguments _ hoperation haccepts]
      exact hR.blind (.pure _)
  | wrongCount native arguments hcount =>
      rw [apply_wrongCount _ hcount, apply_wrongCount _ hcount]
      exact hR.blind (.fail _)
  | notCallable function arguments hcallable =>
      rw [apply_notCallable _ hcallable, apply_notCallable _ hcallable]
      exact hR.blind (.refuseCall _)

theorem expandOnce (form : Value) (scope : Scope) :
    R (expandOnce evaluator form scope) (expandOnce evaluator' form scope) := by
  refine hR.bind (hR.blind (.read fun _ _ => rfl)) ?_
  intro found
  rcases found with _ | call
  · exact hR.blind (.pure _)
  · refine hR.bind (hR.blind (.enterClosure _ _ _)) ?_
    intro entered
    exact hR.bind (hevaluator _ _) fun _ => hR.blind (.pure _)

theorem expandFully (steps : Nat) (form : Value) (scope : Scope) :
    R (expandFully evaluator steps form scope) (expandFully evaluator' steps form scope) := by
  induction steps generalizing form with
  | zero => exact hR.blind .unfinished
  | succ steps ih =>
      refine hR.bind (hR.expandOnce hevaluator form scope) ?_
      intro expansion
      rcases expansion with _ | expansion
      · exact hR.blind (.pure _)
      · exact ih expansion

theorem bindInTurn (scope : Scope) (bindings : List (Value × Value)) :
    R (bindInTurn evaluator scope bindings) (bindInTurn evaluator' scope bindings) := by
  induction bindings with
  | nil => exact hR.blind (.pure _)
  | cons binding bindings ih =>
      obtain ⟨target, form⟩ := binding
      cases target with
      | symbol name =>
          refine hR.bind (hevaluator form scope) ?_
          intro _
          exact hR.bind (hR.blind (.define _ _ _)) fun _ => ih
      | _ => exact hR.blind (.fail _)

theorem stepCall (scope : Scope) (head : Value) (operands : List Value) :
    R (stepCall evaluator scope head operands) (stepCall evaluator' scope head operands) := by
  refine hR.bind (hevaluator head scope) ?_
  intro function
  refine hR.bind (hR.evaluateAll hevaluator scope operands) ?_
  intro arguments
  split
  · refine hR.blind (.bind (.onError (.enterClosure _ _ _) ?_) fun entered => .pure _)
    exact mild_naming head
  · exact hR.bind (hR.apply hevaluator function arguments) fun _ => hR.blind (.pure _)

end

section

-- Macro expansion takes a number of steps of its own, so that the two sides
-- may be allowed different numbers of them.
variable (hR : Respected R)
  (hevaluator : ∀ form scope, R (evaluator form scope) (evaluator' form scope))
  {steps steps' : Nat}
  (hexpand : ∀ form scope, R (Lisplet.expandFully evaluator steps form scope)
    (Lisplet.expandFully evaluator' steps' form scope))
include hR hevaluator hexpand

theorem stepSpecial (scope : Scope) (special : Special) :
    R (stepSpecial steps evaluator scope special)
      (stepSpecial steps' evaluator' scope special) := by
  cases special with
  | define target form =>
      cases target with
      | symbol name =>
          refine hR.bind (hevaluator form scope) fun _ => hR.blind ?_
          exact .bind (.define _ _ _) fun _ => .pure _
      | _ => exact hR.blind (.fail _)
  | defineMacro target form =>
      cases target with
      | symbol name =>
          refine hR.bind (hevaluator form scope) ?_
          intro value
          cases value with
          | closure isMacro code =>
              refine hR.blind (.bind (.read fun _ _ => rfl) fun found => ?_)
              rcases found with _ | closure
              · exact .refuseCall _
              · refine .bind (.newClosure _ _) fun _ => .bind (.define _ _ _) fun _ => .pure _
          | _ => exact hR.blind (.fail _)
      | _ => exact hR.blind (.fail _)
  | bind bindings body =>
      refine hR.bind (hR.blind (.ofExcept _)) ?_
      intro forms
      rcases pairs? forms with _ | bindings
      · exact hR.blind (.fail _)
      · refine hR.bind (hR.blind (.newFrame _)) ?_
        intro frame
        exact hR.bind (hR.bindInTurn hevaluator _ _) fun _ => hR.blind (.pure _)
  | sequence forms =>
      simp only [Lisplet.stepSpecial]
      rcases forms.getLast? with _ | last
      · exact hR.blind (.pure _)
      · exact hR.bind (hR.evaluateEach hevaluator _ _) fun _ => hR.blind (.pure _)
  | branch condition consequent alternative =>
      refine hR.bind (hevaluator condition scope) fun value => hR.blind ?_
      split
      · exact .pure _
      · cases alternative <;> exact .pure _
  | function parameters body =>
      exact hR.blind (.bind (.ofExcept _) fun _ => .bind (.newClosure _ _) fun _ => .pure _)
  | quote | quasiquote | quasiquoteExpand => exact hR.blind (.pure _)
  | macroExpand form => exact hR.bind (hexpand form scope) fun _ => hR.blind (.pure _)

theorem stepList (scope : Scope) (head : Value) (operands : List Value) :
    R (stepList steps evaluator scope head operands)
      (stepList steps' evaluator' scope head operands) := by
  refine hR.bind (hR.expandOnce hevaluator _ scope) ?_
  intro expansion
  rcases expansion with _ | expansion
  · cases head with
    | symbol name =>
        dsimp only
        rcases SpecialForm.ofName? name with _ | form
        · exact hR.stepCall hevaluator scope _ operands
        · dsimp only
          rcases form.place? operands with _ | special
          · exact hR.blind (.fail _)
          · exact hR.stepSpecial hevaluator hexpand scope special
    | _ => exact hR.stepCall hevaluator scope _ operands
  · exact hR.blind (.pure _)

theorem step (form : Value) (scope : Scope) :
    R (step steps evaluator form scope) (step steps' evaluator' form scope) := by
  unfold Lisplet.step
  split
  · next name =>
      refine hR.blind (.bind (.read fun _ _ => rfl) fun found => ?_)
      rcases found with _ | value
      · exact .fail _
      · exact .pure _
  · exact hR.bind (hR.evaluateAll hevaluator scope _) fun _ => hR.blind (.pure _)
  · exact hR.bind (hR.evaluateAll hevaluator scope _) fun _ => hR.blind (.pure _)
  · exact hR.onError (hR.stepList hevaluator hexpand scope _ _) (mild_inContext _)
  · exact hR.blind (.pure _)

end

end Respected

/-- What follows a step: nothing, or the evaluation of the form handed over. -/
def resume (evaluator : Evaluator) : Step → Eval Value
  | .done value => pure value
  | .next form scope => evaluator form scope

theorem Respected.resume {R : ⦃α : Type⦄ → Eval α → Eval α → Prop} (hR : Respected R)
    {evaluator evaluator' : Evaluator}
    (hevaluator : ∀ form scope, R (evaluator form scope) (evaluator' form scope)) (step : Step) :
    R (resume evaluator step) (resume evaluator' step) := by
  rcases step with value | ⟨form, scope⟩
  · exact hR.blind (.pure value)
  · exact hevaluator form scope

/-- A run is a step and what follows it. -/
theorem run_succ (steps : Nat) (form : Value) (scope : Scope) :
    run (steps + 1) form scope =
      step steps (evaluateWithin steps) form scope >>= resume (run steps) := by
  funext m
  rw [run, Eval.bind_apply]
  unfold evaluateWithin
  rcases step steps (fun form scope => .nested (run steps form scope)) form scope m with
    ⟨value | ⟨form, scope⟩, after⟩ | ⟨cause, after⟩ | _
  · rfl
  · rfl
  · rfl
  · rfl

end Lisplet
