/-
What the big-step rules derive, evaluation by levels returns.  The statements
hold of all numbers of steps from some number on; a derivation fits into every
number of levels that is not below its own.
-/
import Lisplet.Proofs.BigStep
import Lisplet.Proofs.Levels
import Lisplet.Proofs.StepParts
import Mathlib.Order.Filter.AtTopBot.Basic

namespace Lisplet

open Filter

/-- What a step hands over goes on to the outcome, which no list around it changes. -/
abbrev Completes (evaluator : Evaluator) : Outcome Step → Outcome Value → Prop :=
  Ends fun form scope m outcome => evaluator form scope m = outcome ∧ outcome.InContext

theorem Completes.resume_eq {evaluator : Evaluator} {ended : Outcome Step}
    {outcome : Outcome Value} (h : Completes evaluator ended outcome) :
    ended.andThen (resume evaluator) = outcome := by
  match ended, h with
  | .value (.done value) m, h => exact h.symm
  | .value (.next form scope) m, h => exact h.1
  | .error cause m, h => exact h.symm
  | .unfinished, h => exact h.symm

theorem Completes.noted {evaluator : Evaluator} {ended : Outcome Step} {outcome : Outcome Value}
    (h : Completes evaluator ended outcome) (written : Machine → Unit → Rendering) :
    Completes evaluator (ended.noted fun m cause => cause.inContext (written m))
      (outcome.noted fun m cause => cause.inContext (written m)) := by
  match ended, h with
  | .value (.done value) m, h => cases h; rfl
  | .value (.next form scope) m, h =>
      refine ⟨?_, Outcome.inContext_noted _ _⟩
      rw [h.2.noted_eq]
      exact h.1
  | .error cause m, h => cases h; rfl
  | .unfinished, h => cases h; rfl

/-- A derivation has a level of its own. -/
theorem Evaluates.exists_eq_succ {n : Nat} {form : Value} {scope : Scope} {m : Machine}
    {outcome : Outcome Value} (h : Evaluates n form scope m outcome) : ∃ below, n = below + 1 := by
  cases h <;> exact ⟨_, rfl⟩

/-- With one step more, what a step and what follows it come to is what evaluation comes to. -/
theorem eventually_evaluateLevels {levels : Nat} {form : Value} {scope : Scope} {m : Machine}
    {outcome : Outcome Value}
    (h : ∀ᶠ steps in atTop, Completes (runLevels steps levels)
      (step steps (evaluateLevels steps levels) form scope m) outcome) :
    ∀ᶠ steps in atTop, evaluateLevels steps (levels + 1) form scope m = outcome := by
  obtain ⟨enough, henough⟩ := eventually_atTop.mp h
  refine eventually_atTop.mpr ⟨enough + 1, fun steps hsteps => ?_⟩
  obtain ⟨steps, rfl⟩ : ∃ before, steps = before + 1 := ⟨steps - 1, by omega⟩
  exact (henough steps (by omega)).resume_eq

-- The recursion is on the derivation.  Steps that are enough for each premise are
-- enough for the conclusion, one more where a rule of `Evaluates` is applied.
mutual

theorem Evaluates.complete {n : Nat} {form : Value} {scope : Scope} {m : Machine}
    {outcome : Outcome Value} {levels : Nat} (h : Evaluates n form scope m outcome)
    (hlevels : n ≤ levels) :
    ∀ᶠ steps in atTop, evaluateLevels steps levels form scope m = outcome := by
  obtain ⟨levels, rfl⟩ : ∃ below, levels = below + 1 := by
    obtain ⟨below, rfl⟩ := h.exists_eq_succ
    exact ⟨levels - 1, by omega⟩
  apply eventually_evaluateLevels
  match h with
  | .symbol hbound =>
      apply Eventually.of_forall
      intro steps
      simp only [step, Eval.bind_apply, Eval.read_apply, Outcome.andThen_value, hbound]
      rfl
  | .unbound hunbound =>
      apply Eventually.of_forall
      intro steps
      simp only [step, Eval.bind_apply, Eval.read_apply, Outcome.andThen_value, hunbound]
      rfl
  | .vector hitems =>
      filter_upwards [hitems.complete (Nat.le_of_succ_le_succ hlevels)] with steps hitems
      rw [step_vector, hitems]
      exact ends_map_done.mpr rfl
  | .map hentries =>
      filter_upwards [hentries.complete (Nat.le_of_succ_le_succ hlevels)] with steps hentries
      rw [step_map, hentries]
      exact ends_map_done.mpr rfl
  | .constant hconstant =>
      apply Eventually.of_forall
      intro steps
      cases form with
      | symbol | vector | map => exact hconstant.elim
      | list items =>
          cases items with
          | nil => rfl
          | cons => exact hconstant.elim
      | _ => rfl
  | .list hlist =>
      filter_upwards [hlist.complete (Nat.le_of_succ_le_succ hlevels)] with steps hlist
      rw [step, Eval.onError_apply]
      exact hlist.noted _

theorem EvaluatesAll.complete {n : Nat} {forms : List Value} {scope : Scope} {m : Machine}
    {outcome : Outcome (List Value)} {levels : Nat} (h : EvaluatesAll n forms scope m outcome)
    (hlevels : n ≤ levels) :
    ∀ᶠ steps in atTop, evaluateAll (evaluateLevels steps levels) scope forms m = outcome := by
  match h with
  | .nil => exact .of_forall fun _ => rfl
  | .cons hform hforms =>
      filter_upwards [hform.complete hlevels, hforms.complete hlevels] with steps hform hforms
      simp only [evaluateAll, Eval.bind_apply, hform, Outcome.andThen_value, hforms]
      rfl
  | .fails hform =>
      filter_upwards [hform.complete hlevels] with steps hform
      simp only [evaluateAll, Eval.bind_apply, hform, Outcome.andThen_error]

theorem EvaluatesList.complete {n : Nat} {head : Value} {operands : List Value} {scope : Scope}
    {m : Machine} {outcome : Outcome Value} {levels : Nat}
    (h : EvaluatesList n head operands scope m outcome) (hlevels : n ≤ levels) :
    ∀ᶠ steps in atTop, Completes (runLevels steps levels)
      (stepList steps (evaluateLevels steps levels) scope head operands m) outcome := by
  match h with
  | .macroCall hmacroCall hexpansion htail =>
      filter_upwards [hexpansion.complete hlevels,
        htail.complete (Nat.succ_le_succ hlevels)] with steps hexpansion hrun
      rw [stepList.eq_def, Eval.bind_apply, expandOnce_of_some hmacroCall, hexpansion]
      exact ⟨hrun, htail.inContext⟩
  | .macroFails hmacroCall hexpansion =>
      filter_upwards [hexpansion.complete hlevels] with steps hexpansion
      rw [stepList.eq_def, Eval.bind_apply, expandOnce_of_some hmacroCall, hexpansion]
      rfl
  | .special hmacroCall hform hplace hspecial =>
      filter_upwards [hspecial.complete hlevels] with steps hspecial
      rw [stepList.eq_def, Eval.bind_apply, expandOnce_of_none hmacroCall]
      simp only [Outcome.andThen_value, hform, hplace]
      exact hspecial
  | .wrongCount hmacroCall hform hcount =>
      apply Eventually.of_forall
      intro steps
      rw [← place?_isSome, Option.isSome_eq_false_iff, Option.isNone_iff_eq_none] at hcount
      rw [stepList.eq_def, Eval.bind_apply, expandOnce_of_none hmacroCall]
      simp only [Outcome.andThen_value, hform, hcount]
      rfl
  | .call hmacroCall hhead hparts hcall =>
      filter_upwards [hparts.complete hlevels, hcall.complete hlevels] with steps hparts hcall
      rw [stepList_call steps hmacroCall hhead, stepCall_apply, hparts]
      exact hcall
  | .partFails hmacroCall hhead hparts =>
      filter_upwards [hparts.complete hlevels] with steps hparts
      rw [stepList_call steps hmacroCall hhead, stepCall_apply, hparts]
      rfl

theorem EvaluatesSpecial.complete {n : Nat} {special : Special} {scope : Scope} {m : Machine}
    {outcome : Outcome Value} {levels : Nat} (h : EvaluatesSpecial n special scope m outcome)
    (hlevels : n ≤ levels) :
    ∀ᶠ steps in atTop, Completes (runLevels steps levels)
      (stepSpecial steps (evaluateLevels steps levels) scope special m) outcome := by
  match h with
  | .define hform =>
      filter_upwards [hform.complete hlevels] with steps hform
      rw [stepSpecial_define, hform]
      exact ends_map_done.mpr rfl
  | .defineTarget htarget =>
      apply Eventually.of_forall
      intro steps
      rw [stepSpecial_defineTarget _ _ _ htarget]
      rfl
  | .defineMacro hform =>
      filter_upwards [hform.complete hlevels] with steps hform
      rw [stepSpecial_defineMacro, hform]
      exact ends_map_done.mpr rfl
  | .defineMacroTarget htarget =>
      apply Eventually.of_forall
      intro steps
      rw [stepSpecial_defineMacroTarget _ _ _ htarget]
      rfl
  | .bindingForms hforms =>
      apply Eventually.of_forall
      intro steps
      simp only [stepSpecial, Eval.bind_apply, hforms]
      rfl
  | .unpaired hforms hpairs =>
      apply Eventually.of_forall
      intro steps
      simp only [stepSpecial, Eval.bind_apply, hforms, Eval.ofExcept_ok, Outcome.andThen_value,
        hpairs]
      rfl
  | .bind hforms hpairs hbody =>
      filter_upwards [hbody.complete hlevels] with steps hbody
      simp only [stepSpecial, Eval.bind_apply, hforms, Eval.ofExcept_ok, Outcome.andThen_value,
        hpairs]
      exact hbody
  | .sequence hforms => exact hforms.complete hlevels
  | .branchFails hcondition =>
      filter_upwards [hcondition.complete hlevels] with steps hcondition
      simp only [stepSpecial, Eval.bind_apply, hcondition]
      rfl
  | .branchTrue hcondition htruth htail =>
      filter_upwards [hcondition.complete hlevels,
        htail.complete (Nat.succ_le_succ hlevels)] with steps hcondition hrun
      simp only [stepSpecial, Eval.bind_apply, hcondition, Outcome.andThen_value, htruth,
        ↓reduceIte]
      exact ⟨hrun, htail.inContext⟩
  | .branchFalse hcondition htruth htail =>
      filter_upwards [hcondition.complete hlevels,
        htail.complete (Nat.succ_le_succ hlevels)] with steps hcondition hrun
      simp only [stepSpecial, Eval.bind_apply, hcondition, Outcome.andThen_value, htruth,
        Bool.false_eq_true, ↓reduceIte]
      exact ⟨hrun, htail.inContext⟩
  | .branchNil hcondition htruth =>
      filter_upwards [hcondition.complete hlevels] with steps hcondition
      simp only [stepSpecial, Eval.bind_apply, hcondition, Outcome.andThen_value, htruth,
        Bool.false_eq_true, ↓reduceIte]
      rfl
  | .function =>
      apply Eventually.of_forall
      intro steps
      rw [stepSpecial_function]
      exact ends_map_done.mpr rfl
  | .quote | .quasiquoteExpand => exact .of_forall fun _ => rfl
  | .quasiquote htail =>
      filter_upwards [htail.complete (Nat.succ_le_succ hlevels)] with steps hrun
      exact ⟨hrun, htail.inContext⟩
  | .macroExpand hform =>
      obtain ⟨enough, hform⟩ := hform.complete hlevels
      filter_upwards [hform, eventually_ge_atTop enough] with steps hform hsteps
      rw [stepSpecial_macroExpand, hform steps hsteps]
      exact ends_map_done.mpr rfl

theorem EvaluatesSequence.complete {n : Nat} {forms : List Value} {scope : Scope} {m : Machine}
    {outcome : Outcome Value} {levels : Nat} (h : EvaluatesSequence n forms scope m outcome)
    (hlevels : n ≤ levels) :
    ∀ᶠ steps in atTop, Completes (runLevels steps levels)
      (stepSpecial steps (evaluateLevels steps levels) scope (.sequence forms) m) outcome := by
  match h with
  | .nil => exact .of_forall fun _ => rfl
  | .last htail =>
      filter_upwards [htail.complete (Nat.succ_le_succ hlevels)] with steps hrun
      exact ⟨hrun, htail.inContext⟩
  | .cons hform hforms =>
      filter_upwards [hform.complete hlevels, hforms.complete hlevels] with steps hform hforms
      rw [stepSequence_cons, hform]
      exact hforms
  | .fails hform =>
      filter_upwards [hform.complete hlevels] with steps hform
      rw [stepSequence_cons, hform]
      rfl

theorem EvaluatesBound.complete {n : Nat} {bindings : List (Value × Value)} {body : List Value}
    {scope : Scope} {m : Machine} {outcome : Outcome Value} {levels : Nat}
    (h : EvaluatesBound n bindings body scope m outcome) (hlevels : n ≤ levels) :
    ∀ᶠ steps in atTop, Completes (runLevels steps levels)
      (finishBind (evaluateLevels steps levels) bindings body scope m) outcome := by
  match h with
  | .body htail =>
      filter_upwards [htail.complete (Nat.succ_le_succ hlevels)] with steps hrun
      exact ⟨hrun, htail.inContext⟩
  | .bind hform hrest =>
      filter_upwards [hform.complete hlevels, hrest.complete hlevels] with steps hform hrest
      simp only [finishBind, bindInTurn, Eval.bind_apply, hform]
      exact hrest
  | .fails hform =>
      filter_upwards [hform.complete hlevels] with steps hform
      simp only [finishBind, bindInTurn, Eval.bind_apply, hform]
      rfl
  | .badName htarget =>
      apply Eventually.of_forall
      intro steps
      rw [finishBind_badName _ htarget]
      rfl

theorem EvaluatesCall.complete {n : Nat} {head function : Value} {arguments : List Value}
    {m : Machine} {outcome : Outcome Value} {levels : Nat}
    (h : EvaluatesCall n head function arguments m outcome) (hlevels : n ≤ levels) :
    ∀ᶠ steps in atTop, Completes (runLevels steps levels)
      (finishCall (evaluateLevels steps levels) head function arguments m) outcome := by
  match h with
  | .closure henter htail =>
      filter_upwards [htail.complete (Nat.succ_le_succ hlevels)] with steps hrun
      simp only [finishCall, Eval.bind_apply, Eval.onError_apply, henter]
      exact ⟨hrun, htail.inContext⟩
  | .refused henter =>
      apply Eventually.of_forall
      intro steps
      simp only [finishCall, Eval.bind_apply, Eval.onError_apply, henter]
      rfl
  | .other hfunction hcall =>
      filter_upwards [hcall.complete hlevels] with steps hcall
      rw [finishCall_other _ head hfunction, hcall]
      exact ends_map_done.mpr rfl

theorem CallsClosure.complete {n : Nat} {isMacro : Bool} {code : Nat} {arguments : List Value}
    {m : Machine} {outcome : Outcome Value} {levels : Nat}
    (h : CallsClosure n isMacro code arguments m outcome) (hlevels : n ≤ levels) :
    ∀ᶠ steps in atTop,
      callClosure (evaluateLevels steps levels) isMacro code arguments m = outcome := by
  match h with
  | .body henter hbody =>
      filter_upwards [hbody.complete hlevels] with steps hbody
      simp only [callClosure, Eval.bind_apply, henter, Outcome.andThen_value, hbody]
  | .refused henter =>
      apply Eventually.of_forall
      intro steps
      simp only [callClosure, Eval.bind_apply, henter, Outcome.andThen_error]

theorem Applies.complete {n : Nat} {function : Value} {arguments : List Value} {m : Machine}
    {outcome : Outcome Value} {levels : Nat} (h : Applies n function arguments m outcome)
    (hlevels : n ≤ levels) :
    ∀ᶠ steps in atTop, apply (evaluateLevels steps levels) function arguments m = outcome := by
  match h with
  | .closure hcall =>
      filter_upwards [hcall.complete hlevels] with steps hcall
      rw [apply_closure]
      exact hcall
  | .primitive hoperation hcall houtcome =>
      apply Eventually.of_forall
      intro steps
      rw [apply_primitive _ hoperation hcall, houtcome]
  | @Applies.swap _ _ _ _ _ _ _ outcome hoperation hcell hupdate =>
      filter_upwards [hupdate.complete hlevels] with steps hupdate
      rw [apply_swap _ hoperation]
      simp only [Eval.bind_apply, hcell, Eval.ofExcept_ok, Eval.content, Eval.read_apply,
        Outcome.andThen_value, hupdate]
      rfl
  | .swapTarget hoperation hcell =>
      apply Eventually.of_forall
      intro steps
      rw [apply_swap _ hoperation]
      simp only [Eval.bind_apply, hcell, Eval.ofExcept_error, Outcome.andThen_error]
  | .evaluate hoperation hform =>
      filter_upwards [hform.complete hlevels] with steps hform
      rw [apply_evaluate _ _ hoperation, hform]
  | .countArguments hoperation haccepts =>
      apply Eventually.of_forall
      intro steps
      rw [apply_countArguments _ hoperation haccepts, Eval.pure_apply]
  | .wrongCount hcount =>
      apply Eventually.of_forall
      intro steps
      rw [apply_wrongCount _ hcount, Eval.fail_apply]
  | .notCallable hfunction =>
      apply Eventually.of_forall
      intro steps
      rw [apply_notCallable _ hfunction]
      rfl

theorem ExpandsFully.complete {n : Nat} {form : Value} {scope : Scope} {m : Machine}
    {outcome : Outcome Value} {levels : Nat} (h : ExpandsFully n form scope m outcome)
    (hlevels : n ≤ levels) :
    ∃ enough, ∀ᶠ steps in atTop, ∀ more, enough ≤ more →
      expandFully (evaluateLevels steps levels) more form scope m = outcome := by
  match h with
  | .done hmacroCall =>
      refine ⟨1, .of_forall fun steps more hmore => ?_⟩
      obtain ⟨more, rfl⟩ : ∃ before, more = before + 1 := ⟨more - 1, by omega⟩
      rw [expandFully, Eval.bind_apply, expandOnce_of_none hmacroCall]
      rfl
  | .next hmacroCall hexpansion hrest =>
      obtain ⟨enough, hrest⟩ := hrest.complete hlevels
      refine ⟨enough + 1, ?_⟩
      filter_upwards [hexpansion.complete hlevels, hrest] with steps hexpansion hrest more hmore
      obtain ⟨more, rfl⟩ : ∃ before, more = before + 1 := ⟨more - 1, by omega⟩
      rw [expandFully, Eval.bind_apply, expandOnce_of_some hmacroCall, hexpansion]
      exact hrest more (by omega)
  | .fails hmacroCall hexpansion =>
      refine ⟨1, ?_⟩
      filter_upwards [hexpansion.complete hlevels] with steps hexpansion more hmore
      obtain ⟨more, rfl⟩ : ∃ before, more = before + 1 := ⟨more - 1, by omega⟩
      rw [expandFully, Eval.bind_apply, expandOnce_of_some hmacroCall, hexpansion]
      rfl

end

end Lisplet
