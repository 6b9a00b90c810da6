/-
What evaluation by levels returns, the big-step rules derive, except for the
error of the depth limit.  The parts of a step come first, on the assumption
that the rules derive what the evaluator inside the step returns; the steps of
a run are then put together, those in tail position at the level of the run.
-/
import Lisplet.Proofs.BigStep
import Lisplet.Proofs.Levels

namespace Lisplet

variable {α β : Type}

/-- Within so many levels, the rules derive what the evaluator returns. -/
def Sound (n : Nat) (evaluator : Evaluator) : Prop :=
  ∀ form scope m, (evaluator form scope m).Settled →
    Evaluates n form scope m (evaluator form scope m)

/-- What follows an action that has settled has settled, and so had the action. -/
theorem Outcome.Settled.of_andThen {outcome : Outcome α} {next : α → Eval β}
    (h : (outcome.andThen next).Settled) : outcome.Settled := by
  rcases outcome with ⟨result, m⟩ | ⟨cause, m⟩ | _
  · trivial
  · exact h
  · exact h

theorem Outcome.Settled.of_noted {outcome : Outcome α} {note : Machine → Error → Error}
    (hnote : Mild note) (h : (outcome.noted note).Settled) : outcome.Settled := by
  rcases outcome with ⟨result, m⟩ | ⟨cause, m⟩ | _
  · trivial
  · intro hdeep
    exact h (hnote.tooDeep m cause hdeep)
  · exact h

theorem Outcome.Settled.value_or_error {outcome : Outcome α} (h : outcome.Settled) :
    (∃ result after, outcome = .value result after) ∨
      ∃ cause after, outcome = .error cause after := by
  rcases outcome with ⟨result, after⟩ | ⟨cause, after⟩ | _
  · exact .inl ⟨result, after, rfl⟩
  · exact .inr ⟨cause, after, rfl⟩
  · exact h.elim

variable {n : Nat} {evaluator : Evaluator}

theorem Sound.evaluateAll (h : Sound n evaluator) {forms : List Value} {scope : Scope}
    {m : Machine} (hsettled : (evaluateAll evaluator scope forms m).Settled) :
    EvaluatesAll n forms scope m (evaluateAll evaluator scope forms m) := by
  induction forms generalizing m with
  | nil => exact .nil
  | cons form forms ih =>
      simp only [Lisplet.evaluateAll, Eval.bind_apply] at hsettled ⊢
      have hform := h form scope m hsettled.of_andThen
      obtain ⟨value, after, houtcome⟩ | ⟨cause, after, houtcome⟩ :=
        hsettled.of_andThen.value_or_error
      · rw [houtcome] at hsettled hform ⊢
        exact .cons hform (ih (Outcome.Settled.of_andThen hsettled))
      · rw [houtcome] at hform ⊢
        exact .fails hform

theorem Sound.callClosure (h : Sound n evaluator) {isMacro : Bool} {code : Nat}
    {arguments : List Value} {m : Machine}
    (hsettled : (callClosure evaluator isMacro code arguments m).Settled) :
    CallsClosure n isMacro code arguments m (callClosure evaluator isMacro code arguments m) := by
  simp only [Lisplet.callClosure, Eval.bind_apply] at hsettled ⊢
  obtain ⟨⟨body, scope⟩, after, henter⟩ | ⟨cause, after, henter⟩ :=
    hsettled.of_andThen.value_or_error
  · rw [henter] at hsettled ⊢
    exact .body henter (h body scope after hsettled)
  · rw [henter]
    exact .refused henter

theorem Sound.apply (h : Sound n evaluator) {function : Value} {arguments : List Value}
    {m : Machine} (hsettled : (apply evaluator function arguments m).Settled) :
    Applies n function arguments m (apply evaluator function arguments m) := by
  induction function, arguments using call_induction generalizing m with
  | closure code arguments =>
      rw [apply_closure] at hsettled ⊢
      exact .closure (h.callClosure hsettled)
  | primitive native p act arguments hoperation hcall =>
      rw [apply_primitive _ hoperation hcall]
      exact .primitive hoperation hcall rfl
  | swap native target updater others hoperation ih =>
      rw [apply_swap _ hoperation, Eval.bind_apply] at hsettled ⊢
      rcases hcell : target.toCell "swap!" with cause | cell
      · exact .swapTarget hoperation hcell
      · rw [hcell] at hsettled
        exact .swap hoperation hcell (ih _ (Outcome.Settled.of_andThen hsettled))
  | evaluate native root form hoperation =>
      rw [apply_evaluate _ _ hoperation] at hsettled ⊢
      exact .evaluate hoperation (h form root m hsettled)
  | countArguments native arity arguments hoperation haccepts =>
      rw [apply_countArguments _ hoperation haccepts]
      exact .countArguments hoperation haccepts
  | wrongCount native arguments hcount =>
      rw [apply_wrongCount _ hcount]
      exact .wrongCount hcount
  | notCallable function arguments hfunction =>
      rw [apply_notCallable _ hfunction]
      exact .notCallable hfunction

theorem Sound.expandFully (h : Sound n evaluator) {steps : Nat} {form : Value} {scope : Scope}
    {m : Machine} (hsettled : (expandFully evaluator steps form scope m).Settled) :
    ExpandsFully n form scope m (expandFully evaluator steps form scope m) := by
  induction steps generalizing form m with
  | zero => exact hsettled.elim
  | succ steps ih =>
      rw [Lisplet.expandFully, Eval.bind_apply] at hsettled ⊢
      rcases hmacroCall : m.macroCall? scope form with _ | ⟨code, arguments⟩
      · rw [expandOnce_of_none hmacroCall]
        exact .done hmacroCall
      · rw [expandOnce_of_some hmacroCall] at hsettled ⊢
        have hcall := h.callClosure hsettled.of_andThen.of_andThen
        obtain ⟨expansion, after, houtcome⟩ | ⟨cause, after, houtcome⟩ :=
          hsettled.of_andThen.of_andThen.value_or_error
        · rw [houtcome] at hsettled hcall ⊢
          exact .next hmacroCall hcall (ih hsettled)
        · rw [houtcome] at hcall ⊢
          exact .fails hmacroCall hcall

theorem Sound.finishCall (h : Sound n evaluator) {head function : Value}
    {arguments : List Value} {m : Machine} {outcome : Outcome Value}
    (hsettled : (finishCall evaluator head function arguments m).Settled)
    (hends : Ends (Evaluates (n + 1)) (finishCall evaluator head function arguments m) outcome) :
    EvaluatesCall n head function arguments m outcome := by
  by_cases hfunction : ∃ code, function = .closure false code
  · obtain ⟨code, rfl⟩ := hfunction
    simp only [Lisplet.finishCall, Eval.bind_apply, Eval.onError_apply] at hsettled hends
    rcases henter : enterClosure false code arguments m with
      ⟨entered, after⟩ | ⟨cause, after⟩ | _
    · rw [henter] at hends
      exact .closure henter hends
    · rw [henter] at hends
      cases hends
      exact .refused henter
    · rw [henter] at hsettled
      exact hsettled.elim
  · have hother : ∀ code, function ≠ .closure false code := by
      intro code heq
      exact hfunction ⟨code, heq⟩
    rw [finishCall_other _ head hother] at hsettled hends
    cases ends_map_done.mp hends
    exact .other hother (h.apply hsettled.of_andThen)

theorem Sound.finishBind (h : Sound n evaluator) {bindings : List (Value × Value)}
    {body : List Value} {scope : Scope} {m : Machine} {outcome : Outcome Value}
    (hsettled : (finishBind evaluator bindings body scope m).Settled)
    (hends : Ends (Evaluates (n + 1)) (finishBind evaluator bindings body scope m) outcome) :
    EvaluatesBound n bindings body scope m outcome := by
  induction bindings generalizing m with
  | nil => exact .body hends
  | cons binding bindings ih =>
      obtain ⟨target, form⟩ := binding
      obtain ⟨name, rfl⟩ | hother := target.symbol_or_other
      · simp only [Lisplet.finishBind, bindInTurn, Eval.bind_apply] at hsettled hends
        have hform := h form scope m hsettled.of_andThen.of_andThen
        obtain ⟨value, after, houtcome⟩ | ⟨cause, after, houtcome⟩ :=
          hsettled.of_andThen.of_andThen.value_or_error
        · rw [houtcome] at hsettled hends hform
          exact .bind hform (ih hsettled hends)
        · rw [houtcome] at hends hform
          cases hends
          exact .fails hform
      · rw [finishBind_badName _ hother] at hends
        cases hends
        exact .badName hother

theorem Sound.stepSequence (h : Sound n evaluator) {steps : Nat} {forms : List Value}
    {scope : Scope} {m : Machine} {outcome : Outcome Value}
    (hsettled : (stepSpecial steps evaluator scope (.sequence forms) m).Settled)
    (hends : Ends (Evaluates (n + 1))
      (stepSpecial steps evaluator scope (.sequence forms) m) outcome) :
    EvaluatesSequence n forms scope m outcome := by
  induction forms generalizing m with
  | nil =>
      cases hends
      exact .nil
  | cons form forms ih =>
      rcases forms with _ | ⟨next, forms⟩
      · exact .last hends
      · rw [stepSequence_cons] at hsettled hends
        have hform := h form scope m hsettled.of_andThen
        obtain ⟨value, after, houtcome⟩ | ⟨cause, after, houtcome⟩ :=
          hsettled.of_andThen.value_or_error
        · rw [houtcome] at hsettled hends hform
          exact .cons hform (ih hsettled hends)
        · rw [houtcome] at hends hform
          cases hends
          exact .fails hform

theorem Sound.stepSpecial (h : Sound n evaluator) {steps : Nat} {special : Special}
    {scope : Scope} {m : Machine} {outcome : Outcome Value}
    (hsettled : (stepSpecial steps evaluator scope special m).Settled)
    (hends : Ends (Evaluates (n + 1)) (stepSpecial steps evaluator scope special m) outcome) :
    EvaluatesSpecial n special scope m outcome := by
  cases special with
  | define target form =>
      obtain ⟨name, rfl⟩ | hother := target.symbol_or_other
      · rw [stepSpecial_define] at hsettled hends
        cases ends_map_done.mp hends
        exact .define (h form scope m hsettled.of_andThen.of_andThen)
      · rw [stepSpecial_defineTarget _ _ _ hother] at hends
        cases hends
        exact .defineTarget hother
  | defineMacro target form =>
      obtain ⟨name, rfl⟩ | hother := target.symbol_or_other
      · rw [stepSpecial_defineMacro] at hsettled hends
        cases ends_map_done.mp hends
        exact .defineMacro (h form scope m hsettled.of_andThen.of_andThen)
      · rw [stepSpecial_defineMacroTarget _ _ _ hother] at hends
        cases hends
        exact .defineMacroTarget hother
  | bind bindings body =>
      simp only [Lisplet.stepSpecial, Eval.bind_apply] at hsettled hends
      rcases hforms : bindingForms .bind bindings with cause | forms
      · rw [hforms] at hends
        cases hends
        exact .bindingForms hforms
      · simp only [hforms, Eval.ofExcept_ok, Outcome.andThen_value] at hsettled hends
        rcases hpairs : pairs? forms with _ | pairs
        · simp only [hpairs] at hends
          cases hends
          exact .unpaired hforms hpairs
        · simp only [hpairs] at hsettled hends
          exact .bind hforms hpairs (h.finishBind hsettled hends)
  | sequence forms => exact .sequence (h.stepSequence hsettled hends)
  | branch condition consequent alternative =>
      simp only [Lisplet.stepSpecial, Eval.bind_apply] at hsettled hends
      have hform := h condition scope m hsettled.of_andThen
      obtain ⟨value, after, houtcome⟩ | ⟨cause, after, houtcome⟩ :=
        hsettled.of_andThen.value_or_error
      · rw [houtcome] at hends hform
        simp only [Outcome.andThen_value] at hends
        by_cases htruth : value.isTruthy = true
        · rw [if_pos htruth] at hends
          exact .branchTrue hform htruth hends
        · rw [if_neg htruth] at hends
          rw [Bool.not_eq_true] at htruth
          rcases alternative with _ | form
          · cases hends
            exact .branchNil hform htruth
          · exact .branchFalse hform htruth hends
      · rw [houtcome] at hends hform
        cases hends
        exact .branchFails hform
  | function parameters body =>
      rw [stepSpecial_function] at hends
      cases ends_map_done.mp hends
      exact .function
  | quote form =>
      cases hends
      exact .quote
  | quasiquote template => exact .quasiquote hends
  | quasiquoteExpand template =>
      cases hends
      exact .quasiquoteExpand
  | macroExpand form =>
      rw [stepSpecial_macroExpand] at hsettled hends
      cases ends_map_done.mp hends
      exact .macroExpand (h.expandFully hsettled.of_andThen)

theorem Sound.stepList (h : Sound n evaluator) {steps : Nat} {head : Value}
    {operands : List Value} {scope : Scope} {m : Machine} {outcome : Outcome Value}
    (hsettled : (stepList steps evaluator scope head operands m).Settled)
    (hends : Ends (Evaluates (n + 1)) (stepList steps evaluator scope head operands m) outcome) :
    EvaluatesList n head operands scope m outcome := by
  rcases hmacroCall : m.macroCall? scope (.list (head :: operands)) with _ | ⟨code, arguments⟩
  · rcases hhead : head.specialForm? with _ | form
    · rw [stepList_call steps hmacroCall hhead, stepCall_apply] at hsettled hends
      have hparts := h.evaluateAll hsettled.of_andThen
      obtain ⟨values, after, houtcome⟩ | ⟨cause, after, houtcome⟩ :=
        hsettled.of_andThen.value_or_error
      · rw [houtcome] at hsettled hends hparts
        obtain ⟨function, arguments, rfl⟩ := hparts.exists_eq_cons
        exact .call hmacroCall hhead hparts (h.finishCall hsettled hends)
      · rw [houtcome] at hends hparts
        cases hends
        exact .partFails hmacroCall hhead hparts
    · obtain ⟨name, rfl, hform⟩ := head.exists_symbol_of_specialForm? hhead
      rw [stepList.eq_def, Eval.bind_apply, expandOnce_of_none hmacroCall] at hsettled hends
      simp only [Outcome.andThen_value, hform] at hsettled hends
      rcases hplace : form.place? operands with _ | special
      · simp only [hplace] at hends
        cases hends
        refine .wrongCount hmacroCall hform ?_
        rw [← place?_isSome, hplace, Option.isSome_none]
      · simp only [hplace] at hsettled hends
        exact .special hmacroCall hform hplace (h.stepSpecial hsettled hends)
  · rw [stepList.eq_def, Eval.bind_apply, expandOnce_of_some hmacroCall] at hsettled hends
    have hcall := h.callClosure hsettled.of_andThen.of_andThen
    obtain ⟨expansion, after, houtcome⟩ | ⟨cause, after, houtcome⟩ :=
      hsettled.of_andThen.of_andThen.value_or_error
    · rw [houtcome] at hends hcall
      exact .macroCall hmacroCall hcall hends
    · rw [houtcome] at hends hcall
      cases hends
      exact .macroFails hmacroCall hcall

/-- The context that a list adds to what its step ends with is the one that the
list adds to its own outcome: in tail position there is nothing left to add. -/
theorem Ends.of_noted {written : Machine → Unit → Rendering} {ended : Outcome Step}
    {outcome : Outcome Value}
    (h : Ends (Evaluates n) (ended.noted fun m cause => cause.inContext (written m)) outcome) :
    ∃ own, Ends (Evaluates n) ended own ∧
      own.noted (fun m cause => cause.inContext (written m)) = outcome := by
  match ended, h with
  | .value (.done value) m, h => exact ⟨_, rfl, h.symm⟩
  | .value (.next form scope) m, h => exact ⟨outcome, h, h.inContext.noted_eq written⟩
  | .error cause m, h => exact ⟨_, rfl, h.symm⟩
  | .unfinished, h => exact ⟨_, rfl, h.symm⟩

theorem Sound.step (h : Sound n evaluator) {steps : Nat} {form : Value} {scope : Scope}
    {m : Machine} {outcome : Outcome Value}
    (hsettled : (step steps evaluator form scope m).Settled)
    (hends : Ends (Evaluates (n + 1)) (step steps evaluator form scope m) outcome) :
    Evaluates (n + 1) form scope m outcome := by
  match form with
  | .symbol name =>
      simp only [Lisplet.step, Eval.bind_apply, Eval.read_apply, Outcome.andThen_value] at hends
      rcases hvalue : m.lookup? scope name with _ | value
      · rw [hvalue] at hends
        cases hends
        exact .unbound hvalue
      · rw [hvalue] at hends
        cases hends
        exact .symbol hvalue
  | .vector items =>
      rw [step_vector] at hsettled hends
      cases ends_map_done.mp hends
      exact .vector (h.evaluateAll hsettled.of_andThen.of_andThen)
  | .map entries =>
      rw [step_map] at hsettled hends
      cases ends_map_done.mp hends
      exact .map (h.evaluateAll hsettled.of_andThen.of_andThen)
  | .list (head :: operands) =>
      rw [Lisplet.step, Eval.onError_apply] at hsettled hends
      -- What is in tail position has noted its own context already.
      have hown := hsettled.of_noted (mild_inContext (.list (head :: operands)))
      obtain ⟨own, hlist, rfl⟩ := hends.of_noted
      exact .list (h.stepList hown hlist)
  | .list [] | .nil | .bool _ | .number _ | .string _ | .atom _ | .closure _ _ | .native _ =>
      cases hends
      exact .constant trivial

theorem Sound.ends_resume (h : Sound n evaluator) {ended : Outcome Step}
    (hsettled : (ended.andThen (resume evaluator)).Settled) :
    Ends (Evaluates n) ended (ended.andThen (resume evaluator)) := by
  match ended, hsettled with
  | .value (.done value) m, _ => rfl
  | .value (.next form scope) m, hsettled => exact h form scope m hsettled
  | .error cause m, _ => rfl
  | .unfinished, _ => rfl

theorem sound_deeper {evaluators : Nat → Evaluator}
    (h : ∀ levels, Sound (levels + 1) (evaluators levels)) (levels : Nat) :
    Sound levels (deeper evaluators levels) := by
  cases levels with
  | zero =>
      intro form scope m hsettled
      exact (hsettled ⟨none, rfl⟩).elim
  | succ levels => exact h levels

/-- What a run comes to, unless it meets the depth limit, the rules derive. -/
theorem runLevels_sound (steps levels : Nat) : Sound (levels + 1) (runLevels steps levels) := by
  induction steps generalizing levels with
  | zero =>
      intro form scope m hsettled
      exact hsettled.elim
  | succ steps ih =>
      intro form scope m hsettled
      rw [runLevels_succ] at hsettled ⊢
      exact (sound_deeper ih levels).step hsettled.of_andThen ((ih levels).ends_resume hsettled)

theorem evaluateLevels_sound (steps levels : Nat) : Sound levels (evaluateLevels steps levels) :=
  sound_deeper (runLevels_sound steps) levels

/-- The depth counter of the machine says within how many levels. -/
theorem evaluateWithin_sound {steps : Nat} {form : Value} {scope : Scope} {m : Machine}
    (hsettled : (evaluateWithin steps form scope m).Settled) :
    Evaluates (maxDepth - m.depth) form scope m (evaluateWithin steps form scope m) := by
  rw [evaluateWithin_eq] at hsettled ⊢
  exact evaluateLevels_sound steps _ form scope m hsettled

end Lisplet
