/-
The context of an error.  While a form is evaluated its parts are, and theirs, so that
at each time a stack of forms is under evaluation; a form that has handed over to the
form in its tail is not on it.  An error that arises is passed on through the stack
and takes the innermost list form there as its context, in whatever way evaluation
has come to nest.
-/
import Lisplet.Proofs.FailingParts

namespace Lisplet

/-- Is the value a list that evaluation does something with? -/
def Value.isListForm : Value → Bool
  | .list (_ :: _) => true
  | _ => false

/-- The innermost list form of a stack, as written. -/
def Machine.innermost? (m : Machine) (stack : List Value) : Option Rendering :=
  (stack.find? Value.isListForm).map (m.text .readable)

/-- The error with the innermost list form of a stack as its context. -/
def Error.within (cause : Error) (stack : List Value) (m : Machine) : Error :=
  match m.innermost? stack with
  | some written => cause.inContext fun _ => written
  | none => cause

namespace Error

/-- Inner forms come first. -/
theorem within_append (cause : Error) (inner outer : List Value) (m : Machine) :
    cause.within (inner ++ outer) m = (cause.within inner m).within outer m := by
  simp only [within, Machine.innermost?, List.find?_append]
  rcases inner.find? Value.isListForm with _ | first
  · rfl
  · rcases outer.find? Value.isListForm with _ | other
    · rfl
    · exact (inContext_inContext _ _ _).symm

@[simp] theorem within_atDepth (cause : Error) (stack : List Value) (m : Machine) (depth : Nat) :
    cause.within stack (m.atDepth depth) = cause.within stack m := by
  have hfun : (m.atDepth depth).text .readable = m.text .readable :=
    funext (m.text_atDepth depth .readable)
  rw [within, within, Machine.innermost?, Machine.innermost?, hfun]

@[simp] theorem withoutContext_within (cause : Error) (stack : List Value) (m : Machine) :
    (cause.within stack m).withoutContext = cause.withoutContext := by
  rw [within]
  split
  · exact withoutContext_inContext _ _
  · rfl

theorem within_of_message?_none {cause : Error} (h : cause.message? = none) (stack : List Value)
    (m : Machine) : cause.within stack m = cause := by
  rw [within]
  split
  · exact inContext_of_message?_none h _
  · rfl

theorem IsBare.message?_within {cause : Error} (h : cause.IsBare) {base : String}
    (hmessage : cause.message? = some (some base)) (stack : List Value) (m : Machine) :
    (cause.within stack m).message? =
      some ((contextText (m.innermost? stack)).map (base ++ ·)) := by
  rw [within]
  rcases m.innermost? stack with _ | written
  · rw [contextText_none, Option.map_some, String.append_empty]
    exact hmessage
  · exact h.message?_inContext hmessage _

theorem IsOwn.atDepth {cause : Error} {m : Machine} (h : cause.IsOwn m) (depth : Nat) :
    cause.IsOwn (m.atDepth depth) :=
  ⟨h.bare, h.read, h.rest⟩

end Error

/-- A step notes its form on its errors, if that is a list. -/
theorem step_eq_within (s : Situation) (evaluator : Evaluator) (steps : Nat) :
    step steps evaluator s.form s.scope s.machine =
      (s.ownStep steps evaluator).noted fun m cause => cause.within [s.form] m := by
  by_cases hlist : s.form.isListForm = true
  · obtain ⟨head, operands, hform⟩ : ∃ head operands, s.form = .list (head :: operands) := by
      unfold Value.isListForm at hlist
      split at hlist
      · exact ⟨_, _, ‹_›⟩
      · cases hlist
    rw [step_list hform]
    simp only [Error.within, Machine.innermost?, List.find?_cons, hlist, Option.map_some]
    rfl
  · have hown : s.ownStep steps evaluator = step steps evaluator s.form s.scope s.machine := by
      unfold Situation.ownStep
      split
      · next hform => exact (hlist (by rw [hform]; rfl)).elim
      · rfl
    simp only [Error.within, Machine.innermost?, List.find?_cons, hlist, List.find?_nil,
      Option.map_none, hown]
    cases step steps evaluator s.form s.scope s.machine <;> rfl

namespace Situation

theorem evaluateAsPart_eq {s : Situation} (hdepth : s.machine.depth < maxDepth) (steps : Nat) :
    s.evaluateAsPart steps = (s.deeper.evaluate steps).leave :=
  nested_of_lt _ hdepth

/-- The step fails with the error, and no part that it comes to fails. -/
def Raises (s : Situation) (cause : Error) (after : Machine) : Prop :=
  (∃ steps, s.ownStep steps (evaluateDeeper steps) = .error cause after) ∧
    ∀ steps part, Enters (evaluateDeeper steps) s part →
      ∀ steps, (part.evaluateAsPart steps).isError = false

end Situation

/-- In the evaluation of a form an error arises while these forms are under evaluation,
innermost first, and leaves this machine. -/
inductive Arises : Situation → List Value → Error → Machine → Prop
  /-- At the limit the evaluation of the form does not begin. -/
  | limit {s} (hdepth : ¬ s.machine.depth < maxDepth) :
      Arises s [] (.evaluation .tooDeep none) s.machine
  | raised {s cause after} (hdepth : s.machine.depth < maxDepth) (hraised : s.Raises cause after) :
      Arises s [s.form] cause after
  | part {s part steps stack cause after} (hdepth : s.machine.depth < maxDepth)
      (hpart : Enters (evaluateDeeper steps) s part)
      (h : Arises part.deeper stack cause after) :
      Arises s (stack ++ [s.form]) cause (after.atDepth (after.depth - 1))
  /-- The form that is handed over takes the place of the form before it. -/
  | tail {s steps form scope m₁ stack cause after} (hdepth : s.machine.depth < maxDepth)
      (hstep : step steps (evaluateDeeper steps) s.form s.scope s.machine =
        .value (.next form scope) m₁)
      (h : Arises ⟨form, scope, m₁⟩ stack cause after) : Arises s stack cause after

/-- What arises in an evaluation is what evaluation raises. -/
theorem Arises.isOwn {s : Situation} {stack : List Value} {cause : Error} {after : Machine}
    (h : Arises s stack cause after) : cause.IsOwn after := by
  induction h with
  | limit => exact Error.isOwn_tooDeep _
  | raised _ hraised =>
      obtain ⟨⟨steps, herror⟩, hparts⟩ := hraised
      rcases ownStep_error herror with ⟨part, henters, hpart⟩ | hown
      · have hfails := hparts steps part henters steps
        rw [Situation.evaluateAsPart, hpart] at hfails
        cases hfails
      · exact hown
  | part _ _ _ ih => exact ih.atDepth _
  | tail _ _ _ ih => exact ih

theorem Arises.isBare {s : Situation} {stack : List Value} {cause : Error} {after : Machine}
    (h : Arises s stack cause after) : cause.IsBare :=
  h.isOwn.bare

/-- With more steps, a step that has handed over hands over the same. -/
theorem step_prolong {s : Situation} {steps more : Nat} (hmore : steps ≤ more) {ended : Step}
    {after : Machine}
    (hstep : step steps (evaluateDeeper steps) s.form s.scope s.machine = .value ended after) :
    step more (evaluateDeeper more) s.form s.scope s.machine = .value ended after := by
  have hevaluator := evaluateDeeper_prolongs hmore
  have hexpand := expandFully_persists notedFrom_true hevaluator hmore
  exact Prolongs.of_value (respected_prolongs.step hevaluator hexpand s.form s.scope) hstep

/-- A step hands over at its depth. -/
theorem depth_of_step {s : Situation} {steps : Nat} {ended : Step} {after : Machine}
    (hstep : step steps (evaluateDeeper steps) s.form s.scope s.machine = .value ended after) :
    after.depth = s.machine.depth := by
  have hkept := step_keeps_depth steps s
  rw [hstep] at hkept
  exact Outcome.depth_after hkept rfl

/-- However many steps are allowed, a step fails in one way only. -/
theorem ownStep_error_unique {s : Situation} {steps steps' : Nat} {cause cause' : Error}
    {after after' : Machine} (h : s.ownStep steps (evaluateDeeper steps) = .error cause after)
    (h' : s.ownStep steps' (evaluateDeeper steps') = .error cause' after') :
    cause' = cause ∧ after' = after := by
  have hleft := Nat.le_max_left steps steps'
  have hright := Nat.le_max_right steps steps'
  have hmax := ownStep_prolong (evaluateDeeper_prolongs hleft) hleft h
  have hmax' := ownStep_prolong (evaluateDeeper_prolongs hright) hright h'
  rw [hmax] at hmax'
  cases hmax'
  exact ⟨rfl, rfl⟩

theorem Situation.evaluate_of_ownStep {s : Situation} {steps : Nat} {cause : Error}
    {after : Machine} (hdepth : s.machine.depth < maxDepth)
    (herror : s.ownStep steps (evaluateDeeper steps) = .error cause after) {more : Nat}
    (hmore : steps ≤ more) :
    s.evaluate (more + 1) = .error (cause.within [s.form] after) after := by
  have herror := ownStep_prolong (evaluateDeeper_prolongs hmore) hmore herror
  rw [Situation.evaluate, evaluateWithin_succ hdepth, step_eq_within, herror]
  rfl

theorem Enters.fails {s part : Situation} {steps steps' : Nat} {cause : Error} {after : Machine}
    (h : Enters (evaluateDeeper steps) s part)
    (hpart : part.evaluateAsPart steps' = .error cause after) :
    ∃ enough, s.ownStep enough (evaluateDeeper enough) = .error cause after := by
  have henters := h.prolong (evaluateDeeper_prolongs (Nat.le_max_left steps steps'))
  have hpart := Prolongs.of_error
    (evaluateDeeper_prolongs (Nat.le_max_right steps steps') part.form part.scope) hpart
  obtain ⟨enough, henough⟩ := henters.ownStep_fails hpart
  refine ⟨max (max steps steps') enough, ?_⟩
  exact ownStep_prolong (evaluateDeeper_prolongs (Nat.le_max_left _ _)) (Nat.le_max_right _ _)
    (henough enough (Nat.le_refl _))

/-- An error that arises is what the evaluation ends with, in the context of the stack. -/
theorem Arises.evaluate {s : Situation} {stack : List Value} {cause : Error} {after : Machine}
    (h : Arises s stack cause after) :
    ∃ enough, ∀ steps, enough ≤ steps →
      s.evaluate steps = .error (cause.within stack after) after := by
  induction h with
  | limit hdepth => exact ⟨0, fun steps _ => nested_of_not_lt _ hdepth⟩
  | @raised s cause after hdepth hraised =>
      obtain ⟨⟨steps, herror⟩, -⟩ := hraised
      refine ⟨steps + 1, fun more hmore => ?_⟩
      obtain ⟨more, rfl⟩ : ∃ fewer, more = fewer + 1 := ⟨more - 1, by omega⟩
      exact s.evaluate_of_ownStep hdepth herror (by omega)
  | @part s part steps stack cause after hdepth hpart _ ih =>
      obtain ⟨enough, henough⟩ := ih
      have hfails : part.evaluateAsPart enough =
          .error (cause.within stack after) (after.atDepth (after.depth - 1)) := by
        rw [part.evaluateAsPart_eq (hpart.depth ▸ hdepth), henough _ (Nat.le_refl _)]
        rfl
      obtain ⟨steps', herror⟩ := hpart.fails hfails
      refine ⟨steps' + 1, fun more hmore => ?_⟩
      obtain ⟨more, rfl⟩ : ∃ fewer, more = fewer + 1 := ⟨more - 1, by omega⟩
      rw [s.evaluate_of_ownStep hdepth herror (by omega), Error.within_append]
      simp only [Error.within_atDepth]
  | @tail s steps form scope m₁ stack cause after hdepth hstep _ ih =>
      obtain ⟨enough, henough⟩ := ih
      refine ⟨max steps enough + 1, fun more hmore => ?_⟩
      obtain ⟨more, rfl⟩ : ∃ fewer, more = fewer + 1 := ⟨more - 1, by omega⟩
      rw [Situation.evaluate, evaluateWithin_succ hdepth, step_prolong (by omega) hstep]
      exact henough more (by omega)

/-- The error has arisen somewhere in the evaluation of the form, and is in its context. -/
def Situation.HasArisen (s : Situation) (cause : Error) (after : Machine) : Prop :=
  ∃ stack own, Arises s stack own after ∧ cause = own.within stack after

theorem hasArisen_of_limit {s : Situation} {steps : Nat} {cause : Error} {after : Machine}
    (hdepth : ¬ s.machine.depth < maxDepth) (h : s.evaluate steps = .error cause after) :
    s.HasArisen cause after := by
  have hlimit : s.evaluate steps = .error (.evaluation .tooDeep none) s.machine :=
    nested_of_not_lt _ hdepth
  rw [hlimit] at h
  cases h
  exact ⟨[], _, .limit hdepth, rfl⟩

/-- The error of a step has arisen in a part, or in the step itself if no part fails. -/
theorem hasArisen_of_ownStep {s : Situation} {steps : Nat} {cause : Error} {after : Machine}
    (hdepth : s.machine.depth < maxDepth)
    (herror : s.ownStep steps (evaluateDeeper steps) = .error cause after)
    (hdeeper : ∀ {part : Situation} {steps cause after},
      part.machine.depth = s.machine.depth + 1 → part.evaluate steps = .error cause after →
        part.HasArisen cause after) :
    s.HasArisen (cause.within [s.form] after) after := by
  by_cases hraises : s.Raises cause after
  · exact ⟨[s.form], cause, .raised hdepth hraises, rfl⟩
  · -- A part that fails has the error of the step.
    obtain ⟨steps', part, henters, more, hfails⟩ : ∃ steps part,
        Enters (evaluateDeeper steps) s part ∧
          ∃ more, (part.evaluateAsPart more).isError = true := by
      by_contra hnone
      push Not at hnone
      exact hraises ⟨⟨steps, herror⟩, fun steps part henters more =>
        Bool.eq_false_iff.mpr (hnone steps part henters more)⟩
    obtain ⟨inner, left, hinner⟩ := Outcome.exists_of_isError hfails
    obtain ⟨enough, hstep⟩ := henters.fails hinner
    obtain ⟨rfl, rfl⟩ := ownStep_error_unique herror hstep
    have hdepth' := henters.depth
    rw [part.evaluateAsPart_eq (hdepth' ▸ hdepth)] at hinner
    obtain ⟨m, hdeep, rfl⟩ := Outcome.leave_eq_error hinner
    obtain ⟨stack, own, harises, rfl⟩ := @hdeeper part.deeper _ _ _
      (congrArg (· + 1) hdepth') hdeep
    refine ⟨stack ++ [s.form], own, .part hdepth henters harises, ?_⟩
    rw [Error.within_append]
    simp only [Error.within_atDepth]

/-- Each error that an evaluation ends with has arisen in it. -/
theorem evaluate_hasArisen {levels steps : Nat} {s : Situation} {cause : Error} {after : Machine}
    (hlevels : maxDepth ≤ s.machine.depth + levels) (h : s.evaluate steps = .error cause after) :
    s.HasArisen cause after := by
  -- Parts are nested deeper, with fewer levels left, and what is handed over has fewer
  -- steps left at the same level.
  induction levels generalizing steps s cause after with
  | zero => exact hasArisen_of_limit (by omega) h
  | succ levels ihLevels =>
      by_cases hdepth : s.machine.depth < maxDepth
      · induction steps generalizing s with
        | zero =>
            rw [Situation.evaluate, evaluateWithin_zero hdepth] at h
            cases h
        | succ steps ihSteps =>
            rw [Situation.evaluate, evaluateWithin_succ hdepth, Outcome.andThen_eq_error_iff] at h
            rcases h with hstep | ⟨ended, m₁, hstep, hrest⟩
            · rw [step_eq_within] at hstep
              obtain ⟨own, hown, rfl⟩ := Outcome.noted_eq_error hstep
              exact hasArisen_of_ownStep hdepth hown fun hpart => ihLevels (by omega)
            · rcases ended with value | ⟨form, scope⟩
              · cases hrest
              · have hdepth₁ := depth_of_step hstep
                obtain ⟨stack, own, harises, hcause⟩ := @ihSteps ⟨form, scope, m₁⟩
                  (by dsimp only; omega) hrest (by dsimp only; omega)
                exact ⟨stack, own, .tail hdepth hstep harises, hcause⟩
      · exact hasArisen_of_limit hdepth h

/-- Without its context, the error of an evaluation is what evaluation raises. -/
theorem isOwn_of_evaluate {steps : Nat} {s : Situation} {cause : Error} {after : Machine}
    (h : s.evaluate steps = .error cause after) : cause.withoutContext.IsOwn after := by
  obtain ⟨stack, own, harises, rfl⟩ := evaluate_hasArisen (Nat.le_add_left maxDepth _) h
  rw [Error.withoutContext_within, harises.isBare.withoutContext_eq]
  exact harises.isOwn

/-- An error of what evaluation raises has no context to lose. -/
theorem Error.IsOwn.withoutContext {cause : Error} {m : Machine} (h : cause.IsOwn m) :
    cause.withoutContext.IsOwn m := by
  rwa [h.bare.withoutContext_eq]

theorem isOwn_of_apply {steps : Nat} {function : Value} {arguments : List Value}
    {m after : Machine} {cause : Error}
    (h : apply (evaluateWithin steps) function arguments m = .error cause after) :
    cause.withoutContext.IsOwn after := by
  rcases apply_error h with ⟨part, -, hpart⟩ | hown
  · exact @isOwn_of_evaluate steps part _ _ hpart
  · exact hown.withoutContext

theorem isOwn_of_expandFully {steps count : Nat} {form : Value} {scope : Scope}
    {m after : Machine} {cause : Error}
    (h : expandFully (evaluateWithin steps) count form scope m = .error cause after) :
    cause.withoutContext.IsOwn after := by
  obtain ⟨s', code, arguments, -, hmacroCall, hfails⟩ := expandFully_fails h
  rcases callMacro_error hmacroCall hfails with ⟨part, -, hpart⟩ | henter
  · exact @isOwn_of_evaluate steps part _ _ hpart
  · have hown := RaisesOwn.enterClosure _ _ _ _ _ _ henter
    exact hown.withoutContext

/-- A step that searches the message of an error for a context, instead of asking the
error whether it has one. -/
def stepBySearch (steps : Nat) (evaluator : Evaluator) (form : Value) (scope : Scope) :
    Eval Step :=
  match form with
  | .list (head :: operands) =>
      (stepList steps evaluator scope head operands).onError fun m cause =>
        cause.attach fun _ => m.text .readable form
  | form => step steps evaluator form scope

/-- A run whose steps search messages, nested evaluations included. -/
def runBySearch : (steps : Nat) → Evaluator
  | 0, _, _ => .unfinished
  | steps + 1, form, scope =>
      stepBySearch steps (fun form scope => .nested (runBySearch steps form scope)) form scope >>=
        resume (runBySearch steps)

/-- Evaluate a form within so many steps, and search messages. -/
def evaluateBySearch (steps : Nat) : Evaluator :=
  fun form scope => .nested (runBySearch steps form scope)

/-- A step that searches messages finds out what the errors of its parts know. -/
theorem stepBySearch_eq (steps : Nat) (form : Value) (scope : Scope) :
    stepBySearch steps (evaluateWithin steps) form scope =
      step steps (evaluateWithin steps) form scope := by
  unfold stepBySearch
  split
  · next head operands =>
      funext m
      rw [step, Eval.onError_apply, Eval.onError_apply]
      rcases herror : stepList steps (evaluateWithin steps) scope head operands m with
        ⟨ended, after⟩ | ⟨cause, after⟩ | _
      · rfl
      · have hbare : cause.withoutContext.IsBare := by
          rcases @ownStep_error _ ⟨.list (head :: operands), scope, m⟩ _ _ _ herror with
            ⟨part, -, hpart⟩ | hown
          · exact (isOwn_of_evaluate hpart).bare
          · rw [hown.bare.withoutContext_eq]
            exact hown.bare
        exact congrArg (Outcome.error · after) (Error.attach_eq_inContext hbare _)
      · rfl
  · rfl

theorem runBySearch_eq (steps : Nat) : runBySearch steps = run steps := by
  induction steps with
  | zero => rfl
  | succ steps ih =>
      funext form scope
      have hevaluator : (fun form scope => (runBySearch steps form scope).nested) =
          evaluateWithin steps := by
        rw [ih]
        rfl
      rw [runBySearch, hevaluator, stepBySearch_eq, ih, run_succ]

/-- Errors have their context once, and the right one.  An evaluation that fails does so
with an error that has arisen in it, in the context of the innermost list form that
was under evaluation then, and of none if there was no list form: a message is
followed by that context, if it has an end, and otherwise as it was raised, without the
words that begin a context; and an error without a message is as it was raised.  To
search messages for those words comes to the same, so that no text of the program can
be taken for them. -/
theorem failure_shows_innermost_list (form : Value) (scope : Scope) (m : Machine) :
    (∀ steps cause after, evaluateWithin steps form scope m = .error cause after →
      (∃ stack own, Arises ⟨form, scope, m⟩ stack own after) ∧
      ∀ stack own after', Arises ⟨form, scope, m⟩ stack own after' →
        after' = after ∧ cause.withoutContext = own ∧
        (own.message? = none → cause = own) ∧
        ∀ message, own.message? = some message → ∃ base, message = some base ∧ ¬ Marked base ∧
          cause.message? =
            some ((Error.contextText (after.innermost? stack)).map (base ++ ·))) ∧
    ∀ steps, evaluateBySearch steps form scope m = evaluateWithin steps form scope m := by
  constructor
  · intro steps cause after herror
    obtain ⟨stack, own, harises, -⟩ :=
      @evaluate_hasArisen _ steps ⟨form, scope, m⟩ _ _ (Nat.le_add_left maxDepth _) herror
    refine ⟨⟨stack, own, harises⟩, fun stack own after' harises => ?_⟩
    obtain ⟨enough, henough⟩ := harises.evaluate
    have hmore := Prolongs.of_error
      (evaluateWithin_prolongs (Nat.le_max_left steps enough) form scope) herror
    rw [← Situation.evaluate.eq_1 ⟨form, scope, m⟩, henough _ (Nat.le_max_right _ _)] at hmore
    cases hmore
    have hbare := harises.isBare
    refine ⟨rfl, ?_, fun hnone => Error.within_of_message?_none hnone _ _, fun message hown => ?_⟩
    · rw [Error.withoutContext_within, hbare.withoutContext_eq]
    · obtain ⟨base, rfl, hmarked⟩ := hbare message hown
      exact ⟨base, rfl, hmarked, hbare.message?_within hown _ _⟩
  · intro steps
    rw [evaluateBySearch, runBySearch_eq]
    rfl

def Outcome.message? {α : Type} : Outcome α → Option Rendering
  | .error cause _ => cause.message?
  | _ => none

theorem Outcome.exists_of_message? {α : Type} {outcome : Outcome α} {message : Rendering}
    (h : outcome.message? = some message) :
    ∃ cause after, outcome = .error cause after ∧ cause.message? = some message := by
  cases outcome with
  | error cause after => exact ⟨cause, after, rfl, h⟩
  | value | unfinished => cases h

/-- A call in the tail of a `do`, with a sum in a vector for its operand.  The sum is of
a number and a symbol with a name that the words which begin a context occur in. -/
def callInTail : Value :=
  .list [.symbol "do", .list [.symbol "list", .vector [.list [.symbol "+", .number 1,
    .list [.symbol "quote", .symbol contextMarker]]]]]

/-- The innermost list is the sum, once, although what is written of it is marked. -/
theorem failure_shows_innermost_list_callInTail :
    ∃ cause after, evaluateWithin 6 callInTail ⟨0, []⟩ (rootMachine noFiles) =
        .error cause after ∧
      cause.message? = some (some ("expected number, got symbol\n  Context: while evaluating: " ++
        "(+ 1 (quote \n  Context: ))")) ∧
      ∃ stack own, Arises ⟨callInTail, ⟨0, []⟩, rootMachine noFiles⟩ stack own after ∧
        cause.withoutContext = own := by
  obtain ⟨cause, after, herror, hmessage⟩ : ∃ cause after,
      evaluateWithin 6 callInTail ⟨0, []⟩ (rootMachine noFiles) = .error cause after ∧
      cause.message? = some (some ("expected number, got symbol\n  Context: while evaluating: " ++
        "(+ 1 (quote \n  Context: ))")) :=
    Outcome.exists_of_message? (by decide +kernel)
  obtain ⟨⟨stack, own, harises⟩, hall⟩ :=
    (failure_shows_innermost_list callInTail ⟨0, []⟩ (rootMachine noFiles)).1 6 cause after herror
  exact ⟨cause, after, herror, hmessage, stack, own, harises, (hall stack own after harises).2.1⟩

end Lisplet
