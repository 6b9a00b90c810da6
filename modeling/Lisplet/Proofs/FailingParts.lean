/-
Where errors come from.  A step evaluates its parts one after another and hands their
errors on.  So an error of a step is the error of a part that the step comes to when
those before it have values, or the step raises it on its own account.
-/
import Lisplet.Proofs.OwnErrors
import Lisplet.Proofs.Expansion

namespace Lisplet

open Relation

/-- A call of the function from outside a list enters the evaluation of a form. -/
inductive Invokes : Value → List Value → Machine → Situation → Prop
  | closure {code arguments m body scope m₁}
      (henter : enterClosure false code arguments m = .value (body, scope) m₁) :
      Invokes (.closure false code) arguments m ⟨body, scope, m₁⟩
  | evaluate {native root form m} (hoperation : native.operation = .evaluate root) :
      Invokes (.native native) [form] m ⟨form, root, m⟩
  | swap {native cell updater others m s} (hoperation : native.operation = .swap)
      (hupdater : Invokes updater (m.cells[cell]?.getD .nil :: others) m s) :
      Invokes (.native native) (.atom cell :: updater :: others) m s

namespace Situation

/-- At a macro call: the body of the macro is what is evaluated. -/
def EntersMacro (s part : Situation) : Prop :=
  ∃ code arguments, s.machine.macroCall? s.scope s.form = some (code, arguments) ∧
    enterClosure true code arguments s.machine = .value (part.form, part.scope) part.machine

/-- The form is a vector, a map or a call, and these are the forms that are evaluated
in turn to begin with. -/
def InTurn (s : Situation) (forms : List Value) : Prop :=
  s.form = .vector forms ∨ s.form = .map forms ∨
    ∃ head operands, forms = head :: operands ∧ s.IsCall head operands

end Situation

/-- The operand that a special form evaluates before it does anything else. -/
def Special.operand? : Special → Option Value
  | define (.symbol _) form | defineMacro (.symbol _) form | branch form _ _ => some form
  | _ => none

/-- The error is one that the special form raises on its own account, when it has its
operands.  It complains of a count only as a macro does that `macroexpand` calls. -/
structure Special.OwnError (special : Special) (cause : Error) (after : Machine) : Prop where
  own : cause.IsOwn after
  arity : cause.IsArity → (∃ form, special = .macroExpand form) ∧
    ∃ code arguments m, enterClosure true code arguments m = .error cause after

theorem Special.OwnError.of_not_arity {special : Special} {cause : Error} {after : Machine}
    (hown : cause.IsOwn after) (harity : ¬ cause.IsArity) : special.OwnError cause after :=
  ⟨hown, fun h => (harity h).elim⟩

/-- A step at the first situation comes to the second, at a form that it does not
hand over but evaluates. -/
inductive Enters (evaluator : Evaluator) (s : Situation) : Situation → Prop
  | inTurn {earlier form later values m₁} (hforms : s.InTurn (earlier ++ form :: later))
      (hearlier : evaluateAll evaluator s.scope earlier s.machine = .value values m₁) :
      Enters evaluator s ⟨form, s.scope, m₁⟩
  | call {head operands function arguments m₁ part} (hcall : s.IsCall head operands)
      (hparts : evaluateAll evaluator s.scope (head :: operands) s.machine =
        .value (function :: arguments) m₁)
      (hfunction : ∀ code, function ≠ .closure false code)
      (hinvokes : Invokes function arguments m₁ part) : Enters evaluator s part
  | operand {special form} (hspecial : s.IsSpecial special)
      (hform : special.operand? = some form) : Enters evaluator s ⟨form, s.scope, s.machine⟩
  | sequence {earlier form later m₁} (hspecial : s.IsSpecial (.sequence (earlier ++ form :: later)))
      (hlater : later ≠ [])
      (hearlier : evaluateEach evaluator s.scope earlier s.machine = .value () m₁) :
      Enters evaluator s ⟨form, s.scope, m₁⟩
  | binding {bindings body forms earlier name form later m₁}
      (hspecial : s.IsSpecial (.bind bindings body))
      (hforms : bindingForms .bind bindings = .ok forms)
      (hpairs : pairs? forms = some (earlier ++ (.symbol name, form) :: later))
      (hearlier : bindInTurn evaluator s.inner earlier s.opened = .value () m₁) :
      Enters evaluator s ⟨form, s.inner, m₁⟩
  | macroBody {part} (hentry : s.EntersMacro part) : Enters evaluator s part
  | expansion {form s' part} (hspecial : s.IsSpecial (.macroExpand form))
      (hexpands : ReflTransGen (Expands evaluator) ⟨form, s.scope, s.machine⟩ s')
      (hentry : s'.EntersMacro part) : Enters evaluator s part

namespace Situation

/-- A part that the step comes to fails with this error. -/
def PartFails (s : Situation) (evaluator : Evaluator) (cause : Error) (after : Machine) : Prop :=
  ∃ part, Enters evaluator s part ∧
    evaluator part.form part.scope part.machine = .error cause after

end Situation

section

variable {evaluator : Evaluator} {s : Situation} {steps : Nat} {cause : Error}
  {m after : Machine}

/-- On an atom `swap!` calls the function with the content and replaces that by the result. -/
theorem apply_swap_atom {native : Native} (hoperation : native.operation = .swap) {cell : Nat}
    {updater : Value} {others : List Value} :
    apply evaluator (.native native) (.atom cell :: updater :: others) m =
      (apply evaluator updater (m.cells[cell]?.getD .nil :: others) m).andThen fun result => do
        Eval.replace cell result
        return result := by
  rw [apply_swap _ hoperation]
  rfl

/-- A call fails in what it invokes or on its own account. -/
theorem apply_error {function : Value} {arguments : List Value}
    (h : apply evaluator function arguments m = .error cause after) :
    (∃ part, Invokes function arguments m part ∧
      evaluator part.form part.scope part.machine = .error cause after) ∨ cause.IsOwn after := by
  induction function, arguments using call_induction generalizing m with
  | closure code arguments =>
      rw [apply_closure, Eval.bind_apply, Outcome.andThen_eq_error_iff] at h
      rcases h with henter | ⟨⟨body, scope⟩, m₁, henter, hbody⟩
      · exact .inr (RaisesOwn.enterClosure _ _ _ _ _ _ henter)
      · exact .inl ⟨_, .closure henter, hbody⟩
  | primitive native p act arguments hoperation hcall =>
      rw [apply_primitive _ hoperation hcall] at h
      exact .inr (RaisesOwn.of_call? hcall m cause after h)
  | swap native target updater others hoperation ih =>
      cases target with
      | atom cell =>
          rw [apply_swap_atom hoperation, Outcome.andThen_eq_error_iff] at h
          rcases h with hupdater | ⟨_, _, -, hreplace⟩
          · rcases ih _ hupdater with ⟨part, hinvokes, hpart⟩ | hown
            · exact .inl ⟨part, .swap hoperation hinvokes, hpart⟩
            · exact .inr hown
          · cases hreplace
      | _ =>
          rw [apply_swap _ hoperation] at h
          cases h
          exact .inr (Error.isOwn_unmet (by decide) _ _)
  | evaluate native root form hoperation =>
      rw [apply_evaluate _ _ hoperation] at h
      exact .inl ⟨_, .evaluate hoperation, h⟩
  | countArguments native arity arguments hoperation haccepts =>
      rw [apply_countArguments _ hoperation haccepts] at h
      cases h
  | wrongCount native arguments hcount =>
      rw [apply_wrongCount _ hcount] at h
      cases h
      exact .inr (.of_message?_none rfl (by rintro _ ⟨⟩) _)
  | notCallable function arguments hcallable =>
      rw [apply_notCallable _ hcallable] at h
      exact .inr (RaisesOwn.refuseCall _ _ _ _ h)

/-- A macro fails in its body, or before it comes to the body. -/
theorem callMacro_error {code : Nat} {arguments : List Value}
    (hmacroCall : s.machine.macroCall? s.scope s.form = some (code, arguments))
    (h : callClosure evaluator true code arguments s.machine = .error cause after) :
    (∃ part, s.EntersMacro part ∧
      evaluator part.form part.scope part.machine = .error cause after) ∨
    enterClosure true code arguments s.machine = .error cause after := by
  rw [callClosure, Eval.bind_apply, Outcome.andThen_eq_error_iff] at h
  rcases h with henter | ⟨⟨body, scope⟩, m₁, henter, hbody⟩
  · exact .inr henter
  · exact .inl ⟨⟨body, scope, m₁⟩, ⟨code, arguments, hmacroCall, henter⟩, hbody⟩

theorem inTurn_error {forms : List Value} (hforms : s.InTurn forms)
    (h : evaluateAll evaluator s.scope forms s.machine = .error cause after) :
    s.PartFails evaluator cause after := by
  obtain ⟨earlier, form, later, values, m₁, rfl, hearlier, hform⟩ := evaluateAll_eq_error_iff.mp h
  exact ⟨_, .inTurn hforms hearlier, hform⟩

theorem finishCall_error {head function : Value} {operands arguments : List Value}
    (hcall : s.IsCall head operands)
    (hparts : evaluateAll evaluator s.scope (head :: operands) s.machine =
      .value (function :: arguments) m)
    (h : finishCall evaluator head function arguments m = .error cause after) :
    s.PartFails evaluator cause after ∨ cause.IsOwn after := by
  by_cases hfunction : ∀ code, function ≠ .closure false code
  · rw [finishCall_other _ _ hfunction, Outcome.map_eq_error_iff] at h
    rcases apply_error h with ⟨part, hinvokes, hpart⟩ | hown
    · exact .inl ⟨part, .call hcall hparts hfunction hinvokes, hpart⟩
    · exact .inr hown
  · -- The body of a closure is handed over, so that only the entry can fail.
    push Not at hfunction
    obtain ⟨code, rfl⟩ := hfunction
    rw [finishCall_closure, Outcome.andThen_eq_error_iff] at h
    rcases h with henter | ⟨_, _, -, hnone⟩
    · obtain ⟨own, hown, rfl⟩ := Outcome.noted_eq_error henter
      exact .inr ((RaisesOwn.enterClosure _ _ _ _ _ _ hown).naming _)
    · cases hnone

/-- A special form fails in a part that it comes to or on its own account. -/
theorem stepSpecial_error {special : Special} (hspecial : s.IsSpecial special)
    (h : stepSpecial steps evaluator s.scope special s.machine = .error cause after) :
    s.PartFails evaluator cause after ∨ special.OwnError cause after := by
  cases special with
  | define target form =>
      rcases target.symbol_or_other with ⟨name, rfl⟩ | hname
      · rw [stepSpecial_define, Outcome.map_eq_error_iff] at h
        rcases Outcome.andThen_eq_error_iff.mp h with hform | ⟨_, _, -, hnone⟩
        · exact .inl ⟨_, .operand hspecial rfl, hform⟩
        · cases hnone
      · rw [stepSpecial_defineTarget _ _ _ hname] at h
        cases h
        exact .inr (.of_not_arity (Error.isOwn_unmet (by decide) _ _) id)
  | defineMacro target form =>
      rcases target.symbol_or_other with ⟨name, rfl⟩ | hname
      · rw [stepSpecial_defineMacro, Outcome.map_eq_error_iff, Outcome.andThen_eq_error_iff] at h
        rcases h with hform | ⟨value, m₁, -, hbind⟩
        · exact .inl ⟨_, .operand hspecial rfl, hform⟩
        · have hown := RaisesOwn.bindMacro _ _ _ _ _ _ hbind
          exact .inr (.of_not_arity hown (bindMacro_not_arity hbind))
      · rw [stepSpecial_defineMacroTarget _ _ _ hname] at h
        cases h
        exact .inr (.of_not_arity (Error.isOwn_unmet (by decide) _ _) id)
  | bind bindings body =>
      rcases hforms : bindingForms .bind bindings with own | forms
      · simp only [stepSpecial, Eval.bind_apply, hforms] at h
        cases h
        have hown := OwnFailure.bindingForms _ _ _ hforms s.machine
        exact .inr (.of_not_arity hown (bindingForms_not_arity hforms))
      · rcases hpairs : pairs? forms with _ | pairs
        · simp only [stepSpecial, Eval.bind_apply, hforms, Eval.ofExcept_ok,
            Outcome.andThen_value, hpairs] at h
          cases h
          exact .inr (.of_not_arity (Error.isOwn_evaluation (by decide) (by decide) _) id)
        · rw [stepBind hforms hpairs, Outcome.andThen_eq_error_iff] at h
          rcases h with hbound | ⟨_, _, -, hnone⟩
          · rcases bindInTurn_eq_error hbound with
              ⟨earlier, name, form, later, m₁, rfl, hearlier, hform⟩ | ⟨target, rfl⟩
            · exact .inl ⟨_, .binding hspecial hforms hpairs hearlier, hform⟩
            · exact .inr (.of_not_arity (Error.isOwn_unmet (by decide) _ _) id)
          · cases hnone
  | sequence forms =>
      rcases forms.eq_nil_or_concat' with rfl | ⟨earlier, last, rfl⟩
      · cases h
      · simp only [stepSpecial, List.getLast?_concat, List.dropLast_concat, Eval.bind_apply,
          Outcome.andThen_eq_error_iff] at h
        rcases h with hearlier | ⟨_, _, -, hnone⟩
        · obtain ⟨before, form, later, m₁, rfl, hbefore, hform⟩ :=
            evaluateEach_eq_error_iff.mp hearlier
          rw [List.append_assoc, List.cons_append] at hspecial
          exact .inl ⟨_, .sequence hspecial (by simp) hbefore, hform⟩
        · cases hnone
  | branch condition consequent alternative =>
      simp only [stepSpecial, Eval.bind_apply, Outcome.andThen_eq_error_iff] at h
      rcases h with hcondition | ⟨value, _, -, hnone⟩
      · exact .inl ⟨_, .operand hspecial rfl, hcondition⟩
      · by_cases htruth : value.isTruthy = true
        · rw [if_pos htruth] at hnone
          cases hnone
        · rw [if_neg htruth] at hnone
          cases alternative <;> cases hnone
  | function parameters body =>
      rw [stepSpecial_function, Outcome.map_eq_error_iff] at h
      have hown := RaisesOwn.makeFunction _ _ _ _ _ _ h
      exact .inr (.of_not_arity hown (makeFunction_not_arity h))
  | quote | quasiquote | quasiquoteExpand => cases h
  | macroExpand form =>
      rw [stepSpecial_macroExpand, Outcome.map_eq_error_iff] at h
      obtain ⟨s', code, arguments, hexpands, hmacroCall, hfails⟩ := expandFully_fails h
      rcases callMacro_error hmacroCall hfails with ⟨part, hentry, hpart⟩ | henter
      · exact .inl ⟨part, .expansion hspecial hexpands hentry, hpart⟩
      · have hown := RaisesOwn.enterClosure _ _ _ _ _ _ henter
        exact .inr ⟨hown, fun _ => ⟨⟨form, rfl⟩, code, arguments, s'.machine, henter⟩⟩

theorem ownStep_list_error {head : Value} {operands : List Value}
    (hform : s.form = .list (head :: operands))
    (h : s.ownStep steps evaluator = .error cause after) :
    s.PartFails evaluator cause after ∨ cause.IsOwn after := by
  rcases hmacroCall : s.machine.macroCall? s.scope s.form with _ | ⟨code, arguments⟩
  · rcases hhead : head.specialForm? with _ | special
    · have hcall : s.IsCall head operands := ⟨hform, hmacroCall, hhead⟩
      rw [ownStep_call hcall, Outcome.andThen_eq_error_iff] at h
      rcases h with hparts | ⟨values, m₁, hparts, hfinish⟩
      · exact .inl (inTurn_error (.inr (.inr ⟨head, operands, rfl, hcall⟩)) hparts)
      · obtain ⟨function, arguments, rfl⟩ := exists_cons_of_evaluateAll hparts
        exact finishCall_error hcall hparts hfinish
    · obtain ⟨name, rfl, hname⟩ := head.exists_symbol_of_specialForm? hhead
      rcases hplace : special.place? operands with _ | placed
      · rw [hform] at hmacroCall
        simp only [Situation.ownStep, hform] at h
        rw [stepList_wrongCount steps hmacroCall hname hplace] at h
        cases h
        exact .inr (.of_message?_none rfl (by rintro _ ⟨⟩) _)
      · have hspecial : s.IsSpecial placed :=
          ⟨name, special, operands, hform, hmacroCall, hname, hplace⟩
        rw [ownStep_special hspecial] at h
        exact (stepSpecial_error hspecial h).imp_right Special.OwnError.own
  · rw [ownStep_macroCall hmacroCall, Outcome.map_eq_error_iff] at h
    rcases callMacro_error hmacroCall h with ⟨part, hentry, hpart⟩ | henter
    · exact .inl ⟨part, .macroBody hentry, hpart⟩
    · exact .inr (RaisesOwn.enterClosure _ _ _ _ _ _ henter)

/-- An error of a step is that of a part that the step comes to, or the step's own. -/
theorem ownStep_error (h : s.ownStep steps evaluator = .error cause after) :
    s.PartFails evaluator cause after ∨ cause.IsOwn after := by
  rcases hform : s.form with _ | _ | _ | name | _ | items | items | entries | _ | _ | _
  case list =>
      rcases items with _ | ⟨head, operands⟩
      · simp only [Situation.ownStep, hform, step] at h
        cases h
      · exact ownStep_list_error hform h
  case symbol =>
      simp only [Situation.ownStep, hform, step, Eval.bind_apply, Eval.read_apply,
        Outcome.andThen_value] at h
      rcases hfound : s.machine.lookup? s.scope name with _ | value
      · rw [hfound] at h
        cases h
        exact .inr (.of_message?_none rfl (by rintro _ ⟨⟩) _)
      · rw [hfound] at h
        cases h
  case vector =>
      simp only [Situation.ownStep, hform] at h
      rw [step_vector, Outcome.map_eq_error_iff, Outcome.map_eq_error_iff] at h
      exact .inl (inTurn_error (.inl hform) h)
  case map =>
      simp only [Situation.ownStep, hform] at h
      rw [step_map, Outcome.map_eq_error_iff, Outcome.map_eq_error_iff] at h
      exact .inl (inTurn_error (.inr (.inl hform)) h)
  all_goals
    simp only [Situation.ownStep, hform, step] at h
    cases h

section

variable {evaluator' : Evaluator}
  (hevaluator : ∀ form scope, Prolongs (evaluator form scope) (evaluator' form scope))
include hevaluator

theorem Expands.prolong {s' : Situation} (h : Expands evaluator s s') :
    Expands evaluator' s s' := by
  obtain ⟨hmacroCall, hexpansion⟩ := h
  have hR := respected_prolongs
  exact .intro hmacroCall (Prolongs.of_value (hR.callClosure hevaluator _ _ _) hexpansion)

/-- With more steps for the parts, a step comes to the same parts. -/
theorem Enters.prolong {part : Situation} (h : Enters evaluator s part) :
    Enters evaluator' s part := by
  have hR := respected_prolongs
  cases h with
  | inTurn hforms hearlier =>
      exact .inTurn hforms (Prolongs.of_value (hR.evaluateAll hevaluator _ _) hearlier)
  | call hcall hparts hfunction hinvokes =>
      have hparts := Prolongs.of_value (hR.evaluateAll hevaluator _ _) hparts
      exact .call hcall hparts hfunction hinvokes
  | operand hspecial hform => exact .operand hspecial hform
  | sequence hspecial hlater hearlier =>
      have hearlier := Prolongs.of_value (hR.evaluateEach hevaluator _ _) hearlier
      exact .sequence hspecial hlater hearlier
  | binding hspecial hforms hpairs hearlier =>
      have hearlier := Prolongs.of_value (hR.bindInTurn hevaluator _ _) hearlier
      exact .binding hspecial hforms hpairs hearlier
  | macroBody hentry => exact .macroBody hentry
  | expansion hspecial hexpands hentry =>
      have hexpands := ReflTransGen.mono (fun _ _ h => Expands.prolong hevaluator h) _ _ hexpands
      exact .expansion hspecial hexpands hentry

/-- With more steps, a step that has failed fails in the same way. -/
theorem ownStep_prolong {steps' : Nat} (hsteps : steps ≤ steps')
    (herror : s.ownStep steps evaluator = .error cause after) :
    s.ownStep steps' evaluator' = .error cause after := by
  have hR := respected_prolongs
  have hexpand := expandFully_persists notedFrom_true hevaluator hsteps
  unfold Situation.ownStep at herror ⊢
  split at herror
  · exact Prolongs.of_error (hR.stepList hevaluator hexpand _ _ _) herror
  · exact Prolongs.of_error (hR.step hevaluator hexpand _ _) herror

end

theorem Invokes.apply {function : Value} {arguments : List Value} {part : Situation}
    (h : Invokes function arguments m part)
    (hpart : evaluator part.form part.scope part.machine = .error cause after) :
    apply evaluator function arguments m = .error cause after := by
  induction h with
  | closure henter =>
      rw [apply_closure, Eval.bind_apply, henter]
      exact hpart
  | evaluate hoperation =>
      rw [apply_evaluate _ _ hoperation]
      exact hpart
  | @swap native cell updater others m s hoperation _ ih =>
      rw [apply_swap_atom hoperation, ih hpart]
      rfl

theorem Situation.EntersMacro.callClosure {part : Situation} (h : s.EntersMacro part)
    (hpart : evaluator part.form part.scope part.machine = .error cause after) :
    ∃ code arguments, s.machine.macroCall? s.scope s.form = some (code, arguments) ∧
      callClosure evaluator true code arguments s.machine = .error cause after := by
  obtain ⟨code, arguments, hmacroCall, henter⟩ := h
  refine ⟨code, arguments, hmacroCall, ?_⟩
  rw [Lisplet.callClosure, Eval.bind_apply, henter]
  exact hpart

theorem Situation.InTurn.ownStep_fails {forms : List Value} (h : s.InTurn forms)
    (hforms : evaluateAll evaluator s.scope forms s.machine = .error cause after) (steps : Nat) :
    s.ownStep steps evaluator = .error cause after := by
  rcases h with hform | hform | ⟨head, operands, rfl, hcall⟩
  · simp only [ownStep, hform]
    rw [step_vector, hforms]
    rfl
  · simp only [ownStep, hform]
    rw [step_map, hforms]
    rfl
  · rw [ownStep_call hcall, hforms]
    rfl

/-- A part that a step comes to and that fails makes the step fail, if the step has
enough steps to expand what it expands. -/
theorem Enters.ownStep_fails {part : Situation} (h : Enters evaluator s part)
    (hpart : evaluator part.form part.scope part.machine = .error cause after) :
    ∃ enough, ∀ steps, enough ≤ steps → s.ownStep steps evaluator = .error cause after := by
  cases h with
  | inTurn hforms hearlier =>
      refine ⟨0, fun steps _ => hforms.ownStep_fails ?_ steps⟩
      exact evaluateAll_eq_error_iff.mpr ⟨_, _, _, _, _, rfl, hearlier, hpart⟩
  | call hcall hparts hfunction hinvokes =>
      refine ⟨0, fun steps _ => ?_⟩
      rw [ownStep_call hcall, hparts, Outcome.andThen_value, List.headD_cons, List.tail_cons,
        finishCall_other _ _ hfunction, hinvokes.apply hpart]
      rfl
  | @operand special form hspecial hform =>
      refine ⟨0, fun steps _ => ?_⟩
      rw [ownStep_special hspecial]
      unfold Special.operand? at hform
      split at hform
      · cases hform
        rw [stepSpecial_define, hpart]
        rfl
      · cases hform
        rw [stepSpecial_defineMacro, hpart]
        rfl
      · cases hform
        simp only [stepSpecial, Eval.bind_apply, hpart, Outcome.andThen_error]
      · cases hform
  | @sequence earlier form later m₁ hspecial hlater hearlier =>
      refine ⟨0, fun steps _ => ?_⟩
      obtain ⟨before, last, rfl⟩ := (later.eq_nil_or_concat').resolve_left hlater
      have heach : evaluateEach evaluator s.scope (earlier ++ form :: before) s.machine =
          .error cause after :=
        evaluateEach_eq_error_iff.mpr ⟨_, _, _, _, rfl, hearlier, hpart⟩
      rw [ownStep_special hspecial, ← List.cons_append, ← List.append_assoc]
      simp only [stepSpecial, List.getLast?_concat, List.dropLast_concat, Eval.bind_apply, heach]
      rfl
  | binding hspecial hforms hpairs hearlier =>
      refine ⟨0, fun steps _ => ?_⟩
      rw [ownStep_special hspecial, stepBind hforms hpairs, bindInTurn_fails hearlier hpart]
      rfl
  | macroBody hentry =>
      refine ⟨0, fun steps _ => ?_⟩
      obtain ⟨code, arguments, hmacroCall, hfails⟩ := hentry.callClosure hpart
      rw [ownStep_macroCall hmacroCall, hfails]
      rfl
  | expansion hspecial hexpands hentry =>
      obtain ⟨code, arguments, hmacroCall, hfails⟩ := hentry.callClosure hpart
      obtain ⟨height, hheight⟩ := expandFully_of_expands hexpands
      refine ⟨height + 1, fun steps hsteps => ?_⟩
      obtain ⟨count, rfl⟩ : ∃ count, steps = count + 1 + height := ⟨steps - height - 1, by omega⟩
      rw [ownStep_special hspecial, stepSpecial_macroExpand, hheight,
        expandFully_of_some hmacroCall, hfails]
      rfl

end

theorem Invokes.depth {function : Value} {arguments : List Value} {m : Machine}
    {part : Situation} (h : Invokes function arguments m part) :
    part.machine.depth = m.depth := by
  have hR := respected_agreeWhere fun _ => True
  induction h with
  | @closure code arguments _ _ _ _ henter =>
      exact (hR.blind (.enterClosure false code arguments)).depth_of_value henter
  | evaluate => rfl
  | swap _ _ ih => exact ih

theorem Situation.EntersMacro.depth {s part : Situation} (h : s.EntersMacro part) :
    part.machine.depth = s.machine.depth := by
  obtain ⟨code, arguments, -, henter⟩ := h
  have hR := respected_agreeWhere fun _ => True
  exact (hR.blind (.enterClosure true code arguments)).depth_of_value henter

/-- Parts are evaluated from the depth of the form that they are parts of. -/
theorem Enters.depth {steps : Nat} {s part : Situation}
    (h : Enters (evaluateDeeper steps) s part) : part.machine.depth = s.machine.depth := by
  have hR := respected_agreeWhere fun _ => True
  have hevaluator := evaluateDeeper_keeps_depth steps
  cases h with
  | @inTurn earlier _ _ _ _ _ hearlier =>
      exact (hR.evaluateAll hevaluator s.scope earlier).depth_of_value hearlier
  | @call head operands _ _ _ _ _ hparts _ hinvokes =>
      rw [hinvokes.depth]
      exact (hR.evaluateAll hevaluator s.scope (head :: operands)).depth_of_value hparts
  | operand => rfl
  | @sequence earlier _ _ _ _ _ hearlier =>
      exact (hR.evaluateEach hevaluator s.scope earlier).depth_of_value hearlier
  | @binding _ _ _ earlier _ _ _ _ _ _ _ hearlier =>
      have hbound := hR.bindInTurn hevaluator s.inner earlier
      exact (hbound.depth_of_value hearlier : _ = s.opened.depth)
  | macroBody hentry => exact hentry.depth
  | expansion _ hexpands hentry =>
      have hdepth := depth_of_reaches (reaches_of_expands hexpands)
      exact hentry.depth.trans hdepth

end Lisplet
