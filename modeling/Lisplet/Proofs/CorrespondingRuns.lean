/-
Evaluation keeps every lawful correspondence.  Each way of evaluating forms is
taken in turn, on the assumption that the evaluators of the two runs already
agree on the forms inside; a run of any length follows by induction on its
steps, at whatever number of levels.
-/
import Lisplet.Proofs.Correspondence
import Lisplet.Proofs.StepParts

namespace Lisplet

def Special.operands : Special → List Value
  | .define target form | .defineMacro target form => [target, form]
  | .bind bindings body | .function bindings body => bindings :: body
  | .sequence forms => forms
  | .branch condition consequent alternative => condition :: consequent :: alternative.toList
  | .quote form | .quasiquote form | .quasiquoteExpand form | .macroExpand form => [form]

theorem operands_of_place? {form : SpecialForm} {operands : List Value} {special : Special}
    (h : form.place? operands = some special) : special.operands = operands := by
  unfold SpecialForm.place? at h
  split at h <;> cases h <;> rfl

theorem mem_of_pairs? {forms : List Value} {pairs : List (Value × Value)}
    (h : pairs? forms = some pairs) : ∀ pair ∈ pairs, pair.1 ∈ forms ∧ pair.2 ∈ forms := by
  match forms with
  | [] =>
      cases h
      simp
  | [_] => cases h
  | first :: second :: forms =>
      rw [pairs?, Option.map_eq_some_iff] at h
      obtain ⟨others, hothers, rfl⟩ := h
      rw [List.forall_mem_cons]
      refine ⟨by simp, fun pair hpair => ?_⟩
      have hmem := mem_of_pairs? hothers pair hpair
      exact ⟨List.mem_cons_of_mem _ (List.mem_cons_of_mem _ hmem.1),
        List.mem_cons_of_mem _ (List.mem_cons_of_mem _ hmem.2)⟩

/-- The names of a parameter list come from its forms. -/
theorem exists_parameterNames {parameters : Value} {names : List String}
    (h : (bindingForms .function parameters >>= parameterNames) = .ok names) :
    ∃ forms, parameterNames forms = .ok names := by
  rcases hforms : bindingForms .function parameters with cause | forms
  · rw [hforms] at h
    cases h
  · rw [hforms] at h
    exact ⟨forms, h⟩

namespace Correspondence

/-- The evaluators agree on every form, in scopes that correspond. -/
def Evaluators (C : Correspondence) (evaluator evaluator' : Evaluator) : Prop :=
  ∀ size form scope scope', C.value form → C.scopes size scope scope' →
    C.Actions size C.values (evaluator form scope) (evaluator' form scope')

section

variable {C : Correspondence} {size : Nat} {evaluator evaluator' : Evaluator}
  (hevaluator : C.Evaluators evaluator evaluator')
include hevaluator

theorem Evaluators.evaluateAll {scope scope' : Scope} (hscope : C.scopes size scope scope')
    {forms : List Value} (hforms : ∀ form ∈ forms, C.value form) :
    C.Actions size
      (SameResult fun values => values.length = forms.length ∧ ∀ value ∈ values, C.value value)
      (Lisplet.evaluateAll evaluator scope forms)
      (Lisplet.evaluateAll evaluator' scope' forms) := by
  induction forms with
  | nil => exact .pure ⟨rfl, rfl, by simp⟩
  | cons form forms ih =>
      rw [List.forall_mem_cons] at hforms
      refine .bind_same (hevaluator _ form scope scope' hforms.1 hscope) fun value hvalue => ?_
      refine .bind_same (ih hforms.2) fun values hvalues => ?_
      exact .pure ⟨rfl, congrArg Nat.succ hvalues.1, List.forall_mem_cons.mpr ⟨hvalue, hvalues.2⟩⟩

theorem Evaluators.evaluateEach {scope scope' : Scope} (hscope : C.scopes size scope scope')
    {forms : List Value} (hforms : ∀ form ∈ forms, C.value form) :
    C.Actions size (SameResult fun _ => True) (Lisplet.evaluateEach evaluator scope forms)
      (Lisplet.evaluateEach evaluator' scope' forms) := by
  induction forms with
  | nil => exact .pure ⟨rfl, trivial⟩
  | cons form forms ih =>
      rw [List.forall_mem_cons] at hforms
      exact .bind_same (hevaluator _ form scope scope' hforms.1 hscope) fun _ _ => ih hforms.2

theorem Evaluators.resume {step step' : Step} (hstep : C.steps size step step') :
    C.Actions size C.values (Lisplet.resume evaluator step) (Lisplet.resume evaluator' step') := by
  match step, step', hstep with
  | .done value, .done value', hvalue => exact .pure hvalue
  | .next form scope, .next _ scope', ⟨⟨rfl, hform⟩, hscope⟩ =>
      exact hevaluator _ form scope scope' hform hscope

end

namespace Lawful

variable {C : Correspondence} (hC : C.Lawful) {size : Nat}
include hC

/-- A closure that one machine has the other has too. -/
theorem exists_closure {m m' : Machine} (hm : C.machines m m') {code : Nat} {closure : Closure}
    (hclosure : m.closures[code]? = some closure) :
    ∃ closure', m'.closures[code]? = some closure' ∧
      C.closures m.frames.size closure closure' := by
  obtain ⟨hcode, -⟩ := Array.getElem?_eq_some_iff.mp hclosure
  have hcode' : code < m'.closures.size := by
    rw [hC.closures_size hm]
    exact hcode
  exact ⟨m'.closures[code], Array.getElem?_eq_getElem hcode',
    hC.closure hm hclosure (Array.getElem?_eq_getElem hcode')⟩

theorem no_closure {m m' : Machine} (hm : C.machines m m') {code : Nat}
    (hclosure : m.closures[code]? = none) : m'.closures[code]? = none := by
  rw [Array.getElem?_eq_none_iff] at hclosure ⊢
  rw [hC.closures_size hm]
  exact hclosure

/-- What looks a closure up first goes on with closures that correspond. -/
theorem readClosure {α : Type} {results : (size : Nat) → α → α → Prop} (code : Nat)
    {next next' : Option Closure → Eval α} (hnone : C.Actions size results (next none) (next' none))
    (hsome : ∀ size', size ≤ size' → ∀ closure closure', C.closures size' closure closure' →
      C.Actions size' results (next (some closure)) (next' (some closure'))) :
    C.Actions size results ((.read fun m => m.closures[code]?) >>= next)
      ((.read fun m => m.closures[code]?) >>= next') := by
  intro m m' hm hsize
  simp only [Eval.bind_apply, Eval.read_apply, Outcome.andThen_value]
  rcases hclosure : m.closures[code]? with _ | closure
  · rw [hC.no_closure hm hclosure]
    exact hnone m m' hm hsize
  · obtain ⟨closure', hclosure', hcorrespond⟩ := hC.exists_closure hm hclosure
    rw [hclosure']
    have hnext := hsome _ hsize closure closure' hcorrespond
    exact (hnext m m' hm (Nat.le_refl _)).of_le hsize

theorem refuseCall {α : Type} {results : (size : Nat) → α → α → Prop} (value : Value) :
    C.Actions size results (refuseCall value) (refuseCall value) := by
  intro m m' hm hsize
  rw [Lisplet.refuseCall, Lisplet.refuseCall, hC.text_eq hm]
  exact .error hsize hm

/-- A list is the context of the same errors in both runs. -/
theorem inContext {α : Type} {results : (size : Nat) → α → α → Prop} {act act' : Eval α}
    (hact : C.Actions size results act act') (form : Value) :
    C.Actions size results (act.onError fun m e => e.inContext fun _ => m.text .readable form)
      (act'.onError fun m e => e.inContext fun _ => m.text .readable form) :=
  .onError hact fun m m' cause hm => by rw [hC.text_eq hm]

/-- Parameters stand for arguments, or for the list of what is left of them. -/
theorem bindArguments {parameters : List String} {arguments : List Value} {frame : Frame}
    (h : bindArguments parameters arguments = .ok frame)
    (harguments : ∀ value ∈ arguments, C.value value) : ∀ binding ∈ frame, C.value binding.2 := by
  have heach := fun names => Frame.holds_bindEach names harguments
  rw [Lisplet.bindArguments] at h
  split at h
  · split at h
    · cases h
      exact heach _
    · cases h
  · cases h
  · split at h
    · cases h
      refine Frame.holds_set (heach _) (hC.list.mpr fun item hitem => ?_)
      exact harguments item (List.mem_of_mem_drop hitem)
    · cases h

theorem enterClosure (isMacro : Bool) (code : Nat) {arguments : List Value}
    (harguments : ∀ value ∈ arguments, C.value value) :
    C.Actions size C.entered (enterClosure isMacro code arguments)
      (enterClosure isMacro code arguments) := by
  refine hC.readClosure code (hC.refuseCall _) ?_
  intro size' _ closure closure' hclosure
  obtain ⟨hparameters, hbody⟩ := hC.parts hclosure
  dsimp only
  rw [hparameters]
  refine .bind_same (.ofExcept fun _ h => hC.bindArguments h harguments) fun frame hframe => ?_
  intro m m' hm hsize
  obtain ⟨hextended, hscope⟩ := hC.enter hm hsize hclosure hframe
  exact .value (Nat.le_succ_of_le hsize) (Array.size_push _).ge ⟨hbody, hscope⟩ hextended

/-- A scope inside two scopes that correspond. -/
theorem newInner {m m' : Machine} (hm : C.machines m m') (hsize : size ≤ m.frames.size)
    {scope scope' : Scope} (hscope : C.scopes size scope scope') :
    C.Extended m m' [] ∧ C.scopes (m.frames.size + 1)
      (scope.enter m.frames.size) (scope'.enter m'.frames.size) :=
  have hmade : parameterNames [] = .ok [] := rfl
  hC.enter hm hsize (hC.make hscope hmade hC.nil) (by simp)

theorem bodyForm {body : List Value} (h : ∀ form ∈ body, C.value form) :
    C.value (bodyForm body) := by
  rw [Lisplet.bodyForm.eq_def]
  split
  · exact h _ List.mem_cons_self
  · exact hC.list.mpr (List.forall_mem_cons.mpr ⟨hC.symbol "do", h⟩)

theorem bindingForms {form : SpecialForm} {bindings : Value} (h : C.value bindings)
    {forms : List Value} (hforms : bindingForms form bindings = .ok forms) :
    ∀ item ∈ forms, C.value item := by
  cases bindings with
  | list | vector =>
      cases hforms
      first
        | exact hC.list.mp h
        | exact hC.vector.mp h
  | _ => cases hforms

theorem argumentOf? {name : String} {value form : Value} (h : C.value value)
    (hform : value.argumentOf? name = some form) : C.value form := by
  rw [Value.argumentOf?.eq_def] at hform
  split at hform
  · split at hform
    · cases hform
      exact hC.list.mp h _ (by simp)
    · cases hform
  · cases hform

mutual

theorem expandedTemplate {template : Value} (h : C.value template) :
    C.value (expandTemplate template) := by
  match template with
  | .list items =>
      rw [Lisplet.expandTemplate]
      split
      · next form hform => exact hC.argumentOf? h hform
      · exact expandedItems (hC.list.mp h)
  | .symbol name =>
      refine hC.list.mpr (List.forall_mem_cons.mpr ⟨hC.symbol "quote", ?_⟩)
      exact List.forall_mem_singleton.mpr h
  | .nil | .bool _ | .number _ | .string _ | .vector _ | .map _ | .atom _ | .closure _ _
  | .native _ => exact h

theorem expandedItems {items : List Value} (h : ∀ item ∈ items, C.value item) :
    C.value (expandItems items) := by
  match items with
  | [] => exact hC.list.mpr (by simp)
  | item :: items =>
      rw [List.forall_mem_cons] at h
      have hrest := expandedItems h.2
      rw [Lisplet.expandItems]
      split
      · next form hform =>
          have hforms : ∀ value ∈ [.symbol "concat", form, Lisplet.expandItems items],
              C.value value := by
            simp only [List.forall_mem_cons]
            exact ⟨hC.symbol "concat", hC.argumentOf? h.1 hform, hrest, by simp⟩
          exact hC.list.mpr hforms
      · have hforms : ∀ value ∈ [.symbol "cons", Lisplet.expandTemplate item,
            Lisplet.expandItems items], C.value value := by
          simp only [List.forall_mem_cons]
          exact ⟨hC.symbol "cons", expandedTemplate h.1, hrest, by simp⟩
        exact hC.list.mpr hforms

end

section

variable {evaluator evaluator' : Evaluator} (hevaluator : C.Evaluators evaluator evaluator')
include hevaluator

theorem callClosure (isMacro : Bool) (code : Nat) {arguments : List Value}
    (harguments : ∀ value ∈ arguments, C.value value) :
    C.Actions size C.values (callClosure evaluator isMacro code arguments)
      (callClosure evaluator' isMacro code arguments) := by
  refine .bind (hC.enterClosure isMacro code harguments) ?_
  rintro size' _ ⟨_, scope⟩ ⟨body, scope'⟩ ⟨⟨rfl, hbody⟩, hscope⟩
  exact hevaluator _ body scope scope' hbody hscope

theorem apply {function : Value} {arguments : List Value} (hfunction : C.value function)
    (harguments : ∀ value ∈ arguments, C.value value) :
    C.Actions size C.values (apply evaluator function arguments)
      (apply evaluator' function arguments) := by
  induction function, arguments using call_induction with
  | closure code arguments =>
      rw [apply_closure, apply_closure]
      exact hC.callClosure hevaluator false code harguments
  | primitive native p act arguments hoperation hcall =>
      rw [apply_primitive _ hoperation hcall, apply_primitive _ hoperation hcall]
      exact hC.call? hcall harguments
  | swap native target updater others hoperation ih =>
      rw [List.forall_mem_cons, List.forall_mem_cons] at harguments
      rw [apply_swap _ hoperation, apply_swap _ hoperation]
      refine .bind_same (.ofExcept_any _) fun cell _ => ?_
      refine .bind_same (hC.content cell) fun content hcontent => ?_
      have hupdated := ih content harguments.2.1
        (List.forall_mem_cons.mpr ⟨hcontent, harguments.2.2⟩)
      refine .bind_same hupdated fun result hresult => ?_
      exact .bind_same (hC.replace cell hresult) fun _ _ => .pure ⟨rfl, hresult⟩
  | evaluate native root form hoperation =>
      rw [apply_evaluate _ _ hoperation, apply_evaluate _ _ hoperation]
      exact hevaluator _ form root root (List.forall_mem_singleton.mp harguments)
        (hC.evaluate size hfunction hoperation)
  | countArguments native arity arguments hoperation haccepts =>
      rw [apply_countArguments _ hoperation haccepts, apply_countArguments _ hoperation haccepts]
      exact .pure ⟨rfl, hC.number _⟩
  | wrongCount native arguments hcount =>
      rw [apply_wrongCount _ hcount, apply_wrongCount _ hcount]
      exact .fail _
  | notCallable function arguments hcallable =>
      rw [apply_notCallable _ hcallable, apply_notCallable _ hcallable]
      exact hC.refuseCall function

end

/-- A form is the same macro call in both runs, with operands out of the form. -/
theorem macroCall? {m m' : Machine} (hm : C.machines m m') (hsize : size ≤ m.frames.size)
    {scope scope' : Scope} (hsee : C.SeeSame size scope scope') {form : Value}
    (hform : C.value form) :
    Same (fun found => ∀ code operands, found = some (code, operands) →
      ∀ operand ∈ operands, C.value operand)
      (m.macroCall? scope form) (m'.macroCall? scope' form) := by
  rw [Same, Machine.macroCall?.eq_def, Machine.macroCall?.eq_def]
  split
  · next name operands =>
      obtain ⟨hlookup, -⟩ := hsee m m' name hm hsize
      rw [hlookup]
      refine ⟨rfl, fun code others hfound => ?_⟩
      split at hfound
      · cases hfound
        exact (List.forall_mem_cons.mp (hC.list.mp hform)).2
      · cases hfound
  · exact ⟨rfl, fun _ _ hfound => by cases hfound⟩

theorem bindName {scope scope' : Scope} (hscope : C.scopes size scope scope') (name : String)
    {value : Value} (hvalue : C.value value) :
    C.Actions size (SameResult fun _ => True) (.define scope name value)
      (.define scope' name value) :=
  .update (fun _ => Array.size_modify) fun _ _ hm hsize => hC.define name hm hsize hscope hvalue

theorem newClosure (isMacro : Bool) {closure closure' : Closure}
    (hclosure : C.closures size closure closure') :
    C.Actions size C.values (.newClosure isMacro closure) (.newClosure isMacro closure') := by
  intro m m' hm hsize
  refine .value (Nat.le_refl size) hsize ⟨?_, hC.codeOf isMacro _⟩ (hC.store hm hsize hclosure)
  rw [hC.closures_size hm]

section

variable {evaluator evaluator' : Evaluator} (hevaluator : C.Evaluators evaluator evaluator')
include hevaluator

theorem expandOnce {scope scope' : Scope} (hsee : C.SeeSame size scope scope') {form : Value}
    (hform : C.value form) :
    C.Actions size (SameResult fun expansion => ∀ value, expansion = some value → C.value value)
      (expandOnce evaluator form scope) (expandOnce evaluator' form scope') := by
  have hfind : C.Actions size _ (.read fun m => m.macroCall? scope form)
      (.read fun m => m.macroCall? scope' form) :=
    .read fun m m' hm hsize => hC.macroCall? hm hsize hsee hform
  refine .bind_same hfind fun found hfound => ?_
  rcases found with _ | ⟨code, operands⟩
  · exact .pure ⟨rfl, fun _ heq => by cases heq⟩
  · refine .bind (hC.enterClosure true code (hfound code operands rfl)) ?_
    rintro size' _ ⟨_, scope⟩ ⟨body, scope'⟩ ⟨⟨rfl, hbody⟩, hscope⟩
    refine .bind_same (hevaluator _ body scope scope' hbody hscope) fun expansion hexpansion => ?_
    refine .pure ⟨rfl, fun value heq => ?_⟩
    cases heq
    exact hexpansion

theorem expandFully (steps : Nat) {scope scope' : Scope} (hsee : C.SeeSame size scope scope')
    {form : Value} (hform : C.value form) :
    C.Actions size C.values (expandFully evaluator steps form scope)
      (expandFully evaluator' steps form scope') := by
  induction steps generalizing form with
  | zero => exact .unfinished
  | succ steps ih =>
      refine .bind_same (hC.expandOnce hevaluator hsee hform) fun expansion hexpansion => ?_
      rcases expansion with _ | expansion
      · exact .pure ⟨rfl, hform⟩
      · exact ih (hexpansion expansion rfl)

theorem bindInTurn {scope scope' : Scope} (hscope : C.scopes size scope scope')
    {bindings : List (Value × Value)} (hforms : ∀ binding ∈ bindings, C.value binding.2) :
    C.Actions size (SameResult fun _ => True) (bindInTurn evaluator scope bindings)
      (bindInTurn evaluator' scope' bindings) := by
  induction bindings with
  | nil => exact .pure ⟨rfl, trivial⟩
  | cons binding bindings ih =>
      rw [List.forall_mem_cons] at hforms
      obtain ⟨target, form⟩ := binding
      cases target with
      | symbol name =>
          refine .bind_same (hevaluator _ form scope scope' hforms.1 hscope) fun value hvalue => ?_
          exact .bind_same (hC.bindName hscope name hvalue) fun _ _ => ih hforms.2
      | _ => exact .fail _

theorem stepCall {scope scope' : Scope} (hscope : C.scopes size scope scope') {head : Value}
    (hhead : C.value head) {operands : List Value} (hoperands : ∀ form ∈ operands, C.value form) :
    C.Actions size C.steps (stepCall evaluator scope head operands)
      (stepCall evaluator' scope' head operands) := by
  refine .bind_same (hevaluator _ head scope scope' hhead hscope) fun function hfunction => ?_
  refine .bind_same (hevaluator.evaluateAll hscope hoperands) fun arguments harguments => ?_
  split
  · next code =>
    refine .bind (.onError (hC.enterClosure false code harguments.2) fun m m' cause hm => ?_) ?_
    · rw [hC.text_eq hm]
    · rintro size' _ ⟨_, scope⟩ ⟨body, scope'⟩ hentered
      exact .pure hentered
  · exact .bind_same (hC.apply hevaluator hfunction harguments.2) fun value hvalue =>
      .pure ⟨rfl, hvalue⟩

theorem stepDefine {scope scope' : Scope} (hscope : C.scopes size scope scope') (target : Value)
    {form : Value} (hform : C.value form) (steps : Nat) :
    C.Actions size C.steps (stepSpecial steps evaluator scope (.define target form))
      (stepSpecial steps evaluator' scope' (.define target form)) := by
  obtain ⟨name, rfl⟩ | hother := target.symbol_or_other
  · refine .bind_same (hevaluator _ form scope scope' hform hscope) fun value hvalue => ?_
    exact .bind_same (hC.bindName hscope name hvalue) fun _ _ => .pure ⟨rfl, hvalue⟩
  · rw [stepSpecial_defineTarget _ _ _ hother, stepSpecial_defineTarget _ _ _ hother]
    exact .fail _

theorem stepDefineMacro {scope scope' : Scope} (hscope : C.scopes size scope scope')
    (target : Value) {form : Value} (hform : C.value form) (steps : Nat) :
    C.Actions size C.steps (stepSpecial steps evaluator scope (.defineMacro target form))
      (stepSpecial steps evaluator' scope' (.defineMacro target form)) := by
  obtain ⟨name, rfl⟩ | hother := target.symbol_or_other
  · refine .bind_same (hevaluator _ form scope scope' hform hscope) fun value hvalue => ?_
    cases value with
    | closure isMacro code =>
        refine hC.readClosure code (hC.refuseCall _) fun _ hle closure closure' hclosure => ?_
        refine .bind_same (hC.newClosure true hclosure) fun made hmade => ?_
        have hscope' := hC.scopes_mono hle hscope
        exact .bind_same (hC.bindName hscope' name hmade) fun _ _ => .pure ⟨rfl, hmade⟩
    | _ => exact .fail _
  · rw [stepSpecial_defineMacroTarget _ _ _ hother, stepSpecial_defineMacroTarget _ _ _ hother]
    exact .fail _

/-- The forms of a `let*` are evaluated in the inner scope alone. -/
theorem stepBind {scope scope' : Scope}
    (hinner : ∀ m m', C.machines m m' → size ≤ m.frames.size → C.Extended m m' [] ∧
      C.scopes (m.frames.size + 1) (scope.enter m.frames.size) (scope'.enter m'.frames.size))
    {bindings : Value} (hbindings : C.value bindings) {body : List Value}
    (hbody : ∀ form ∈ body, C.value form) (steps : Nat) :
    C.Actions size C.steps (stepSpecial steps evaluator scope (.bind bindings body))
      (stepSpecial steps evaluator' scope' (.bind bindings body)) := by
  refine .bind_same (.ofExcept fun forms h => hC.bindingForms hbindings h) fun forms hforms => ?_
  rcases hpairs : pairs? forms with _ | bindings
  · exact .fail _
  · have hvalues := mem_of_pairs? hpairs
    intro m m' hm hsize
    obtain ⟨hextended, hscope⟩ := hinner m m' hm hsize
    have hbound := hC.bindInTurn hevaluator hscope fun binding hbinding =>
      hforms _ (hvalues binding hbinding).2
    refine Outcomes.of_le ?_ (Nat.le_succ_of_le hsize)
    exact Actions.bind_same hbound (fun _ _ => Actions.pure ⟨⟨rfl, hC.bodyForm hbody⟩, hscope⟩)
      _ _ hextended (Array.size_push _).ge

theorem stepSequence {scope scope' : Scope} (hscope : C.scopes size scope scope')
    {forms : List Value} (hforms : ∀ form ∈ forms, C.value form) (steps : Nat) :
    C.Actions size C.steps (stepSpecial steps evaluator scope (.sequence forms))
      (stepSpecial steps evaluator' scope' (.sequence forms)) := by
  rw [Lisplet.stepSpecial, Lisplet.stepSpecial]
  rcases hlast : forms.getLast? with _ | last
  · exact .pure ⟨rfl, hC.nil⟩
  · have hfirst : ∀ form ∈ forms.dropLast, C.value form := fun form hform =>
      hforms form (List.dropLast_subset forms hform)
    refine .bind_same (hevaluator.evaluateEach hscope hfirst) fun _ _ => ?_
    exact .pure ⟨⟨rfl, hforms last (List.mem_of_getLast? hlast)⟩, hscope⟩

theorem stepBranch {scope scope' : Scope} (hscope : C.scopes size scope scope')
    {condition consequent : Value} {alternative : Option Value} (hcondition : C.value condition)
    (hconsequent : C.value consequent) (halternative : ∀ form ∈ alternative, C.value form)
    (steps : Nat) :
    C.Actions size C.steps
      (stepSpecial steps evaluator scope (.branch condition consequent alternative))
      (stepSpecial steps evaluator' scope' (.branch condition consequent alternative)) := by
  refine .bind_same (hevaluator _ condition scope scope' hcondition hscope) fun value _ => ?_
  by_cases htruth : value.isTruthy
  · rw [if_pos htruth, if_pos htruth]
    exact .pure ⟨⟨rfl, hconsequent⟩, hscope⟩
  · rw [if_neg htruth, if_neg htruth]
    rcases alternative with _ | form
    · exact .pure ⟨rfl, hC.nil⟩
    · exact .pure ⟨⟨rfl, halternative form rfl⟩, hscope⟩

theorem stepSpecial {scope scope' : Scope} (hscope : C.scopes size scope scope') {special : Special}
    (hoperands : ∀ form ∈ special.operands, C.value form) (steps : Nat) :
    C.Actions size C.steps (stepSpecial steps evaluator scope special)
      (stepSpecial steps evaluator' scope' special) := by
  cases special with
  | define target form =>
      rw [Special.operands, List.forall_mem_cons, List.forall_mem_singleton] at hoperands
      exact hC.stepDefine hevaluator hscope target hoperands.2 steps
  | defineMacro target form =>
      rw [Special.operands, List.forall_mem_cons, List.forall_mem_singleton] at hoperands
      exact hC.stepDefineMacro hevaluator hscope target hoperands.2 steps
  | bind bindings body =>
      rw [Special.operands, List.forall_mem_cons] at hoperands
      exact hC.stepBind hevaluator (fun _ _ hm hsize => hC.newInner hm hsize hscope) hoperands.1
        hoperands.2 steps
  | sequence forms => exact hC.stepSequence hevaluator hscope hoperands steps
  | branch condition consequent alternative =>
      rw [Special.operands, List.forall_mem_cons, List.forall_mem_cons] at hoperands
      refine hC.stepBranch hevaluator hscope hoperands.1 hoperands.2.1 (fun form hform => ?_) steps
      exact hoperands.2.2 form (Option.mem_toList.mpr hform)
  | function parameters body =>
      rw [Special.operands, List.forall_mem_cons] at hoperands
      refine .bind_same (.ofExcept fun _ => exists_parameterNames) fun names hnames => ?_
      obtain ⟨forms, hforms⟩ := hnames
      have hmade := hC.make hscope hforms (hC.bodyForm hoperands.2)
      exact .bind_same (hC.newClosure false hmade) fun value hvalue => .pure ⟨rfl, hvalue⟩
  | quote form => exact .pure ⟨rfl, hoperands form List.mem_cons_self⟩
  | quasiquote template =>
      have htemplate := hoperands template List.mem_cons_self
      exact .pure ⟨⟨rfl, hC.expandedTemplate htemplate⟩, hscope⟩
  | quasiquoteExpand template =>
      have htemplate := hoperands template List.mem_cons_self
      exact .pure ⟨rfl, hC.expandedTemplate htemplate⟩
  | macroExpand form =>
      have hform := hoperands form List.mem_cons_self
      have hsee := hC.seeSame hscope
      refine .bind_same (hC.expandFully hevaluator steps hsee hform) fun value hvalue => ?_
      exact .pure ⟨rfl, hvalue⟩

theorem stepList {scope scope' : Scope} (hscope : C.scopes size scope scope') {head : Value}
    {operands : List Value} (hlist : C.value (.list (head :: operands))) (steps : Nat) :
    C.Actions size C.steps (stepList steps evaluator scope head operands)
      (stepList steps evaluator' scope' head operands) := by
  obtain ⟨hhead, hoperands⟩ := List.forall_mem_cons.mp (hC.list.mp hlist)
  have hcall := hC.stepCall hevaluator hscope hhead hoperands
  have hexpand := hC.expandOnce hevaluator (hC.seeSame hscope) hlist
  refine .bind_same hexpand fun expansion hexpansion => ?_
  rcases expansion with _ | expansion
  · cases head with
    | symbol name =>
        dsimp only
        rcases SpecialForm.ofName? name with _ | form
        · exact hcall
        · dsimp only
          rcases hplace : form.place? operands with _ | special
          · exact .fail _
          · rw [← operands_of_place? hplace] at hoperands
            exact hC.stepSpecial hevaluator hscope hoperands steps
    | _ => exact hcall
  · exact .pure ⟨⟨rfl, hexpansion expansion rfl⟩, hscope⟩

theorem step {scope scope' : Scope} (hscope : C.scopes size scope scope') {form : Value}
    (hform : C.value form) (steps : Nat) :
    C.Actions size C.steps (step steps evaluator form scope)
      (step steps evaluator' form scope') := by
  unfold Lisplet.step
  split
  · next name =>
      have hfind : C.Actions size _ (.read fun m => m.lookup? scope name)
          (.read fun m => m.lookup? scope' name) :=
        .read fun m m' hm hsize => hC.seeSame hscope m m' name hm hsize
      refine .bind_same hfind fun found hfound => ?_
      rcases found with _ | value
      · exact .fail _
      · exact .pure ⟨rfl, hfound value rfl⟩
  · next items =>
      have hitems := hevaluator.evaluateAll hscope (hC.vector.mp hform)
      refine .bind_same hitems fun values hvalues => ?_
      exact .pure ⟨rfl, hC.vector.mpr hvalues.2⟩
  · next entries =>
      have hentries := hevaluator.evaluateAll hscope (hC.entries hform)
      refine .bind_same hentries fun values hvalues => ?_
      exact .pure ⟨rfl, hC.map hform hvalues.1 hvalues.2⟩
  · exact hC.inContext (hC.stepList hevaluator hscope hform steps) _
  · exact .pure ⟨rfl, hform⟩

end

/-- Runs of the same form, with the same steps and levels, correspond. -/
theorem runLevels (steps levels : Nat) :
    C.Evaluators (runLevels steps levels) (runLevels steps levels) := by
  induction steps generalizing levels with
  | zero => exact fun _ _ _ _ _ _ => .unfinished
  | succ steps ih =>
      have hevaluator : C.Evaluators (deeper (Lisplet.runLevels steps) levels)
          (deeper (Lisplet.runLevels steps) levels) := by
        cases levels with
        | zero => exact fun _ _ _ _ _ _ => .fail _
        | succ levels => exact ih levels
      intro size form scope scope' hform hscope
      exact .bind (hC.step hevaluator hscope hform steps) fun _ _ _ _ => (ih levels).resume

theorem evaluateLevels (steps levels : Nat) :
    C.Evaluators (evaluateLevels steps levels) (evaluateLevels steps levels) := by
  cases levels with
  | zero => exact fun _ _ _ _ _ _ => .fail _
  | succ levels => exact hC.runLevels steps levels

theorem evaluateWithin (hdepth : ∀ m m', C.machines m m' → m'.depth = m.depth) (steps : Nat) :
    C.Evaluators (evaluateWithin steps) (evaluateWithin steps) := by
  intro size form scope scope' hform hscope m m' hm hsize
  rw [evaluateWithin_eq, evaluateWithin_eq, hdepth m m' hm]
  exact hC.evaluateLevels steps _ size form scope scope' hform hscope m m' hm hsize

theorem run (hdepth : ∀ m m', C.machines m m' → m'.depth = m.depth) (steps : Nat) :
    C.Evaluators (run steps) (run steps) := by
  induction steps with
  | zero => exact fun _ _ _ _ _ _ => .unfinished
  | succ steps ih =>
      intro size form scope scope' hform hscope
      rw [run_succ, run_succ]
      refine .bind (hC.step (hC.evaluateWithin hdepth steps) hscope hform steps) ?_
      exact fun _ _ _ _ => ih.resume

end Lawful

end Correspondence

end Lisplet
