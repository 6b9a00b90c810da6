/-
Tail positions.  A form in tail position is handed over and takes the level of the
form around it; everything else inside that form is evaluated one level deeper.
So evaluation that is handed from form to form, however often, stays at its level,
and meets the depth limit only in what it comes to last or in a part on the way.
-/
import Lisplet.Proofs.OneDeeper
import Lisplet.Proofs.StepParts
import Mathlib.Logic.Relation

namespace Lisplet

/-- A form to be evaluated, with its scope and the machine. -/
structure Situation where
  form : Value
  scope : Scope
  machine : Machine

namespace Situation

def evaluate (s : Situation) (steps : Nat) : Outcome Value :=
  evaluateWithin steps s.form s.scope s.machine

/-- Evaluate the form as a part of one that is evaluated at this depth. -/
def evaluateAsPart (s : Situation) (steps : Nat) : Outcome Value :=
  evaluateDeeper steps s.form s.scope s.machine

/-- The situation inside a nested evaluation of the form. -/
def deeper (s : Situation) : Situation :=
  { s with machine := s.machine.atDepth (s.machine.depth + 1) }

/-- The form is a special form here: no macro goes by its name, and its operands
are in their places. -/
def IsSpecial (s : Situation) (special : Special) : Prop :=
  ∃ name form operands, s.form = .list (.symbol name :: operands) ∧
    s.machine.macroCall? s.scope s.form = none ∧ SpecialForm.ofName? name = some form ∧
    form.place? operands = some special

/-- The form is a call here, and neither a macro call nor a special form. -/
def IsCall (s : Situation) (head : Value) (operands : List Value) : Prop :=
  s.form = .list (head :: operands) ∧ s.machine.macroCall? s.scope s.form = none ∧
    head.specialForm? = none

def inner (s : Situation) : Scope :=
  s.scope.enter s.machine.frames.size

def opened (s : Situation) : Machine :=
  { s.machine with frames := s.machine.frames.push [] }

end Situation

/-- The first situation hands over to the second: its parts, one level deeper, have
come to values, and the form that is left is in tail position. -/
inductive HandsOver : Situation → Situation → Prop
  | branchTrue {s condition consequent alternative steps value m₁}
      (hspecial : s.IsSpecial (.branch condition consequent alternative))
      (hcondition : evaluateDeeper steps condition s.scope s.machine = .value value m₁)
      (htruth : value.isTruthy = true) : HandsOver s ⟨consequent, s.scope, m₁⟩
  | branchFalse {s condition consequent alternative steps value m₁}
      (hspecial : s.IsSpecial (.branch condition consequent (some alternative)))
      (hcondition : evaluateDeeper steps condition s.scope s.machine = .value value m₁)
      (htruth : value.isTruthy = false) : HandsOver s ⟨alternative, s.scope, m₁⟩
  | sequence {s earlier last steps m₁} (hspecial : s.IsSpecial (.sequence (earlier ++ [last])))
      (hearlier : evaluateEach (evaluateDeeper steps) s.scope earlier s.machine = .value () m₁) :
      HandsOver s ⟨last, s.scope, m₁⟩
  | bind {s bindings body forms pairs steps m₁} (hspecial : s.IsSpecial (.bind bindings body))
      (hforms : bindingForms .bind bindings = .ok forms) (hpairs : pairs? forms = some pairs)
      (hbound : bindInTurn (evaluateDeeper steps) s.inner pairs s.opened = .value () m₁) :
      HandsOver s ⟨bodyForm body, s.inner, m₁⟩
  | call {s head operands steps code arguments m₁ body scope m₂} (hcall : s.IsCall head operands)
      (hparts : evaluateAll (evaluateDeeper steps) s.scope (head :: operands) s.machine =
        .value (.closure false code :: arguments) m₁)
      (henter : enterClosure false code arguments m₁ = .value (body, scope) m₂) :
      HandsOver s ⟨body, scope, m₂⟩
  | quasiquote {s template form} (hspecial : s.IsSpecial (.quasiquote template))
      (hform : template.argumentOf? "unquote" = some form) :
      HandsOver s ⟨form, s.scope, s.machine⟩
  | macroCall {s code arguments steps expansion m₁}
      (hmacroCall : s.machine.macroCall? s.scope s.form = some (code, arguments))
      (hexpansion : callClosure (evaluateDeeper steps) true code arguments s.machine =
        .value expansion m₁) : HandsOver s ⟨expansion, s.scope, m₁⟩

/-- The second situation is a part of the first that is not in tail position, as it is
evaluated when those before it have come to values. -/
inductive Part : Situation → Situation → Prop
  | condition {s condition consequent alternative}
      (hspecial : s.IsSpecial (.branch condition consequent alternative)) :
      Part s ⟨condition, s.scope, s.machine⟩
  | sequence {s earlier form later steps m₁}
      (hspecial : s.IsSpecial (.sequence (earlier ++ form :: later))) (hlater : later ≠ [])
      (hearlier : evaluateEach (evaluateDeeper steps) s.scope earlier s.machine = .value () m₁) :
      Part s ⟨form, s.scope, m₁⟩
  | binding {s bindings body forms earlier name form later steps m₁}
      (hspecial : s.IsSpecial (.bind bindings body))
      (hforms : bindingForms .bind bindings = .ok forms)
      (hpairs : pairs? forms = some (earlier ++ (.symbol name, form) :: later))
      (hearlier : bindInTurn (evaluateDeeper steps) s.inner earlier s.opened = .value () m₁) :
      Part s ⟨form, s.inner, m₁⟩
  /-- The head of a call, or an operand. -/
  | operand {s head operands earlier form later values steps m₁} (hcall : s.IsCall head operands)
      (hsplit : head :: operands = earlier ++ form :: later)
      (hearlier : evaluateAll (evaluateDeeper steps) s.scope earlier s.machine =
        .value values m₁) : Part s ⟨form, s.scope, m₁⟩
  | macroBody {s code arguments body scope m₁}
      (hmacroCall : s.machine.macroCall? s.scope s.form = some (code, arguments))
      (henter : enterClosure true code arguments s.machine = .value (body, scope) m₁) :
      Part s ⟨body, scope, m₁⟩

/-- The form has a tail position: it is one of the special forms that have, or a
call of a closure, or a macro call. -/
inductive IsLayer : Situation → Prop
  | branch {s condition consequent alternative}
      (hspecial : s.IsSpecial (.branch condition consequent alternative)) : IsLayer s
  | sequence {s earlier last} (hspecial : s.IsSpecial (.sequence (earlier ++ [last]))) : IsLayer s
  | bind {s bindings body forms pairs} (hspecial : s.IsSpecial (.bind bindings body))
      (hforms : bindingForms .bind bindings = .ok forms) (hpairs : pairs? forms = some pairs)
      (hnames : ∀ pair ∈ pairs, ∃ name, pair.1 = .symbol name) : IsLayer s
  | call {s head operands} (hcall : s.IsCall head operands)
      (hclosure : ∀ steps function arguments m₁,
        evaluateAll (evaluateDeeper steps) s.scope (head :: operands) s.machine =
          .value (function :: arguments) m₁ → ∃ code, function = .closure false code) : IsLayer s
  | quasiquote {s template form} (hspecial : s.IsSpecial (.quasiquote template))
      (hform : template.argumentOf? "unquote" = some form) : IsLayer s
  | macroCall {s code arguments body scope m₁}
      (hmacroCall : s.machine.macroCall? s.scope s.form = some (code, arguments))
      (henter : enterClosure true code arguments s.machine = .value (body, scope) m₁) : IsLayer s

/-- The form is a nesting of tail positions, of any height, around the hole: it is
the hole, or it has a tail position and all that it may hand over to is such a nesting. -/
inductive InTail (hole : Value) : Situation → Prop
  | hole {s} (hform : s.form = hole) : InTail hole s
  | layer {s} (hlayer : IsLayer s) (hinner : ∀ s', HandsOver s s' → InTail hole s') :
      InTail hole s

section

variable {evaluator : Evaluator} {s : Situation}

/-- A note that the form is the context of an error. -/
def Situation.note (s : Situation) (m : Machine) (cause : Error) : Error :=
  cause.inContext fun _ => m.text .readable s.form

/-- The step at the form, without a note on its errors. -/
def Situation.ownStep (s : Situation) (steps : Nat) (evaluator : Evaluator) : Outcome Step :=
  match s.form with
  | .list (head :: operands) => stepList steps evaluator s.scope head operands s.machine
  | form => step steps evaluator form s.scope s.machine

/-- A step at a list notes the list on its errors. -/
theorem step_list {head : Value} {operands : List Value} (h : s.form = .list (head :: operands))
    (steps : Nat) : step steps evaluator s.form s.scope s.machine =
      (s.ownStep steps evaluator).noted s.note := by
  rcases s with ⟨_, scope, m⟩
  dsimp only at h
  subst h
  rw [step, Eval.onError_apply]
  rfl

theorem ownStep_special {special : Special} (h : s.IsSpecial special) (steps : Nat) :
    s.ownStep steps evaluator = stepSpecial steps evaluator s.scope special s.machine := by
  rcases s with ⟨_, scope, m⟩
  obtain ⟨name, form, operands, rfl, hmacroCall, hname, hplace⟩ := h
  exact stepList_special steps hmacroCall hname hplace

theorem step_special {special : Special} (h : s.IsSpecial special) (steps : Nat) :
    step steps evaluator s.form s.scope s.machine =
      (stepSpecial steps evaluator s.scope special s.machine).noted s.note := by
  obtain ⟨name, form, operands, hform, -⟩ := id h
  rw [step_list hform, ownStep_special h]

/-- A `let*` opens a frame, binds the names and hands over its body. -/
theorem stepBind {bindings : Value} {body forms : List Value} {pairs : List (Value × Value)}
    (hforms : bindingForms .bind bindings = .ok forms) (hpairs : pairs? forms = some pairs)
    (steps : Nat) :
    stepSpecial steps evaluator s.scope (.bind bindings body) s.machine =
      (bindInTurn evaluator s.inner pairs s.opened).andThen
        fun _ => pure (.next (bodyForm body) s.inner) := by
  simp only [stepSpecial, Eval.bind_apply, hforms, Eval.ofExcept_ok, Outcome.andThen_value, hpairs]
  rfl

theorem ownStep_call {head : Value} {operands : List Value} (h : s.IsCall head operands)
    (steps : Nat) : s.ownStep steps evaluator =
      (evaluateAll evaluator s.scope (head :: operands) s.machine).andThen fun values =>
        finishCall evaluator head (values.headD .nil) values.tail := by
  rcases s with ⟨_, scope, m⟩
  obtain ⟨rfl, hmacroCall, hhead⟩ := h
  exact (stepList_call steps hmacroCall hhead).trans (stepCall_apply _ _ _ _ _)

theorem step_call {head : Value} {operands : List Value} (h : s.IsCall head operands)
    (steps : Nat) :
    step steps evaluator s.form s.scope s.machine =
      ((evaluateAll evaluator s.scope (head :: operands) s.machine).andThen fun values =>
        finishCall evaluator head (values.headD .nil) values.tail).noted s.note := by
  rw [step_list h.1, ownStep_call h]

/-- Only a list with a name at its head is a macro call. -/
theorem exists_list_of_macroCall? {m : Machine} {scope : Scope} {form : Value}
    {found : Nat × List Value} (h : m.macroCall? scope form = some found) :
    ∃ head operands, form = .list (head :: operands) := by
  unfold Machine.macroCall? at h
  split at h
  · exact ⟨_, _, rfl⟩
  · cases h

theorem ownStep_macroCall {code : Nat} {arguments : List Value}
    (h : s.machine.macroCall? s.scope s.form = some (code, arguments)) (steps : Nat) :
    s.ownStep steps evaluator = (callClosure evaluator true code arguments s.machine).map
      fun expansion => .next expansion s.scope := by
  rcases s with ⟨_, scope, m⟩
  obtain ⟨head, operands, rfl⟩ := exists_list_of_macroCall? h
  exact stepList_macroCall steps h

theorem step_macroCall {code : Nat} {arguments : List Value}
    (h : s.machine.macroCall? s.scope s.form = some (code, arguments)) (steps : Nat) :
    step steps evaluator s.form s.scope s.machine =
      ((callClosure evaluator true code arguments s.machine).map
        fun expansion => .next expansion s.scope).noted s.note := by
  obtain ⟨head, operands, hform⟩ := exists_list_of_macroCall? h
  rw [step_list hform, ownStep_macroCall h]

end

/-- The extension of a result that is a value. -/
theorem Extends.value {α : Type} {act act' : Eval α} (h : Extends act act') {m after : Machine}
    {result : α} (hvalue : act m = .value result after) : act' m = .value result after :=
  (extends_iff.mp h).of_value hvalue

theorem step_keeps_depth (steps : Nat) (s : Situation) :
    (step steps (evaluateDeeper steps) s.form s.scope s.machine).atDepth s.machine.depth =
      step steps (evaluateDeeper steps) s.form s.scope s.machine := by
  have hR := respected_agreeWhere fun _ => True
  have hevaluator := evaluateDeeper_keeps_depth steps
  exact (hR.step hevaluator (hR.expandFully hevaluator steps) s.form s.scope s.machine trivial).2

theorem Respected.callClosure {R : ⦃α : Type⦄ → Eval α → Eval α → Prop} (hR : Respected R)
    {evaluator evaluator' : Evaluator}
    (hevaluator : ∀ form scope, R (evaluator form scope) (evaluator' form scope))
    (isMacro : Bool) (code : Nat) (arguments : List Value) :
    R (callClosure evaluator isMacro code arguments)
      (callClosure evaluator' isMacro code arguments) :=
  hR.bind (hR.blind (.enterClosure _ _ _)) fun _ => hevaluator _ _

/-- What one situation hands over a step hands over. -/
theorem HandsOver.step {s s' : Situation} (h : HandsOver s s') :
    ∃ enough, ∀ steps, enough ≤ steps →
      step steps (evaluateDeeper steps) s.form s.scope s.machine =
        .value (.next s'.form s'.scope) s'.machine := by
  have hR := respected_extends
  cases h with
  | @branchTrue _ _ _ steps _ _ hspecial hcondition htruth =>
      refine ⟨steps, fun more hmore => ?_⟩
      have hcondition := (evaluateDeeper_extends hmore _ _).value hcondition
      simp only [step_special hspecial, stepSpecial, Eval.bind_apply, hcondition,
        Outcome.andThen_value, htruth, ↓reduceIte]
      rfl
  | @branchFalse _ _ _ steps _ _ hspecial hcondition htruth =>
      refine ⟨steps, fun more hmore => ?_⟩
      have hcondition := (evaluateDeeper_extends hmore _ _).value hcondition
      simp only [step_special hspecial, stepSpecial, Eval.bind_apply, hcondition,
        Outcome.andThen_value, htruth, Bool.false_eq_true, ↓reduceIte]
      rfl
  | @sequence earlier last steps _ hspecial hearlier =>
      refine ⟨steps, fun more hmore => ?_⟩
      have hearlier := (hR.evaluateEach (evaluateDeeper_extends hmore) _ _).value hearlier
      simp only [step_special hspecial, stepSpecial, List.getLast?_concat, List.dropLast_concat,
        Eval.bind_apply, hearlier]
      rfl
  | @bind _ _ _ _ steps _ hspecial hforms hpairs hbound =>
      refine ⟨steps, fun more hmore => ?_⟩
      have hbound := (hR.bindInTurn (evaluateDeeper_extends hmore) _ _).value hbound
      rw [step_special hspecial, stepBind hforms hpairs, hbound]
      rfl
  | @call _ _ steps _ _ _ _ _ _ hcall hparts henter =>
      refine ⟨steps, fun more hmore => ?_⟩
      have hparts := (hR.evaluateAll (evaluateDeeper_extends hmore) _ _).value hparts
      rw [step_call hcall, hparts]
      simp only [Outcome.andThen_value, List.headD_cons, List.tail_cons, finishCall,
        Eval.bind_apply, Eval.onError_apply, henter]
      rfl
  | quasiquote hspecial hform =>
      refine ⟨0, fun more _ => ?_⟩
      rw [step_special hspecial, stepSpecial, expandTemplate_of_unquote hform]
      rfl
  | @macroCall _ _ steps _ _ hmacroCall hexpansion =>
      refine ⟨steps, fun more hmore => ?_⟩
      have hexpansion :=
        (hR.callClosure (evaluateDeeper_extends hmore) _ _ _).value hexpansion
      rw [step_macroCall hmacroCall, hexpansion]
      rfl

theorem HandsOver.depth {s s' : Situation} (h : HandsOver s s') :
    s'.machine.depth = s.machine.depth := by
  obtain ⟨enough, henough⟩ := h.step
  have hkept := step_keeps_depth enough s
  rw [henough enough (Nat.le_refl _)] at hkept
  exact Outcome.depth_after hkept rfl

/-- To evaluate a form is to evaluate what it hands over, at the same depth. -/
theorem HandsOver.evaluate {s s' : Situation} (h : HandsOver s s')
    (hdepth : s.machine.depth < maxDepth) :
    ∃ enough, ∀ steps, enough ≤ steps → s.evaluate (steps + 1) = s'.evaluate steps := by
  obtain ⟨enough, henough⟩ := h.step
  refine ⟨enough, fun steps hsteps => ?_⟩
  rw [Situation.evaluate, evaluateWithin_succ hdepth, henough steps hsteps]
  rfl

/-- However often evaluation is handed over, it stays at its depth. -/
theorem depth_of_reaches {s s' : Situation} (h : Relation.ReflTransGen HandsOver s s') :
    s'.machine.depth = s.machine.depth := by
  induction h with
  | refl => rfl
  | tail _ hlast ih => exact hlast.depth.trans ih

/-- To evaluate a form is to evaluate what evaluation is handed over to, at the same
depth, at whatever height that is. -/
theorem evaluate_of_reaches {s s' : Situation} (h : Relation.ReflTransGen HandsOver s s')
    (hdepth : s.machine.depth < maxDepth) :
    ∃ height enough, ∀ steps, enough ≤ steps →
      s.evaluate (steps + height) = s'.evaluate steps := by
  induction h with
  | refl => exact ⟨0, 0, fun _ _ => rfl⟩
  | @tail s₁ s₂ hreaches hlast ih =>
      obtain ⟨height, enough, henough⟩ := ih
      have hdepth₁ : s₁.machine.depth < maxDepth := by
        rw [depth_of_reaches hreaches]
        exact hdepth
      obtain ⟨enough', henough'⟩ := hlast.evaluate hdepth₁
      refine ⟨height + 1, max enough enough', fun steps hsteps => ?_⟩
      rw [← henough' steps (by omega), ← henough (steps + 1) (by omega)]
      congr 1
      omega

section

variable {evaluator : Evaluator} {scope : Scope} {m : Machine}

/-- Of forms that are evaluated in turn, one is the first to hit the limit. -/
theorem evaluateEach_hits {forms : List Value}
    (h : (evaluateEach evaluator scope forms m).HitsDepthLimit) :
    ∃ earlier form later m₁, forms = earlier ++ form :: later ∧
      evaluateEach evaluator scope earlier m = .value () m₁ ∧
      (evaluator form scope m₁).HitsDepthLimit := by
  obtain ⟨cause, after, herror, hdeep⟩ := h.exists_error
  obtain ⟨earlier, form, later, m₁, hsplit, hearlier, hform⟩ := evaluateEach_eq_error_iff.mp herror
  exact ⟨earlier, form, later, m₁, hsplit, hearlier, by rw [hform]; exact hdeep⟩

theorem evaluateAll_hits {forms : List Value}
    (h : (evaluateAll evaluator scope forms m).HitsDepthLimit) :
    ∃ earlier form later values m₁, forms = earlier ++ form :: later ∧
      evaluateAll evaluator scope earlier m = .value values m₁ ∧
      (evaluator form scope m₁).HitsDepthLimit := by
  obtain ⟨cause, after, herror, hdeep⟩ := h.exists_error
  obtain ⟨earlier, form, later, values, m₁, hsplit, hearlier, hform⟩ :=
    evaluateAll_eq_error_iff.mp herror
  exact ⟨earlier, form, later, values, m₁, hsplit, hearlier, by rw [hform]; exact hdeep⟩

/-- Only values that names are bound to hit the limit. -/
theorem bindInTurn_hits {bindings : List (Value × Value)}
    (h : (bindInTurn evaluator scope bindings m).HitsDepthLimit) :
    ∃ earlier name form later m₁, bindings = earlier ++ (.symbol name, form) :: later ∧
      bindInTurn evaluator scope earlier m = .value () m₁ ∧
      (evaluator form scope m₁).HitsDepthLimit := by
  obtain ⟨cause, after, herror, hdeep⟩ := h.exists_error
  rcases bindInTurn_eq_error herror with
    ⟨earlier, name, form, later, m₁, hsplit, hearlier, hform⟩ | ⟨target, rfl⟩
  · exact ⟨earlier, name, form, later, m₁, hsplit, hearlier, by rw [hform]; exact hdeep⟩
  · obtain ⟨context, hcause⟩ := hdeep
    cases hcause

theorem bindArguments_not_tooDeep {parameters : List String} {arguments : List Value}
    {cause : Error} (h : bindArguments parameters arguments = .error cause) :
    ¬ cause.IsTooDeep := by
  rw [bindArguments] at h
  split at h
  · split at h
    · cases h
    · cases h
      rintro ⟨context, hcause⟩
      cases hcause
  · cases h
    rintro ⟨context, hcause⟩
    cases hcause
  · split at h
    · cases h
    · cases h
      rintro ⟨context, hcause⟩
      cases hcause

/-- A call that cannot be begun is not for that too deep. -/
theorem enterClosure_not_hits {isMacro : Bool} {code : Nat} {arguments : List Value} :
    ¬ (enterClosure isMacro code arguments m).HitsDepthLimit := by
  simp only [enterClosure, Eval.bind_apply, Eval.read_apply, Outcome.andThen_value]
  rcases m.closures[code]? with _ | closure
  · rintro ⟨context, hcause⟩
    cases hcause
  · dsimp only
    rw [Eval.bind_apply, Outcome.andThen_hits_iff]
    rcases hframe : bindArguments closure.parameters arguments with cause | frame
    · rintro (hcause | ⟨_, _, hvalue, -⟩)
      · exact bindArguments_not_tooDeep hframe hcause
      · cases hvalue
    · rintro (hcause | ⟨_, _, hvalue, hnone⟩)
      · exact hcause
      · cases hvalue
        exact hnone

end

theorem Error.isTooDeep_inContext_iff {cause : Error} {written : Unit → Rendering} :
    (cause.inContext written).IsTooDeep ↔ cause.IsTooDeep := by
  cases cause with
  | evaluation fault context | type fault context =>
      cases context <;> simp [inContext, IsTooDeep]
  | _ => exact Iff.rfl

theorem Error.isTooDeep_naming_iff {cause : Error} {callee : Unit → Rendering} :
    (cause.naming callee).IsTooDeep ↔ cause.IsTooDeep := by
  cases cause with
  | arity expected got callee => cases callee <;> simp [naming, IsTooDeep]
  | _ => exact Iff.rfl

theorem Situation.noted_hits_iff {α : Type} {s : Situation} {outcome : Outcome α} :
    (outcome.noted s.note).HitsDepthLimit ↔ outcome.HitsDepthLimit := by
  cases outcome with
  | error cause m => exact Error.isTooDeep_inContext_iff
  | _ => exact Iff.rfl

/-- The value of a head, and those of the operands. -/
theorem exists_cons_of_evaluateAll {evaluator : Evaluator} {scope : Scope} {m after : Machine}
    {form : Value} {forms values : List Value}
    (h : evaluateAll evaluator scope (form :: forms) m = .value values after) :
    ∃ value rest, values = value :: rest := by
  obtain ⟨value, m₁, -, hrest⟩ := Outcome.andThen_eq_value h
  obtain ⟨rest, m₂, -, hvalues⟩ := Outcome.andThen_eq_value hrest
  cases hvalues
  exact ⟨value, rest, rfl⟩

theorem finishCall_closure (evaluator : Evaluator) (head : Value) (code : Nat)
    (arguments : List Value) (m : Machine) :
    finishCall evaluator head (.closure false code) arguments m =
      ((enterClosure false code arguments m).noted fun m cause =>
        cause.naming fun _ => m.text .readable head).andThen
          fun entered => pure (.next entered.1 entered.2) := by
  rw [finishCall, Eval.bind_apply, Eval.onError_apply]

theorem finishCall_not_hits {evaluator : Evaluator} {head : Value} {code : Nat}
    {arguments : List Value} {m : Machine} :
    ¬ (finishCall evaluator head (.closure false code) arguments m).HitsDepthLimit := by
  have hbegun : ¬ (enterClosure false code arguments m).HitsDepthLimit := enterClosure_not_hits
  rw [finishCall_closure]
  generalize enterClosure false code arguments m = begun at hbegun ⊢
  rcases begun with ⟨entered, m₁⟩ | ⟨cause, m₁⟩ | _
  · exact id
  · exact fun hhits => hbegun (Error.isTooDeep_naming_iff.mp hhits)
  · exact id

/-- A step at a layer hits the limit in one of its parts. -/
theorem IsLayer.step_hits {s : Situation} (h : IsLayer s) {steps : Nat}
    (hhits : (Lisplet.step steps (evaluateDeeper steps) s.form s.scope s.machine).HitsDepthLimit) :
    ∃ part, Part s part ∧ (part.evaluateAsPart steps).HitsDepthLimit := by
  cases h with
  | @branch condition _ alternative hspecial =>
      rw [step_special hspecial, Situation.noted_hits_iff] at hhits
      simp only [stepSpecial, Eval.bind_apply] at hhits
      rcases Outcome.andThen_hits_iff.mp hhits with hcondition | ⟨value, m₁, -, hnone⟩
      · exact ⟨_, .condition hspecial, hcondition⟩
      · by_cases htruth : value.isTruthy = true
        · rw [if_pos htruth] at hnone
          exact hnone.elim
        · rw [if_neg htruth] at hnone
          cases alternative <;> exact hnone.elim
  | @sequence earlier last hspecial =>
      rw [step_special hspecial, Situation.noted_hits_iff] at hhits
      simp only [stepSpecial, List.getLast?_concat, List.dropLast_concat, Eval.bind_apply] at hhits
      rcases Outcome.andThen_hits_iff.mp hhits with hearlier | ⟨_, _, -, hnone⟩
      · obtain ⟨before, form, later, m₁, rfl, hbefore, hform⟩ := evaluateEach_hits hearlier
        rw [List.append_assoc, List.cons_append] at hspecial
        exact ⟨_, .sequence hspecial (by simp) hbefore, hform⟩
      · exact hnone.elim
  | bind hspecial hforms hpairs _ =>
      rw [step_special hspecial, Situation.noted_hits_iff, stepBind hforms hpairs] at hhits
      rcases Outcome.andThen_hits_iff.mp hhits with hbound | ⟨_, _, -, hnone⟩
      · obtain ⟨earlier, name, form, later, m₁, rfl, hearlier, hform⟩ := bindInTurn_hits hbound
        exact ⟨_, .binding hspecial hforms hpairs hearlier, hform⟩
      · exact hnone.elim
  | @call head operands hcall hclosure =>
      rw [step_call hcall, Situation.noted_hits_iff] at hhits
      rcases Outcome.andThen_hits_iff.mp hhits with hparts | ⟨values, m₁, hparts, hfinish⟩
      · obtain ⟨earlier, form, later, values, m₁, hsplit, hearlier, hform⟩ :=
          evaluateAll_hits hparts
        exact ⟨_, .operand hcall hsplit hearlier, hform⟩
      · obtain ⟨function, arguments, rfl⟩ := exists_cons_of_evaluateAll hparts
        obtain ⟨code, rfl⟩ := hclosure _ _ _ _ hparts
        exact (finishCall_not_hits hfinish).elim
  | quasiquote hspecial _ =>
      rw [step_special hspecial, Situation.noted_hits_iff] at hhits
      exact hhits.elim
  | macroCall hmacroCall _ =>
      rw [step_macroCall hmacroCall, Situation.noted_hits_iff, Outcome.map] at hhits
      rcases Outcome.andThen_hits_iff.mp hhits with hexpansion | ⟨_, _, -, hnone⟩
      · rw [callClosure, Eval.bind_apply] at hexpansion
        rcases Outcome.andThen_hits_iff.mp hexpansion with henter | ⟨entered, m₁, henter, hbody⟩
        · exact (enterClosure_not_hits henter).elim
        · exact ⟨_, .macroBody hmacroCall henter, hbody⟩
      · exact hnone.elim

theorem IsLayer.handsOver {s : Situation} (h : IsLayer s) {steps : Nat} {form : Value}
    {scope : Scope} {m₁ : Machine}
    (hstep : Lisplet.step steps (evaluateDeeper steps) s.form s.scope s.machine =
      .value (.next form scope) m₁) : HandsOver s ⟨form, scope, m₁⟩ := by
  cases h with
  | @branch condition _ alternative hspecial =>
      rw [step_special hspecial] at hstep
      have hown := Outcome.noted_eq_value hstep.symm
      simp only [stepSpecial, Eval.bind_apply] at hown
      obtain ⟨value, m₂, hcondition, htail⟩ := Outcome.andThen_eq_value hown
      by_cases htruth : value.isTruthy = true
      · rw [if_pos htruth] at htail
        cases htail
        exact .branchTrue hspecial hcondition htruth
      · rw [if_neg htruth] at htail
        rcases alternative with _ | other
        · cases htail
        · cases htail
          exact .branchFalse hspecial hcondition (Bool.not_eq_true _ ▸ htruth)
  | @sequence earlier last hspecial =>
      rw [step_special hspecial] at hstep
      have hown := Outcome.noted_eq_value hstep.symm
      simp only [stepSpecial, List.getLast?_concat, List.dropLast_concat, Eval.bind_apply] at hown
      obtain ⟨_, m₂, hearlier, htail⟩ := Outcome.andThen_eq_value hown
      cases htail
      exact .sequence hspecial hearlier
  | bind hspecial hforms hpairs _ =>
      rw [step_special hspecial, stepBind hforms hpairs] at hstep
      obtain ⟨_, m₂, hbound, htail⟩ := Outcome.andThen_eq_value (Outcome.noted_eq_value hstep.symm)
      cases htail
      exact .bind hspecial hforms hpairs hbound
  | @call head operands hcall hclosure =>
      rw [step_call hcall] at hstep
      obtain ⟨values, m₂, hparts, hfinish⟩ :=
        Outcome.andThen_eq_value (Outcome.noted_eq_value hstep.symm)
      obtain ⟨function, arguments, rfl⟩ := exists_cons_of_evaluateAll hparts
      obtain ⟨code, rfl⟩ := hclosure _ _ _ _ hparts
      rw [List.headD_cons, List.tail_cons, finishCall_closure] at hfinish
      obtain ⟨entered, m₃, henter, htail⟩ := Outcome.andThen_eq_value hfinish
      cases htail
      exact .call hcall hparts (Outcome.noted_eq_value henter.symm)
  | quasiquote hspecial hform =>
      rw [step_special hspecial, stepSpecial, expandTemplate_of_unquote hform] at hstep
      cases hstep
      exact .quasiquote hspecial hform
  | macroCall hmacroCall _ =>
      rw [step_macroCall hmacroCall] at hstep
      obtain ⟨expansion, hexpansion, hnext⟩ :=
        Outcome.map_eq_value (Outcome.noted_eq_value hstep.symm)
      cases hnext
      exact .macroCall hmacroCall hexpansion

/-- A layer has a part, or it hands over at once. -/
theorem IsLayer.part_or_handsOver {s : Situation} (h : IsLayer s) :
    (∃ s', HandsOver s s') ∨ ∃ part, Part s part := by
  cases h with
  | branch hspecial => exact .inr ⟨_, .condition hspecial⟩
  | @sequence earlier last hspecial =>
      have hfirst : evaluateEach (evaluateDeeper 0) s.scope [] s.machine = .value () s.machine :=
        rfl
      rcases earlier with _ | ⟨form, forms⟩
      · exact .inl ⟨_, .sequence hspecial hfirst⟩
      · rw [← List.nil_append (form :: forms ++ [last]), List.cons_append] at hspecial
        exact .inr ⟨_, .sequence hspecial (by simp) hfirst⟩
  | @bind bindings body forms pairs hspecial hforms hpairs hnames =>
      have hfirst : bindInTurn (evaluateDeeper 0) s.inner [] s.opened = .value () s.opened := rfl
      rcases pairs with _ | ⟨⟨target, form⟩, pairs⟩
      · exact .inl ⟨_, .bind hspecial hforms hpairs hfirst⟩
      · obtain ⟨name, htarget⟩ := hnames _ List.mem_cons_self
        dsimp only at htarget
        subst htarget
        rw [← List.nil_append ((.symbol name, form) :: pairs)] at hpairs
        exact .inr ⟨_, .binding hspecial hforms hpairs hfirst⟩
  | @call head operands hcall _ =>
      have hfirst : evaluateAll (evaluateDeeper 0) s.scope [] s.machine = .value [] s.machine := rfl
      exact .inr ⟨_, .operand hcall (List.nil_append (head :: operands)).symm hfirst⟩
  | quasiquote hspecial hform => exact .inl ⟨_, .quasiquote hspecial hform⟩
  | macroCall hmacroCall henter => exact .inr ⟨_, .macroBody hmacroCall henter⟩

/-- Parts are evaluated from the depth of the form that they are parts of. -/
theorem Part.depth {s part : Situation} (h : Part s part) :
    part.machine.depth = s.machine.depth := by
  have hR := respected_agreeWhere fun _ => True
  have hevaluator := evaluateDeeper_keeps_depth
  cases h with
  | condition => rfl
  | @sequence earlier _ _ steps _ _ _ hearlier =>
      exact (hR.evaluateEach (hevaluator steps) s.scope earlier).depth_of_value hearlier
  | @binding _ _ _ earlier _ _ _ steps _ _ _ _ hearlier =>
      have hbound := hR.bindInTurn (hevaluator steps) s.inner earlier
      exact (hbound.depth_of_value hearlier : _ = s.opened.depth)
  | @operand _ _ earlier _ _ _ steps _ _ _ hearlier =>
      exact (hR.evaluateAll (hevaluator steps) s.scope earlier).depth_of_value hearlier
  | @macroBody code arguments _ _ _ _ henter =>
      exact (hR.blind (.enterClosure true code arguments)).depth_of_value henter

/-- A layer that hits the limit does so in what it hands over or in a part. -/
theorem IsLayer.hits {s : Situation} (h : IsLayer s) {steps : Nat}
    (hhits : (s.evaluate steps).HitsDepthLimit) :
    (∃ s', HandsOver s s' ∧ ∃ steps, (s'.evaluate steps).HitsDepthLimit) ∨
      ∃ part, Part s part ∧ ∃ steps, (part.evaluateAsPart steps).HitsDepthLimit := by
  by_cases hdepth : s.machine.depth < maxDepth
  · rcases steps with _ | steps
    · rw [Situation.evaluate, evaluateWithin_zero hdepth] at hhits
      exact hhits.elim
    · rw [Situation.evaluate, evaluateWithin_succ hdepth] at hhits
      rcases Outcome.andThen_hits_iff.mp hhits with hstep | ⟨ended, m₁, hstep, hrest⟩
      · obtain ⟨part, hpart, hhits⟩ := h.step_hits hstep
        exact .inr ⟨part, hpart, steps, hhits⟩
      · rcases ended with value | ⟨form, scope⟩
        · exact hrest.elim
        · exact .inl ⟨_, h.handsOver hstep, steps, hrest⟩
  · -- At the limit whatever comes next hits it.
    rcases h.part_or_handsOver with ⟨s', hs'⟩ | ⟨part, hpart⟩
    · have hdepth' : ¬ s'.machine.depth < maxDepth := by
        rw [hs'.depth]
        exact hdepth
      exact .inl ⟨s', hs', 0, nested_hitsDepthLimit (run 0 s'.form s'.scope) hdepth'⟩
    · have hdepth' : ¬ part.machine.depth < maxDepth := by
        rw [hpart.depth]
        exact hdepth
      exact .inr ⟨part, hpart, 0,
        nested_hitsDepthLimit (evaluateWithin 0 part.form part.scope) hdepth'⟩

/-- Tail positions cost no depth.  Where evaluation is handed from tail position to
tail position, it stays at its depth, and the first form comes to what the last comes
to there.  So a nesting of tail positions around a hole hits the depth limit only
if the hole does, evaluated at the same depth where evaluation gets to it, or a part
on the way that is not in tail position, evaluated one level deeper. -/
theorem tail_positions_cost_no_depth (s : Situation) :
    (∀ s', Relation.ReflTransGen HandsOver s s' → s'.machine.depth = s.machine.depth ∧
      (s.machine.depth < maxDepth → ∃ height enough, ∀ steps, enough ≤ steps →
        s.evaluate (steps + height) = s'.evaluate steps)) ∧
    ∀ hole steps, InTail hole s → (s.evaluate steps).HitsDepthLimit →
      ∃ s', Relation.ReflTransGen HandsOver s s' ∧
        ((s'.form = hole ∧ ∃ steps, (s'.evaluate steps).HitsDepthLimit) ∨
          ∃ part, Part s' part ∧ part.machine.depth = s.machine.depth ∧
            ∃ steps, (part.evaluateAsPart steps).HitsDepthLimit) := by
  constructor
  · intro s' hreaches
    exact ⟨depth_of_reaches hreaches, evaluate_of_reaches hreaches⟩
  · intro hole steps htail hhits
    induction htail generalizing steps with
    | @hole s hform => exact ⟨s, .refl, .inl ⟨hform, steps, hhits⟩⟩
    | @layer s hlayer hinner ih =>
        rcases hlayer.hits hhits with ⟨s₁, hs₁, more, hhits⟩ | ⟨part, hpart, hhits⟩
        · obtain ⟨s', hs', hends⟩ := ih s₁ hs₁ more hhits
          rw [hs₁.depth] at hends
          exact ⟨s', .head hs₁ hs', hends⟩
        · exact ⟨s, .refl, .inr ⟨part, hpart, hpart.depth, hhits⟩⟩

/-- What is handed over is determined. -/
theorem HandsOver.unique {s first second : Situation} (hfirst : HandsOver s first)
    (hsecond : HandsOver s second) : second = first := by
  obtain ⟨enough, henough⟩ := hfirst.step
  obtain ⟨enough', henough'⟩ := hsecond.step
  have hstep := henough (max enough enough') (Nat.le_max_left _ _)
  rw [henough' (max enough enough') (Nat.le_max_right _ _)] at hstep
  cases first
  cases second
  cases hstep
  rfl

theorem InTail.of_handsOver {hole : Value} {s s' : Situation} (hlayer : IsLayer s)
    (h : HandsOver s s') (hinner : InTail hole s') : InTail hole s := by
  refine .layer hlayer fun other hother => ?_
  rw [h.unique hother]
  exact hinner

/-- The form that is left in the end, which nests two evaluations. -/
def wrapped : Value := .vector [.vector [.symbol "y"]]

/-- A `let*` around it that binds the name. -/
def letWrapped : Value := .list [.symbol "let*", .list [.symbol "y", .symbol "x"], wrapped]

/-- This `let*` in a `do`, two levels below the limit. -/
def letInDo : Situation where
  form := .list [.symbol "do", letWrapped]
  scope := ⟨0, []⟩
  machine := { Machine.fresh noFiles with frames := #[[("x", .number 1)]], depth := 4094 }

/-- Where evaluation gets to in the end, with a frame of its own. -/
def insideLet : Situation where
  form := wrapped
  scope := ⟨1, [0]⟩
  machine :=
    { letInDo.machine with frames := letInDo.machine.frames.push [("y", .number 1)] }

/-- There is room for the nesting itself and for the binding, which is a part of it, but not
for the inner vector, which is what hits the limit. -/
theorem tail_positions_cost_no_depth_letInDo :
    (∃ height enough, ∀ steps, enough ≤ steps →
      letInDo.evaluate (steps + height) = insideLet.evaluate steps) ∧
    ∃ s', Relation.ReflTransGen HandsOver letInDo s' ∧
      ((s'.form = wrapped ∧ ∃ steps, (s'.evaluate steps).HitsDepthLimit) ∨
        ∃ part, Part s' part ∧ part.machine.depth = 4094 ∧
          ∃ steps, (part.evaluateAsPart steps).HitsDepthLimit) := by
  have hdo : letInDo.IsSpecial (.sequence ([] ++ [letWrapped])) := ⟨_, _, _, rfl, rfl, rfl, rfl⟩
  have hearlier : evaluateEach (evaluateDeeper 0) letInDo.scope [] letInDo.machine =
      .value () letInDo.machine := rfl
  have hsequence := HandsOver.sequence hdo hearlier
  have hlet : Situation.IsSpecial ⟨letWrapped, letInDo.scope, letInDo.machine⟩
      (.bind (.list [.symbol "y", .symbol "x"]) [wrapped]) := ⟨_, _, _, rfl, rfl, rfl, rfl⟩
  have hbind : HandsOver _ insideLet := @HandsOver.bind _ _ _ _ _ 1 _ hlet rfl rfl rfl
  refine ⟨((tail_positions_cost_no_depth letInDo).1 insideLet
    (.tail (.single hsequence) hbind)).2 (by decide), ?_⟩
  refine (tail_positions_cost_no_depth letInDo).2 wrapped 4 ?_ (by decide +kernel)
  exact .of_handsOver (.sequence hdo) hsequence
    (.of_handsOver (.bind hlet rfl rfl (by simp)) hbind (.hole rfl))

end Lisplet
