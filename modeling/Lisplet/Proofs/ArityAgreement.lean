/-
Arities and the operations that they are declared for.  How many arguments an operation takes
is said twice, by its arity, which is checked first, and by the patterns of its body, which
has a way out of its own for other counts.  The two agree: whatever stands on the way out,
calls and steps come to the same, so it is never taken.
-/
import Lisplet.Proofs.FailingParts
import Lisplet.Proofs.OwnRule

namespace Lisplet

section Chunks

variable {α : Type}

/-- The items in chunks of the size; items that are left over at the end are dropped. -/
def chunksExact (size : Nat) (items : List α) : List (List α) :=
  if 0 < size ∧ size ≤ items.length then
    items.take size :: chunksExact size (items.drop size)
  else []
termination_by items.length
decreasing_by
  rw [List.length_drop]
  omega

theorem chunksExact_two_cons (first second : α) (items : List α) :
    chunksExact 2 (first :: second :: items) = [first, second] :: chunksExact 2 items := by
  rw [chunksExact, if_pos (by simp)]
  rfl

end Chunks

/-- Forms cannot be taken two by two when their number is odd. -/
theorem pairs?_eq_none_iff {forms : List Value} : pairs? forms = none ↔ forms.length % 2 ≠ 0 := by
  induction forms using pairs?.induct with
  | case1 => simp [pairs?]
  | case2 form => simp [pairs?]
  | case3 first second forms ih =>
      rw [pairs?, Option.map_eq_none_iff, ih, List.length_cons, List.length_cons,
        Nat.add_assoc, Nat.add_mod_right]

/-- The pairs are the chunks of two. -/
theorem chunksExact_of_pairs? {forms : List Value} {pairs : List (Value × Value)}
    (h : pairs? forms = some pairs) :
    chunksExact 2 forms = pairs.map fun pair => [pair.1, pair.2] := by
  induction forms using pairs?.induct generalizing pairs with
  | case1 =>
      cases h
      rw [chunksExact, if_neg (by simp), List.map_nil]
  | case2 form => cases h
  | case3 first second forms ih =>
      rw [pairs?, Option.map_eq_some_iff] at h
      obtain ⟨others, hothers, rfl⟩ := h
      rw [chunksExact_two_cons, ih hothers, List.map_cons]

/-- Evaluate the bindings of a `let*` chunk by chunk.  A chunk that is no pair goes the way
`unreachable`. -/
def bindChunks (unreachable : Eval Unit) (evaluator : Evaluator) (scope : Scope) :
    List (List Value) → Eval Unit
  | [] => return ()
  | [.symbol name, form] :: chunks => do
      let value ← evaluator form scope
      .define scope name value
      bindChunks unreachable evaluator scope chunks
  | [other, _] :: _ => .fail (.unmet .bindingName other)
  | _ => unreachable

theorem bindChunks_pairs (unreachable : Eval Unit) (evaluator : Evaluator) (scope : Scope)
    (pairs : List (Value × Value)) :
    bindChunks unreachable evaluator scope (pairs.map fun pair => [pair.1, pair.2]) =
      bindInTurn evaluator scope pairs := by
  induction pairs with
  | nil => rfl
  | cons pair pairs ih =>
      obtain ⟨target, form⟩ := pair
      cases target with
      | symbol name =>
          rw [List.map_cons, bindChunks, bindInTurn, ih]
      | _ => rfl

/-- The step of a `let*` that checks that the number of forms is even and then takes them
chunk by chunk. -/
def bindByChunks (unreachable : Eval Unit) (evaluator : Evaluator) (scope : Scope)
    (bindings : Value) (body : List Value) : Eval Step := do
  let forms ← .ofExcept (bindingForms .bind bindings)
  if forms.length % 2 ≠ 0 then .fail (.evaluation .unpairedBindings none)
  else
    let frame ← .newFrame []
    let inner := scope.enter frame
    bindChunks unreachable evaluator inner (chunksExact 2 forms)
    return .next (bodyForm body) inner

/-- Every chunk is a pair. -/
theorem bindByChunks_eq (unreachable : Eval Unit) (steps : Nat) (evaluator : Evaluator)
    (scope : Scope) (bindings : Value) (body : List Value) :
    bindByChunks unreachable evaluator scope bindings body =
      stepSpecial steps evaluator scope (.bind bindings body) := by
  rw [bindByChunks, stepSpecial]
  refine congrArg _ (funext fun forms => ?_)
  rcases hpairs : pairs? forms with _ | pairs
  · rw [if_pos (pairs?_eq_none_iff.mp hpairs)]
  · have heven : ¬ forms.length % 2 ≠ 0 := by
      rw [← pairs?_eq_none_iff, hpairs]
      nofun
    rw [if_neg heven, chunksExact_of_pairs? hpairs]
    simp only [bindChunks_pairs]

/-- What a special form does with operands that it has places for; with others it refuses in
its own way. -/
def SpecialForm.handle (form : SpecialForm) (refusal : Eval Step) (unreachable : Eval Unit)
    (steps : Nat) (evaluator : Evaluator) (scope : Scope) (operands : List Value) : Eval Step :=
  match form.place? operands with
  | some (.bind bindings body) => bindByChunks unreachable evaluator scope bindings body
  | some special => stepSpecial steps evaluator scope special
  | none => refusal

/-- The step of a special form whose operands are counted before it gets them. -/
def SpecialForm.checkedStep (form : SpecialForm) (refusal : Eval Step) (unreachable : Eval Unit)
    (steps : Nat) (evaluator : Evaluator) (scope : Scope) (operands : List Value) : Eval Step :=
  if form.arity.accepts operands.length then
    form.handle refusal unreachable steps evaluator scope operands
  else .fail (.arity form.arity operands.length (some (some form.name)))

/-- What an operation does with arguments of which its body can make use; others it refuses
in its own way. -/
def Operation.body (refusal : Eval Value) (evaluator : Evaluator) :
    Operation → List Value → Eval Value
  | .primitive p, arguments => (p.call? arguments).getD refusal
  | .swap, target :: updater :: others => do
      let cell ← .ofExcept (target.toCell "swap!")
      let content ← .content cell
      let result ← apply evaluator updater (content :: others)
      .replace cell result
      return result
  | .evaluate root, [form] => evaluator form root
  | .countArguments _, arguments => return .number (.ofNat arguments.length)
  | _, _ => refusal

/-- The call of a native function whose arguments are counted before its operation gets
them. -/
def Native.checkedCall (native : Native) (refusal : Eval Value) (evaluator : Evaluator)
    (arguments : List Value) : Eval Value :=
  if native.operation.arity.accepts arguments.length then
    native.operation.body refusal evaluator arguments
  else .fail (.arity native.operation.arity arguments.length none)

/-- The places for operands are those that the arity counts. -/
theorem exists_place?_of_accepts {form : SpecialForm} {operands : List Value}
    (haccepts : form.arity.accepts operands.length = true) :
    ∃ special, form.place? operands = some special ∧ special.operands = operands := by
  rw [← place?_isSome, Option.isSome_iff_exists] at haccepts
  obtain ⟨special, hplace⟩ := haccepts
  exact ⟨special, hplace, operands_of_place? hplace⟩

/-- Whatever a handler would do with other operands, and with a chunk that is no pair, the
step of a special form is the same. -/
theorem checkedStep_eq (form : SpecialForm) (refusal : Eval Step) (unreachable : Eval Unit)
    (steps : Nat) (evaluator : Evaluator) (scope : Scope) (operands : List Value) :
    form.checkedStep refusal unreachable steps evaluator scope operands =
      form.ownStep steps evaluator scope operands := by
  by_cases haccepts : form.arity.accepts operands.length = true
  · obtain ⟨special, hplace, -⟩ := exists_place?_of_accepts haccepts
    rw [SpecialForm.checkedStep, if_pos haccepts, SpecialForm.handle, SpecialForm.ownStep, hplace]
    cases special with
    | bind bindings body => exact bindByChunks_eq unreachable steps evaluator scope bindings body
    | _ => rfl
  · have hplace : form.place? operands = none := by
      rw [← place?_isSome, Bool.not_eq_true, Option.isSome_eq_false_iff,
        Option.isNone_iff_eq_none] at haccepts
      exact haccepts
    rw [SpecialForm.checkedStep, if_neg haccepts, SpecialForm.ownStep, hplace]

/-- Whatever a body would do with other arguments, the call of a native function is the
same. -/
theorem checkedCall_eq (native : Native) (refusal : Eval Value) (evaluator : Evaluator)
    (arguments : List Value) :
    native.checkedCall refusal evaluator arguments =
      apply evaluator (.native native) arguments := by
  by_cases haccepts : native.operation.arity.accepts arguments.length = true
  · rw [Native.checkedCall, if_pos haccepts]
    rcases hoperation : native.operation with p | _ | root | arity
    · rw [hoperation, Operation.arity, ← call?_isSome, Option.isSome_iff_exists] at haccepts
      obtain ⟨act, hcall⟩ := haccepts
      rw [apply_primitive evaluator hoperation hcall, Operation.body, hcall, Option.getD_some]
    · rw [hoperation] at haccepts
      rcases arguments with _ | ⟨target, _ | ⟨updater, others⟩⟩
      · cases haccepts
      · cases haccepts
      · rw [apply_swap evaluator hoperation, Operation.body]
    · rw [hoperation] at haccepts
      obtain ⟨form, rfl⟩ : ∃ form, arguments = [form] :=
        List.length_eq_one_iff.mp (beq_iff_eq.mp haccepts)
      rw [apply_evaluate evaluator form hoperation, Operation.body]
    · rw [hoperation] at haccepts
      rw [apply_countArguments evaluator hoperation haccepts]
      rfl
  · rw [Native.checkedCall, if_neg haccepts, apply_wrongCount evaluator (by simpa using haccepts),
      wrongCount]

/-- A special form complains of a count in its own name and before it does anything, or it
has got its operands, and the complaint comes from inside. -/
theorem stepList_arity {form : SpecialForm} {operands : List Value} {steps : Nat}
    {evaluator : Evaluator} {scope : Scope} {m after : Machine} {expected : Arity} {got : Nat}
    {callee : Option Rendering}
    (hname : ∀ code, m.lookup? scope form.name ≠ some (.closure true code))
    (h : stepList steps evaluator scope (.symbol form.name) operands m =
      .error (.arity expected got callee) after) :
    (form.arity.accepts operands.length = false ∧ expected = form.arity ∧
      got = operands.length ∧ callee = some (some form.name) ∧ after = m) ∨
    Situation.PartFails ⟨form.on operands, scope, m⟩ evaluator
      (.arity expected got callee) after ∨
    form = .macroExpand ∧ ∃ code arguments m₁,
      enterClosure true code arguments m₁ = .error (.arity expected got callee) after := by
  rw [SpecialForm.stepList_eq_ownStep hname] at h
  rcases hplace : form.place? operands with _ | special
  · have hplaced := place?_isSome form operands
    rw [hplace] at hplaced
    rw [SpecialForm.ownStep, hplace] at h
    cases h
    exact .inl ⟨hplaced.symm, rfl, rfl, rfl, rfl⟩
  · have hspecial : Situation.IsSpecial ⟨form.on operands, scope, m⟩ special :=
      ⟨form.name, form, operands, rfl, macroCall?_eq_none hname, SpecialForm.ofName?_name form,
        hplace⟩
    rw [SpecialForm.ownStep, hplace] at h
    rcases stepSpecial_error hspecial h with hpart | hown
    · exact .inr (.inl hpart)
    · obtain ⟨⟨expanded, rfl⟩, hmacro⟩ := hown.arity trivial
      refine .inr (.inr ⟨?_, hmacro⟩)
      unfold SpecialForm.place? at hplace
      split at hplace <;> cases hplace
      rfl

/-- Arities and bodies agree.  A native function does the same whatever its body would do
with a count that its arity refuses, and so does a special form, also whatever it would do
with bindings that are left over from the pairs.  A special form that refuses a count names
itself and leaves the machine as it was, whatever would have evaluated its operands; any
other complaint of a count comes from a form inside that the step comes to, or from a macro
that `macroexpand` calls. -/
theorem arities_agree_with_bodies :
    (∀ (native : Native) (refusal : Eval Value) (evaluator : Evaluator) (arguments : List Value),
      apply evaluator (.native native) arguments =
        native.checkedCall refusal evaluator arguments) ∧
    (∀ (form : SpecialForm) (operands : List Value),
      form.arity.accepts operands.length = true →
        ∃ special, form.place? operands = some special ∧ special.operands = operands) ∧
    ∀ (form : SpecialForm) (operands : List Value) (steps : Nat) (evaluator : Evaluator)
      (scope : Scope) (m : Machine),
      (∀ code, m.lookup? scope form.name ≠ some (.closure true code)) →
      (∀ refusal unreachable,
        stepList steps evaluator scope (.symbol form.name) operands m =
          form.checkedStep refusal unreachable steps evaluator scope operands m) ∧
      (form.arity.accepts operands.length = false →
        stepList steps evaluator scope (.symbol form.name) operands m =
          .error (.arity form.arity operands.length (some (some form.name))) m) ∧
      ∀ expected got callee after,
        stepList steps evaluator scope (.symbol form.name) operands m =
          .error (.arity expected got callee) after →
        (form.arity.accepts operands.length = false ∧ expected = form.arity ∧
          got = operands.length ∧ callee = some (some form.name) ∧ after = m) ∨
        Situation.PartFails ⟨form.on operands, scope, m⟩ evaluator
          (.arity expected got callee) after ∨
        form = .macroExpand ∧ ∃ code arguments m₁,
          enterClosure true code arguments m₁ = .error (.arity expected got callee) after := by
  refine ⟨?_, fun form operands haccepts => exists_place?_of_accepts haccepts, ?_⟩
  · intro native refusal evaluator arguments
    exact (checkedCall_eq native refusal evaluator arguments).symm
  · intro form operands steps evaluator scope m hname
    refine ⟨fun refusal unreachable => ?_, fun hrefuses => ?_,
      fun _ _ _ _ h => stepList_arity hname h⟩
    · rw [SpecialForm.stepList_eq_ownStep hname, checkedStep_eq]
    · rw [SpecialForm.stepList_eq_ownStep hname, ← checkedStep_eq form .unfinished .unfinished,
        SpecialForm.checkedStep, hrefuses]
      rfl

/-- The operands of an `if` whose condition is an `if` without operands. -/
def bareCondition : List Value :=
  [.list [.symbol "if"], .number 1]

/-- An `if` without operands complains in its own name, also from inside of another; a `let*`
with operands has places for them. -/
theorem arities_agree_with_bodies_bareBranch :
    stepList 3 (evaluateWithin 3) ⟨0, []⟩ (.symbol "if") [] (rootMachine noFiles) =
        .error (.arity (.between 2 3) 0 (some (some "if"))) (rootMachine noFiles) ∧
      Situation.PartFails ⟨SpecialForm.branch.on bareCondition, ⟨0, []⟩, rootMachine noFiles⟩
        (evaluateWithin 3) (.arity (.between 2 3) 0 (some (some "if"))) (rootMachine noFiles) ∧
      ∃ special, SpecialForm.bind.place? [.vector [], .number 1] = some special ∧
        special.operands = [.vector [], .number 1] := by
  obtain ⟨-, hplaces, hsteps⟩ := arities_agree_with_bodies
  have hname : ∀ code, (rootMachine noFiles).lookup? ⟨0, []⟩ SpecialForm.branch.name ≠
      some (.closure true code) := by
    have hnone : (rootMachine noFiles).lookup? ⟨0, []⟩ SpecialForm.branch.name = none := rfl
    rw [hnone]
    nofun
  have hbranch (operands : List Value) :=
    (hsteps .branch operands 3 (evaluateWithin 3) ⟨0, []⟩ (rootMachine noFiles) hname).2
  refine ⟨(hbranch []).1 rfl, ?_, hplaces .bind [.vector [], .number 1] rfl⟩
  have hfails : stepList 3 (evaluateWithin 3) ⟨0, []⟩ (.symbol "if") bareCondition
      (rootMachine noFiles) =
        .error (.arity (.between 2 3) 0 (some (some "if"))) (rootMachine noFiles) := rfl
  obtain ⟨haccepts, -⟩ | hpart | ⟨hform, -⟩ := (hbranch bareCondition).2 _ _ _ _ hfails
  · cases haccepts
  · exact hpart
  · cases hform

end Lisplet
