/-
Expanding first.  The loop of `macroexpand` and the steps of an evaluation expand
the same macro calls in the same order, each from the machine that the one before
has left.  So a form that has been expanded goes on as the form itself would have,
and where a macro fails both end with its error.
-/
import Lisplet.Proofs.CallRules
import Lisplet.Proofs.ErrorMessage
import Lisplet.Proofs.RootScope
import Lisplet.Proofs.TailContexts

namespace Lisplet

open Relation

/-- The form that asks for the expansion of a form. -/
def expansionOf (form : Value) : Value :=
  .list [.symbol SpecialForm.macroExpand.name, form]

/-- The first situation is at a macro call, which is expanded to the form of the second. -/
inductive Expands (evaluator : Evaluator) : Situation → Situation → Prop
  | intro {s code arguments expansion m₁}
      (hmacroCall : s.machine.macroCall? s.scope s.form = some (code, arguments))
      (hexpansion : callClosure evaluator true code arguments s.machine = .value expansion m₁) :
      Expands evaluator s ⟨expansion, s.scope, m₁⟩

/-- What a macro call is expanded to is what evaluation hands it over to. -/
theorem reaches_of_expands {steps : Nat} {s s' : Situation}
    (h : ReflTransGen (Expands (evaluateDeeper steps)) s s') : ReflTransGen HandsOver s s' := by
  refine ReflTransGen.mono ?_ s s' h
  rintro s _ ⟨hmacroCall, hexpansion⟩
  exact .macroCall hmacroCall hexpansion

section

variable {steps count : Nat} {form expanded : Value} {scope : Scope} {m m' : Machine}
  {cause : Error}

theorem expandFully_of_none {evaluator : Evaluator} (h : m.macroCall? scope form = none)
    (count : Nat) : expandFully evaluator (count + 1) form scope m = .value form m := by
  rw [expandFully, Eval.bind_apply, expandOnce_of_none h]
  rfl

theorem expandFully_of_some {evaluator : Evaluator} {code : Nat} {arguments : List Value}
    (h : m.macroCall? scope form = some (code, arguments)) (count : Nat) :
    expandFully evaluator (count + 1) form scope m =
      (callClosure evaluator true code arguments m).andThen fun expansion =>
        expandFully evaluator count expansion scope := by
  rw [expandFully, Eval.bind_apply, expandOnce_of_some h]
  cases callClosure evaluator true code arguments m <;> rfl

theorem expandFully_expands {evaluator : Evaluator}
    (h : expandFully evaluator count form scope m = .value expanded m') :
    ReflTransGen (Expands evaluator) ⟨form, scope, m⟩ ⟨expanded, scope, m'⟩ ∧
      m'.macroCall? scope expanded = none := by
  induction count generalizing form m with
  | zero => cases h
  | succ count ih =>
      rcases hmacroCall : m.macroCall? scope form with _ | ⟨code, arguments⟩
      · rw [expandFully_of_none hmacroCall] at h
        cases h
        exact ⟨.refl, hmacroCall⟩
      · rw [expandFully_of_some hmacroCall] at h
        obtain ⟨expansion, m₁, hexpansion, hrest⟩ := Outcome.andThen_eq_value h
        obtain ⟨hexpands, hnone⟩ := ih hrest
        exact ⟨.head (.intro hmacroCall hexpansion) hexpands, hnone⟩

/-- An expansion that fails gets to the macro call that does. -/
theorem expandFully_fails {evaluator : Evaluator}
    (h : expandFully evaluator count form scope m = .error cause m') :
    ∃ s code arguments, ReflTransGen (Expands evaluator) ⟨form, scope, m⟩ s ∧
      s.machine.macroCall? s.scope s.form = some (code, arguments) ∧
      callClosure evaluator true code arguments s.machine = .error cause m' := by
  induction count generalizing form m with
  | zero => cases h
  | succ count ih =>
      rcases hmacroCall : m.macroCall? scope form with _ | ⟨code, arguments⟩
      · rw [expandFully_of_none hmacroCall] at h
        cases h
      · rw [expandFully_of_some hmacroCall, Outcome.andThen_eq_error_iff] at h
        rcases h with hfails | ⟨expansion, m₁, hexpansion, hrest⟩
        · exact ⟨_, code, arguments, .refl, hmacroCall, hfails⟩
        · obtain ⟨s, code', arguments', hexpands, hfails⟩ := ih hrest
          exact ⟨s, code', arguments', .head (.intro hmacroCall hexpansion) hexpands, hfails⟩

/-- Macro calls that are expanded on the way are expanded by the loop. -/
theorem expandFully_of_expands {evaluator : Evaluator} {s s' : Situation}
    (h : ReflTransGen (Expands evaluator) s s') :
    ∃ height, ∀ count, expandFully evaluator (count + height) s.form s.scope s.machine =
      expandFully evaluator count s'.form s'.scope s'.machine := by
  induction h with
  | refl => exact ⟨0, fun _ => rfl⟩
  | tail _ hlast ih =>
      obtain ⟨height, hheight⟩ := ih
      obtain ⟨hmacroCall, hexpansion⟩ := hlast
      refine ⟨height + 1, fun count => ?_⟩
      rw [Nat.add_comm height, ← Nat.add_assoc, hheight, expandFully_of_some hmacroCall, hexpansion]
      rfl

/-- Evaluating `(macroexpand form)` is expanding the form, one level deeper. -/
theorem evaluate_expansionOf
    (hname : ∀ code, m.lookup? scope SpecialForm.macroExpand.name ≠ some (.closure true code))
    (hdepth : m.depth < maxDepth) (steps : Nat) :
    evaluateWithin (steps + 1) (expansionOf form) scope m =
      (expandFully (evaluateDeeper steps) steps form scope m).noted
        (Situation.note ⟨expansionOf form, scope, m⟩) := by
  have hspecial : Situation.IsSpecial ⟨expansionOf form, scope, m⟩ (.macroExpand form) :=
    ⟨_, _, _, rfl, macroCall?_eq_none hname, SpecialForm.ofName?_name _, rfl⟩
  have hstep := @step_special (evaluateDeeper steps) _ _ hspecial steps
  rw [stepSpecial_macroExpand] at hstep
  rw [evaluateWithin_succ hdepth, hstep]
  cases expandFully (evaluateDeeper steps) steps form scope m <;> rfl

/-- A macro call ends with the error that its macro ends with, and the call as context. -/
theorem Situation.evaluate_of_macroFails {s : Situation} {code : Nat} {arguments : List Value}
    (hdepth : s.machine.depth < maxDepth)
    (hmacroCall : s.machine.macroCall? s.scope s.form = some (code, arguments))
    (hfails : callClosure (evaluateDeeper steps) true code arguments s.machine = .error cause m')
    {more : Nat} (hmore : steps ≤ more) :
    s.evaluate (more + 1) = .error (s.note m' cause) m' := by
  have hfails := Prolongs.of_error
    (respected_prolongs.callClosure (evaluateDeeper_prolongs hmore) true code arguments) hfails
  rw [Situation.evaluate, evaluateWithin_succ hdepth, step_macroCall hmacroCall, hfails]
  rfl

/-- Expanding a form first and evaluating it directly agree, where `macroexpand` names
no macro.  If the expansion comes to a form, then evaluating the form ends as evaluating
its expansion does from the machine that is left, at the same depth; and the expansion
is no macro call there, so that expanding it again does nothing.  If the expansion
fails, evaluating the form fails with the same error, except that the list form in
which it arose may be another, and leaves the same machine.  What is written of that
list may have no end, in which case the program does not come back with the error. -/
theorem expanding_first_agrees (form : Value) (scope : Scope) (m : Machine)
    (hname : ∀ code, m.lookup? scope SpecialForm.macroExpand.name ≠ some (.closure true code))
    (steps : Nat) :
    (∀ expanded m', evaluateWithin steps (expansionOf form) scope m = .value expanded m' →
      m'.depth = m.depth ∧
      (∃ height enough, ∀ steps, enough ≤ steps →
        evaluateWithin (steps + height) form scope m = evaluateWithin steps expanded scope m') ∧
      m'.macroCall? scope expanded = none ∧
      macroExpand expanded scope m' = .value expanded m' ∧
      ((∀ code, m'.lookup? scope SpecialForm.macroExpand.name ≠ some (.closure true code)) →
        ∀ steps, evaluateWithin (steps + 2) (expansionOf expanded) scope m' =
          .value expanded m')) ∧
    ∀ cause m', evaluateWithin steps (expansionOf form) scope m = .error cause m' →
      ∃ cause', cause'.withoutContext = cause.withoutContext ∧
        ∃ enough, ∀ steps, enough ≤ steps →
          evaluateWithin steps form scope m = .error cause' m' := by
  by_cases hdepth : m.depth < maxDepth
  · rcases steps with _ | steps
    · simp [evaluateWithin_zero hdepth]
    · rw [evaluate_expansionOf hname hdepth]
      refine ⟨fun expanded m' hvalue => ?_, fun cause m' herror => ?_⟩
      · obtain ⟨hexpands, hnone⟩ := expandFully_expands (Outcome.noted_eq_value hvalue.symm)
        have hreaches := reaches_of_expands hexpands
        have hdepth' : m'.depth = m.depth := depth_of_reaches hreaches
        refine ⟨hdepth', evaluate_of_reaches hreaches hdepth, hnone, expandFully_of_none hnone _,
          fun hname' steps => ?_⟩
        rw [evaluate_expansionOf hname' (hdepth'.trans_lt hdepth), expandFully_of_none hnone]
        rfl
      · obtain ⟨own, hown, rfl⟩ := Outcome.noted_eq_error herror
        obtain ⟨s, code, arguments, hexpands, hmacroCall, hfails⟩ := expandFully_fails hown
        have hreaches := reaches_of_expands hexpands
        obtain ⟨height, enough, henough⟩ := evaluate_of_reaches hreaches hdepth
        have hdepth' : s.machine.depth < maxDepth := by
          rw [depth_of_reaches hreaches]
          exact hdepth
        refine ⟨s.note m' own, ?_, max steps enough + 1 + height, fun more hmore => ?_⟩
        · rw [Situation.note, Situation.note, Error.withoutContext_inContext,
            Error.withoutContext_inContext]
        · obtain ⟨rest, rfl⟩ : ∃ rest, more = rest + 1 + height := ⟨more - 1 - height, by omega⟩
          have hcall := s.evaluate_of_macroFails hdepth' hmacroCall hfails
            (by omega : steps ≤ rest)
          rw [← henough (rest + 1) (by omega)] at hcall
          exact hcall
  · -- At the limit nothing is evaluated, neither the form nor its expansion.
    have hlimit : ∀ steps form, evaluateWithin steps form scope m =
        .error (.evaluation .tooDeep none) m := fun steps form => nested_of_not_lt _ hdepth
    refine ⟨fun expanded m' hvalue => ?_, fun cause m' herror => ?_⟩
    · rw [hlimit] at hvalue
      cases hvalue
    · rw [hlimit] at herror
      cases herror
      exact ⟨_, rfl, 0, fun steps _ => hlimit steps form⟩

end

def condCall : Value := .list [.symbol "cond", .bool false, .number 1]

/-- A call of `cond` with a test that has no form after it. -/
def brokenCondCall : Value := .list [.symbol "cond", .bool false]

/-- At the beginning of a run the first is expanded and the expansion of the second fails. -/
theorem expanding_first_agrees_condCall :
    (∃ expanded m', evaluateWithin 10 (expansionOf condCall) ⟨0, []⟩ (rootMachine noFiles) =
        .value expanded m' ∧
      ∃ height enough, ∀ steps, enough ≤ steps →
        evaluateWithin (steps + height) condCall ⟨0, []⟩ (rootMachine noFiles) =
          evaluateWithin steps expanded ⟨0, []⟩ m') ∧
    ∃ cause m', evaluateWithin 10 (expansionOf brokenCondCall) ⟨0, []⟩ (rootMachine noFiles) =
        .error cause m' ∧
      ∃ cause', cause'.withoutContext = cause.withoutContext ∧ ∃ enough, ∀ steps, enough ≤ steps →
        evaluateWithin steps brokenCondCall ⟨0, []⟩ (rootMachine noFiles) = .error cause' m' := by
  have hname : ∀ code, (rootMachine noFiles).lookup? ⟨0, []⟩ SpecialForm.macroExpand.name ≠
      some (.closure true code) := by
    have hnone : (rootMachine noFiles).lookup? ⟨0, []⟩ SpecialForm.macroExpand.name = none := rfl
    rw [hnone]
    nofun
  constructor
  · obtain ⟨expanded, m', hvalue⟩ : ∃ expanded m', evaluateWithin 10 (expansionOf condCall)
        ⟨0, []⟩ (rootMachine noFiles) = .value expanded m' :=
      Outcome.exists_of_isValue (by decide +kernel)
    have hagrees := expanding_first_agrees condCall ⟨0, []⟩ (rootMachine noFiles) hname 10
    exact ⟨expanded, m', hvalue, (hagrees.1 expanded m' hvalue).2.1⟩
  · obtain ⟨cause, m', herror⟩ : ∃ cause m', evaluateWithin 10 (expansionOf brokenCondCall)
        ⟨0, []⟩ (rootMachine noFiles) = .error cause m' :=
      Outcome.exists_of_isError (by decide +kernel)
    have hagrees := expanding_first_agrees brokenCondCall ⟨0, []⟩ (rootMachine noFiles) hname 10
    exact ⟨cause, m', herror, hagrees.2 cause m' herror⟩

end Lisplet
