/-
Evaluation one level deeper.  From inside a nested evaluation the forms that a
step evaluates are nested once more.  So an evaluation that has entered its level
is a step whose parts are evaluated one level deeper, followed by the evaluation,
at its own level, of the form that the step hands over.
-/
import Lisplet.Proofs.DepthAccounting
import Lisplet.Proofs.DepthLimit

namespace Lisplet

variable {α β : Type}

/-- Evaluate a form as deep as the parts of a form are that is evaluated here. -/
def evaluateDeeper (steps : Nat) : Evaluator :=
  fun form scope => .nested (evaluateWithin steps form scope)

/-- More steps change nothing that has settled. -/
theorem evaluateWithin_extends {steps steps' : Nat} (hsteps : steps ≤ steps') (form : Value)
    (scope : Scope) : Extends (evaluateWithin steps form scope)
      (evaluateWithin steps' form scope) := by
  intro m hsettled
  rw [evaluateWithin_eq] at hsettled
  rw [evaluateWithin_eq, evaluateWithin_eq]
  exact evaluateLevels_extends hsteps (Nat.le_refl _) form scope m hsettled

theorem Outcome.endsIn_leave {sort : Error → Prop} {outcome : Outcome α} :
    outcome.leave.EndsIn sort ↔ outcome.EndsIn sort := by
  cases outcome <;> exact Iff.rfl

theorem Persists.nested {sort : Error → Prop} {act act' : Eval α} (h : Persists sort act act') :
    Persists sort act.nested act'.nested := by
  intro m hends
  by_cases hdepth : m.depth < maxDepth
  · rw [nested_of_lt act hdepth] at hends
    rw [nested_of_lt act' hdepth, nested_of_lt act hdepth, h _ (Outcome.endsIn_leave.mp hends)]
  · rw [nested_of_not_lt _ hdepth, nested_of_not_lt _ hdepth]

theorem Extends.nested {act act' : Eval α} (h : Extends act act') :
    Extends act.nested act'.nested :=
  extends_iff.mpr (extends_iff.mp h).nested

theorem evaluateDeeper_extends {steps steps' : Nat} (hsteps : steps ≤ steps') (form : Value)
    (scope : Scope) : Extends (evaluateDeeper steps form scope)
      (evaluateDeeper steps' form scope) :=
  (evaluateWithin_extends hsteps form scope).nested

/-- More steps change nothing that has ended, at the limit or not. -/
theorem evaluateWithin_prolongs {steps steps' : Nat} (hsteps : steps ≤ steps') (form : Value)
    (scope : Scope) : Prolongs (evaluateWithin steps form scope)
      (evaluateWithin steps' form scope) := by
  intro m hends
  rw [evaluateWithin_eq] at hends
  rw [evaluateWithin_eq, evaluateWithin_eq]
  exact evaluateLevels_prolongs hsteps _ form scope m hends

/-- An evaluation that fails within few steps fails in the same way in all that there are. -/
theorem evaluate_of_error {steps : Nat} {form : Value} {scope : Scope} {m after : Machine}
    {cause : Error} (hsteps : steps ≤ unlimited)
    (h : evaluateWithin steps form scope m = .error cause after) :
    evaluate form scope m = .error cause after := by
  rw [evaluate]
  exact Prolongs.of_error (evaluateWithin_prolongs hsteps form scope) h

theorem evaluateDeeper_prolongs {steps steps' : Nat} (hsteps : steps ≤ steps') (form : Value)
    (scope : Scope) : Prolongs (evaluateDeeper steps form scope)
      (evaluateDeeper steps' form scope) :=
  Persists.nested (evaluateWithin_prolongs hsteps form scope)

/-- With one level taken, what is evaluated deeper is evaluated in the levels left. -/
theorem evaluateDeeper_agrees {depth levels : Nat} (hlevels : depth + 1 + levels = maxDepth)
    (steps : Nat) (form : Value) (scope : Scope) :
    AgreeWhere (· = depth) (evaluateLevels steps levels form scope)
      (evaluateDeeper steps form scope) := by
  rintro m rfl
  have hblind := blind_evaluateLevels steps levels form scope
  refine ⟨nested_eq_of_blind hblind (by omega) ?_, hblind.atDepth_self m⟩
  rw [evaluateWithin_eq, Machine.depth_atDepth, show maxDepth - (m.depth + 1) = levels by omega]

/-- An evaluation below the limit is a step, with its parts one level deeper, and
what follows the step at the same level. -/
theorem evaluateWithin_succ {m : Machine} (hdepth : m.depth < maxDepth) (steps : Nat)
    (form : Value) (scope : Scope) :
    evaluateWithin (steps + 1) form scope m =
      (step steps (evaluateDeeper steps) form scope m).andThen
        (resume (evaluateWithin steps)) := by
  obtain ⟨levels, hlevels⟩ := Nat.exists_eq_add_of_lt hdepth
  have hR := respected_agreeWhere (· = m.depth)
  have hevaluator := evaluateDeeper_agrees (show m.depth + 1 + levels = maxDepth by omega) steps
  have hresume : ∀ form scope, AgreeWhere (· = m.depth) (runLevels steps levels form scope)
      (evaluateWithin steps form scope) := by
    rintro form scope after hafter
    refine ⟨?_, (blind_runLevels steps levels form scope).atDepth_self after⟩
    rw [evaluateWithin_eq, hafter, show maxDepth - m.depth = levels + 1 by omega]
    rfl
  rw [evaluateWithin_eq, show maxDepth - m.depth = levels + 1 by omega]
  have hstep := hR.step hevaluator (hR.expandFully hevaluator steps) form scope
  exact ((hR.bind hstep (hR.resume hresume)) m rfl).1.symm

/-- Below the limit, without steps, an evaluation does not end. -/
theorem evaluateWithin_zero {m : Machine} (hdepth : m.depth < maxDepth) (form : Value)
    (scope : Scope) : evaluateWithin 0 form scope m = .unfinished :=
  nested_of_lt (run 0 form scope) hdepth

theorem nested_hitsDepthLimit (act : Eval α) {m : Machine} (hdepth : ¬ m.depth < maxDepth) :
    (act.nested m).HitsDepthLimit := by
  rw [nested_of_not_lt act hdepth]
  exact ⟨none, rfl⟩

/-- The depth is afterwards what it was before. -/
theorem evaluateDeeper_keeps_depth (steps : Nat) (form : Value) (scope : Scope) :
    AgreeWhere (fun _ => True) (evaluateDeeper steps form scope)
      (evaluateDeeper steps form scope) := by
  intro m _
  refine ⟨rfl, ?_⟩
  by_cases hdepth : m.depth < maxDepth
  · obtain ⟨levels, hlevels⟩ := Nat.exists_eq_add_of_lt hdepth
    obtain ⟨heq, hkept⟩ := evaluateDeeper_agrees (show m.depth + 1 + levels = maxDepth by omega)
      steps form scope m rfl
    rw [heq, hkept]
  · rw [evaluateDeeper, nested_of_not_lt _ hdepth]
    rfl

/-- An action that leaves the counter as it was leaves it so when it comes to a result. -/
theorem AgreeWhere.depth_of_value {act act' : Eval α} (h : AgreeWhere (fun _ => True) act act')
    {m after : Machine} {result : α} (hvalue : act m = .value result after) :
    after.depth = m.depth := by
  have hkept := (h m trivial).2
  rw [hvalue] at hkept
  exact Outcome.depth_after hkept rfl

end Lisplet
