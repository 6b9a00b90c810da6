/-
Running out of levels.  With fewer levels an evaluation does what it does with
more, or it ends with the error of the depth limit: no other error and no value
comes of there being too few.
-/
import Lisplet.Proofs.Trampoline

namespace Lisplet

open Filter

variable {α β : Type}

/-- The outcome is the error of the depth limit. -/
def Outcome.HitsDepthLimit : Outcome α → Prop
  | .error cause _ => cause.IsTooDeep
  | _ => False

instance (outcome : Outcome α) : Decidable outcome.HitsDepthLimit :=
  match outcome with
  | .error cause _ => inferInstanceAs (Decidable cause.IsTooDeep)
  | .value _ _ | .unfinished => .isFalse id

theorem Outcome.HitsDepthLimit.exists_error {outcome : Outcome α} (h : outcome.HitsDepthLimit) :
    ∃ cause after, outcome = .error cause after ∧ cause.IsTooDeep := by
  cases outcome with
  | error cause after => exact ⟨cause, after, rfl, h⟩
  | value | unfinished => exact h.elim

/-- Two actions in a row hit the limit in the first, or in the second after the first. -/
theorem Outcome.andThen_hits_iff {outcome : Outcome α} {next : α → Eval β} :
    (outcome.andThen next).HitsDepthLimit ↔ outcome.HitsDepthLimit ∨
      ∃ result m, outcome = .value result m ∧ (next result m).HitsDepthLimit := by
  rcases outcome with ⟨result, m⟩ | ⟨cause, m⟩ | _
  · simp [HitsDepthLimit]
  · simp [HitsDepthLimit]
  · simp [HitsDepthLimit]

theorem Outcome.HitsDepthLimit.noted {outcome : Outcome α} (h : outcome.HitsDepthLimit)
    {note : Machine → Error → Error} (hnote : Mild note) :
    (outcome.noted note).HitsDepthLimit := by
  rcases outcome with ⟨result, m⟩ | ⟨cause, m⟩ | _
  · exact h.elim
  · exact hnote.tooDeep m cause h
  · exact h.elim

/-- The first action does what the second does, or hits the limit. -/
def AgreesOrHits (act act' : Eval α) : Prop :=
  ∀ m, act m = act' m ∨ (act m).HitsDepthLimit

theorem respected_agreesOrHits : Respected fun _ act act' => AgreesOrHits act act' where
  blind _ _ := .inl rfl
  bind := by
    intro α β act act' next next' hact hnext m
    rw [Eval.bind_apply, Eval.bind_apply]
    rcases hact m with heq | hhits
    · rw [heq]
      rcases act' m with ⟨result, after⟩ | ⟨cause, after⟩ | _
      · exact hnext result after
      · exact .inl rfl
      · exact .inl rfl
    · exact .inr (Outcome.andThen_hits_iff.mpr (.inl hhits))
  onError := by
    intro α act act' note hact hnote m
    rw [Eval.onError_apply, Eval.onError_apply]
    rcases hact m with heq | hhits
    · exact .inl (by rw [heq])
    · exact .inr (hhits.noted hnote)

/-- If runs agree on each form as far as the levels go, so do evaluations. -/
theorem deeper_agreesOrHits {evaluators evaluators' : Nat → Evaluator} {levels levels' : Nat}
    (h : ∀ {levels levels'}, levels ≤ levels' → ∀ form scope,
      AgreesOrHits (evaluators levels form scope) (evaluators' levels' form scope))
    (hlevels : levels ≤ levels') (form : Value) (scope : Scope) :
    AgreesOrHits (deeper evaluators levels form scope) (deeper evaluators' levels' form scope) := by
  cases levels with
  | zero => exact fun m => .inr ⟨none, rfl⟩
  | succ levels =>
      obtain ⟨below, rfl⟩ : ∃ below, levels' = below + 1 := ⟨levels' - 1, by omega⟩
      exact h (Nat.le_of_succ_le_succ hlevels) form scope

theorem runLevels_agreesOrHits {levels levels' : Nat} (steps : Nat) (hlevels : levels ≤ levels')
    (form : Value) (scope : Scope) :
    AgreesOrHits (runLevels steps levels form scope) (runLevels steps levels' form scope) := by
  induction steps generalizing levels levels' form scope with
  | zero => exact fun _ => .inl rfl
  | succ steps ih =>
      have hR := respected_agreesOrHits
      have hevaluator := deeper_agreesOrHits ih hlevels
      have hstep := hR.step hevaluator (hR.expandFully hevaluator steps) form scope
      exact hR.bind hstep (hR.resume (ih hlevels))

/-- Too few levels make an evaluation hit the limit, and do nothing else to it. -/
theorem evaluateLevels_agreesOrHits {levels levels' : Nat} (steps : Nat)
    (hlevels : levels ≤ levels') (form : Value) (scope : Scope) :
    AgreesOrHits (evaluateLevels steps levels form scope)
      (evaluateLevels steps levels' form scope) :=
  deeper_agreesOrHits (runLevels_agreesOrHits steps) hlevels form scope

/-- What the rules derive within any number of levels is what evaluation comes to,
unless it hits the limit. -/
theorem Evaluates.eventually_or_hits {n : Nat} {form : Value} {scope : Scope} {m : Machine}
    {outcome : Outcome Value} (h : Evaluates n form scope m outcome) :
    ∃ enough, ∀ steps, enough ≤ steps → evaluateWithin steps form scope m = outcome ∨
      (evaluateWithin steps form scope m).HitsDepthLimit := by
  obtain ⟨enough, henough⟩ :=
    eventually_atTop.mp (h.complete (Nat.le_max_left n (maxDepth - m.depth)))
  refine ⟨enough, fun steps hsteps => ?_⟩
  rw [evaluateWithin_eq, ← henough steps hsteps]
  exact evaluateLevels_agreesOrHits steps (Nat.le_max_right n _) form scope m

end Lisplet
