/-
The loop over steps and the big-step rules.  Evaluation hands over the forms in
tail position and loops; the rules recur in every position.  They agree: what
the loop returns the rules derive, and nothing else, except for the error of
the depth limit; and what the rules derive within the levels that are left the
loop returns.
-/
import Lisplet.Proofs.BigStepComplete
import Lisplet.Proofs.BigStepSound

namespace Lisplet

open Filter

/-- The rules derive at most one outcome, within however many levels. -/
theorem Evaluates.unique {n n' : Nat} {form : Value} {scope : Scope} {m : Machine}
    {outcome outcome' : Outcome Value} (h : Evaluates n form scope m outcome)
    (h' : Evaluates n' form scope m outcome') : outcome' = outcome := by
  have hfirst := h.complete (Nat.le_max_left n n')
  have hsecond := h'.complete (Nat.le_max_right n n')
  obtain ⟨steps, hsteps, hsteps'⟩ := (hfirst.and hsecond).exists
  rw [← hsteps, hsteps']

/-- Evaluation from any machine, in any scope and at any depth, against the
rules: an outcome that is not the depth limit's is the one the rules derive;
and a derivation within the levels that the counter leaves is what evaluation
returns, given the steps that it takes. -/
theorem evaluation_refines_bigStep (form : Value) (scope : Scope) (m : Machine) :
    (∀ steps, (evaluateWithin steps form scope m).Settled →
      Evaluates (maxDepth - m.depth) form scope m (evaluateWithin steps form scope m) ∧
      ∀ n outcome, Evaluates n form scope m outcome →
        outcome = evaluateWithin steps form scope m) ∧
    ∀ n outcome, Evaluates n form scope m outcome → m.depth + n ≤ maxDepth →
      ∃ enough, ∀ steps, enough ≤ steps → evaluateWithin steps form scope m = outcome := by
  constructor
  · intro steps hsettled
    rw [evaluateWithin_eq] at hsettled ⊢
    have hderived := evaluateLevels_sound steps _ form scope m hsettled
    exact ⟨hderived, fun n outcome h => hderived.unique h⟩
  · intro n outcome h hroom
    have hlevels : n ≤ maxDepth - m.depth := by omega
    obtain ⟨enough, henough⟩ := eventually_atTop.mp (h.complete hlevels)
    refine ⟨enough, fun steps hsteps => ?_⟩
    rw [evaluateWithin_eq]
    exact henough steps hsteps

/-- A binding, a branch in its tail, and a vector in the tail of the branch. -/
def bindAndBranch : Value :=
  .list [.symbol "let*", .list [.symbol "x", .number 1],
    .list [.symbol "if", .symbol "x", .vector [.symbol "x", .symbol "x"]]]

/-- The rules derive what evaluation returns in four steps, and within the
levels of a fresh machine their derivation is what evaluation returns. -/
theorem evaluation_refines_bigStep_bindAndBranch :
    Evaluates maxDepth bindAndBranch ⟨0, []⟩ (.fresh noFiles)
      (evaluateWithin 4 bindAndBranch ⟨0, []⟩ (.fresh noFiles)) ∧
    ∃ enough, ∀ steps, enough ≤ steps →
      evaluateWithin steps bindAndBranch ⟨0, []⟩ (.fresh noFiles) =
        evaluateWithin 4 bindAndBranch ⟨0, []⟩ (.fresh noFiles) := by
  have hderived : Evaluates (maxDepth - 0) bindAndBranch ⟨0, []⟩ (.fresh noFiles)
      (evaluateWithin 4 bindAndBranch ⟨0, []⟩ (.fresh noFiles)) := by
    refine ((evaluation_refines_bigStep bindAndBranch ⟨0, []⟩ (.fresh noFiles)).1 4 ?_).1
    decide +kernel
  rw [Nat.sub_zero] at hderived
  refine ⟨hderived, (evaluation_refines_bigStep bindAndBranch ⟨0, []⟩ (.fresh noFiles)).2
    maxDepth _ hderived ?_⟩
  exact Nat.le_of_eq (Nat.zero_add maxDepth)

end Lisplet
