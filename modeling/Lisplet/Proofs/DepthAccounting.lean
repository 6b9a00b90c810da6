/-
The account of the depth counter.  Whatever an evaluation comes to, it leaves
the counter as it found it; the counter never passes the limit on the way; and
an outcome that is not the limit's own is the same from every lower count.
-/
import Lisplet.Proofs.Levels

namespace Lisplet

variable {α : Type}

theorem Outcome.depth_after {outcome : Outcome α} {depth : Nat} {after : Machine}
    (hkept : outcome.atDepth depth = outcome) (hafter : outcome.after? = some after) :
    after.depth = depth := by
  cases outcome with
  | value result m | error cause m =>
      cases hafter
      injection hkept with _ hm
      exact (congrArg Machine.depth hm).symm
  | unfinished => cases hafter

/-- Perform an action under watch: with the counter above the ceiling it is not
even begun, and the alarm is raised instead. -/
def Eval.watched (ceiling : Nat) (alarm : Error) (act : Eval α) : Eval α :=
  fun m => if m.depth ≤ ceiling then act m else .error alarm m

/-- Evaluate a form as `run` does, with every step under watch, those of nested
evaluations among them. -/
def runWatched (ceiling : Nat) (alarm : Error) : (steps : Nat) → Evaluator
  | 0, _, _ => .unfinished
  | steps + 1, form, scope =>
      .watched ceiling alarm
        (step steps (fun form scope => .nested (runWatched ceiling alarm steps form scope))
          form scope >>= resume (runWatched ceiling alarm steps))

/-- Evaluate a form one level deeper, with every step under watch. -/
def evaluateWatched (ceiling : Nat) (alarm : Error) (steps : Nat) : Evaluator :=
  fun form scope => .nested (runWatched ceiling alarm steps form scope)

/-- If a watched action does what another does wherever the counter is at most
at the limit, then so do the nested ones wherever the counter is. -/
theorem nested_watched_eq {act act' : Eval α}
    (hact : AgreeWhere (· ≤ maxDepth) act act') (m : Machine) :
    act'.nested m = act.nested m := by
  by_cases hdepth : m.depth < maxDepth
  · have heq := (hact (m.atDepth (m.depth + 1)) hdepth).1
    rw [nested_of_lt act' hdepth, nested_of_lt act hdepth, heq]
  · rw [nested_of_not_lt _ hdepth, nested_of_not_lt _ hdepth]

theorem evaluateWithin_atDepth_self (steps : Nat) (form : Value) (scope : Scope) (m : Machine) :
    (evaluateWithin steps form scope m).atDepth m.depth = evaluateWithin steps form scope m := by
  rw [evaluateWithin_eq]
  exact (blind_evaluateLevels steps _ form scope).atDepth_self m

/-- Under watch for the depth limit, runs that begin within it are as always. -/
theorem runWatched_agrees (alarm : Error) (steps : Nat) (form : Value) (scope : Scope) :
    AgreeWhere (· ≤ maxDepth) (run steps form scope)
      (runWatched maxDepth alarm steps form scope) := by
  induction steps generalizing form scope with
  | zero => exact fun m _ => ⟨rfl, rfl⟩
  | succ steps ih =>
      have hR := respected_agreeWhere (· ≤ maxDepth)
      have hevaluator : ∀ form scope, AgreeWhere (· ≤ maxDepth)
          (evaluateWithin steps form scope)
          (Eval.nested (runWatched maxDepth alarm steps form scope)) := fun form scope m _ =>
        ⟨nested_watched_eq (ih form scope) m, evaluateWithin_atDepth_self steps form scope m⟩
      have hexpand := hR.expandFully hevaluator steps
      intro m hdepth
      rw [run_succ, runWatched, Eval.watched, if_pos hdepth]
      exact hR.bind (hR.step hevaluator hexpand form scope) (hR.resume ih) m hdepth

/-- The counter on return is the counter on entry.  It never passes the limit in
between: the alarm of a watch for it, whatever error that is, is never raised.
And an outcome other than the limit's does not depend on how much room there
was: started from any lower count, the evaluation ends in the same way, with the
same machine but for the counter. -/
theorem evaluation_keeps_account_of_depth (steps : Nat) (form : Value) (scope : Scope)
    (m : Machine) :
    (∀ after, (evaluateWithin steps form scope m).after? = some after →
      after.depth = m.depth) ∧
    (∀ alarm, evaluateWatched maxDepth alarm steps form scope m =
      evaluateWithin steps form scope m) ∧
    ((evaluateWithin steps form scope m).Settled → ∀ lower, lower ≤ m.depth →
      evaluateWithin steps form scope (m.atDepth lower) =
        (evaluateWithin steps form scope m).atDepth lower) := by
  refine ⟨fun after hafter => ?_, fun alarm => ?_, fun hsettled lower hlower => ?_⟩
  · exact Outcome.depth_after (evaluateWithin_atDepth_self steps form scope m) hafter
  · exact nested_watched_eq (runWatched_agrees alarm steps form scope) m
  · -- A lower count leaves more levels, and more levels change nothing that has settled.
    rw [evaluateWithin_eq] at hsettled
    have hroom : maxDepth - m.depth ≤ maxDepth - lower := by omega
    rw [evaluateWithin_eq, evaluateWithin_eq, Machine.depth_atDepth,
      blind_evaluateLevels steps _ form scope m lower,
      evaluateLevels_extends (Nat.le_refl steps) hroom form scope m hsettled]

/-- An update of an atom by a function, which nests two evaluations in the call. -/
def wrapContent : Value :=
  .list [.native ⟨"swap!", .swap, 0⟩, .atom 0,
    .list [.symbol "fn*", .list [.symbol "x"], .vector [.symbol "x"]]]

/-- Three levels below the limit there is just room for the update, and from
an unused counter it ends in the same way. -/
theorem evaluation_keeps_account_of_depth_wrapContent :
    (evaluateWithin 3 wrapContent ⟨0, []⟩ ((Machine.fresh noFiles).atDepth 4093)).Settled ∧
    evaluateWithin 3 wrapContent ⟨0, []⟩ (((Machine.fresh noFiles).atDepth 4093).atDepth 0) =
      (evaluateWithin 3 wrapContent ⟨0, []⟩ ((Machine.fresh noFiles).atDepth 4093)).atDepth 0 := by
  constructor
  · decide +kernel
  · refine (evaluation_keeps_account_of_depth 3 wrapContent ⟨0, []⟩ _).2.2 ?_ 0 (Nat.zero_le _)
    decide +kernel

-- A watch for one level less does raise its alarm.
example : ¬ (evaluateWatched 4095 (.evaluation .tooDeep none) 3 wrapContent ⟨0, []⟩
    ((Machine.fresh noFiles).atDepth 4093)).Settled := by
  decide +kernel

end Lisplet
