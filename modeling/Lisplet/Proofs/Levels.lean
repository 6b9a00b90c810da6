/-
Evaluation by levels.  The depth counter goes up when a nested evaluation is
entered and down when it is left, so that all one step sees of it is how many
levels are left.  With that number as an argument the counter can be forgotten:
an evaluation by levels is blind to it, and agrees with the evaluation that
counts.
-/
import Lisplet.Proofs.Respected

namespace Lisplet

variable {α β : Type}

/-- Evaluate a form one level deeper, if there is one left. -/
def deeper (evaluators : Nat → Evaluator) : Nat → Evaluator
  | 0, _, _ => .fail (.evaluation .tooDeep none)
  | levels + 1, form, scope => evaluators levels form scope

/-- Evaluate a form within so many steps and with so many levels left below it. -/
def runLevels : (steps levels : Nat) → Evaluator
  | 0, _, _, _ => .unfinished
  | steps + 1, levels, form, scope =>
      step steps (deeper (runLevels steps) levels) form scope >>= resume (runLevels steps levels)

/-- Evaluate a form within so many steps and levels, its own level among them. -/
def evaluateLevels (steps levels : Nat) : Evaluator :=
  deeper (runLevels steps) levels

theorem runLevels_succ (steps levels : Nat) (form : Value) (scope : Scope) (m : Machine) :
    runLevels (steps + 1) levels form scope m =
      (step steps (evaluateLevels steps levels) form scope m).andThen
        (resume (runLevels steps levels)) := rfl

/-- Evaluation by levels neither reads nor changes the counter. -/
theorem blind_runLevels (steps levels : Nat) (form : Value) (scope : Scope) :
    Blind (runLevels steps levels form scope) := by
  induction steps generalizing levels form scope with
  | zero => exact .unfinished
  | succ steps ih =>
      have hevaluator : ∀ form scope, deeper (runLevels steps) levels form scope =
          deeper (runLevels steps) levels form scope ∧
            Blind (deeper (runLevels steps) levels form scope) := by
        intro form scope
        cases levels with
        | zero => exact ⟨rfl, .fail _⟩
        | succ levels => exact ⟨rfl, ih levels form scope⟩
      have hexpand := respected_blind.expandFully hevaluator steps
      have hstep := (respected_blind.step hevaluator hexpand form scope).2
      refine hstep.bind ?_
      intro ended
      rcases ended with value | ⟨form, scope⟩
      · exact .pure value
      · exact ih levels form scope

theorem blind_evaluateLevels (steps levels : Nat) (form : Value) (scope : Scope) :
    Blind (evaluateLevels steps levels form scope) := by
  cases levels with
  | zero => exact .fail _
  | succ levels => exact blind_runLevels steps levels form scope

/-- The two actions do the same on a machine whose counter is fit, and leave
the counter as it was. -/
def AgreeWhere (fit : Nat → Prop) (act act' : Eval α) : Prop :=
  ∀ m, fit m.depth → act' m = act m ∧ (act m).atDepth m.depth = act m

theorem respected_agreeWhere (fit : Nat → Prop) :
    Respected fun _ act act' => AgreeWhere fit act act' where
  blind hact m _ := ⟨rfl, hact.atDepth_self m⟩
  bind := by
    intro α β act act' next next' hact hnext m hfit
    obtain ⟨heq, hkept⟩ := hact m hfit
    rw [Eval.bind_apply, Eval.bind_apply, heq]
    rcases houtcome : act m with ⟨result, after⟩ | ⟨cause, after⟩ | _
    · have hdepth : after.depth = m.depth := by
        rw [houtcome] at hkept
        injection hkept with _ hafter
        exact (congrArg Machine.depth hafter).symm
      rw [← hdepth]
      exact hnext result after (hdepth ▸ hfit)
    · rw [houtcome] at hkept
      injection hkept with _ hafter
      exact ⟨rfl, congrArg (Outcome.error _) hafter⟩
    · exact ⟨rfl, rfl⟩
  onError := by
    intro α act act' note hact _ m hfit
    obtain ⟨heq, hkept⟩ := hact m hfit
    rw [Eval.onError_apply, Eval.onError_apply, heq]
    rcases houtcome : act m with ⟨result, after⟩ | ⟨cause, after⟩ | _
    · rw [houtcome] at hkept
      exact ⟨rfl, hkept⟩
    · rw [houtcome] at hkept
      injection hkept with _ hafter
      exact ⟨rfl, congrArg (Outcome.error _) hafter⟩
    · exact ⟨rfl, rfl⟩

/-- At the limit no nested evaluation is entered. -/
theorem nested_of_not_lt (act : Eval α) {m : Machine} (hdepth : ¬ m.depth < maxDepth) :
    act.nested m = .error (.evaluation .tooDeep none) m :=
  if_neg hdepth

/-- The outcome of a nested evaluation that has been left, with the counter down by one. -/
def Outcome.leave : Outcome α → Outcome α
  | .value result m => .value result (m.atDepth (m.depth - 1))
  | .error cause m => .error cause (m.atDepth (m.depth - 1))
  | .unfinished => .unfinished

/-- Below the limit the counter goes up on entry and down on the way out. -/
theorem nested_of_lt (act : Eval α) {m : Machine} (hdepth : m.depth < maxDepth) :
    act.nested m = (act (m.atDepth (m.depth + 1))).leave := by
  rw [Eval.nested, if_pos hdepth, Machine.atDepth]
  rcases act { m with depth := m.depth + 1 } with ⟨result, after⟩ | ⟨cause, after⟩ | _
  · rfl
  · rfl
  · rfl

theorem Outcome.leave_eq_error {outcome : Outcome α} {cause : Error} {after : Machine}
    (h : outcome.leave = .error cause after) :
    ∃ m, outcome = .error cause m ∧ m.atDepth (m.depth - 1) = after := by
  rcases outcome with ⟨result, m⟩ | ⟨own, m⟩ | _
  · cases h
  · cases h
    exact ⟨m, rfl, rfl⟩
  · cases h

theorem Outcome.leave_atDepth_succ (outcome : Outcome α) (depth : Nat) :
    (outcome.atDepth (depth + 1)).leave = outcome.atDepth depth := by
  cases outcome <;> rfl

/-- Entering a nested evaluation counts exactly one level. -/
theorem nested_eq_of_blind {act act' : Eval α} {m : Machine} (hact' : Blind act')
    (hdepth : m.depth < maxDepth)
    (heq : act (m.atDepth (m.depth + 1)) = act' (m.atDepth (m.depth + 1))) :
    act.nested m = act' m := by
  rw [nested_of_lt act hdepth, heq, hact' m, Outcome.leave_atDepth_succ]
  exact hact'.atDepth_self m

/-- A run that counts is a run by levels, as many as the counter leaves. -/
theorem run_eq_runLevels {steps levels : Nat} {m : Machine} (form : Value) (scope : Scope)
    (hlevels : m.depth + levels = maxDepth) :
    run steps form scope m = runLevels steps levels form scope m := by
  -- A step agrees wherever the counter and the levels left make up the limit, and
  -- since it leaves the counter as it was, so does the rest of the run.
  induction steps generalizing levels form scope m with
  | zero => rfl
  | succ steps ih =>
      have hR := respected_agreeWhere fun depth => depth + levels = maxDepth
      have hevaluator : ∀ form scope, AgreeWhere (fun depth => depth + levels = maxDepth)
          (deeper (runLevels steps) levels form scope) (evaluateWithin steps form scope) := by
        intro form scope m hfit
        refine ⟨?_, (blind_evaluateLevels steps levels form scope).atDepth_self m⟩
        cases levels with
        | zero =>
            exact nested_of_not_lt _ (by omega)
        | succ levels =>
            refine nested_eq_of_blind (blind_runLevels steps levels form scope) (by omega) ?_
            exact ih form scope (by rw [Machine.depth_atDepth]; omega)
      have hresume : ∀ form scope, AgreeWhere (fun depth => depth + levels = maxDepth)
          (runLevels steps levels form scope) (run steps form scope) := fun form scope m hfit =>
        ⟨ih form scope hfit, (blind_runLevels steps levels form scope).atDepth_self m⟩
      have hexpand := hR.expandFully hevaluator steps
      rw [run_succ]
      exact (hR.bind (hR.step hevaluator hexpand form scope) (hR.resume hresume) m hlevels).1

/-- Evaluation is evaluation by the levels that the counter leaves. -/
theorem evaluateWithin_eq (steps : Nat) (form : Value) (scope : Scope) (m : Machine) :
    evaluateWithin steps form scope m =
      evaluateLevels steps (maxDepth - m.depth) form scope m := by
  by_cases hdepth : m.depth < maxDepth
  · obtain ⟨levels, hlevels⟩ := Nat.exists_eq_add_of_lt hdepth
    rw [show maxDepth - m.depth = levels + 1 by omega]
    refine nested_eq_of_blind (blind_runLevels steps levels form scope) hdepth ?_
    exact run_eq_runLevels form scope (by rw [Machine.depth_atDepth]; omega)
  · rw [show maxDepth - m.depth = 0 by omega]
    exact nested_of_not_lt _ hdepth

/-- The outcome is an answer, and not that of the depth limit. -/
def Outcome.Settled : Outcome α → Prop
  | .value _ _ => True
  | .error cause _ => ¬ cause.IsTooDeep
  | .unfinished => False

instance (cause : Error) : Decidable cause.IsTooDeep :=
  match cause with
  | .evaluation fault context =>
      decidable_of_iff (fault = .tooDeep)
        ⟨fun heq => ⟨context, by rw [heq]⟩, fun ⟨_, heq⟩ => by cases heq; rfl⟩
  | .read _ | .unbound _ | .notCallable _ | .type _ _ | .arity _ _ _ | .indexOutOfRange _ _
  | .io _ | .raised _ | .endless => .isFalse fun ⟨_, heq⟩ => by cases heq

instance (outcome : Outcome α) : Decidable outcome.Settled :=
  match outcome with
  | .value _ _ => .isTrue trivial
  | .error cause _ => inferInstanceAs (Decidable (¬ cause.IsTooDeep))
  | .unfinished => .isFalse id

/-- The outcome is a value, or an error of the sort. -/
def Outcome.EndsIn (sort : Error → Prop) : Outcome α → Prop
  | .value _ _ => True
  | .error cause _ => sort cause
  | .unfinished => False

/-- The second action does what the first does, where that ends with a value or an
error of the sort. -/
def Persists (sort : Error → Prop) (act act' : Eval α) : Prop :=
  ∀ m, (act m).EndsIn sort → act' m = act m

theorem Persists.of_value {sort : Error → Prop} {act act' : Eval α} (h : Persists sort act act')
    {m after : Machine} {result : α} (hvalue : act m = .value result after) :
    act' m = .value result after := by
  rw [h m (by rw [hvalue]; trivial), hvalue]

/-- A sort of errors that notes do not lead into. -/
def NotedFrom (sort : Error → Prop) : Prop :=
  ∀ note, Mild note → ∀ m cause, sort (note m cause) → sort cause

theorem respected_persists {sort : Error → Prop} (hsort : NotedFrom sort) :
    Respected fun _ act act' => Persists sort act act' where
  blind _ _ _ := rfl
  bind := by
    intro α β act act' next next' hact hnext m hends
    rw [Eval.bind_apply] at hends
    rw [Eval.bind_apply, Eval.bind_apply]
    rcases houtcome : act m with ⟨result, after⟩ | ⟨cause, after⟩ | _
    · rw [houtcome] at hends
      rw [hact m (by rw [houtcome]; trivial), houtcome]
      exact hnext result after hends
    · rw [houtcome] at hends
      rw [hact m (by rw [houtcome]; exact hends), houtcome]
      rfl
    · rw [houtcome] at hends
      exact hends.elim
  onError := by
    intro α act act' note hact hnote m hends
    have hact' : (act m).EndsIn sort := by
      rw [Eval.onError_apply] at hends
      rcases houtcome : act m with ⟨result, after⟩ | ⟨cause, after⟩ | _
      · trivial
      · rw [houtcome] at hends
        exact hsort note hnote after cause hends
      · rw [houtcome] at hends
        exact hends
    simp only [Eval.onError_apply, hact m hact']

/-- More steps for macro expansion change no expansion that has ended. -/
theorem expandFully_persists {sort : Error → Prop} (hsort : NotedFrom sort)
    {evaluator evaluator' : Evaluator} {steps steps' : Nat}
    (hevaluator : ∀ form scope, Persists sort (evaluator form scope) (evaluator' form scope))
    (hsteps : steps ≤ steps') (form : Value) (scope : Scope) :
    Persists sort (expandFully evaluator steps form scope)
      (expandFully evaluator' steps' form scope) := by
  induction steps generalizing steps' form with
  | zero => exact fun _ hends => hends.elim
  | succ steps ih =>
      obtain ⟨more, rfl⟩ : ∃ more, steps' = more + 1 := ⟨steps' - 1, by omega⟩
      have hR := respected_persists hsort
      refine hR.bind (hR.expandOnce hevaluator form scope) ?_
      intro expansion
      rcases expansion with _ | expansion
      · exact fun _ _ => rfl
      · exact ih (by omega) expansion

/-- More steps change nothing that has ended, and neither do more levels where the
sort has no error of the depth limit. -/
theorem runLevels_persists {sort : Error → Prop} (hsort : NotedFrom sort)
    {steps steps' levels levels' : Nat} (hsteps : steps ≤ steps')
    (hlevels : levels = levels' ∨ levels ≤ levels' ∧ ∀ cause, sort cause → ¬ cause.IsTooDeep)
    (form : Value) (scope : Scope) :
    Persists sort (runLevels steps levels form scope) (runLevels steps' levels' form scope) := by
  induction steps generalizing steps' levels levels' form scope with
  | zero => exact fun _ hends => hends.elim
  | succ steps ih =>
      obtain ⟨more, rfl⟩ : ∃ more, steps' = more + 1 := ⟨steps' - 1, by omega⟩
      have hmore : steps ≤ more := by omega
      have hevaluator : ∀ form scope, Persists sort (deeper (runLevels steps) levels form scope)
          (deeper (runLevels more) levels' form scope) := by
        intro form scope
        rcases levels with _ | levels
        · rcases hlevels with rfl | ⟨-, hsort⟩
          · exact fun _ _ => rfl
          · exact fun m hends => (hsort _ hends ⟨none, rfl⟩).elim
        · obtain ⟨levels', rfl⟩ : ∃ below, levels' = below + 1 := ⟨levels' - 1, by omega⟩
          exact ih hmore (hlevels.imp (by omega) (And.imp_left (by omega))) form scope
      have hR := respected_persists hsort
      have hexpand := expandFully_persists hsort hevaluator hmore
      refine hR.bind (hR.step hevaluator hexpand form scope) ?_
      exact hR.resume (ih hmore hlevels)

/-- The second action does what the first does, where that has settled. -/
def Extends (act act' : Eval α) : Prop :=
  ∀ m, (act m).Settled → act' m = act m

theorem extends_iff {act act' : Eval α} :
    Extends act act' ↔ Persists (fun cause => ¬ cause.IsTooDeep) act act' := by
  refine forall_congr' fun m => ?_
  cases act m <;> exact Iff.rfl

/-- Errors other than that of the depth limit have not been noted from it. -/
theorem notedFrom_settled : NotedFrom fun cause => ¬ cause.IsTooDeep :=
  fun _ hnote m cause hsettled hdeep => hsettled (hnote.tooDeep m cause hdeep)

theorem respected_extends : Respected fun _ act act' => Extends act act' := by
  have hR := respected_persists notedFrom_settled
  refine ⟨fun hact => ?_, fun hact hnext => ?_, fun hact hnote => ?_⟩
  · exact extends_iff.mpr (hR.blind hact)
  · refine extends_iff.mpr (hR.bind (extends_iff.mp hact) fun result => ?_)
    exact extends_iff.mp (hnext result)
  · exact extends_iff.mpr (hR.onError (extends_iff.mp hact) hnote)

/-- Neither more steps nor more levels change what has settled. -/
theorem runLevels_extends {steps steps' levels levels' : Nat} (hsteps : steps ≤ steps')
    (hlevels : levels ≤ levels') (form : Value) (scope : Scope) :
    Extends (runLevels steps levels form scope) (runLevels steps' levels' form scope) :=
  extends_iff.mpr
    (runLevels_persists notedFrom_settled hsteps (.inr ⟨hlevels, fun _ h => h⟩) form scope)

theorem evaluateLevels_extends {steps steps' levels levels' : Nat} (hsteps : steps ≤ steps')
    (hlevels : levels ≤ levels') (form : Value) (scope : Scope) :
    Extends (evaluateLevels steps levels form scope)
      (evaluateLevels steps' levels' form scope) := by
  cases levels with
  | zero => exact fun m hsettled => (hsettled ⟨none, rfl⟩).elim
  | succ levels =>
      obtain ⟨levels', rfl⟩ : ∃ below, levels' = below + 1 := ⟨levels' - 1, by omega⟩
      exact runLevels_extends hsteps (by omega) form scope

/-- The second action does what the first does, where that ends. -/
def Prolongs (act act' : Eval α) : Prop :=
  Persists (fun _ => True) act act'

/-- A value that an action ends with is that of each prolongation, and so is an error. -/
theorem Prolongs.of_value {act act' : Eval α} (h : Prolongs act act') {m after : Machine}
    {result : α} (hvalue : act m = .value result after) : act' m = .value result after :=
  Persists.of_value h hvalue

theorem Prolongs.of_error {act act' : Eval α} (h : Prolongs act act') {m after : Machine}
    {cause : Error} (herror : act m = .error cause after) : act' m = .error cause after := by
  rw [h m (by rw [herror]; trivial), herror]

theorem notedFrom_true : NotedFrom fun _ => True :=
  fun _ _ _ _ _ => trivial

theorem respected_prolongs : Respected fun _ act act' => Prolongs act act' :=
  respected_persists notedFrom_true

/-- With the levels that are left, more steps change nothing that has ended. -/
theorem evaluateLevels_prolongs {steps steps' : Nat} (hsteps : steps ≤ steps') (levels : Nat)
    (form : Value) (scope : Scope) :
    Prolongs (evaluateLevels steps levels form scope)
      (evaluateLevels steps' levels form scope) := by
  cases levels with
  | zero => exact fun _ _ => rfl
  | succ levels => exact runLevels_persists notedFrom_true hsteps (.inl rfl) form scope

end Lisplet
