/-
A few frames more.  What a form comes to is the same on a machine with a frame more that no
scope leads to, and within as many levels.  So two evaluations may be compared up to frames
that one of them allocates and does not keep: what either comes to, the other does, and the
machines that they leave differ in those frames alone.
-/
import Lisplet.Proofs.CallRules
import Lisplet.Proofs.DepthLimit
import Lisplet.Proofs.ExtraFrame
import Lisplet.Proofs.TailContexts

namespace Lisplet

open Filter

/-- The second machine has up to so many frames more, all of them after the first `size`, and is
otherwise the first. -/
inductive Machine.FramesMore (size : Nat) : (count : Nat) → Machine → Machine → Prop
  | none {count m} : FramesMore size count m m
  | more {count k m m₁ m'} (hsize : size ≤ k) (hframe : m.FrameMore k m₁)
      (hrest : FramesMore size count m₁ m') : FramesMore size (count + 1) m m'

inductive Outcome.SameButFrames {α : Type} (size count : Nat) : Outcome α → Outcome α → Prop
  | value {result after after'} (h : after.FramesMore size count after') :
      SameButFrames size count (.value result after) (.value result after')
  | error {cause after after'} (h : after.FramesMore size count after') :
      SameButFrames size count (.error cause after) (.error cause after')

namespace Machine.FramesMore

variable {size size' count count' : Nat} {m m₁ m' : Machine}

theorem trans (h : m.FramesMore size count m₁) (h' : m₁.FramesMore size count' m') :
    m.FramesMore size (count + count') m' := by
  induction h with
  | @none count m =>
      induction h' with
      | none => exact .none
      | more hsize hframe _ ih => exact .more hsize hframe ih
  | more hsize hframe _ ih =>
      rw [Nat.add_right_comm]
      exact .more hsize hframe (ih h')

theorem mono (h : m.FramesMore size count m') (hsize : size' ≤ size) (hcount : count ≤ count') :
    m.FramesMore size' count' m' := by
  induction h generalizing count' with
  | none => exact .none
  | more hframe hmore _ ih =>
      obtain ⟨count', rfl⟩ : ∃ before, count' = before + 1 := ⟨count' - 1, by omega⟩
      exact .more (Nat.le_trans hsize hframe) hmore (ih (by omega))

theorem size_le (h : m.FramesMore size count m') : m.frames.size ≤ m'.frames.size := by
  induction h with
  | none => exact le_rfl
  | more _ hframe _ ih =>
      rw [hframe.size] at ih
      exact Nat.le_of_succ_le ih

end Machine.FramesMore

namespace Outcome.SameButFrames

variable {α : Type} {size size' count count' : Nat} {outcome outcome₁ outcome' : Outcome α}

theorem refl (hsettled : outcome.Settled) : outcome.SameButFrames size count outcome := by
  obtain ⟨result, after, rfl⟩ | ⟨cause, after, rfl⟩ := hsettled.value_or_error
  · exact .value .none
  · exact .error .none

theorem trans (h : outcome.SameButFrames size count outcome₁)
    (h' : outcome₁.SameButFrames size count' outcome') :
    outcome.SameButFrames size (count + count') outcome' := by
  cases h with
  | value h =>
      cases h' with
      | value h' => exact .value (h.trans h')
  | error h =>
      cases h' with
      | error h' => exact .error (h.trans h')

theorem mono (h : outcome.SameButFrames size count outcome') (hsize : size' ≤ size)
    (hcount : count ≤ count') : outcome.SameButFrames size' count' outcome' := by
  cases h with
  | value h => exact .value (h.mono hsize hcount)
  | error h => exact .error (h.mono hsize hcount)

theorem settled_iff (h : outcome.SameButFrames size count outcome') :
    outcome.Settled ↔ outcome'.Settled := by
  cases h <;> exact Iff.rfl

theorem of_one {k : Nat} (h : outcome.SameButFrame k outcome') (hsize : size ≤ k) :
    outcome.SameButFrames size 1 outcome' := by
  cases h with
  | value h => exact .value (.more hsize h .none)
  | error h => exact .error (.more hsize h .none)

end Outcome.SameButFrames

section

variable {n : Nat} {form : Value} {scope scope' : Scope} {m m' : Machine}
  {outcome : Outcome Value}

/-- What the rules derive from one of two machines that correspond, they derive from the other
within as many levels. -/
theorem Correspondence.Lawful.bigStep {C : Correspondence} (hC : C.Lawful)
    (hform : C.value form) (hscope : C.scopes m.frames.size scope scope') (hm : C.machines m m') :
    (∀ {outcome}, Evaluates n form scope m outcome → outcome.Settled →
      ∃ outcome', Evaluates n form scope' m' outcome' ∧
        C.Outcomes m.frames.size C.values outcome outcome') ∧
    ∀ {outcome'}, Evaluates n form scope' m' outcome' → outcome'.Settled →
      ∃ outcome, Evaluates n form scope m outcome ∧
        C.Outcomes m.frames.size C.values outcome outcome' := by
  have houtcomes (steps : Nat) :=
    hC.evaluateLevels steps n m.frames.size form scope scope' hform hscope m m' hm le_rfl
  constructor
  · intro outcome h hsettled
    obtain ⟨steps, rfl⟩ := (h.complete le_rfl).exists
    have hsettled' := (houtcomes steps).settled_iff.mp hsettled
    exact ⟨_, evaluateLevels_sound steps n form scope' m' hsettled', houtcomes steps⟩
  · intro outcome' h hsettled
    obtain ⟨steps, rfl⟩ := (h.complete le_rfl).exists
    have hsettled' := (houtcomes steps).settled_iff.mpr hsettled
    exact ⟨_, evaluateLevels_sound steps n form scope m hsettled', houtcomes steps⟩

theorem Native.Below.avoids {native : Native} {k : Nat} (h : native.Below k) : native.Avoids k :=
  fun root hoperation => (h root hoperation).shift_eq

/-- The scope and the forms lead nowhere that the machine does not. -/
structure Machine.WellScopedFor (m : Machine) (scope : Scope) (forms : List Value) : Prop where
  machine : m.WellScoped
  scope : scope.Below m.frames.size
  forms : ∀ form ∈ forms, form.NativesIn (·.Below m.frames.size)

namespace Machine.WellScopedFor

variable {forms forms' : List Value}

theorem subset (h : m.WellScopedFor scope forms) (hforms : forms' ⊆ forms) :
    m.WellScopedFor scope forms' :=
  ⟨h.machine, h.scope, fun form hform => h.forms form (hforms hform)⟩

/-- With no fewer frames they still lead nowhere else. -/
theorem of_le (h : m.WellScopedFor scope forms) (hm' : m'.WellScoped)
    (hle : m.frames.size ≤ m'.frames.size) : m'.WellScopedFor scope forms :=
  ⟨hm', h.scope.mono hle, fun form hform =>
    (h.forms form hform).mono fun _ hnative => hnative.mono hle⟩

/-- They have nothing to do with a frame that is not there. -/
theorem avoids (h : m.WellScopedFor scope forms) :
    ∀ form ∈ forms, form.NativesIn (·.Avoids m.frames.size) := fun form hform =>
  (h.forms form hform).mono fun _ hnative => hnative.avoids

/-- Evaluating one of the forms loses no frames. -/
theorem yields (h : m.WellScopedFor scope forms) {value : Value} {after : Machine}
    (hform : form ∈ forms) (hyields : Yields scope form m value after) :
    m.frames.size ≤ after.frames.size ∧ after.WellScopedFor scope forms := by
  obtain ⟨n, hyields⟩ := hyields
  obtain ⟨outcome', -, houtcomes⟩ := ((lawful_wellScoped m.frames.size).bigStep
    (h.forms form hform) ⟨rfl, h.scope.mono (Nat.le_max_left _ _)⟩ h.machine.machines).1
    hyields trivial
  obtain ⟨hle, hafter⟩ := houtcomes.wellScoped rfl
  exact ⟨hle, h.of_le hafter hle⟩

end Machine.WellScopedFor

/-- What a form yields it yields with a frame more, and the machines that are left differ in
that frame. -/
theorem yields_frameMore {k : Nat} (hm : (frameMore k).machines m m')
    (hform : form.NativesIn (·.Avoids k)) (hscope : scope.Below k) {value : Value} :
    (∀ {after}, Yields scope form m value after →
      ∃ after', Yields scope form m' value after' ∧ (frameMore k).machines after after') ∧
    ∀ {after'}, Yields scope form m' value after' →
      ∃ after, Yields scope form m value after ∧ (frameMore k).machines after after' := by
  have heither (n : Nat) :=
    @Correspondence.Lawful.bigStep n form scope scope m m' _ (lawful_frameMore k) hform
      hscope.shift_eq.symm hm
  constructor
  · rintro after ⟨n, h⟩
    obtain ⟨outcome', h', houtcomes⟩ := (heither n).1 h trivial
    cases houtcomes with
    | value _ _ hresult hm =>
        obtain ⟨rfl, -⟩ := hresult
        exact ⟨_, ⟨n, h'⟩, hm⟩
  · rintro after' ⟨n, h'⟩
    obtain ⟨outcome, h, houtcomes⟩ := (heither n).2 h' trivial
    cases houtcomes with
    | value _ _ hresult hm =>
        obtain ⟨rfl, -⟩ := hresult
        exact ⟨_, ⟨n, h⟩, hm⟩

end

namespace Situation

/-- The outcome that evaluation has, given the steps that it takes. -/
def ComesTo (s : Situation) (outcome : Outcome Value) : Prop :=
  ∃ enough, ∀ steps, enough ≤ steps → s.evaluate steps = outcome

/-- Evaluation ends with the error of the depth limit. -/
def HitsLimit (s : Situation) : Prop :=
  ∃ outcome, s.ComesTo outcome ∧ outcome.HitsDepthLimit

theorem hitsLimit_of_evaluate {s : Situation} {steps : Nat}
    (h : (s.evaluate steps).HitsDepthLimit) : s.HitsLimit := by
  refine ⟨_, ⟨steps, fun more hmore => ?_⟩, h⟩
  obtain ⟨cause, after, herror, -⟩ := h.exists_error
  rw [herror]
  exact (evaluateWithin_prolongs hmore s.form s.scope).of_error herror

/-- Evaluation that comes to a value does not hit the limit. -/
theorem not_hitsLimit_of_isValue {s : Situation} {steps : Nat}
    (h : (s.evaluate steps).isValue = true) : ¬ s.HitsLimit := by
  rintro ⟨outcome, ⟨enough, henough⟩, hhits⟩
  obtain ⟨value, after, hvalue⟩ := Outcome.exists_of_isValue h
  have hmore := (evaluateWithin_prolongs (Nat.le_max_left steps enough) s.form s.scope).of_value
    hvalue
  have houtcome : outcome = .value value after :=
    (henough _ (Nat.le_max_right steps enough)).symm.trans hmore
  rw [houtcome] at hhits
  exact hhits

/-- What evaluation comes to, the rules derive within the levels that are left. -/
theorem ComesTo.evaluates {s : Situation} {outcome : Outcome Value} (h : s.ComesTo outcome)
    (hsettled : outcome.Settled) :
    Evaluates (maxDepth - s.machine.depth) s.form s.scope s.machine outcome := by
  obtain ⟨enough, henough⟩ := h
  have hevaluate := henough enough le_rfl
  rw [← hevaluate] at hsettled ⊢
  exact evaluateWithin_sound hsettled

theorem comesTo_of_evaluates {s : Situation} {outcome : Outcome Value}
    (h : Evaluates (maxDepth - s.machine.depth) s.form s.scope s.machine outcome) :
    s.ComesTo outcome := by
  obtain ⟨enough, henough⟩ := eventually_atTop.mp (h.complete le_rfl)
  refine ⟨enough, fun steps hsteps => ?_⟩
  rw [Situation.evaluate, evaluateWithin_eq, henough steps hsteps]

/-- What the rules derive within more levels evaluation comes to, unless it hits the limit. -/
theorem comesTo_or_hitsLimit {n : Nat} {s : Situation} {outcome : Outcome Value}
    (h : Evaluates n s.form s.scope s.machine outcome) : s.ComesTo outcome ∨ s.HitsLimit := by
  by_cases hlimit : ∃ steps, (s.evaluate steps).HitsDepthLimit
  · obtain ⟨steps, hhits⟩ := hlimit
    exact .inr (hitsLimit_of_evaluate hhits)
  · obtain ⟨enough, henough⟩ := h.eventually_or_hits
    refine .inl ⟨enough, fun steps hsteps => (henough steps hsteps).resolve_right fun hhits => ?_⟩
    exact hlimit ⟨steps, hhits⟩

/-- Whatever either situation comes to the other does, up to so many frames more in what the
second leaves.  The first takes no more levels. -/
structure SameUpToFrames (size count : Nat) (s s' : Situation) : Prop where
  forth : ∀ {n outcome}, Evaluates n s.form s.scope s.machine outcome → outcome.Settled →
    ∃ n' outcome', Evaluates n' s'.form s'.scope s'.machine outcome' ∧
      outcome.SameButFrames size count outcome'
  back : ∀ {n outcome'}, Evaluates n s'.form s'.scope s'.machine outcome' → outcome'.Settled →
    ∃ outcome, Evaluates n s.form s.scope s.machine outcome ∧
      outcome.SameButFrames size count outcome'

/-- The same of runs.  The second situation may hit the depth limit where the first does not. -/
structure AgreeUpToFrames (size count : Nat) (s s' : Situation) : Prop where
  forth : ∀ outcome, s.ComesTo outcome → outcome.Settled →
    (∃ outcome', s'.ComesTo outcome' ∧ outcome.SameButFrames size count outcome') ∨ s'.HitsLimit
  back : ∀ outcome', s'.ComesTo outcome' → outcome'.Settled →
    ∃ outcome, s.ComesTo outcome ∧ outcome.SameButFrames size count outcome'

namespace SameUpToFrames

variable {size size' count count' : Nat} {s s₁ s' : Situation}

theorem refl (s : Situation) : SameUpToFrames size count s s where
  forth h hsettled := ⟨_, _, h, .refl hsettled⟩
  back h hsettled := ⟨_, h, .refl hsettled⟩

theorem trans (h : SameUpToFrames size count s s₁) (h' : SameUpToFrames size count' s₁ s') :
    SameUpToFrames size (count + count') s s' where
  forth hs hsettled := by
    obtain ⟨n₁, outcome₁, hs₁, hsame⟩ := h.forth hs hsettled
    obtain ⟨n', outcome', hs', hsame'⟩ := h'.forth hs₁ (hsame.settled_iff.mp hsettled)
    exact ⟨n', outcome', hs', hsame.trans hsame'⟩
  back hs' hsettled := by
    obtain ⟨outcome₁, hs₁, hsame'⟩ := h'.back hs' hsettled
    obtain ⟨outcome, hs, hsame⟩ := h.back hs₁ (hsame'.settled_iff.mpr hsettled)
    exact ⟨outcome, hs, hsame.trans hsame'⟩

theorem mono (h : SameUpToFrames size count s s') (hsize : size' ≤ size)
    (hcount : count ≤ count') : SameUpToFrames size' count' s s' where
  forth hs hsettled := by
    obtain ⟨n', outcome', hs', hsame⟩ := h.forth hs hsettled
    exact ⟨n', outcome', hs', hsame.mono hsize hcount⟩
  back hs' hsettled := by
    obtain ⟨outcome, hs, hsame⟩ := h.back hs' hsettled
    exact ⟨outcome, hs, hsame.mono hsize hcount⟩

/-- Nothing shows whether there is a frame more. -/
theorem of_frameMore {k : Nat} {form : Value} {scope : Scope} {m m' : Machine}
    (hm : (frameMore k).machines m m') (hform : form.NativesIn (·.Avoids k))
    (hscope : scope.Below k) : SameUpToFrames k 1 ⟨form, scope, m⟩ ⟨form, scope, m'⟩ := by
  have heither (n : Nat) :=
    @Correspondence.Lawful.bigStep n form scope scope m m' _ (lawful_frameMore k) hform
      hscope.shift_eq.symm hm
  constructor
  · intro n outcome h hsettled
    obtain ⟨outcome', h', houtcomes⟩ := (heither n).1 h hsettled
    exact ⟨n, outcome', h', .of_one (houtcomes.sameButFrame hsettled) le_rfl⟩
  · intro n outcome' h' hsettled
    obtain ⟨outcome, h, houtcomes⟩ := (heither n).2 h' hsettled
    have hsettled' := houtcomes.settled_iff.mpr hsettled
    exact ⟨outcome, h, .of_one (houtcomes.sameButFrame hsettled') le_rfl⟩

/-- Runs agree unless the limit is hit. -/
theorem agree (h : SameUpToFrames size count s s')
    (hdepth : s'.machine.depth = s.machine.depth) : AgreeUpToFrames size count s s' := by
  constructor
  · intro outcome houtcome hsettled
    obtain ⟨n', outcome', houtcome', hsame⟩ := h.forth (houtcome.evaluates hsettled) hsettled
    exact (comesTo_or_hitsLimit houtcome').imp_left fun hcomes => ⟨outcome', hcomes, hsame⟩
  · intro outcome' houtcome' hsettled
    obtain ⟨outcome, houtcome, hsame⟩ := h.back (houtcome'.evaluates hsettled) hsettled
    rw [hdepth] at houtcome
    exact ⟨outcome, comesTo_of_evaluates houtcome, hsame⟩

end SameUpToFrames

/-- What a macro call comes to its expansion does. -/
theorem sameUpToFrames_of_expandsTo {form expansion : Value} {scope : Scope} {m m₁ : Machine}
    (h : ExpandsTo scope form m (.value expansion m₁)) (size : Nat) :
    SameUpToFrames size 0 ⟨expansion, scope, m₁⟩ ⟨form, scope, m⟩ := by
  obtain ⟨code, arguments, n, hmacroCall, hexpansion⟩ := h
  obtain ⟨head, operands, rfl⟩ := exists_list_of_macroCall? hmacroCall
  constructor
  · intro n' outcome h hsettled
    have hexpansion' := hexpansion.mono trivial (Nat.le_max_left n n')
    have htail := h.mono hsettled (Nat.le_succ_of_le (Nat.le_max_right n n'))
    have hlist := EvaluatesList.macroCall hmacroCall hexpansion' htail
    exact ⟨_, outcome, hlist.evaluates htail.inContext, .refl hsettled⟩
  · intro n' outcome' h hsettled
    obtain ⟨n', rfl⟩ := h.exists_eq_succ
    obtain ⟨own, hlist, rfl⟩ := evaluates_list_iff.mp h
    cases hlist with
    | macroCall hmacroCall' hexpansion' htail =>
        rw [hmacroCall] at hmacroCall'
        cases hmacroCall'
        cases hexpansion.unique hexpansion'
        rw [htail.inContext.noted_eq] at hsettled ⊢
        exact ⟨own, htail, .refl hsettled⟩
    | macroFails hmacroCall' hexpansion' =>
        rw [hmacroCall] at hmacroCall'
        cases hmacroCall'
        cases hexpansion.unique hexpansion'
    | special hmacroCall' | wrongCount hmacroCall' | call hmacroCall' | partFails hmacroCall' =>
        rw [hmacroCall] at hmacroCall'
        cases hmacroCall'

end Situation

end Lisplet
