/-
The order of the clauses.  Evaluation of a `cond` is handed from form to form at its own depth:
from the call to its expansion, from there to a branch.  What is evaluated on the way are the
tests, one after another as far as they come to false values, and the expression of the first
that does not is in tail position.
-/
import Lisplet.Proofs.Conditional

namespace Lisplet

/-- Evaluation is handed from the first situation to the second through macro calls, whose
expansion allocates a frame and changes nothing else, and through `if`s, whose conditions are
these, in this order. -/
inductive Passes : List Value → Situation → Situation → Prop
  | here {s} : Passes [] s s
  | expansion {s s' : Situation} {code arguments steps expansion frame m₁ conditions}
      (hmacroCall : s.machine.macroCall? s.scope s.form = some (code, arguments))
      (hframe : m₁ = { s.machine with frames := s.machine.frames.push frame })
      (hexpansion : callClosure (evaluateDeeper steps) true code arguments s.machine =
        .value expansion m₁)
      (hrest : Passes conditions ⟨expansion, s.scope, m₁⟩ s') : Passes conditions s s'
  | branch {s s' : Situation} {condition consequent alternative steps value m₁ conditions}
      (hspecial : s.IsSpecial (.branch condition consequent (some alternative)))
      (hcondition : evaluateDeeper steps condition s.scope s.machine = .value value m₁)
      (hrest : Passes conditions
        ⟨if value.isTruthy then consequent else alternative, s.scope, m₁⟩ s') :
      Passes (condition :: conditions) s s'

theorem Passes.reaches {conditions : List Value} {s s' : Situation} (h : Passes conditions s s') :
    Relation.ReflTransGen HandsOver s s' := by
  induction h with
  | here => exact .refl
  | expansion hmacroCall _ hexpansion _ ih => exact .head (.macroCall hmacroCall hexpansion) ih
  | @branch s _ _ _ _ _ value _ _ hspecial hcondition _ ih =>
      cases htruth : value.isTruthy with
      | true =>
          rw [htruth] at ih
          exact .head (.branchTrue hspecial hcondition htruth) ih
      | false =>
          rw [htruth] at ih
          exact .head (.branchFalse hspecial hcondition htruth) ih

theorem Passes.append {conditions conditions' : List Value} {s s₁ s' : Situation}
    (h : Passes conditions s s₁) (h' : Passes conditions' s₁ s') :
    Passes (conditions ++ conditions') s s' := by
  induction h with
  | here => exact h'
  | expansion hmacroCall hframe hexpansion _ ih =>
      exact .expansion hmacroCall hframe hexpansion (ih h')
  | branch hspecial hcondition _ ih => exact .branch hspecial hcondition (ih h')

namespace Situation

theorem hitsLimit_of_not_lt {s : Situation} (hdepth : ¬ s.machine.depth < maxDepth) :
    s.HitsLimit := by
  have hhits : (s.evaluate 0).HitsDepthLimit :=
    nested_hitsDepthLimit (run 0 s.form s.scope) hdepth
  exact hitsLimit_of_evaluate hhits

theorem hitsLimit_of_step {s : Situation} {steps : Nat}
    (h : (step steps (evaluateDeeper steps) s.form s.scope s.machine).HitsDepthLimit) :
    s.HitsLimit := by
  by_cases hdepth : s.machine.depth < maxDepth
  · refine @hitsLimit_of_evaluate s (steps + 1) ?_
    rw [Situation.evaluate, evaluateWithin_succ hdepth]
    exact Outcome.andThen_hits_iff.mpr (.inl h)
  · exact hitsLimit_of_not_lt hdepth

/-- What evaluation is handed over to hits the limit for the form. -/
theorem HitsLimit.of_passes {conditions : List Value} {s s' : Situation} (h : s'.HitsLimit)
    (hpasses : Passes conditions s s') : s.HitsLimit := by
  by_cases hdepth : s.machine.depth < maxDepth
  · obtain ⟨height, enough, henough⟩ := evaluate_of_reaches hpasses.reaches hdepth
    obtain ⟨outcome, ⟨enough', houtcome⟩, hhits⟩ := h
    refine @hitsLimit_of_evaluate s (max enough enough' + height) ?_
    rw [henough _ (Nat.le_max_left _ _), houtcome _ (Nat.le_max_right _ _)]
    exact hhits
  · exact hitsLimit_of_not_lt hdepth

end Situation

section

variable {form value expansion : Value} {scope root : Scope} {m m' m₁ after : Machine}
  {test expression : Value} {tests : List Value} {clauses : List (Value × Value)}

/-- A part of a form comes to the value that the rules derive, or it hits the limit. -/
theorem Yields.deeper_or_hits (h : Yields scope form m value after) :
    ∃ steps, evaluateDeeper steps form scope m = .value value after ∨
      (evaluateDeeper steps form scope m).HitsDepthLimit := by
  by_cases hdepth : m.depth < maxDepth
  · obtain ⟨levels, hlevels⟩ := Nat.exists_eq_add_of_lt hdepth
    obtain ⟨n, h⟩ := h
    obtain ⟨steps, hsteps⟩ := (h.complete (Nat.le_max_left n levels)).exists
    have hdeeper := evaluateDeeper_agrees (show m.depth + 1 + levels = maxDepth by omega) steps
      form scope m rfl
    refine ⟨steps, ?_⟩
    rw [hdeeper.1, ← hsteps]
    exact evaluateLevels_agreesOrHits steps (Nat.le_max_right n levels) form scope m
  · exact ⟨0, .inr (nested_hitsDepthLimit (evaluateWithin 0 form scope) hdepth)⟩

/-- A macro call is handed over to its expansion, or it hits the limit. -/
theorem ExpandsTo.passes {frame : Frame}
    (h : ExpandsTo scope form m (.value expansion m₁))
    (hframe : m₁ = { m with frames := m.frames.push frame }) :
    Passes [] ⟨form, scope, m⟩ ⟨expansion, scope, m₁⟩ ∨
      Situation.HitsLimit ⟨form, scope, m⟩ := by
  obtain ⟨code, arguments, n, hmacroCall, hexpansion⟩ := h
  cases hexpansion with
  | @body _ _ _ _ _ body inner entered _ henter hbody =>
      have hcall (steps : Nat) : callClosure (evaluateDeeper steps) true code arguments m =
          evaluateDeeper steps body inner entered := by
        rw [callClosure, Eval.bind_apply, henter]
        rfl
      obtain ⟨steps, hvalue | hhits⟩ := Yields.deeper_or_hits ⟨n, hbody⟩
      · rw [← hcall] at hvalue
        exact .inl (.expansion hmacroCall hframe hvalue .here)
      · rw [← hcall] at hhits
        refine .inr (@Situation.hitsLimit_of_step ⟨form, scope, m⟩ steps ?_)
        rw [step_macroCall hmacroCall, Situation.noted_hits_iff]
        exact Outcome.andThen_hits_iff.mpr (.inl hhits)

/-- An `if` is handed over to one of its branches, or it hits the limit. -/
theorem Yields.passes (htest : Yields scope test m value m₁)
    (hname : ∀ code, m.lookup? scope SpecialForm.branch.name ≠ some (.closure true code))
    (consequent alternative : Value) :
    Passes [test] ⟨branchForm test consequent alternative, scope, m⟩
        ⟨if value.isTruthy then consequent else alternative, scope, m₁⟩ ∨
      Situation.HitsLimit ⟨branchForm test consequent alternative, scope, m⟩ := by
  have hspecial : Situation.IsSpecial ⟨branchForm test consequent alternative, scope, m⟩
      (.branch test consequent (some alternative)) :=
    ⟨_, _, _, rfl, macroCall?_eq_none hname, SpecialForm.ofName?_name .branch, rfl⟩
  obtain ⟨steps, hvalue | hhits⟩ := htest.deeper_or_hits
  · exact .inl (.branch hspecial hvalue .here)
  · have hlimit := @Situation.hitsLimit_of_step
      ⟨branchForm test consequent alternative, scope, m⟩ steps
    refine .inr (hlimit ?_)
    rw [step_special hspecial, Situation.noted_hits_iff]
    exact Outcome.andThen_hits_iff.mpr (.inl hhits)

theorem fallsThrough_frameMore {k : Nat} (hm : (frameMore k).machines m m')
    (htests : ∀ test ∈ tests, test.NativesIn (·.Avoids k)) (hscope : scope.Below k) :
    (∀ {after}, FallsThrough scope tests m after →
      ∃ after', FallsThrough scope tests m' after' ∧ (frameMore k).machines after after') ∧
    ∀ {after'}, FallsThrough scope tests m' after' →
      ∃ after, FallsThrough scope tests m after ∧ (frameMore k).machines after after' := by
  induction tests generalizing m m' with
  | nil =>
      constructor
      · rintro _ ⟨⟩
        exact ⟨m', .nil, hm⟩
      · rintro _ ⟨⟩
        exact ⟨m, .nil, hm⟩
  | cons test tests ih =>
      rw [List.forall_mem_cons] at htests
      constructor
      · rintro after (_ | ⟨htest, htruth, hrest⟩)
        obtain ⟨m₁', htest', hm₁⟩ := (yields_frameMore hm htests.1 hscope).1 htest
        obtain ⟨after', hrest', hafter⟩ := (ih hm₁ htests.2).1 hrest
        exact ⟨after', .cons htest' htruth hrest', hafter⟩
      · rintro after' (_ | ⟨htest', htruth, hrest'⟩)
        obtain ⟨m₁, htest, hm₁⟩ := (yields_frameMore hm htests.1 hscope).2 htest'
        obtain ⟨after, hrest, hafter⟩ := (ih hm₁ htests.2).2 hrest'
        exact ⟨after, .cons htest htruth hrest, hafter⟩

theorem KeepsConds.frameMore {k : Nat} (h : KeepsConds scope root tests m)
    (hm : (frameMore k).machines m m') (htests : ∀ test ∈ tests, test.NativesIn (·.Avoids k))
    (hscope : scope.Below k) (hroot : root.Below k) : KeepsConds scope root tests m' := by
  intro front hfront after' hfalls'
  have hforms : ∀ test ∈ front, test.NativesIn (·.Avoids k) := fun test htest =>
    htests test (hfront.subset htest)
  obtain ⟨after, hfalls, hafter⟩ := (fallsThrough_frameMore hm hforms hscope).2 hfalls'
  exact (h front hfront after hfalls).frameMore hafter.1 hscope hroot

/-- Inside a call of `cond` the scope and its forms still lead nowhere else. -/
theorem Machine.WellScopedFor.enterCond {forms : List Value} (h : m.WellScopedFor scope forms)
    (operands : List Value) (hoperands : operands ⊆ forms) :
    (m.enterCond operands).WellScopedFor scope forms := by
  have hframe : ∀ binding ∈ [("xs", Value.list operands)],
      binding.2.NativesIn (·.Below m.frames.size) :=
    List.forall_mem_singleton.mpr (nativesIn_list.mpr fun form hform =>
      h.forms form (hoperands hform))
  refine h.of_le (h.machine.push hframe) ?_
  rw [Machine.enterCond, Array.size_push]
  exact Nat.le_succ _

/-- In the place of the first machine there is the second, with frames that `cond` has
allocated: it reads `cond` as before, and the forms come to the same. -/
structure Machine.StandsFor (size count : Nat) (scope root : Scope) (forms : List Value)
    (m m' : Machine) : Prop where
  frames : m.FramesMore size count m'
  conds : m'.ReadsConds scope root
  wellScoped : m'.WellScopedFor scope forms
  forms : ∀ form ∈ forms,
    Situation.SameUpToFrames size count ⟨form, scope, m⟩ ⟨form, scope, m'⟩

/-- It stands for a machine with one frame less too. -/
theorem Machine.StandsFor.frameMore {size size' count : Nat} {forms : List Value}
    (h : m₁.StandsFor size' count scope root forms m') (hm : (frameMore size).machines m m₁)
    (hforms : ∀ form ∈ forms, form.NativesIn (·.Avoids size)) (hscope : scope.Below size)
    (hsize : size ≤ size') : m.StandsFor size (count + 1) scope root forms m' where
  frames := .more le_rfl hm.1 (h.frames.mono hsize le_rfl)
  conds := h.conds
  wellScoped := h.wellScoped
  forms form hform := by
    have hfirst := Situation.SameUpToFrames.of_frameMore hm (hforms form hform) hscope
    have hrest := (h.forms form hform).mono hsize le_rfl
    exact (hfirst.trans hrest).mono le_rfl (Nat.add_comm 1 count).le

/-- The first clause of a `cond`: its expansion, and then one of two branches. -/
theorem passes_clause {operands others : List Value} (h : m.WellScopedFor scope operands)
    (hconds : m.ReadsConds scope root) (hoperands : operands = test :: expression :: others)
    (hlength : operands.length < countLimit)
    (htest : Yields scope test (m.enterCond operands) value m₁) :
    Passes [test] ⟨condForm operands, scope, m⟩
        ⟨if value.isTruthy then expression else condForm others, scope, m₁⟩ ∨
      Situation.HitsLimit ⟨condForm operands, scope, m⟩ := by
  have hname : ∀ code, (m.enterCond operands).lookup? scope SpecialForm.branch.name ≠
      some (.closure true code) := by
    rw [Machine.enterCond, Machine.lookup?_push h.scope]
    exact hconds.branch
  rcases (hconds.expandsTo_cons h.machine hoperands hlength).passes rfl with hexpansion | hlimit
  · rcases htest.passes hname expression (condForm others) with hbranch | hlimit
    · exact .inl (hexpansion.append hbranch)
    · exact .inr (hlimit.of_passes hexpansion)
  · exact .inr hlimit

/-- Where the first tests come to false values, evaluation gets to the clauses after them. -/
theorem passes_condForm {others : List Value}
    (h : m.WellScopedFor scope (clauseForms clauses ++ others))
    (hkeeps : KeepsConds scope root (clauses.map Prod.fst) m)
    (hlength : (clauseForms clauses ++ others).length < countLimit)
    (hfalls : FallsThrough scope (clauses.map Prod.fst) m after) :
    (∃ m', Passes (clauses.map Prod.fst)
        ⟨condForm (clauseForms clauses ++ others), scope, m⟩ ⟨condForm others, scope, m'⟩ ∧
      after.StandsFor m.frames.size clauses.length scope root others m') ∨
    Situation.HitsLimit ⟨condForm (clauseForms clauses ++ others), scope, m⟩ := by
  induction clauses generalizing m after with
  | nil =>
      cases hfalls
      exact .inl ⟨m, .here, .none, hkeeps.start, h, fun form _ => .refl _⟩
  | cons clause clauses ih =>
      obtain ⟨test, expression⟩ := clause
      have htests : ∀ form ∈ ((test, expression) :: clauses).map Prod.fst,
          form.NativesIn (·.Avoids m.frames.size) := fun form hform =>
        h.avoids form (tests_subset (_ :: clauses) others hform)
      have hframe := h.machine.frameMore_push
        [("xs", .list (clauseForms ((test, expression) :: clauses) ++ others))]
      have hkeeps' := hkeeps.frameMore hframe htests h.scope (hkeeps.start.root_below h.machine)
      obtain ⟨after', hfalls', hafter⟩ := (fallsThrough_frameMore hframe htests h.scope).1 hfalls
      -- From here on everything is evaluated with the frame of the expansion.
      cases hfalls' with
      | @cons _ _ _ value m₁ _ htest htruth hrest =>
          have hlength' := length_clauseForms_lt hlength
          obtain ⟨hle, h₁⟩ := (h.enterCond _ (List.Subset.refl _)).yields List.mem_cons_self htest
          have hsize : m.frames.size ≤ m₁.frames.size := by
            rw [Machine.enterCond, Array.size_push] at hle
            exact Nat.le_of_succ_le hle
          have hothers := h₁.subset (subset_clauseForms_cons _ _)
          rcases passes_clause h hkeeps.start rfl hlength htest with hclause | hlimit
          · simp only [htruth, Bool.false_eq_true, ↓reduceIte] at hclause
            rcases ih hothers (hkeeps'.rest htest htruth) hlength' hrest with
              ⟨m', hpasses, hstands⟩ | hlimit
            · have hforms : ∀ form ∈ others, form.NativesIn (·.Avoids m.frames.size) :=
                fun form hform => h.avoids form (List.mem_append_right _ hform)
              exact .inl ⟨m', hclause.append hpasses,
                hstands.frameMore hafter hforms h.scope hsize⟩
            · exact .inr (hlimit.of_passes hclause)
          · exact .inr hlimit

/-- And where the next test comes to a true value, to its expression. -/
theorem passes_expression {others : List Value} {after' : Machine}
    (h : m.WellScopedFor scope (clauseForms clauses ++ test :: expression :: others))
    (hkeeps : KeepsConds scope root (clauses.map Prod.fst) m)
    (hlength : (clauseForms clauses ++ test :: expression :: others).length < countLimit)
    (hfalls : FallsThrough scope (clauses.map Prod.fst) m after)
    (htest : Yields scope test after value after') (htruth : value.isTruthy = true) :
    (∃ m', Passes (clauses.map Prod.fst ++ [test])
        ⟨condForm (clauseForms clauses ++ test :: expression :: others), scope, m⟩
        ⟨expression, scope, m'⟩ ∧
      after'.FramesMore m.frames.size (clauses.length + 1) m') ∨
    Situation.HitsLimit
      ⟨condForm (clauseForms clauses ++ test :: expression :: others), scope, m⟩ := by
  rcases passes_condForm h hkeeps hlength hfalls with ⟨m₁, hpasses, hstands⟩ | hlimit
  · have hsize : m.frames.size ≤ m₁.frames.size :=
      (h.fallsThrough (tests_subset clauses _) hfalls).1.trans hstands.frames.size_le
    obtain ⟨n, htest⟩ := htest
    obtain ⟨n', outcome', htest₁, hsame⟩ :=
      (hstands.forms test List.mem_cons_self).forth htest trivial
    cases hsame with
    | @value _ _ after₁ hmore =>
        have hwell := hstands.wellScoped
        have hframe := hwell.machine.frameMore_push [("xs", .list (test :: expression :: others))]
        obtain ⟨m', htest', hafter⟩ := (yields_frameMore hframe
          (hwell.avoids test List.mem_cons_self) hwell.scope).1 ⟨n', htest₁⟩
        have hlength' : (test :: expression :: others).length < countLimit := by
          rw [List.length_append] at hlength
          omega
        rcases passes_clause hwell hstands.conds rfl hlength' htest' with hclause | hlimit
        · rw [if_pos htruth] at hclause
          exact .inl ⟨m', hpasses.append hclause, hmore.trans (.more hsize hafter.1 .none)⟩
        · exact .inr (hlimit.of_passes hpasses)
  · exact .inr hlimit

/-- A `cond` means nested `if`, for any number of clauses; there may be extra forms after them.
Unless the depth limit is hit, a `cond` of the clauses comes to the same outcome as the nested
`if`, and what is left differs in frames of the expansions alone.  The tests are evaluated once
each and in order, as far as they come to false values; the expression of the first that does not
is in tail position, at the depth of the call.  One extra test makes no difference, unless all
others come to false values: then it is not evaluated, and there is no form at index 1. -/
theorem cond_means_nested_branches {m : Machine} {scope root : Scope}
    (clauses : List (Value × Value)) (extra : List Value)
    (h : m.WellScopedFor scope (clauseForms clauses ++ extra))
    (hkeeps : KeepsConds scope root (clauses.map Prod.fst) m)
    (hlength : (clauseForms clauses ++ extra).length < countLimit) :
    (extra = [] → Situation.AgreeUpToFrames m.frames.size (clauses.length + 1)
      ⟨nestedBranches .nil clauses, scope, m⟩ ⟨condForm (clauseForms clauses), scope, m⟩) ∧
    (∀ before later, clauses = before ++ later →
      ∀ after, FallsThrough scope (before.map Prod.fst) m after →
      (∃ m', Passes (before.map Prod.fst) ⟨condForm (clauseForms clauses ++ extra), scope, m⟩
          ⟨condForm (clauseForms later ++ extra), scope, m'⟩ ∧
        m'.depth = m.depth ∧ after.FramesMore m.frames.size before.length m') ∨
      Situation.HitsLimit ⟨condForm (clauseForms clauses ++ extra), scope, m⟩) ∧
    (∀ before test expression later, clauses = before ++ (test, expression) :: later →
      ∀ after, FallsThrough scope (before.map Prod.fst) m after →
      ∀ value after', Yields scope test after value after' → value.isTruthy = true →
      (∃ m', Passes (before.map Prod.fst ++ [test])
          ⟨condForm (clauseForms clauses ++ extra), scope, m⟩ ⟨expression, scope, m'⟩ ∧
        m'.depth = m.depth ∧ after'.FramesMore m.frames.size (before.length + 1) m') ∨
      Situation.HitsLimit ⟨condForm (clauseForms clauses ++ extra), scope, m⟩) ∧
    ∀ test, extra = [test] →
      ((∀ after, ¬ FallsThrough scope (clauses.map Prod.fst) m after) →
        Situation.AgreeUpToFrames m.frames.size clauses.length
          ⟨nestedBranches .nil clauses, scope, m⟩
          ⟨condForm (clauseForms clauses ++ [test]), scope, m⟩) ∧
      ∀ after, FallsThrough scope (clauses.map Prod.fst) m after →
        (∃ m', Situation.ComesTo ⟨condForm (clauseForms clauses ++ [test]), scope, m⟩
            (.error (.indexOutOfRange 1 1) m') ∧
          after.FramesMore m.frames.size (clauses.length + 1) m') ∨
        Situation.HitsLimit ⟨condForm (clauseForms clauses ++ [test]), scope, m⟩ := by
  refine ⟨?_, ?_, ?_, ?_⟩
  · rintro rfl
    rw [List.append_nil] at h hlength
    exact (sameUpToFrames_cond h hkeeps hlength).agree rfl
  · rintro before later rfl after hfalls
    rw [clauseForms_append, List.append_assoc] at h hlength ⊢
    rw [List.map_append] at hkeeps
    refine (passes_condForm h hkeeps.front hlength hfalls).imp_left ?_
    rintro ⟨m', hpasses, hstands⟩
    exact ⟨m', hpasses, depth_of_reaches hpasses.reaches, hstands.frames⟩
  · rintro before test expression later rfl after hfalls value after' htest htruth
    rw [clauseForms_append, List.append_assoc] at h hlength ⊢
    rw [List.map_append] at hkeeps
    refine (passes_expression h hkeeps.front hlength hfalls htest htruth).imp_left ?_
    rintro ⟨m', hpasses, hframes⟩
    exact ⟨m', hpasses, depth_of_reaches hpasses.reaches, hframes⟩
  · rintro test rfl
    refine ⟨fun hnone => (sameUpToFrames_cond_concat h hkeeps hlength hnone).agree rfl,
      fun after hfalls => ?_⟩
    obtain ⟨n, m', hcond, hframes⟩ := hfalls.evaluates_concat h hkeeps hlength
    exact (Situation.comesTo_or_hitsLimit hcond).imp_left fun hcomes => ⟨m', hcomes, hframes⟩

end

def falseThenZero : List (Value × Value) :=
  [(.bool false, .number 1), (.number 0, .symbol "list")]

/-- At the beginning of a run both tests are evaluated, and then the second expression. -/
theorem cond_means_nested_branches_falseThenZero :
    Situation.AgreeUpToFrames 1 3 ⟨nestedBranches .nil falseThenZero, ⟨0, []⟩, rootMachine noFiles⟩
      ⟨condForm (clauseForms falseThenZero), ⟨0, []⟩, rootMachine noFiles⟩ ∧
    ∃ m', Passes [.bool false, .number 0]
        ⟨condForm (clauseForms falseThenZero), ⟨0, []⟩, rootMachine noFiles⟩
        ⟨.symbol "list", ⟨0, []⟩, m'⟩ ∧
      m'.depth = 0 ∧ (rootMachine noFiles).FramesMore 1 2 m' := by
  have hplain : ∀ form ∈ clauseForms falseThenZero ++ [], form.IsPlain := by
    simp [clauseForms, falseThenZero, Value.IsPlain]
  have hforms : (rootMachine noFiles).WellScopedFor ⟨0, []⟩ (clauseForms falseThenZero ++ []) :=
    ⟨rootMachine_wellScoped noFiles, by decide,
      fun form hform => nativesIn_of_isPlain (hplain form hform)⟩
  have hkeeps : KeepsConds ⟨0, []⟩ ⟨0, []⟩ (falseThenZero.map Prod.fst) (rootMachine noFiles) :=
    .of_constants (rootMachine_readsConds noFiles) (by simp [falseThenZero, Value.IsConstant])
  obtain ⟨hagree, -, hpasses, -⟩ :=
    cond_means_nested_branches falseThenZero [] hforms hkeeps (by decide)
  refine ⟨hagree rfl, (hpasses [(.bool false, .number 1)] (.number 0) (.symbol "list") [] rfl
    (rootMachine noFiles) ?_ (.number 0) (rootMachine noFiles) ?_ rfl).resolve_right ?_⟩
  · exact .cons (.constant trivial) rfl .nil
  · exact .constant trivial
  · exact @Situation.not_hitsLimit_of_isValue _ 20 (by decide +kernel)

end Lisplet
