/-
Nested `if`.  A `cond` comes to what its clauses come to as an `if` inside the other: each
expansion makes an `if` of one clause, and leaves a frame behind that no scope leads to.  The
induction is on the clauses.  After each expansion the frame is taken away again, since the
`if` comes to the same without it, so that the tests need to keep `cond` as it is only where
there are no expansions.
-/
import Lisplet.Proofs.CondExpansion

namespace Lisplet

/-- Clauses as the operands of a `cond`: each test is followed by its expression. -/
def clauseForms : List (Value × Value) → List Value
  | [] => []
  | (test, expression) :: clauses => test :: expression :: clauseForms clauses

/-- Clauses as one `if` inside the other, and a form for when all tests are false. -/
def nestedBranches (last : Value) : List (Value × Value) → Value
  | [] => last
  | (test, expression) :: clauses =>
      branchForm test expression (nestedBranches last clauses)

/-- Evaluated from left to right, all tests come to false values. -/
inductive FallsThrough (scope : Scope) : List Value → Machine → Machine → Prop
  | nil {m} : FallsThrough scope [] m m
  | cons {test tests m value m₁ after} (htest : Yields scope test m value m₁)
      (htruth : value.isTruthy = false) (hrest : FallsThrough scope tests m₁ after) :
      FallsThrough scope (test :: tests) m after

/-- As long as the tests come to false values, what `cond` means is what it meant at first. -/
def KeepsConds (scope root : Scope) (tests : List Value) (m : Machine) : Prop :=
  ∀ front, front <+: tests → ∀ after, FallsThrough scope front m after →
    after.ReadsConds scope root

variable {m m' m₁ after : Machine} {scope root : Scope} {test value : Value} {tests : List Value}
  {clauses : List (Value × Value)}

theorem clauseForms_append (before later : List (Value × Value)) :
    clauseForms (before ++ later) = clauseForms before ++ clauseForms later := by
  induction before with
  | nil => rfl
  | cons clause before ih =>
      rw [List.cons_append, clauseForms, clauseForms, ih]
      rfl

theorem tests_subset (clauses : List (Value × Value)) (others : List Value) :
    clauses.map Prod.fst ⊆ clauseForms clauses ++ others := by
  induction clauses with
  | nil => exact List.nil_subset _
  | cons clause clauses ih =>
      exact List.cons_subset_cons _ (List.subset_cons_of_subset _ ih)

/-- After its first clause a `cond` has fewer forms. -/
theorem length_clauseForms_lt {clause : Value × Value} {others : List Value} {bound : Nat}
    (h : (clauseForms (clause :: clauses) ++ others).length < bound) :
    (clauseForms clauses ++ others).length < bound := by
  simp only [clauseForms, List.cons_append, List.length_cons] at h
  omega

theorem subset_clauseForms_cons (clause : Value × Value) (others : List Value) :
    clauseForms clauses ++ others ⊆ clauseForms (clause :: clauses) ++ others :=
  List.subset_cons_of_subset _ (List.subset_cons_self _ _)

/-- No native functions are in an expansion but those of the forms. -/
theorem nativesIn_branchForm {allowed : Native → Prop} {expression : Value} {others : List Value}
    (h : ∀ form ∈ test :: expression :: others, form.NativesIn allowed) :
    (branchForm test expression (condForm others)).NativesIn allowed := by
  rw [List.forall_mem_cons, List.forall_mem_cons] at h
  have hsymbol (name : String) : (Value.symbol name).NativesIn allowed :=
    nativesIn_of_isPlain trivial
  have hothers : (condForm others).NativesIn allowed :=
    nativesIn_list.mpr (List.forall_mem_cons.mpr ⟨hsymbol _, h.2.2⟩)
  refine nativesIn_list.mpr ?_
  simp only [List.forall_mem_cons]
  exact ⟨hsymbol _, h.1, h.2.1, hothers, fun _ hnone => (List.not_mem_nil hnone).elim⟩

theorem Machine.WellScopedFor.fallsThrough {forms : List Value} (h : m.WellScopedFor scope forms)
    (htests : tests ⊆ forms) (hfalls : FallsThrough scope tests m after) :
    m.frames.size ≤ after.frames.size ∧ after.WellScopedFor scope forms := by
  induction hfalls with
  | nil => exact ⟨le_rfl, h⟩
  | cons htest _ _ ih =>
      rw [List.cons_subset] at htests
      obtain ⟨hle, h₁⟩ := h.yields htests.1 htest
      obtain ⟨hle', hafter⟩ := ih h₁ htests.2
      exact ⟨hle.trans hle', hafter⟩

namespace KeepsConds

theorem start (h : KeepsConds scope root tests m) : m.ReadsConds scope root :=
  h [] List.nil_prefix m .nil

theorem front {tests' : List Value} (h : KeepsConds scope root (tests ++ tests') m) :
    KeepsConds scope root tests m :=
  fun front hfront => h front (hfront.trans (List.prefix_append tests tests'))

theorem rest (h : KeepsConds scope root (test :: tests) m) (htest : Yields scope test m value m₁)
    (htruth : value.isTruthy = false) : KeepsConds scope root tests m₁ :=
  fun front hfront after hfalls =>
    h (test :: front) ((List.prefix_cons_inj test).mpr hfront) after (.cons htest htruth hfalls)

/-- Tests that are constants change nothing. -/
theorem of_constants (h : m.ReadsConds scope root) (htests : ∀ test ∈ tests, test.IsConstant) :
    KeepsConds scope root tests m := by
  intro front hfront after hfalls
  have hconstants : ∀ test ∈ front, test.IsConstant := fun test htest =>
    htests test (hfront.subset htest)
  clear hfront
  induction hfalls with
  | nil => exact h
  | cons htest _ _ ih =>
      rw [List.forall_mem_cons] at hconstants
      obtain ⟨-, rfl⟩ := htest.eq_of_constant hconstants.1
      exact ih h hconstants.2

end KeepsConds

namespace Situation

variable {size count : Nat}

/-- An `if` comes to the same with another alternative that comes to the same. -/
theorem SameUpToFrames.branch {consequent alternative alternative' : Value}
    (hname : ∀ code, m.lookup? scope SpecialForm.branch.name ≠ some (.closure true code))
    (h : ∀ value m₁, Yields scope test m value m₁ → value.isTruthy = false →
      SameUpToFrames size count ⟨alternative, scope, m₁⟩ ⟨alternative', scope, m₁⟩) :
    SameUpToFrames size count ⟨branchForm test consequent alternative, scope, m⟩
      ⟨branchForm test consequent alternative', scope, m⟩ := by
  constructor
  · intro n outcome houtcome hsettled
    obtain ⟨n, rfl⟩ := houtcome.exists_eq_succ
    rcases ((evaluates_branch_iff hname rfl).mp houtcome).branch_alternative with
      ⟨value, m₁, htest, htruth, htail⟩ | hother
    · obtain ⟨n', outcome', htail', hsame⟩ := (h value m₁ ⟨n, htest⟩ htruth).forth htail hsettled
      have htest' := htest.mono trivial (Nat.le_max_left n n')
      have hmore := htail'.mono (hsame.settled_iff.mp hsettled)
        (Nat.le_succ_of_le (Nat.le_max_right n n'))
      exact ⟨_, outcome', (evaluates_branch_iff hname rfl).mpr (.branchFalse htest' htruth hmore),
        hsame⟩
    · exact ⟨n + 1, outcome, (evaluates_branch_iff hname rfl).mpr (hother _), .refl hsettled⟩
  · intro n outcome' houtcome' hsettled
    obtain ⟨n, rfl⟩ := houtcome'.exists_eq_succ
    rcases ((evaluates_branch_iff hname rfl).mp houtcome').branch_alternative with
      ⟨value, m₁, htest, htruth, htail'⟩ | hother
    · obtain ⟨outcome, htail, hsame⟩ := (h value m₁ ⟨n, htest⟩ htruth).back htail' hsettled
      exact ⟨outcome, (evaluates_branch_iff hname rfl).mpr (.branchFalse htest htruth htail),
        hsame⟩
    · exact ⟨outcome', (evaluates_branch_iff hname rfl).mpr (hother _), .refl hsettled⟩

/-- What stands innermost matters only where all tests come to false values. -/
theorem sameUpToFrames_nestedBranches {last last' : Value}
    (hkeeps : KeepsConds scope root (clauses.map Prod.fst) m)
    (h : ∀ after, FallsThrough scope (clauses.map Prod.fst) m after →
      SameUpToFrames size count ⟨last, scope, after⟩ ⟨last', scope, after⟩) :
    SameUpToFrames size count ⟨nestedBranches last clauses, scope, m⟩
      ⟨nestedBranches last' clauses, scope, m⟩ := by
  induction clauses generalizing m with
  | nil => exact h m .nil
  | cons clause clauses ih =>
      refine .branch hkeeps.start.branch fun value m₁ htest htruth => ?_
      exact ih (hkeeps.rest htest htruth) fun after hfalls => h after (.cons htest htruth hfalls)

/-- A form comes to the same inside a call of `cond` as outside it. -/
theorem sameUpToFrames_enterCond {forms operands : List Value} {form : Value}
    (h : m.WellScopedFor scope forms) (hform : form.NativesIn (·.Avoids m.frames.size)) :
    SameUpToFrames m.frames.size 1 ⟨form, scope, m⟩ ⟨form, scope, m.enterCond operands⟩ :=
  .of_frameMore (h.machine.frameMore_push _) hform h.scope

/-- Clauses at the front of a `cond` are `if`s around the `cond` of the other forms. -/
theorem sameUpToFrames_condForm {others : List Value}
    (h : m.WellScopedFor scope (clauseForms clauses ++ others))
    (hkeeps : KeepsConds scope root (clauses.map Prod.fst) m)
    (hlength : (clauseForms clauses ++ others).length < countLimit) :
    SameUpToFrames m.frames.size clauses.length
      ⟨nestedBranches (condForm others) clauses, scope, m⟩
      ⟨condForm (clauseForms clauses ++ others), scope, m⟩ := by
  induction clauses generalizing m with
  | nil => exact .refl _
  | cons clause clauses ih =>
      obtain ⟨test, expression⟩ := clause
      have hinner : SameUpToFrames m.frames.size clauses.length
          ⟨nestedBranches (condForm others) ((test, expression) :: clauses), scope, m⟩
          ⟨branchForm test expression (condForm (clauseForms clauses ++ others)), scope, m⟩ := by
        refine .branch hkeeps.start.branch fun value m₁ htest htruth => ?_
        obtain ⟨hle, h₁⟩ := h.yields List.mem_cons_self htest
        have hrest := h₁.subset (subset_clauseForms_cons _ _)
        have hlength' := length_clauseForms_lt hlength
        exact (ih hrest (hkeeps.rest htest htruth) hlength').mono hle le_rfl
      -- The tests are compared without the frame of the expansion, which is added last.
      have hbranch := nativesIn_branchForm h.avoids
      exact (hinner.trans (sameUpToFrames_enterCond h hbranch)).trans
        (sameUpToFrames_of_expandsTo (hkeeps.start.expandsTo_cons h.machine rfl hlength) _)

theorem sameUpToFrames_nil {forms : List Value} (h : m.WellScopedFor scope forms)
    (hconds : m.ReadsConds scope root) :
    SameUpToFrames m.frames.size 1 ⟨.nil, scope, m⟩ ⟨condForm [], scope, m⟩ := by
  have hnil : Value.nil.NativesIn (·.Avoids m.frames.size) := nativesIn_of_isPlain trivial
  exact (sameUpToFrames_enterCond h hnil).trans
    (sameUpToFrames_of_expandsTo (hconds.expandsTo_nil h.machine) _)

end Situation

/-- Where all tests come to false values, nested `if` is what stands innermost. -/
theorem FallsThrough.evaluates {n : Nat} {last : Value} {outcome : Outcome Value}
    (h : FallsThrough scope (clauses.map Prod.fst) m after)
    (hkeeps : KeepsConds scope root (clauses.map Prod.fst) m)
    (hlast : Evaluates n last scope after outcome) (hsettled : outcome.Settled) :
    ∃ n, Evaluates n (nestedBranches last clauses) scope m outcome := by
  induction clauses generalizing m with
  | nil =>
      cases h
      exact ⟨n, hlast⟩
  | cons clause clauses ih =>
      cases h with
      | cons htest htruth hrest =>
          obtain ⟨n', hbranches⟩ := ih hrest (hkeeps.rest htest htruth)
          obtain ⟨n, htest⟩ := htest
          have htest' := htest.mono trivial (Nat.le_max_left n n')
          have htail := hbranches.mono hsettled (Nat.le_succ_of_le (Nat.le_max_right n n'))
          exact ⟨_, (evaluates_branch_iff hkeeps.start.branch rfl).mpr
            (.branchFalse htest' htruth htail)⟩

theorem sameUpToFrames_cond (h : m.WellScopedFor scope (clauseForms clauses))
    (hkeeps : KeepsConds scope root (clauses.map Prod.fst) m)
    (hlength : (clauseForms clauses).length < countLimit) :
    Situation.SameUpToFrames m.frames.size (clauses.length + 1)
      ⟨nestedBranches .nil clauses, scope, m⟩ ⟨condForm (clauseForms clauses), scope, m⟩ := by
  rw [← List.append_nil (clauseForms clauses)] at h hlength ⊢
  have hnil : Situation.SameUpToFrames m.frames.size 1 ⟨nestedBranches .nil clauses, scope, m⟩
      ⟨nestedBranches (condForm []) clauses, scope, m⟩ := by
    refine Situation.sameUpToFrames_nestedBranches hkeeps fun after hfalls => ?_
    obtain ⟨hle, hafter⟩ := h.fallsThrough (tests_subset clauses []) hfalls
    have hconds := hkeeps _ (List.prefix_refl _) after hfalls
    exact (Situation.sameUpToFrames_nil hafter hconds).mono hle le_rfl
  exact (hnil.trans (Situation.sameUpToFrames_condForm h hkeeps hlength)).mono le_rfl (by omega)

section ExtraTest

variable (h : m.WellScopedFor scope (clauseForms clauses ++ [test]))
  (hkeeps : KeepsConds scope root (clauses.map Prod.fst) m)
  (hlength : (clauseForms clauses ++ [test]).length < countLimit)
include h hkeeps hlength

/-- A test more makes no difference unless all others come to false values. -/
theorem sameUpToFrames_cond_concat
    (hfalls : ∀ after, ¬ FallsThrough scope (clauses.map Prod.fst) m after) :
    Situation.SameUpToFrames m.frames.size clauses.length
      ⟨nestedBranches .nil clauses, scope, m⟩
      ⟨condForm (clauseForms clauses ++ [test]), scope, m⟩ := by
  have hlast : Situation.SameUpToFrames m.frames.size 0 ⟨nestedBranches .nil clauses, scope, m⟩
      ⟨nestedBranches (condForm [test]) clauses, scope, m⟩ :=
    Situation.sameUpToFrames_nestedBranches hkeeps fun after hafter => (hfalls after hafter).elim
  exact (hlast.trans (Situation.sameUpToFrames_condForm h hkeeps hlength)).mono le_rfl
    (by omega)

/-- If they do it has no expression. -/
theorem FallsThrough.evaluates_concat (hfalls : FallsThrough scope (clauses.map Prod.fst) m after) :
    ∃ n m', Evaluates n (condForm (clauseForms clauses ++ [test])) scope m
        (.error (.indexOutOfRange 1 1) m') ∧
      after.FramesMore m.frames.size (clauses.length + 1) m' := by
  obtain ⟨hle, hafter⟩ := h.fallsThrough (tests_subset clauses [test]) hfalls
  have hconds := hkeeps _ (List.prefix_refl _) after hfalls
  obtain ⟨n, hlast⟩ := hconds.evaluates_singleton hafter.machine test
  have hsettled : (Outcome.error (.indexOutOfRange 1 1) (after.enterCond [test]) :
      Outcome Value).Settled := nofun
  obtain ⟨n, hbranches⟩ := hfalls.evaluates hkeeps hlast hsettled
  obtain ⟨n', outcome', hcond, hsame⟩ :=
    (Situation.sameUpToFrames_condForm h hkeeps hlength).forth hbranches hsettled
  cases hsame with
  | error hmore =>
      have hframe := (hafter.machine.frameMore_push [("xs", .list [test])]).1
      exact ⟨n', _, hcond, .more hle hframe hmore⟩

end ExtraTest

end Lisplet
