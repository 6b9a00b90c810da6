/-
The expansion of `cond`.  The macro is a function of the language, called on the forms of its
clauses.  With a first clause it makes an `if` of it, whose alternative is a `cond` of the
other clauses; without clauses it makes `nil`, and of a test without an expression nothing.
Each expansion allocates the frame of the call and changes nothing else.
-/
import Lisplet.Proofs.FramesMore
import Lisplet.Proofs.Lookup
import Lisplet.Proofs.RootScope

namespace Lisplet

/-- The items of a list are counted in a number if there are fewer; no list that fits into memory
has more. -/
def countLimit : Nat := Nat.pow 2 63

def condForm (operands : List Value) : Value :=
  .list (.symbol "cond" :: operands)

def branchForm (test consequent alternative : Value) : Value :=
  .list [.symbol SpecialForm.branch.name, test, consequent, alternative]

/-- What the body of `cond` calls is as it was made. -/
structure Machine.CondCalls (m : Machine) (scope : Scope) : Prop where
  greater : m.Names scope ">" (.compare .greater)
  count : m.Names scope "count" .count
  list : m.Names scope "list" .list
  first : m.Names scope "first" .first
  nth : m.Names scope "nth" .nth
  cons : m.Names scope "cons" .cons
  rest : m.Names scope "rest" .rest
  branch : ∀ code, m.lookup? scope SpecialForm.branch.name ≠ some (.closure true code)
  quote : ∀ code, m.lookup? scope SpecialForm.quote.name ≠ some (.closure true code)

/-- In the scope, `cond` is the macro that was made in the root, where the names that its body
uses are unchanged, and `if` is no macro. -/
structure Machine.ReadsConds (m : Machine) (scope root : Scope) : Prop where
  cond : ∃ code, m.lookup? scope "cond" = some (.closure true code) ∧
    m.closures[code]? = some ⟨["&", "xs"], condBody, root⟩
  branch : ∀ code, m.lookup? scope SpecialForm.branch.name ≠ some (.closure true code)
  calls : m.CondCalls root

/-- So it is at the beginning of a run. -/
theorem rootMachine_readsConds (files : Files) :
    (rootMachine files).ReadsConds ⟨0, []⟩ ⟨0, []⟩ := by
  have hspecial (form : SpecialForm) (code : Nat)
      (hnone : (rootMachine files).lookup? ⟨0, []⟩ form.name = none) :
      (rootMachine files).lookup? ⟨0, []⟩ form.name ≠ some (.closure true code) := by
    rw [hnone]
    nofun
  exact {
    cond := ⟨2, rfl, rfl⟩
    branch := fun code => hspecial .branch code rfl
    calls :=
      { greater := ⟨_, rfl, rfl⟩
        count := ⟨_, rfl, rfl⟩
        list := ⟨_, rfl, rfl⟩
        first := ⟨_, rfl, rfl⟩
        nth := ⟨_, rfl, rfl⟩
        cons := ⟨_, rfl, rfl⟩
        rest := ⟨_, rfl, rfl⟩
        branch := fun code => hspecial .branch code rfl
        quote := fun code => hspecial .quote code rfl } }

def Machine.enterCond (m : Machine) (operands : List Value) : Machine :=
  { m with frames := m.frames.push [("xs", .list operands)] }

section Body

/-! The body of `cond`, evaluated where the names that it calls are as they were made. -/

variable {m : Machine} {scope : Scope} {forms : List Value}

theorem zero_lt_ofNat_length (hsome : forms ≠ []) (hlength : forms.length < countLimit) :
    (0 : Int64) < .ofNat forms.length := by
  rw [Int64.lt_iff_toInt_lt, Int64.toInt_ofNat_of_lt hlength]
  exact Int.natCast_pos.mpr (List.length_pos_of_ne_nil hsome)

variable (h : m.CondCalls scope) (hforms : m.lookup? scope "xs" = some (.list forms))
include h hforms

/-- The question whether there are forms left. -/
theorem evaluates_formsLeft : Evaluates 4
    (.list [.symbol ">", .list [.symbol "count", .symbol "xs"], .number 0]) scope m
    (.value (.bool (decide ((0 : Int64) < .ofNat forms.length))) m) := by
  have hcount : Evaluates 3 (.list [.symbol "count", .symbol "xs"]) scope m
      (.value (.number (.ofNat forms.length)) m) :=
    h.count.evaluates (by decide) (.cons (.symbol hforms) .nil) rfl rfl trivial
  have hzero : Evaluates 3 (.number 0) scope m (.value (.number 0) m) := .constant trivial
  refine h.greater.evaluates (by decide) (.cons hcount (.cons hzero .nil)) rfl ?_ trivial
  rw [← Bool.and_true (decide _)]
  rfl

theorem evaluates_nth_one {outcome : Outcome Value}
    (houtcome : Eval.ofExcept ((Value.list forms).nth 1) m = outcome)
    (hcontext : outcome.InContext) :
    Evaluates 4 (.list [.symbol "nth", .symbol "xs", .number 1]) scope m outcome := by
  have hone : Evaluates 3 (.number 1) scope m (.value (.number 1) m) := .constant trivial
  exact h.nth.evaluates (by decide) (.cons (.symbol hforms) (.cons hone .nil)) rfl houtcome hcontext

end Body

section Cases

variable {m : Machine} {scope : Scope} {test expression : Value} {others : List Value}
  (h : m.CondCalls scope)
include h

theorem evaluates_condBody_nil (hforms : m.lookup? scope "xs" = some (.list [])) :
    Evaluates 5 condBody scope m (.value .nil m) :=
  (evaluates_branch_iff h.branch rfl).mpr (.branchNil (evaluates_formsLeft h hforms) rfl)

theorem evaluates_condBody_cons
    (hforms : m.lookup? scope "xs" = some (.list (test :: expression :: others)))
    (hlength : (test :: expression :: others).length < countLimit) :
    Evaluates 5 condBody scope m
      (.value (branchForm test expression (condForm others)) m) := by
  have hcondition := evaluates_formsLeft h hforms
  rw [decide_eq_true (zero_lt_ofNat_length (List.cons_ne_nil _ _) hlength)] at hcondition
  have hfirst : Evaluates 4 (.list [.symbol "first", .symbol "xs"]) scope m (.value test m) :=
    h.first.evaluates (by decide) (.cons (.symbol hforms) .nil) rfl rfl trivial
  have hnth : Evaluates 4 (.list [.symbol "nth", .symbol "xs", .number 1]) scope m
      (.value expression m) := evaluates_nth_one h hforms rfl trivial
  have hrest : Evaluates 2 (.list [.symbol "rest", .symbol "xs"]) scope m
      (.value (.list (expression :: others)) m) :=
    h.rest.evaluates (by decide) (.cons (.symbol hforms) .nil) rfl rfl trivial
  have hothers : Evaluates 3 (.list [.symbol "rest", .list [.symbol "rest", .symbol "xs"]]) scope m
      (.value (.list others) m) :=
    h.rest.evaluates (by decide) (.cons hrest .nil) rfl rfl trivial
  have hcons : Evaluates 4 (.list [.symbol "cons", .list [.symbol "quote", .symbol "cond"],
      .list [.symbol "rest", .list [.symbol "rest", .symbol "xs"]]]) scope m
      (.value (condForm others) m) :=
    h.cons.evaluates (by decide) (.cons (evaluates_quote h.quote) (.cons hothers .nil)) rfl rfl
      trivial
  refine (evaluates_branch_iff h.branch rfl).mpr (.branchTrue hcondition rfl ?_)
  exact h.list.evaluates (by decide) (.cons (evaluates_quote h.quote) (.cons hfirst (.cons hnth
    (.cons hcons .nil)))) rfl rfl trivial

theorem evaluates_condBody_singleton (hforms : m.lookup? scope "xs" = some (.list [test])) :
    Evaluates 5 condBody scope m (.error (.indexOutOfRange 1 1) m) := by
  have hcondition := evaluates_formsLeft h hforms
  have hfirst : Evaluates 4 (.list [.symbol "first", .symbol "xs"]) scope m (.value test m) :=
    h.first.evaluates (by decide) (.cons (.symbol hforms) .nil) rfl rfl trivial
  have hnth : Evaluates 4 (.list [.symbol "nth", .symbol "xs", .number 1]) scope m
      (.error (.indexOutOfRange 1 1) m) := evaluates_nth_one h hforms rfl fun _ => rfl
  refine (evaluates_branch_iff h.branch rfl).mpr (.branchTrue hcondition rfl ?_)
  exact h.list.fails (by decide) (.cons (evaluates_quote h.quote) (.cons hfirst (.fails hnth)))

end Cases

section Expansion

variable {m m' : Machine} {scope scope' root : Scope} {operands : List Value}

theorem Machine.CondCalls.congr (h : m.CondCalls scope)
    (hlookup : ∀ name, name ≠ "xs" → m'.lookup? scope' name = m.lookup? scope name) :
    m'.CondCalls scope' where
  greater := h.greater.congr (hlookup _ (by decide))
  count := h.count.congr (hlookup _ (by decide))
  list := h.list.congr (hlookup _ (by decide))
  first := h.first.congr (hlookup _ (by decide))
  nth := h.nth.congr (hlookup _ (by decide))
  cons := h.cons.congr (hlookup _ (by decide))
  rest := h.rest.congr (hlookup _ (by decide))
  branch code := by
    rw [hlookup _ (by decide)]
    exact h.branch code
  quote code := by
    rw [hlookup _ (by decide)]
    exact h.quote code

/-- The frame of the call hides none of the names that the body calls. -/
theorem Machine.CondCalls.inside (h : m.CondCalls root) (hroot : root.Below m.frames.size) :
    (m.enterCond operands).CondCalls (root.enter m.frames.size) := by
  refine h.congr fun name hname => Machine.lookup?_inside hroot ?_
  rw [Frame.get?, if_neg (Ne.symm hname), Frame.get?]

theorem Machine.lookup?_enterCond (hroot : root.Below m.frames.size) :
    (m.enterCond operands).lookup? (root.enter m.frames.size) "xs" = some (.list operands) := by
  rw [Machine.enterCond, Machine.lookup?_enter_push hroot]
  rfl

namespace Machine.ReadsConds

/-- A frame that the scopes do not lead to changes nothing. -/
theorem frameMore {k : Nat} (h : m.ReadsConds scope root) (hm : m.FrameMore k m')
    (hscope : scope.Below k) (hroot : root.Below k) : m'.ReadsConds scope root := by
  have hlookup := hm.lookup? scope
  have hlookupRoot := hm.lookup? root
  rw [hscope.shift_eq] at hlookup
  rw [hroot.shift_eq] at hlookupRoot
  obtain ⟨code, hbound, hclosure⟩ := h.cond
  refine ⟨⟨code, (hlookup "cond").trans hbound, ?_⟩, fun code => ?_,
    h.calls.congr fun name _ => hlookupRoot name⟩
  · rw [hm.closures, Array.getElem?_map, hclosure, Option.map_some, Closure.shift,
      hroot.shift_eq]
  · rw [hlookup]
    exact h.branch code

theorem root_below (h : m.ReadsConds scope root) (hm : m.WellScoped) :
    root.Below m.frames.size := by
  obtain ⟨code, -, hclosure⟩ := h.cond
  exact hm.closures _ (Array.mem_of_getElem? hclosure)

/-- A call of `cond` is expanded to what the body of the macro comes to. -/
theorem expandsTo (h : m.ReadsConds scope root) {n : Nat} {outcome : Outcome Value}
    (hbody : Evaluates n condBody (root.enter m.frames.size) (m.enterCond operands) outcome) :
    ExpandsTo scope (condForm operands) m outcome := by
  obtain ⟨code, hbound, hclosure⟩ := h.cond
  refine ⟨code, operands, n, ?_, .body ?_ hbody⟩
  · rw [condForm, Machine.macroCall?, hbound]
  · simp only [enterClosure, Eval.bind_apply, Eval.read_apply, Outcome.andThen_value, hclosure]
    rfl

variable (h : m.ReadsConds scope root) (hm : m.WellScoped)
include h hm

theorem expandsTo_nil : ExpandsTo scope (condForm []) m (.value .nil (m.enterCond [])) := by
  have hroot := h.root_below hm
  exact h.expandsTo (evaluates_condBody_nil (h.calls.inside hroot) (lookup?_enterCond hroot))

theorem expandsTo_cons {test expression : Value} {others : List Value}
    (hoperands : operands = test :: expression :: others) (hlength : operands.length < countLimit) :
    ExpandsTo scope (condForm operands) m
      (.value (branchForm test expression (condForm others)) (m.enterCond operands)) := by
  have hroot := h.root_below hm
  subst hoperands
  exact h.expandsTo
    (evaluates_condBody_cons (h.calls.inside hroot) (lookup?_enterCond hroot) hlength)

theorem expandsTo_singleton (test : Value) :
    ExpandsTo scope (condForm [test]) m
      (.error (.indexOutOfRange 1 1) (m.enterCond [test])) := by
  have hroot := h.root_below hm
  exact h.expandsTo
    (evaluates_condBody_singleton (h.calls.inside hroot) (lookup?_enterCond hroot))

theorem evaluates_singleton (test : Value) :
    ∃ n, Evaluates n (condForm [test]) scope m
      (.error (.indexOutOfRange 1 1) (m.enterCond [test])) := by
  obtain ⟨code, arguments, n, hmacroCall, hfails⟩ := h.expandsTo_singleton hm test
  exact ⟨n + 1, (EvaluatesList.macroFails hmacroCall hfails).evaluates fun _ => rfl⟩

end Machine.ReadsConds

end Expansion

end Lisplet
