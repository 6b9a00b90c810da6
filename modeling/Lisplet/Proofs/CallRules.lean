/-
The rules at calls, read backwards.  Where levels are not counted, a form yields
a value or it does not; a list that is neither a macro call nor a special form
yields what the value of its head makes of the values of its operands.
-/
import Lisplet.Proofs.Trampoline

namespace Lisplet

open Filter

/-- More levels take nothing away from what has settled. -/
theorem Evaluates.mono {n n' : Nat} {form : Value} {scope : Scope} {m : Machine}
    {outcome : Outcome Value} (h : Evaluates n form scope m outcome)
    (hsettled : outcome.Settled) (hle : n ≤ n') : Evaluates n' form scope m outcome := by
  obtain ⟨steps, hsteps⟩ := (h.complete hle).exists
  rw [← hsteps] at hsettled ⊢
  exact evaluateLevels_sound steps n' form scope m hsettled

theorem evaluatesAll_cons_iff {n : Nat} {form : Value} {forms : List Value} {scope : Scope}
    {m : Machine} {outcome : Outcome (List Value)} :
    EvaluatesAll n (form :: forms) scope m outcome ↔
      (∃ value m₁ rest, Evaluates n form scope m (.value value m₁) ∧
        EvaluatesAll n forms scope m₁ rest ∧ outcome = rest.map (value :: ·)) ∨
      ∃ cause m₁, Evaluates n form scope m (.error cause m₁) ∧ outcome = .error cause m₁ := by
  constructor
  · intro h
    cases h with
    | cons hform hforms => exact .inl ⟨_, _, _, hform, hforms, rfl⟩
    | fails hform => exact .inr ⟨_, _, hform, rfl⟩
  · rintro (⟨value, m₁, rest, hform, hforms, rfl⟩ | ⟨cause, m₁, hform, rfl⟩)
    · exact .cons hform hforms
    · exact .fails hform

/-- A list is what its head and its operands are, and the context of its error. -/
theorem evaluates_list_iff {n : Nat} {head : Value} {operands : List Value} {scope : Scope}
    {m : Machine} {outcome : Outcome Value} :
    Evaluates (n + 1) (.list (head :: operands)) scope m outcome ↔
      ∃ own, EvaluatesList n head operands scope m own ∧
        outcome = own.noted fun m cause => cause.inContext fun _ =>
          m.text .readable (.list (head :: operands)) := by
  constructor
  · intro h
    cases h with
    | list hlist => exact ⟨_, hlist, rfl⟩
    | constant hconstant => exact hconstant.elim
  · rintro ⟨own, hlist, rfl⟩
    exact .list hlist

/-- Evaluated from the machine, the form comes to the value and leaves the other
machine, given the levels that it takes. -/
def Yields (scope : Scope) (form : Value) (m : Machine) (value : Value) (after : Machine) : Prop :=
  ∃ n, Evaluates n form scope m (.value value after)

/-- The forms, evaluated from left to right, come to the values. -/
def YieldsAll (scope : Scope) (forms : List Value) (m : Machine) (values : List Value)
    (after : Machine) : Prop :=
  ∃ n, EvaluatesAll n forms scope m (.value values after)

variable {scope : Scope} {m after : Machine}

@[simp] theorem yieldsAll_nil_iff {values : List Value} :
    YieldsAll scope [] m values after ↔ values = [] ∧ after = m := by
  constructor
  · rintro ⟨n, h⟩
    cases h
    exact ⟨rfl, rfl⟩
  · rintro ⟨rfl, rfl⟩
    exact ⟨0, .nil⟩

theorem EvaluatesAll.mono {n n' : Nat} {forms values : List Value}
    (h : EvaluatesAll n forms scope m (.value values after)) (hle : n ≤ n') :
    EvaluatesAll n' forms scope m (.value values after) := by
  induction forms generalizing m values with
  | nil =>
      cases h
      exact .nil
  | cons form forms ih =>
      rcases evaluatesAll_cons_iff.mp h with
        ⟨value, m₁, rest, hform, hforms, houtcome⟩ | ⟨cause, m₁, -, houtcome⟩
      · obtain ⟨others, rfl, rfl⟩ := Outcome.map_eq_value houtcome.symm
        exact .cons (hform.mono trivial hle) (ih hforms)
      · cases houtcome

theorem yieldsAll_cons_iff {form : Value} {forms values : List Value} :
    YieldsAll scope (form :: forms) m values after ↔
      ∃ value m₁ rest, Yields scope form m value m₁ ∧ YieldsAll scope forms m₁ rest after ∧
        values = value :: rest := by
  constructor
  · rintro ⟨n, h⟩
    rcases evaluatesAll_cons_iff.mp h with
      ⟨value, m₁, rest, hform, hforms, houtcome⟩ | ⟨cause, m₁, -, houtcome⟩
    · obtain ⟨others, rfl, rfl⟩ := Outcome.map_eq_value houtcome.symm
      exact ⟨value, m₁, others, ⟨n, hform⟩, ⟨n, hforms⟩, rfl⟩
    · cases houtcome
  · rintro ⟨value, m₁, rest, ⟨n, hform⟩, ⟨n', hforms⟩, rfl⟩
    refine ⟨max n n', ?_⟩
    exact .cons (hform.mono trivial (Nat.le_max_left n n')) (hforms.mono (Nat.le_max_right n n'))

theorem yieldsAll_singleton_iff {form : Value} {values : List Value} :
    YieldsAll scope [form] m values after ↔
      ∃ value, Yields scope form m value after ∧ values = [value] := by
  simp only [yieldsAll_cons_iff, yieldsAll_nil_iff]
  constructor
  · rintro ⟨value, m₁, _, hform, ⟨rfl, rfl⟩, rfl⟩
    exact ⟨value, hform, rfl⟩
  · rintro ⟨value, hform, rfl⟩
    exact ⟨value, after, [], hform, ⟨rfl, rfl⟩, rfl⟩

theorem yieldsAll_pair_iff {first second : Value} {values : List Value} :
    YieldsAll scope [first, second] m values after ↔
      ∃ value m₁ value', Yields scope first m value m₁ ∧ Yields scope second m₁ value' after ∧
        values = [value, value'] := by
  rw [yieldsAll_cons_iff]
  simp only [yieldsAll_singleton_iff]
  constructor
  · rintro ⟨value, m₁, _, hfirst, ⟨value', hsecond, rfl⟩, rfl⟩
    exact ⟨value, m₁, value', hfirst, hsecond, rfl⟩
  · rintro ⟨value, m₁, value', hfirst, hsecond, rfl⟩
    exact ⟨value, m₁, [value'], hfirst, ⟨value', hsecond, rfl⟩, rfl⟩

theorem YieldsAll.append {first second values values' : List Value} {m₁ : Machine}
    (hfirst : YieldsAll scope first m values m₁)
    (hsecond : YieldsAll scope second m₁ values' after) :
    YieldsAll scope (first ++ second) m (values ++ values') after := by
  induction first generalizing m values with
  | nil =>
      obtain ⟨rfl, rfl⟩ := yieldsAll_nil_iff.mp hfirst
      exact hsecond
  | cons form forms ih =>
      obtain ⟨value, m₂, rest, hform, hforms, rfl⟩ := yieldsAll_cons_iff.mp hfirst
      exact yieldsAll_cons_iff.mpr ⟨value, m₂, rest ++ values', hform, ih hforms, rfl⟩

theorem Yields.constant {form : Value} (hconstant : form.IsConstant) :
    Yields scope form m form m :=
  ⟨1, .constant hconstant⟩

theorem Yields.eq_of_constant {form value : Value} (h : Yields scope form m value after)
    (hconstant : form.IsConstant) : value = form ∧ after = m := by
  obtain ⟨n, h⟩ := h
  have hform : Evaluates 1 form scope m (.value form m) := .constant hconstant
  cases h.unique hform
  exact ⟨rfl, rfl⟩

theorem yields_symbol_iff {name : String} {value : Value} :
    Yields scope (.symbol name) m value after ↔ m.lookup? scope name = some value ∧ after = m := by
  constructor
  · rintro ⟨n, h⟩
    cases h with
    | symbol hbound => exact ⟨hbound, rfl⟩
    | constant hconstant => exact hconstant.elim
  · rintro ⟨hbound, rfl⟩
    exact ⟨1, .symbol hbound⟩

/-- A list whose head no name resolves to a macro is none to be expanded. -/
theorem macroCall?_eq_none {name : String} {operands : List Value}
    (h : ∀ code, m.lookup? scope name ≠ some (.closure true code)) :
    m.macroCall? scope (.list (.symbol name :: operands)) = none := by
  rw [Machine.macroCall?]
  split
  · next code hlookup => exact absurd hlookup (h code)
  · rfl

theorem evaluates_quote {n : Nat} {form : Value}
    (hquote : ∀ code, m.lookup? scope SpecialForm.quote.name ≠ some (.closure true code)) :
    Evaluates (n + 1) (.list [.symbol SpecialForm.quote.name, form]) scope m (.value form m) :=
  .list (.special (macroCall?_eq_none hquote) (SpecialForm.ofName?_name .quote) rfl .quote)

theorem yields_quote_iff {form value : Value}
    (hquote : ∀ code, m.lookup? scope SpecialForm.quote.name ≠ some (.closure true code)) :
    Yields scope (.list [.symbol SpecialForm.quote.name, form]) m value after ↔
      value = form ∧ after = m := by
  constructor
  · rintro ⟨n, h⟩
    have hform : Evaluates 1 (.list [.symbol SpecialForm.quote.name, form]) scope m
        (.value form m) := evaluates_quote hquote
    cases h.unique hform
    exact ⟨rfl, rfl⟩
  · rintro ⟨rfl, rfl⟩
    exact ⟨1, evaluates_quote hquote⟩

def Machine.Names (m : Machine) (scope : Scope) (name : String) (p : Primitive) : Prop :=
  ∃ native, m.lookup? scope name = some (.native native) ∧ native.operation = .primitive p

theorem Machine.Names.not_closure {name : String} {p : Primitive} (h : m.Names scope name p)
    (code : Nat) : m.lookup? scope name ≠ some (.closure true code) := by
  obtain ⟨native, hlookup, -⟩ := h
  rw [hlookup]
  nofun

theorem Machine.Names.congr {name : String} {p : Primitive} (h : m.Names scope name p)
    {m' : Machine} {scope' : Scope} (hlookup : m'.lookup? scope' name = m.lookup? scope name) :
    m'.Names scope' name p := by
  obtain ⟨native, hbound, hoperation⟩ := h
  exact ⟨native, hlookup.trans hbound, hoperation⟩

theorem Applies.exists_call? {n : Nat} {native : Native} {p : Primitive}
    {arguments : List Value} {value : Value} (hoperation : native.operation = .primitive p)
    (h : Applies n (.native native) arguments m (.value value after)) :
    ∃ act, p.call? arguments = some act ∧ act m = .value value after := by
  generalize houtcome : Outcome.value value after = outcome at h
  cases h with
  | primitive hoperation' hcall hact =>
      rw [hoperation] at hoperation'
      cases hoperation'
      exact ⟨_, hcall, hact⟩
  | swap hoperation' | evaluate hoperation' | countArguments hoperation' =>
      rw [hoperation] at hoperation'
      cases hoperation'
  | swapTarget | wrongCount | notCallable => cases houtcome

/-- A list that adds no context is what its head and its operands are. -/
theorem EvaluatesList.evaluates {n : Nat} {head : Value} {operands : List Value}
    {outcome : Outcome Value} (h : EvaluatesList n head operands scope m outcome)
    (hcontext : outcome.InContext) :
    Evaluates (n + 1) (.list (head :: operands)) scope m outcome := by
  have hlist := Evaluates.list h
  rwa [hcontext.noted_eq] at hlist

/-- A list that calls a primitive takes a level more than its operands. -/
theorem Machine.Names.evaluates {n : Nat} {name : String} {p : Primitive}
    {operands arguments : List Value} {m₁ : Machine} {act : Eval Value} {outcome : Outcome Value}
    (h : m.Names scope name p) (hname : SpecialForm.ofName? name = none)
    (hoperands : EvaluatesAll (n + 1) operands scope m (.value arguments m₁))
    (hcall : p.call? arguments = some act) (hact : act m₁ = outcome)
    (hcontext : outcome.InContext) :
    Evaluates (n + 2) (.list (.symbol name :: operands)) scope m outcome := by
  have hmacroCall : m.macroCall? scope (.list (.symbol name :: operands)) = none :=
    macroCall?_eq_none h.not_closure
  obtain ⟨native, hbound, hoperation⟩ := h
  have hparts : EvaluatesAll (n + 1) (.symbol name :: operands) scope m
      (.value (.native native :: arguments) m₁) := .cons (.symbol hbound) hoperands
  have happlies : Applies (n + 1) (.native native) arguments m₁ outcome :=
    .primitive hoperation hcall hact
  exact (EvaluatesList.call hmacroCall hname hparts (.other nofun happlies)).evaluates hcontext

/-- It fails where an operand does. -/
theorem Machine.Names.fails {n : Nat} {name : String} {p : Primitive} {operands : List Value}
    {cause : Error} {m₁ : Machine} (h : m.Names scope name p)
    (hname : SpecialForm.ofName? name = none)
    (hoperands : EvaluatesAll (n + 1) operands scope m (.error cause m₁)) :
    Evaluates (n + 2) (.list (.symbol name :: operands)) scope m (.error cause m₁) := by
  have hmacroCall : m.macroCall? scope (.list (.symbol name :: operands)) = none :=
    macroCall?_eq_none h.not_closure
  obtain ⟨native, hbound, -⟩ := h
  have hparts : EvaluatesAll (n + 1) (.symbol name :: operands) scope m (.error cause m₁) :=
    .cons (.symbol hbound) hoperands
  exact (EvaluatesList.partFails hmacroCall hname hparts).evaluates hoperands.inContext

/-- What a primitive does with the values of the operands, the list does. -/
theorem yields_primitive_iff {name : String} {p : Primitive} {operands : List Value}
    {value : Value} (h : m.Names scope name p) (hname : SpecialForm.ofName? name = none) :
    Yields scope (.list (.symbol name :: operands)) m value after ↔
      ∃ arguments m₁ act, YieldsAll scope operands m arguments m₁ ∧
        p.call? arguments = some act ∧ act m₁ = .value value after := by
  constructor
  · rintro ⟨n, hform⟩
    have hmacroCall : m.macroCall? scope (.list (.symbol name :: operands)) = none :=
      macroCall?_eq_none h.not_closure
    obtain ⟨native, hbound, hoperation⟩ := h
    obtain ⟨n, rfl⟩ := hform.exists_eq_succ
    obtain ⟨own, hlist, houtcome⟩ := evaluates_list_iff.mp hform
    cases Outcome.noted_eq_value houtcome
    cases hlist with
    | macroCall hmacroCall' =>
        rw [hmacroCall] at hmacroCall'
        cases hmacroCall'
    | special _ hform =>
        rw [hname] at hform
        cases hform
    | call _ _ hparts hcall =>
        obtain ⟨function, m₁, arguments, hhead, hoperands, hvalues⟩ :=
          yieldsAll_cons_iff.mp ⟨n, hparts⟩
        obtain ⟨hfunction, rfl⟩ := yields_symbol_iff.mp hhead
        rw [hbound] at hfunction
        cases hfunction
        cases hvalues
        cases hcall with
        | other _ hcall =>
            obtain ⟨act, hact, houtcome⟩ := hcall.exists_call? hoperation
            exact ⟨_, _, act, hoperands, hact, houtcome⟩
  · rintro ⟨arguments, m₁, act, ⟨n, hoperands⟩, hcall, hact⟩
    exact ⟨n + 2, h.evaluates hname (hoperands.mono (Nat.le_succ n)) hcall hact trivial⟩

theorem EvaluatesAll.unique {n n' : Nat} {forms : List Value}
    {outcome outcome' : Outcome (List Value)}
    (h : EvaluatesAll n forms scope m outcome) (h' : EvaluatesAll n' forms scope m outcome') :
    outcome' = outcome := by
  have hfirst := h.complete (Nat.le_max_left n n')
  have hsecond := h'.complete (Nat.le_max_right n n')
  obtain ⟨steps, hsteps, hsteps'⟩ := (hfirst.and hsecond).exists
  rw [← hsteps, hsteps']

/-- The list is a call of the function on the arguments: it is neither a macro call
nor a special form, and its parts come to them. -/
structure Calls (scope : Scope) (head : Value) (operands : List Value) (m : Machine)
    (function : Value) (arguments : List Value) (after : Machine) : Prop where
  macroCall : m.macroCall? scope (.list (head :: operands)) = none
  special : head.specialForm? = none
  parts : YieldsAll scope (head :: operands) m (function :: arguments) after

namespace Calls

variable {n : Nat} {head function : Value} {operands arguments : List Value}
  {outcome : Outcome Value}

theorem evaluatesCall (h : Calls scope head operands m function arguments after)
    (hlist : EvaluatesList n head operands scope m outcome) :
    EvaluatesCall n head function arguments after outcome := by
  obtain ⟨n', hparts⟩ := h.parts
  cases hlist with
  | macroCall hmacroCall | macroFails hmacroCall =>
      rw [h.macroCall] at hmacroCall
      cases hmacroCall
  | special _ hform | wrongCount _ hform =>
      have hnone := h.special
      rw [Value.specialForm?, hform] at hnone
      cases hnone
  | call _ _ hparts' hcall =>
      cases hparts.unique hparts'
      exact hcall
  | partFails _ _ hparts' => cases hparts.unique hparts'

theorem evaluates_body {code : Nat} {body : Value} {inner : Scope} {entered : Machine}
    (h : Calls scope head operands m (.closure false code) arguments after)
    (henter : enterClosure false code arguments after = .value (body, inner) entered)
    (hlist : Evaluates (n + 1) (.list (head :: operands)) scope m outcome) :
    Evaluates (n + 1) body inner entered outcome := by
  obtain ⟨own, hown, rfl⟩ := evaluates_list_iff.mp hlist
  cases h.evaluatesCall hown with
  | closure henter' htail =>
      rw [henter] at henter'
      cases henter'
      rw [htail.inContext.noted_eq]
      exact htail
  | refused henter' =>
      rw [henter] at henter'
      cases henter'
  | other hfunction => exact (hfunction code rfl).elim

theorem evaluates_of_body {code : Nat} {body : Value} {inner : Scope} {entered : Machine}
    (h : Calls scope head operands m (.closure false code) arguments after)
    (henter : enterClosure false code arguments after = .value (body, inner) entered)
    (hbody : Evaluates n body inner entered outcome) (hsettled : outcome.Settled) :
    ∃ n, Evaluates n (.list (head :: operands)) scope m outcome := by
  obtain ⟨n', hparts⟩ := h.parts
  have htail := hbody.mono hsettled (Nat.le_succ_of_le (Nat.le_max_right n' n))
  have hcall : EvaluatesCall (max n' n) head (.closure false code) arguments after outcome :=
    .closure henter htail
  have hlist := EvaluatesList.call h.macroCall h.special (hparts.mono (Nat.le_max_left n' n)) hcall
  exact ⟨_, hlist.evaluates htail.inContext⟩

theorem evaluates_form {native : Native} {root : Scope} {form : Value}
    (h : Calls scope head operands m (.native native) [form] after)
    (hoperation : native.operation = .evaluate root)
    (hlist : Evaluates (n + 1) (.list (head :: operands)) scope m outcome) :
    Evaluates n form root after outcome := by
  obtain ⟨own, hown, rfl⟩ := evaluates_list_iff.mp hlist
  cases h.evaluatesCall hown with
  | other _ hcall =>
      cases hcall with
      | evaluate hoperation' hform =>
          rw [hoperation] at hoperation'
          cases hoperation'
          rw [hform.inContext.noted_eq]
          exact hform
      | primitive hoperation' | countArguments hoperation' =>
          rw [hoperation] at hoperation'
          cases hoperation'
      | wrongCount hcount =>
          rw [hoperation] at hcount
          cases hcount
      | notCallable hfunction => exact (hfunction trivial).elim

theorem evaluates_of_form {native : Native} {root : Scope} {form : Value}
    (h : Calls scope head operands m (.native native) [form] after)
    (hoperation : native.operation = .evaluate root)
    (hform : Evaluates n form root after outcome) (hsettled : outcome.Settled) :
    ∃ n, Evaluates n (.list (head :: operands)) scope m outcome := by
  obtain ⟨n', hparts⟩ := h.parts
  have hmore := hform.mono hsettled (Nat.le_max_right n' n)
  have hcall : EvaluatesCall (max n' n) head (.native native) [form] after outcome :=
    .other nofun (.evaluate hoperation hmore)
  have hlist := EvaluatesList.call h.macroCall h.special (hparts.mono (Nat.le_max_left n' n)) hcall
  exact ⟨_, hlist.evaluates hmore.inContext⟩

end Calls

theorem EvaluatesSequence.inContext {n : Nat} {forms : List Value} {scope : Scope} {m : Machine}
    {outcome : Outcome Value} (h : EvaluatesSequence n forms scope m outcome) :
    outcome.InContext := by
  induction forms generalizing m with
  | nil =>
      cases h
      trivial
  | cons form forms ih =>
      cases h with
      | last htail => exact htail.inContext
      | cons _ hforms => exact ih hforms
      | fails hform => exact (hform.inContext : Outcome.InContext (.error _ _))

/-- A list with the name of a special form goes by the rule of that form, where the name is no
macro. -/
theorem evaluatesList_special_iff {n : Nat} {form : SpecialForm} {operands : List Value}
    {special : Special} {outcome : Outcome Value}
    (hname : ∀ code, m.lookup? scope form.name ≠ some (.closure true code))
    (hplace : form.place? operands = some special) :
    EvaluatesList n (.symbol form.name) operands scope m outcome ↔
      EvaluatesSpecial n special scope m outcome := by
  have hmacroCall : m.macroCall? scope (.list (.symbol form.name :: operands)) = none :=
    macroCall?_eq_none hname
  have hspecial := SpecialForm.ofName?_name form
  constructor
  · intro h
    cases h with
    | macroCall hmacroCall' | macroFails hmacroCall' =>
        rw [hmacroCall] at hmacroCall'
        cases hmacroCall'
    | special _ hform hplace' hspecial' =>
        rw [hspecial] at hform
        cases hform
        rw [hplace] at hplace'
        cases hplace'
        exact hspecial'
    | wrongCount _ hform hcount =>
        rw [hspecial] at hform
        cases hform
        rw [← place?_isSome, hplace] at hcount
        cases hcount
    | call _ hhead | partFails _ hhead =>
        rw [Value.specialForm?, hspecial] at hhead
        cases hhead
  · exact .special hmacroCall hspecial hplace

/-- Where the rule gives outcomes that have found their context, the list has just these. -/
theorem evaluates_special_iff {n : Nat} {form : SpecialForm} {operands : List Value}
    {special : Special} {outcome : Outcome Value}
    (hname : ∀ code, m.lookup? scope form.name ≠ some (.closure true code))
    (hplace : form.place? operands = some special)
    (hcontext : ∀ own, EvaluatesSpecial n special scope m own → own.InContext) :
    Evaluates (n + 1) (.list (.symbol form.name :: operands)) scope m outcome ↔
      EvaluatesSpecial n special scope m outcome := by
  rw [evaluates_list_iff]
  simp only [evaluatesList_special_iff hname hplace]
  constructor
  · rintro ⟨own, hown, rfl⟩
    rwa [(hcontext own hown).noted_eq]
  · exact fun hown => ⟨outcome, hown, ((hcontext outcome hown).noted_eq _).symm⟩

theorem evaluates_sequence_iff {n : Nat} {forms : List Value} {outcome : Outcome Value}
    (hname : ∀ code, m.lookup? scope SpecialForm.sequence.name ≠ some (.closure true code)) :
    Evaluates (n + 1) (.list (.symbol SpecialForm.sequence.name :: forms)) scope m outcome ↔
      EvaluatesSequence n forms scope m outcome := by
  have hrule (own : Outcome Value) :
      EvaluatesSpecial n (.sequence forms) scope m own ↔ EvaluatesSequence n forms scope m own := by
    refine ⟨fun h => ?_, .sequence⟩
    cases h with
    | sequence hforms => exact hforms
  rw [evaluates_special_iff hname (by rfl) fun own hown => ((hrule own).mp hown).inContext, hrule]

theorem EvaluatesSpecial.branch_inContext {n : Nat} {condition consequent : Value}
    {alternative : Option Value} {outcome : Outcome Value}
    (h : EvaluatesSpecial n (.branch condition consequent alternative) scope m outcome) :
    outcome.InContext := by
  cases h with
  | branchFails hcondition => exact (hcondition.inContext : Outcome.InContext (.error _ _))
  | branchTrue _ _ htail | branchFalse _ _ htail => exact htail.inContext
  | branchNil => trivial

/-- An `if` comes to what its alternative comes to, or would come to the same with any other. -/
theorem EvaluatesSpecial.branch_alternative {n : Nat} {condition consequent alternative : Value}
    {outcome : Outcome Value}
    (h : EvaluatesSpecial n (.branch condition consequent (some alternative)) scope m outcome) :
    (∃ value m₁, Evaluates n condition scope m (.value value m₁) ∧ value.isTruthy = false ∧
      Evaluates (n + 1) alternative scope m₁ outcome) ∨
    ∀ other, EvaluatesSpecial n (.branch condition consequent (some other)) scope m outcome := by
  cases h with
  | branchFails hcondition => exact .inr fun _ => .branchFails hcondition
  | branchTrue hcondition htruth htail => exact .inr fun _ => .branchTrue hcondition htruth htail
  | branchFalse hcondition htruth htail => exact .inl ⟨_, _, hcondition, htruth, htail⟩

theorem evaluates_branch_iff {n : Nat} {operands : List Value} {condition consequent : Value}
    {alternative : Option Value} {outcome : Outcome Value}
    (hname : ∀ code, m.lookup? scope SpecialForm.branch.name ≠ some (.closure true code))
    (hplace : SpecialForm.branch.place? operands =
      some (.branch condition consequent alternative)) :
    Evaluates (n + 1) (.list (.symbol SpecialForm.branch.name :: operands)) scope m outcome ↔
      EvaluatesSpecial n (.branch condition consequent alternative) scope m outcome :=
  evaluates_special_iff hname hplace fun _ hown => hown.branch_inContext

theorem CallsClosure.mono {n n' : Nat} {isMacro : Bool} {code : Nat} {arguments : List Value}
    {outcome : Outcome Value} (h : CallsClosure n isMacro code arguments m outcome)
    (hsettled : outcome.Settled) (hle : n ≤ n') :
    CallsClosure n' isMacro code arguments m outcome := by
  cases h with
  | body henter hbody => exact .body henter (hbody.mono hsettled hle)
  | refused henter => exact .refused henter

theorem CallsClosure.unique {n n' : Nat} {isMacro : Bool} {code : Nat} {arguments : List Value}
    {outcome outcome' : Outcome Value} (h : CallsClosure n isMacro code arguments m outcome)
    (h' : CallsClosure n' isMacro code arguments m outcome') : outcome' = outcome := by
  have hfirst := h.complete (Nat.le_max_left n n')
  have hsecond := h'.complete (Nat.le_max_right n n')
  obtain ⟨steps, hsteps, hsteps'⟩ := (hfirst.and hsecond).exists
  rw [← hsteps, hsteps']

/-- The form is a macro call, and the macro comes to the outcome. -/
def ExpandsTo (scope : Scope) (form : Value) (m : Machine) (outcome : Outcome Value) : Prop :=
  ∃ code arguments n, m.macroCall? scope form = some (code, arguments) ∧
    CallsClosure n true code arguments m outcome

end Lisplet
