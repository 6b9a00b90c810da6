/-
Errors that primitives, calls and special forms raise on their own account.  They have
words that are fixed: the names in them are those of primitives, of special forms and of
kinds of values, and no text of the program gets into them.  None says that a text has
no form, and one that a name is missing after the rest marker comes from a closure with
such parameters.  What forms with parameters or bindings raise is no complaint of a count.
-/
import Lisplet.Proofs.Calls
import Lisplet.Proofs.ErrorMessage
import Lisplet.Proofs.StepParts

namespace Lisplet

variable {α β : Type}

/-- The rest marker is the last of the parameters of some closure. -/
def Machine.HasUnnamedRest (m : Machine) : Prop :=
  ∃ closure ∈ m.closures, ∃ marker, closure.parameters.dropWhile (· ≠ restMarker) = [marker]

namespace Error

/-- The error is one that evaluation raises on its own account, with this machine. -/
structure IsOwn (cause : Error) (m : Machine) : Prop where
  bare : cause.IsBare
  read : ∀ e, cause = .read e → e.kind ≠ .noForm
  rest : ∀ context, cause = .evaluation .unnamedRest context → m.HasUnnamedRest

theorem IsOwn.of_message?_none {cause : Error} (h : cause.message? = none)
    (hread : ∀ e, cause = .read e → e.kind ≠ .noForm) (m : Machine) : cause.IsOwn m where
  bare := .of_message?_none h
  read := hread
  rest := by
    rintro context rfl
    cases h

theorem IsOwn.naming {cause : Error} {m : Machine} (h : cause.IsOwn m) (callee : Unit → Rendering) :
    (cause.naming callee).IsOwn m := by
  cases cause with
  | arity expected got named =>
      refine .of_message?_none ?_ ?_ m
      · rw [message?_naming]
        rfl
      · cases named <;> nofun
  | _ => exact h

theorem isOwn_unmet {demand : Demand} (h : '\n' ∉ demand.text.toList) (got : Value) (m : Machine) :
    (unmet demand got).IsOwn m where
  bare := by
    refine .of_oneLine (message?_type _) ?_
    rw [TypeFault.text]
    simp only [String.toList_append, List.mem_append, not_or]
    exact ⟨⟨h, by decide⟩, by cases got.kind <;> decide⟩
  read := nofun
  rest := nofun

theorem isBare_evaluation {fault : EvaluationFault} (h : '\n' ∉ fault.text.toList) :
    (evaluation fault none).IsBare :=
  .of_oneLine (message?_evaluation fault) h

theorem isOwn_evaluation {fault : EvaluationFault} (h : '\n' ∉ fault.text.toList)
    (hfault : fault ≠ .unnamedRest) (m : Machine) : (evaluation fault none).IsOwn m where
  bare := isBare_evaluation h
  read := nofun
  rest := by
    rintro context ⟨⟩
    exact (hfault rfl).elim

theorem isOwn_tooDeep (m : Machine) : (evaluation .tooDeep none).IsOwn m :=
  isOwn_evaluation (by decide +kernel) (by decide) m

end Error

/-- A list is mapped up to the first item that fails. -/
theorem exists_of_mapM_error {act : α → Except Error β} {items : List α} {cause : Error}
    (h : items.mapM act = .error cause) : ∃ item ∈ items, act item = .error cause := by
  induction items with
  | nil => cases h
  | cons item items ih =>
      rw [List.mapM_cons] at h
      rcases hitem : act item with own | result
      · rw [hitem] at h
        cases h
        exact ⟨item, List.mem_cons_self, hitem⟩
      · rcases hitems : items.mapM act with own | results
        · rw [hitem, hitems] at h
          cases h
          obtain ⟨other, hmem, hother⟩ := ih hitems
          exact ⟨other, List.mem_cons_of_mem item hmem, hother⟩
        · rw [hitem, hitems] at h
          cases h

/-- The result is a value or an error that evaluation raises, with whatever machine. -/
def OwnFailure (result : Except Error α) : Prop :=
  ∀ cause, result = .error cause → ∀ m, cause.IsOwn m

namespace OwnFailure

theorem ok (result : α) : OwnFailure (.ok result) := by
  rintro _ ⟨⟩

theorem error {cause : Error} (h : ∀ m, cause.IsOwn m) :
    OwnFailure (.error cause : Except Error α) := by
  rintro _ ⟨⟩
  exact h

theorem bind {result : Except Error α} {next : α → Except Error β} (h : OwnFailure result)
    (hnext : ∀ value, OwnFailure (next value)) : OwnFailure (result >>= next) := by
  rcases result with cause | value
  · exact .error (h cause rfl)
  · exact hnext value

theorem mapM {act : α → Except Error β} (h : ∀ item, OwnFailure (act item)) (items : List α) :
    OwnFailure (items.mapM act) := by
  intro cause herror
  obtain ⟨item, -, hitem⟩ := exists_of_mapM_error herror
  exact h item cause hitem

theorem toNumber (value : Value) : OwnFailure value.toNumber := by
  unfold Value.toNumber
  split
  · exact .ok _
  · exact .error (Error.isOwn_unmet (by decide) _)

theorem toText (value : Value) : OwnFailure value.toText := by
  unfold Value.toText
  split
  · exact .ok _
  · exact .error (Error.isOwn_unmet (by decide) _)

theorem toItems {operation : String} (h : '\n' ∉ (Demand.sequence operation).text.toList)
    (value : Value) : OwnFailure (value.toItems operation) := by
  unfold Value.toItems
  rcases value.items? with _ | items
  · exact .error (Error.isOwn_unmet h value)
  · exact .ok items

theorem toCell {operation : String} (h : '\n' ∉ (Demand.atom operation).text.toList)
    (value : Value) : OwnFailure (value.toCell operation) := by
  unfold Value.toCell
  split
  · exact .ok _
  · exact .error (Error.isOwn_unmet h _)

/-- What looks at the items of a sequence only fails where there is no sequence. -/
theorem ofItems {operation : String} (h : '\n' ∉ (Demand.sequence operation).text.toList)
    (value : Value) (look : List Value → α) :
    OwnFailure (do return look (← value.toItems operation)) :=
  .bind (.toItems h value) fun _ => .ok _

theorem readFile (m : Machine) (path : String) : OwnFailure (m.readFile path) := by
  unfold Machine.readFile
  rcases m.files path with fault | text
  · exact .error (.of_message?_none rfl (by rintro _ ⟨⟩))
  · exact .ok text

theorem nth (value : Value) (index : Int64) : OwnFailure (value.nth index) := by
  refine .bind (.toItems (by decide) value) fun items => ?_
  split
  · split
    · exact .ok _
    · exact .error (.of_message?_none rfl (by rintro _ ⟨⟩))
  · exact .error (.of_message?_none rfl (by rintro _ ⟨⟩))

theorem readText (text : String) : OwnFailure (readText text) := by
  unfold Lisplet.readText
  split
  · exact .ok _
  · split
    · exact .ok _
    · next hkind =>
        refine .error (.of_message?_none rfl ?_)
        rintro _ ⟨⟩
        exact hkind

theorem parameterNames (forms : List Value) : OwnFailure (parameterNames forms) := by
  refine .bind (.mapM (fun form => ?_) forms) fun names => ?_
  · unfold parameterName
    split
    · exact .ok _
    · exact .error (Error.isOwn_unmet (by decide) _)
  · split
    · exact .ok _
    · exact .ok _
    · exact .error (Error.isOwn_evaluation (by decide) (by decide))

theorem bindingForms (special : SpecialForm) (value : Value) :
    OwnFailure (bindingForms special value) := by
  unfold Lisplet.bindingForms
  split
  · exact .ok _
  · exact .ok _
  · exact .error (Error.isOwn_unmet (by cases special <;> decide +kernel) _)

end OwnFailure

/-- Parameters fail to get their arguments if those are too few or too many, or the marker
comes last. -/
theorem isOwn_of_bindArguments {m : Machine} {closure : Closure} (hclosure : closure ∈ m.closures)
    (arguments : List Value) (cause : Error)
    (h : bindArguments closure.parameters arguments = .error cause) : cause.IsOwn m := by
  unfold bindArguments at h
  split at h
  · dsimp only at h
    split at h
    · cases h
    · cases h
      exact .of_message?_none rfl (by rintro _ ⟨⟩) m
  · next marker hmarker =>
      cases h
      exact ⟨Error.isBare_evaluation (by decide), nofun, fun _ _ => ⟨closure, hclosure, _, hmarker⟩⟩
  · dsimp only at h
    split at h
    · cases h
    · cases h
      exact .of_message?_none rfl (by rintro _ ⟨⟩) m

/-- A calculation that fails divides by zero or leaves the range. -/
theorem Arithmetic.total_error {operation : Arithmetic} {numbers : List Int64}
    {fault : EvaluationFault} (h : operation.total numbers = .error fault) :
    fault = .divisionByZero ∨ fault = .overflow operation.name := by
  rw [total] at h
  generalize operation.start numbers = started at h
  obtain ⟨first, others⟩ := started
  dsimp only at h
  induction others generalizing first with
  | nil => cases h
  | cons number others ih =>
      rw [List.foldlM_cons] at h
      rcases hfirst : operation.apply first number with own | next
      · rw [hfirst] at h
        cases h
        unfold Arithmetic.apply at hfirst
        split at hfirst
        · cases hfirst
          exact .inl rfl
        · split at hfirst
          · cases hfirst
            exact .inr rfl
          · cases hfirst
      · rw [hfirst] at h
        exact ih next h

theorem Arithmetic.isOwn_of_total_error {operation : Arithmetic} {numbers : List Int64}
    {fault : EvaluationFault} (h : operation.total numbers = .error fault) (m : Machine) :
    (Error.evaluation fault none).IsOwn m := by
  rcases total_error h with rfl | rfl
  · exact Error.isOwn_evaluation (by decide) (by decide) m
  · exact Error.isOwn_evaluation (by cases operation <;> decide) (by rintro ⟨⟩) m

/-- The action fails only with errors that evaluation raises, with the machine it leaves. -/
def RaisesOwn (act : Eval α) : Prop :=
  ∀ m cause after, act m = .error cause after → cause.IsOwn after

namespace RaisesOwn

theorem pure (result : α) : RaisesOwn (pure result) := by
  rintro m _ _ ⟨⟩

theorem fail {cause : Error} (h : ∀ m, cause.IsOwn m) : RaisesOwn (.fail cause : Eval α) := by
  rintro m _ _ ⟨⟩
  exact h m

theorem bind {act : Eval α} {next : α → Eval β} (hact : RaisesOwn act)
    (hnext : ∀ result, RaisesOwn (next result)) : RaisesOwn (act >>= next) := by
  intro m cause after h
  rw [Eval.bind_apply, Outcome.andThen_eq_error_iff] at h
  rcases h with hfirst | ⟨result, m₁, -, hsecond⟩
  · exact hact m cause after hfirst
  · exact hnext result m₁ cause after hsecond

theorem ofExcept {result : Except Error α} (h : OwnFailure result) :
    RaisesOwn (.ofExcept result) := by
  rcases result with cause | value
  · exact .fail (h cause rfl)
  · exact .pure value

/-- Looking at the machine and changing it do not fail. -/
theorem read (look : Machine → α) : RaisesOwn (.read look) := by
  rintro m _ _ ⟨⟩

/-- What is read off the machine matters only as it may stand there. -/
theorem read_bind {look : Machine → α} {next : α → Eval β}
    (h : ∀ m, RaisesOwn (next (look m))) : RaisesOwn (.read look >>= next) :=
  fun m => h m m

theorem writing (look : Machine → Rendering) : RaisesOwn (.writing look) := by
  refine .bind (.read look) fun written => ?_
  rcases written with _ | text
  · exact .fail (.of_message?_none rfl nofun)
  · exact .pure text

theorem update (change : Machine → Machine) : RaisesOwn (.update change) := by
  rintro m _ _ ⟨⟩

theorem newClosure (isMacro : Bool) (closure : Closure) :
    RaisesOwn (.newClosure isMacro closure) := by
  rintro m _ _ ⟨⟩

theorem newAtom (content : Value) : RaisesOwn (.newAtom content) := by
  rintro m _ _ ⟨⟩

theorem refuseCall (value : Value) : RaisesOwn (refuseCall value : Eval α) := by
  rintro m _ _ ⟨⟩
  exact .of_message?_none rfl (by rintro _ ⟨⟩) m

theorem enterClosure (isMacro : Bool) (code : Nat) (arguments : List Value) :
    RaisesOwn (enterClosure isMacro code arguments) := by
  intro m cause after h
  simp only [Lisplet.enterClosure, Eval.bind_apply, Eval.read_apply, Outcome.andThen_value] at h
  rcases hclosure : m.closures[code]? with _ | closure
  · rw [hclosure] at h
    exact refuseCall _ m cause after h
  · rw [hclosure] at h
    rcases hbound : bindArguments closure.parameters arguments with own | frame
    · simp only [Eval.bind_apply, hbound] at h
      cases h
      exact isOwn_of_bindArguments (Array.mem_of_getElem? hclosure) arguments cause hbound
    · simp only [Eval.bind_apply, hbound] at h
      cases h

theorem bindMacro (scope : Scope) (name : String) (value : Value) :
    RaisesOwn (bindMacro scope name value) := by
  unfold Lisplet.bindMacro
  split
  · refine .bind (.read _) fun found => ?_
    rcases found with _ | closure
    · exact .refuseCall _
    · exact .bind (.newClosure _ _) fun _ => .bind (.update _) fun _ => .pure _
  · exact .fail (Error.isOwn_unmet (by decide) _)

theorem makeFunction (scope : Scope) (parameters : Value) (body : List Value) :
    RaisesOwn (makeFunction scope parameters body) := by
  refine .bind (.ofExcept (.bind (.bindingForms _ _) fun forms => ?_)) fun _ => .newClosure _ _
  exact .parameterNames forms

theorem of_call? {p : Primitive} {arguments : List Value} {act : Eval Value}
    (h : p.call? arguments = some act) : RaisesOwn act := by
  unfold Primitive.call? at h
  split at h <;> cases h
  case h_3 =>
      refine .bind (.ofExcept (.mapM .toNumber _)) fun numbers => ?_
      split
      · exact .pure _
      · next hfault => exact .fail (Arithmetic.isOwn_of_total_error hfault)
  case h_25 =>
      refine .bind (.ofExcept (.toText _)) fun path => .read_bind fun m => ?_
      exact .bind (.ofExcept (.readFile m path)) fun _ => .pure _
  all_goals first
    | exact .pure _
    | exact .newAtom _
    | exact .ofExcept (.ofItems (by decide) _ _)
    | exact .bind (.ofExcept (.ofItems (by decide) _ _)) fun _ => .pure _
    | exact .bind (.ofExcept (.toItems (by decide) _)) fun _ => .pure _
    | exact .bind (.ofExcept (.mapM (.toItems (by decide)) _)) fun _ => .pure _
    | exact .bind (.ofExcept (.mapM .toNumber _)) fun _ => .pure _
    | exact .bind (.ofExcept (.toNumber _)) fun _ => .ofExcept (.nth _ _)
    | exact .bind (.ofExcept (.toText _)) fun _ => .pure _
    | exact .bind (.ofExcept (.toText _)) fun _ => .ofExcept (.readText _)
    | exact .bind (.ofExcept (.toCell (by decide) _)) fun _ => .read _
    | exact .bind (.ofExcept (.toCell (by decide) _)) fun _ => .bind (.update _) fun _ => .pure _
    | exact .bind (.writing _) fun _ => .pure _
    | exact .bind (.writing _) fun _ => .bind (.update _) fun _ => .pure _

end RaisesOwn

def Error.IsArity : Error → Prop
  | .arity _ _ _ => True
  | _ => False

theorem bindingForms_not_arity {special : SpecialForm} {bindings : Value} {cause : Error}
    (h : bindingForms special bindings = .error cause) : ¬ cause.IsArity := by
  cases bindings <;> cases h <;> exact id

theorem parameterNames_not_arity {forms : List Value} {cause : Error}
    (h : parameterNames forms = .error cause) : ¬ cause.IsArity := by
  rw [parameterNames] at h
  rcases hnames : forms.mapM parameterName with own | names
  · rw [hnames] at h
    cases h
    obtain ⟨form, -, hform⟩ := exists_of_mapM_error hnames
    cases form <;> cases hform <;> exact id
  · rw [hnames] at h
    simp only [bind, Except.bind] at h
    split at h <;> cases h
    exact id

theorem bindMacro_not_arity {scope : Scope} {name : String} {value : Value} {cause : Error}
    {m after : Machine} (h : bindMacro scope name value m = .error cause after) :
    ¬ cause.IsArity := by
  cases value with
  | closure isMacro code =>
      simp only [bindMacro, Eval.bind_apply, Eval.read_apply, Outcome.andThen_value] at h
      rcases hclosure : m.closures[code]? with _ | closure
      · rw [hclosure] at h
        cases h
        exact id
      · rw [hclosure] at h
        cases h
  | _ =>
      cases h
      exact id

theorem makeFunction_not_arity {scope : Scope} {parameters : Value} {body : List Value}
    {cause : Error} {m after : Machine}
    (h : makeFunction scope parameters body m = .error cause after) : ¬ cause.IsArity := by
  rw [makeFunction, Eval.bind_apply] at h
  rcases hnames : bindingForms .function parameters >>= parameterNames with own | names
  · rw [hnames] at h
    cases h
    rcases hforms : bindingForms .function parameters with own | forms
    · rw [hforms] at hnames
      cases hnames
      exact bindingForms_not_arity hforms
    · rw [hforms] at hnames
      exact parameterNames_not_arity hnames
  · rw [hnames] at h
    cases h

end Lisplet
