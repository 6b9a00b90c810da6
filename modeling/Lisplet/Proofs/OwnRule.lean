/-
Special forms by their names.  A list with the name of a special form at its head goes
by the rule of that form, unless the name stands for a macro where the list is: a macro
is looked for first, and none of the ways to bind a name keeps a macro from the names of
special forms.  Bound to anything else, the names mean to lists what they always do.
-/
import Lisplet.Proofs.CallRules
import Lisplet.Proofs.Invariants
import Lisplet.Proofs.RootScope
import Lisplet.Proofs.TailContexts

namespace Lisplet

open Relation

namespace SpecialForm

/-- The list of the special form with these operands. -/
def on (form : SpecialForm) (operands : List Value) : Value :=
  .list (.symbol form.name :: operands)

/-- The step of the special form on its operands as they stand: if it takes so many, its
handler gets them in their places, and otherwise it fails and names itself. -/
def ownStep (form : SpecialForm) (steps : Nat) (evaluator : Evaluator) (scope : Scope)
    (operands : List Value) : Eval Step :=
  match form.place? operands with
  | some special => stepSpecial steps evaluator scope special
  | none => .fail (.arity form.arity operands.length (some (some form.name)))

/-- Every list of the special form takes the step of the form. -/
def GoesByOwnRule (form : SpecialForm) (scope : Scope) (m : Machine) : Prop :=
  ∀ operands steps, m.depth < maxDepth →
    evaluateWithin (steps + 1) (form.on operands) scope m =
      ((form.ownStep steps (evaluateDeeper steps) scope operands m).noted
        (Situation.note ⟨form.on operands, scope, m⟩)).andThen (resume (evaluateWithin steps))

variable {form : SpecialForm} {operands : List Value} {scope : Scope} {m : Machine}

/-- Where the name is no macro, the list takes the step of the form. -/
theorem stepList_eq_ownStep
    (hname : ∀ code, m.lookup? scope form.name ≠ some (.closure true code)) (steps : Nat)
    (evaluator : Evaluator) (operands : List Value) :
    stepList steps evaluator scope (.symbol form.name) operands m =
      form.ownStep steps evaluator scope operands m := by
  have hmacroCall : m.macroCall? scope (.list (.symbol form.name :: operands)) = none :=
    macroCall?_eq_none hname
  rcases hplace : form.place? operands with _ | special
  · rw [stepList_wrongCount steps hmacroCall (ofName?_name form) hplace, ownStep, hplace]
    rfl
  · rw [stepList_special steps hmacroCall (ofName?_name form) hplace, ownStep, hplace]

theorem goesByOwnRule_of_lookup?
    (hname : ∀ code, m.lookup? scope form.name ≠ some (.closure true code)) :
    form.GoesByOwnRule scope m := by
  intro operands steps hdepth
  rw [evaluateWithin_succ hdepth, on, step, Eval.onError_apply, stepList_eq_ownStep hname]
  rfl

/-- Where the name is a macro, the list is expanded by it, and the form has no part in it. -/
theorem expanded_of_lookup? {code : Nat}
    (hname : m.lookup? scope form.name = some (.closure true code)) (operands : List Value)
    (steps : Nat) (hdepth : m.depth < maxDepth) :
    evaluateWithin (steps + 1) (form.on operands) scope m =
      ((callClosure (evaluateDeeper steps) true code operands m).noted
        (Situation.note ⟨form.on operands, scope, m⟩)).andThen
          fun expansion => evaluateWithin steps expansion scope := by
  have hmacroCall : m.macroCall? scope (form.on operands) = some (code, operands) := by
    rw [on, Machine.macroCall?, hname]
  rw [evaluateWithin_succ hdepth, on, step, Eval.onError_apply, stepList_macroCall steps hmacroCall]
  cases callClosure (evaluateDeeper steps) true code operands m <;> rfl

end SpecialForm

def Frame.NoMacro (frame : Frame) (name : String) : Prop :=
  ∀ code, frame.get? name ≠ some (.closure true code)

/-- The bindings come into the frames of a machine: one goes to a frame that is there, as
`def!`, `defmacro!`, `let*` and a host bind names, or all are in a frame that is made, as
a call and a host make it. -/
inductive Binds : Frame → Array Frame → Array Frame → Prop
  | define {frames} (index : Nat) (name : String) (value : Value) :
      Binds [(name, value)] frames (frames.modify index (·.set name value))
  | enter {frames} (frame : Frame) : Binds frame frames (frames.push frame)

def Rebinds (frames frames' : Array Frame) : Prop :=
  ∃ bindings, Binds bindings frames frames'

section

variable {name : String} {frames frames' : Array Frame}

/-- A name that no frame binds to a macro is none. -/
theorem lookup?_ne_closure {m : Machine} (h : ∀ frame ∈ m.frames, frame.NoMacro name)
    (scope : Scope) (code : Nat) : m.lookup? scope name ≠ some (.closure true code) := by
  intro hbound
  rw [Machine.lookup?] at hbound
  obtain ⟨index, -, hget⟩ := List.exists_of_findSome?_eq_some hbound
  rcases hframe : m.frames[index]? with _ | frame
  · rw [Machine.frame, hframe] at hget
    cases hget
  · rw [Machine.frame, hframe] at hget
    exact h frame (Array.mem_of_getElem? hframe) code hget

/-- Only a binding of the name to a macro makes a frame bind it to one. -/
theorem Binds.noMacro {bindings : Frame} (h : Binds bindings frames frames')
    (hbindings : bindings.NoMacro name) (hframes : ∀ frame ∈ frames, frame.NoMacro name) :
    ∀ frame ∈ frames', frame.NoMacro name := by
  cases h with
  | define index bound value =>
      intro frame hframe
      obtain ⟨other, hother, rfl⟩ := Array.mem_iff_getElem.mp hframe
      rw [Array.size_modify] at hother
      have hold := hframes _ (Array.getElem_mem hother)
      rw [Array.getElem_modify]
      split
      · intro code
        rw [Frame.get?_set]
        by_cases hname : bound = name
        · rw [if_pos hname]
          simpa [Frame.get?, hname] using hbindings code
        · rw [if_neg hname]
          exact hold code
      · exact hold
  | enter =>
      intro frame hframe
      rcases Array.mem_push.mp hframe with hold | rfl
      · exact hframes frame hold
      · exact hbindings

/-- Of all bindings that have come in, one is of the name to a macro, or no frame has any. -/
theorem noMacro_or_bound (hframes : ∀ frame ∈ frames, frame.NoMacro name)
    (h : ReflTransGen Rebinds frames frames') :
    (∀ frame ∈ frames', frame.NoMacro name) ∨
      ∃ bindings before after, ReflTransGen Rebinds frames before ∧
        Binds bindings before after ∧ ¬ bindings.NoMacro name ∧
        ReflTransGen Rebinds after frames' := by
  induction h with
  | refl => exact .inl hframes
  | tail hbefore hstep ih =>
      rcases ih with hnone | ⟨bindings, before, after, hto, hbinds, hmacro, hfrom⟩
      · obtain ⟨bindings, hbinds⟩ := hstep
        by_cases hmacro : bindings.NoMacro name
        · exact .inl (hbinds.noMacro hmacro hnone)
        · exact .inr ⟨bindings, _, _, hbefore, hbinds, hmacro, .refl⟩
      · exact .inr ⟨bindings, before, after, hto, hbinds, hmacro, hfrom.tail hstep⟩

end

/-- Evaluation does nothing to frames but to bring bindings in. -/
theorem lawful_rebinds (start : Array Frame) :
    (Invariant.ofMachine fun m => ReflTransGen Rebinds start m.frames).Lawful :=
  Invariant.lawful_ofMachine (fun hm _ => hm) (fun _ hm => hm)
    (fun index name value hm => hm.tail ⟨_, .define index name value⟩)
    (fun frame hm => hm.tail ⟨_, .enter frame⟩) (fun _ hm => hm)

/-- A special form goes by its own rule wherever its name stands for no macro, whatever
else it stands for, and where it stands for one the macro takes its place.  In a run it
comes to that only if a binding of the name to a macro has come in; evaluation does
nothing to frames but to bring bindings in.  The rule is to count the operands, and then
to give them to the handler as they are. -/
theorem special_form_goes_by_own_rule (form : SpecialForm) :
    (∀ scope m, (∀ code, m.lookup? scope form.name ≠ some (.closure true code)) →
      form.GoesByOwnRule scope m) ∧
    (∀ scope m code, m.lookup? scope form.name = some (.closure true code) →
      ∀ operands steps, m.depth < maxDepth →
        evaluateWithin (steps + 1) (form.on operands) scope m =
          ((callClosure (evaluateDeeper steps) true code operands m).noted
            (Situation.note ⟨form.on operands, scope, m⟩)).andThen
              fun expansion => evaluateWithin steps expansion scope) ∧
    (∀ files m, ReflTransGen Rebinds (rootMachine files).frames m.frames →
      (∀ scope, form.GoesByOwnRule scope m) ∨
        ∃ bindings before after, ReflTransGen Rebinds (rootMachine files).frames before ∧
          Binds bindings before after ∧ ¬ bindings.NoMacro form.name ∧
          ReflTransGen Rebinds after m.frames) ∧
    (∀ steps other scope m after, (evaluateWithin steps other scope m).after? = some after →
      ReflTransGen Rebinds m.frames after.frames) ∧
    ∀ operands steps evaluator scope,
      if form.arity.accepts operands.length then
        ∃ special, special.operands = operands ∧
          form.ownStep steps evaluator scope operands = stepSpecial steps evaluator scope special
      else form.ownStep steps evaluator scope operands =
        .fail (.arity form.arity operands.length (some (some form.name))) := by
  refine ⟨fun scope m hname => SpecialForm.goesByOwnRule_of_lookup? hname,
    fun scope m code hname => SpecialForm.expanded_of_lookup? hname, fun files m hrebinds => ?_,
    fun steps other scope m after hafter => ?_, fun operands steps evaluator scope => ?_⟩
  · have hroot : ∀ frame ∈ (rootMachine files).frames, frame.NoMacro form.name := by
      intro frame hframe
      obtain rfl := List.mem_singleton.mp (Array.mem_toList_iff.mpr hframe)
      have hunbound : Frame.get? (nativeFrame ++ [("load-file", .closure false 0),
          ("cond", .closure true 2)]) form.name = none := by
        cases form <;> rfl
      intro code
      rw [hunbound]
      nofun
    refine (noMacro_or_bound hroot hrebinds).imp_left fun hnone scope => ?_
    exact SpecialForm.goesByOwnRule_of_lookup? (lookup?_ne_closure hnone scope)
  · exact ((lawful_rebinds m.frames).evaluateWithin steps trivial scope .refl).after hafter
  · have hplaced := place?_isSome form operands
    rcases hplace : form.place? operands with _ | special
    · rw [hplace] at hplaced
      rw [← hplaced]
      simp [SpecialForm.ownStep, hplace]
    · rw [hplace] at hplaced
      rw [← hplaced]
      exact ⟨special, operands_of_place? hplace, by rw [SpecialForm.ownStep, hplace]⟩

/-- The operands of an `if` that tell the condition from the rest. -/
def branchOperands : List Value := [.bool true, .number 1, .number 2]

/-- To bind `if` to a number does nothing to the lists that begin with it. -/
theorem special_form_goes_by_own_rule_reboundBranch :
    SpecialForm.branch.GoesByOwnRule ⟨0, []⟩
        ((rootMachine noFiles).define ⟨0, []⟩ "if" (.number 5)) ∧
      ∃ after, evaluateWithin 3 (SpecialForm.branch.on branchOperands) ⟨0, []⟩
        ((rootMachine noFiles).define ⟨0, []⟩ "if" (.number 5)) = .value (.number 1) after := by
  constructor
  · have hbound : ((rootMachine noFiles).define ⟨0, []⟩ "if" (.number 5)).lookup? ⟨0, []⟩
        SpecialForm.branch.name = some (.number 5) := rfl
    refine (special_form_goes_by_own_rule .branch).1 _ _ ?_
    rw [hbound]
    nofun
  · exact ⟨_, rfl⟩

def macroForBranch : String :=
  "(defmacro! if (fn* (a b c) c))"

/-- Once `if` is a macro, the lists that begin with it are calls of the macro. -/
theorem special_form_gives_way_macroForBranch :
    ∃ value m, evaluateText macroForBranch ⟨0, []⟩ (rootMachine noFiles) = .value value m ∧
      (∃ after, evaluateWithin 5 (SpecialForm.branch.on branchOperands) ⟨0, []⟩ m =
        .value (.number 2) after) ∧
      ¬ SpecialForm.branch.GoesByOwnRule ⟨0, []⟩ m := by
  have hread : readWhole macroForBranch = .ok (.list [.symbol "defmacro!", .symbol "if",
      .list [.symbol "fn*", .list [.symbol "a", .symbol "b", .symbol "c"], .symbol "c"]]) := by
    rfl
  have hsteps : 3 ≤ unlimited := by decide
  refine ⟨_, _, evaluateText_eq hread hsteps rfl, ⟨_, rfl⟩, fun hrule => ?_⟩
  have hown := hrule branchOperands 4 (by decide)
  cases hown

end Lisplet
