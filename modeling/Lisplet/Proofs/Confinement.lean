/-
What evaluation can write to.  New bindings go to the innermost frame of the
scope at hand, and every scope that evaluation moves to has a frame made for it,
except where `eval` goes back to its root.  So of the frames that there were,
evaluation writes to its own and to roots, and a call or a `let*` to roots alone.
Frames have no parent to be changed: a chain of frames is part of the scope of a
closure, and closures stay as they were stored.
-/
import Lisplet.Proofs.CorrespondingRuns

namespace Lisplet

def Native.root? (native : Native) : Option Nat :=
  match native.operation with
  | .evaluate root => some root.own
  | _ => none

def Machine.stored (m : Machine) : List Value :=
  m.frames.toList.flatMap (·.map Prod.snd) ++ m.cells.toList ++ m.closures.toList.map (·.body)

/-- The frames that some `eval`, in the machine or in one of the values, goes back to. -/
def Machine.roots (m : Machine) (values : List Value) : List Nat :=
  (nativesOf (m.stored ++ values)).filterMap Native.root?

/-- Frames and closures that were there are there still, and of the frames only
those that may be written have changed. -/
structure Machine.Keeps (m : Machine) (written : Nat → Prop) (after : Machine) : Prop where
  frames_le : m.frames.size ≤ after.frames.size
  frame : ∀ index < m.frames.size, ¬ written index → after.frames[index]? = m.frames[index]?
  closures_le : m.closures.size ≤ after.closures.size
  closure : ∀ code < m.closures.size, after.closures[code]? = m.closures[code]?

namespace Machine.Keeps

variable {m after : Machine} {written : Nat → Prop}

theorem refl (m : Machine) (written : Nat → Prop) : m.Keeps written m :=
  ⟨Nat.le_refl _, fun _ _ _ => rfl, Nat.le_refl _, fun _ _ => rfl⟩

theorem mono {written' : Nat → Prop} (h : m.Keeps written after)
    (hwritten : ∀ index, written index → written' index) : m.Keeps written' after where
  frames_le := h.frames_le
  frame index hindex hkept := h.frame index hindex fun hold => hkept (hwritten index hold)
  closures_le := h.closures_le
  closure := h.closure

theorem atDepth {entry : Nat} (h : (m.atDepth entry).Keeps written after) (depth : Nat) :
    m.Keeps written (after.atDepth depth) :=
  ⟨h.frames_le, h.frame, h.closures_le, h.closure⟩

/-- Cells and printed text are apart from it. -/
theorem replace (h : m.Keeps written after) (cells : Array Value) (printed : String) :
    m.Keeps written { after with cells := cells, printed := printed } :=
  ⟨h.frames_le, h.frame, h.closures_le, h.closure⟩

/-- A binding may be added to a frame that may be written, or that is new. -/
theorem define (h : m.Keeps written after) {scope : Scope}
    (hown : scope.own < m.frames.size → written scope.own) (name : String) (value : Value) :
    m.Keeps written
      { after with frames := after.frames.modify scope.own (·.set name value) } where
  frames_le := by
    rw [Array.size_modify]
    exact h.frames_le
  frame := by
    intro index hindex hkept
    have hne : scope.own ≠ index := by
      rintro rfl
      exact hkept (hown hindex)
    rw [Array.getElem?_modify, if_neg hne]
    exact h.frame index hindex hkept
  closures_le := h.closures_le
  closure := h.closure

theorem pushFrame (h : m.Keeps written after) (frame : Frame) :
    m.Keeps written { after with frames := after.frames.push frame } where
  frames_le := by
    rw [Array.size_push]
    exact Nat.le_succ_of_le h.frames_le
  frame := by
    intro index hindex hkept
    have hold := h.frames_le
    rw [Array.getElem?_push, if_neg (by omega)]
    exact h.frame index hindex hkept
  closures_le := h.closures_le
  closure := h.closure

theorem pushClosure (h : m.Keeps written after) (closure : Closure) :
    m.Keeps written { after with closures := after.closures.push closure } where
  frames_le := h.frames_le
  frame := h.frame
  closures_le := by
    rw [Array.size_push]
    exact Nat.le_succ_of_le h.closures_le
  closure := by
    intro code hcode
    have hold := h.closures_le
    rw [Array.getElem?_push, if_neg (by omega)]
    exact h.closure code hcode

end Machine.Keeps

/-- Runs that keep, of the frames and closures of `start`, what may not be
written; every run corresponds to itself. -/
def confined (start : Machine) (written : Nat → Prop) (allowed : Native → Prop) :
    Correspondence where
  machines m m' := m' = m ∧ start.Keeps written m ∧ m.Holds (·.NativesIn allowed)
  scopes _ scope scope' := scope' = scope ∧ (scope.own < start.frames.size → written scope.own)
  closures _ closure closure' := closure' = closure ∧ closure.body.NativesIn allowed
  value value := value.NativesIn allowed

theorem confined_seeSame {start : Machine} {written : Nat → Prop} {allowed : Native → Prop}
    (size : Nat) (scope : Scope) :
    (confined start written allowed).SeeSame size scope scope := by
  rintro m _ name ⟨rfl, -, hholds⟩ -
  exact ⟨rfl, fun value hvalue => hholds.lookup? hvalue⟩

/-- Any `eval` that is allowed goes back to a frame that may be written. -/
theorem lawful_confined {start : Machine} {written : Nat → Prop} {allowed : Native → Prop}
    (hroots : ∀ native root, allowed native → native.operation = .evaluate root →
      written root.own) : (confined start written allowed).Lawful where
  plain := nativesIn_of_isPlain
  list := nativesIn_list
  vector := nativesIn_vector
  entries := nativesIn_map.mp
  map _ _ hvalues := nativesIn_map.mpr hvalues
  readText := nativesIn_of_readText
  evaluate := by
    intro native root _ hnative hoperation
    exact ⟨rfl, fun _ => hroots native root (nativesIn_native.mp hnative) hoperation⟩
  cells_eq := by
    rintro m _ ⟨rfl, -⟩
    rfl
  printed_eq := by
    rintro m _ ⟨rfl, -⟩
    rfl
  files_eq := by
    rintro m _ ⟨rfl, -⟩
    rfl
  contents := by
    rintro m _ ⟨rfl, -, hholds⟩
    exact hholds.cells
  setCells := by
    rintro m _ cells ⟨rfl, hkeeps, hholds⟩ - hcells
    exact ⟨rfl, hkeeps.replace cells _, hholds.replace hcells _⟩
  print := by
    rintro m _ line ⟨rfl, hkeeps, hholds⟩
    exact ⟨rfl, hkeeps.replace _ _, hholds.replace hholds.cells _⟩
  scopes_mono _ hscope := hscope
  seeSame := by
    rintro size _ scope ⟨rfl, -⟩
    exact confined_seeSame size scope
  define := by
    rintro size m _ scope _ value name ⟨rfl, hkeeps, hholds⟩ - ⟨rfl, hown⟩ hvalue
    exact ⟨rfl, hkeeps.define hown name value, hholds.define _ name hvalue⟩
  closures_size := by
    rintro m _ ⟨rfl, -⟩
    rfl
  closure := by
    rintro m _ closure closure' code ⟨rfl, -, hholds⟩ hclosure hclosure'
    rw [hclosure] at hclosure'
    cases hclosure'
    exact ⟨rfl, hholds.closure hclosure⟩
  parts := by
    rintro _ closure _ ⟨rfl, hbody⟩
    exact ⟨rfl, rfl, hbody⟩
  make := by
    rintro _ scope _ forms names body ⟨rfl, -⟩ - hbody
    exact ⟨rfl, hbody⟩
  store := by
    rintro _ m _ closure _ ⟨rfl, hkeeps, hholds⟩ - ⟨rfl, hbody⟩
    exact ⟨rfl, hkeeps.pushClosure _, hholds.pushClosure hbody⟩
  enter := by
    rintro _ m _ closure _ frame ⟨rfl, hkeeps, hholds⟩ - ⟨rfl, -⟩ hframe
    refine ⟨⟨rfl, hkeeps.pushFrame frame, hholds.pushFrame hframe⟩, rfl, fun hold => ?_⟩
    -- The frame is new, so that it is none of those at the start.
    exact absurd hold (Nat.not_lt.mpr hkeeps.frames_le)

theorem Machine.mem_stored {m : Machine} {value : Value} :
    value ∈ m.stored ↔ (∃ frame ∈ m.frames, ∃ binding ∈ frame, binding.2 = value) ∨
      value ∈ m.cells ∨ ∃ closure ∈ m.closures, closure.body = value := by
  simp [Machine.stored]

/-- What is true of all stored values is true of all that the machine holds. -/
theorem Machine.holds_of_stored {m : Machine} {value : Value → Prop}
    (h : ∀ stored ∈ m.stored, value stored) : m.Holds value where
  frames frame hframe binding hbinding :=
    h _ (Machine.mem_stored.mpr (.inl ⟨frame, hframe, binding, hbinding, rfl⟩))
  cells _ hcontent := h _ (Machine.mem_stored.mpr (.inr (.inl hcontent)))
  closures closure hclosure :=
    h _ (Machine.mem_stored.mpr (.inr (.inr ⟨closure, hclosure, rfl⟩)))

section

variable (m : Machine) (values : List Value) (own : Nat → Prop)

/-- The runs from a machine, on such values, that may write to their own frame
and to roots. -/
def Machine.confined : Correspondence :=
  Lisplet.confined m (fun index => own index ∨ index ∈ m.roots values)
    (· ∈ nativesOf (m.stored ++ values))

theorem Machine.lawful_confined : (m.confined values own).Lawful := by
  refine Lisplet.lawful_confined fun native root hnative hoperation => .inr ?_
  refine List.mem_filterMap.mpr ⟨native, hnative, ?_⟩
  rw [Native.root?, hoperation]

theorem Machine.confined_self : (m.confined values own).machines m m := by
  refine ⟨rfl, .refl m _, Machine.holds_of_stored fun stored hstored native hnative => ?_⟩
  exact mem_nativesOf.mpr ⟨stored, List.mem_append_left _ hstored, hnative⟩

theorem Machine.confined_depth (other other' : Machine)
    (h : (m.confined values own).machines other other') : other'.depth = other.depth := by
  rw [h.1]

variable {values}

theorem Machine.confined_value {value : Value} (hvalue : value ∈ values) :
    (m.confined values own).value value := by
  intro native hnative
  exact mem_nativesOf.mpr ⟨value, List.mem_append_right _ hvalue, hnative⟩

variable {m own}

/-- Whatever an action of such runs ends with, it has written to nothing else. -/
theorem Machine.keeps_of_confined {α : Type} {results : (size : Nat) → α → α → Prop}
    {act act' : Eval α} (h : (m.confined values own).Actions 0 results act act') {after : Machine}
    (hafter : (act m).after? = some after) :
    m.Keeps (fun index => own index ∨ index ∈ m.roots values) after := by
  have houtcomes := h m m (m.confined_self values own) (Nat.zero_le _)
  generalize act m = outcome, act' m = outcome' at houtcomes hafter
  cases houtcomes with
  | value _ _ _ hm | error _ hm =>
      cases hafter
      exact hm.2.1
  | unfinished => cases hafter

end

theorem Outcome.after?_leave {α : Type} (outcome : Outcome α) :
    outcome.leave.after? = outcome.after?.map fun m => m.atDepth (m.depth - 1) := by
  cases outcome <;> rfl

/-- What an action keeps it keeps one level deeper, too. -/
theorem Machine.keeps_nested {α : Type} {act : Eval α} {m : Machine} {written : Nat → Prop}
    (h : ∀ after, (act (m.atDepth (m.depth + 1))).after? = some after →
      (m.atDepth (m.depth + 1)).Keeps written after)
    {after : Machine} (hafter : (act.nested m).after? = some after) : m.Keeps written after := by
  by_cases hdepth : m.depth < maxDepth
  · rw [nested_of_lt act hdepth, Outcome.after?_leave, Option.map_eq_some_iff] at hafter
    obtain ⟨below, hbelow, rfl⟩ := hafter
    exact (h below hbelow).atDepth _
  · rw [nested_of_not_lt act hdepth] at hafter
    cases hafter
    exact .refl m written

def stepLet (steps : Nat) (evaluator : Evaluator) (scope : Scope) (operands : List Value) :
    Eval Step :=
  match operands with
  | [] => .fail (.arity SpecialForm.bind.arity 0 (some (some SpecialForm.bind.name)))
  | bindings :: body => stepSpecial steps evaluator scope (.bind bindings body)

def letForm (operands : List Value) : Value :=
  .list (.symbol SpecialForm.bind.name :: operands)

theorem stepList_let {steps : Nat} {evaluator : Evaluator} {scope : Scope}
    {operands : List Value} {m : Machine}
    (hmacroCall : m.macroCall? scope (letForm operands) = none) :
    stepList steps evaluator scope (.symbol SpecialForm.bind.name) operands m =
      stepLet steps evaluator scope operands m := by
  have hname := SpecialForm.ofName?_name .bind
  rcases operands with _ | ⟨bindings, body⟩
  · exact stepList_wrongCount steps hmacroCall hname rfl
  · exact stepList_special steps hmacroCall hname rfl

theorem stepLet_confined {m : Machine} {operands : List Value} {own : Nat → Prop}
    {evaluator : Evaluator}
    (hevaluator : (m.confined operands own).Evaluators evaluator evaluator) (steps : Nat)
    (scope : Scope) :
    (m.confined operands own).Actions 0 (m.confined operands own).steps
      (stepLet steps evaluator scope operands) (stepLet steps evaluator scope operands) := by
  rcases operands with _ | ⟨bindings, body⟩
  · exact .fail _
  · refine (m.lawful_confined _ own).stepBind hevaluator ?_
      (m.confined_value own List.mem_cons_self) (fun form hform => ?_) steps
    · rintro m _ ⟨rfl, hkeeps, hholds⟩ -
      refine ⟨⟨rfl, hkeeps.pushFrame [], hholds.pushFrame (by simp)⟩, rfl, fun hold => ?_⟩
      exact absurd hold (Nat.not_lt.mpr hkeeps.frames_le)
    · exact m.confined_value own (List.mem_cons_of_mem _ hform)

/-- A `let*` writes to roots alone, in whatever scope it is evaluated. -/
theorem run_let_keeps {steps : Nat} {operands : List Value} {scope : Scope} {m after : Machine}
    (hmacroCall : m.macroCall? scope (letForm operands) = none)
    (hafter : (run steps (letForm operands) scope m).after? = some after) :
    m.Keeps (· ∈ m.roots operands) after := by
  cases steps with
  | zero => cases hafter
  | succ steps =>
      have hC := m.lawful_confined operands fun _ => False
      have hdepth := m.confined_depth operands fun _ => False
      have hstep := stepLet_confined (hC.evaluateWithin hdepth steps) steps scope
      rw [run_succ, Eval.bind_apply, letForm, step, Eval.onError_apply, stepList_let hmacroCall,
        ← Eval.onError_apply, ← Eval.bind_apply] at hafter
      have hrun := (hC.inContext hstep (letForm operands)).bind
        fun _ _ _ _ => (hC.run hdepth steps).resume
      have hkeeps := Machine.keeps_of_confined hrun hafter
      exact hkeeps.mono fun index hwritten => hwritten.resolve_left id

/-- Whatever an evaluation comes to, in a value or in an error at any point, of the
frames that there were it has written to its own at most, and to roots; and no
closure has lost its scope, in which the enclosing frames are.  A call, the expansion
of a macro call and a `let*` leave out its own, too, so that a body writes neither
to the frame that its closure captured nor to that of the caller.  This goes for
nested evaluation and for what follows in the loop. -/
theorem evaluation_writes_own_frame_and_roots (steps : Nat) (evaluator : Evaluator)
    (hevaluator : evaluator = evaluateWithin steps ∨ evaluator = run steps) (m after : Machine) :
    (∀ form scope, (evaluator form scope m).after? = some after →
      m.Keeps (fun index => index = scope.own ∨ index ∈ m.roots [form]) after) ∧
    (∀ function arguments, (apply evaluator function arguments m).after? = some after →
      m.Keeps (· ∈ m.roots (function :: arguments)) after) ∧
    (∀ isMacro code arguments,
      (callClosure evaluator isMacro code arguments m).after? = some after →
      m.Keeps (· ∈ m.roots arguments) after) ∧
    (∀ form scope, (expandFully evaluator steps form scope m).after? = some after →
      m.Keeps (· ∈ m.roots [form]) after) ∧
    ∀ operands scope, m.macroCall? scope (letForm operands) = none →
      (evaluator (letForm operands) scope m).after? = some after →
      m.Keeps (· ∈ m.roots operands) after := by
  have hall : ∀ values own, (m.confined values own).Evaluators evaluator evaluator := by
    intro values own
    have hC := m.lawful_confined values own
    have hdepth := m.confined_depth values own
    rcases hevaluator with rfl | rfl
    · exact hC.evaluateWithin hdepth steps
    · exact hC.run hdepth steps
  have hroots : ∀ {values}, m.Keeps (fun index => False ∨ index ∈ m.roots values) after →
      m.Keeps (· ∈ m.roots values) after := fun hkeeps =>
    hkeeps.mono fun index hwritten => hwritten.resolve_left id
  refine ⟨fun form scope hafter => ?_, fun function arguments hafter => ?_,
    fun isMacro code arguments hafter => ?_, fun form scope hafter => ?_,
    fun operands scope hmacroCall hafter => ?_⟩
  · have hform := m.confined_value (· = scope.own) (List.mem_singleton_self form)
    have hscope : (m.confined [form] (· = scope.own)).scopes 0 scope scope :=
      ⟨rfl, fun _ => .inl rfl⟩
    exact Machine.keeps_of_confined (hall _ _ 0 form scope scope hform hscope) hafter
  · have hC := m.lawful_confined (function :: arguments) fun _ => False
    refine hroots (Machine.keeps_of_confined (hC.apply (hall _ _)
      (m.confined_value _ List.mem_cons_self) fun value hvalue => ?_) hafter)
    exact m.confined_value _ (List.mem_cons_of_mem _ hvalue)
  · have hC := m.lawful_confined arguments fun _ => False
    exact hroots (Machine.keeps_of_confined (hC.callClosure (hall _ _) isMacro code
      fun value hvalue => m.confined_value _ hvalue) hafter)
  · have hC := m.lawful_confined [form] fun _ => False
    exact hroots (Machine.keeps_of_confined (hC.expandFully (hall _ _) steps
      (confined_seeSame 0 scope) (m.confined_value _ (List.mem_singleton_self form))) hafter)
  · rcases hevaluator with rfl | rfl
    · exact Machine.keeps_nested (fun below hbelow => run_let_keeps hmacroCall hbelow) hafter
    · exact run_let_keeps hmacroCall hafter

/-- A machine with a root, a frame that a function captured and a frame that it is
called from.  The function defines a name where it is called, and one in the root. -/
def definingMachine : Machine where
  frames := #[[("eval", .native ⟨"eval", .evaluate ⟨0, []⟩, 0⟩), ("f", .closure false 0)],
    [("x", .number 1)], [("x", .number 2)]]
  cells := #[]
  closures := #[⟨["y"], .list [.symbol "do", .list [.symbol "def!", .symbol "x", .symbol "y"],
    .list [.symbol "eval", .list [.symbol "quote",
      .list [.symbol "def!", .symbol "x", .number 3]]]], ⟨1, [0]⟩⟩]
  natives := 1
  printed := ""
  depth := 0
  files := noFiles

/-- The function defines its names, and the `x` that it captured is still what it was,
as is that of its caller when it is the function alone that is called. -/
theorem evaluation_writes_own_frame_and_roots_definingMachine :
    (∃ after,
      (evaluateWithin 6 (.list [.symbol "f", .number 5]) ⟨2, [0]⟩ definingMachine).after? =
        some after ∧ after.frames[1]? = definingMachine.frames[1]?) ∧
    ∃ after, (callClosure (run 6) false 0 [.number 5] definingMachine).after? = some after ∧
      ((after.frame 0).get? "x").isSome ∧ ((after.frame 3).get? "x").isSome ∧
      after.frames[1]? = definingMachine.frames[1]? ∧
      after.frames[2]? = definingMachine.frames[2]? := by
  constructor
  · have hends : (evaluateWithin 6 (.list [.symbol "f", .number 5]) ⟨2, [0]⟩
        definingMachine).after?.isSome := by decide +kernel
    obtain ⟨after, hafter⟩ := Option.isSome_iff_exists.mp hends
    have hkeeps := (evaluation_writes_own_frame_and_roots 6 _ (.inl rfl) definingMachine after).1
      _ _ hafter
    exact ⟨after, hafter, hkeeps.frame 1 (by decide) (by decide +kernel)⟩
  · have hends : (callClosure (run 6) false 0 [.number 5] definingMachine).after?.any (fun after =>
        ((after.frame 0).get? "x").isSome && ((after.frame 3).get? "x").isSome) := by
      decide +kernel
    obtain ⟨after, hafter, hdefined⟩ := (Option.any_eq_true _ _).mp hends
    have hcalls := (evaluation_writes_own_frame_and_roots 6 _ (.inr rfl) definingMachine after).2.2
    have hkeeps := hcalls.1 _ _ _ hafter
    rw [Bool.and_eq_true] at hdefined
    exact ⟨after, hafter, hdefined.1, hdefined.2, hkeeps.frame 1 (by decide) (by decide +kernel),
      hkeeps.frame 2 (by decide) (by decide +kernel)⟩

end Lisplet
