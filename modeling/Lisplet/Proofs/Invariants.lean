/-
Invariants of a run.  An invariant says what is true of the machine, of every value that
comes up and of every closure.  If each change that evaluation makes preserves it, then
evaluation has preserved it whatever it comes to, in an error at any point, too.
-/
import Lisplet.Proofs.CorrespondingRuns

namespace Lisplet

/-- What is to be true of machines, values and closures all through a run. -/
structure Invariant where
  machine : Machine → Prop
  value : Value → Prop
  closure : Closure → Prop

namespace Invariant

/-- Every run corresponds to itself, as far as the invariant is true of it. -/
def correspondence (I : Invariant) : Correspondence where
  machines m m' := m' = m ∧ I.machine m
  scopes _ scope scope' := scope' = scope
  closures _ closure closure' := closure' = closure ∧ I.closure closure
  value := I.value

/-- Every change that evaluation makes to a machine, and everything that it finds there,
agrees with the invariant. -/
structure Lawful (I : Invariant) : Prop where
  plain : ∀ {value : Value}, value.IsPlain → I.value value
  list : ∀ {items}, I.value (.list items) ↔ ∀ item ∈ items, I.value item
  vector : ∀ {items}, I.value (.vector items) ↔ ∀ item ∈ items, I.value item
  entries : ∀ {entries}, I.value (.map entries) → ∀ entry ∈ entries, I.value entry
  map : ∀ {entries values}, I.value (.map entries) → values.length = entries.length →
    (∀ value ∈ values, I.value value) → I.value (.map values)
  readText : ∀ {text form}, Lisplet.readText text = .ok form → I.value form
  holds : ∀ {m}, I.machine m → m.Holds I.value
  closures : ∀ {m}, I.machine m → ∀ closure ∈ m.closures, I.closure closure
  setCells : ∀ {m} {cells : Array Value}, I.machine m → Rewrites m.cells cells →
    (∀ content ∈ cells, I.value content) → I.machine { m with cells := cells }
  print : ∀ {m} (line : String), I.machine m →
    I.machine { m with printed := (m.printed ++ line).push '\n' }
  define : ∀ {m value} (index : Nat) (name : String), I.machine m → I.value value →
    I.machine { m with frames := m.frames.modify index (·.set name value) }
  enter : ∀ {m} {frame : Frame}, I.machine m → (∀ binding ∈ frame, I.value binding.2) →
    I.machine { m with frames := m.frames.push frame }
  body : ∀ {closure}, I.closure closure → I.value closure.body
  make : ∀ {forms names body} (scope : Scope), parameterNames forms = .ok names →
    I.value body → I.closure ⟨names, body, scope⟩
  store : ∀ {m closure}, I.machine m → I.closure closure →
    I.machine { m with closures := m.closures.push closure }

variable {I : Invariant}

theorem Lawful.correspondence (hI : I.Lawful) : I.correspondence.Lawful where
  plain := hI.plain
  list := hI.list
  vector := hI.vector
  entries := hI.entries
  map := hI.map
  readText := hI.readText
  evaluate _ _ _ := rfl
  scopes_mono _ hscope := hscope
  cells_eq := by
    rintro m _ ⟨rfl, -⟩
    rfl
  printed_eq := by
    rintro m _ ⟨rfl, -⟩
    rfl
  files_eq := by
    rintro m _ ⟨rfl, -⟩
    rfl
  contents := by
    rintro m _ ⟨rfl, hm⟩
    exact (hI.holds hm).cells
  setCells := by
    rintro m _ cells ⟨rfl, hm⟩ hrewrites hcells
    exact ⟨rfl, hI.setCells hm hrewrites hcells⟩
  print := by
    rintro m _ line ⟨rfl, hm⟩
    exact ⟨rfl, hI.print line hm⟩
  seeSame := by
    rintro _ scope _ rfl m _ name ⟨rfl, hm⟩ -
    exact ⟨rfl, fun value hvalue => (hI.holds hm).lookup? hvalue⟩
  define := by
    rintro _ m _ scope _ value name ⟨rfl, hm⟩ - rfl hvalue
    exact ⟨rfl, hI.define _ name hm hvalue⟩
  closures_size := by
    rintro m _ ⟨rfl, -⟩
    rfl
  closure := by
    rintro m _ closure closure' code ⟨rfl, hm⟩ hclosure hclosure'
    rw [hclosure] at hclosure'
    cases hclosure'
    exact ⟨rfl, hI.closures hm closure (Array.mem_of_getElem? hclosure)⟩
  parts := by
    rintro _ closure _ ⟨rfl, hclosure⟩
    exact ⟨rfl, rfl, hI.body hclosure⟩
  make := by
    rintro _ _ _ forms names body rfl hnames hbody
    exact ⟨rfl, hI.make _ hnames hbody⟩
  store := by
    rintro _ m _ closure _ ⟨rfl, hm⟩ - ⟨rfl, hclosure⟩
    exact ⟨rfl, hI.store hm hclosure⟩
  enter := by
    rintro _ m _ closure _ frame ⟨rfl, hm⟩ - ⟨rfl, -⟩ hframe
    exact ⟨⟨rfl, hI.enter hm hframe⟩, rfl⟩

/-- An invariant that says nothing about values. -/
def ofMachine (machine : Machine → Prop) : Invariant where
  machine := machine
  value _ := True
  closure _ := True

/-- Of such an invariant only the changes to machines matter. -/
theorem lawful_ofMachine {machine : Machine → Prop}
    (setCells : ∀ {m cells}, machine m → Rewrites m.cells cells →
      machine { m with cells := cells })
    (print : ∀ {m} (line : String), machine m →
      machine { m with printed := (m.printed ++ line).push '\n' })
    (define : ∀ {m} (index : Nat) (name : String) (value : Value), machine m →
      machine { m with frames := m.frames.modify index (·.set name value) })
    (enter : ∀ {m} (frame : Frame), machine m → machine { m with frames := m.frames.push frame })
    (store : ∀ {m} (closure : Closure), machine m →
      machine { m with closures := m.closures.push closure }) : (ofMachine machine).Lawful where
  plain _ := trivial
  list := ⟨fun _ _ _ => trivial, fun _ => trivial⟩
  vector := ⟨fun _ _ _ => trivial, fun _ => trivial⟩
  entries _ _ _ := trivial
  map _ _ _ := trivial
  readText _ := trivial
  holds _ := ⟨fun _ _ _ _ => trivial, fun _ _ => trivial, fun _ _ => trivial⟩
  closures _ _ _ := trivial
  setCells hm hrewrites _ := setCells hm hrewrites
  print line hm := print line hm
  define index name hm _ := define index name _ hm
  enter hm _ := enter _ hm
  body _ := trivial
  make _ _ _ := trivial
  store hm _ := store _ hm

/-- The invariant is true of what the outcome leaves, and of its value. -/
def Leaves (I : Invariant) : Outcome Value → Prop
  | .value result after => I.value result ∧ I.machine after
  | .error _ after => I.machine after
  | .unfinished => True

theorem Leaves.after {outcome : Outcome Value} (h : I.Leaves outcome) {after : Machine}
    (hafter : outcome.after? = some after) : I.machine after := by
  cases outcome with
  | value =>
      cases hafter
      exact h.2
  | error =>
      cases hafter
      exact h
  | unfinished => cases hafter

theorem leaves_of_actions {act : Eval Value}
    (h : I.correspondence.Actions 0 I.correspondence.values act act) {m : Machine}
    (hm : I.machine m) : I.Leaves (act m) := by
  have houtcomes := h m m ⟨rfl, hm⟩ (Nat.zero_le _)
  generalize act m = outcome at houtcomes ⊢
  cases houtcomes with
  | value _ _ hresult hm => exact ⟨hresult.2, hm.2⟩
  | error _ hm => exact hm.2
  | unfinished => trivial

namespace Lawful

variable (hI : I.Lawful)
include hI

theorem evaluators (steps : Nat) : I.correspondence.Evaluators (Lisplet.evaluateWithin steps)
    (Lisplet.evaluateWithin steps) := by
  refine hI.correspondence.evaluateWithin ?_ steps
  rintro m _ ⟨rfl, -⟩
  rfl

/-- Evaluation preserves the invariant. -/
theorem evaluateWithin (steps : Nat) {form : Value} (hform : I.value form) (scope : Scope)
    {m : Machine} (hm : I.machine m) : I.Leaves (evaluateWithin steps form scope m) :=
  leaves_of_actions (hI.evaluators steps 0 form scope scope hform rfl) hm

theorem apply (steps : Nat) {function : Value} (hfunction : I.value function)
    {arguments : List Value} (harguments : ∀ value ∈ arguments, I.value value) {m : Machine}
    (hm : I.machine m) :
    I.Leaves (Lisplet.apply (Lisplet.evaluateWithin steps) function arguments m) :=
  leaves_of_actions (hI.correspondence.apply (hI.evaluators steps) hfunction harguments) hm

theorem expandFully (steps count : Nat) {form : Value} (hform : I.value form) (scope : Scope)
    {m : Machine} (hm : I.machine m) :
    I.Leaves (Lisplet.expandFully (Lisplet.evaluateWithin steps) count form scope m) :=
  leaves_of_actions (hI.correspondence.expandFully (hI.evaluators steps) count
    (hI.correspondence.seeSame rfl) hform) hm

end Lawful

end Invariant

end Lisplet
