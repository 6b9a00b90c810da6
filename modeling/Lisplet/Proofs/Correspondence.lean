/-
Runs side by side.  Two machines may differ in their frames and closures and
still give programs the same to see: names stand for the same values, cells
hold the same contents, closures differ in their scopes alone.  If the changes
that evaluation makes preserve such a correspondence, then a form that is
evaluated on both machines comes to the same on both, and they still correspond
afterwards.  An invariant of a single run is a correspondence between equals.
-/
import Lisplet.Proofs.Calls
import Lisplet.Proofs.Contents
import Lisplet.Proofs.Levels

namespace Lisplet

variable {α β : Type}

/-- What corresponds to what in two runs.  Frames are only added, so that what is true
of a scope may rest on there being so many. -/
structure Correspondence where
  machines : Machine → Machine → Prop
  /-- The scopes that a form is evaluated in, with so many frames there. -/
  scopes : (size : Nat) → Scope → Scope → Prop
  closures : (size : Nat) → Closure → Closure → Prop
  /-- The values that come up; they are the same in both runs. -/
  value : Value → Prop

/-- Is the value neither a container of values nor a native function? -/
def Value.IsPlain : Value → Prop
  | .list _ | .vector _ | .map _ | .native _ => False
  | _ => True

theorem nativesIn_of_isPlain {allowed : Native → Prop} {value : Value} (h : value.IsPlain) :
    value.NativesIn allowed := by
  cases value with
  | list | vector | map | native => exact h.elim
  | _ => exact fun _ hnative => by cases hnative

/-- The same result in both runs, with a property. -/
def Same (good : α → Prop) (result result' : α) : Prop :=
  result' = result ∧ good result

abbrev SameResult (good : α → Prop) : (size : Nat) → α → α → Prop :=
  fun _ => Same good

namespace Correspondence

/-- The two outcomes correspond: in how they end, in their results, and in the
machines that they leave, where there are no fewer frames. -/
inductive Outcomes (C : Correspondence) (size : Nat) (results : (size : Nat) → α → α → Prop) :
    Outcome α → Outcome α → Prop
  | value {size' result result' m m'} (hle : size ≤ size') (hsize : size' ≤ m.frames.size)
      (hresult : results size' result result') (hm : C.machines m m') :
      Outcomes C size results (.value result m) (.value result' m')
  | error {cause m m'} (hsize : size ≤ m.frames.size) (hm : C.machines m m') :
      Outcomes C size results (.error cause m) (.error cause m')
  | unfinished : Outcomes C size results .unfinished .unfinished

theorem Outcomes.of_le {C : Correspondence} {size size' : Nat}
    {results : (size : Nat) → α → α → Prop} {outcome outcome' : Outcome α}
    (h : C.Outcomes size' results outcome outcome') (hle : size ≤ size') :
    C.Outcomes size results outcome outcome' := by
  cases h with
  | value hle' hsize hresult hm => exact .value (Nat.le_trans hle hle') hsize hresult hm
  | error hsize hm => exact .error (Nat.le_trans hle hsize) hm
  | unfinished => exact .unfinished

/-- From machines that correspond, with so many frames, the actions have outcomes
that do. -/
def Actions (C : Correspondence) (size : Nat) (results : (size : Nat) → α → α → Prop)
    (act act' : Eval α) : Prop :=
  ∀ m m', C.machines m m' → size ≤ m.frames.size → C.Outcomes size results (act m) (act' m')

/-- Machines with a frame more. -/
def Extended (C : Correspondence) (m m' : Machine) (frame : Frame) : Prop :=
  C.machines { m with frames := m.frames.push frame } { m' with frames := m'.frames.push frame }

/-- Every name stands for the same value in both scopes. -/
def SeeSame (C : Correspondence) (size : Nat) (scope scope' : Scope) : Prop :=
  ∀ m m' (name : String), C.machines m m' → size ≤ m.frames.size →
    Same (fun found => ∀ value, found = some value → C.value value)
      (m.lookup? scope name) (m'.lookup? scope' name)

/-- Every change that evaluation makes to two machines, and everything that it
finds there, agrees with the correspondence. -/
structure Lawful (C : Correspondence) : Prop where
  plain : ∀ {value : Value}, value.IsPlain → C.value value
  list : ∀ {items}, C.value (.list items) ↔ ∀ item ∈ items, C.value item
  vector : ∀ {items}, C.value (.vector items) ↔ ∀ item ∈ items, C.value item
  entries : ∀ {entries}, C.value (.map entries) → ∀ entry ∈ entries, C.value entry
  map : ∀ {entries values}, C.value (.map entries) → values.length = entries.length →
    (∀ value ∈ values, C.value value) → C.value (.map values)
  readText : ∀ {text form}, Lisplet.readText text = .ok form → C.value form
  evaluate : ∀ {native root} (size : Nat), C.value (.native native) →
    native.operation = .evaluate root → C.scopes size root root
  scopes_mono : ∀ {size size' scope scope'}, size ≤ size' → C.scopes size scope scope' →
    C.scopes size' scope scope'
  cells_eq : ∀ {m m'}, C.machines m m' → m'.cells = m.cells
  printed_eq : ∀ {m m'}, C.machines m m' → m'.printed = m.printed
  files_eq : ∀ {m m'}, C.machines m m' → m'.files = m.files
  contents : ∀ {m m'}, C.machines m m' → ∀ content ∈ m.cells, C.value content
  setCells : ∀ {m m'} {cells : Array Value}, C.machines m m' →
    Rewrites m.cells cells → (∀ content ∈ cells, C.value content) →
    C.machines { m with cells := cells } { m' with cells := cells }
  print : ∀ {m m'} (line : String), C.machines m m' →
    C.machines { m with printed := (m.printed ++ line).push '\n' }
      { m' with printed := (m.printed ++ line).push '\n' }
  seeSame : ∀ {size scope scope'}, C.scopes size scope scope' → C.SeeSame size scope scope'
  define : ∀ {size m m' scope scope' value} (name : String), C.machines m m' →
    size ≤ m.frames.size → C.scopes size scope scope' → C.value value →
    C.machines { m with frames := m.frames.modify scope.own (·.set name value) }
      { m' with frames := m'.frames.modify scope'.own (·.set name value) }
  closures_size : ∀ {m m'}, C.machines m m' → m'.closures.size = m.closures.size
  closure : ∀ {m m' closure closure'} {code : Nat}, C.machines m m' →
    m.closures[code]? = some closure → m'.closures[code]? = some closure' →
    C.closures m.frames.size closure closure'
  parts : ∀ {size closure closure'}, C.closures size closure closure' →
    closure'.parameters = closure.parameters ∧ Same C.value closure.body closure'.body
  make : ∀ {size scope scope' forms names body}, C.scopes size scope scope' →
    parameterNames forms = .ok names → C.value body →
    C.closures size ⟨names, body, scope⟩ ⟨names, body, scope'⟩
  store : ∀ {size m m' closure closure'}, C.machines m m' → size ≤ m.frames.size →
    C.closures size closure closure' →
    C.machines { m with closures := m.closures.push closure }
      { m' with closures := m'.closures.push closure' }
  enter : ∀ {size m m' closure closure'} {frame : Frame}, C.machines m m' →
    size ≤ m.frames.size → C.closures size closure closure' →
    (∀ binding ∈ frame, C.value binding.2) →
    C.Extended m m' frame ∧ C.scopes (m.frames.size + 1)
      (closure.scope.enter m.frames.size) (closure'.scope.enter m'.frames.size)

abbrev values (C : Correspondence) : (size : Nat) → Value → Value → Prop :=
  SameResult C.value

/-- Steps that end with the same value, or that hand over the same form in
scopes that correspond. -/
def steps (C : Correspondence) (size : Nat) : Step → Step → Prop
  | .done value, .done value' => Same C.value value value'
  | .next form scope, .next form' scope' => Same C.value form form' ∧ C.scopes size scope scope'
  | _, _ => False

/-- The same body, to be evaluated in scopes that correspond. -/
def entered (C : Correspondence) (size : Nat) (into into' : Value × Scope) : Prop :=
  Same C.value into.1 into'.1 ∧ C.scopes size into.2 into'.2

namespace Actions

variable {C : Correspondence} {size : Nat} {results : (size : Nat) → α → α → Prop}
  {results' : (size : Nat) → β → β → Prop}

theorem pure {result result' : α} (h : results size result result') :
    C.Actions size results (Pure.pure result) (Pure.pure result') :=
  fun _ _ hm hsize => .value (Nat.le_refl size) hsize h hm

theorem fail (cause : Error) : C.Actions size results (Eval.fail cause) (Eval.fail cause) :=
  fun _ _ hm hsize => .error hsize hm

theorem unfinished : C.Actions size results Eval.unfinished Eval.unfinished :=
  fun _ _ _ _ => .unfinished

theorem bind {act act' : Eval α} {next next' : α → Eval β}
    (hact : C.Actions size results act act')
    (hnext : ∀ size', size ≤ size' → ∀ result result', results size' result result' →
      C.Actions size' results' (next result) (next' result')) :
    C.Actions size results' (act >>= next) (act' >>= next') := by
  intro m m' hm hsize
  rw [Eval.bind_apply, Eval.bind_apply]
  have houtcomes := hact m m' hm hsize
  generalize act m = outcome, act' m' = outcome' at houtcomes ⊢
  cases houtcomes with
  | value hle hsize hresult hm => exact (hnext _ hle _ _ hresult _ _ hm hsize).of_le hle
  | error hsize hm => exact .error hsize hm
  | unfinished => exact .unfinished

/-- The same result of the first action goes on to the next. -/
theorem bind_same {act act' : Eval α} {good : α → Prop} {next next' : α → Eval β}
    (hact : C.Actions size (SameResult good) act act')
    (hnext : ∀ result, good result → C.Actions size results' (next result) (next' result)) :
    C.Actions size results' (act >>= next) (act' >>= next') := by
  intro m m' hm hsize
  rw [Eval.bind_apply, Eval.bind_apply]
  have houtcomes := hact m m' hm hsize
  generalize act m = outcome, act' m' = outcome' at houtcomes ⊢
  cases houtcomes with
  | value hle hsize hresult hm =>
      obtain ⟨rfl, hresult⟩ := hresult
      exact hnext _ hresult _ _ hm (Nat.le_trans hle hsize)
  | error hsize hm => exact .error hsize hm
  | unfinished => exact .unfinished

theorem ofExcept {good : α → Prop} {result : Except Error α}
    (h : ∀ found, result = .ok found → good found) :
    C.Actions size (SameResult good) (Eval.ofExcept result) (Eval.ofExcept result) := by
  match result with
  | .ok found => exact pure ⟨rfl, h found rfl⟩
  | .error cause => exact fail cause

theorem ofExcept_any (result : Except Error α) :
    C.Actions size (SameResult fun _ => True) (Eval.ofExcept result) (Eval.ofExcept result) :=
  ofExcept fun _ _ => trivial

theorem onError {act act' : Eval α} {note : Machine → Error → Error}
    (hact : C.Actions size results act act')
    (hnote : ∀ m m' cause, C.machines m m' → note m' cause = note m cause) :
    C.Actions size results (act.onError note) (act'.onError note) := by
  intro m m' hm hsize
  rw [Eval.onError_apply, Eval.onError_apply]
  have houtcomes := hact m m' hm hsize
  generalize act m = outcome, act' m' = outcome' at houtcomes ⊢
  cases houtcomes with
  | value hle hsize hresult hm => exact .value hle hsize hresult hm
  | error hsize hm =>
      rw [Outcome.noted_error, Outcome.noted_error, hnote _ _ _ hm]
      exact .error hsize hm
  | unfinished => exact .unfinished

theorem read {γ : Type} {good : γ → Prop} {look look' : Machine → γ}
    (h : ∀ m m', C.machines m m' → size ≤ m.frames.size → Same good (look m) (look' m')) :
    C.Actions size (SameResult good) (Eval.read look) (Eval.read look') :=
  fun m m' hm hsize => .value (Nat.le_refl size) hsize (h m m' hm hsize) hm

theorem update {change change' : Machine → Machine}
    (hframes : ∀ m, (change m).frames.size = m.frames.size)
    (h : ∀ m m', C.machines m m' → size ≤ m.frames.size → C.machines (change m) (change' m')) :
    C.Actions size (SameResult fun _ => True) (Eval.update change) (Eval.update change') := by
  intro m m' hm hsize
  refine .value (Nat.le_refl size) ?_ ⟨rfl, trivial⟩ (h m m' hm hsize)
  rw [hframes]
  exact hsize

end Actions

namespace Lawful

variable {C : Correspondence} (hC : C.Lawful) {size : Nat}
include hC

theorem text_eq {m m' : Machine} (hm : C.machines m m') (style : Style) (value : Value) :
    m'.text style value = m.text style value :=
  Machine.text_eq_of_cells (hC.cells_eq hm) style value

theorem textAll (style : Style) (separator : String) (values : List Value) :
    C.Actions size (SameResult fun _ => True) (.writing fun m => m.textAll style separator values)
      (.writing fun m => m.textAll style separator values) := by
  have hlook : C.Actions size (SameResult fun _ => True)
      (.read fun m => m.textAll style separator values)
      (.read fun m => m.textAll style separator values) :=
    .read fun _ _ hm _ =>
      ⟨Machine.textAll_eq_of_cells (hC.cells_eq hm) style separator values, trivial⟩
  refine .bind_same hlook fun written _ => ?_
  rcases written with _ | text
  · exact .fail _
  · exact .pure ⟨rfl, trivial⟩

theorem nil : C.value .nil :=
  hC.plain trivial

theorem bool (truth : Bool) : C.value (.bool truth) :=
  hC.plain trivial

theorem number (n : Int64) : C.value (.number n) :=
  hC.plain trivial

theorem symbol (name : String) : C.value (.symbol name) :=
  hC.plain trivial

theorem string (text : String) : C.value (.string text) :=
  hC.plain trivial

theorem atom (cell : Nat) : C.value (.atom cell) :=
  hC.plain trivial

theorem codeOf (isMacro : Bool) (code : Nat) : C.value (.closure isMacro code) :=
  hC.plain trivial

theorem toItems {operation : String} {value : Value} (h : C.value value) {items : List Value}
    (hitems : value.toItems operation = .ok items) : ∀ item ∈ items, C.value item := by
  cases value with
  | nil =>
      cases hitems
      simp
  | list | vector =>
      cases hitems
      first
        | exact hC.list.mp h
        | exact hC.vector.mp h
  | _ => cases hitems

theorem toItems_actions (operation : String) {value : Value} (h : C.value value) :
    C.Actions size (SameResult fun items => ∀ item ∈ items, C.value item)
      (.ofExcept (value.toItems operation)) (.ofExcept (value.toItems operation)) :=
  .ofExcept fun _ hitems => hC.toItems h hitems

theorem mapM_toItems {operation : String} {values : List Value}
    (h : ∀ value ∈ values, C.value value) {sequences : List (List Value)}
    (hsequences : values.mapM (Value.toItems operation) = .ok sequences) :
    ∀ item ∈ sequences.flatten, C.value item := by
  induction values generalizing sequences with
  | nil =>
      cases hsequences
      simp
  | cons value values ih =>
      rw [List.forall_mem_cons] at h
      rw [List.mapM_cons] at hsequences
      rcases hfirst : value.toItems operation with cause | items
      · rw [hfirst] at hsequences
        cases hsequences
      · rcases hrest : values.mapM (Value.toItems operation) with cause | others
        · rw [hfirst, hrest] at hsequences
          cases hsequences
        · rw [hfirst, hrest] at hsequences
          cases hsequences
          rw [List.flatten_cons, List.forall_mem_append]
          exact ⟨hC.toItems h.1 hfirst, ih h.2 hrest⟩

theorem first {value : Value} (h : C.value value) {found : Value}
    (hfirst : value.first = .ok found) : C.value found := by
  rw [Value.first] at hfirst
  rcases hitems : value.toItems "first" with cause | items
  · rw [hitems] at hfirst
    cases hfirst
  · rw [hitems] at hfirst
    cases hfirst
    cases items with
    | nil => exact hC.nil
    | cons item items => exact hC.toItems h hitems item List.mem_cons_self

theorem rest {value : Value} (h : C.value value) {found : Value}
    (hrest : value.rest = .ok found) : C.value found := by
  rw [Value.rest] at hrest
  rcases hitems : value.toItems "rest" with cause | items
  · rw [hitems] at hrest
    cases hrest
  · rw [hitems] at hrest
    cases hrest
    refine hC.list.mpr fun item hitem => ?_
    exact hC.toItems h hitems item (List.mem_of_mem_tail hitem)

theorem nth {value : Value} (h : C.value value) {index : Int64} {found : Value}
    (hnth : value.nth index = .ok found) : C.value found := by
  rw [Value.nth] at hnth
  rcases hitems : value.toItems "nth" with cause | items
  · rw [hitems] at hnth
    cases hnth
  · rw [hitems] at hnth
    simp only [bind, Except.bind] at hnth
    split at hnth
    · split at hnth
      · next item hitem =>
          cases hnth
          exact hC.toItems h hitems _ (List.mem_of_getElem? hitem)
      · cases hnth
    · cases hnth

theorem printLine (text : String) :
    C.Actions size (SameResult fun _ => True) (.printLine text) (.printLine text) := by
  refine .update (fun _ => rfl) fun m m' hm _ => ?_
  rw [hC.printed_eq hm]
  exact hC.print _ hm

theorem readFile (path : String) :
    C.Actions size (SameResult fun _ => True) (.read fun m => m.readFile path)
      (.read fun m => m.readFile path) := by
  refine .read fun m m' hm _ => ⟨?_, trivial⟩
  rw [Machine.readFile, Machine.readFile, hC.files_eq hm]

theorem newAtom {content : Value} (h : C.value content) :
    C.Actions size C.values (.newAtom content) (.newAtom content) := by
  intro m m' hm hsize
  refine .value (Nat.le_refl size) hsize ⟨?_, hC.atom _⟩ ?_
  · rw [hC.cells_eq hm]
  · rw [hC.cells_eq hm]
    refine hC.setCells hm (.make content) fun other hother => ?_
    rcases Array.mem_push.mp hother with hold | rfl
    · exact hC.contents hm other hold
    · exact h

theorem content (cell : Nat) : C.Actions size C.values (.content cell) (.content cell) := by
  refine .read fun m m' hm _ => ⟨?_, ?_⟩
  · rw [hC.cells_eq hm]
  · rcases hcell : m.cells[cell]? with _ | content
    · exact hC.nil
    · exact hC.contents hm content (Array.mem_of_getElem? hcell)

theorem replace (cell : Nat) {content : Value} (h : C.value content) :
    C.Actions size (SameResult fun _ => True) (.replace cell content) (.replace cell content) := by
  refine .update (fun _ => rfl) fun m m' hm _ => ?_
  rw [hC.cells_eq hm]
  refine hC.setCells hm (.replace _ content) fun other hother => ?_
  rcases Array.mem_or_eq_of_mem_setIfInBounds hother with hold | rfl
  · exact hC.contents hm other hold
  · exact h

/-- A primitive that is given such values makes more of them. -/
theorem call? {p : Primitive} {arguments : List Value} {act : Eval Value}
    (h : p.call? arguments = some act) (harguments : ∀ value ∈ arguments, C.value value) :
    C.Actions size C.values act act := by
  cases p with
  | arithmetic operation =>
      cases operation <;> cases arguments <;> cases h
      all_goals
        refine .bind_same (.ofExcept_any _) fun numbers _ => ?_
        split
        · exact .pure ⟨rfl, hC.number _⟩
        · exact .fail _
  | equal =>
      cases arguments <;> cases h
      exact .pure ⟨rfl, hC.bool _⟩
  | compare relation =>
      cases arguments <;> cases h
      exact .bind_same (.ofExcept_any _) fun _ _ => .pure ⟨rfl, hC.bool _⟩
  | list =>
      cases h
      exact .pure ⟨rfl, hC.list.mpr harguments⟩
  | vector =>
      cases h
      exact .pure ⟨rfl, hC.vector.mpr harguments⟩
  | concat =>
      cases h
      refine .bind_same (.ofExcept fun _ => hC.mapM_toItems harguments) fun sequences hitems => ?_
      exact .pure ⟨rfl, hC.list.mpr hitems⟩
  | str | prStr =>
      cases h
      exact .bind_same (hC.textAll _ _ _) fun _ _ => .pure ⟨rfl, hC.string _⟩
  | prn | println =>
      cases h
      refine .bind_same (hC.textAll _ _ _) fun line _ => ?_
      exact .bind_same (hC.printLine line) fun _ _ => .pure ⟨rfl, hC.nil⟩
  | cons =>
      obtain ⟨head, tail, rfl⟩ := two_of_call? h rfl
      cases h
      rw [List.forall_mem_cons, List.forall_mem_singleton] at harguments
      refine .bind_same (hC.toItems_actions "cons" harguments.2) fun items hitems => ?_
      exact .pure ⟨rfl, hC.list.mpr (List.forall_mem_cons.mpr ⟨harguments.1, hitems⟩)⟩
  | nth =>
      obtain ⟨value, index, rfl⟩ := two_of_call? h rfl
      cases h
      rw [List.forall_mem_cons] at harguments
      exact .bind_same (.ofExcept_any _) fun _ _ => .ofExcept fun _ => hC.nth harguments.1
  | reset =>
      obtain ⟨target, content, rfl⟩ := two_of_call? h rfl
      cases h
      rw [List.forall_mem_cons, List.forall_mem_singleton] at harguments
      refine .bind_same (.ofExcept_any _) fun cell _ => ?_
      exact .bind_same (hC.replace cell harguments.2) fun _ _ => .pure ⟨rfl, harguments.2⟩
  | isEmpty =>
      obtain ⟨value, rfl⟩ := one_of_call? h rfl
      cases h
      exact .bind_same (.ofExcept_any _) fun _ _ => .pure ⟨rfl, hC.bool _⟩
  | count =>
      obtain ⟨value, rfl⟩ := one_of_call? h rfl
      cases h
      exact .bind_same (.ofExcept_any _) fun _ _ => .pure ⟨rfl, hC.number _⟩
  | test | not =>
      obtain ⟨value, rfl⟩ := one_of_call? h rfl
      cases h
      exact .pure ⟨rfl, hC.bool _⟩
  | symbol =>
      obtain ⟨value, rfl⟩ := one_of_call? h rfl
      cases h
      exact .bind_same (.ofExcept_any _) fun _ _ => .pure ⟨rfl, hC.symbol _⟩
  | slurp =>
      obtain ⟨value, rfl⟩ := one_of_call? h rfl
      cases h
      refine .bind_same (.ofExcept_any _) fun path _ => ?_
      refine .bind_same (hC.readFile path) fun text _ => ?_
      exact .bind_same (.ofExcept_any text) fun _ _ => .pure ⟨rfl, hC.string _⟩
  | readString =>
      obtain ⟨value, rfl⟩ := one_of_call? h rfl
      cases h
      exact .bind_same (.ofExcept_any _) fun text _ => .ofExcept fun _ => hC.readText
  | deref =>
      obtain ⟨value, rfl⟩ := one_of_call? h rfl
      cases h
      exact .bind_same (.ofExcept_any _) fun cell _ => hC.content cell
  | vec =>
      obtain ⟨value, rfl⟩ := one_of_call? h rfl
      cases h
      rw [List.forall_mem_singleton] at harguments
      refine .bind_same (hC.toItems_actions "vec" harguments) fun items hitems => ?_
      exact .pure ⟨rfl, hC.vector.mpr hitems⟩
  | first =>
      obtain ⟨value, rfl⟩ := one_of_call? h rfl
      cases h
      rw [List.forall_mem_singleton] at harguments
      exact .ofExcept fun _ => hC.first harguments
  | rest =>
      obtain ⟨value, rfl⟩ := one_of_call? h rfl
      cases h
      rw [List.forall_mem_singleton] at harguments
      exact .ofExcept fun _ => hC.rest harguments
  | atom =>
      obtain ⟨value, rfl⟩ := one_of_call? h rfl
      cases h
      rw [List.forall_mem_singleton] at harguments
      exact hC.newAtom harguments

end Lawful

end Correspondence

end Lisplet
