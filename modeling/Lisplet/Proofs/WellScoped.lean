/-
Scopes that lead somewhere.  A scope names its frames by number, and so do the
scopes of closures and of `eval`.  Where every such frame exists, evaluation
only makes scopes of frames that exist.
-/
import Lisplet.Proofs.CorrespondingRuns

namespace Lisplet

/-- All frames of the scope are among the first so many. -/
def Scope.Below (scope : Scope) (size : Nat) : Prop :=
  ∀ index ∈ scope.frames, index < size

instance (scope : Scope) (size : Nat) : Decidable (scope.Below size) :=
  inferInstanceAs (Decidable (∀ index ∈ scope.frames, index < size))

/-- A function that evaluates forms in a scope does so in the first so many frames. -/
def Native.Below (native : Native) (size : Nat) : Prop :=
  ∀ root, native.operation = .evaluate root → root.Below size

instance (native : Native) (size : Nat) : Decidable (native.Below size) :=
  match hoperation : native.operation with
  | .evaluate root => decidable_of_iff (root.Below size) <| by simp [Native.Below, hoperation]
  | .primitive _ | .swap | .countArguments _ => .isTrue <| by simp [Native.Below, hoperation]

/-- No closure and no `eval` has a scope with a frame that is not there. -/
structure Machine.WellScoped (m : Machine) : Prop where
  closures : ∀ closure ∈ m.closures, closure.scope.Below m.frames.size
  natives : m.Holds (·.NativesIn (·.Below m.frames.size))

theorem Scope.Below.mono {scope : Scope} {size size' : Nat} (h : scope.Below size)
    (hle : size ≤ size') : scope.Below size' :=
  fun index hindex => Nat.lt_of_lt_of_le (h index hindex) hle

theorem Scope.Below.enter {scope : Scope} {size : Nat} (h : scope.Below size) :
    (scope.enter size).Below (size + 1) := by
  intro index hindex
  rcases List.mem_cons.mp hindex with rfl | houter
  · exact Nat.lt_succ_self _
  · exact Nat.lt_succ_of_lt (h index houter)

theorem Native.Below.mono {native : Native} {size size' : Nat} (h : native.Below size)
    (hle : size ≤ size') : native.Below size' :=
  fun root hoperation => (h root hoperation).mono hle

theorem Value.NativesIn.mono {allowed allowed' : Native → Prop} {value : Value}
    (h : value.NativesIn allowed) (hallowed : ∀ native, allowed native → allowed' native) :
    value.NativesIn allowed' :=
  fun native hnative => hallowed native (h native hnative)

theorem Machine.Holds.mono {value value' : Value → Prop} {m : Machine} (h : m.Holds value)
    (hvalue : ∀ stored, value stored → value' stored) : m.Holds value' where
  frames frame hframe binding hbinding := hvalue _ (h.frames frame hframe binding hbinding)
  cells content hcontent := hvalue _ (h.cells content hcontent)
  closures closure hclosure := hvalue _ (h.closures closure hclosure)

/-- Runs in which no scope leads to a frame that is not there; every run corresponds
to itself.  So many frames are there at the start, which those of `eval` are among. -/
def wellScoped (start : Nat) : Correspondence where
  machines m m' := m' = m ∧ start ≤ m.frames.size ∧
    (∀ closure ∈ m.closures, closure.scope.Below m.frames.size) ∧
    m.Holds (·.NativesIn (·.Below start))
  scopes size scope scope' := scope' = scope ∧ scope.Below (max start size)
  closures size closure closure' := closure' = closure ∧ closure.scope.Below (max start size) ∧
    closure.body.NativesIn (·.Below start)
  value value := value.NativesIn (·.Below start)

theorem lawful_wellScoped (start : Nat) : (wellScoped start).Lawful where
  plain := nativesIn_of_isPlain
  list := nativesIn_list
  vector := nativesIn_vector
  entries := nativesIn_map.mp
  map _ _ hvalues := nativesIn_map.mpr hvalues
  readText := nativesIn_of_readText
  evaluate := by
    intro native root size hnative hoperation
    have hroot := nativesIn_native.mp hnative root hoperation
    exact ⟨rfl, hroot.mono (Nat.le_max_left start size)⟩
  scopes_mono := by
    rintro size size' scope _ hle ⟨rfl, hscope⟩
    exact ⟨rfl, hscope.mono (by omega)⟩
  cells_eq := by
    rintro m _ ⟨rfl, -⟩
    rfl
  printed_eq := by
    rintro m _ ⟨rfl, -⟩
    rfl
  files_eq := by
    rintro m _ ⟨rfl, -⟩
    rfl
  contents := by
    rintro m _ ⟨rfl, -, -, hholds⟩
    exact hholds.cells
  setCells := by
    rintro m _ cells ⟨rfl, hstart, hclosures, hholds⟩ - hcells
    exact ⟨rfl, hstart, hclosures, hholds.replace hcells _⟩
  print := by
    rintro m _ line ⟨rfl, hstart, hclosures, hholds⟩
    exact ⟨rfl, hstart, hclosures, hholds.replace hholds.cells _⟩
  seeSame := by
    rintro size scope _ ⟨rfl, -⟩ m _ name ⟨rfl, -, -, hholds⟩ -
    exact ⟨rfl, fun value hvalue => hholds.lookup? hvalue⟩
  define := by
    rintro size m _ scope _ value name ⟨rfl, hstart, hclosures, hholds⟩ - ⟨rfl, -⟩ hvalue
    refine ⟨rfl, ?_, ?_, hholds.define _ name hvalue⟩
    · rwa [Array.size_modify]
    · simpa only [Array.size_modify] using hclosures
  closures_size := by
    rintro m _ ⟨rfl, -⟩
    rfl
  closure := by
    rintro m _ closure closure' code ⟨rfl, hstart, hclosures, hholds⟩ hclosure hclosure'
    rw [hclosure] at hclosure'
    cases hclosure'
    have hscope := hclosures closure (Array.mem_of_getElem? hclosure)
    exact ⟨rfl, hscope.mono (Nat.le_max_right _ _), hholds.closure hclosure⟩
  parts := by
    rintro _ closure _ ⟨rfl, -, hbody⟩
    exact ⟨rfl, rfl, hbody⟩
  make := by
    rintro size scope _ forms names body ⟨rfl, hscope⟩ - hbody
    exact ⟨rfl, hscope, hbody⟩
  store := by
    rintro size m _ closure _ ⟨rfl, hstart, hclosures, hholds⟩ hsize ⟨rfl, hscope, hbody⟩
    refine ⟨rfl, hstart, fun other hother => ?_, hholds.pushClosure hbody⟩
    rcases Array.mem_push.mp hother with hold | rfl
    · exact hclosures other hold
    · exact hscope.mono (Nat.max_le.mpr ⟨hstart, hsize⟩)
  enter := by
    rintro size m _ closure _ frame ⟨rfl, hstart, hclosures, hholds⟩ hsize ⟨rfl, hscope, -⟩ hframe
    have hbelow := hscope.mono (Nat.max_le.mpr ⟨hstart, hsize⟩)
    refine ⟨⟨rfl, ?_, fun other hother => ?_, hholds.pushFrame hframe⟩, rfl, ?_⟩
    · rw [Array.size_push]
      exact Nat.le_succ_of_le hstart
    · rw [Array.size_push]
      exact (hclosures other hother).mono (Nat.le_succ _)
    · exact hbelow.enter.mono (Nat.le_max_right _ _)

/-- A new frame leads nowhere, as long as the values in it do not. -/
theorem Machine.WellScoped.push {m : Machine} (hm : m.WellScoped) {frame : Frame}
    (hframe : ∀ binding ∈ frame, binding.2.NativesIn (·.Below m.frames.size)) :
    Machine.WellScoped { m with frames := m.frames.push frame } := by
  have hle : m.frames.size ≤ (m.frames.push frame).size := by
    rw [Array.size_push]
    exact Nat.le_succ _
  refine ⟨fun closure hclosure => (hm.closures closure hclosure).mono hle, ?_⟩
  refine (hm.natives.pushFrame hframe).mono fun stored hstored => ?_
  exact hstored.mono fun native hnative => hnative.mono hle

theorem Machine.WellScoped.machines {m : Machine} (hm : m.WellScoped) :
    (wellScoped m.frames.size).machines m m :=
  ⟨rfl, Nat.le_refl _, hm.closures, hm.natives⟩

/-- What such a run leaves has no fewer frames than there were at the start. -/
theorem Correspondence.Outcomes.wellScoped {α : Type} {start size : Nat}
    {results : (size : Nat) → α → α → Prop} {outcome outcome' : Outcome α}
    (h : (Lisplet.wellScoped start).Outcomes size results outcome outcome') {after : Machine}
    (hafter : outcome.after? = some after) : start ≤ after.frames.size ∧ after.WellScoped := by
  cases h with
  | value _ _ _ hm | error _ hm =>
      cases hafter
      obtain ⟨-, hstart, hclosures, hholds⟩ := hm
      refine ⟨hstart, hclosures, hholds.mono fun stored hstored => ?_⟩
      exact hstored.mono fun native hnative => hnative.mono hstart
  | unfinished => cases hafter

/-- Evaluation loses no frames and leaves no scope behind that leads to none, whatever
it comes to. -/
theorem Machine.WellScoped.evaluateWithin {m : Machine} (hm : m.WellScoped) {form : Value}
    {scope : Scope} (hform : form.NativesIn (·.Below m.frames.size))
    (hscope : scope.Below m.frames.size) {steps : Nat} {after : Machine}
    (hafter : (evaluateWithin steps form scope m).after? = some after) :
    m.frames.size ≤ after.frames.size ∧ after.WellScoped := by
  have hdepth : ∀ other other', (wellScoped m.frames.size).machines other other' →
      other'.depth = other.depth := by
    rintro other _ ⟨rfl, -⟩
    rfl
  have houtcomes := (lawful_wellScoped m.frames.size).evaluateWithin hdepth steps m.frames.size form
    scope scope hform ⟨rfl, hscope.mono (Nat.le_max_left _ _)⟩ m m hm.machines (Nat.le_refl _)
  exact houtcomes.wellScoped hafter

end Lisplet
