/-
A frame more.  The frames of two machines may differ by one that no scope leads
to, the frames after it being counted one higher.  No program can tell such
machines apart: whatever it does on one it does on the other.
-/
import Lisplet.Proofs.WellScoped

namespace Lisplet

/-- The number of a frame once there is another one at `k`. -/
def shiftFrame (k index : Nat) : Nat :=
  if index < k then index else index + 1

def Scope.shift (scope : Scope) (k : Nat) : Scope :=
  ⟨shiftFrame k scope.own, scope.outer.map (shiftFrame k)⟩

def Closure.shift (closure : Closure) (k : Nat) : Closure :=
  { closure with scope := closure.scope.shift k }

theorem shiftFrame_of_lt {k index : Nat} (h : index < k) : shiftFrame k index = index :=
  if_pos h

theorem shiftFrame_of_le {k index : Nat} (h : k ≤ index) : shiftFrame k index = index + 1 :=
  if_neg (Nat.not_lt.mpr h)

theorem shiftFrame_inj {k index index' : Nat} :
    shiftFrame k index = shiftFrame k index' ↔ index = index' := by
  unfold shiftFrame
  split <;> split <;> omega

theorem Scope.frames_shift (scope : Scope) (k : Nat) :
    (scope.shift k).frames = scope.frames.map (shiftFrame k) := rfl

theorem Scope.Below.shift_eq {scope : Scope} {k : Nat} (h : scope.Below k) :
    scope.shift k = scope := by
  have hframes : (scope.shift k).frames = scope.frames := by
    rw [frames_shift]
    conv_rhs => rw [← List.map_id scope.frames]
    exact List.map_congr_left fun index hindex => shiftFrame_of_lt (h index hindex)
  rw [Scope.frames, Scope.frames, List.cons.injEq] at hframes
  rcases scope with ⟨own, outer⟩
  exact congrArg₂ Scope.mk hframes.1 hframes.2

/-- The second machine has a frame more, at `k`, and is otherwise the first. -/
structure Machine.FrameMore (k : Nat) (m m' : Machine) : Prop where
  room : k ≤ m.frames.size
  size : m'.frames.size = m.frames.size + 1
  frame : ∀ index, m'.frames[shiftFrame k index]? = m.frames[index]?
  closures : m'.closures = m.closures.map (·.shift k)
  cells : m'.cells = m.cells
  natives : m'.natives = m.natives
  printed : m'.printed = m.printed
  depth : m'.depth = m.depth
  files : m'.files = m.files

namespace Machine.FrameMore

variable {k : Nat} {m m' : Machine}

theorem lookup? (h : m.FrameMore k m') (scope : Scope) (name : String) :
    m'.lookup? (scope.shift k) name = m.lookup? scope name := by
  rw [Machine.lookup?, Machine.lookup?, Scope.frames_shift, List.findSome?_map]
  congr 1
  funext index
  simp only [Function.comp_apply, Machine.frame, h.frame]

theorem define (h : m.FrameMore k m') (own : Nat) (change : Frame → Frame) :
    Machine.FrameMore k { m with frames := m.frames.modify own change }
      { m' with frames := m'.frames.modify (shiftFrame k own) change } where
  room := by
    rw [Array.size_modify]
    exact h.room
  size := by
    rw [Array.size_modify, Array.size_modify]
    exact h.size
  frame := by
    intro index
    rw [Array.getElem?_modify, Array.getElem?_modify, h.frame]
    simp only [shiftFrame_inj]
  closures := h.closures
  cells := h.cells
  natives := h.natives
  printed := h.printed
  depth := h.depth
  files := h.files

theorem pushFrame (h : m.FrameMore k m') (frame : Frame) :
    Machine.FrameMore k { m with frames := m.frames.push frame }
      { m' with frames := m'.frames.push frame } where
  room := by
    rw [Array.size_push]
    exact Nat.le_succ_of_le h.room
  size := by
    rw [Array.size_push, Array.size_push, h.size]
  frame := by
    intro index
    -- The new frame has the next number in either machine.
    have hnew : shiftFrame k index = m'.frames.size ↔ index = m.frames.size := by
      rw [h.size, ← shiftFrame_of_le h.room, shiftFrame_inj]
    rw [Array.getElem?_push, Array.getElem?_push, h.frame]
    simp only [hnew]
  closures := h.closures
  cells := h.cells
  natives := h.natives
  printed := h.printed
  depth := h.depth
  files := h.files

theorem pushClosure (h : m.FrameMore k m') (closure : Closure) :
    Machine.FrameMore k { m with closures := m.closures.push closure }
      { m' with closures := m'.closures.push (closure.shift k) } :=
  { h with
    closures := by
      rw [Array.map_push, h.closures] }

theorem setCells (h : m.FrameMore k m') (cells : Array Value) :
    Machine.FrameMore k { m with cells := cells } { m' with cells := cells } :=
  { h with
    cells := rfl }

theorem print (h : m.FrameMore k m') (printed : String) :
    Machine.FrameMore k { m with printed := printed } { m' with printed := printed } :=
  { h with
    printed := rfl }

end Machine.FrameMore

/-- No `eval` evaluates in a scope that is counted anew. -/
def Native.Avoids (native : Native) (k : Nat) : Prop :=
  ∀ root, native.operation = .evaluate root → root.shift k = root

/-- Runs on machines of which the second has a frame more. -/
def frameMore (k : Nat) : Correspondence where
  machines m m' := m.FrameMore k m' ∧ m.Holds (·.NativesIn (·.Avoids k))
  scopes _ scope scope' := scope' = scope.shift k
  closures _ closure closure' :=
    closure' = closure.shift k ∧ closure.body.NativesIn (·.Avoids k)
  value value := value.NativesIn (·.Avoids k)

theorem lawful_frameMore (k : Nat) : (frameMore k).Lawful where
  plain := nativesIn_of_isPlain
  list := nativesIn_list
  vector := nativesIn_vector
  entries := nativesIn_map.mp
  map _ _ hvalues := nativesIn_map.mpr hvalues
  readText := nativesIn_of_readText
  evaluate _ hnative hoperation := (nativesIn_native.mp hnative _ hoperation).symm
  scopes_mono _ hscope := hscope
  cells_eq hm := hm.1.cells
  printed_eq hm := hm.1.printed
  files_eq hm := hm.1.files
  contents hm := hm.2.cells
  setCells hm _ hcells := ⟨hm.1.setCells _, hm.2.replace hcells _⟩
  print _ hm := ⟨hm.1.print _, hm.2.replace hm.2.cells _⟩
  seeSame := by
    rintro _ scope _ rfl m m' name hm -
    exact ⟨hm.1.lookup? scope name, fun value hvalue => hm.2.lookup? hvalue⟩
  define := by
    rintro _ m m' scope _ value name hm - rfl hvalue
    exact ⟨hm.1.define scope.own (·.set name value), hm.2.define scope name hvalue⟩
  closures_size hm := by
    rw [hm.1.closures, Array.size_map]
  closure := by
    intro m m' closure closure' code hm hclosure hclosure'
    rw [hm.1.closures, Array.getElem?_map, hclosure] at hclosure'
    cases hclosure'
    exact ⟨rfl, hm.2.closure hclosure⟩
  parts := by
    rintro _ closure _ ⟨rfl, hbody⟩
    exact ⟨rfl, rfl, hbody⟩
  make := by
    rintro _ scope _ forms names body rfl - hbody
    exact ⟨rfl, hbody⟩
  store := by
    rintro _ m m' closure _ hm - ⟨rfl, hbody⟩
    exact ⟨hm.1.pushClosure closure, hm.2.pushClosure hbody⟩
  enter := by
    rintro _ m m' closure _ frame hm - ⟨rfl, -⟩ hframe
    refine ⟨⟨hm.1.pushFrame frame, hm.2.pushFrame hframe⟩, ?_⟩
    have hnew : m'.frames.size = shiftFrame k m.frames.size := by
      rw [shiftFrame_of_le hm.1.room, hm.1.size]
    rw [hnew]
    rfl

/-- Where every scope leads somewhere, none leads to a frame that is new. -/
theorem Machine.WellScoped.frameMore_push {m : Machine} (h : m.WellScoped) (frame : Frame) :
    (frameMore m.frames.size).machines m { m with frames := m.frames.push frame } := by
  constructor
  · refine ⟨Nat.le_refl _, Array.size_push _, fun index => ?_, ?_, rfl, rfl, rfl, rfl, rfl⟩
    · by_cases hold : index < m.frames.size
      · rw [shiftFrame_of_lt hold, Array.getElem?_push, if_neg (Nat.ne_of_lt hold)]
      · rw [Nat.not_lt] at hold
        rw [shiftFrame_of_le hold, Array.getElem?_eq_none hold, Array.getElem?_eq_none]
        rw [Array.size_push]
        exact Nat.succ_le_succ hold
    · refine (Array.map_congr_left fun closure hclosure => ?_).trans (Array.map_id _) |>.symm
      rw [Closure.shift, (h.closures closure hclosure).shift_eq]
      rfl
  · refine h.natives.mono fun stored hstored => hstored.mono fun native hnative => ?_
    exact fun root hoperation => (hnative root hoperation).shift_eq

/-- The outcomes are the same but for a frame more, at `k`, in what the second leaves. -/
inductive Outcome.SameButFrame {α : Type} (k : Nat) : Outcome α → Outcome α → Prop
  | value {result after after'} (h : after.FrameMore k after') :
      SameButFrame k (.value result after) (.value result after')
  | error {cause after after'} (h : after.FrameMore k after') :
      SameButFrame k (.error cause after) (.error cause after')

section

variable {k size : Nat} {α : Type} {good : α → Prop} {outcome outcome' : Outcome α}

theorem Correspondence.Outcomes.settled_iff {C : Correspondence}
    {results : (size : Nat) → α → α → Prop} (h : C.Outcomes size results outcome outcome') :
    outcome.Settled ↔ outcome'.Settled := by
  cases h <;> exact Iff.rfl

theorem Correspondence.Outcomes.sameButFrame
    (h : (frameMore k).Outcomes size (SameResult good) outcome outcome')
    (hsettled : outcome.Settled) : outcome.SameButFrame k outcome' := by
  cases h with
  | value _ _ hresult hm =>
      obtain ⟨rfl, -⟩ := hresult
      exact .value hm.1
  | error _ hm => exact .error hm.1
  | unfinished => exact hsettled.elim

end

end Lisplet
