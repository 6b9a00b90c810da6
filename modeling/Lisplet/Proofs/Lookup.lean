/-
Lookup after a change.  A new frame is seen only from scopes that enter it, and a new
binding only under its own name, from scopes that come to its frame before another frame
has the name.
-/
import Lisplet.Proofs.CallRules
import Lisplet.Proofs.WellScoped

namespace Lisplet

theorem findSome?_cons_congr {look look' : α → Option β} {head : α} {tail : List α}
    (hhead : look head = look' head)
    (htail : look' head = none → tail.findSome? look = tail.findSome? look') :
    (head :: tail).findSome? look = (head :: tail).findSome? look' := by
  rw [List.findSome?_cons, List.findSome?_cons, hhead]
  cases hvalue : look' head with
  | some value => rfl
  | none => exact htail hvalue

namespace Machine

variable {m : Machine} {scope : Scope} {index : Nat} {name : String}

theorem frame_push_size (m : Machine) (bindings : Frame) :
    Machine.frame { m with frames := m.frames.push bindings } m.frames.size = bindings := by
  rw [Machine.frame, Array.getElem?_push_size, Option.getD_some]

theorem frame_push_of_lt (h : index < m.frames.size) (bindings : Frame) :
    Machine.frame { m with frames := m.frames.push bindings } index = m.frame index := by
  rw [Machine.frame, Machine.frame, Array.getElem?_push_lt h, Array.getElem?_eq_getElem h]

theorem frame_of_size_le (h : m.frames.size ≤ index) : m.frame index = [] := by
  rw [Machine.frame, Array.getElem?_eq_none h, Option.getD_none]

/-- The innermost frame is looked into first. -/
theorem lookup?_enter (m : Machine) (scope : Scope) (index : Nat) (name : String) :
    m.lookup? (scope.enter index) name =
      ((m.frame index).get? name).or (m.lookup? scope name) := by
  rw [Machine.lookup?, Scope.frames, Scope.own_enter, Scope.outer_enter, List.findSome?_cons]
  cases (m.frame index).get? name <;> rfl

/-- What a name stands for depends on what the frames of the scope bind it to. -/
theorem lookup?_congr {m' : Machine} (h : ∀ index ∈ scope.frames,
    (m'.frame index).get? name = (m.frame index).get? name) :
    m'.lookup? scope name = m.lookup? scope name := by
  rw [Machine.lookup?, Machine.lookup?]
  generalize scope.frames = indices at h
  induction indices with
  | nil => rfl
  | cons index indices ih =>
      rw [List.forall_mem_cons] at h
      exact findSome?_cons_congr h.1 fun _ => ih h.2

/-- A new frame changes nothing for the scopes that were there. -/
theorem lookup?_push (h : scope.Below m.frames.size) (bindings : Frame) (name : String) :
    Machine.lookup? { m with frames := m.frames.push bindings } scope name =
      m.lookup? scope name :=
  lookup?_congr fun index hindex => by rw [frame_push_of_lt (h index hindex)]

/-- In a new frame a name stands for what it is bound to there, or for what it stands for
outside. -/
theorem lookup?_enter_push (h : scope.Below m.frames.size) (bindings : Frame) (name : String) :
    Machine.lookup? { m with frames := m.frames.push bindings }
        (scope.enter m.frames.size) name =
      (bindings.get? name).or (m.lookup? scope name) := by
  rw [lookup?_enter, frame_push_size, lookup?_push h]

theorem lookup?_inside (h : scope.Below m.frames.size) {bindings : Frame}
    (hname : bindings.get? name = none) :
    Machine.lookup? { m with frames := m.frames.push bindings }
        (scope.enter m.frames.size) name = m.lookup? scope name := by
  rw [lookup?_enter_push h, hname, Option.none_or]

theorem frame_define (h : scope.own < m.frames.size) (name : String) (value : Value)
    (index : Nat) :
    (m.define scope name value).frame index =
      if index = scope.own then (m.frame index).set name value else m.frame index := by
  rw [Machine.frame, Machine.frame, Machine.define, Array.getElem?_modify]
  by_cases hindex : index = scope.own
  · rw [if_pos hindex.symm, if_pos hindex, hindex, Array.getElem?_eq_getElem h]
    rfl
  · rw [if_neg (Ne.symm hindex), if_neg hindex]

end Machine

end Lisplet
