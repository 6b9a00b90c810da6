/-
Outcomes of actions, and what the ways of putting actions together do to them.
-/
import Lisplet.Evaluation

namespace Lisplet

variable {α β : Type}

namespace Outcome

def andThen (outcome : Outcome α) (next : α → Eval β) : Outcome β :=
  match outcome with
  | .value result m => next result m
  | .error cause m => .error cause m
  | .unfinished => .unfinished

@[simp] theorem andThen_value (result : α) (m : Machine) (next : α → Eval β) :
    (Outcome.value result m).andThen next = next result m := rfl

@[simp] theorem andThen_error (cause : Error) (m : Machine) (next : α → Eval β) :
    (Outcome.error cause m).andThen next = .error cause m := rfl

@[simp] theorem andThen_unfinished (next : α → Eval β) :
    (Outcome.unfinished : Outcome α).andThen next = .unfinished := rfl

def map (make : α → β) (outcome : Outcome α) : Outcome β :=
  outcome.andThen fun result => pure (make result)

def noted (outcome : Outcome α) (note : Machine → Error → Error) : Outcome α :=
  match outcome with
  | .value result m => .value result m
  | .error cause m => .error (note m cause) m
  | .unfinished => .unfinished

@[simp] theorem noted_value (result : α) (m : Machine) (note : Machine → Error → Error) :
    (Outcome.value result m).noted note = .value result m := rfl

@[simp] theorem noted_error (cause : Error) (m : Machine) (note : Machine → Error → Error) :
    (Outcome.error cause m : Outcome α).noted note = .error (note m cause) m := rfl

theorem andThen_eq_value {outcome : Outcome α} {next : α → Eval β}
    {result : β} {after : Machine} (h : outcome.andThen next = .value result after) :
    ∃ first m, outcome = .value first m ∧ next first m = .value result after := by
  rcases outcome with ⟨first, m⟩ | ⟨cause, m⟩ | _
  · exact ⟨first, m, rfl, h⟩
  · cases h
  · cases h

/-- Two actions in a row fail in the first, or in the second after the first. -/
theorem andThen_eq_error_iff {outcome : Outcome α} {next : α → Eval β} {cause : Error}
    {after : Machine} :
    outcome.andThen next = .error cause after ↔ outcome = .error cause after ∨
      ∃ result m, outcome = .value result m ∧ next result m = .error cause after := by
  rcases outcome with ⟨result, m⟩ | ⟨own, m⟩ | _
  · constructor
    · exact fun h => .inr ⟨result, m, rfl, h⟩
    · rintro (h | ⟨_, _, ⟨⟩, h⟩)
      · cases h
      · exact h
  · simp
  · simp

theorem map_eq_error_iff {outcome : Outcome α} {make : α → β} {cause : Error}
    {after : Machine} : outcome.map make = .error cause after ↔ outcome = .error cause after := by
  cases outcome <;> simp [map, pure, Eval.pure]

theorem map_eq_value {outcome : Outcome α} {make : α → β} {result : β}
    {after : Machine} (h : outcome.map make = .value result after) :
    ∃ value, outcome = .value value after ∧ make value = result := by
  rcases outcome with ⟨value, m⟩ | ⟨cause, m⟩ | _
  · cases h
    exact ⟨value, rfl, rfl⟩
  · cases h
  · cases h

theorem noted_eq_value {outcome : Outcome α} {note : Machine → Error → Error}
    {result : α} {after : Machine} (h : .value result after = outcome.noted note) :
    outcome = .value result after := by
  rcases outcome with ⟨value, m⟩ | ⟨cause, m⟩ | _
  · exact h.symm
  · cases h
  · cases h

theorem noted_eq_error {outcome : Outcome α} {note : Machine → Error → Error} {cause : Error}
    {after : Machine} (h : outcome.noted note = .error cause after) :
    ∃ own, outcome = .error own after ∧ note after own = cause := by
  rcases outcome with ⟨value, m⟩ | ⟨own, m⟩ | _
  · cases h
  · cases h
    exact ⟨own, rfl, rfl⟩
  · cases h

def isValue : Outcome α → Bool
  | .value _ _ => true
  | _ => false

theorem exists_of_isValue {outcome : Outcome α} (h : outcome.isValue = true) :
    ∃ result after, outcome = .value result after := by
  cases outcome with
  | value result after => exact ⟨result, after, rfl⟩
  | error | unfinished => cases h

def value? : Outcome α → Option α
  | .value result _ => some result
  | _ => none

theorem exists_of_value? {outcome : Outcome α} {result : α} (h : outcome.value? = some result) :
    ∃ after, outcome = .value result after := by
  cases outcome with
  | value own after =>
      cases h
      exact ⟨after, rfl⟩
  | error | unfinished => cases h

def isError : Outcome α → Bool
  | .error _ _ => true
  | _ => false

theorem exists_of_isError {outcome : Outcome α} (h : outcome.isError = true) :
    ∃ cause after, outcome = .error cause after := by
  cases outcome with
  | error cause after => exact ⟨cause, after, rfl⟩
  | value | unfinished => cases h

def error? : Outcome α → Option Error
  | .error cause _ => some cause
  | _ => none

theorem exists_of_error? {outcome : Outcome α} {cause : Error} (h : outcome.error? = some cause) :
    ∃ after, outcome = .error cause after := by
  cases outcome with
  | error own after =>
      cases h
      exact ⟨after, rfl⟩
  | value | unfinished => cases h

def after? : Outcome α → Option Machine
  | .value _ after | .error _ after => some after
  | .unfinished => none

end Outcome

namespace Eval

theorem bind_apply (act : Eval α) (next : α → Eval β) (m : Machine) :
    (act >>= next) m = (act m).andThen next := rfl

theorem pure_apply (result : α) (m : Machine) :
    (pure result : Eval α) m = .value result m := rfl

theorem fail_apply (cause : Error) (m : Machine) :
    (Eval.fail cause : Eval α) m = .error cause m := rfl

theorem read_apply (look : Machine → α) (m : Machine) :
    Eval.read look m = .value (look m) m := rfl

theorem writing_some {look : Machine → Rendering} {m : Machine} {text : String}
    (h : look m = some text) : Eval.writing look m = .value text m := by
  rw [writing, bind_apply, read_apply, Outcome.andThen_value, h]
  rfl

theorem writing_none {look : Machine → Rendering} {m : Machine} (h : look m = none) :
    Eval.writing look m = .error .endless m := by
  rw [writing, bind_apply, read_apply, Outcome.andThen_value, h]
  rfl

theorem ofExcept_ok (result : α) (m : Machine) :
    Eval.ofExcept (.ok result) m = .value result m := rfl

theorem ofExcept_error (cause : Error) (m : Machine) :
    (Eval.ofExcept (.error cause) : Eval α) m = .error cause m := rfl

theorem onError_apply (act : Eval α) (note : Machine → Error → Error) (m : Machine) :
    act.onError note m = (act m).noted note := by
  rw [onError]
  cases act m <;> rfl

end Eval

end Lisplet
