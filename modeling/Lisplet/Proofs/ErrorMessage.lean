/-
Messages of errors.  A fault of evaluation or of type has a message, which the text
of a context may follow.  A host that has messages only cannot ask an error whether
it has a context; it searches the message for the words that begin one.  As long as
no message that an error is raised with contains those words, the search finds out
what the error knows.
-/
import Lisplet.Error
import Mathlib.Data.List.Infix

namespace Lisplet

/-- The words that begin a context. -/
def contextMarker : String := "\n  Context: "

/-- The words that begin a context occur in the text. -/
def Marked (text : String) : Prop :=
  contextMarker.toList <:+: text.toList

instance : DecidablePred Marked :=
  fun text => inferInstanceAs (Decidable (contextMarker.toList <:+: text.toList))

/-- A context begins with a new line. -/
theorem not_marked_of_oneLine {text : String} (h : '\n' ∉ text.toList) : ¬ Marked text :=
  fun hmarked => h (hmarked.subset (by decide))

theorem contextText_none : Error.contextText none = some "" :=
  rfl

theorem contextText_some (written : String) :
    Error.contextText (some (some written)) =
      some (contextMarker ++ "while evaluating: " ++ written) :=
  rfl

/-- A text with a context is marked, whatever the form in the context is. -/
theorem marked_of_contextText {context : Rendering} {base suffix : String}
    (h : Error.contextText (some context) = some suffix) : Marked (base ++ suffix) := by
  obtain ⟨written, rfl⟩ : ∃ written, context = some written := by
    cases context with
    | none => cases h
    | some written => exact ⟨written, rfl⟩
  rw [contextText_some, Option.some_inj] at h
  rw [← h, Marked, String.toList_append, String.toList_append, String.toList_append,
    List.append_assoc]
  exact List.infix_append' _ _ _

namespace Error

def message? : Error → Option Rendering
  | evaluation fault context => some ((contextText context).map (fault.text ++ ·))
  | type fault context => some ((contextText context).map (fault.text ++ ·))
  | _ => none

theorem message?_evaluation (fault : EvaluationFault) :
    (evaluation fault none).message? = some (some fault.text) := by
  rw [message?, contextText_none, Option.map_some, String.append_empty]

theorem message?_type (fault : TypeFault) :
    (type fault none).message? = some (some fault.text) := by
  rw [message?, contextText_none, Option.map_some, String.append_empty]

/-- The error without the list form that it arose in. -/
def withoutContext : Error → Error
  | evaluation fault _ => evaluation fault none
  | type fault _ => type fault none
  | cause => cause

/-- The error is as it may be raised: its message ends, and no words in it begin a
context. -/
def IsBare (cause : Error) : Prop :=
  ∀ message, cause.message? = some message → ∃ base, message = some base ∧ ¬ Marked base

theorem IsBare.of_message?_none {cause : Error} (h : cause.message? = none) : cause.IsBare := by
  intro message hmessage
  rw [h] at hmessage
  cases hmessage

theorem IsBare.of_oneLine {cause : Error} {base : String} (h : cause.message? = some (some base))
    (hline : '\n' ∉ base.toList) : cause.IsBare := by
  intro message hmessage
  rw [h] at hmessage
  cases hmessage
  exact ⟨base, rfl, not_marked_of_oneLine hline⟩

theorem IsBare.withoutContext_eq {cause : Error} (h : cause.IsBare) :
    cause.withoutContext = cause := by
  cases cause with
  | evaluation fault context | type fault context =>
      cases context with
      | none => rfl
      | some written =>
          obtain ⟨base, hmessage, hbare⟩ := h _ rfl
          obtain ⟨suffix, hsuffix, rfl⟩ := Option.map_eq_some_iff.mp hmessage
          exact (hbare (marked_of_contextText hsuffix)).elim
  | _ => rfl

@[simp] theorem withoutContext_inContext (cause : Error) (written : Unit → Rendering) :
    (cause.inContext written).withoutContext = cause.withoutContext := by
  cases cause with
  | evaluation fault context | type fault context => cases context <;> rfl
  | _ => rfl

/-- Only the first context counts. -/
theorem inContext_inContext (cause : Error) (inner outer : Unit → Rendering) :
    (cause.inContext inner).inContext outer = cause.inContext inner := by
  cases cause with
  | evaluation fault context | type fault context => cases context <;> rfl
  | _ => rfl

/-- An error without a message has no context to be given. -/
theorem inContext_of_message?_none {cause : Error} (h : cause.message? = none)
    (written : Unit → Rendering) : cause.inContext written = cause := by
  cases cause with
  | evaluation | type => cases h
  | _ => rfl

/-- The context of a bare error follows its message. -/
theorem IsBare.message?_inContext {cause : Error} (h : cause.IsBare) {base : String}
    (hmessage : cause.message? = some (some base)) (written : Unit → Rendering) :
    (cause.inContext written).message? =
      some ((contextText (some (written ()))).map (base ++ ·)) := by
  have hbare := h.withoutContext_eq
  cases cause with
  | evaluation fault context =>
      cases hbare
      rw [message?_evaluation] at hmessage
      cases hmessage
      rfl
  | type fault context =>
      cases hbare
      rw [message?_type] at hmessage
      cases hmessage
      rfl
  | _ => cases hmessage

theorem message?_naming (cause : Error) (callee : Unit → Rendering) :
    (cause.naming callee).message? = cause.message? := by
  cases cause with
  | arity expected got callee => cases callee <;> rfl
  | _ => rfl

/-- Give a fault of evaluation or of type its context, unless the words that begin
one occur in its message. -/
def attach (written : Unit → Rendering) (cause : Error) : Error :=
  match cause.message? with
  | some (some message) => if Marked message then cause else cause.inContext written
  | _ => cause

/-- The search finds out what the error knows, where no context can be taken for a
part of the message that the error was raised with. -/
theorem attach_eq_inContext {cause : Error} (h : cause.withoutContext.IsBare)
    (written : Unit → Rendering) : cause.attach written = cause.inContext written := by
  cases cause with
  | evaluation fault context | type fault context =>
      rcases context with _ | _ | other
      · obtain ⟨base, hmessage, hbare⟩ := h _ rfl
        rw [contextText_none, Option.map_some, Option.some_inj] at hmessage
        rw [← hmessage] at hbare
        exact if_neg hbare
      · rfl
      · exact if_pos (marked_of_contextText (contextText_some other))
  | _ => rfl

end Error

end Lisplet
