/-
Errors of reading: why a text is no form, where, and what stands there.
-/
import Lisplet.Text.Excerpt

namespace Lisplet

/-- What sort of failure it is, as callers need to tell them apart. -/
inductive ReadErrorKind where
  | invalidSyntax
  /-- More text could complete the form. -/
  | incomplete
  | tooDeeplyNested
  /-- A complete form is followed by something else. -/
  | trailingContent
  /-- There is nothing but blanks and comments. -/
  | noForm
  | unsupported
  | implementationLimit
deriving DecidableEq

structure ReadError where
  kind : ReadErrorKind
  message : String
  /-- The part of the text around the failure. -/
  context : Option String
  /-- The character at the failure. -/
  found : Option Char
deriving DecidableEq

namespace ReadError

/-- A failure that points nowhere. -/
def ofMessage (kind : ReadErrorKind) (message : String) : ReadError :=
  ⟨kind, message, none, none⟩

/-- A failure at a byte offset of a text. -/
def atOffset (kind : ReadErrorKind) (message text : String) (offset : Nat) : ReadError :=
  let excerpt := excerptAround text offset
  ⟨kind, message, some excerpt.shown, excerpt.found⟩

/-- The message, then what was found, then the context, each on its own line. -/
def text (e : ReadError) : String :=
  let found := (e.found.map fun c => "\nFound: " ++ String.singleton c).getD ""
  let context := (e.context.map fun shown => "\nContext: " ++ shown).getD ""
  e.message ++ found ++ context

end ReadError

end Lisplet
