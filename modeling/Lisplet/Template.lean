/-
Templates: the forms under a quasiquote.  A template is turned into calls that
build the same structure when they are evaluated, with the unquoted forms
evaluated in their places.
-/
import Lisplet.Value

namespace Lisplet

mutual

/-- The form that builds what the template describes.  Vectors and maps are left
as they are, to be evaluated as usual. -/
def expandTemplate : Value → Value
  | .list items =>
      match Value.argumentOf? "unquote" (.list items) with
      | some form => form
      | none => expandItems items
  | .symbol name => .list [.symbol "quote", .symbol name]
  | other => other

/-- The form that builds the list of what the items describe, from the end: an
item is put before the rest, and a spliced sequence is joined to it. -/
def expandItems : List Value → Value
  | [] => .list []
  | item :: items =>
      match item.argumentOf? "splice-unquote" with
      | some form => .list [.symbol "concat", form, expandItems items]
      | none => .list [.symbol "cons", expandTemplate item, expandItems items]

end

end Lisplet
