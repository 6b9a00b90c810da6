/-
The text of a value, in two styles: readable text can be read back, and in
display text strings stand for themselves.  An atom is written with its
content, so that writing takes a machine, and comes to no end where an atom
contains itself.
-/
import Lisplet.Machine
import Lisplet.Text.Decimal
import Lisplet.Text.Quoted

namespace Lisplet

inductive Style where
  | readable
  | display
deriving DecidableEq

namespace Value

mutual

/-- Write a value at the end of a text.  `cellText` gives the text of the
content of a cell. -/
def write (style : Style) (cellText : Nat → Rendering) (out : String) : Value → Rendering
  | nil => some (out ++ "nil")
  | bool true => some (out ++ "true")
  | bool false => some (out ++ "false")
  | number n => some (out ++ String.ofList (decimal n.toInt))
  | symbol name => some (out ++ name)
  | string text => some (if style = .readable then out ++ quoted text else out ++ text)
  | list items => (writeItems style cellText (out.push '(') items).map (·.push ')')
  | vector items => (writeItems style cellText (out.push '[') items).map (·.push ']')
  | map entries => (writeItems style cellText (out.push '\x7b') entries).map (·.push '\x7d')
  | atom cell => (cellText cell).map fun text => (out ++ "(atom " ++ text).push ')'
  | closure true _ => some (out ++ "#<macro>")
  | closure false _ => some (out ++ "#<function>")
  | native function => some ((out ++ "#<builtin-function:" ++ function.name).push '>')

def writeItems (style : Style) (cellText : Nat → Rendering) (out : String) :
    List Value → Rendering
  | [] => some out
  | [item] => write style cellText out item
  | item :: next :: items =>
      (write style cellText out item).bind fun out =>
        writeItems style cellText (out.push ' ') (next :: items)

end

end Value

namespace Machine

/-- The text of the content of a cell, if it ends within so many cells that lead
one to the next. -/
def cellText (m : Machine) (style : Style) : Nat → Nat → Rendering
  | 0, _ => none
  | cells + 1, cell => (m.cells[cell]?.getD .nil).write style (m.cellText style cells) ""

/-- The text of a value.  More cells than there are cannot lead one to the next
without coming back to one of them. -/
def text (m : Machine) (style : Style) (value : Value) : Rendering :=
  value.write style (m.cellText style (m.cells.size + 1)) ""

def textAll (m : Machine) (style : Style) (separator : String) (values : List Value) :
    Rendering :=
  (values.mapM (m.text style)).map separator.intercalate

end Machine

namespace Value

mutual

/-- What is written does not depend on the text before it. -/
theorem write_eq (style : Style) (cellText : Nat → Rendering) (out : String) (value : Value) :
    write style cellText out value = (write style cellText "" value).map (out ++ ·) := by
  cases value with
  | list items | vector items | map items =>
      simp only [write]
      rw [writeItems_eq style cellText (out.push _), writeItems_eq style cellText ("".push _)]
      simp [Function.comp_def, String.push_eq_append, String.append_assoc]
  | bool truth | closure truth => cases truth <;> simp [write]
  | string text => simp only [write]; split <;> simp
  | _ => simp [write, Function.comp_def, String.push_eq_append, String.append_assoc]

theorem writeItems_eq (style : Style) (cellText : Nat → Rendering) (out : String)
    (items : List Value) :
    writeItems style cellText out items = (writeItems style cellText "" items).map (out ++ ·) := by
  match items with
  | [] => simp [writeItems]
  | [item] => simp only [writeItems]; exact write_eq style cellText out item
  | item :: next :: items =>
      simp only [writeItems]
      rw [write_eq style cellText out item]
      cases write style cellText "" item with
      | none => rfl
      | some first =>
          simp only [Option.map_some, Option.bind_some]
          rw [writeItems_eq style cellText ((out ++ first).push ' '),
            writeItems_eq style cellText (first.push ' ')]
          simp [Function.comp_def, String.push_eq_append, String.append_assoc]

end

end Value

end Lisplet
