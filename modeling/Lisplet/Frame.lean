/-
Frames: the names that are bound in one place of a program, with the values
they stand for.  A frame can also be laid out as a listing, sorted by name.
-/
import Lisplet.Value

namespace Lisplet

/-- Names with their values.  A name is bound once; should it occur again, its
first binding counts. -/
abbrev Frame := List (String × Value)

namespace Frame

def get? (frame : Frame) (name : String) : Option Value :=
  match frame with
  | [] => none
  | (bound, value) :: frame => if bound = name then some value else get? frame name

/-- Bind a name, in place of an earlier binding if there is one. -/
def set (frame : Frame) (name : String) (value : Value) : Frame :=
  match frame with
  | [] => [(name, value)]
  | (bound, old) :: frame =>
      if bound = name then (name, value) :: frame else (bound, old) :: set frame name value

/-- Put a binding in its place in a list sorted by name, instead of an earlier
binding of the same name. -/
def insert (listing : Frame) (name : String) (value : Value) : Frame :=
  match listing with
  | [] => [(name, value)]
  | (bound, old) :: listing =>
      if name < bound then (name, value) :: (bound, old) :: listing
      else if name = bound then (name, value) :: listing
      else (bound, old) :: insert listing name value

def insertAll (listing frame : Frame) : Frame :=
  frame.foldr (fun binding listing => listing.insert binding.1 binding.2) listing

/-- Setting a name changes what that name stands for, and nothing else. -/
theorem get?_set (frame : Frame) (name : String) (value : Value) (other : String) :
    (frame.set name value).get? other = if name = other then some value else frame.get? other := by
  induction frame with
  | nil => simp [set, get?]
  | cons binding frame ih => grind [set, get?]

end Frame

end Lisplet
