/-
Listings: the names in sight of a scope, sorted.  A name that is bound in
several frames is listed once, with its innermost binding.
-/
import Lisplet.Machine

namespace Lisplet

/-- The bindings in sight of a scope, sorted by name. -/
def Machine.bindings (m : Machine) (scope : Scope) : Frame :=
  scope.frames.foldr (fun index listing => listing.insertAll (m.frame index)) []

end Lisplet
