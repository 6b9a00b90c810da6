/-
The root scope that every run begins with.  Its only frame has the native
functions under their names, and after them the two functions that are defined
in the language.
-/
import Lisplet.Proofs.Confinement
import Lisplet.Proofs.OneDeeper
import Lisplet.Proofs.WellScoped
import Lisplet.Session

namespace Lisplet

theorem Frame.set_of_notMem {frame : Frame} {name : String} (h : name ∉ frame.map Prod.fst)
    (value : Value) : frame.set name value = frame ++ [(name, value)] := by
  induction frame with
  | nil => rfl
  | cons binding frame ih =>
      obtain ⟨bound, old⟩ := binding
      rw [List.map_cons, List.mem_cons, not_or] at h
      rw [set, if_neg (Ne.symm h.1), ih h.2, List.cons_append]

/-- The primitives under their names, registered in turn from a serial number on. -/
def primitiveBindings : (serial : Nat) → List Primitive → Frame
  | _, [] => []
  | serial, p :: ps =>
      (p.name, .native ⟨p.name, .primitive p, serial⟩) :: primitiveBindings (serial + 1) ps

def nativeFrame : Frame :=
  primitiveBindings 0 Primitive.all ++
    [("swap!", .native ⟨"swap!", .swap, Primitive.all.length⟩),
      ("eval", .native ⟨"eval", .evaluate ⟨0, []⟩, Primitive.all.length + 1⟩)]

/-- A machine with one frame, where so many functions have been registered. -/
def Machine.ofFrame (frame : Frame) (natives : Nat) (files : Files) : Machine :=
  { Machine.fresh files with frames := #[frame], natives := natives }

theorem register_ofFrame {frame : Frame} {name : String} (h : name ∉ frame.map Prod.fst)
    (operation : Operation) (natives : Nat) (files : Files) :
    Eval.register ⟨0, []⟩ name operation (.ofFrame frame natives files) =
      .value () (.ofFrame (frame ++ [(name, .native ⟨name, operation, natives⟩)])
        (natives + 1) files) := by
  rw [← Frame.set_of_notMem h]
  rfl

/-- New names are bound in turn. -/
theorem forM_register_ofFrame {frame : Frame} {ps : List Primitive}
    (h : (frame.map Prod.fst ++ ps.map Primitive.name).Nodup) (natives : Nat) (files : Files) :
    ps.forM (fun p => Eval.register ⟨0, []⟩ p.name (.primitive p)) (.ofFrame frame natives files) =
      .value () (.ofFrame (frame ++ primitiveBindings natives ps) (natives + ps.length) files) := by
  -- Each primitive goes to the end of the frame, which the others have yet to join.
  induction ps generalizing frame natives with
  | nil =>
      rw [primitiveBindings, List.append_nil]
      rfl
  | cons p ps ih =>
      have hnew : p.name ∉ frame.map Prod.fst := fun hold =>
        (List.nodup_append.mp h).2.2 _ hold _ List.mem_cons_self rfl
      have hnext : ((frame ++ primitiveBindings natives [p]).map Prod.fst ++
          ps.map Primitive.name).Nodup := by
        simpa [primitiveBindings] using h
      have hrest := ih hnext (natives + 1)
      rw [List.append_assoc, Nat.add_assoc, Nat.add_comm 1] at hrest
      calc
        _ = (Eval.register ⟨0, []⟩ p.name (.primitive p) (.ofFrame frame natives files)).andThen
              fun _ => ps.forM fun p => Eval.register ⟨0, []⟩ p.name (.primitive p) := rfl
        _ = _ := by
          rw [register_ofFrame hnew]
          exact hrest

/-- The form that reads the file `f` as one form. -/
def readFileCall : Value :=
  .list [.symbol "read-string", .list [.symbol "str", .string "(do ",
    .list [.symbol "slurp", .symbol "f"], .string "\nnil)"]]

/-- The body of `load-file`, whose argument is `f`. -/
def loadFileBody : Value :=
  .list [.symbol "eval", readFileCall]

def loadFileDefinition : Value :=
  .list [.symbol "def!", .symbol "load-file",
    .list [.symbol "fn*", .list [.symbol "f"], loadFileBody]]

/-- The body of `cond`, whose clauses are `xs`. -/
def condBody : Value :=
  .list [.symbol "if", .list [.symbol ">", .list [.symbol "count", .symbol "xs"], .number 0],
    .list [.symbol "list", .list [.symbol "quote", .symbol "if"],
      .list [.symbol "first", .symbol "xs"], .list [.symbol "nth", .symbol "xs", .number 1],
      .list [.symbol "cons", .list [.symbol "quote", .symbol "cond"],
        .list [.symbol "rest", .list [.symbol "rest", .symbol "xs"]]]]]

def condDefinition : Value :=
  .list [.symbol "defmacro!", .symbol "cond",
    .list [.symbol "fn*", .list [.symbol "&", .symbol "xs"], condBody]]

theorem readWhole_loadFileText : readWhole loadFileText = .ok loadFileDefinition := by
  rfl

set_option maxRecDepth 2000 in
theorem readWhole_condText : readWhole condText = .ok condDefinition := by
  rfl

/-- The machine of a run that has just made its root scope.  The macro `cond` has the
closure that it was made of and a copy of it. -/
def rootMachine (files : Files) : Machine where
  frames := #[nativeFrame ++ [("load-file", .closure false 0), ("cond", .closure true 2)]]
  cells := #[]
  closures := #[⟨["f"], loadFileBody, ⟨0, []⟩⟩, ⟨["&", "xs"], condBody, ⟨0, []⟩⟩,
    ⟨["&", "xs"], condBody, ⟨0, []⟩⟩]
  natives := Primitive.all.length + 2
  printed := ""
  depth := 0
  files := files

/-- The same machine before `cond` is defined. -/
def loadingMachine (files : Files) : Machine where
  frames := #[nativeFrame ++ [("load-file", .closure false 0)]]
  cells := #[]
  closures := #[⟨["f"], loadFileBody, ⟨0, []⟩⟩]
  natives := Primitive.all.length + 2
  printed := ""
  depth := 0
  files := files

theorem evaluateText_of_read {text : String} {form : Value} {scope : Scope} {m : Machine}
    (hread : readWhole text = .ok form) : evaluateText text scope m = evaluate form scope m := by
  rw [evaluateText, readOnly, hread]
  rfl

/-- A text whose form takes few steps is evaluated in all that there are. -/
theorem evaluateText_eq {text : String} {form value : Value} {scope : Scope} {m after : Machine}
    {steps : Nat} (hread : readWhole text = .ok form) (hsteps : steps ≤ unlimited)
    (hform : evaluateWithin steps form scope m = .value value after) :
    evaluateText text scope m = .value value after := by
  have hevaluate : evaluate form scope m = .value value after := by
    have hextends := evaluateWithin_extends hsteps form scope m (by rw [hform]; trivial)
    rw [evaluate, hextends, hform]
  rw [evaluateText_of_read hread, hevaluate]

theorem evaluateText_loadFileText (files : Files) :
    evaluateText loadFileText ⟨0, []⟩ (.ofFrame nativeFrame (Primitive.all.length + 2) files) =
      .value (.closure false 0) (loadingMachine files) := by
  have hsteps : 3 ≤ unlimited := by decide
  exact evaluateText_eq readWhole_loadFileText hsteps rfl

theorem evaluateText_condText (files : Files) :
    evaluateText condText ⟨0, []⟩ (loadingMachine files) =
      .value (.closure true 2) (rootMachine files) := by
  have hsteps : 3 ≤ unlimited := by decide
  exact evaluateText_eq readWhole_condText hsteps rfl

theorem registerNatives_fresh (files : Files) :
    registerNatives ⟨0, []⟩ (.ofFrame [] 0 files) =
      .value () (.ofFrame nativeFrame (Primitive.all.length + 2) files) := by
  have hprimitives := @forM_register_ofFrame [] Primitive.all Primitive.nodup_names 0 files
  rw [registerNatives, Eval.bind_apply, hprimitives, Outcome.andThen_value, Eval.bind_apply,
    register_ofFrame (by decide), Outcome.andThen_value, register_ofFrame (by decide)]
  rfl

/-- What a run begins with, whatever its files. -/
theorem newRoot_fresh (files : Files) :
    newRoot (.fresh files) = .value ⟨0, []⟩ (rootMachine files) := by
  have hscope : newScope (.fresh files) = .value ⟨0, []⟩ (.ofFrame [] 0 files) := rfl
  rw [newRoot, Eval.bind_apply, hscope, Outcome.andThen_value, Eval.bind_apply,
    registerNatives_fresh, Outcome.andThen_value, Eval.bind_apply, evaluateText_loadFileText,
    Outcome.andThen_value, Eval.bind_apply, evaluateText_condText, Outcome.andThen_value,
    Eval.pure_apply]

/-- No scope of a run leads nowhere at its beginning. -/
theorem rootMachine_wellScoped (files : Files) : (rootMachine files).WellScoped where
  closures := by
    have hclosures : ∀ closure ∈ (rootMachine noFiles).closures, closure.scope.Below 1 := by
      decide
    exact hclosures
  natives := by
    have hstored : ∀ stored ∈ (rootMachine noFiles).stored, stored.NativesIn (·.Below 1) := by
      decide +kernel
    exact Machine.holds_of_stored hstored

end Lisplet
