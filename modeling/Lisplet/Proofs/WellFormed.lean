/-
Well-formed values.  The reader takes keys and values in pairs, and evaluation rebuilds a
map with as many entries, so that no map ever has a key without a value.  Where a function
is made the rest marker has one name after it, and closures are copied as they are, so
that no call finds the marker without a name.
-/
import Lisplet.Proofs.ErrorContext
import Lisplet.Proofs.Invariants

namespace Lisplet

mutual

/-- The entries of each map in a value, at any depth. -/
def Value.maps : Value → List (List Value)
  | .map entries => entries :: mapsOf entries
  | .list items | .vector items => mapsOf items
  | _ => []

def mapsOf : List Value → List (List Value)
  | [] => []
  | value :: values => value.maps ++ mapsOf values

end

theorem mem_mapsOf {entries values : List Value} :
    entries ∈ mapsOf values ↔ ∃ value ∈ values, entries ∈ value.maps := by
  induction values with
  | nil => simp [mapsOf]
  | cons value values ih => simp [mapsOf, ih]

/-- Every map in the value has its entries in pairs. -/
def Value.WellFormed (value : Value) : Prop :=
  ∀ entries ∈ value.maps, entries.length % 2 = 0

instance (value : Value) : Decidable value.WellFormed :=
  inferInstanceAs (Decidable (∀ entries ∈ value.maps, entries.length % 2 = 0))

namespace Value

theorem mapsOf_even_iff {values : List Value} :
    (∀ entries ∈ mapsOf values, entries.length % 2 = 0) ↔ ∀ value ∈ values, value.WellFormed := by
  constructor
  · intro h value hvalue entries hentries
    exact h entries (mem_mapsOf.mpr ⟨value, hvalue, hentries⟩)
  · intro h entries hentries
    obtain ⟨value, hvalue, hmem⟩ := mem_mapsOf.mp hentries
    exact h value hvalue entries hmem

@[simp] theorem wellFormed_list {items : List Value} :
    (list items).WellFormed ↔ ∀ item ∈ items, item.WellFormed :=
  mapsOf_even_iff

@[simp] theorem wellFormed_vector {items : List Value} :
    (vector items).WellFormed ↔ ∀ item ∈ items, item.WellFormed :=
  mapsOf_even_iff

@[simp] theorem wellFormed_map {entries : List Value} :
    (map entries).WellFormed ↔
      entries.length % 2 = 0 ∧ ∀ entry ∈ entries, entry.WellFormed := by
  rw [WellFormed, maps, List.forall_mem_cons, mapsOf_even_iff]

theorem wellFormed_of_isPlain {value : Value} (h : value.IsPlain) : value.WellFormed := by
  cases value with
  | list | vector | map | native => exact h.elim
  | _ => exact fun _ hentries => by cases hentries

end Value

mutual

theorem Readable.wellFormed : ∀ {levels form}, Readable levels form → form.WellFormed
  | _, _, .nil | _, _, .bool | _, _, .number | _, _, .string | _, _, .symbol _ =>
      fun _ hentries => by cases hentries
  | _, _, .list hitems => Value.wellFormed_list.mpr (ReadableItems.wellFormed hitems)
  | _, _, .vector hitems => Value.wellFormed_vector.mpr (ReadableItems.wellFormed hitems)
  | _, _, .map heven hentries =>
      Value.wellFormed_map.mpr ⟨heven, ReadableItems.wellFormed hentries⟩

theorem ReadableItems.wellFormed : ∀ {levels items}, ReadableItems levels items →
    ∀ item ∈ items, item.WellFormed
  | _, _, .nil => fun _ hitem => by cases hitem
  | _, _, .cons hitem hitems =>
      List.forall_mem_cons.mpr ⟨Readable.wellFormed hitem, ReadableItems.wellFormed hitems⟩

end

theorem wellFormed_of_readText {text : String} {form : Value} (h : readText text = .ok form) :
    form.WellFormed := by
  rw [readText] at h
  split at h
  · next read hread =>
      cases h
      exact (readable_of_readWhole hread).wellFormed
  · split at h
    · cases h
      exact (Readable.nil : Readable 1 .nil).wellFormed
    · cases h

/-- The first rest marker among the names, if there is one, is second to last. -/
def RestPlaced (names : List String) : Prop :=
  restMarker ∉ names ∨ ∃ fixed rest, names = fixed ++ [restMarker, rest] ∧ restMarker ∉ fixed

/-- What the marker leaves of the names is nothing, or itself and one name. -/
theorem restPlaced_iff {names : List String} : RestPlaced names ↔
    names.dropWhile (· ≠ restMarker) = [] ∨
      ∃ marker rest, names.dropWhile (· ≠ restMarker) = [marker, rest] := by
  constructor
  · rintro (hnone | ⟨fixed, rest, rfl, hfixed⟩)
    · refine .inl (List.dropWhile_eq_nil_iff.mpr fun name hname => ?_)
      exact decide_eq_true fun heq => hnone (heq ▸ hname)
    · refine .inr ⟨restMarker, rest, ?_⟩
      rw [List.dropWhile_append_of_pos]
      · rfl
      · exact fun name hname => decide_eq_true fun heq => hfixed (heq ▸ hname)
  · rintro (hnil | ⟨marker, rest, hdropped⟩)
    · refine .inl fun hmem => ?_
      have hne := List.dropWhile_eq_nil_iff.mp hnil _ hmem
      exact of_decide_eq_true hne rfl
    · have hmarker : marker = restMarker := by
        have hne : names.dropWhile (· ≠ restMarker) ≠ [] := hdropped ▸ List.cons_ne_nil _ _
        have hhead := List.head_dropWhile_not (fun name => decide (name ≠ restMarker)) hne
        simp only [hdropped, List.head_cons] at hhead
        exact not_not.mp (of_decide_eq_false hhead)
      refine .inr ⟨names.takeWhile (· ≠ restMarker), rest, ?_, fun hmem => ?_⟩
      · rw [← hmarker, ← hdropped, hmarker, List.takeWhile_append_dropWhile]
      · have hne := List.mem_takeWhile_imp hmem
        exact of_decide_eq_true hne rfl

theorem restPlaced_of_parameterNames {forms : List Value} {names : List String}
    (h : parameterNames forms = .ok names) : RestPlaced names := by
  rw [parameterNames] at h
  rcases hnames : forms.mapM parameterName with cause | found
  · rw [hnames] at h
    cases h
  · simp only [hnames, bind, Except.bind] at h
    split at h
    · next hdropped =>
        cases h
        exact restPlaced_iff.mpr (.inl hdropped)
    · next marker rest hdropped =>
        cases h
        exact restPlaced_iff.mpr (.inr ⟨marker, rest, hdropped⟩)
    · cases h

/-- With the marker in its place, no name is missing when arguments are bound. -/
theorem RestPlaced.bindArguments_ne {names : List String} (h : RestPlaced names)
    (arguments : List Value) (context : Option Rendering) :
    bindArguments names arguments ≠ .error (.evaluation .unnamedRest context) := by
  rw [bindArguments]
  rcases restPlaced_iff.mp h with hnil | ⟨marker, rest, hdropped⟩
  · simp only [hnil]
    split <;> simp
  · simp only [hdropped]
    split <;> simp

/-- All values in the machine are well-formed, and so are the parameters of its closures. -/
structure Machine.WellFormed (m : Machine) : Prop where
  values : m.Holds Value.WellFormed
  parameters : ∀ closure ∈ m.closures, RestPlaced closure.parameters

def wellFormed : Invariant where
  machine := Machine.WellFormed
  value := Value.WellFormed
  closure closure := RestPlaced closure.parameters ∧ closure.body.WellFormed

theorem lawful_wellFormed : wellFormed.Lawful where
  plain := Value.wellFormed_of_isPlain
  list := Value.wellFormed_list
  vector := Value.wellFormed_vector
  entries hentries := (Value.wellFormed_map.mp hentries).2
  map hentries hlength hvalues :=
    Value.wellFormed_map.mpr ⟨hlength ▸ (Value.wellFormed_map.mp hentries).1, hvalues⟩
  readText := wellFormed_of_readText
  holds hm := hm.values
  closures hm closure hclosure := ⟨hm.parameters closure hclosure, hm.values.closures closure hclosure⟩
  setCells hm _ hcells := ⟨hm.values.replace hcells _, hm.parameters⟩
  print _ hm := ⟨hm.values.replace hm.values.cells _, hm.parameters⟩
  define index name hm hvalue := ⟨hm.values.define ⟨index, []⟩ name hvalue, hm.parameters⟩
  enter hm hframe := ⟨hm.values.pushFrame hframe, hm.parameters⟩
  body hclosure := hclosure.2
  make scope hnames hbody := ⟨restPlaced_of_parameterNames hnames, hbody⟩
  store hm hclosure := by
    refine ⟨hm.values.pushClosure hclosure.2, fun other hother => ?_⟩
    rcases Array.mem_push.mp hother with hold | rfl
    · exact hm.parameters other hold
    · exact hclosure.1

/-- A machine of a session: that of a new root scope, or what the evaluation of a text, in
whatever scope, has left of one, in a value or in an error at any point. -/
inductive SessionReaches (files : Files) : Machine → Prop
  | root {root m} (hroot : newRoot (.fresh files) = .value root m) : SessionReaches files m
  | evaluated {text scope m after} (h : SessionReaches files m)
      (hafter : (evaluateText text scope m).after? = some after) : SessionReaches files after

theorem rootMachine_wellFormed (files : Files) : (rootMachine files).WellFormed where
  values := by
    have hstored : ∀ stored ∈ (rootMachine noFiles).stored, stored.WellFormed := by
      decide +kernel
    exact Machine.holds_of_stored hstored
  parameters := by
    have hloadFile : RestPlaced ["f"] := .inl (by decide)
    have hcond : RestPlaced ["&", "xs"] := .inr ⟨[], "xs", rfl, by decide⟩
    intro closure hclosure
    simp only [rootMachine, List.mem_toArray, List.mem_cons, List.not_mem_nil, or_false] at hclosure
    rcases hclosure with rfl | rfl | rfl
    · exact hloadFile
    · exact hcond
    · exact hcond

namespace Machine.WellFormed

variable {m after : Machine}

/-- The evaluation of a text keeps values well-formed. -/
theorem evaluateText (hm : m.WellFormed) (text : String) (scope : Scope) :
    wellFormed.Leaves (evaluateText text scope m) := by
  rcases hread : readWhole text with e | form
  · rw [Lisplet.evaluateText, readOnly, hread]
    exact hm
  · rw [evaluateText_of_read hread]
    exact lawful_wellFormed.evaluateWithin _ (readable_of_readWhole hread).wellFormed scope hm

theorem not_hasUnnamedRest (hm : m.WellFormed) : ¬ m.HasUnnamedRest := by
  rintro ⟨closure, hclosure, marker, hdropped⟩
  rcases restPlaced_iff.mp (hm.parameters closure hclosure) with hnil | ⟨_, _, htwo⟩
  · rw [hdropped] at hnil
    cases hnil
  · rw [hdropped] at htwo
    cases htwo

/-- Evaluation that has left such a machine did not miss a name. -/
theorem cause_ne (hm : m.WellFormed) {cause : Error} (hown : cause.withoutContext.IsOwn m)
    (context : Option Rendering) : cause ≠ .evaluation .unnamedRest context := by
  rintro rfl
  exact hm.not_hasUnnamedRest (hown.rest none rfl)

end Machine.WellFormed

theorem SessionReaches.wellFormed {files : Files} {m : Machine} (h : SessionReaches files m) :
    m.WellFormed := by
  induction h with
  | root hroot =>
      rw [newRoot_fresh] at hroot
      cases hroot
      exact rootMachine_wellFormed files
  | evaluated _ hafter ih => exact (ih.evaluateText _ _).after hafter

/-- Wherever a session has come to, values are well-formed in the machine, and what a text
comes to is; and the rest marker is in its place in the parameters of each closure.  So
the name after it is never missing, in a call of any closure there, in the evaluation of
a text or a form, in a call from outside a list or in an expansion. -/
theorem session_keeps_wellFormed {files : Files} {m : Machine} (h : SessionReaches files m) :
    m.WellFormed ∧
    (∀ text scope result after, evaluateText text scope m = .value result after →
      result.WellFormed) ∧
    (∀ closure ∈ m.closures, ∀ arguments context,
      bindArguments closure.parameters arguments ≠ .error (.evaluation .unnamedRest context)) ∧
    (∀ text scope after context,
      evaluateText text scope m ≠ .error (.evaluation .unnamedRest context) after) ∧
    ∀ steps after context,
      (∀ form scope, form.WellFormed → evaluateWithin steps form scope m ≠
        .error (.evaluation .unnamedRest context) after) ∧
      (∀ function arguments, function.WellFormed → (∀ value ∈ arguments, value.WellFormed) →
        apply (evaluateWithin steps) function arguments m ≠
          .error (.evaluation .unnamedRest context) after) ∧
      ∀ count form scope, form.WellFormed →
        expandFully (evaluateWithin steps) count form scope m ≠
          .error (.evaluation .unnamedRest context) after := by
  have hm := h.wellFormed
  refine ⟨hm, fun text scope result after hvalue => ?_, fun closure hclosure => ?_,
    fun text scope after context herror => ?_, fun steps after context =>
      ⟨fun form scope hform herror => ?_, fun function arguments hfunction harguments herror => ?_,
        fun count form scope hform herror => ?_⟩⟩
  · have hleaves := hm.evaluateText text scope
    rw [hvalue] at hleaves
    exact hleaves.1
  · exact (hm.parameters closure hclosure).bindArguments_ne
  · have hafter : after.WellFormed := (hm.evaluateText text scope).after (by rw [herror]; rfl)
    rcases hread : readWhole text with e | form
    · rw [evaluateText, readOnly, hread] at herror
      cases herror
    · rw [evaluateText_of_read hread] at herror
      have hown := @isOwn_of_evaluate unlimited ⟨form, scope, m⟩ _ _ herror
      exact hafter.cause_ne hown context rfl
  · have hafter := lawful_wellFormed.evaluateWithin steps hform scope hm
    rw [herror] at hafter
    have hown := @isOwn_of_evaluate steps ⟨form, scope, m⟩ _ _ herror
    exact Machine.WellFormed.cause_ne hafter hown context rfl
  · have hafter := lawful_wellFormed.apply steps hfunction harguments hm
    rw [herror] at hafter
    exact Machine.WellFormed.cause_ne hafter (isOwn_of_apply herror) context rfl
  · have hafter := lawful_wellFormed.expandFully steps count hform scope hm
    rw [herror] at hafter
    exact Machine.WellFormed.cause_ne hafter (isOwn_of_expandFully herror) context rfl

/-- Defines a map with a map in it and a function of any number of arguments, and fails. -/
def definingText : String :=
  "(do (def! m {1 [2 {3 4}]}) (def! f (fn* (x & xs) xs)) (+ m 1))"

def definingForm : Value :=
  .list [.symbol "do",
    .list [.symbol "def!", .symbol "m",
      .map [.number 1, .vector [.number 2, .map [.number 3, .number 4]]]],
    .list [.symbol "def!", .symbol "f",
      .list [.symbol "fn*", .list [.symbol "x", .symbol "&", .symbol "xs"], .symbol "xs"]],
    .list [.symbol "+", .symbol "m", .number 1]]

/-- The text fails, and the map and the function that it leaves are well-formed. -/
theorem session_keeps_wellFormed_definingText :
    ∃ m, SessionReaches noFiles m ∧ (m.lookup? ⟨0, []⟩ "m").isSome ∧
      (m.lookup? ⟨0, []⟩ "f").isSome ∧ m.WellFormed := by
  have hread : readWhole definingText = .ok definingForm := by
    rfl
  obtain ⟨cause, after, hrun⟩ : ∃ cause after,
      evaluateWithin 6 definingForm ⟨0, []⟩ (rootMachine noFiles) = .error cause after :=
    Outcome.exists_of_isError (by decide +kernel)
  have hbound : (evaluateWithin 6 definingForm ⟨0, []⟩ (rootMachine noFiles)).after?.any
      (fun m => (m.lookup? ⟨0, []⟩ "m").isSome && (m.lookup? ⟨0, []⟩ "f").isSome) = true := by
    decide +kernel
  have hform : evaluate definingForm ⟨0, []⟩ (rootMachine noFiles) = .error cause after :=
    evaluate_of_error (by decide) hrun
  have hafter : (evaluateText definingText ⟨0, []⟩ (rootMachine noFiles)).after? = some after := by
    rw [evaluateText_of_read hread, hform]
    rfl
  have hreached : SessionReaches noFiles after := .evaluated (.root (newRoot_fresh noFiles)) hafter
  rw [hrun, Outcome.after?, Option.any_some, Bool.and_eq_true] at hbound
  exact ⟨after, hreached, hbound.1, hbound.2, (session_keeps_wellFormed hreached).1⟩

end Lisplet
