/-
Parameters and their arguments.  The lists that are taken as parameters are those of a
signature, which says the names of single arguments and perhaps a name for the rest.  A
signature settles how many arguments there may be, and which of them each name gets.
-/
import Lisplet.Proofs.Lookup
import Lisplet.Proofs.RootScope
import Lisplet.Proofs.WellFormed

namespace Lisplet

/-- What a parameter list says: the names of single arguments, and perhaps the name for all
arguments that are left over. -/
structure Signature where
  singles : List String
  rest : Option String
  marker_notMem : restMarker ∉ singles

namespace Signature

def names (s : Signature) : List String :=
  match s.rest with
  | none => s.singles
  | some rest => s.singles ++ [restMarker, rest]

def arity (s : Signature) : Arity :=
  match s.rest with
  | none => .exactly s.singles.length
  | some _ => .atLeast s.singles.length

/-- The frame gives each name its argument.  A name that occurs again gets the argument at its
last place, and the name for the rest gets the rest in any case. -/
structure Gives (s : Signature) (arguments : List Value) (frame : Frame) : Prop where
  names : ∀ name, (frame.get? name).isSome ↔ name ∈ s.singles ∨ s.rest = some name
  rest : ∀ name, s.rest = some name →
    frame.get? name = some (.list (arguments.drop s.singles.length))
  single : ∀ place name, s.singles[place]? = some name → name ∉ s.singles.drop (place + 1) →
    s.rest ≠ some name → frame.get? name = arguments[place]?

def Distinct (s : Signature) : Prop :=
  s.singles.Nodup ∧ ∀ name, s.rest = some name → name ∉ s.singles

theorem takeWhile_names (s : Signature) : s.names.takeWhile (· ≠ restMarker) = s.singles := by
  have hsingles : ∀ name ∈ s.singles, decide (name ≠ restMarker) = true :=
    fun name hname => decide_eq_true fun heq => s.marker_notMem (heq ▸ hname)
  rw [names]
  cases s.rest with
  | none => exact List.takeWhile_eq_self_iff.mpr hsingles
  | some rest =>
      rw [List.takeWhile_append_of_pos hsingles]
      exact List.append_nil _

theorem dropWhile_names (s : Signature) : s.names.dropWhile (· ≠ restMarker) =
    match s.rest with
    | none => []
    | some rest => [restMarker, rest] := by
  have hsingles : ∀ name ∈ s.singles, decide (name ≠ restMarker) = true :=
    fun name hname => decide_eq_true fun heq => s.marker_notMem (heq ▸ hname)
  rw [names]
  cases s.rest with
  | none => exact List.dropWhile_eq_nil_iff.mpr hsingles
  | some rest =>
      rw [List.dropWhile_append_of_pos hsingles]
      rfl

theorem exists_names_iff {names : List String} :
    (∃ s : Signature, s.names = names) ↔ RestPlaced names := by
  constructor
  · rintro ⟨⟨singles, _ | rest, hmarker⟩, rfl⟩
    · exact .inl hmarker
    · exact .inr ⟨singles, rest, rfl, hmarker⟩
  · rintro (hmarker | ⟨singles, rest, rfl, hmarker⟩)
    · exact ⟨⟨names, none, hmarker⟩, rfl⟩
    · exact ⟨⟨singles, some rest, hmarker⟩, rfl⟩

end Signature

/-- The first marker, if there is one, is second to last. -/
theorem restPlaced_iff_idxOf? {names : List String} :
    RestPlaced names ↔
      ∀ place, names.idxOf? restMarker = some place → place + 2 = names.length := by
  have hplace (before after : List String) (hbefore : restMarker ∉ before) :
      (before ++ restMarker :: after).idxOf? restMarker = some before.length := by
    refine List.idxOf?_eq_some_iff.mpr ⟨by simp, by simp, fun place hlt heq => hbefore ?_⟩
    rw [List.getElem_append_left hlt] at heq
    exact heq ▸ List.getElem_mem hlt
  constructor
  · rintro (hnone | ⟨singles, rest, rfl, hsingles⟩) place hsome
    · rw [List.idxOf?_eq_none_iff.mpr hnone] at hsome
      cases hsome
    · rw [hplace singles [rest] hsingles] at hsome
      cases hsome
      rw [List.length_append]
      rfl
  · intro h
    by_cases hmem : restMarker ∈ names
    · obtain ⟨before, after, rfl, hbefore⟩ := List.eq_append_cons_of_mem hmem
      have hlength := h before.length (hplace before after hbefore)
      rw [List.length_append, List.length_cons] at hlength
      obtain ⟨rest, rfl⟩ := List.length_eq_one_iff.mp (by omega : after.length = 1)
      exact .inr ⟨before, rest, rfl, hbefore⟩
    · exact .inl hmem

theorem mapM_parameterName_eq_ok_iff {forms : List Value} {names : List String} :
    forms.mapM parameterName = .ok names ↔ forms = names.map .symbol := by
  constructor
  · intro h
    induction forms generalizing names with
    | nil =>
        cases h
        rfl
    | cons form forms ih =>
        rw [List.mapM_cons] at h
        cases form with
        | symbol name =>
            rcases hforms : forms.mapM parameterName with cause | others
            · rw [hforms] at h
              cases h
            · rw [hforms] at h
              cases h
              rw [List.map_cons, ih hforms]
        | _ => cases h
  · rintro rfl
    induction names with
    | nil => rfl
    | cons name names ih =>
        rw [List.map_cons, List.mapM_cons, ih]
        rfl

/-- A parameter list is taken exactly when it has symbols only, and its first marker, if there
is one, is second to last. -/
theorem parameterNames_eq_ok_iff {forms : List Value} {names : List String} :
    parameterNames forms = .ok names ↔ forms = names.map .symbol ∧ RestPlaced names := by
  constructor
  · intro h
    refine ⟨?_, restPlaced_of_parameterNames h⟩
    rw [parameterNames] at h
    rcases hforms : forms.mapM parameterName with cause | found
    · rw [hforms] at h
      cases h
    · have hfound : found = names := by
        simp only [hforms, bind, Except.bind] at h
        split at h <;> cases h <;> rfl
      exact mapM_parameterName_eq_ok_iff.mp (hfound ▸ hforms)
  · rintro ⟨hforms, hplaced⟩
    rw [parameterNames, mapM_parameterName_eq_ok_iff.mpr hforms]
    simp only [bind, Except.bind]
    rcases restPlaced_iff.mp hplaced with hnil | ⟨marker, rest, hdropped⟩
    · rw [hnil]
    · rw [hdropped]

namespace Frame

def setAll (frame bindings : Frame) : Frame :=
  bindings.foldl (fun frame binding => frame.set binding.1 binding.2) frame

variable {frame bindings : Frame} {name : String}

theorem setAll_cons (frame : Frame) (binding : String × Value) (bindings : Frame) :
    frame.setAll (binding :: bindings) = (frame.set binding.1 binding.2).setAll bindings := rfl

theorem get?_setAll_of_notMem (h : name ∉ bindings.map Prod.fst) :
    (frame.setAll bindings).get? name = frame.get? name := by
  induction bindings generalizing frame with
  | nil => rfl
  | cons binding bindings ih =>
      rw [List.map_cons, List.mem_cons, not_or] at h
      rw [setAll_cons, ih h.2, get?_set, if_neg (Ne.symm h.1)]

theorem get?_setAll_last {before after : Frame} {value : Value} (h : name ∉ after.map Prod.fst) :
    (frame.setAll (before ++ (name, value) :: after)).get? name = some value := by
  have hlast : frame.setAll (before ++ (name, value) :: after) =
      ((frame.setAll before).set name value).setAll after := by
    rw [setAll, List.foldl_append]
    rfl
  rw [hlast, get?_setAll_of_notMem h, get?_set, if_pos rfl]

theorem isSome_get?_setAll : ((frame.setAll bindings).get? name).isSome ↔
    name ∈ bindings.map Prod.fst ∨ (frame.get? name).isSome := by
  induction bindings generalizing frame with
  | nil => simp [setAll]
  | cons binding bindings ih =>
      rw [setAll_cons, ih, get?_set, List.map_cons, List.mem_cons]
      by_cases hname : binding.1 = name
      · simp [hname]
      · simp [hname, Ne.symm hname]

end Frame

namespace Signature

variable {s : Signature} {arguments : List Value}

def restBinding (s : Signature) (arguments : List Value) : Frame :=
  match s.rest with
  | none => []
  | some rest => [(rest, .list (arguments.drop s.singles.length))]

def bindings (s : Signature) (arguments : List Value) : Frame :=
  s.singles.zip arguments ++ s.restBinding arguments

theorem mem_restBinding {name : String} :
    name ∈ (s.restBinding arguments).map Prod.fst ↔ s.rest = some name := by
  rw [restBinding]
  cases s.rest with
  | none => simp
  | some rest => simp [eq_comm]

theorem length_singles_le (harity : s.arity.accepts arguments.length) :
    s.singles.length ≤ arguments.length := by
  rw [arity] at harity
  cases hrest : s.rest with
  | none =>
      rw [hrest] at harity
      exact (beq_iff_eq.mp harity).ge
  | some rest =>
      rw [hrest] at harity
      exact of_decide_eq_true harity

theorem map_fst_zip_singles (harity : s.arity.accepts arguments.length) :
    (s.singles.zip arguments).map Prod.fst = s.singles :=
  List.map_fst_zip (length_singles_le harity)

/-- No name is bound but the parameters. -/
theorem mem_bindings (harity : s.arity.accepts arguments.length) {name : String} :
    name ∈ (s.bindings arguments).map Prod.fst ↔ name ∈ s.singles ∨ s.rest = some name := by
  rw [bindings, List.map_append, List.mem_append, map_fst_zip_singles harity, mem_restBinding]

/-- The arguments are bound if their number fits the signature, and refused otherwise. -/
theorem bindArguments_eq (s : Signature) (arguments : List Value) :
    bindArguments s.names arguments =
      if s.arity.accepts arguments.length then .ok (Frame.setAll [] (s.bindings arguments))
      else .error (.arity s.arity arguments.length none) := by
  rw [bindArguments, takeWhile_names, dropWhile_names, arity, bindings, restBinding]
  cases s.rest with
  | none => simp [Arity.accepts, bindEach, Frame.setAll]
  | some rest => simp [Arity.accepts, bindEach, Frame.setAll, List.foldl_append]

theorem gives_bindings (harity : s.arity.accepts arguments.length) :
    s.Gives arguments (Frame.setAll [] (s.bindings arguments)) where
  names name := by
    rw [Frame.isSome_get?_setAll, mem_bindings harity]
    exact or_iff_left (by simp [Frame.get?])
  rest name hrest := by
    rw [bindings, restBinding, hrest]
    exact Frame.get?_setAll_last List.not_mem_nil
  single place name hplace hlater hrest := by
    obtain ⟨hlt, hname⟩ := List.getElem?_eq_some_iff.mp hplace
    have hargument := hlt.trans_le (length_singles_le harity)
    have hzip : place < (s.singles.zip arguments).length := by
      rw [List.length_zip]
      exact lt_min hlt hargument
    -- The binding at the place splits the others into earlier and later ones.
    have hsplit : s.bindings arguments = (s.singles.zip arguments).take place ++
        (name, arguments[place]) ::
          ((s.singles.zip arguments).drop (place + 1) ++ s.restBinding arguments) := by
      have hhere : (s.singles.zip arguments)[place] = (name, arguments[place]) := by
        rw [List.getElem_zip, hname]
      rw [bindings, ← List.cons_append, ← List.append_assoc, ← hhere, List.getElem_cons_drop,
        List.take_append_drop]
    have hafter : name ∉
        ((s.singles.zip arguments).drop (place + 1) ++ s.restBinding arguments).map Prod.fst := by
      rw [List.map_append, List.mem_append, List.map_drop, map_fst_zip_singles harity,
        mem_restBinding, not_or]
      exact ⟨hlater, hrest⟩
    rw [hsplit, Frame.get?_setAll_last hafter, List.getElem?_eq_getElem hargument]

namespace Gives

variable {frame : Frame}

theorem get?_eq_none (h : s.Gives arguments frame) {name : String} (hsingles : name ∉ s.singles)
    (hrest : s.rest ≠ some name) : frame.get? name = none := by
  rw [← Option.not_isSome_iff_eq_none, h.names, not_or]
  exact ⟨hsingles, hrest⟩

/-- Where all names differ, the arguments are those of the single names, in order, and after
them the items of the list for the rest. -/
theorem whole (h : s.Gives arguments frame) (hnames : s.Distinct)
    (harity : s.arity.accepts arguments.length) :
    ∃ singles others, arguments = singles ++ others ∧
      s.singles.map frame.get? = singles.map some ∧
      (∀ name, s.rest = some name → frame.get? name = some (.list others)) ∧
      (s.rest = none → others = []) := by
  have hle := length_singles_le harity
  refine ⟨arguments.take s.singles.length, arguments.drop s.singles.length,
    (List.take_append_drop _ _).symm, ?_, h.rest, fun hnone => ?_⟩
  · refine List.ext_getElem (by simp [hle]) fun place hplace _ => ?_
    rw [List.length_map] at hplace
    have hlater : s.singles[place] ∉ s.singles.drop (place + 1) := by
      have hnodup := hnames.1.sublist (List.drop_sublist place s.singles)
      rw [List.drop_eq_getElem_cons hplace] at hnodup
      exact (List.nodup_cons.mp hnodup).1
    have hrest : s.rest ≠ some s.singles[place] := fun heq =>
      hnames.2 _ heq (List.getElem_mem hplace)
    have hargument : place < arguments.length := hplace.trans_le hle
    rw [List.getElem_map, List.getElem_map, List.getElem_take,
      h.single place _ (List.getElem?_eq_getElem hplace) hlater hrest,
      List.getElem?_eq_getElem hargument]
  · rw [arity, hnone] at harity
    exact List.drop_eq_nil_of_le (beq_iff_eq.mp harity).le

end Gives

end Signature

/-- Make a scope inside another, in which the parameters name the arguments. -/
def bindInner (parent : Scope) (parameters : List String) (arguments : List Value) :
    Eval Scope := do
  newInner parent (← .ofExcept (bindArguments parameters arguments))

/-- The scope that the body of a closure is evaluated in is made inside that of the closure. -/
theorem enterClosure_eq_bindInner {m : Machine} {code : Nat} {closure : Closure}
    (hcode : m.closures[code]? = some closure) (isMacro : Bool) (arguments : List Value) :
    enterClosure isMacro code arguments m =
      (bindInner closure.scope closure.parameters arguments m).andThen fun inner =>
        (return (closure.body, inner) : Eval (Value × Scope)) := by
  simp only [enterClosure, bindInner, Eval.bind_apply, Eval.read_apply, Outcome.andThen_value,
    hcode]
  cases bindArguments closure.parameters arguments <;> rfl

/-- Arguments are bound completely and exactly.  Parameters are symbols, the first marker among
them second to last.  A wrong number of arguments is refused, with the number that there is,
and changes nothing.  Otherwise there is a new frame, which gives the names their arguments and
no other name anything, inside a parent that stays as it is.  A call binds the parameters of
its closure in this way, inside the scope of the closure. -/
theorem parameters_bind_exactly :
    (∀ forms names, parameterNames forms = .ok names ↔ forms = names.map .symbol ∧
      ∀ place, names.idxOf? restMarker = some place → place + 2 = names.length) ∧
    (∀ forms names, parameterNames forms = .ok names → ∃ s : Signature, s.names = names ∧
      ∀ (parent : Scope) (arguments : List Value) (m : Machine), parent.Below m.frames.size →
        (s.arity.accepts arguments.length = false →
          bindInner parent names arguments m =
            .error (.arity s.arity arguments.length none) m) ∧
        (s.arity.accepts arguments.length = true → ∃ frame inner after,
          bindInner parent names arguments m = .value inner after ∧
          after = { m with frames := m.frames.push frame } ∧
          after.frame inner.own = frame ∧ s.Gives arguments frame ∧
          (s.Distinct → ∃ singles others, arguments = singles ++ others ∧
            s.singles.map frame.get? = singles.map some ∧
            (∀ name, s.rest = some name → frame.get? name = some (.list others)) ∧
            (s.rest = none → others = [])) ∧
          (∀ name, name ∈ s.singles ∨ s.rest = some name →
            after.lookup? inner name = frame.get? name) ∧
          (∀ name, name ∉ s.singles → s.rest ≠ some name →
            after.lookup? inner name = m.lookup? parent name) ∧
          ∀ index < m.frames.size, after.frame index = m.frame index)) ∧
    ∀ isMacro code closure arguments m, m.closures[code]? = some closure →
      enterClosure isMacro code arguments m =
        (bindInner closure.scope closure.parameters arguments m).andThen fun inner =>
          (return (closure.body, inner) : Eval (Value × Scope)) := by
  refine ⟨fun forms names => ?_, fun forms names hnames => ?_,
    fun isMacro _ _ arguments _ hcode => enterClosure_eq_bindInner hcode isMacro arguments⟩
  · rw [parameterNames_eq_ok_iff, restPlaced_iff_idxOf?]
  · obtain ⟨s, rfl⟩ := Signature.exists_names_iff.mpr (restPlaced_of_parameterNames hnames)
    refine ⟨s, rfl, fun parent arguments m hparent => ⟨fun hrefused => ?_, fun haccepted => ?_⟩⟩
    · rw [bindInner, Signature.bindArguments_eq, if_neg (Bool.eq_false_iff.mp hrefused)]
      rfl
    · have hgives := Signature.gives_bindings haccepted
      generalize hframe : Frame.setAll [] (s.bindings arguments) = frame at hgives
      refine ⟨frame, parent.enter m.frames.size, _, ?_, rfl, Machine.frame_push_size m frame,
        hgives, fun hdistinct => hgives.whole hdistinct haccepted, fun name hname => ?_,
        fun name hsingles hrest => ?_, fun index hindex => Machine.frame_push_of_lt hindex frame⟩
      · rw [bindInner, Signature.bindArguments_eq, if_pos haccepted, hframe]
        rfl
      · obtain ⟨value, hvalue⟩ := Option.isSome_iff_exists.mp ((hgives.names name).mpr hname)
        rw [Machine.lookup?_enter_push hparent, hvalue, Option.some_or]
      · rw [Machine.lookup?_enter_push hparent, hgives.get?_eq_none hsingles hrest,
          Option.none_or]

/-- A name is repeated, and the marker is the name for the rest. -/
theorem parameters_bind_exactly_repeatedName :
    ∃ after, bindInner ⟨0, []⟩ ["a", "a", "&", "&"] [.number 1, .number 2, .number 3, .number 4]
        (.ofFrame [("x", .number 7)] 0 noFiles) = .value ⟨1, [0]⟩ after ∧
      after.lookup? ⟨1, [0]⟩ "a" = some (.number 2) ∧
      after.lookup? ⟨1, [0]⟩ "&" = some (.list [.number 3, .number 4]) ∧
      after.lookup? ⟨1, [0]⟩ "x" = some (.number 7) := by
  obtain ⟨s, hnames, h⟩ := parameters_bind_exactly.2.1
    [.symbol "a", .symbol "a", .symbol "&", .symbol "&"] ["a", "a", "&", "&"] rfl
  have hsingles : s.singles = ["a", "a"] := by
    rw [← s.takeWhile_names, hnames]
    decide
  have hrest : s.rest = some "&" := by
    have hdropped := s.dropWhile_names
    rw [hnames] at hdropped
    cases hrest : s.rest with
    | none =>
        rw [hrest] at hdropped
        cases hdropped
    | some rest =>
        rw [hrest] at hdropped
        cases hdropped
        rfl
  have haccepted : s.arity.accepts 4 = true := by
    rw [Signature.arity, hrest, hsingles]
    rfl
  obtain ⟨frame, inner, after, hbind, -, -, hgives, -, hnamed, hothers, -⟩ :=
    (h ⟨0, []⟩ [.number 1, .number 2, .number 3, .number 4]
      (.ofFrame [("x", .number 7)] 0 noFiles) (by decide)).2 haccepted
  have hinner : inner = ⟨1, [0]⟩ := by
    cases hbind
    rfl
  subst hinner
  refine ⟨after, hbind, ?_, ?_, ?_⟩
  · rw [hnamed "a" (.inl (by rw [hsingles]; decide)), hgives.single 1 "a" (by rw [hsingles]; rfl)
      (by rw [hsingles]; decide) (by rw [hrest]; decide)]
    rfl
  · rw [hnamed "&" (.inr hrest), hgives.rest "&" hrest, hsingles]
    rfl
  · rw [hothers "x" (by rw [hsingles]; decide) (by rw [hrest]; decide)]
    rfl

end Lisplet
