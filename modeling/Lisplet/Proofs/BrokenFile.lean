/-
Loading a file that is no row of forms.  The whole text of the file is read
before any of it is evaluated, so that an error of the reader leaves everything
as it was.  The one text that is neither a row of forms nor refused ends in a
mark: the mark takes the `nil` that the file is closed with.
-/
import Lisplet.Proofs.BrokenText
import Lisplet.Proofs.LoadFile

namespace Lisplet

open Filter

theorem toList_wrapped (text : String) :
    ("(do " ++ text ++ "\nnil)").toList =
      '(' :: 'd' :: 'o' :: ' ' :: (text.toList ++ '\n' :: ['n', 'i', 'l', ')']) := by
  simp

/-- There is more than separators inside a `do`. -/
theorem readText_wrapped_error {text : String} {cause : ReadError}
    (h : readWhole ("(do " ++ text ++ "\nnil)") = .error cause) :
    readText ("(do " ++ text ++ "\nnil)") = .error (.read cause) := by
  have hkind : cause.kind ≠ .noForm := by
    intro hkind
    have hnone := readWhole_noForm_iff.mp ⟨cause, h, hkind⟩
    rw [toList_wrapped] at hnone
    cases hnone with
    | blank hc => exact absurd hc (by decide)
  simp only [readText, h, if_neg hkind]

/-- What is neither a row of forms nor ends in a mark is not read inside a `do`. -/
theorem readWhole_wrapped_error {text : String}
    (hbroken : ¬ ∃ forms, ReadsItems Token 0 text.toList forms [])
    (hmark : ¬ EndsInMark text.toList) :
    ∃ cause, readWhole ("(do " ++ text ++ "\nnil)") = .error cause := by
  rcases hread : readWhole ("(do " ++ text ++ "\nnil)") with cause | form
  · exact ⟨cause, rfl⟩
  · have htext := readWhole_eq_ok_iff.mp hread
    rw [toList_wrapped] at htext
    exact (row_of_wrapped htext).elim (fun hrow => (hbroken hrow).elim)
      (fun hends => (hmark hends).elim)

section Refusing

variable {m : Machine} {root scope : Scope} {path text : String} {cause : ReadError}

/-- The body of `load-file` ends with the error of the reader. -/
theorem evaluates_loadFileBody_error (hm : m.WellScoped) (hroot : m.LoadsFiles root)
    (hfile : m.files path = .ok text)
    (hread : readWhole ("(do " ++ text ++ "\nnil)") = .error cause) :
    Evaluates 5 loadFileBody (root.enter m.frames.size) (m.enterFile path)
      (.error (.read cause) (m.enterFile path)) := by
  have hbelow := hm.root_below hroot
  have hcontext : Outcome.InContext (.error (.read cause) (m.enterFile path) : Outcome Value) :=
    fun _ => rfl
  have hform : Evaluates 4 readFileCall (root.enter m.frames.size) (m.enterFile path)
      (.error (.read cause) (m.enterFile path)) := by
    refine (hroot.readString.insideFile hbelow (by decide)).evaluates (by decide)
      (evaluates_fileText hm hroot hfile) rfl ?_ hcontext
    simp only [Eval.bind_apply, Value.toText, Eval.ofExcept_ok, Outcome.andThen_value,
      readText_wrapped_error hread]
    rfl
  obtain ⟨native, hbound, -⟩ := hroot.eval
  rw [← Machine.lookup?_insideFile hbelow (by decide : "eval" ≠ "f")] at hbound
  have hmacroCall : (m.enterFile path).macroCall? (root.enter m.frames.size) loadFileBody =
      none := by
    refine macroCall?_eq_none fun code => ?_
    rw [hbound]
    rintro ⟨⟩
  have hparts : EvaluatesAll 4 [.symbol "eval", readFileCall] (root.enter m.frames.size)
      (m.enterFile path) (.error (.read cause) (m.enterFile path)) :=
    .cons (.symbol hbound) (.fails hform)
  exact (EvaluatesList.partFails hmacroCall (by decide) hparts).evaluates hcontext

/-- So does the call of it. -/
theorem evaluates_loadFile_error (hm : m.WellScoped) (hroot : m.LoadsFiles root)
    (hscope : m.lookup? scope "load-file" = m.lookup? root "load-file")
    (hfile : m.files path = .ok text)
    (hread : readWhole ("(do " ++ text ++ "\nnil)") = .error cause) :
    Evaluates 5 (scriptForm path) scope m (.error (.read cause) (m.enterFile path)) := by
  have hbody := evaluates_loadFileBody_error hm hroot hfile hread
  obtain ⟨code, hbound, hclosure⟩ := hroot.loadFile
  rw [← hscope] at hbound
  have hmacroCall : m.macroCall? scope (scriptForm path) = none := by
    refine macroCall?_eq_none fun code' => ?_
    rw [hbound]
    rintro ⟨⟩
  have henter : enterClosure false code [.string path] m =
      .value (loadFileBody, root.enter m.frames.size) (m.enterFile path) := by
    simp only [enterClosure, Eval.bind_apply, Eval.read_apply, Outcome.andThen_value, hclosure]
    rfl
  have hpath : Evaluates 4 (.string path) scope m (.value (.string path) m) := .constant trivial
  have hparts : EvaluatesAll 4 [.symbol "load-file", .string path] scope m
      (.value [.closure false code, .string path] m) :=
    .cons (.symbol hbound) (.cons hpath .nil)
  have hlist := EvaluatesList.call hmacroCall (by decide) hparts (.closure henter hbody)
  exact hlist.evaluates hbody.inContext

/-- Loading a file whose text is neither a row of forms nor ends in a mark fails with
the error of the reader, before any of the file has been evaluated: all that is new
is the frame of the call. -/
theorem loadFile_refuses_broken_text (hm : m.WellScoped) (hroot : m.LoadsFiles root)
    (hscope : m.lookup? scope "load-file" = m.lookup? root "load-file")
    (hfile : m.files path = .ok text) (hdepth : m.depth + 5 ≤ maxDepth)
    (hbroken : ¬ ∃ forms, ReadsItems Token 0 text.toList forms [])
    (hmark : ¬ EndsInMark text.toList) :
    ∃ cause, readWhole ("(do " ++ text ++ "\nnil)") = .error cause ∧
      ∃ enough, ∀ steps, enough ≤ steps →
        evaluateWithin steps (scriptForm path) scope m =
          .error (.read cause) (m.enterFile path) := by
  obtain ⟨cause, hread⟩ := readWhole_wrapped_error hbroken hmark
  have hderived := evaluates_loadFile_error hm hroot hscope hfile hread
  obtain ⟨enough, henough⟩ :=
    eventually_atTop.mp (hderived.complete (by omega : 5 ≤ maxDepth - m.depth))
  refine ⟨cause, hread, enough, fun steps hsteps => ?_⟩
  rw [evaluateWithin_eq, henough steps hsteps]

end Refusing

theorem ReadsItems.read_closed {text : List Char} {forms : List Value}
    (h : ReadsItems Token 0 text forms []) :
    readItems (readForm (text.length + 1) maxNesting) ')' (text.length + 2) []
      (text ++ ['\n', ')']) = .ok (forms, []) := by
  have hline : ReadsItems Token 0 text forms (['\n'] ++ [')']) :=
    h.followed (beginsLike_newline [] [')'])
  have hlast : ReadsItems Token 0 ['\n'] [] [')'] := .nil (.blank (.inl (by decide)) .nil)
  have hclosed := hline.append hlast
  have hlength : (text ++ ['\n']).length = text.length + 1 := by simp
  rw [List.append_nil] at hclosed
  calc
    _ = readItems (readForm (text.length + 1) maxNesting) ')' (text.length + 2) []
          ((text ++ ['\n']) ++ [')']) := by rw [List.append_assoc]; rfl
    _ = .ok ([].reverse ++ forms, []) :=
      hclosed.complete rfl (Nat.zero_add maxNesting) hlength.le
        (hlength.trans_lt (Nat.lt_succ_self _)) (by decide)

theorem Dangling.exists_mem {text : List Char} (h : Dangling text) :
    ∃ c ∈ text, c ∈ ['\'', '\x60', '~', '@'] := by
  have hmark : ∀ {mark name more}, Mark mark name →
      ∃ c ∈ mark ++ more, c ∈ ['\'', '\x60', '~', '@'] := by
    intro mark name more hmark
    cases hmark <;> exact ⟨_, List.mem_cons_self, by decide⟩
  cases h with
  | mark h | marked h => exact hmark h

theorem not_endsInMark {text : List Char}
    (h : text.all (· ∉ ['\'', '\x60', '~', '@']) = true) : ¬ EndsInMark text := by
  rintro ⟨before, marks, items, rfl, -, hmarks⟩
  obtain ⟨c, hmem, hc⟩ := hmarks.exists_mem
  have hnone := List.all_eq_true.mp h c (List.mem_append_right _ hmem)
  exact of_decide_eq_true hnone hc

def oneFile (text : String) : Files := fun path =>
  if path = "a.mal" then .ok text else .error .notFound

def openListText : String := "(def! x 1) (x"

theorem loadFile_refuses_broken_text_openListText :
    ∃ cause, readWhole ("(do " ++ openListText ++ "\nnil)") = .error cause ∧
      ∃ enough, ∀ steps, enough ≤ steps →
        evaluateWithin steps (scriptForm "a.mal") ⟨0, []⟩ (rootMachine (oneFile openListText)) =
          .error (.read cause) ((rootMachine (oneFile openListText)).enterFile "a.mal") := by
  have hfile : (rootMachine (oneFile openListText)).files "a.mal" = .ok openListText := by
    simp [rootMachine, oneFile]
  have hbroken : ¬ ∃ forms, ReadsItems Token 0 openListText.toList forms [] := by
    rintro ⟨forms, hforms⟩
    have hread := hforms.read_closed
    have hchars : openListText.toList =
        ['(', 'd', 'e', 'f', '!', ' ', 'x', ' ', '1', ')', ' ', '(', 'x'] := by decide
    have hstuck : readItems (readForm 14 maxNesting) ')' 15 []
        ['(', 'd', 'e', 'f', '!', ' ', 'x', ' ', '1', ')', ' ', '(', 'x', '\n', ')'] =
        .error ⟨.unexpectedEnd, []⟩ := rfl
    rw [hchars] at hread
    cases hstuck.symm.trans hread
  have hmark : ¬ EndsInMark openListText.toList := not_endsInMark (by decide)
  exact loadFile_refuses_broken_text (rootMachine_wellScoped _) (rootMachine_loadsFiles _) rfl hfile
    (by decide) hbroken hmark

def danglingText : String := "(def! x 1) '"

/-- Does the evaluation end with a value, and the name stand for the number then? -/
def Outcome.leaves (scope : Scope) (name : String) (word : Int64) : Outcome Value → Bool
  | .value _ after =>
      match after.lookup? scope name with
      | some (.number bound) => bound == word
      | _ => false
  | _ => false

theorem Outcome.exists_of_leaves {scope : Scope} {name : String} {word : Int64}
    {outcome : Outcome Value} (h : outcome.leaves scope name word = true) :
    ∃ value after, outcome = .value value after ∧
      after.lookup? scope name = some (.number word) := by
  rcases outcome with ⟨value, after⟩ | ⟨cause, after⟩ | _
  · refine ⟨value, after, rfl, ?_⟩
    rw [leaves] at h
    split at h
    · next hbound => rw [hbound, beq_iff_eq.mp h]
    · cases h
  · cases h
  · cases h

/-- A file that ends in a mark is loaded, although it is no row of forms. -/
theorem loadFile_accepts_danglingText :
    (¬ ∃ forms, ReadsItems Token 0 danglingText.toList forms []) ∧
      ∃ value after, evaluateWithin 10 (scriptForm "a.mal") ⟨0, []⟩
          (rootMachine (oneFile danglingText)) = .value value after ∧
        after.lookup? ⟨0, []⟩ "x" = some (.number 1) := by
  constructor
  · rintro ⟨forms, hforms⟩
    have hread := hforms.read_closed
    have hchars : danglingText.toList =
        ['(', 'd', 'e', 'f', '!', ' ', 'x', ' ', '1', ')', ' ', '\''] := by decide
    have hstuck : readItems (readForm 13 maxNesting) ')' 14 []
        ['(', 'd', 'e', 'f', '!', ' ', 'x', ' ', '1', ')', ' ', '\'', '\n', ')'] =
        .error ⟨.unexpectedCloser, [')']⟩ := rfl
    rw [hchars] at hread
    cases hstuck.symm.trans hread
  · exact Outcome.exists_of_leaves (by decide +kernel)

end Lisplet
