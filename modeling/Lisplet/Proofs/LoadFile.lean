/-
Loading a file.  The function `load-file` puts the text of the file inside a
`do`, reads that as one form and evaluates it in the root.  What comes of it is
what comes of evaluating the forms of the file in the root one after another.
-/
import Lisplet.Proofs.CallRules
import Lisplet.Proofs.DepthLimit
import Lisplet.Proofs.ExtraFrame
import Lisplet.Proofs.FileText
import Lisplet.Proofs.Lookup
import Lisplet.Proofs.RootScope

namespace Lisplet

open Filter

/-- In the root everything that loading a file takes is as it was made. -/
structure Machine.LoadsFiles (m : Machine) (root : Scope) : Prop where
  loadFile : ∃ code, m.lookup? root "load-file" = some (.closure false code) ∧
    m.closures[code]? = some ⟨["f"], loadFileBody, root⟩
  eval : ∃ native, m.lookup? root "eval" = some (.native native) ∧
    native.operation = .evaluate root
  readString : m.Names root "read-string" .readString
  str : m.Names root "str" .str
  slurp : m.Names root "slurp" .slurp
  sequence : ∀ code, m.lookup? root SpecialForm.sequence.name ≠ some (.closure true code)

/-- So it is at the beginning of a run. -/
theorem rootMachine_loadsFiles (files : Files) : (rootMachine files).LoadsFiles ⟨0, []⟩ where
  loadFile := ⟨0, rfl, rfl⟩
  eval := ⟨_, rfl, rfl⟩
  readString := ⟨_, rfl, rfl⟩
  str := ⟨_, rfl, rfl⟩
  slurp := ⟨_, rfl, rfl⟩
  sequence code := by
    have hnone : (rootMachine files).lookup? ⟨0, []⟩ SpecialForm.sequence.name = none := rfl
    rw [hnone]
    nofun

/-- Evaluate forms one after another, up to the first that fails, for `nil`. -/
def runForms (evaluator : Evaluator) (scope : Scope) : List Value → Eval Value
  | [] => return .nil
  | form :: forms => do
      let _ ← evaluator form scope
      runForms evaluator scope forms

/-- The form that the text of a file is read as. -/
def fileForm (forms : List Value) : Value :=
  .list (.symbol SpecialForm.sequence.name :: (forms ++ [.nil]))

theorem readText_wrapped {text : String} {forms : List Value} (h : IsFileOf text forms) :
    readText ("(do " ++ text ++ "\nnil)") = .ok (fileForm forms) := by
  rw [readText, readWhole_wrapped h]
  rfl

section Sequence

variable {evaluator : Evaluator} {scope : Scope} {m : Machine} {forms : List Value}

/-- To run forms is what a `do` does with those before its last. -/
theorem runForms_eq_evaluateEach :
    runForms evaluator scope forms m =
      (evaluateEach evaluator scope forms m).map fun _ => .nil := by
  induction forms generalizing m with
  | nil => rfl
  | cons form forms ih =>
      rw [runForms, evaluateEach, Eval.bind_apply, Eval.bind_apply]
      rcases evaluator form scope m with ⟨value, after⟩ | ⟨cause, after⟩ | _
      · exact ih
      · rfl
      · rfl

theorem stepSequence_concat (steps : Nat) (last : Value) :
    stepSpecial steps evaluator scope (.sequence (forms ++ [last])) =
      (do evaluateEach evaluator scope forms; return .next last scope) := by
  simp [stepSpecial]

/-- A `do` that ends in `nil` is its other forms one after another. -/
theorem EvaluatesSequence.eventually_runForms {n levels : Nat} {outcome : Outcome Value}
    (h : EvaluatesSequence n (forms ++ [.nil]) scope m outcome) (hlevels : n ≤ levels) :
    ∀ᶠ steps in atTop, runForms (evaluateLevels steps levels) scope forms m = outcome := by
  filter_upwards [h.complete hlevels, eventually_ge_atTop 1] with steps hcompletes hsteps
  obtain ⟨steps, rfl⟩ : ∃ before, steps = before + 1 := ⟨steps - 1, by omega⟩
  rw [stepSequence_concat, Eval.bind_apply] at hcompletes
  rw [runForms_eq_evaluateEach, ← hcompletes.resume_eq]
  cases evaluateEach (evaluateLevels (steps + 1) levels) scope forms m <;> rfl

theorem evaluatesSequence_runForms {steps n : Nat}
    (hsettled : (runForms (evaluateLevels steps n) scope forms m).Settled) :
    EvaluatesSequence n (forms ++ [.nil]) scope m
      (runForms (evaluateLevels steps n) scope forms m) := by
  have hstep := congrFun (@stepSequence_concat (evaluateLevels steps n) scope forms steps .nil) m
  have hsound := @Sound.stepSequence n _ (evaluateLevels_sound steps n) steps (forms ++ [.nil])
    scope m
  rw [hstep, Eval.bind_apply] at hsound
  rw [runForms_eq_evaluateEach] at hsettled ⊢
  obtain ⟨value, after, heach⟩ | ⟨cause, after, heach⟩ := hsettled.of_andThen.value_or_error
  · rw [heach] at hsound ⊢
    exact hsound trivial (.constant trivial)
  · rw [heach] at hsettled hsound ⊢
    exact hsound hsettled rfl

end Sequence

def Machine.enterFile (m : Machine) (path : String) : Machine :=
  { m with frames := m.frames.push [("f", .string path)] }

section Loading

variable {m : Machine} {root scope : Scope} {path text : String} {forms : List Value}

theorem Machine.WellScoped.root_below (hm : m.WellScoped) (hroot : m.LoadsFiles root) :
    root.Below m.frames.size := by
  obtain ⟨native, hbound, hoperation⟩ := hroot.eval
  exact nativesIn_native.mp (hm.natives.lookup? hbound) root hoperation

/-- The argument of `load-file` is the path. -/
theorem Machine.lookup?_enterFile (hroot : root.Below m.frames.size) :
    (m.enterFile path).lookup? (root.enter m.frames.size) "f" = some (.string path) := by
  rw [Machine.enterFile, Machine.lookup?_enter_push hroot]
  rfl

/-- What is called in the body of `load-file` is what the root has. -/
theorem Machine.lookup?_insideFile (hroot : root.Below m.frames.size) {name : String}
    (hname : name ≠ "f") :
    (m.enterFile path).lookup? (root.enter m.frames.size) name = m.lookup? root name := by
  refine Machine.lookup?_inside hroot ?_
  rw [Frame.get?, if_neg (Ne.symm hname), Frame.get?]

theorem Machine.Names.insideFile {name : String} {p : Primitive} (h : m.Names root name p)
    (hroot : root.Below m.frames.size) (hname : name ≠ "f") :
    (m.enterFile path).Names (root.enter m.frames.size) name p :=
  h.congr (Machine.lookup?_insideFile hroot hname)

/-- Strings are put together as they stand. -/
theorem textAll_strings (first second third : String) :
    m.textAll .display "" [.string first, .string second, .string third] =
      some (first ++ second ++ third) := by
  have hjoin : String.intercalate "" [first, second, third] =
      first ++ "" ++ second ++ "" ++ third := rfl
  simp [Machine.textAll, Machine.text, Value.write, hjoin]

/-- The argument of `read-string` in the body of `load-file` is the text of the file
inside a `do`. -/
theorem evaluates_fileText (hm : m.WellScoped) (hroot : m.LoadsFiles root)
    (hfile : m.files path = .ok text) :
    EvaluatesAll 3 [.list [.symbol "str", .string "(do ",
        .list [.symbol "slurp", .symbol "f"], .string "\nnil)"]]
      (root.enter m.frames.size) (m.enterFile path)
      (.value [.string ("(do " ++ text ++ "\nnil)")] (m.enterFile path)) := by
  have hbelow := hm.root_below hroot
  have hpath : Evaluates 1 (.symbol "f") (root.enter m.frames.size) (m.enterFile path)
      (.value (.string path) (m.enterFile path)) := by
    refine .symbol ?_
    exact Machine.lookup?_enterFile hbelow
  have hslurp : Evaluates 2 (.list [.symbol "slurp", .symbol "f"]) (root.enter m.frames.size)
      (m.enterFile path) (.value (.string text) (m.enterFile path)) := by
    refine (hroot.slurp.insideFile hbelow (by decide)).evaluates (by decide)
      (.cons hpath .nil) rfl ?_ trivial
    have hread : (m.enterFile path).readFile path = .ok text := by
      rw [Machine.readFile, Machine.enterFile, hfile]
      rfl
    simp only [Eval.bind_apply, Value.toText, Eval.ofExcept_ok, Outcome.andThen_value,
      Eval.read_apply, hread, Eval.pure_apply]
  have hstr : Evaluates 3 (.list [.symbol "str", .string "(do ",
      .list [.symbol "slurp", .symbol "f"], .string "\nnil)"]) (root.enter m.frames.size)
      (m.enterFile path) (.value (.string ("(do " ++ text ++ "\nnil)")) (m.enterFile path)) := by
    have hstring : ∀ written, Evaluates 2 (.string written) (root.enter m.frames.size)
        (m.enterFile path) (.value (.string written) (m.enterFile path)) :=
      fun _ => .constant trivial
    refine (hroot.str.insideFile hbelow (by decide)).evaluates (by decide)
      (.cons (hstring _) (.cons hslurp (.cons (hstring _) .nil))) rfl ?_ trivial
    rw [Eval.bind_apply, Eval.writing_some (textAll_strings _ _ _)]
    rfl
  exact .cons hstr .nil

/-- The argument of `eval` in the body of `load-file` is the form of the file. -/
theorem yields_fileForm (hm : m.WellScoped) (hroot : m.LoadsFiles root)
    (hfile : m.files path = .ok text) (hforms : IsFileOf text forms) :
    Yields (root.enter m.frames.size) readFileCall (m.enterFile path) (fileForm forms)
      (m.enterFile path) := by
  have hbelow := hm.root_below hroot
  refine (yields_primitive_iff (hroot.readString.insideFile hbelow (by decide))
    (by decide)).mpr ⟨_, _, _, ⟨3, evaluates_fileText hm hroot hfile⟩, rfl, ?_⟩
  simp only [Eval.bind_apply, Value.toText, Eval.ofExcept_ok, Outcome.andThen_value,
    readText_wrapped hforms]

/-- From wherever `load-file` is called, it enters its body. -/
theorem Machine.LoadsFiles.calls (hroot : m.LoadsFiles root)
    (hscope : m.lookup? scope "load-file" = m.lookup? root "load-file") (path : String) :
    ∃ code, Calls scope (.symbol "load-file") [.string path] m (.closure false code)
        [.string path] m ∧
      enterClosure false code [.string path] m =
        .value (loadFileBody, root.enter m.frames.size) (m.enterFile path) := by
  obtain ⟨code, hbound, hclosure⟩ := hroot.loadFile
  rw [← hscope] at hbound
  refine ⟨code, ⟨?_, by decide, ?_⟩, ?_⟩
  · refine macroCall?_eq_none fun code' => ?_
    rw [hbound]
    nofun
  · rw [yieldsAll_pair_iff]
    exact ⟨_, _, _, yields_symbol_iff.mpr ⟨hbound, rfl⟩, .constant trivial, rfl⟩
  · simp only [enterClosure, Eval.bind_apply, Eval.read_apply, Outcome.andThen_value, hclosure]
    rfl

/-- The body of `load-file` calls `eval` on the form of the file. -/
theorem calls_eval (hm : m.WellScoped) (hroot : m.LoadsFiles root)
    (hfile : m.files path = .ok text) (hforms : IsFileOf text forms) :
    ∃ native, native.operation = .evaluate root ∧
      Calls (root.enter m.frames.size) (.symbol "eval") [readFileCall] (m.enterFile path)
        (.native native) [fileForm forms] (m.enterFile path) := by
  obtain ⟨native, hbound, hoperation⟩ := hroot.eval
  have hinner : (m.enterFile path).lookup? (root.enter m.frames.size) "eval" =
      m.lookup? root "eval" := Machine.lookup?_insideFile (hm.root_below hroot) (by decide)
  rw [← hinner] at hbound
  refine ⟨native, hoperation, ⟨?_, by decide, ?_⟩⟩
  · refine macroCall?_eq_none fun code => ?_
    rw [hbound]
    nofun
  · rw [yieldsAll_pair_iff]
    have hform := yields_fileForm hm hroot hfile hforms
    exact ⟨_, _, _, yields_symbol_iff.mpr ⟨hbound, rfl⟩, hform, rfl⟩

/-- What `load-file` comes to, the sequence of the forms comes to, and `nil`. -/
theorem Evaluates.sequence_of_loadFile (hm : m.WellScoped) (hroot : m.LoadsFiles root)
    (hscope : m.lookup? scope "load-file" = m.lookup? root "load-file")
    (hfile : m.files path = .ok text) (hforms : IsFileOf text forms) {n : Nat}
    {outcome : Outcome Value} (h : Evaluates n (scriptForm path) scope m outcome) :
    ∃ below, below ≤ n ∧
      EvaluatesSequence below (forms ++ [.nil]) root (m.enterFile path) outcome := by
  obtain ⟨code, hcalls, henter⟩ := hroot.calls hscope path
  obtain ⟨native, hoperation, heval⟩ := calls_eval hm hroot hfile hforms
  obtain ⟨n, rfl⟩ := h.exists_eq_succ
  have hbody := hcalls.evaluates_body henter h
  have hform := heval.evaluates_form hoperation hbody
  obtain ⟨n, rfl⟩ := hform.exists_eq_succ
  refine ⟨n, by omega, (evaluates_sequence_iff fun code => ?_).mp hform⟩
  rw [Machine.enterFile, Machine.lookup?_push (hm.root_below hroot)]
  exact hroot.sequence code

theorem EvaluatesSequence.evaluates_loadFile (hm : m.WellScoped) (hroot : m.LoadsFiles root)
    (hscope : m.lookup? scope "load-file" = m.lookup? root "load-file")
    (hfile : m.files path = .ok text) (hforms : IsFileOf text forms) {n : Nat}
    {outcome : Outcome Value}
    (h : EvaluatesSequence n (forms ++ [.nil]) root (m.enterFile path) outcome)
    (hsettled : outcome.Settled) : ∃ n, Evaluates n (scriptForm path) scope m outcome := by
  obtain ⟨code, hcalls, henter⟩ := hroot.calls hscope path
  obtain ⟨native, hoperation, heval⟩ := calls_eval hm hroot hfile hforms
  have hform : Evaluates (n + 1) (fileForm forms) root (m.enterFile path) outcome := by
    refine (evaluates_sequence_iff fun code => ?_).mpr h
    rw [Machine.enterFile, Machine.lookup?_push (hm.root_below hroot)]
    exact hroot.sequence code
  obtain ⟨n', hbody⟩ := heval.evaluates_of_form hoperation hform hsettled
  exact hcalls.evaluates_of_body henter hbody hsettled

/-- The forms of the file do the same without the frame of the call. -/
theorem runForms_frameMore (hm : m.WellScoped) (hroot : m.LoadsFiles root)
    (hforms : IsFileOf text forms) (path : String) (steps levels : Nat) :
    (frameMore m.frames.size).Outcomes 0 (frameMore m.frames.size).values
      (runForms (evaluateLevels steps levels) root forms m)
      (runForms (evaluateLevels steps levels) root forms (m.enterFile path)) := by
  have hC := lawful_frameMore m.frames.size
  have hsame : (frameMore m.frames.size).scopes 0 root root :=
    (hm.root_below hroot).shift_eq.symm
  have heach := (hC.evaluateLevels steps levels).evaluateEach hsame hforms.nesting.nativesIn
  rw [runForms_eq_evaluateEach, runForms_eq_evaluateEach]
  exact heach.bind_same (fun _ _ => .pure ⟨rfl, hC.nil⟩) m (m.enterFile path)
    (hm.frameMore_push _) (Nat.zero_le _)

/-- Counting the depth makes no difference to the forms. -/
theorem runForms_eq (steps : Nat) :
    runForms (evaluateWithin steps) root forms m =
      runForms (evaluateLevels steps (maxDepth - m.depth)) root forms m := by
  have hR := respected_agreeWhere (· = m.depth)
  have hevaluator : ∀ form scope, AgreeWhere (· = m.depth)
      (evaluateLevels steps (maxDepth - m.depth) form scope)
      (evaluateWithin steps form scope) := by
    intro form scope m' hdepth
    refine ⟨?_, (blind_evaluateLevels steps _ form scope).atDepth_self m'⟩
    rw [evaluateWithin_eq, hdepth]
  have heach := (hR.evaluateEach hevaluator root forms m rfl).1
  rw [runForms_eq_evaluateEach, runForms_eq_evaluateEach, heach]

/-- Loading a file whose text is a row of forms does what evaluating the forms one after
another in the root does, up to the first that fails, and returns `nil` if none
does.  The depth limit apart, either ends when the other does, with the same
value or error, and leaves the same machine but for the frame of the call. -/
theorem loadFile_runs_forms (hm : m.WellScoped) (hroot : m.LoadsFiles root)
    (hscope : m.lookup? scope "load-file" = m.lookup? root "load-file")
    (hfile : m.files path = .ok text) (hforms : IsFileOf text forms) :
    (∀ steps, (evaluateWithin steps (scriptForm path) scope m).Settled →
      ∃ enough, ∀ steps', enough ≤ steps' →
        (runForms (evaluateWithin steps') root forms m).SameButFrame m.frames.size
          (evaluateWithin steps (scriptForm path) scope m)) ∧
    ∀ steps, (runForms (evaluateWithin steps) root forms m).Settled →
      ∃ enough, ∀ steps', enough ≤ steps' →
        (runForms (evaluateWithin steps) root forms m).SameButFrame m.frames.size
            (evaluateWithin steps' (scriptForm path) scope m) ∨
          (evaluateWithin steps' (scriptForm path) scope m).HitsDepthLimit := by
  constructor
  · intro steps hsettled
    have hderived := evaluateWithin_sound hsettled
    -- The sequence takes fewer levels than `load-file`, so that its forms, which have
    -- as many on their own, do not hit the limit there either.
    obtain ⟨below, hle, hsequence⟩ :=
      hderived.sequence_of_loadFile hm hroot hscope hfile hforms
    obtain ⟨enough, henough⟩ := eventually_atTop.mp (hsequence.eventually_runForms hle)
    refine ⟨enough, fun steps' hsteps => ?_⟩
    have houtcomes := runForms_frameMore hm hroot hforms path steps' (maxDepth - m.depth)
    rw [henough steps' hsteps] at houtcomes
    rw [runForms_eq]
    exact houtcomes.sameButFrame (houtcomes.settled_iff.mpr hsettled)
  · intro steps hsettled
    rw [runForms_eq] at hsettled ⊢
    have houtcomes := runForms_frameMore hm hroot hforms path steps (maxDepth - m.depth)
    have hsettled' := houtcomes.settled_iff.mp hsettled
    have hsequence := evaluatesSequence_runForms hsettled'
    -- What is derived may take more levels than are left, and then hits the limit.
    obtain ⟨n, hderived⟩ :=
      hsequence.evaluates_loadFile hm hroot hscope hfile hforms hsettled'
    obtain ⟨enough, henough⟩ := hderived.eventually_or_hits
    refine ⟨enough, fun steps' hsteps => (henough steps' hsteps).imp_left fun heq => ?_⟩
    rw [heq]
    exact houtcomes.sameButFrame hsettled

end Loading

/-- A file whose last line is a comment without an end. -/
def commentedText : String := "(def! x 1) x ; the end"

def commentedForms : List Value :=
  [.list [.symbol "def!", .symbol "x", .number 1], .symbol "x"]

def commentedFiles : Files := fun path =>
  if path = "a.mal" then .ok commentedText else .error .notFound

theorem isFileOf_commentedText : IsFileOf commentedText commentedForms := by
  refine .cons rfl (.list (.cons (.symbol (by decide)) (.cons (.symbol (by decide))
    (.cons .number .nil)))) ?_
  refine .cons rfl (.symbol (by decide)) ?_
  exact .nil (by decide)

/-- Loaded at the beginning of a run, the file is evaluated like its two forms. -/
theorem loadFile_runs_forms_commentedText :
    (∃ enough, ∀ steps, enough ≤ steps →
      (runForms (evaluateWithin steps) ⟨0, []⟩ commentedForms
        (rootMachine commentedFiles)).SameButFrame (rootMachine commentedFiles).frames.size
        (evaluateWithin 10 (scriptForm "a.mal") ⟨0, []⟩ (rootMachine commentedFiles))) ∧
    ∃ enough, ∀ steps, enough ≤ steps →
      (runForms (evaluateWithin 10) ⟨0, []⟩ commentedForms
        (rootMachine commentedFiles)).SameButFrame (rootMachine commentedFiles).frames.size
          (evaluateWithin steps (scriptForm "a.mal") ⟨0, []⟩ (rootMachine commentedFiles)) ∨
        (evaluateWithin steps (scriptForm "a.mal") ⟨0, []⟩
          (rootMachine commentedFiles)).HitsDepthLimit := by
  have hfile : (rootMachine commentedFiles).files "a.mal" = .ok commentedText := by
    simp [rootMachine, commentedFiles]
  have hruns := loadFile_runs_forms (rootMachine_wellScoped commentedFiles)
    (rootMachine_loadsFiles commentedFiles) rfl hfile isFileOf_commentedText
  exact ⟨hruns.1 10 (by decide +kernel), hruns.2 10 (by decide +kernel)⟩

end Lisplet
