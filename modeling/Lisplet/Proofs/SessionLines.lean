/-
Sessions, line by line.  The lines of a session are answered in turn, each on the machine
that the one before has left, up to the first that asks to quit.  A line without a form
has no answer; that is taken from the error that it cannot be read, which is safe since
evaluation never raises that error itself.  A line has no answer either, and the session
no end, when its evaluation runs on, or when the text that would be the answer has no end.
-/
import Lisplet.Proofs.DepthAccounting
import Lisplet.Proofs.ErrorContext
import Lisplet.Proofs.Invariants
import Lisplet.Session
import Mathlib.Data.String.Basic

namespace Lisplet

def written (lines : List String) : String :=
  String.join (lines.map (· ++ "\n"))

theorem written_nil : written [] = "" := rfl

theorem written_cons (line : String) (lines : List String) :
    written (line :: lines) = line ++ "\n" ++ written lines := by
  rw [written, List.map_cons, String.join_cons, written]

theorem written_singleton (line : String) : written [line] = line ++ "\n" := by
  rw [written_cons, written_nil, String.append_empty]

theorem written_append (lines others : List String) :
    written (lines ++ others) = written lines ++ written others := by
  induction lines with
  | nil => rw [List.nil_append, written_nil, String.empty_append]
  | cons line lines ih =>
      rw [List.cons_append, written_cons, written_cons, ih]
      simp only [String.append_assoc]

def quits (line : String) : Bool :=
  trim line = ":quit" ∨ trim line = ":exit"

/-- The lines before the first that asks to quit. -/
def beforeQuit (lines : List String) : List String :=
  lines.takeWhile fun line => !quits line

def Machine.say (m : Machine) (text : String) : Machine :=
  { m with printed := m.printed ++ text }

def shownBindings (bindings : Frame) : Frame :=
  bindings.filter fun binding => !bindsNative binding

/-- The lines of a listing, if the text of each value in it ends. -/
def listingLines (m : Machine) (bindings : Frame) : Option (List String) :=
  ((shownBindings bindings).mapM (bindingLine m)).map (listingHead bindings ++ ·)

/-- What a line contributes to a session: what is printed, and the machine that is left.
A line of separators alone contributes nothing, the two commands their listings; and any
other whatever the evaluation of its first form prints and one line more, with the result
or the error, after which the machine is that which the evaluation has left, half-way or
not. -/
inductive Contributes (scope : Scope) (line : String) (m : Machine) : String → Machine → Prop
  | nothing (hblank : Separators line.toList []) : Contributes scope line m "" m
  | help (hline : line = ":help") :
      Contributes scope line m (written helpLines) (m.say (written helpLines))
  | listing {lines} (hline : line = ":env")
      (hlines : listingLines m (m.bindings scope) = some lines) :
      Contributes scope line m (written lines) (m.say (written lines))
  | result {value left own text} (hplain : line ≠ ":help" ∧ line ≠ ":env")
      (hvalue : evaluateLine line scope m = .value value left)
      (hown : left.printed = m.printed ++ own) (htext : left.text .readable value = some text) :
      Contributes scope line m (own ++ written [text]) (left.say (written [text]))
  | failure {cause left own text} (hplain : line ≠ ":help" ∧ line ≠ ":env")
      (hform : ¬ Separators line.toList [])
      (herror : evaluateLine line scope m = .error cause left)
      (hown : left.printed = m.printed ++ own) (htext : cause.text = some text) :
      Contributes scope line m (own ++ written ["Error: " ++ text])
        (left.say (written ["Error: " ++ text]))

inductive ContributeInTurn (scope : Scope) : List String → Machine → String → Machine → Prop
  | nil {m} : ContributeInTurn scope [] m "" m
  | cons {line lines m m₁ first others after} (hline : Contributes scope (trim line) m first m₁)
      (hlines : ContributeInTurn scope lines m₁ others after) :
      ContributeInTurn scope (line :: lines) m (first ++ others) after

/-- The line has no answer: its evaluation does not end, or what is to be written of it
leads to a cell that contains itself. -/
inductive Unanswered (scope : Scope) (line : String) (m : Machine) : Prop
  | evaluation (hplain : line ≠ ":help" ∧ line ≠ ":env")
      (hrun : evaluateLine line scope m = .unfinished)
  | result {value left} (hplain : line ≠ ":help" ∧ line ≠ ":env")
      (hvalue : evaluateLine line scope m = .value value left) (hendless : left.IsEndless value)
  | failure {cause left} (hplain : line ≠ ":help" ∧ line ≠ ":env")
      (herror : evaluateLine line scope m = .error cause left) (hendless : cause.text = none)
  | listing {binding} (hline : line = ":env")
      (hbinding : binding ∈ shownBindings (m.bindings scope)) (hendless : m.IsEndless binding.2)

/-- The program never comes back: the steps do not suffice, or a text has no end. -/
def Outcome.NeverReturns {α : Type} (outcome : Outcome α) : Prop :=
  outcome = .unfinished ∨ ∃ after, outcome = .error .endless after

/-- Answer a line that does not ask to quit. -/
def answer (scope : Scope) (line : String) : Eval Unit :=
  (Request.ofLine line).answer scope

def answerInTurn (scope : Scope) (lines : List String) : Eval Unit :=
  lines.forM (answer scope)

section

variable {scope : Scope} {line : String} {m after : Machine}

@[simp] theorem Machine.printed_say (m : Machine) (text : String) :
    (m.say text).printed = m.printed ++ text := rfl

@[simp] theorem Machine.say_say (m : Machine) (first second : String) :
    (m.say first).say second = m.say (first ++ second) := by
  simp only [say, String.append_assoc]

theorem Outcome.NeverReturns.andThen {α β : Type} {outcome : Outcome α}
    (h : outcome.NeverReturns) (next : α → Eval β) : (outcome.andThen next).NeverReturns := by
  rcases h with rfl | ⟨after, rfl⟩
  · exact .inl rfl
  · exact .inr ⟨after, rfl⟩

/-- For each item in turn, so for the first and then for each of the others. -/
theorem forM_cons_apply {α : Type} (act : α → Eval Unit) (item : α) (items : List α)
    (m : Machine) :
    (item :: items).forM act m = (act item m).andThen fun _ => items.forM act := rfl

theorem printLine_apply (text : String) (m : Machine) :
    Eval.printLine text m = .value () (m.say (written [text])) := by
  have hprinted : (m.printed ++ text).push '\n' = m.printed ++ written [text] := by
    rw [written_singleton, String.push_eq_append, String.append_assoc]
    rfl
  rw [Eval.printLine, Eval.update, hprinted]
  rfl

theorem printLines_apply (lines : List String) (m : Machine) :
    printLines lines m = .value () (m.say (written lines)) := by
  induction lines generalizing m with
  | nil =>
      rw [written_nil, Machine.say, String.append_empty]
      rfl
  | cons line lines ih =>
      calc
        printLines (line :: lines) m
            = (Eval.printLine line m).andThen fun _ => printLines lines := forM_cons_apply _ _ _ _
        _ = .value () (m.say (written (line :: lines))) := by
          rw [printLine_apply, Outcome.andThen_value, ih, Machine.say_say, written_singleton,
            written_cons]

/-- A line that is made of a text that is written. -/
theorem printWritten_apply {look : Machine → Rendering} {make : String → String} {text : String}
    (h : look m = some text) :
    (Eval.writing look >>= fun text => Eval.printLine (make text)) m =
      .value () (m.say (written [make text])) := by
  rw [Eval.bind_apply, Eval.writing_some h, Outcome.andThen_value, printLine_apply]

theorem printWritten_neverReturns {look : Machine → Rendering} {make : String → String}
    (h : look m = none) :
    ((Eval.writing look >>= fun text => Eval.printLine (make text)) m).NeverReturns := by
  rw [Eval.bind_apply, Eval.writing_none h]
  exact .inr ⟨m, rfl⟩

theorem bindingLine_say (m : Machine) (text : String) (binding : String × Value) :
    bindingLine (m.say text) binding = bindingLine m binding := by
  have hcells : (m.say text).cells = m.cells := rfl
  rw [bindingLine, bindingLine, Machine.text_eq_of_cells hcells]

theorem mapM_bindingLine_say (m : Machine) (text : String) (bindings : Frame) :
    bindings.mapM (bindingLine (m.say text)) = bindings.mapM (bindingLine m) := by
  rw [funext (bindingLine_say m text)]

theorem forM_printBinding {bindings : Frame} {lines : List String}
    (h : bindings.mapM (bindingLine m) = some lines) :
    (bindings.forM printBinding : Eval Unit) m = .value () (m.say (written lines)) := by
  induction bindings generalizing lines m with
  | nil =>
      rw [List.mapM_nil, Option.pure_def, Option.some_inj] at h
      rw [← h, written_nil, Machine.say, String.append_empty]
      rfl
  | cons binding bindings ih =>
      simp only [List.mapM_cons, Option.bind_eq_bind, Option.bind_eq_some_iff, Option.pure_def,
        Option.some_inj] at h
      obtain ⟨line, hline, others, hothers, rfl⟩ := h
      rw [forM_cons_apply, printBinding, printWritten_apply hline, Outcome.andThen_value,
        ih (by rwa [mapM_bindingLine_say]), Machine.say_say, written_singleton, written_cons]

theorem forM_printBinding_neverReturns {bindings : Frame} {binding : String × Value}
    (hmem : binding ∈ bindings) (h : bindingLine m binding = none) :
    ((bindings.forM printBinding : Eval Unit) m).NeverReturns := by
  induction bindings generalizing m with
  | nil => cases hmem
  | cons first bindings ih =>
      rw [forM_cons_apply]
      rcases hfirst : bindingLine m first with _ | line
      · exact (printWritten_neverReturns hfirst).andThen _
      · have hne : binding ≠ first := by
          rintro rfl
          rw [h] at hfirst
          cases hfirst
        rw [printBinding, printWritten_apply hfirst, Outcome.andThen_value]
        refine ih ((List.mem_cons.mp hmem).resolve_left hne) ?_
        rw [bindingLine_say, h]

theorem printBindings_apply {lines : List String}
    (h : listingLines m (m.bindings scope) = some lines) :
    printBindings scope m = .value () (m.say (written lines)) := by
  obtain ⟨shown, hshown, rfl⟩ := Option.map_eq_some_iff.mp h
  rw [printBindings, Eval.bind_apply, Eval.read_apply, Outcome.andThen_value, Eval.bind_apply,
    printLines_apply, Outcome.andThen_value, written_append, ← Machine.say_say]
  exact forM_printBinding (by rwa [mapM_bindingLine_say])

theorem printBindings_neverReturns {binding : String × Value}
    (hmem : binding ∈ shownBindings (m.bindings scope)) (h : m.IsEndless binding.2) :
    (printBindings scope m).NeverReturns := by
  rw [printBindings, Eval.bind_apply, Eval.read_apply, Outcome.andThen_value, Eval.bind_apply,
    printLines_apply, Outcome.andThen_value]
  refine forM_printBinding_neverReturns hmem ?_
  rw [bindingLine_say, bindingLine, Machine.text_eq_none_iff.mpr h]
  rfl

/-- A listing has its lines, or shows a value whose text has no end. -/
theorem listingLines_cases (m : Machine) (bindings : Frame) :
    (∃ lines, listingLines m bindings = some lines) ∨
      ∃ binding ∈ shownBindings bindings, m.IsEndless binding.2 := by
  by_cases hendless : ∃ binding ∈ shownBindings bindings, m.IsEndless binding.2
  · exact .inr hendless
  · push Not at hendless
    have hlines : ∀ shown : Frame, (∀ binding ∈ shown, ¬ m.IsEndless binding.2) →
        ∃ lines, shown.mapM (bindingLine m) = some lines := by
      intro shown hshown
      induction shown with
      | nil => exact ⟨[], rfl⟩
      | cons binding shown ih =>
          rw [List.forall_mem_cons] at hshown
          obtain ⟨text, htext⟩ : ∃ text, m.text .readable binding.2 = some text := by
            rw [← Option.ne_none_iff_exists', Ne, Machine.text_eq_none_iff]
            exact hshown.1
          obtain ⟨lines, hlines⟩ := ih hshown.2
          rw [List.mapM_cons, hlines, bindingLine, htext]
          exact ⟨_, rfl⟩
    obtain ⟨lines, hlines⟩ := hlines _ hendless
    exact .inl ⟨_, congrArg _ hlines⟩

theorem readFirst_noForm_iff {text : String} :
    (∃ e, readFirst text = .error e ∧ e.kind = .noForm) ↔ Separators text.toList [] := by
  rw [← readLeading_noForm_iff]
  simp only [readFirst]
  cases readLeading text <;> simp [Except.map]

/-- An evaluation never fails with the error that there is no form. -/
theorem evaluate_read_error {steps : Nat} {form : Value} {scope : Scope} {m after : Machine}
    {e : ReadError} (h : evaluateWithin steps form scope m = .error (.read e) after) :
    e.kind ≠ .noForm :=
  (@isOwn_of_evaluate steps ⟨form, scope, m⟩ _ _ h).read e rfl

/-- The evaluation of a line is that of its first form. -/
theorem evaluateLine_of_read {form : Value} (hread : readFirst line = .ok form) :
    evaluateLine line scope m = evaluate form scope m := by
  rw [evaluateLine, hread]
  rfl

theorem evaluateLine_noForm {e : ReadError} (hkind : e.kind = .noForm)
    (h : evaluateLine line scope m = .error (.read e) after) : Separators line.toList [] := by
  rcases hread : readFirst line with own | form
  · rw [evaluateLine, hread] at h
    cases h
    exact readFirst_noForm_iff.mp ⟨e, hread, hkind⟩
  · rw [evaluateLine_of_read hread] at h
    exact (@evaluate_read_error unlimited _ _ _ _ _ h hkind).elim

/-- What is printed stays printed. -/
theorem lawful_printed (start : String) :
    (Invariant.ofMachine fun m => ∃ own, m.printed = start ++ own).Lawful := by
  refine Invariant.lawful_ofMachine (fun hm _ => hm) ?_ (fun _ _ _ hm => hm) (fun _ hm => hm)
    fun _ hm => hm
  rintro m line ⟨own, hown⟩
  refine ⟨own ++ (line ++ "\n"), ?_⟩
  dsimp only
  rw [hown, String.push_eq_append]
  simp only [String.append_assoc]
  rfl

/-- The evaluation of a line prints after what there was, and returns to its depth. -/
theorem evaluateLine_after (h : (evaluateLine line scope m).after? = some after) :
    (∃ own, after.printed = m.printed ++ own) ∧ after.depth = m.depth := by
  have hstart : ∃ own, m.printed = m.printed ++ own := ⟨"", String.append_empty.symm⟩
  rcases hread : readFirst line with e | form
  · rw [evaluateLine, hread] at h
    cases h
    exact ⟨hstart, rfl⟩
  · rw [evaluateLine_of_read hread] at h
    have hleaves : Invariant.Leaves _ (evaluateWithin unlimited form scope m) :=
      (lawful_printed m.printed).evaluateWithin unlimited trivial scope hstart
    exact ⟨hleaves.after h,
      Outcome.depth_after (evaluateWithin_atDepth_self unlimited form scope m) h⟩

theorem report_error {cause : Error} (h : ∀ e, cause = .read e → e.kind ≠ .noForm) :
    report (.error cause) = complain cause := by
  cases cause with
  | read e => rw [report, if_neg (h e rfl)]
  | _ => rfl

/-- To answer a line is to evaluate it and to report what has come of it. -/
theorem answer_evaluation (scope : Scope) (line : String) (m : Machine) :
    (Request.evaluation line).answer scope m =
      ((evaluateLine line scope).attempt m).andThen report := rfl

theorem answer_of_value {value : Value} {text : String}
    (h : evaluateLine line scope m = .value value after)
    (htext : after.text .readable value = some text) :
    (Request.evaluation line).answer scope m = .value () (after.say (written [text])) := by
  rw [answer_evaluation, Eval.attempt, h]
  exact printWritten_apply htext

/-- What fails with an error that is no want of a form has it for its answer. -/
theorem answer_of_error {cause : Error} (h : evaluateLine line scope m = .error cause after)
    (hform : ¬ Separators line.toList []) :
    (Request.evaluation line).answer scope m = complain cause after := by
  rw [answer_evaluation, Eval.attempt, h]
  refine congrFun (report_error ?_) after
  rintro e rfl hkind
  exact hform (evaluateLine_noForm hkind h)

theorem answer_of_blank (h : Separators line.toList []) :
    (Request.evaluation line).answer scope m = .value () m := by
  obtain ⟨e, hread, hkind⟩ := readFirst_noForm_iff.mpr h
  rw [answer_evaluation, Eval.attempt, evaluateLine, hread]
  exact congrFun (if_pos hkind) m

/-- What is printed for a line comes after what was printed before, and the machine is at
the depth at which it was. -/
theorem Contributes.leaves {output : String} (h : Contributes scope line m output after) :
    after.printed = m.printed ++ output ∧ after.depth = m.depth := by
  cases h with
  | nothing => exact ⟨String.append_empty.symm, rfl⟩
  | help | listing => exact ⟨rfl, rfl⟩
  | result _ hvalue hown =>
      have hleft := evaluateLine_after (by rw [hvalue]; rfl)
      rw [Machine.printed_say, hown, String.append_assoc]
      exact ⟨rfl, hleft.2⟩
  | failure _ _ herror hown =>
      have hleft := evaluateLine_after (by rw [herror]; rfl)
      rw [Machine.printed_say, hown, String.append_assoc]
      exact ⟨rfl, hleft.2⟩

/-- Only the text of a command has the answer to the command. -/
theorem answer_eq (hquit : quits line = false) : answer scope line m =
    if trim line = ":help" then printLines helpLines m
    else if trim line = ":env" then printBindings scope m
    else (Request.evaluation (trim line)).answer scope m := by
  rw [quits, decide_eq_false_iff_not] at hquit
  rw [answer, Request.ofLine]
  generalize trim line = text at hquit
  by_cases hblank : text = ""
  · have hseparators : Separators "".toList [] := .nil
    subst hblank
    rw [if_pos rfl, if_neg (by decide), if_neg (by decide), answer_of_blank hseparators]
    rfl
  · rw [if_neg hblank, if_neg hquit]
    split
    · rfl
    · split <;> rfl

theorem ne_command_of_separators (h : Separators line.toList []) :
    line ≠ ":help" ∧ line ≠ ":env" := by
  rw [← skipSeparators_eq_nil_iff] at h
  constructor
  · rintro rfl
    exact absurd h (by decide)
  · rintro rfl
    exact absurd h (by decide)

theorem Contributes.answer {output : String} (hquit : quits line = false)
    (h : Contributes scope (trim line) m output after) : answer scope line m = .value () after := by
  rw [answer_eq hquit]
  cases h with
  | nothing hblank =>
      obtain ⟨hhelp, hlisting⟩ := ne_command_of_separators hblank
      rw [if_neg hhelp, if_neg hlisting, answer_of_blank hblank]
  | help hline => rw [if_pos hline, printLines_apply]
  | listing hline hlines =>
      rw [if_neg (by rw [hline]; decide), if_pos hline, printBindings_apply hlines]
  | result hplain hvalue _ htext =>
      rw [if_neg hplain.1, if_neg hplain.2, answer_of_value hvalue htext]
  | failure hplain hform herror _ htext =>
      rw [if_neg hplain.1, if_neg hplain.2, answer_of_error herror hform]
      exact printWritten_apply htext

/-- From a line without an answer the program never comes back. -/
theorem Unanswered.answer (hquit : quits line = false) (h : Unanswered scope (trim line) m) :
    (answer scope line m).NeverReturns := by
  rw [answer_eq hquit]
  cases h with
  | evaluation hplain hrun =>
      rw [if_neg hplain.1, if_neg hplain.2, answer_evaluation, Eval.attempt, hrun]
      exact .inl rfl
  | result hplain hvalue hendless =>
      rw [if_neg hplain.1, if_neg hplain.2, answer_evaluation, Eval.attempt, hvalue]
      exact printWritten_neverReturns (Machine.text_eq_none_iff.mpr hendless)
  | @failure cause left hplain herror hendless =>
      have hread : ∀ e, cause = .read e → e.kind ≠ .noForm := by
        rintro e rfl
        cases hendless
      rw [if_neg hplain.1, if_neg hplain.2, answer_evaluation, Eval.attempt, herror]
      dsimp only [Outcome.andThen_value]
      rw [report_error hread]
      exact printWritten_neverReturns hendless
  | listing hline hbinding hendless =>
      rw [if_neg (by rw [hline]; decide), if_pos hline]
      exact printBindings_neverReturns hbinding hendless

/-- A line contributes something, or it has no answer. -/
theorem contributes_or_unanswered (scope : Scope) (line : String) (m : Machine) :
    (∃ output after, Contributes scope line m output after) ∨ Unanswered scope line m := by
  by_cases hhelp : line = ":help"
  · exact .inl ⟨_, _, .help hhelp⟩
  by_cases hlisting : line = ":env"
  · rcases listingLines_cases m (m.bindings scope) with ⟨lines, hlines⟩ | ⟨_, hmem, hendless⟩
    · exact .inl ⟨_, _, .listing hlisting hlines⟩
    · exact .inr (.listing hlisting hmem hendless)
  have hplain := And.intro hhelp hlisting
  rcases houtcome : evaluateLine line scope m with ⟨value, left⟩ | ⟨cause, left⟩ | _
  · obtain ⟨⟨own, hown⟩, -⟩ := evaluateLine_after (by rw [houtcome]; rfl)
    rcases htext : left.text .readable value with _ | text
    · exact .inr (.result hplain houtcome (Machine.text_eq_none_iff.mp htext))
    · exact .inl ⟨_, _, .result hplain houtcome hown htext⟩
  · by_cases hblank : Separators line.toList []
    · exact .inl ⟨_, _, .nothing hblank⟩
    obtain ⟨⟨own, hown⟩, -⟩ := evaluateLine_after (by rw [houtcome]; rfl)
    rcases htext : cause.text with _ | text
    · exact .inr (.failure hplain houtcome htext)
    · exact .inl ⟨_, _, .failure hplain hblank houtcome hown htext⟩
  · exact .inr (.evaluation hplain houtcome)

theorem ofLine_eq_quit_iff : Request.ofLine line = .quit ↔ quits line = true := by
  rw [quits, decide_eq_true_iff, Request.ofLine]
  grind

end

section

variable {scope : Scope} {lines : List String} {m after : Machine} {output : String}

theorem converse_cons {line : String} (hquit : quits line = false) :
    converse scope (line :: lines) m =
      (answer scope line m).andThen fun _ => converse scope lines := by
  have hrequest : Request.ofLine line ≠ .quit := by
    rw [Ne, ofLine_eq_quit_iff, hquit]
    decide
  rw [converse, if_neg hrequest, Eval.bind_apply, answer]

theorem converse_quit {line : String} (hquit : quits line = true) :
    converse scope (line :: lines) = .printLine farewell := by
  rw [converse, if_pos (ofLine_eq_quit_iff.mpr hquit)]

theorem answerInTurn_cons (scope : Scope) (line : String) (lines : List String) (m : Machine) :
    answerInTurn scope (line :: lines) m =
      (answer scope line m).andThen fun _ => answerInTurn scope lines :=
  forM_cons_apply _ _ _ _

/-- A session answers the lines before the one that asks to quit, and takes its leave. -/
theorem converse_eq (scope : Scope) (lines : List String) (m : Machine) :
    converse scope lines m =
      (answerInTurn scope (beforeQuit lines) m).andThen fun _ => .printLine farewell := by
  induction lines generalizing m with
  | nil => rfl
  | cons line lines ih =>
      rcases hquit : quits line with _ | _
      · rw [converse_cons hquit, beforeQuit, List.takeWhile_cons_of_pos (by rw [hquit]; rfl)]
        rw [answerInTurn_cons]
        rcases answer scope line m with ⟨_, m₁⟩ | ⟨cause, m₁⟩ | _
        · exact ih m₁
        · rfl
        · rfl
      · rw [beforeQuit, List.takeWhile_cons_of_neg (by rw [hquit]; decide), converse_quit hquit]
        rfl

theorem not_quits_of_beforeQuit {line : String} (h : line ∈ beforeQuit lines) :
    quits line = false := by
  simpa using List.mem_takeWhile_imp h

theorem ContributeInTurn.leaves (h : ContributeInTurn scope lines m output after) :
    after.printed = m.printed ++ output ∧ after.depth = m.depth := by
  induction h with
  | nil => exact ⟨String.append_empty.symm, rfl⟩
  | cons hline _ ih =>
      have hfirst := hline.leaves
      rw [ih.1, ih.2, hfirst.1, hfirst.2, String.append_assoc]
      exact ⟨rfl, rfl⟩

theorem ContributeInTurn.answerInTurn (hquit : ∀ line ∈ lines, quits line = false)
    (h : ContributeInTurn scope lines m output after) :
    answerInTurn scope lines m = .value () after := by
  induction h with
  | nil => rfl
  | cons hline _ ih =>
      rw [List.forall_mem_cons] at hquit
      rw [answerInTurn_cons, hline.answer hquit.1, Outcome.andThen_value, ih hquit.2]

/-- Lines contribute in turn, up to one without an answer. -/
theorem inTurn_or_unanswered (scope : Scope) (lines : List String) (m : Machine) :
    (∃ output after, ContributeInTurn scope lines m output after) ∨
      ∃ earlier line later output left, lines = earlier ++ line :: later ∧
        ContributeInTurn scope earlier m output left ∧ Unanswered scope (trim line) left := by
  induction lines generalizing m with
  | nil => exact .inl ⟨_, _, .nil⟩
  | cons line lines ih =>
      rcases contributes_or_unanswered scope (trim line) m with ⟨first, m₁, hline⟩ | hstuck
      · rcases ih m₁ with ⟨others, after, hlines⟩ |
          ⟨earlier, stuck, later, others, left, rfl, hearlier, hstuck⟩
        · exact .inl ⟨_, _, .cons hline hlines⟩
        · exact .inr ⟨line :: earlier, stuck, later, _, left, rfl, .cons hline hearlier, hstuck⟩
      · exact .inr ⟨[], line, lines, _, m, rfl, .nil, hstuck⟩

theorem answerInTurn_neverReturns {earlier later : List String} {line : String} {left : Machine}
    (hquit : ∀ other ∈ earlier ++ line :: later, quits other = false)
    (hearlier : ContributeInTurn scope earlier m output left)
    (hstuck : Unanswered scope (trim line) left) :
    (answerInTurn scope (earlier ++ line :: later) m).NeverReturns := by
  induction hearlier with
  | nil =>
      rw [List.nil_append, answerInTurn_cons]
      exact (hstuck.answer (hquit _ (by simp))).andThen _
  | cons hline _ ih =>
      rw [List.cons_append, List.forall_mem_cons] at hquit
      rw [List.cons_append, answerInTurn_cons, hline.answer hquit.1, Outcome.andThen_value]
      exact ih hquit.2 hstuck

end

/-- The machine of a run of the program that is about to begin: the root scope has also
the names that a script asks for. -/
def programMachine (settings : Settings) (files : Files) : Machine :=
  ((rootMachine files).define ⟨0, []⟩ "*ARGV*"
    (.list (settings.scriptArguments.map .string))).define ⟨0, []⟩ "*host-language*" (.string "rust")

theorem newProgramScope_fresh (settings : Settings) (files : Files) :
    newProgramScope settings (.fresh files) = .value ⟨0, []⟩ (programMachine settings files) := by
  rw [newProgramScope, Eval.bind_apply, newRoot_fresh]
  rfl

theorem runProgram_eq {settings : Settings} (hscript : settings.script = none)
    (lines : List String) (files : Files) : runProgram settings lines (.fresh files) =
      (interact ⟨0, []⟩ lines (programMachine settings files)).map fun _ => ⟨0, ""⟩ := by
  rw [runProgram, Eval.bind_apply, newProgramScope_fresh, Outcome.andThen_value]
  simp only [hscript]
  rfl

section

variable {scope : Scope} {lines : List String} {m : Machine}

theorem interact_eq (scope : Scope) (lines : List String) (m : Machine) :
    interact scope lines m =
      (answerInTurn scope (beforeQuit lines) (m.say (written banner))).andThen
        fun _ => .printLine farewell := by
  rw [interact, Eval.bind_apply, printLines_apply, Outcome.andThen_value, converse_eq]

/-- When all lines before the one that asks to quit are answered, the session ends. -/
theorem interact_of_inTurn {output : String} {left : Machine}
    (h : ContributeInTurn scope (beforeQuit lines) (m.say (written banner)) output left) :
    interact scope lines m = .value () (left.say (written [farewell])) := by
  rw [interact_eq, h.answerInTurn fun _ => not_quits_of_beforeQuit, Outcome.andThen_value,
    printLine_apply]

theorem interact_neverReturns {earlier later : List String} {line output : String} {left : Machine}
    (hlines : beforeQuit lines = earlier ++ line :: later)
    (hearlier : ContributeInTurn scope earlier (m.say (written banner)) output left)
    (hstuck : Unanswered scope (trim line) left) : (interact scope lines m).NeverReturns := by
  have hquit : ∀ other ∈ earlier ++ line :: later, quits other = false := by
    rw [← hlines]
    exact fun _ => not_quits_of_beforeQuit
  rw [interact_eq, hlines]
  exact (answerInTurn_neverReturns hquit hearlier hstuck).andThen _

/-- A session ends when all of those lines are answered, and never comes back from one
that has no answer. -/
theorem interact_cases (scope : Scope) (lines : List String) (m : Machine) :
    (∃ output left,
      ContributeInTurn scope (beforeQuit lines) (m.say (written banner)) output left ∧
        interact scope lines m = .value () (left.say (written [farewell]))) ∨
      (∃ earlier line later output left, beforeQuit lines = earlier ++ line :: later ∧
        ContributeInTurn scope earlier (m.say (written banner)) output left ∧
        Unanswered scope (trim line) left) ∧ (interact scope lines m).NeverReturns := by
  rcases inTurn_or_unanswered scope (beforeQuit lines) (m.say (written banner)) with
    ⟨output, left, hanswered⟩ | ⟨_, _, _, _, _, hlines, hearlier, hstuck⟩
  · exact .inl ⟨output, left, hanswered, interact_of_inTurn hanswered⟩
  · exact .inr ⟨⟨_, _, _, _, _, hlines, hearlier, hstuck⟩,
      interact_neverReturns hlines hearlier hstuck⟩

end

theorem Outcome.NeverReturns.ne_value {α : Type} {outcome : Outcome α} (h : outcome.NeverReturns)
    (result : α) (after : Machine) : outcome ≠ .value result after := by
  rcases h with rfl | ⟨_, rfl⟩ <;> nofun

theorem Outcome.NeverReturns.cause_eq {α : Type} {outcome : Outcome α} (h : outcome.NeverReturns)
    {cause : Error} {after : Machine} (herror : outcome = .error cause after) :
    cause = .endless := by
  rcases h with rfl | ⟨_, rfl⟩
  · cases herror
  · cases herror
    rfl

/-- A session is the fold of its lines.  After the banner the lines before the first that
asks to quit contribute in turn, each without the blanks at its ends and from the machine
that those before it have left, at the depth of the beginning; then the session takes its
leave, and whatever lines are left have no part in it.  It never fails, and it comes to no
end only at a line that has no answer, since the evaluation of the line does not end, or
since what would have to be written leads to a cell that contains itself.  As a run of the
program it begins at depth zero, and ends with the exit code zero and no complaint.  No
evaluation fails with the error that there is no form, by which the session knows lines
without. -/
theorem session_is_fold_of_lines :
    (∀ scope lines m after, interact scope lines m = .value () after ↔
      ∃ output left, ContributeInTurn scope (beforeQuit lines) (m.say (written banner)) output left ∧
        after = left.say (written [farewell])) ∧
    (∀ scope lines m, (∀ after, interact scope lines m ≠ .value () after) ↔
      ∃ earlier line later output left, beforeQuit lines = earlier ++ line :: later ∧
        ContributeInTurn scope earlier (m.say (written banner)) output left ∧
        Unanswered scope (trim line) left) ∧
    (∀ scope lines m cause after, interact scope lines m = .error cause after →
      cause = .endless) ∧
    (∀ scope lines m output left, ContributeInTurn scope lines m output left →
      left.printed = m.printed ++ output ∧ left.depth = m.depth) ∧
    (∀ settings lines files, settings.script = none →
      (programMachine settings files).depth = 0 ∧
      ∀ ending after, runProgram settings lines (.fresh files) = .value ending after ↔
        ending = ⟨0, ""⟩ ∧
          interact ⟨0, []⟩ lines (programMachine settings files) = .value () after) ∧
    ∀ steps form scope m e after, evaluateWithin steps form scope m = .error (.read e) after →
      e.kind ≠ .noForm := by
  refine ⟨fun scope lines m after => ⟨fun hvalue => ?_, ?_⟩,
    fun scope lines m => ⟨fun hnone => ?_, ?_⟩, fun scope lines m cause after herror => ?_,
    fun _ _ _ _ _ h => h.leaves, fun settings lines files hscript => ⟨rfl, fun ending after => ?_⟩,
    fun steps form scope m e after => evaluate_read_error⟩
  · obtain ⟨output, left, hanswered, hends⟩ | ⟨-, hstuck⟩ := interact_cases scope lines m
    · rw [hends] at hvalue
      cases hvalue
      exact ⟨output, left, hanswered, rfl⟩
    · exact (hstuck.ne_value _ _ hvalue).elim
  · rintro ⟨output, left, hanswered, rfl⟩
    exact interact_of_inTurn hanswered
  · obtain ⟨_, _, -, hends⟩ | ⟨hline, -⟩ := interact_cases scope lines m
    · exact (hnone _ hends).elim
    · exact hline
  · rintro ⟨earlier, line, later, output, left, hlines, hearlier, hstuck⟩
    exact (interact_neverReturns hlines hearlier hstuck).ne_value ()
  · obtain ⟨_, _, -, hends⟩ | ⟨-, hstuck⟩ := interact_cases scope lines m
    · rw [hends] at herror
      cases herror
    · exact hstuck.cause_eq herror
  · rw [runProgram_eq hscript]
    rcases interact ⟨0, []⟩ lines (programMachine settings files) with
      ⟨_, left⟩ | ⟨cause, left⟩ | _
    · constructor
      · rintro ⟨⟩
        exact ⟨rfl, rfl⟩
      · rintro ⟨rfl, ⟨⟩⟩
        rfl
    · simp [Outcome.map]
    · simp [Outcome.map]

def failingLine : String :=
  "(do (def! x 1) (prn x) (+ x y))"

def failingForm : Value :=
  .list [.symbol "do", .list [.symbol "def!", .symbol "x", .number 1],
    .list [.symbol "prn", .symbol "x"], .list [.symbol "+", .symbol "x", .symbol "y"]]

def interactiveSettings : Settings :=
  .ofArguments []

/-- The machine of a session that has said its banner. -/
def openedMachine : Machine :=
  (programMachine interactiveSettings noFiles).say (written banner)

def failingOutput : String :=
  "1\nError: 'y' not found\n"

theorem contributes_failingLine : ∃ left,
    Contributes ⟨0, []⟩ (trim failingLine) openedMachine failingOutput left ∧
      (left.lookup? ⟨0, []⟩ "x").isSome := by
  have hread : readFirst failingLine = .ok failingForm := by
    rfl
  have hform : ¬ Separators failingLine.toList [] := by
    rw [← readFirst_noForm_iff, hread]
    simp
  have htrim : trim failingLine = failingLine := by
    decide +kernel
  obtain ⟨left, hrun⟩ : ∃ left,
      evaluateWithin 6 failingForm ⟨0, []⟩ openedMachine = .error (.unbound "y") left :=
    Outcome.exists_of_error? (by decide +kernel)
  have hleft : (evaluateWithin 6 failingForm ⟨0, []⟩ openedMachine).after?.any (fun left =>
      decide (left.printed = openedMachine.printed ++ "1\n") &&
        (left.lookup? ⟨0, []⟩ "x").isSome) = true := by
    decide +kernel
  rw [hrun, Outcome.after?, Option.any_some, Bool.and_eq_true, decide_eq_true_iff] at hleft
  have herror : evaluateLine failingLine ⟨0, []⟩ openedMachine = .error (.unbound "y") left := by
    rw [evaluateLine_of_read hread]
    exact evaluate_of_error (by decide) hrun
  have houtput : "1\n" ++ written ["Error: " ++ ("'" ++ "y" ++ "' not found")] = failingOutput := by
    decide +kernel
  rw [htrim, ← houtput]
  exact ⟨_, .failure (by decide) hform herror hleft.1 rfl, hleft.2⟩

/-- A line that puts an atom into itself and comes to it. -/
def endlessLine : String :=
  "(do (def! a (atom nil)) (reset! a a))"

def endlessForm : Value :=
  .list [.symbol "do", .list [.symbol "def!", .symbol "a", .list [.symbol "atom", .nil]],
    .list [.symbol "reset!", .symbol "a", .symbol "a"]]

theorem unanswered_endlessLine : Unanswered ⟨0, []⟩ (trim endlessLine) openedMachine := by
  have hread : readFirst endlessLine = .ok endlessForm := by
    rfl
  have htrim : trim endlessLine = endlessLine := by
    decide +kernel
  have hrun : (evaluateWithin 6 endlessForm ⟨0, []⟩ openedMachine).value?.any
      (·.same (.atom 0)) = true := by
    decide +kernel
  have hcells : (evaluateWithin 6 endlessForm ⟨0, []⟩ openedMachine).after?.any
      (fun left => (left.cells[0]?.getD Value.nil).cells == [0]) = true := by
    decide +kernel
  obtain ⟨value, hvalue, hsame⟩ := (Option.any_eq_true _ _).mp hrun
  obtain rfl : value = .atom 0 := by
    cases value <;> simp_all [Value.same]
  obtain ⟨left, houtcome⟩ := Outcome.exists_of_value? hvalue
  rw [houtcome, Outcome.after?, Option.any_some, beq_iff_eq] at hcells
  have hcontains : left.Contains 0 0 := by
    rw [Machine.Contains, hcells]
    exact List.mem_cons_self
  have hended : evaluateLine endlessLine ⟨0, []⟩ openedMachine = .value (.atom 0) left := by
    rw [evaluateLine_of_read hread]
    exact Prolongs.of_value (evaluateWithin_prolongs (by decide) endlessForm ⟨0, []⟩) houtcome
  rw [htrim]
  exact .result (by decide) hended ⟨0, List.mem_cons_self, 0, .refl, .single hcontains⟩

/-- Where a session asks to quit after the first line, the output up to the failure, the
report and the name that was bound before are there when the run of the program ends, and
the line after that has no part in it.  With the second line first no run ends. -/
theorem session_is_fold_of_lines_failingLine :
    (∃ left : Machine,
      runProgram interactiveSettings [failingLine, ":quit", "(prn 2)"] (.fresh noFiles) =
        .value ⟨0, ""⟩ (left.say (written [farewell])) ∧
      left.printed = written banner ++ failingOutput ∧ (left.lookup? ⟨0, []⟩ "x").isSome) ∧
    ∀ lines ending after, runProgram interactiveSettings (endlessLine :: lines) (.fresh noFiles) ≠
      .value ending after := by
  have hscript : interactiveSettings.script = none := rfl
  obtain ⟨hends, hstuck, -, hleaves, hruns, -⟩ := session_is_fold_of_lines
  constructor
  · have hbefore : beforeQuit [failingLine, ":quit", "(prn 2)"] = [failingLine] := by
      decide +kernel
    obtain ⟨left, hline, hbound⟩ := contributes_failingLine
    have hanswered := ContributeInTurn.cons hline ContributeInTurn.nil
    have hleft := (hleaves _ _ _ _ _ hanswered).1
    rw [String.append_empty] at hleft
    rw [← hbefore] at hanswered
    have hsession := (hends _ _ (programMachine interactiveSettings noFiles) _).mpr
      ⟨_, left, hanswered, rfl⟩
    exact ⟨left, ((hruns _ _ _ hscript).2 _ _).mpr ⟨rfl, hsession⟩, hleft, hbound⟩
  · intro lines ending after hended
    have hquits : quits endlessLine = false := by
      decide +kernel
    have hbefore : beforeQuit (endlessLine :: lines) = [] ++ endlessLine :: beforeQuit lines := by
      rw [beforeQuit, List.takeWhile_cons_of_pos (by rw [hquits]; rfl)]
      rfl
    obtain ⟨-, hinteract⟩ := ((hruns _ _ _ hscript).2 _ _).mp hended
    exact (hstuck _ _ _).mpr
      ⟨_, _, _, _, _, hbefore, ContributeInTurn.nil, unanswered_endlessLine⟩ _ hinteract

end Lisplet
