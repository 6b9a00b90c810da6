/-
Calls from outside a list.  A host, or `swap!`, calls a function with arguments that
are values already.  A list of quoted values comes to the same call by evaluation: its
parts come to the values, and a closure is then entered and its body evaluated at the
level of the list, and anything else is applied one level deeper.
-/
import Lisplet.Proofs.CallRules
import Lisplet.Proofs.ErrorMessage
import Lisplet.Proofs.RootScope
import Lisplet.Proofs.TailContexts

namespace Lisplet

def Value.quoted (value : Value) : Value :=
  .list [.symbol SpecialForm.quote.name, value]

/-- The list that calls the function on the arguments, every one of them quoted. -/
def callOf (function : Value) (arguments : List Value) : Value :=
  .list (function.quoted :: arguments.map .quoted)

/-- The two errors of a call are the same but for the list form in which they arose, or
they are that a closure does not take so many arguments, and the second names it. -/
def SameCallError (function : Value) (named : Rendering) (cause cause' : Error) : Prop :=
  cause'.withoutContext = cause.withoutContext ∨
    ∃ code expected got, function = .closure false code ∧ cause = .arity expected got none ∧
      cause' = .arity expected got (some named)

/-- The outcomes of a call of the function and of a list that calls it agree: in how
they end, in the machine that is left, and in the value or the error. -/
inductive CallsAgree (function : Value) : Outcome Value → Outcome Value → Prop
  | value {result after} : CallsAgree function (.value result after) (.value result after)
  | error {cause cause' after}
      (hcause : SameCallError function (after.text .readable function.quoted) cause cause') :
      CallsAgree function (.error cause after) (.error cause' after)
  | unfinished : CallsAgree function .unfinished .unfinished

theorem CallsAgree.refl (function : Value) (outcome : Outcome Value) :
    CallsAgree function outcome outcome := by
  cases outcome with
  | value => exact .value
  | error => exact .error (.inl rfl)
  | unfinished => exact .unfinished

/-- A list form noted on the error makes no difference. -/
theorem CallsAgree.noted (function : Value) (outcome : Outcome Value) (s : Situation) :
    CallsAgree function outcome (outcome.noted s.note) := by
  cases outcome with
  | value => exact .value
  | error => exact .error (.inl (Error.withoutContext_inContext _ _))
  | unfinished => exact .unfinished

variable {scope : Scope} {m : Machine}

/-- Two levels below, a quoted value is its value. -/
theorem evaluateDeeper_quoted
    (hquote : ∀ code, m.lookup? scope SpecialForm.quote.name ≠ some (.closure true code))
    (hdepth : m.depth + 1 < maxDepth) (steps : Nat) (value : Value) :
    evaluateDeeper (steps + 1) value.quoted scope m = .value value m := by
  obtain ⟨levels, hlevels⟩ := Nat.exists_eq_add_of_lt hdepth
  have hspecial : Situation.IsSpecial ⟨value.quoted, scope, m⟩ (.quote value) :=
    ⟨_, .quote, _, rfl, macroCall?_eq_none hquote, SpecialForm.ofName?_name .quote, rfl⟩
  have hstep := @step_special (evaluateLevels steps levels) _ _ hspecial steps
  have hdeeper := evaluateDeeper_agrees (show m.depth + 1 + (levels + 1) = maxDepth by omega)
    (steps + 1) value.quoted scope m rfl
  calc
    evaluateDeeper (steps + 1) value.quoted scope m
        = runLevels (steps + 1) levels value.quoted scope m := hdeeper.1
    _ = (step steps (evaluateLevels steps levels) value.quoted scope m).andThen
          (resume (runLevels steps levels)) := runLevels_succ _ _ _ _ _
    _ = .value value m := by
      rw [hstep]
      rfl

theorem evaluateAll_quoted
    (hquote : ∀ code, m.lookup? scope SpecialForm.quote.name ≠ some (.closure true code))
    (hdepth : m.depth + 1 < maxDepth) (steps : Nat) (values : List Value) :
    evaluateAll (evaluateDeeper (steps + 1)) scope (values.map .quoted) m = .value values m := by
  induction values with
  | nil => rfl
  | cons value values ih =>
      rw [List.map_cons, evaluateAll, Eval.bind_apply, evaluateDeeper_quoted hquote hdepth,
        Outcome.andThen_value, Eval.bind_apply, ih]
      rfl

/-- A list of quoted values is neither a macro call nor a special form. -/
theorem isCall_callOf (function : Value) (arguments : List Value) (scope : Scope) (m : Machine) :
    Situation.IsCall ⟨callOf function arguments, scope, m⟩ function.quoted
      (arguments.map .quoted) :=
  ⟨rfl, rfl, rfl⟩

/-- Where there is room for its parts, a list of quoted values is the end of its call. -/
theorem evaluateWithin_callOf
    (hquote : ∀ code, m.lookup? scope SpecialForm.quote.name ≠ some (.closure true code))
    (hdepth : m.depth + 1 < maxDepth) (function : Value) (arguments : List Value) (steps : Nat) :
    evaluateWithin (steps + 2) (callOf function arguments) scope m =
      ((finishCall (evaluateDeeper (steps + 1)) function.quoted function arguments m).noted
        (Situation.note ⟨callOf function arguments, scope, m⟩)).andThen
          (resume (evaluateWithin (steps + 1))) := by
  have hparts := evaluateAll_quoted hquote hdepth steps (function :: arguments)
  have hstep := @step_call (evaluateDeeper (steps + 1)) _ _ _
    (isCall_callOf function arguments scope m) (steps + 1)
  rw [evaluateWithin_succ (by omega), hstep]
  dsimp only
  rw [← List.map_cons, hparts, Outcome.andThen_value, List.headD_cons, List.tail_cons]

/-- Where there is no room for its parts, such a list hits the limit. -/
theorem callOf_hitsDepthLimit (hdepth : ¬ m.depth + 1 < maxDepth) (function : Value)
    (arguments : List Value) (steps : Nat) :
    (evaluateWithin (steps + 1) (callOf function arguments) scope m).HitsDepthLimit := by
  by_cases hroom : m.depth < maxDepth
  · have hhead : evaluateDeeper steps function.quoted scope m =
        .error (.evaluation .tooDeep none) m := by
      have hlimit : evaluateWithin steps function.quoted scope (m.atDepth (m.depth + 1)) =
          .error (.evaluation .tooDeep none) (m.atDepth (m.depth + 1)) :=
        nested_of_not_lt _ hdepth
      rw [evaluateDeeper, nested_of_lt _ hroom, hlimit]
      rfl
    have hparts : evaluateAll (evaluateDeeper steps) scope
        (function.quoted :: arguments.map .quoted) m = .error (.evaluation .tooDeep none) m := by
      rw [evaluateAll, Eval.bind_apply, hhead, Outcome.andThen_error]
    have hstep := @step_call (evaluateDeeper steps) _ _ _
      (isCall_callOf function arguments scope m) steps
    rw [evaluateWithin_succ hroom, hstep]
    dsimp only
    rw [hparts]
    exact ⟨_, rfl⟩
  · exact nested_hitsDepthLimit _ hroom

/-- One level deeper an evaluation does the same, or hits the limit. -/
theorem evaluateDeeper_agreesOrHits (steps : Nat) (form : Value) (scope : Scope) :
    AgreesOrHits (evaluateDeeper steps form scope) (evaluateWithin steps form scope) := by
  intro m
  by_cases hdepth : m.depth < maxDepth
  · obtain ⟨levels, hlevels⟩ := Nat.exists_eq_add_of_lt hdepth
    rw [(evaluateDeeper_agrees (show m.depth + 1 + levels = maxDepth by omega) steps form scope
      m rfl).1, evaluateWithin_eq]
    exact evaluateLevels_agreesOrHits steps (by omega) form scope m
  · exact .inr (nested_hitsDepthLimit _ hdepth)

/-- A closure that is entered goes on in the same way, and one that is not fails with an
error that a list names its head in. -/
theorem callsAgree_closure (code : Nat) (arguments : List Value) (steps : Nat) (s : Situation) :
    CallsAgree (.closure false code)
      (apply (evaluateWithin (steps + 1)) (.closure false code) arguments m)
      (((finishCall (evaluateDeeper (steps + 1)) (Value.closure false code).quoted
        (.closure false code) arguments m).noted s.note).andThen
          (resume (evaluateWithin (steps + 1)))) := by
  rw [apply_closure, Eval.bind_apply, finishCall_closure]
  rcases enterClosure false code arguments m with ⟨⟨body, inner⟩, after⟩ | ⟨cause, after⟩ | _
  · exact .refl _ _
  · refine .error ?_
    cases cause with
    | arity expected got callee =>
        cases callee with
        | none => exact .inr ⟨code, expected, got, rfl, rfl, rfl⟩
        | some callee => exact .inl rfl
    | _ => exact .inl (Error.withoutContext_inContext _ _)
  · exact .unfinished

/-- What is no closure is applied, a level deeper in a list than outside. -/
theorem callsAgree_other {function : Value} (hfunction : ∀ code, function ≠ .closure false code)
    (arguments : List Value) (steps : Nat) (s : Situation) :
    (((finishCall (evaluateDeeper (steps + 1)) function.quoted function arguments m).noted
        s.note).andThen (resume (evaluateWithin (steps + 1)))).HitsDepthLimit ∨
      CallsAgree function (apply (evaluateWithin (steps + 1)) function arguments m)
        (((finishCall (evaluateDeeper (steps + 1)) function.quoted function arguments m).noted
          s.note).andThen (resume (evaluateWithin (steps + 1)))) := by
  have hlist : ∀ outcome : Outcome Value, ((outcome.map Step.done).noted s.note).andThen
      (resume (evaluateWithin (steps + 1))) = outcome.noted s.note := by
    intro outcome
    cases outcome <;> rfl
  have happly := respected_agreesOrHits.apply (evaluateDeeper_agreesOrHits (steps + 1)) function
    arguments m
  rw [finishCall_other _ _ hfunction, hlist]
  rcases happly with heq | hhits
  · rw [heq]
    exact .inr (.noted _ _ _)
  · exact .inl (Situation.noted_hits_iff.mpr hhits)

/-- A call of a function agrees with the evaluation of the list of the function and its
arguments, all quoted, where `quote` names no macro: unless the list hits the depth
limit, both end with the same value and the same machine, or with the same error and the
same machine, or neither ends.  Where there are errors, those may differ in the list
form they arose in, and an error that a closure does not take so many arguments names
the closure in a list; when what is named so has no end, the program comes back from the
call alone.  What is neither a closure to be called as a function nor a native function
both refuse, and nothing happens. -/
theorem call_agrees_with_list (function : Value) (arguments : List Value) (scope : Scope)
    (m : Machine)
    (hquote : ∀ code, m.lookup? scope SpecialForm.quote.name ≠ some (.closure true code))
    (steps : Nat) :
    ((evaluateWithin (steps + 2) (callOf function arguments) scope m).HitsDepthLimit ∨
      CallsAgree function (apply (evaluateWithin (steps + 1)) function arguments m)
        (evaluateWithin (steps + 2) (callOf function arguments) scope m)) ∧
    (¬ function.IsCallable →
      apply (evaluateWithin (steps + 1)) function arguments m =
        .error (.notCallable (m.text .readable function)) m ∧
      ((evaluateWithin (steps + 2) (callOf function arguments) scope m).HitsDepthLimit ∨
        evaluateWithin (steps + 2) (callOf function arguments) scope m =
          .error (.notCallable (m.text .readable function)) m)) := by
  by_cases hdepth : m.depth + 1 < maxDepth
  · rw [evaluateWithin_callOf hquote hdepth]
    constructor
    · by_cases hfunction : ∀ code, function ≠ .closure false code
      · exact callsAgree_other hfunction arguments steps _
      · push Not at hfunction
        obtain ⟨code, rfl⟩ := hfunction
        exact .inr (callsAgree_closure code arguments steps _)
    · intro hcallable
      have hfunction : ∀ code, function ≠ .closure false code := by
        rintro code rfl
        exact hcallable trivial
      have hrefused : ∀ evaluator, apply evaluator function arguments m =
          .error (.notCallable (m.text .readable function)) m := by
        intro evaluator
        rw [apply_notCallable evaluator hcallable]
        rfl
      refine ⟨hrefused _, .inr ?_⟩
      rw [finishCall_other _ _ hfunction, hrefused]
      rfl
  · have hhits : (evaluateWithin (steps + 2) (callOf function arguments) scope m).HitsDepthLimit :=
      callOf_hitsDepthLimit hdepth function arguments (steps + 1)
    refine ⟨.inl hhits, fun hcallable => ⟨?_, .inl hhits⟩⟩
    rw [apply_notCallable _ hcallable]
    rfl

def printAndFail : Value :=
  .list [.symbol "do", .list [.symbol "prn", .symbol "x"],
    .list [.symbol "+", .symbol "x", .string "1"]]

def updatingMachine : Machine :=
  { rootMachine noFiles with
    cells := #[.number 7]
    closures := (rootMachine noFiles).closures.push ⟨["x"], printAndFail, ⟨0, []⟩⟩ }

/-- An update of the atom by the function prints the content and fails, from a list or not. -/
theorem call_agrees_with_list_failedUpdate :
    ∃ cause cause' after,
      apply (evaluateWithin 5) (.native ⟨"swap!", .swap, 0⟩) [.atom 0, .closure false 3]
        updatingMachine = .error cause after ∧
      evaluateWithin 6 (callOf (.native ⟨"swap!", .swap, 0⟩) [.atom 0, .closure false 3]) ⟨0, []⟩
        updatingMachine = .error cause' after ∧
      after.printed = "7\n" ∧ cause'.withoutContext = cause.withoutContext := by
  have hquote : ∀ code, updatingMachine.lookup? ⟨0, []⟩ SpecialForm.quote.name ≠
      some (.closure true code) := by
    have hnone : updatingMachine.lookup? ⟨0, []⟩ SpecialForm.quote.name = none := rfl
    rw [hnone]
    nofun
  have hprints : (apply (evaluateWithin 5) (.native ⟨"swap!", .swap, 0⟩) [.atom 0, .closure false 3]
      updatingMachine).after?.map Machine.printed = some "7\n" := by
    rw [apply_swap _ rfl]
    simp only [apply_closure]
    decide +kernel
  obtain ⟨cause, after, happly⟩ : ∃ cause after,
      apply (evaluateWithin 5) (.native ⟨"swap!", .swap, 0⟩) [.atom 0, .closure false 3]
        updatingMachine = .error cause after := by
    refine Outcome.exists_of_isError ?_
    rw [apply_swap _ rfl]
    simp only [apply_closure]
    decide +kernel
  have hprinted : after.printed = "7\n" := by
    rw [happly] at hprints
    exact Option.some.inj hprints
  have hroom : ¬ (evaluateWithin 6 (callOf (.native ⟨"swap!", .swap, 0⟩)
      [.atom 0, .closure false 3]) ⟨0, []⟩ updatingMachine).HitsDepthLimit := by
    decide +kernel
  have hagree := (call_agrees_with_list (.native ⟨"swap!", .swap, 0⟩) [.atom 0, .closure false 3]
    ⟨0, []⟩ updatingMachine hquote 4).1.resolve_left hroom
  rw [happly] at hagree
  generalize houtcome : evaluateWithin 6 (callOf (.native ⟨"swap!", .swap, 0⟩)
    [.atom 0, .closure false 3]) ⟨0, []⟩ updatingMachine = outcome at hagree ⊢
  cases hagree with
  | error hcause =>
      rcases hcause with hsame | ⟨code, _, _, hfunction, -⟩
      · exact ⟨cause, _, after, happly, rfl, hprinted, hsame⟩
      · cases hfunction

end Lisplet
