/-
Calls, kind by kind.  An operation has a use for an argument list exactly when
its arity accepts the length of the list, so that calls come in a few kinds:
closures, each native operation on arguments it accepts, the refusal of a wrong
count, and the refusal of what cannot be called.
-/
import Lisplet.Evaluation
import Mathlib.Data.List.Basic

namespace Lisplet

/-- Operands find their places exactly when the special form takes so many. -/
theorem place?_isSome (form : SpecialForm) (operands : List Value) :
    (form.place? operands).isSome = form.arity.accepts operands.length := by
  match operands with
  | [] => cases form <;> rfl
  | [_] => cases form <;> rfl
  | [_, _] => cases form <;> rfl
  | [_, _, _] => cases form <;> rfl
  | _ :: _ :: _ :: _ :: rest =>
      cases form <;> simp [SpecialForm.place?, SpecialForm.arity, Arity.accepts]

/-- A primitive does something exactly when it takes so many arguments. -/
theorem call?_isSome (p : Primitive) (arguments : List Value) :
    (p.call? arguments).isSome = p.arity.accepts arguments.length := by
  cases p with
  | arithmetic operation =>
      cases operation <;> cases arguments <;> simp [Primitive.call?, Primitive.arity, Arity.accepts]
  | equal | compare =>
      cases arguments <;> simp [Primitive.call?, Primitive.arity, Arity.accepts]
  | _ =>
      match arguments with
      | [] => rfl
      | [_] => rfl
      | [_, _] => rfl
      | _ :: _ :: _ :: rest => simp [Primitive.call?, Primitive.arity, Arity.accepts]

theorem one_of_call? {p : Primitive} {arguments : List Value} {act : Eval Value}
    (h : p.call? arguments = some act) (harity : p.arity = .exactly 1) :
    ∃ value, arguments = [value] := by
  have haccepts := call?_isSome p arguments
  rw [h, harity, Option.isSome_some] at haccepts
  exact List.length_eq_one_iff.mp (beq_iff_eq.mp haccepts.symm)

theorem two_of_call? {p : Primitive} {arguments : List Value} {act : Eval Value}
    (h : p.call? arguments = some act) (harity : p.arity = .exactly 2) :
    ∃ first second, arguments = [first, second] := by
  have haccepts := call?_isSome p arguments
  rw [h, harity, Option.isSome_some] at haccepts
  exact List.length_eq_two.mp (beq_iff_eq.mp haccepts.symm)

def wrongCount (native : Native) (arguments : List Value) : Error :=
  .arity native.operation.arity arguments.length none

def Value.IsCallable : Value → Prop
  | .closure false _ | .native _ => True
  | _ => False

theorem Value.IsCallable.cases {function : Value} (h : function.IsCallable) :
    (∃ code, function = .closure false code) ∨ ∃ native, function = .native native := by
  unfold Value.IsCallable at h
  split at h
  · exact .inl ⟨_, rfl⟩
  · exact .inr ⟨_, rfl⟩
  · exact h.elim

/-- Every call is of one of these kinds.  Only `swap!` calls again, on the
content of a cell and one argument fewer. -/
theorem call_induction {motive : Value → List Value → Prop}
    (closure : ∀ code arguments, motive (.closure false code) arguments)
    (primitive : ∀ native p act arguments, native.operation = .primitive p →
      p.call? arguments = some act → motive (.native native) arguments)
    (swap : ∀ native target updater others, native.operation = .swap →
      (∀ content, motive updater (content :: others)) →
      motive (.native native) (target :: updater :: others))
    (evaluate : ∀ native root form, native.operation = .evaluate root →
      motive (.native native) [form])
    (countArguments : ∀ native arity arguments, native.operation = .countArguments arity →
      arity.accepts arguments.length = true → motive (.native native) arguments)
    (wrongCount : ∀ native arguments,
      native.operation.arity.accepts arguments.length = false → motive (.native native) arguments)
    (notCallable : ∀ function arguments, ¬ function.IsCallable → motive function arguments)
    (function : Value) (arguments : List Value) : motive function arguments := by
  induction hlength : arguments.length using Nat.strongRecOn
    generalizing function arguments with
  | ind length ih =>
      subst hlength
      by_cases hcallable : function.IsCallable
      · rcases hcallable.cases with ⟨code, rfl⟩ | ⟨native, rfl⟩
        · exact closure code arguments
        · by_cases haccepts : native.operation.arity.accepts arguments.length = true
          · rcases hoperation : native.operation with p | _ | root | arity
            · rw [hoperation, Operation.arity, ← call?_isSome, Option.isSome_iff_exists]
                at haccepts
              obtain ⟨act, hcall⟩ := haccepts
              exact primitive native p act arguments hoperation hcall
            · rw [hoperation] at haccepts
              rcases arguments with _ | ⟨target, _ | ⟨updater, others⟩⟩
              · cases haccepts
              · cases haccepts
              · refine swap native target updater others hoperation ?_
                intro content
                exact ih _ (by simp) updater (content :: others) rfl
            · rw [hoperation] at haccepts
              rcases arguments with _ | ⟨form, _ | ⟨other, others⟩⟩
              · cases haccepts
              · exact evaluate native root form hoperation
              · simp [Operation.arity, Arity.accepts] at haccepts
            · rw [hoperation] at haccepts
              exact countArguments native arity arguments hoperation haccepts
          · exact wrongCount native arguments (by simpa using haccepts)
      · exact notCallable function arguments hcallable

variable (evaluator : Evaluator)

theorem apply_closure (code : Nat) (arguments : List Value) :
    apply evaluator (.closure false code) arguments = (do
      let (body, scope) ← enterClosure false code arguments
      evaluator body scope) := by
  rw [apply]

theorem apply_primitive {native : Native} {p : Primitive} {arguments : List Value}
    {act : Eval Value} (hoperation : native.operation = .primitive p)
    (hcall : p.call? arguments = some act) :
    apply evaluator (.native native) arguments = act := by
  unfold apply
  simp only [hoperation, hcall, Option.getD_some]

theorem apply_swap {native : Native} (hoperation : native.operation = .swap)
    (target updater : Value) (others : List Value) :
    apply evaluator (.native native) (target :: updater :: others) = (do
      let cell ← .ofExcept (target.toCell "swap!")
      let content ← .content cell
      let result ← apply evaluator updater (content :: others)
      .replace cell result
      return result) := by
  rw [apply.eq_def]
  simp only [hoperation]

theorem apply_evaluate {native : Native} {root : Scope} (form : Value)
    (hoperation : native.operation = .evaluate root) :
    apply evaluator (.native native) [form] = evaluator form root := by
  rw [apply.eq_def]
  simp only [hoperation]

theorem apply_countArguments {native : Native} {arity : Arity} {arguments : List Value}
    (hoperation : native.operation = .countArguments arity)
    (haccepts : arity.accepts arguments.length = true) :
    apply evaluator (.native native) arguments =
      pure (.number (.ofNat arguments.length)) := by
  rw [apply.eq_def]
  simp only [hoperation, haccepts, ↓reduceIte]

theorem apply_wrongCount {native : Native} {arguments : List Value}
    (hcount : native.operation.arity.accepts arguments.length = false) :
    apply evaluator (.native native) arguments = .fail (wrongCount native arguments) := by
  rw [apply.eq_def]
  rcases hoperation : native.operation with p | _ | root | arity
  · rw [hoperation, Operation.arity, ← call?_isSome, Option.isSome_eq_false_iff,
      Option.isNone_iff_eq_none] at hcount
    simp only [hoperation, hcount, Option.getD_none, wrongCount]
  · rw [hoperation] at hcount
    rcases arguments with _ | ⟨target, _ | ⟨updater, others⟩⟩
    · simp only [wrongCount, hoperation]
    · simp only [wrongCount, hoperation]
    · simp [Operation.arity, Arity.accepts] at hcount
  · rw [hoperation] at hcount
    rcases arguments with _ | ⟨form, _ | ⟨other, others⟩⟩
    · simp only [wrongCount, hoperation]
    · cases hcount
    · simp only [wrongCount, hoperation]
  · rw [hoperation, Operation.arity] at hcount
    simp [hoperation, hcount, wrongCount]

theorem apply_notCallable {function : Value} (h : ¬ function.IsCallable)
    (arguments : List Value) :
    apply evaluator function arguments = refuseCall function := by
  unfold apply
  split
  · exact absurd trivial h
  · exact absurd trivial h
  · rfl

end Lisplet
