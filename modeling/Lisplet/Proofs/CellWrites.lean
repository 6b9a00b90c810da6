/-
Writes to a cell.  A cell that there is gets another content only from `reset!` and
`swap!`, called with its atom.  So the content stays, whatever an evaluation comes to,
unless it comes to such a call: what a step does by itself leaves the cell alone, and a
run is steps and the runs of their parts.
-/
import Lisplet.Proofs.FailingParts

namespace Lisplet

open Relation

variable {α β : Type}

/-- A call of the function writes to the cell by itself: it is one of `reset!`, or one of
`swap!` that has come to the new content, or one of `swap!` on any atom for which the call
of its function writes to the cell. -/
inductive Writes (evaluator : Evaluator) (cell : Nat) : Value → List Value → Machine → Prop
  | reset {native content m} (hoperation : native.operation = .primitive .reset) :
      Writes evaluator cell (.native native) [.atom cell, content] m
  | swap {native updater others m result after} (hoperation : native.operation = .swap)
      (hupdater : apply evaluator updater (m.cells[cell]?.getD .nil :: others) m =
        .value result after) :
      Writes evaluator cell (.native native) (.atom cell :: updater :: others) m
  | updater {native other updater others m} (hoperation : native.operation = .swap)
      (hwrites : Writes evaluator cell updater (m.cells[other]?.getD .nil :: others) m) :
      Writes evaluator cell (.native native) (.atom other :: updater :: others) m

/-- A run from the situation, of so many steps, gets to a call that writes to the cell: at
its first step, in a part that this step evaluates, or after it. -/
inductive RunWrites (cell : Nat) : (steps : Nat) → Situation → Prop
  | call {steps s head operands function arguments m₁} (hcall : s.IsCall head operands)
      (hparts : evaluateAll (evaluateWithin steps) s.scope (head :: operands) s.machine =
        .value (function :: arguments) m₁)
      (hwrites : Writes (evaluateWithin steps) cell function arguments m₁) :
      RunWrites cell (steps + 1) s
  | part {steps s part} (hpart : Enters (evaluateWithin steps) s part)
      (hdepth : part.machine.depth < maxDepth) (hwrites : RunWrites cell steps part.deeper) :
      RunWrites cell (steps + 1) s
  | tail {steps s form scope m₁}
      (hstep : step steps (evaluateWithin steps) s.form s.scope s.machine =
        .value (.next form scope) m₁)
      (hwrites : RunWrites cell steps ⟨form, scope, m₁⟩) : RunWrites cell (steps + 1) s

/-- A call of the function, in the evaluation of which each form has so many steps, writes
to the cell, by itself or in what it evaluates. -/
def CallWrites (cell steps : Nat) (function : Value) (arguments : List Value) (m : Machine) :
    Prop :=
  Writes (evaluateWithin steps) cell function arguments m ∨
    ∃ part, Invokes function arguments m part ∧ part.machine.depth < maxDepth ∧
      RunWrites cell steps part.deeper

/-- The evaluation of a name writes to no cell. -/
theorem not_runWrites_of_symbol {cell steps : Nat} {s : Situation} {name : String}
    (hform : s.form = .symbol name) : ¬ RunWrites cell steps s := by
  have hlist : ∀ items, s.form ≠ .list items := by
    rw [hform]
    nofun
  have hspecial : ∀ special, ¬ s.IsSpecial special := by
    rintro special ⟨_, _, _, heq, -⟩
    exact hlist _ heq
  intro hwrites
  cases hwrites with
  | call hcall => exact hlist _ hcall.1
  | part hpart =>
      cases hpart with
      | inTurn hforms =>
          rcases hforms with heq | heq | ⟨_, _, -, hcall⟩
          · simp [hform] at heq
          · simp [hform] at heq
          · exact hlist _ hcall.1
      | call hcall => exact hlist _ hcall.1
      | operand hplaced | sequence hplaced | binding hplaced => exact hspecial _ hplaced
      | expansion hplaced => exact hspecial _ hplaced
      | macroBody hentry =>
          obtain ⟨code, arguments, hmacroCall, -⟩ := hentry
          obtain ⟨head, operands, heq⟩ := exists_list_of_macroCall? hmacroCall
          exact hlist _ heq
  | tail hstep =>
      simp only [hform, step, Eval.bind_apply, Eval.read_apply, Outcome.andThen_value] at hstep
      rcases hfound : s.machine.lookup? s.scope name with _ | value
      · simp [hfound, Eval.fail_apply] at hstep
      · simp [hfound, Eval.pure_apply] at hstep

/-- The cell has the content in the machine that the outcome leaves. -/
def Outcome.Leaves (cell : Nat) (content : Value) (outcome : Outcome α) : Prop :=
  ∀ after, outcome.after? = some after → after.cells[cell]? = some content

/-- The action leaves the cell with the content that it finds there. -/
def Eval.Spares (cell : Nat) (act : Eval α) : Prop :=
  ∀ m content, m.cells[cell]? = some content → (act m).Leaves cell content

section

variable {cell : Nat} {content : Value}

namespace Outcome.Leaves

theorem value {m : Machine} (result : α) (hm : m.cells[cell]? = some content) :
    (Outcome.value result m).Leaves cell content := by
  simpa [Outcome.Leaves, Outcome.after?] using hm

theorem error {m : Machine} (cause : Error) (hm : m.cells[cell]? = some content) :
    (Outcome.error cause m : Outcome α).Leaves cell content := by
  simpa [Outcome.Leaves, Outcome.after?] using hm

theorem unfinished : (Outcome.unfinished : Outcome α).Leaves cell content := by
  simp [Outcome.Leaves, Outcome.after?]

theorem andThen {outcome : Outcome α} {next : α → Eval β} (h : outcome.Leaves cell content)
    (hnext : ∀ result m, outcome = .value result m → m.cells[cell]? = some content →
      (next result m).Leaves cell content) : (outcome.andThen next).Leaves cell content := by
  rcases outcome with ⟨result, m⟩ | ⟨cause, m⟩ | _
  · exact hnext result m rfl (h m rfl)
  · exact .error cause (h m rfl)
  · exact .unfinished

theorem map {outcome : Outcome α} (make : α → β) (h : outcome.Leaves cell content) :
    (outcome.map make).Leaves cell content :=
  h.andThen fun _ _ _ hm => .value _ hm

theorem noted {outcome : Outcome α} (note : Machine → Error → Error)
    (h : outcome.Leaves cell content) : (outcome.noted note).Leaves cell content := by
  rcases outcome with ⟨result, m⟩ | ⟨cause, m⟩ | _
  · exact h
  · exact .error _ (h m rfl)
  · exact .unfinished

theorem leave {outcome : Outcome α} (h : outcome.Leaves cell content) :
    outcome.leave.Leaves cell content := by
  rcases outcome with ⟨result, m⟩ | ⟨cause, m⟩ | _
  · exact .value result (h m rfl)
  · exact .error cause (h m rfl)
  · exact .unfinished

end Outcome.Leaves

namespace Eval.Spares

theorem pure (result : α) : (pure result : Eval α).Spares cell :=
  fun _ _ hm => .value result hm

theorem fail (cause : Error) : (Eval.fail cause : Eval α).Spares cell :=
  fun _ _ hm => .error cause hm

theorem bind {act : Eval α} {next : α → Eval β} (hact : act.Spares cell)
    (hnext : ∀ result, (next result).Spares cell) : (act >>= next).Spares cell := by
  intro m content hm
  rw [Eval.bind_apply]
  exact (hact m content hm).andThen fun result m₁ _ hm₁ => hnext result m₁ content hm₁

theorem ofExcept (result : Except Error α) : (Eval.ofExcept result).Spares cell := by
  rcases result with cause | result
  · exact .fail cause
  · exact .pure result

theorem read (look : Machine → α) : (Eval.read look).Spares cell :=
  fun m _ hm => .value (look m) hm

theorem writing (look : Machine → Rendering) : (Eval.writing look).Spares cell := by
  refine .bind (.read look) ?_
  intro written
  rcases written with _ | text
  · exact .fail _
  · exact .pure text

theorem update {change : Machine → Machine} (h : ∀ m, (change m).cells = m.cells) :
    (Eval.update change).Spares cell := by
  intro m content hm
  refine .value () ?_
  rw [h, hm]

theorem newFrame (bindings : Frame) : (Eval.newFrame bindings).Spares cell :=
  fun _ _ hm => .value _ hm

theorem define (scope : Scope) (name : String) (value : Value) :
    (Eval.define scope name value).Spares cell :=
  .update fun _ => rfl

theorem newClosure (isMacro : Bool) (closure : Closure) :
    (Eval.newClosure isMacro closure).Spares cell :=
  fun _ _ hm => .value _ hm

/-- A new atom has a cell of its own. -/
theorem newAtom (value : Value) : (Eval.newAtom value).Spares cell := by
  intro m content hm
  have hlt : cell < m.cells.size := (Array.getElem?_eq_some_iff.mp hm).1
  refine .value _ ?_
  rw [Array.getElem?_push, if_neg (by omega), hm]

theorem replace {other : Nat} (hother : other ≠ cell) (value : Value) :
    (Eval.replace other value).Spares cell := by
  intro m content hm
  refine .value () ?_
  rw [Array.getElem?_setIfInBounds_ne hother, hm]

theorem printLine (text : String) : (Eval.printLine text).Spares cell :=
  .update fun _ => rfl

theorem refuseCall (value : Value) : (refuseCall value : Eval α).Spares cell :=
  fun _ _ hm => .error _ hm

theorem enterClosure (isMacro : Bool) (code : Nat) (arguments : List Value) :
    (enterClosure isMacro code arguments).Spares cell := by
  refine .bind (.read _) ?_
  intro found
  rcases found with _ | closure
  · exact .refuseCall _
  · exact .bind (.ofExcept _) fun _ => .bind (.newFrame _) fun _ => .pure _

theorem bindMacro (scope : Scope) (name : String) (value : Value) :
    (bindMacro scope name value).Spares cell := by
  unfold Lisplet.bindMacro
  split
  · refine .bind (.read _) ?_
    intro found
    rcases found with _ | closure
    · exact .refuseCall _
    · exact .bind (.newClosure _ _) fun _ => .bind (.define _ _ _) fun _ => .pure _
  · exact .fail _

theorem makeFunction (scope : Scope) (parameters : Value) (body : List Value) :
    (makeFunction scope parameters body).Spares cell :=
  .bind (.ofExcept _) fun _ => .newClosure _ _

/-- Of the primitives only `reset!` writes to a cell, that of the atom it is given. -/
theorem of_call? {p : Primitive} {arguments : List Value} {act : Eval Value}
    (h : p.call? arguments = some act)
    (hreset : p = .reset → ∀ content, arguments ≠ [.atom cell, content]) : act.Spares cell := by
  unfold Primitive.call? at h
  split at h <;> cases h
  case h_3 _ operation _ _ =>
      refine .bind (.ofExcept _) ?_
      intro numbers
      rcases operation.total numbers with fault | n
      · exact .fail _
      · exact .pure _
  case h_29 target content =>
      cases target with
      | atom other =>
          have hother : other ≠ cell := by
            rintro rfl
            exact hreset rfl content rfl
          have hspares : (do Eval.replace other content; return content : Eval Value).Spares cell :=
            .bind (.replace hother _) fun _ => .pure _
          exact hspares
      | _ => exact .fail _
  all_goals first
    | exact .pure _
    | exact .ofExcept _
    | exact .newAtom _
    | exact .bind (.ofExcept _) fun _ => .pure _
    | exact .bind (.ofExcept _) fun _ => .ofExcept _
    | exact .bind (.ofExcept _) fun _ => .read _
    | exact .bind (.writing _) fun _ => .pure _
    | exact .bind (.writing _) fun _ => .bind (.printLine _) fun _ => .pure _
    | exact .bind (.ofExcept _) fun _ => .bind (.read _) fun _ =>
        .bind (.ofExcept _) fun _ => .pure _

end Eval.Spares

section

variable {evaluator : Evaluator} {scope : Scope} {m : Machine}

/-- Forms that are evaluated in turn leave the content if each does, evaluated after
those before it. -/
theorem evaluateAll_leaves {forms : List Value}
    (hforms : ∀ earlier form later values m₁, forms = earlier ++ form :: later →
      evaluateAll evaluator scope earlier m = .value values m₁ → m₁.cells[cell]? = some content →
      (evaluator form scope m₁).Leaves cell content)
    (hm : m.cells[cell]? = some content) :
    (evaluateAll evaluator scope forms m).Leaves cell content := by
  induction forms generalizing m with
  | nil => exact .value [] hm
  | cons form forms ih =>
      rw [evaluateAll, Eval.bind_apply]
      refine (hforms [] form forms [] m rfl rfl hm).andThen ?_
      intro value m₁ hform hm₁
      refine (ih ?_ hm₁).andThen fun _ _ _ hm₂ => .value _ hm₂
      intro earlier next later values m₂ hsplit hearlier hm₂
      refine hforms (form :: earlier) next later (value :: values) m₂ (by rw [hsplit]; rfl) ?_ hm₂
      rw [evaluateAll, Eval.bind_apply, hform, Outcome.andThen_value, Eval.bind_apply, hearlier]
      rfl

theorem evaluateEach_leaves {forms : List Value}
    (hforms : ∀ earlier form later m₁, forms = earlier ++ form :: later →
      evaluateEach evaluator scope earlier m = .value () m₁ → m₁.cells[cell]? = some content →
      (evaluator form scope m₁).Leaves cell content)
    (hm : m.cells[cell]? = some content) :
    (evaluateEach evaluator scope forms m).Leaves cell content := by
  induction forms generalizing m with
  | nil => exact .value () hm
  | cons form forms ih =>
      rw [evaluateEach, Eval.bind_apply]
      refine (hforms [] form forms m rfl rfl hm).andThen ?_
      intro value m₁ hform hm₁
      refine ih ?_ hm₁
      intro earlier next later m₂ hsplit hearlier hm₂
      refine hforms (form :: earlier) next later m₂ (by rw [hsplit]; rfl) ?_ hm₂
      rw [evaluateEach, Eval.bind_apply, hform]
      exact hearlier

theorem bindInTurn_leaves {bindings : List (Value × Value)}
    (hforms : ∀ earlier name form later m₁, bindings = earlier ++ (.symbol name, form) :: later →
      bindInTurn evaluator scope earlier m = .value () m₁ → m₁.cells[cell]? = some content →
      (evaluator form scope m₁).Leaves cell content)
    (hm : m.cells[cell]? = some content) :
    (bindInTurn evaluator scope bindings m).Leaves cell content := by
  induction bindings generalizing m with
  | nil => exact .value () hm
  | cons binding bindings ih =>
      obtain ⟨target, form⟩ := binding
      rcases target.symbol_or_other with ⟨name, rfl⟩ | hname
      · rw [bindInTurn, Eval.bind_apply]
        refine (hforms [] name form bindings m rfl rfl hm).andThen ?_
        intro value m₁ hform hm₁
        refine ih ?_ (hm₁ : (m₁.define scope name value).cells[cell]? = some content)
        intro earlier other next later m₂ hsplit hearlier hm₂
        refine hforms ((.symbol name, form) :: earlier) other next later m₂ (by rw [hsplit]; rfl)
          ?_ hm₂
        rw [bindInTurn, Eval.bind_apply, hform]
        exact hearlier
      · cases target with
        | symbol name => exact (hname name rfl).elim
        | _ => exact .error _ hm

theorem callClosure_leaves {isMacro : Bool} {code : Nat} {arguments : List Value}
    (hbody : ∀ body inner m₁, enterClosure isMacro code arguments m = .value (body, inner) m₁ →
      m₁.cells[cell]? = some content → (evaluator body inner m₁).Leaves cell content)
    (hm : m.cells[cell]? = some content) :
    (callClosure evaluator isMacro code arguments m).Leaves cell content := by
  rw [callClosure, Eval.bind_apply]
  refine (Eval.Spares.enterClosure _ _ _ m content hm).andThen ?_
  intro entered m₁ henter hm₁
  exact hbody entered.1 entered.2 m₁ henter hm₁

end

/-- Expansion leaves the content if every macro that it comes to does. -/
theorem expandFully_leaves {evaluator : Evaluator} {s : Situation} {count : Nat}
    (hbodies : ∀ s' part, ReflTransGen (Expands evaluator) s s' → s'.EntersMacro part →
      part.machine.cells[cell]? = some content →
      (evaluator part.form part.scope part.machine).Leaves cell content)
    (hs : s.machine.cells[cell]? = some content) :
    (expandFully evaluator count s.form s.scope s.machine).Leaves cell content := by
  induction count generalizing s with
  | zero => exact .unfinished
  | succ count ih =>
      rcases hmacroCall : s.machine.macroCall? s.scope s.form with _ | ⟨code, arguments⟩
      · rw [expandFully_of_none hmacroCall]
        exact .value _ hs
      · rw [expandFully_of_some hmacroCall]
        refine (callClosure_leaves ?_ hs).andThen ?_
        · intro body inner m₁ henter hm₁
          exact hbodies s ⟨body, inner, m₁⟩ .refl ⟨code, arguments, hmacroCall, henter⟩ hm₁
        · intro expansion m₁ hexpansion hm₁
          have hexpands : Expands evaluator s ⟨expansion, s.scope, m₁⟩ :=
            .intro hmacroCall hexpansion
          refine @ih ⟨expansion, s.scope, m₁⟩ ?_ hm₁
          intro s' part hmore hentry hpart
          exact hbodies s' part (.head hexpands hmore) hentry hpart

/-- A call leaves the content if it does not write to the cell by itself and what it
evaluates leaves it. -/
theorem apply_leaves {evaluator : Evaluator} {function : Value} {arguments : List Value}
    {m : Machine}
    (hparts : ∀ part, Invokes function arguments m part →
      part.machine.cells[cell]? = some content →
      (evaluator part.form part.scope part.machine).Leaves cell content)
    (hwrites : ¬ Writes evaluator cell function arguments m)
    (hm : m.cells[cell]? = some content) :
    (apply evaluator function arguments m).Leaves cell content := by
  induction function, arguments using call_induction generalizing m with
  | closure code arguments =>
      have hcall := @callClosure_leaves cell content evaluator m false code arguments
        fun body inner m₁ henter hm₁ => hparts ⟨body, inner, m₁⟩ (.closure henter) hm₁
      rw [apply_closure]
      exact hcall hm
  | primitive native p act arguments hoperation hcall =>
      rw [apply_primitive _ hoperation hcall]
      refine Eval.Spares.of_call? hcall ?_ m content hm
      rintro rfl value rfl
      exact hwrites (.reset hoperation)
  | swap native target updater others hoperation ih =>
      cases target with
      | atom other =>
          rw [apply_swap_atom hoperation]
          refine (ih (m.cells[other]?.getD .nil) ?_ ?_ hm).andThen ?_
          · intro part hinvokes hpart
            exact hparts part (.swap hoperation hinvokes) hpart
          · intro hupdater
            exact hwrites (.updater hoperation hupdater)
          · intro result m₁ hresult hm₁
            have hother : other ≠ cell := by
              rintro rfl
              exact hwrites (.swap hoperation hresult)
            exact (Eval.Spares.bind (.replace hother result) fun _ => .pure result) m₁ content hm₁
      | _ =>
          rw [apply_swap _ hoperation]
          exact .error _ hm
  | evaluate native root form hoperation =>
      rw [apply_evaluate _ _ hoperation]
      exact hparts ⟨form, root, m⟩ (.evaluate hoperation) hm
  | countArguments native arity arguments hoperation haccepts =>
      rw [apply_countArguments _ hoperation haccepts]
      exact .value _ hm
  | wrongCount native arguments hcount =>
      rw [apply_wrongCount _ hcount]
      exact .error _ hm
  | notCallable function arguments hcallable =>
      rw [apply_notCallable _ hcallable]
      exact .error _ hm

section

variable {evaluator : Evaluator} {s : Situation} {steps : Nat}
  (hparts : ∀ part, Enters evaluator s part → part.machine.cells[cell]? = some content →
    (evaluator part.form part.scope part.machine).Leaves cell content)
include hparts

theorem inTurn_leaves {forms : List Value} (hforms : s.InTurn forms)
    (hs : s.machine.cells[cell]? = some content) :
    (evaluateAll evaluator s.scope forms s.machine).Leaves cell content := by
  refine evaluateAll_leaves ?_ hs
  rintro earlier form later values m₁ rfl hearlier hm₁
  exact hparts _ (.inTurn hforms hearlier) hm₁

theorem stepSpecial_leaves {special : Special} (hspecial : s.IsSpecial special)
    (hs : s.machine.cells[cell]? = some content) :
    (stepSpecial steps evaluator s.scope special s.machine).Leaves cell content := by
  cases special with
  | define target form =>
      rcases target.symbol_or_other with ⟨name, rfl⟩ | hname
      · rw [stepSpecial_define]
        refine ((hparts _ (.operand hspecial rfl) hs).andThen ?_).map _
        intro value m₁ _ hm₁
        exact .value value hm₁
      · rw [stepSpecial_defineTarget _ _ _ hname]
        exact .error _ hs
  | defineMacro target form =>
      rcases target.symbol_or_other with ⟨name, rfl⟩ | hname
      · rw [stepSpecial_defineMacro]
        refine ((hparts _ (.operand hspecial rfl) hs).andThen ?_).map _
        intro value m₁ _ hm₁
        exact Eval.Spares.bindMacro _ _ value m₁ content hm₁
      · rw [stepSpecial_defineMacroTarget _ _ _ hname]
        exact .error _ hs
  | bind bindings body =>
      rcases hforms : bindingForms .bind bindings with own | forms
      · simp only [stepSpecial, Eval.bind_apply, hforms]
        exact .error own hs
      · rcases hpairs : pairs? forms with _ | pairs
        · simp only [stepSpecial, Eval.bind_apply, hforms, Eval.ofExcept_ok,
            Outcome.andThen_value, hpairs]
          exact .error _ hs
        · have hopened : s.opened.cells[cell]? = some content := hs
          rw [stepBind hforms hpairs]
          refine (bindInTurn_leaves ?_ hopened).andThen ?_
          · intro earlier name form later m₁ hsplit hearlier hm₁
            rw [hsplit] at hpairs
            exact hparts _ (.binding hspecial hforms hpairs hearlier) hm₁
          · intro _ m₁ _ hm₁
            exact .value _ hm₁
  | sequence forms =>
      rcases forms.eq_nil_or_concat' with rfl | ⟨earlier, last, rfl⟩
      · exact .value _ hs
      · simp only [stepSpecial, List.getLast?_concat, List.dropLast_concat, Eval.bind_apply]
        refine (evaluateEach_leaves ?_ hs).andThen ?_
        · intro before form later m₁ hsplit hbefore hm₁
          rw [hsplit, List.append_assoc, List.cons_append] at hspecial
          exact hparts _ (.sequence hspecial (by simp) hbefore) hm₁
        · intro _ m₁ _ hm₁
          exact .value _ hm₁
  | branch condition consequent alternative =>
      simp only [stepSpecial, Eval.bind_apply]
      refine (hparts _ (.operand hspecial rfl) hs).andThen ?_
      intro value m₁ _ hm₁
      split
      · exact .value _ hm₁
      · cases alternative with
        | none => exact .value _ hm₁
        | some form => exact .value _ hm₁
  | function parameters body =>
      rw [stepSpecial_function]
      exact (Eval.Spares.makeFunction _ _ _ s.machine content hs).map _
  | quote | quasiquote | quasiquoteExpand => exact .value _ hs
  | macroExpand form =>
      rw [stepSpecial_macroExpand]
      refine (@expandFully_leaves _ _ _ ⟨form, s.scope, s.machine⟩ _ ?_ hs).map _
      intro s' part hexpands hentry hpart
      exact hparts part (.expansion hspecial hexpands hentry) hpart

variable
  (hcalls : ∀ head operands function arguments m, s.IsCall head operands →
    evaluateAll evaluator s.scope (head :: operands) s.machine =
      .value (function :: arguments) m → ¬ Writes evaluator cell function arguments m)
include hcalls

theorem finishCall_leaves {head function : Value} {operands arguments : List Value} {m : Machine}
    (hcall : s.IsCall head operands)
    (hvalues : evaluateAll evaluator s.scope (head :: operands) s.machine =
      .value (function :: arguments) m) (hm : m.cells[cell]? = some content) :
    (finishCall evaluator head function arguments m).Leaves cell content := by
  by_cases hfunction : ∀ code, function ≠ .closure false code
  · rw [finishCall_other _ _ hfunction]
    refine (apply_leaves ?_ (hcalls _ _ _ _ _ hcall hvalues) hm).map _
    intro part hinvokes hpart
    exact hparts part (.call hcall hvalues hfunction hinvokes) hpart
  · push Not at hfunction
    obtain ⟨code, rfl⟩ := hfunction
    rw [finishCall_closure]
    refine ((Eval.Spares.enterClosure _ _ _ m content hm).noted _).andThen ?_
    intro entered m₁ _ hm₁
    exact .value _ hm₁

theorem ownStep_list_leaves {head : Value} {operands : List Value}
    (hform : s.form = .list (head :: operands)) (hs : s.machine.cells[cell]? = some content) :
    (s.ownStep steps evaluator).Leaves cell content := by
  rcases hmacroCall : s.machine.macroCall? s.scope s.form with _ | ⟨code, arguments⟩
  · rcases hhead : head.specialForm? with _ | special
    · have hcall : s.IsCall head operands := ⟨hform, hmacroCall, hhead⟩
      rw [ownStep_call hcall]
      refine (inTurn_leaves hparts (.inr (.inr ⟨head, operands, rfl, hcall⟩)) hs).andThen ?_
      intro values m₁ hvalues hm₁
      obtain ⟨function, arguments, rfl⟩ := exists_cons_of_evaluateAll hvalues
      exact finishCall_leaves hparts hcalls hcall hvalues hm₁
    · obtain ⟨name, rfl, hname⟩ := head.exists_symbol_of_specialForm? hhead
      rcases hplace : special.place? operands with _ | placed
      · rw [hform] at hmacroCall
        simp only [Situation.ownStep, hform]
        rw [stepList_wrongCount steps hmacroCall hname hplace]
        exact .error _ hs
      · have hspecial : s.IsSpecial placed :=
          ⟨name, special, operands, hform, hmacroCall, hname, hplace⟩
        rw [ownStep_special hspecial]
        exact stepSpecial_leaves hparts hspecial hs
  · rw [ownStep_macroCall hmacroCall]
    refine (callClosure_leaves ?_ hs).map _
    intro body inner m₁ henter hm₁
    exact hparts ⟨body, inner, m₁⟩ (.macroBody ⟨code, arguments, hmacroCall, henter⟩) hm₁

/-- A step leaves the content if the parts that it comes to do, and it is at no call that
writes to the cell by itself. -/
theorem step_leaves (hs : s.machine.cells[cell]? = some content) :
    (step steps evaluator s.form s.scope s.machine).Leaves cell content := by
  rcases hform : s.form with _ | _ | _ | name | _ | items | items | entries | _ | _ | _
  case list =>
      rcases items with _ | ⟨head, operands⟩
      · exact .value _ hs
      · rw [← hform, step_list hform]
        exact (ownStep_list_leaves hparts hcalls hform hs).noted _
  case symbol =>
      simp only [step, Eval.bind_apply, Eval.read_apply, Outcome.andThen_value]
      rcases s.machine.lookup? s.scope name with _ | value
      · exact .error _ hs
      · exact .value _ hs
  case vector =>
      rw [step_vector]
      exact ((inTurn_leaves hparts (.inl hform) hs).map _).map _
  case map =>
      rw [step_map]
      exact ((inTurn_leaves hparts (.inr (.inl hform)) hs).map _).map _
  all_goals exact .value _ hs

end

/-- A part leaves the content if the run of it does. -/
theorem evaluateWithin_leaves {steps : Nat} {s : Situation}
    (hrun : s.machine.depth < maxDepth →
      (run steps s.form s.scope s.deeper.machine).Leaves cell content)
    (hs : s.machine.cells[cell]? = some content) :
    (evaluateWithin steps s.form s.scope s.machine).Leaves cell content := by
  by_cases hdepth : s.machine.depth < maxDepth
  · have hnested : evaluateWithin steps s.form s.scope s.machine =
        (run steps s.form s.scope s.deeper.machine).leave := nested_of_lt _ hdepth
    rw [hnested]
    exact (hrun hdepth).leave
  · have hlimit : evaluateWithin steps s.form s.scope s.machine =
        .error (.evaluation .tooDeep none) s.machine := nested_of_not_lt _ hdepth
    rw [hlimit]
    exact .error _ hs

/-- Whatever a run comes to, it leaves a cell that it does not write to with its content. -/
theorem run_leaves {steps : Nat} {s : Situation} (hwrites : ¬ RunWrites cell steps s)
    (hs : s.machine.cells[cell]? = some content) :
    (run steps s.form s.scope s.machine).Leaves cell content := by
  induction steps generalizing s with
  | zero => exact .unfinished
  | succ steps ih =>
      rw [run_succ, Eval.bind_apply]
      refine (step_leaves ?_ ?_ hs).andThen ?_
      · intro part hpart hcontent
        refine evaluateWithin_leaves ?_ hcontent
        intro hdepth
        exact @ih part.deeper (fun hpartWrites => hwrites (.part hpart hdepth hpartWrites)) hcontent
      · intro head operands function arguments m hcall hvalues hcallWrites
        exact hwrites (.call hcall hvalues hcallWrites)
      · intro ended m hstep hm
        rcases ended with value | ⟨form, scope⟩
        · exact .value value hm
        · exact @ih ⟨form, scope, m⟩ (fun htailWrites => hwrites (.tail hstep htailWrites)) hm

theorem apply_leaves_of_not_callWrites {steps : Nat} {function : Value} {arguments : List Value}
    {m : Machine} (hwrites : ¬ CallWrites cell steps function arguments m)
    (hm : m.cells[cell]? = some content) :
    (apply (evaluateWithin steps) function arguments m).Leaves cell content := by
  refine apply_leaves ?_ (fun hself => hwrites (.inl hself)) hm
  intro part hinvokes hpart
  refine evaluateWithin_leaves ?_ hpart
  intro hdepth
  refine @run_leaves cell content steps part.deeper ?_ hpart
  intro hpartWrites
  exact hwrites (.inr ⟨part, hinvokes, hdepth, hpartWrites⟩)

end

end Lisplet
