/-
Templates without gaps.  A template in which nothing is unquoted is itself, up to the
vectors and maps in it: these are evaluated like any others, and their values stand in
their places.
-/
import Lisplet.Proofs.Instantiation
import Lisplet.Proofs.RootScope

namespace Lisplet

mutual

/-- Does no form in the value unquote or splice, at any depth? -/
def Value.isGapless : Value → Bool
  | .list items =>
      ((Value.list items).argumentOf? "unquote").isNone &&
        ((Value.list items).argumentOf? "splice-unquote").isNone && allGapless items
  | .vector items | .map items => allGapless items
  | _ => true

def allGapless : List Value → Bool
  | [] => true
  | item :: items => item.isGapless && allGapless items

end

mutual

/-- Does the value evaluate to itself anywhere? -/
def Value.isSelfEvaluating : Value → Bool
  | .symbol _ => false
  | .list items => items.isEmpty
  | .vector items | .map items => allSelfEvaluating items
  | _ => true

def allSelfEvaluating : List Value → Bool
  | [] => true
  | item :: items => item.isSelfEvaluating && allSelfEvaluating items

end

mutual

/-- The value is the template with its vectors and maps replaced, in order, by the others. -/
inductive Refills : Value → List Value → Value → Prop
  | vector {items value} : Refills (.vector items) [value] value
  | map {entries value} : Refills (.map entries) [value] value
  | list {items values refilled} (hitems : RefillsAll items values refilled) :
      Refills (.list items) values (.list refilled)
  | symbol {name} : Refills (.symbol name) [] (.symbol name)
  | plain {template} (hconstant : template.IsConstant) : Refills template [] template

inductive RefillsAll : List Value → List Value → List Value → Prop
  | nil : RefillsAll [] [] []
  | cons {item items values others value rest} (hitem : Refills item values value)
      (hitems : RefillsAll items others rest) :
      RefillsAll (item :: items) (values ++ others) (value :: rest)

end

variable {scope : Scope} {m after : Machine}

theorem YieldsAll.length_eq {forms values : List Value} (h : YieldsAll scope forms m values after) :
    values.length = forms.length := by
  induction forms generalizing m values with
  | nil => rw [(yieldsAll_nil_iff.mp h).1]
  | cons form forms ih =>
      obtain ⟨value, m₁, rest, -, hforms, rfl⟩ := yieldsAll_cons_iff.mp h
      rw [List.length_cons, List.length_cons, ih hforms]

/-- Forms that are evaluated in turn are evaluated one part after the other. -/
theorem YieldsAll.of_append {first second values : List Value}
    (h : YieldsAll scope (first ++ second) m values after) :
    ∃ front m₁ back, YieldsAll scope first m front m₁ ∧ YieldsAll scope second m₁ back after ∧
      values = front ++ back := by
  induction first generalizing m values with
  | nil => exact ⟨[], m, values, yieldsAll_nil_iff.mpr ⟨rfl, rfl⟩, h, rfl⟩
  | cons form forms ih =>
      obtain ⟨value, m₁, rest, hform, hforms, rfl⟩ := yieldsAll_cons_iff.mp h
      obtain ⟨front, m₂, back, hfront, hback, rfl⟩ := ih hforms
      exact ⟨value :: front, m₂, back,
        yieldsAll_cons_iff.mpr ⟨value, m₁, front, hform, hfront, rfl⟩, hback, rfl⟩

mutual

theorem Yields.selfEvaluating {value : Value} (h : value.isSelfEvaluating = true) :
    Yields scope value m value m := by
  match value with
  | .symbol _ => cases h
  | .list [] => exact .constant trivial
  | .list (_ :: _) => cases h
  | .vector items =>
      obtain ⟨n, hitems⟩ := YieldsAll.selfEvaluating h
      exact ⟨n + 1, .vector hitems⟩
  | .map entries =>
      obtain ⟨n, hentries⟩ := YieldsAll.selfEvaluating h
      exact ⟨n + 1, .map hentries⟩
  | .nil | .bool _ | .number _ | .string _ | .atom _ | .closure _ _ | .native _ =>
      exact .constant trivial

theorem YieldsAll.selfEvaluating {values : List Value} (h : allSelfEvaluating values = true) :
    YieldsAll scope values m values m := by
  match values with
  | [] => exact yieldsAll_nil_iff.mpr ⟨rfl, rfl⟩
  | value :: values =>
      obtain ⟨hvalue, hvalues⟩ := Bool.and_eq_true_iff.mp h
      exact yieldsAll_cons_iff.mpr
        ⟨value, m, values, Yields.selfEvaluating hvalue, YieldsAll.selfEvaluating hvalues, rfl⟩

end

theorem not_unquote_of_isGapless {template : Value} (h : template.isGapless = true) :
    template.argumentOf? "unquote" = none := by
  cases template with
  | list items =>
      rw [Value.isGapless, Bool.and_eq_true, Bool.and_eq_true] at h
      exact Option.isNone_iff_eq_none.mp h.1.1
  | _ => rfl

theorem not_splice_of_isGapless {template : Value} (h : template.isGapless = true) :
    template.argumentOf? "splice-unquote" = none := by
  cases template with
  | list items =>
      rw [Value.isGapless, Bool.and_eq_true, Bool.and_eq_true] at h
      exact Option.isNone_iff_eq_none.mp h.1.2
  | _ => rfl

theorem allGapless_of_list {items : List Value} (h : (Value.list items).isGapless = true) :
    allGapless items = true := by
  rw [Value.isGapless, Bool.and_eq_true] at h
  exact h.2

theorem embedded_of_isGapless {items : List Value} (h : (Value.list items).isGapless = true) :
    (Value.list items).embedded = embeddedItems items := by
  rw [Value.embedded, not_unquote_of_isGapless h]

theorem embeddedItems_of_isGapless {item : Value} (h : item.isGapless = true)
    (items : List Value) :
    embeddedItems (item :: items) = item.embedded ++ embeddedItems items := by
  rw [embeddedItems, not_splice_of_isGapless h]

mutual

/-- What is embedded in a template without gaps are its vectors and maps. -/
theorem refills_self {template : Value} (h : template.isGapless = true) :
    Refills template template.embedded template := by
  match template with
  | .list items =>
      rw [embedded_of_isGapless h]
      exact .list (refillsAll_self (allGapless_of_list h))
  | .symbol name => exact .symbol
  | .vector items => exact .vector
  | .map entries => exact .map
  | .nil | .bool _ | .number _ | .string _ | .atom _ | .closure _ _ | .native _ =>
      exact .plain trivial

theorem refillsAll_self {items : List Value} (h : allGapless items = true) :
    RefillsAll items (embeddedItems items) items := by
  match items with
  | [] => exact .nil
  | item :: items =>
      obtain ⟨hitem, hitems⟩ := Bool.and_eq_true_iff.mp h
      rw [embeddedItems_of_isGapless hitem]
      exact .cons (refills_self hitem) (refillsAll_self hitems)

end

mutual

theorem Refills.length_eq : ∀ {template value : Value} {values : List Value},
    Refills template values value → template.isGapless = true →
    values.length = template.embedded.length
  | _, _, _, .vector, _ | _, _, _, .map, _ => rfl
  | _, _, _, .list hitems, h => by
      rw [embedded_of_isGapless h]
      exact hitems.length_eq (allGapless_of_list h)
  | _, _, _, .symbol, _ => rfl
  | _, _, _, .plain hconstant, _ => by rw [embedded_of_isConstant hconstant]

theorem RefillsAll.length_eq : ∀ {items refilled values : List Value},
    RefillsAll items values refilled → allGapless items = true →
    values.length = (embeddedItems items).length
  | _, _, _, .nil, _ => rfl
  | _, _, _, .cons hitem hitems, h => by
      obtain ⟨hgapless, hrest⟩ := Bool.and_eq_true_iff.mp h
      rw [embeddedItems_of_isGapless hgapless, List.length_append, List.length_append,
        hitem.length_eq hgapless, hitems.length_eq hrest]

end

mutual

theorem Instantiates.refills : ∀ {template value : Value} {m after : Machine},
    Instantiates scope template m value after → template.isGapless = true →
    ∃ values, YieldsAll scope template.embedded m values after ∧ Refills template values value
  | _, _, _, _, .unquote hform _, h => by
      rw [not_unquote_of_isGapless h] at hform
      cases hform
  | _, _, _, _, .list _ hitems, h => by
      rw [embedded_of_isGapless h]
      obtain ⟨values, hvalues, hrefills⟩ := hitems.refills (allGapless_of_list h)
      exact ⟨values, hvalues, .list hrefills⟩
  | _, _, _, _, .symbol, _ => ⟨[], yieldsAll_nil_iff.mpr ⟨rfl, rfl⟩, .symbol⟩
  | _, _, _, _, .vector hvalue, _ => ⟨_, yieldsAll_singleton_iff.mpr ⟨_, hvalue, rfl⟩, .vector⟩
  | _, _, _, _, .map hvalue, _ => ⟨_, yieldsAll_singleton_iff.mpr ⟨_, hvalue, rfl⟩, .map⟩
  | _, _, _, _, .plain hconstant, _ => by
      rw [embedded_of_isConstant hconstant]
      exact ⟨[], yieldsAll_nil_iff.mpr ⟨rfl, rfl⟩, .plain hconstant⟩

theorem InstantiatesItems.refills : ∀ {items refilled : List Value} {m after : Machine},
    InstantiatesItems scope items m refilled after → allGapless items = true →
    ∃ values, YieldsAll scope (embeddedItems items) m values after ∧
      RefillsAll items values refilled
  | _, _, _, _, .nil, _ => ⟨[], yieldsAll_nil_iff.mpr ⟨rfl, rfl⟩, .nil⟩
  | _, _, _, _, .splice hform _ _ _, h => by
      rw [not_splice_of_isGapless (Bool.and_eq_true_iff.mp h).1] at hform
      cases hform
  | _, _, _, _, .item _ hvalue hitems, h => by
      obtain ⟨hgapless, hrest⟩ := Bool.and_eq_true_iff.mp h
      obtain ⟨values, hvalues, hrefills⟩ := hvalue.refills hgapless
      obtain ⟨others, hothers, hrefillsAll⟩ := hitems.refills hrest
      rw [embeddedItems_of_isGapless hgapless]
      exact ⟨values ++ others, hvalues.append hothers, .cons hrefills hrefillsAll⟩

end

mutual

theorem Refills.instantiates : ∀ {template value : Value} {values : List Value}
    {m after : Machine}, Refills template values value → template.isGapless = true →
    YieldsAll scope template.embedded m values after → Instantiates scope template m value after
  | _, _, _, _, _, .vector, _, hvalues => by
      obtain ⟨value, hvalue, hsame⟩ := yieldsAll_singleton_iff.mp hvalues
      cases hsame
      exact .vector hvalue
  | _, _, _, _, _, .map, _, hvalues => by
      obtain ⟨value, hvalue, hsame⟩ := yieldsAll_singleton_iff.mp hvalues
      cases hsame
      exact .map hvalue
  | _, _, _, _, _, .list hitems, h, hvalues => by
      rw [embedded_of_isGapless h] at hvalues
      exact .list (not_unquote_of_isGapless h)
        (hitems.instantiatesItems (allGapless_of_list h) hvalues)
  | _, _, _, _, _, .symbol, _, hvalues => by
      obtain ⟨-, rfl⟩ := yieldsAll_nil_iff.mp hvalues
      exact .symbol
  | _, _, _, _, _, .plain hconstant, _, hvalues => by
      rw [embedded_of_isConstant hconstant] at hvalues
      obtain ⟨-, rfl⟩ := yieldsAll_nil_iff.mp hvalues
      exact .plain hconstant

theorem RefillsAll.instantiatesItems : ∀ {items refilled values : List Value}
    {m after : Machine}, RefillsAll items values refilled → allGapless items = true →
    YieldsAll scope (embeddedItems items) m values after →
    InstantiatesItems scope items m refilled after
  | _, _, _, _, _, .nil, _, hvalues => by
      obtain ⟨-, rfl⟩ := yieldsAll_nil_iff.mp hvalues
      exact .nil
  | _, _, _, _, _, .cons hitem hitems, h, hvalues => by
      obtain ⟨hgapless, hrest⟩ := Bool.and_eq_true_iff.mp h
      rw [embeddedItems_of_isGapless hgapless] at hvalues
      obtain ⟨front, m₁, back, hfront, hback, hsplit⟩ := hvalues.of_append
      obtain ⟨rfl, rfl⟩ := List.append_inj hsplit <|
        (hitem.length_eq hgapless).trans hfront.length_eq.symm
      exact .item (not_splice_of_isGapless hgapless) (hitem.instantiates hgapless hfront)
        (hitems.instantiatesItems hrest hback)

end

/-- A template without gaps stands for itself with its vectors and maps evaluated in turn. -/
theorem instantiates_iff_of_isGapless {template value : Value} (h : template.isGapless = true) :
    Instantiates scope template m value after ↔
      ∃ values, YieldsAll scope template.embedded m values after ∧
        Refills template values value :=
  ⟨fun hinstance => hinstance.refills h,
    fun ⟨_, hvalues, hrefills⟩ => hrefills.instantiates h hvalues⟩

def quasiquoted (template : Value) : Value :=
  .list [.symbol SpecialForm.quasiquote.name, template]

/-- Quasiquoting a template evaluates its expansion, in tail position. -/
theorem evaluates_quasiquoted_iff {n : Nat} {template : Value} {outcome : Outcome Value}
    (hname : ∀ code, m.lookup? scope SpecialForm.quasiquote.name ≠ some (.closure true code)) :
    Evaluates (n + 1) (quasiquoted template) scope m outcome ↔
      Evaluates (n + 1) (expandTemplate template) scope m outcome := by
  have hrule (own : Outcome Value) : EvaluatesSpecial n (.quasiquote template) scope m own ↔
      Evaluates (n + 1) (expandTemplate template) scope m own := by
    refine ⟨fun h => ?_, .quasiquote⟩
    cases h with
    | quasiquote htail => exact htail
  rw [quasiquoted, evaluates_special_iff hname (by rfl) fun own hown =>
    ((hrule own).mp hown).inContext, hrule]

theorem yields_quasiquoted_iff {template value : Value}
    (hname : ∀ code, m.lookup? scope SpecialForm.quasiquote.name ≠ some (.closure true code)) :
    Yields scope (quasiquoted template) m value after ↔
      Yields scope (expandTemplate template) m value after := by
  constructor
  · rintro ⟨n, h⟩
    obtain ⟨n, rfl⟩ := h.exists_eq_succ
    exact ⟨n + 1, (evaluates_quasiquoted_iff hname).mp h⟩
  · rintro ⟨n, h⟩
    obtain ⟨n, rfl⟩ := h.exists_eq_succ
    exact ⟨n + 1, (evaluates_quasiquoted_iff hname).mpr h⟩

theorem allSelfEvaluating_of_append {front back : List Value}
    (h : allSelfEvaluating (front ++ back) = true) : allSelfEvaluating front = true := by
  induction front with
  | nil => rfl
  | cons value front ih =>
      obtain ⟨hvalue, hvalues⟩ := Bool.and_eq_true_iff.mp h
      exact Bool.and_eq_true_iff.mpr ⟨hvalue, ih hvalues⟩

/-- Values that evaluate to themselves disturb nothing. -/
theorem Machine.Standard.undisturbed (h : m.Standard scope) {forms : List Value}
    (hforms : allSelfEvaluating forms = true) : Undisturbed scope forms m := by
  rintro front ⟨back, rfl⟩ values after ⟨n, hvalues⟩
  have hfront := allSelfEvaluating_of_append hforms
  obtain ⟨n', hself⟩ : YieldsAll scope front m front m := YieldsAll.selfEvaluating hfront
  cases hself.unique hvalues
  exact h

/-- A template without gaps comes back as it is, and nothing happens, where its vectors and
maps are made of values that evaluate to themselves.  Others are evaluated in turn, and come
back as their values: where these leave the names alone that templates call, quasiquoting the
template succeeds with a value and a machine exactly when evaluating them does, and the value
is the template with theirs in their places. -/
theorem quasiquote_keeps_gapless_template (template : Value) (scope : Scope) (m : Machine)
    (hgapless : template.isGapless = true)
    (hname : ∀ code, m.lookup? scope SpecialForm.quasiquote.name ≠ some (.closure true code))
    (hstandard : m.Standard scope) :
    (allSelfEvaluating template.embedded = true → ∃ enough, ∀ steps, enough ≤ steps →
      evaluateWithin steps (quasiquoted template) scope m = .value template m ∨
      (evaluateWithin steps (quasiquoted template) scope m).HitsDepthLimit) ∧
    (Undisturbed scope template.embedded m → ∀ value after,
      (∀ steps, evaluateWithin steps (quasiquoted template) scope m = .value value after →
        ∃ values, YieldsAll scope template.embedded m values after ∧
          Refills template values value) ∧
      ∀ values, YieldsAll scope template.embedded m values after →
        Refills template values value → ∃ enough, ∀ steps, enough ≤ steps →
          evaluateWithin steps (quasiquoted template) scope m = .value value after ∨
          (evaluateWithin steps (quasiquoted template) scope m).HitsDepthLimit) := by
  have hevaluated (h : Undisturbed scope template.embedded m) {value : Value} {after : Machine}
      {values : List Value} (hvalues : YieldsAll scope template.embedded m values after)
      (hrefills : Refills template values value) : ∃ enough, ∀ steps, enough ≤ steps →
        evaluateWithin steps (quasiquoted template) scope m = .value value after ∨
        (evaluateWithin steps (quasiquoted template) scope m).HitsDepthLimit := by
    have hinstance := (instantiates_iff_of_isGapless hgapless).mpr ⟨values, hvalues, hrefills⟩
    have hyields := hinstance.yields h
    obtain ⟨n, hderived⟩ := (yields_quasiquoted_iff hname).mpr hyields
    exact hderived.eventually_or_hits
  refine ⟨fun hself => ?_, fun h value after => ⟨fun steps houtcome => ?_, fun values => ?_⟩⟩
  · exact hevaluated (hstandard.undisturbed hself) (YieldsAll.selfEvaluating hself)
      (refills_self hgapless)
  · have hsettled : (evaluateWithin steps (quasiquoted template) scope m).Settled := by
      rw [houtcome]
      trivial
    have hderived := evaluateWithin_sound hsettled
    rw [houtcome] at hderived
    have hyields := (yields_quasiquoted_iff hname).mp ⟨_, hderived⟩
    exact (instantiates_iff_of_isGapless hgapless).mp (instantiates_of_yields h hyields)
  · exact hevaluated h

def plainTemplate : Value :=
  .list [.symbol "a", .vector [.number 1, .list []],
    .list [.map [.string "k", .vector [.bool true, .nil]], .symbol "b"]]

theorem quasiquote_keeps_gapless_template_plainTemplate :
    ∃ enough, ∀ steps, enough ≤ steps →
      evaluateWithin steps (quasiquoted plainTemplate) ⟨0, []⟩ templateMachine =
        .value plainTemplate templateMachine ∨
      (evaluateWithin steps (quasiquoted plainTemplate) ⟨0, []⟩
        templateMachine).HitsDepthLimit := by
  have hnone : templateMachine.lookup? ⟨0, []⟩ SpecialForm.quasiquote.name = none := rfl
  exact (quasiquote_keeps_gapless_template plainTemplate ⟨0, []⟩ templateMachine (by decide)
    (by rw [hnone]; nofun) ⟨⟨_, rfl, rfl⟩, ⟨_, rfl, rfl⟩, nofun⟩).1 (by decide)

def vectorOfCall : Value :=
  .vector [.list [.symbol "list", .number 1]]

/-- The vector has no gap, and yet another comes back: its item is evaluated. -/
theorem quasiquote_evaluates_vectorOfCall :
    vectorOfCall.isGapless = true ∧ (rootMachine noFiles).Standard ⟨0, []⟩ ∧
    (∀ steps, 10 ≤ steps →
      evaluateWithin steps (quasiquoted vectorOfCall) ⟨0, []⟩ (rootMachine noFiles) =
        .value (.vector [.list [.number 1]]) (rootMachine noFiles)) ∧
    ¬ ∃ enough, ∀ steps, enough ≤ steps →
      evaluateWithin steps (quasiquoted vectorOfCall) ⟨0, []⟩ (rootMachine noFiles) =
        .value vectorOfCall (rootMachine noFiles) ∨
      (evaluateWithin steps (quasiquoted vectorOfCall) ⟨0, []⟩
        (rootMachine noFiles)).HitsDepthLimit := by
  have hstandard : (rootMachine noFiles).Standard ⟨0, []⟩ := ⟨⟨_, rfl, rfl⟩, ⟨_, rfl, rfl⟩, nofun⟩
  have hlist : (rootMachine noFiles).Names ⟨0, []⟩ "list" .list := ⟨_, rfl, rfl⟩
  have hcalled : Yields ⟨0, []⟩ (expandTemplate vectorOfCall) (rootMachine noFiles)
      (.vector [.list [.number 1]]) (rootMachine noFiles) := by
    have hnumber : Evaluates 1 (.number 1) ⟨0, []⟩ (rootMachine noFiles)
        (.value (.number 1) (rootMachine noFiles)) := .constant trivial
    have hcall := hlist.evaluates rfl (.cons hnumber .nil) rfl rfl trivial
    exact ⟨3, .vector (.cons hcall .nil)⟩
  have hten : evaluateWithin 10 (quasiquoted vectorOfCall) ⟨0, []⟩ (rootMachine noFiles) =
      .value (.vector [.list [.number 1]]) (rootMachine noFiles) := by
    obtain ⟨value, after, hvalue⟩ : ∃ value after, evaluateWithin 10 (quasiquoted vectorOfCall)
        ⟨0, []⟩ (rootMachine noFiles) = .value value after :=
      Outcome.exists_of_isValue (by decide +kernel)
    have hnone : (rootMachine noFiles).lookup? ⟨0, []⟩ SpecialForm.quasiquote.name = none := rfl
    obtain ⟨n, hderived⟩ := (yields_quasiquoted_iff (by rw [hnone]; nofun)).mpr hcalled
    have hsettled : (evaluateWithin 10 (quasiquoted vectorOfCall) ⟨0, []⟩
        (rootMachine noFiles)).Settled := by
      rw [hvalue]
      trivial
    exact hderived.unique (evaluateWithin_sound hsettled)
  have hsum (steps : Nat) (hsteps : 10 ≤ steps) :
      evaluateWithin steps (quasiquoted vectorOfCall) ⟨0, []⟩ (rootMachine noFiles) =
        .value (.vector [.list [.number 1]]) (rootMachine noFiles) :=
    (evaluateWithin_prolongs hsteps _ _).of_value hten
  refine ⟨by decide, hstandard, hsum, ?_⟩
  rintro ⟨enough, henough⟩
  have hboth := henough (max enough 10) (Nat.le_max_left enough 10)
  rw [hsum _ (Nat.le_max_right enough 10)] at hboth
  rcases hboth with hsame | hlimit
  · cases hsame
  · exact hlimit

end Lisplet
