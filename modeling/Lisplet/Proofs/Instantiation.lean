/-
What a quasiquoted template stands for.  A template describes a structure with
gaps; to instantiate it is to evaluate what is embedded in it, once and from
left to right, and to put the values into the gaps.  The form that a template
expands to, a fold of calls of `cons` and `concat`, yields exactly that.
-/
import Lisplet.Proofs.CallRules
import Lisplet.Proofs.DepthLimit

namespace Lisplet

mutual

/-- Instantiating the template, from the machine, gives the value and leaves
the other machine. -/
inductive Instantiates (scope : Scope) : Value → Machine → Value → Machine → Prop
  /-- The two-item list `(unquote x)` gives the value of `x`. -/
  | unquote {template form m value after}
      (hform : template.argumentOf? "unquote" = some form)
      (hvalue : Yields scope form m value after) : Instantiates scope template m value after
  | list {items m values after} (hlist : (Value.list items).argumentOf? "unquote" = none)
      (hitems : InstantiatesItems scope items m values after) :
      Instantiates scope (.list items) m (.list values) after
  | symbol {name m} : Instantiates scope (.symbol name) m (.symbol name) m
  | vector {items m value after} (hvalue : Yields scope (.vector items) m value after) :
      Instantiates scope (.vector items) m value after
  | map {entries m value after} (hvalue : Yields scope (.map entries) m value after) :
      Instantiates scope (.map entries) m value after
  | plain {template m} (hconstant : template.IsConstant) : Instantiates scope template m template m

/-- The items of a list, in order: the items of a spliced sequence, or one item. -/
inductive InstantiatesItems (scope : Scope) :
    List Value → Machine → List Value → Machine → Prop
  | nil {m} : InstantiatesItems scope [] m [] m
  /-- The two-item list `(splice-unquote x)` stands for the items of the value of `x`. -/
  | splice {item items form m value m₁ front rest after}
      (hform : item.argumentOf? "splice-unquote" = some form)
      (hvalue : Yields scope form m value m₁) (hfront : value.items? = some front)
      (hitems : InstantiatesItems scope items m₁ rest after) :
      InstantiatesItems scope (item :: items) m (front ++ rest) after
  | item {item items m value m₁ rest after}
      (hitem : item.argumentOf? "splice-unquote" = none)
      (hvalue : Instantiates scope item m value m₁)
      (hitems : InstantiatesItems scope items m₁ rest after) :
      InstantiatesItems scope (item :: items) m (value :: rest) after

end

mutual

/-- The forms embedded in a template, in the order in which they are evaluated. -/
def Value.embedded : Value → List Value
  | .list items =>
      match (Value.list items).argumentOf? "unquote" with
      | some form => [form]
      | none => embeddedItems items
  | .vector items => [.vector items]
  | .map entries => [.map entries]
  | _ => []

def embeddedItems : List Value → List Value
  | [] => []
  | item :: items =>
      match item.argumentOf? "splice-unquote" with
      | some form => form :: embeddedItems items
      | none => item.embedded ++ embeddedItems items

end

/-- The names that the expansion of a template calls mean what they mean at first. -/
structure Machine.Standard (m : Machine) (scope : Scope) : Prop where
  cons : m.Names scope "cons" .cons
  concat : m.Names scope "concat" .concat
  quote : ∀ code, m.lookup? scope SpecialForm.quote.name ≠ some (.closure true code)

/-- None of the forms changes what these names mean, when they are evaluated one
after the other. -/
def Undisturbed (scope : Scope) (forms : List Value) (m : Machine) : Prop :=
  ∀ front, front <+: forms → ∀ values after, YieldsAll scope front m values after →
    after.Standard scope

variable {scope : Scope} {m after : Machine}

theorem Undisturbed.standard {forms : List Value} (h : Undisturbed scope forms m) :
    m.Standard scope :=
  h [] List.nil_prefix [] m (yieldsAll_nil_iff.mpr ⟨rfl, rfl⟩)

theorem Undisturbed.front {first second : List Value}
    (h : Undisturbed scope (first ++ second) m) : Undisturbed scope first m :=
  fun front hfront => h front (hfront.trans (List.prefix_append first second))

theorem Undisturbed.rest {first second values : List Value} {m₁ : Machine}
    (h : Undisturbed scope (first ++ second) m) (hfirst : YieldsAll scope first m values m₁) :
    Undisturbed scope second m₁ := by
  intro front hfront others after hothers
  exact h (first ++ front) (List.prefix_append_right_inj first |>.mpr hfront) _ _
    (hfirst.append hothers)

theorem embedded_of_isConstant {template : Value} (h : template.IsConstant) :
    template.embedded = [] := by
  cases template with
  | symbol | vector | map => exact h.elim
  | list items =>
      cases items with
      | nil => rfl
      | cons => exact h.elim
  | _ => rfl

theorem embedded_of_unquote {template form : Value}
    (h : template.argumentOf? "unquote" = some form) : template.embedded = [form] := by
  cases template with
  | list items => rw [Value.embedded, h]
  | _ => cases h

mutual

/-- To instantiate a template is to evaluate what is embedded in it, once each
and in order. -/
theorem Instantiates.yieldsAll : ∀ {template value : Value} {m after : Machine},
    Instantiates scope template m value after →
    ∃ values, YieldsAll scope template.embedded m values after
  | _, _, _, _, .unquote hform hvalue => by
      rw [embedded_of_unquote hform]
      exact ⟨_, yieldsAll_singleton_iff.mpr ⟨_, hvalue, rfl⟩⟩
  | _, _, _, _, .list hlist hitems => by
      rw [Value.embedded, hlist]
      exact hitems.yieldsAll
  | _, _, _, _, .symbol => ⟨[], yieldsAll_nil_iff.mpr ⟨rfl, rfl⟩⟩
  | _, _, _, _, .vector hvalue | _, _, _, _, .map hvalue =>
      ⟨_, yieldsAll_singleton_iff.mpr ⟨_, hvalue, rfl⟩⟩
  | _, _, _, _, .plain hconstant => by
      rw [embedded_of_isConstant hconstant]
      exact ⟨[], yieldsAll_nil_iff.mpr ⟨rfl, rfl⟩⟩

theorem InstantiatesItems.yieldsAll : ∀ {items values : List Value} {m after : Machine},
    InstantiatesItems scope items m values after →
    ∃ values, YieldsAll scope (embeddedItems items) m values after
  | _, _, _, _, .nil => ⟨[], yieldsAll_nil_iff.mpr ⟨rfl, rfl⟩⟩
  | _, _, _, _, .splice hform hvalue _ hitems => by
      obtain ⟨others, hothers⟩ := hitems.yieldsAll
      rw [embeddedItems, hform]
      exact ⟨_, yieldsAll_cons_iff.mpr ⟨_, _, others, hvalue, hothers, rfl⟩⟩
  | _, _, _, _, .item hitem hvalue hitems => by
      obtain ⟨values, hvalues⟩ := hvalue.yieldsAll
      obtain ⟨others, hothers⟩ := hitems.yieldsAll
      rw [embeddedItems, hitem]
      exact ⟨_, hvalues.append hothers⟩

end

theorem toItems_eq_ok_iff (operation : String) {value : Value} {items : List Value} :
    value.toItems operation = .ok items ↔ value.items? = some items := by
  rw [Value.toItems]
  split
  · next found hfound => simp [hfound]
  · next hnone => simp [hnone]

/-- A call of `cons` succeeds on a sequence, and changes nothing. -/
theorem call?_cons_iff {head tail value : Value} :
    (∃ act, Primitive.cons.call? [head, tail] = some act ∧ act m = .value value after) ↔
      ∃ items, tail.items? = some items ∧ value = .list (head :: items) ∧ after = m := by
  simp only [Primitive.call?, Option.some.injEq, exists_eq_left', Eval.bind_apply,
    ← toItems_eq_ok_iff "cons"]
  rcases tail.toItems "cons" with cause | items
  · simp [Eval.ofExcept_error]
  · simp [Eval.ofExcept_ok, Eval.pure_apply, eq_comm]

/-- A call of `concat` succeeds on sequences, and changes nothing. -/
theorem call?_concat_iff {front back value : Value} :
    (∃ act, Primitive.concat.call? [front, back] = some act ∧ act m = .value value after) ↔
      ∃ first second, front.items? = some first ∧ back.items? = some second ∧
        value = .list (first ++ second) ∧ after = m := by
  simp only [Primitive.call?, Option.some.injEq, exists_eq_left', Eval.bind_apply,
    ← toItems_eq_ok_iff "concat", List.mapM_cons, List.mapM_nil]
  rcases front.toItems "concat" with cause | first
  · simp [Eval.ofExcept_error, bind, Except.bind]
  · rcases back.toItems "concat" with cause | second
    · simp [Eval.ofExcept_error, bind, Except.bind]
    · simp [Eval.ofExcept_ok, Eval.pure, eq_comm, bind, Except.bind, pure, Except.pure]

theorem yields_cons_iff (h : m.Standard scope) {head tail value : Value} :
    Yields scope (.list [.symbol "cons", head, tail]) m value after ↔
      ∃ first m₁ sequence items, Yields scope head m first m₁ ∧
        Yields scope tail m₁ sequence after ∧ sequence.items? = some items ∧
        value = .list (first :: items) := by
  rw [yields_primitive_iff h.cons rfl]
  constructor
  · rintro ⟨arguments, m₁, act, harguments, hact⟩
    obtain ⟨first, m₂, sequence, hhead, htail, rfl⟩ := yieldsAll_pair_iff.mp harguments
    obtain ⟨items, hitems, hvalue, rfl⟩ := call?_cons_iff.mp ⟨act, hact⟩
    exact ⟨first, m₂, sequence, items, hhead, htail, hitems, hvalue⟩
  · rintro ⟨first, m₁, sequence, items, hhead, htail, hitems, hvalue⟩
    obtain ⟨act, hact⟩ := call?_cons_iff.mpr ⟨items, hitems, hvalue, rfl⟩
    exact ⟨[first, sequence], after, act,
      yieldsAll_pair_iff.mpr ⟨first, m₁, sequence, hhead, htail, rfl⟩, hact⟩

theorem yields_concat_iff (h : m.Standard scope) {front back value : Value} :
    Yields scope (.list [.symbol "concat", front, back]) m value after ↔
      ∃ first m₁ second firstItems secondItems, Yields scope front m first m₁ ∧
        Yields scope back m₁ second after ∧ first.items? = some firstItems ∧
        second.items? = some secondItems ∧ value = .list (firstItems ++ secondItems) := by
  rw [yields_primitive_iff h.concat rfl]
  constructor
  · rintro ⟨arguments, m₁, act, harguments, hact⟩
    obtain ⟨first, m₂, second, hfront, hback, rfl⟩ := yieldsAll_pair_iff.mp harguments
    obtain ⟨firstItems, secondItems, hfirst, hsecond, hvalue, rfl⟩ :=
      call?_concat_iff.mp ⟨act, hact⟩
    exact ⟨first, m₂, second, firstItems, secondItems, hfront, hback, hfirst, hsecond, hvalue⟩
  · rintro ⟨first, m₁, second, firstItems, secondItems, hfront, hback, hfirst, hsecond, hvalue⟩
    obtain ⟨act, hact⟩ :=
      call?_concat_iff.mpr ⟨firstItems, secondItems, hfirst, hsecond, hvalue, rfl⟩
    exact ⟨[first, second], after, act,
      yieldsAll_pair_iff.mpr ⟨first, m₁, second, hfront, hback, rfl⟩, hact⟩

theorem expandTemplate_of_isConstant {template : Value} (h : template.IsConstant) :
    expandTemplate template = template := by
  cases template with
  | symbol | vector | map => exact h.elim
  | list items =>
      cases items with
      | nil => rfl
      | cons => exact h.elim
  | _ => rfl

mutual

/-- What a template stands for its expansion yields. -/
theorem Instantiates.yields : ∀ {template value : Value} {m after : Machine},
    Instantiates scope template m value after → Undisturbed scope template.embedded m →
    Yields scope (expandTemplate template) m value after
  | _, _, _, _, .unquote hform hvalue, _ => by
      rw [expandTemplate_of_unquote hform]
      exact hvalue
  | _, _, _, _, .list hlist hitems, h => by
      rw [Value.embedded, hlist] at h
      rw [expandTemplate, hlist]
      exact hitems.yields h
  | _, _, _, _, .symbol, h => (yields_quote_iff h.standard.quote).mpr ⟨rfl, rfl⟩
  | _, _, _, _, .vector hvalue, _ | _, _, _, _, .map hvalue, _ => hvalue
  | _, _, _, _, .plain hconstant, _ => by
      rw [expandTemplate_of_isConstant hconstant]
      exact .constant hconstant

theorem InstantiatesItems.yields : ∀ {items values : List Value} {m after : Machine},
    InstantiatesItems scope items m values after → Undisturbed scope (embeddedItems items) m →
    Yields scope (expandItems items) m (.list values) after
  | _, _, _, _, .nil, _ => .constant trivial
  | _, _, _, _, .splice hform hvalue hfront hitems, h => by
      rw [embeddedItems, hform] at h
      have hrest := h.rest (yieldsAll_singleton_iff.mpr ⟨_, hvalue, rfl⟩)
      rw [expandItems, hform]
      exact (yields_concat_iff h.standard).mpr
        ⟨_, _, _, _, _, hvalue, hitems.yields hrest, hfront, rfl, rfl⟩
  | _, _, _, _, .item hitem hvalue hitems, h => by
      rw [embeddedItems, hitem] at h
      obtain ⟨values, hvalues⟩ := hvalue.yieldsAll
      rw [expandItems, hitem]
      exact (yields_cons_iff h.standard).mpr
        ⟨_, _, _, _, hvalue.yields h.front, hitems.yields (h.rest hvalues), rfl, rfl⟩

end

mutual

/-- What the expansion of a template yields the template stands for. -/
theorem instantiates_of_yields {template value : Value} {m after : Machine}
    (h : Undisturbed scope template.embedded m)
    (hyields : Yields scope (expandTemplate template) m value after) :
    Instantiates scope template m value after := by
  match template with
  | .list items =>
      rcases hform : (Value.list items).argumentOf? "unquote" with _ | form
      · rw [Value.embedded, hform] at h
        rw [expandTemplate, hform] at hyields
        obtain ⟨values, rfl, hitems⟩ := instantiatesItems_of_yields h hyields
        exact .list hform hitems
      · rw [expandTemplate, hform] at hyields
        exact .unquote hform hyields
  | .symbol name =>
      obtain ⟨rfl, rfl⟩ := (yields_quote_iff h.standard.quote).mp hyields
      exact .symbol
  | .vector items => exact .vector hyields
  | .map entries => exact .map hyields
  | .nil | .bool _ | .number _ | .string _ | .atom _ | .closure _ _ | .native _ =>
      obtain ⟨rfl, rfl⟩ := hyields.eq_of_constant trivial
      exact .plain trivial

theorem instantiatesItems_of_yields {items : List Value} {value : Value} {m after : Machine}
    (h : Undisturbed scope (embeddedItems items) m)
    (hyields : Yields scope (expandItems items) m value after) :
    ∃ values, value = .list values ∧ InstantiatesItems scope items m values after := by
  match items with
  | [] =>
      obtain ⟨rfl, rfl⟩ := hyields.eq_of_constant trivial
      exact ⟨[], rfl, .nil⟩
  | item :: items =>
      rcases hform : item.argumentOf? "splice-unquote" with _ | form
      · rw [embeddedItems, hform] at h
        rw [expandItems, hform, yields_cons_iff h.standard] at hyields
        obtain ⟨first, m₁, sequence, others, hfirst, hrest, hothers, rfl⟩ := hyields
        have hitem := instantiates_of_yields h.front hfirst
        obtain ⟨values, hvalues⟩ := hitem.yieldsAll
        obtain ⟨rest, hlist, hitems⟩ := instantiatesItems_of_yields (h.rest hvalues) hrest
        rw [hlist] at hothers
        cases hothers
        exact ⟨first :: others, rfl, .item hform hitem hitems⟩
      · rw [embeddedItems, hform] at h
        rw [expandItems, hform, yields_concat_iff h.standard] at hyields
        obtain ⟨first, m₁, second, front, others, hfirst, hrest, hfront, hothers, rfl⟩ := hyields
        have hvalues := yieldsAll_singleton_iff.mpr ⟨first, hfirst, rfl⟩
        obtain ⟨rest, hlist, hitems⟩ := instantiatesItems_of_yields (h.rest hvalues) hrest
        rw [hlist] at hothers
        cases hothers
        exact ⟨front ++ others, rfl, .splice hform hfirst hfront hitems⟩

end

/-- The form that a template expands to builds the template with its gaps filled,
if the names that it calls keep their meaning: evaluation succeeds with a value
and a machine exactly when the template is instantiated to them, unless it hits the
depth limit. -/
theorem quasiquote_builds_instance (template : Value) (scope : Scope) (m : Machine)
    (h : Undisturbed scope template.embedded m) (value : Value) (after : Machine) :
    (∀ steps, evaluateWithin steps (expandTemplate template) scope m = .value value after →
      Instantiates scope template m value after) ∧
    (Instantiates scope template m value after → ∃ enough, ∀ steps, enough ≤ steps →
      evaluateWithin steps (expandTemplate template) scope m = .value value after ∨
      (evaluateWithin steps (expandTemplate template) scope m).HitsDepthLimit) := by
  constructor
  · intro steps houtcome
    have hsettled : (evaluateWithin steps (expandTemplate template) scope m).Settled := by
      rw [houtcome]
      trivial
    have hderived := evaluateWithin_sound hsettled
    rw [houtcome] at hderived
    exact instantiates_of_yields h ⟨_, hderived⟩
  · intro hinstance
    obtain ⟨n, hderived⟩ := hinstance.yields h
    exact hderived.eventually_or_hits

/-- A machine with the names that templates call, a number and a list. -/
def templateMachine : Machine :=
  { Machine.fresh noFiles with
    frames := #[[("cons", .native ⟨"cons", .primitive .cons, 0⟩),
      ("concat", .native ⟨"concat", .primitive .concat, 1⟩),
      ("x", .number 1), ("xs", .list [.number 2, .number 3])]] }

/-- A name, a gap for `x`, and a list with a gap for the items of `xs`. -/
def nestedTemplate : Value :=
  .list [.symbol "a", .list [.symbol "unquote", .symbol "x"],
    .list [.list [.symbol "splice-unquote", .symbol "xs"], .symbol "b"]]

/-- Names change nothing when they are evaluated. -/
theorem YieldsAll.eq_of_symbols {names : List String} {values : List Value}
    (h : YieldsAll scope (names.map .symbol) m values after) : after = m := by
  induction names generalizing m values with
  | nil => exact (yieldsAll_nil_iff.mp h).2
  | cons name names ih =>
      obtain ⟨value, m₁, rest, hname, hnames, -⟩ := yieldsAll_cons_iff.mp h
      obtain ⟨-, rfl⟩ := yields_symbol_iff.mp hname
      exact ih hnames

/-- The template stands for `(a 1 (2 3 b))`, and its expansion yields that. -/
theorem quasiquote_builds_instance_nestedTemplate :
    Undisturbed ⟨0, []⟩ nestedTemplate.embedded templateMachine ∧
    ∃ enough, ∀ steps, enough ≤ steps →
      evaluateWithin steps (expandTemplate nestedTemplate) ⟨0, []⟩ templateMachine =
        .value (.list [.symbol "a", .number 1, .list [.number 2, .number 3, .symbol "b"]])
          templateMachine ∨
      (evaluateWithin steps (expandTemplate nestedTemplate) ⟨0, []⟩
        templateMachine).HitsDepthLimit := by
  have hundisturbed : Undisturbed ⟨0, []⟩ nestedTemplate.embedded templateMachine := by
    intro front hfront values after hvalues
    have hnames : nestedTemplate.embedded = ["x", "xs"].map .symbol := rfl
    rw [hnames, List.prefix_map_iff] at hfront
    obtain ⟨names, -, rfl⟩ := hfront
    rw [hvalues.eq_of_symbols]
    exact ⟨⟨_, rfl, rfl⟩, ⟨_, rfl, rfl⟩, nofun⟩
  refine ⟨hundisturbed, (quasiquote_builds_instance nestedTemplate ⟨0, []⟩ templateMachine
    hundisturbed _ _).2 ?_⟩
  have hx : Yields ⟨0, []⟩ (.symbol "x") templateMachine (.number 1) templateMachine :=
    yields_symbol_iff.mpr ⟨rfl, rfl⟩
  have hxs : Yields ⟨0, []⟩ (.symbol "xs") templateMachine (.list [.number 2, .number 3])
      templateMachine := yields_symbol_iff.mpr ⟨rfl, rfl⟩
  exact .list rfl (.item rfl .symbol (.item rfl (.unquote rfl hx)
    (.item rfl (.list rfl (.splice rfl hxs rfl (.item rfl .symbol .nil))) .nil)))

end Lisplet
