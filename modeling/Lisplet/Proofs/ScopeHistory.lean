/-
The history of scopes.  A holder of scopes makes new ones, alone or inside others, copies its
handles on them, and binds names through any of them.  What was asked for is a history: the
parent of each frame, and the bindings in the order in which they were made.  The history
alone tells what every name stands for, and the machine agrees with it.
-/
import Lisplet.Proofs.Listings
import Lisplet.Proofs.ParameterBinding

namespace Lisplet

open Relation

/-- What can be asked for.  Handles are numbered in the order in which they were given out. -/
inductive ScopeRequest where
  | new
  | inside (parent : Nat)
  | bind (parent : Nat) (parameters : List String) (arguments : List Value)
  | copy (handle : Nat)
  | set (handle : Nat) (name : String) (value : Value)

/-- The machine, and the scopes that there are handles on. -/
structure Holder where
  machine : Machine
  handles : List Scope

namespace Holder

def receive (holder : Holder) : Outcome Scope → Holder
  | .value scope after => ⟨after, holder.handles ++ [scope]⟩
  | .error _ after => ⟨after, holder.handles⟩
  | .unfinished => holder

/-- Ask for something.  There is no answer through a handle that was not given out. -/
def perform (holder : Holder) : ScopeRequest → Holder
  | .new => holder.receive (newScope holder.machine)
  | .inside parent =>
      match holder.handles[parent]? with
      | none => holder
      | some scope => holder.receive (newInner scope [] holder.machine)
  | .bind parent parameters arguments =>
      match holder.handles[parent]? with
      | none => holder
      | some scope => holder.receive (bindInner scope parameters arguments holder.machine)
  | .copy handle =>
      match holder.handles[handle]? with
      | none => holder
      | some scope => ⟨holder.machine, holder.handles ++ [scope]⟩
  | .set handle name value =>
      match holder.handles[handle]? with
      | none => holder
      | some scope =>
          match Eval.define scope name value holder.machine with
          | .value _ after | .error _ after => ⟨after, holder.handles⟩
          | .unfinished => holder

def after (files : Files) (requests : List ScopeRequest) : Holder :=
  requests.foldl perform ⟨.fresh files, []⟩

end Holder

structure Write where
  frame : Nat
  name : String
  value : Value

/-- What was asked for: the parents of frames in the order in which these were made, the frames
that there are handles on, and the bindings, the latest first. -/
structure History where
  parents : List (Option Nat)
  handles : List Nat
  writes : List Write

/-- What binding the arguments binds in turn, if there are as many as the parameters want. -/
def bindingsInTurn? (parameters : List String) (arguments : List Value) : Option Frame :=
  let singles := parameters.takeWhile (· ≠ restMarker)
  match parameters.dropWhile (· ≠ restMarker) with
  | [] => if arguments.length = singles.length then some (singles.zip arguments) else none
  | [_] => none
  | _ :: rest :: _ =>
      if singles.length ≤ arguments.length then
        some (singles.zip arguments ++ [(rest, .list (arguments.drop singles.length))])
      else none

namespace History

def enter (history : History) (parent : Option Nat) : History :=
  { history with
    parents := history.parents ++ [parent]
    handles := history.handles ++ [history.parents.length] }

def write (history : History) (frame : Nat) (name : String) (value : Value) : History :=
  { history with writes := ⟨frame, name, value⟩ :: history.writes }

def writeAll (history : History) (frame : Nat) (bindings : Frame) : History :=
  bindings.foldl (fun history binding => history.write frame binding.1 binding.2) history

def perform (history : History) : ScopeRequest → History
  | .new => history.enter none
  | .inside parent =>
      match history.handles[parent]? with
      | none => history
      | some frame => history.enter (some frame)
  | .bind parent parameters arguments =>
      match history.handles[parent]?, bindingsInTurn? parameters arguments with
      | some frame, some bindings =>
          (history.enter (some frame)).writeAll history.parents.length bindings
      | _, _ => history
  | .copy handle =>
      match history.handles[handle]? with
      | none => history
      | some frame => { history with handles := history.handles ++ [frame] }
  | .set handle name value =>
      match history.handles[handle]? with
      | none => history
      | some frame => history.write frame name value

def of (requests : List ScopeRequest) : History :=
  requests.foldl perform ⟨[], [], []⟩

def latest? (history : History) (frame : Nat) (name : String) : Option Value :=
  (history.writes.find? fun write => write.frame = frame ∧ write.name = name).map Write.value

/-- One frame was made inside the other. -/
def IsInside (history : History) (frame parent : Nat) : Prop :=
  history.parents[frame]? = some (some parent)

/-- The nearest frame, from this one outwards, in which the name was ever bound has the value as
its latest. -/
inductive Finds (history : History) (name : String) : Nat → Value → Prop
  | here {frame value} (hlatest : history.latest? frame name = some value) :
      Finds history name frame value
  | outside {frame parent value} (hnone : history.latest? frame name = none)
      (hinside : history.IsInside frame parent) (houter : Finds history name parent value) :
      Finds history name frame value

/-- From this frame outwards, the target comes before any other frame in which the name was
bound. -/
inductive ComesTo (history : History) (name : String) (target : Nat) : Nat → Prop
  | here : ComesTo history name target target
  | outside {frame parent} (hnone : history.latest? frame name = none)
      (hinside : history.IsInside frame parent) (houter : ComesTo history name target parent) :
      ComesTo history name target frame

/-- Outside the frame are its parent, the parent of that and so on, up to a frame that has none. -/
inductive Chain (history : History) : Nat → List Nat → Prop
  | root {frame} (hroot : history.parents[frame]? = some none) : Chain history frame []
  | inside {frame parent outer} (hinside : history.IsInside frame parent)
      (houter : Chain history parent outer) : Chain history frame (parent :: outer)

variable {history : History} {frame : Nat} {outer : List Nat} {name : String}

theorem latest?_write (history : History) (frame : Nat) (name : String) (value : Value)
    (frame' : Nat) (name' : String) :
    (history.write frame name value).latest? frame' name' =
      if frame = frame' ∧ name = name' then some value else history.latest? frame' name' := by
  rw [latest?, write, List.find?_cons]
  by_cases hsame : frame = frame' ∧ name = name'
  · rw [if_pos hsame, decide_eq_true hsame]
    rfl
  · rw [if_neg hsame, decide_eq_false hsame]
    rfl

/-- Bindings in turn change one frame, as they change a table. -/
theorem latest?_writeAll {bindings table : Frame}
    (htable : ∀ name, table.get? name = history.latest? frame name) (frame' : Nat)
    (name : String) :
    (history.writeAll frame bindings).latest? frame' name =
      if frame' = frame then (table.setAll bindings).get? name
      else history.latest? frame' name := by
  induction bindings generalizing history table with
  | nil =>
      by_cases hframe : frame' = frame
      · rw [if_pos hframe, hframe]
        exact (htable name).symm
      · rw [if_neg hframe]
        rfl
  | cons binding bindings ih =>
      have hset (other : String) : (table.set binding.1 binding.2).get? other =
          (history.write frame binding.1 binding.2).latest? frame other := by
        rw [Frame.get?_set, latest?_write, htable]
        simp only [true_and]
      rw [writeAll, List.foldl_cons, ← writeAll, ih hset, Frame.setAll_cons, latest?_write]
      by_cases hframe : frame' = frame
      · rw [if_pos hframe, if_pos hframe]
      · rw [if_neg hframe, if_neg hframe, if_neg fun h => hframe h.1.symm]

theorem writeAll_parents (history : History) (frame : Nat) (bindings : Frame) :
    (history.writeAll frame bindings).parents = history.parents := by
  induction bindings generalizing history with
  | nil => rfl
  | cons binding bindings ih => exact ih _

theorem writeAll_handles (history : History) (frame : Nat) (bindings : Frame) :
    (history.writeAll frame bindings).handles = history.handles := by
  induction bindings generalizing history with
  | nil => rfl
  | cons binding bindings ih => exact ih _

/-- A chain stays one while frames are made. -/
theorem Chain.of_parents {later : History} (h : history.Chain frame outer)
    (hparents : ∀ (frame : Nat) (parent : Option Nat), history.parents[frame]? = some parent →
      later.parents[frame]? = some parent) : later.Chain frame outer := by
  induction h with
  | root hroot => exact .root (hparents _ _ hroot)
  | inside hinside houter ih => exact .inside (hparents _ _ hinside) ih

theorem Chain.lt (h : history.Chain frame outer) :
    ∀ index ∈ frame :: outer, index < history.parents.length := by
  have hlt {index parent} (hindex : history.parents[index]? = some parent) :
      index < history.parents.length := (List.getElem?_eq_some_iff.mp hindex).1
  induction h with
  | root hroot => exact fun index hindex => List.mem_singleton.mp hindex ▸ hlt hroot
  | inside hinside houter ih => exact List.forall_mem_cons.mpr ⟨hlt hinside, ih⟩

theorem getElem?_parents_enter (history : History) (made : Option Nat) {frame : Nat}
    {parent : Option Nat} (h : history.parents[frame]? = some parent) :
    (history.enter made).parents[frame]? = some parent := by
  rw [enter, List.getElem?_append_left (List.getElem?_eq_some_iff.mp h).1, h]

theorem getElem?_parents_enter_length (history : History) (made : Option Nat) :
    (history.enter made).parents[history.parents.length]? = some made := by
  rw [enter, List.getElem?_concat_length]

theorem not_isInside_of_root {parent : Nat} (hroot : history.parents[frame]? = some none) :
    ¬ history.IsInside frame parent := by
  rw [IsInside, hroot]
  exact fun h => nomatch Option.some_inj.mp h

theorem IsInside.unique {parent other : Nat} (h : history.IsInside frame parent)
    (hother : history.IsInside frame other) : other = parent := by
  rw [IsInside, h] at hother
  exact (Option.some_inj.mp (Option.some_inj.mp hother)).symm

theorem finds_iff_of_some {value latest : Value}
    (hlatest : history.latest? frame name = some latest) :
    history.Finds name frame value ↔ latest = value := by
  constructor
  · rintro (hvalue | hnone)
    · exact Option.some_inj.mp (hlatest.symm.trans hvalue)
    · exact absurd (hlatest.symm.trans hnone) nofun
  · rintro rfl
    exact .here hlatest

theorem finds_iff_of_none {value : Value} (hnone : history.latest? frame name = none) :
    history.Finds name frame value ↔
      ∃ parent, history.IsInside frame parent ∧ history.Finds name parent value := by
  constructor
  · rintro (hvalue | ⟨-, hinside, houter⟩)
    · exact absurd (hnone.symm.trans hvalue) nofun
    · exact ⟨_, hinside, houter⟩
  · rintro ⟨parent, hinside, houter⟩
    exact .outside hnone hinside houter

theorem comesTo_iff_of_ne {target : Nat} (hne : frame ≠ target) :
    history.ComesTo name target frame ↔ history.latest? frame name = none ∧
      ∃ parent, history.IsInside frame parent ∧ history.ComesTo name target parent := by
  constructor
  · rintro (- | ⟨hnone, hinside, houter⟩)
    · exact absurd rfl hne
    · exact ⟨hnone, _, hinside, houter⟩
  · rintro ⟨hnone, parent, hinside, houter⟩
    exact .outside hnone hinside houter

/-- The first frame of a chain that binds the name is the nearest one. -/
theorem Chain.findSome?_eq_some_iff {value : Value} (h : history.Chain frame outer) :
    (frame :: outer).findSome? (history.latest? · name) = some value ↔
      history.Finds name frame value := by
  induction h with
  | @root frame hroot =>
      rw [List.findSome?_cons]
      cases hlatest : history.latest? frame name with
      | some latest => rw [finds_iff_of_some hlatest, Option.some_inj]
      | none =>
          rw [finds_iff_of_none hlatest]
          exact ⟨nofun, fun ⟨_, hinside, _⟩ => absurd hinside (not_isInside_of_root hroot)⟩
  | @inside frame parent outer hinside houter ih =>
      rw [List.findSome?_cons]
      cases hlatest : history.latest? frame name with
      | some latest => rw [finds_iff_of_some hlatest, Option.some_inj]
      | none =>
          rw [finds_iff_of_none hlatest]
          refine ih.trans ⟨fun hfinds => ⟨_, hinside, hfinds⟩, ?_⟩
          rintro ⟨other, hother, hfinds⟩
          exact hinside.unique hother ▸ hfinds

/-- Nothing is found where no frame of the chain binds the name. -/
theorem Chain.findSome?_eq_none_iff (h : history.Chain frame outer) :
    (frame :: outer).findSome? (history.latest? · name) = none ↔
      ∀ index, ReflTransGen history.IsInside frame index → history.latest? index name = none := by
  rw [List.findSome?_eq_none_iff]
  induction h with
  | @root frame hroot =>
      rw [List.forall_mem_singleton]
      refine ⟨fun hnone index hreach => ?_, fun hall => hall frame .refl⟩
      rcases hreach.cases_head with rfl | ⟨parent, hinside, -⟩
      · exact hnone
      · exact absurd hinside (not_isInside_of_root hroot)
  | @inside frame parent outer hinside houter ih =>
      rw [List.forall_mem_cons, ih]
      constructor
      · rintro ⟨hnone, houterNone⟩ index hreach
        rcases hreach.cases_head with rfl | ⟨other, hother, hrest⟩
        · exact hnone
        · exact houterNone index (hinside.unique hother ▸ hrest)
      · exact fun hall => ⟨hall frame .refl, fun index hreach => hall index (.head hinside hreach)⟩

/-- A binding made in the target is seen in this frame if nothing else comes first. -/
theorem Chain.findSome?_write_of_comesTo {target : Nat} (h : history.Chain frame outer)
    (hcomes : history.ComesTo name target frame) (value : Value) :
    (frame :: outer).findSome? ((history.write target name value).latest? · name) = some value := by
  induction h with
  | @root frame hroot =>
      rw [List.findSome?_cons, latest?_write]
      by_cases heq : frame = target
      · rw [if_pos ⟨heq.symm, rfl⟩]
      · obtain ⟨-, parent, hinside, -⟩ := (comesTo_iff_of_ne heq).mp hcomes
        exact absurd hinside (not_isInside_of_root hroot)
  | @inside frame parent outer hinside houter ih =>
      rw [List.findSome?_cons, latest?_write]
      by_cases heq : frame = target
      · rw [if_pos ⟨heq.symm, rfl⟩]
      · obtain ⟨hnone, other, hother, hcomes⟩ := (comesTo_iff_of_ne heq).mp hcomes
        rw [if_neg fun hsame => heq hsame.1.symm, hnone]
        exact ih (hinside.unique hother ▸ hcomes)

theorem Chain.findSome?_write_of_not_comesTo {target : Nat} {written : String}
    (h : history.Chain frame outer)
    (hcomes : ¬ (name = written ∧ history.ComesTo written target frame)) (value : Value) :
    (frame :: outer).findSome? ((history.write target written value).latest? · name) =
      (frame :: outer).findSome? (history.latest? · name) := by
  have hkept {index : Nat} (hnot : ¬ (name = written ∧ history.ComesTo written target index)) :
      (history.write target written value).latest? index name = history.latest? index name := by
    rw [latest?_write, if_neg]
    rintro ⟨rfl, rfl⟩
    exact hnot ⟨rfl, .here⟩
  induction h with
  | root hroot => exact findSome?_cons_congr (hkept hcomes) fun _ => rfl
  | inside hinside houter ih =>
      refine findSome?_cons_congr (hkept hcomes) fun hnone => ih fun hparent => hcomes ?_
      exact ⟨hparent.1, .outside (hparent.1 ▸ hnone) hinside hparent.2⟩

end History

/-- Arguments are bound in turn, or there are not as many as the parameters want. -/
theorem bindArguments_in_turn (parameters : List String) (arguments : List Value) :
    (∃ bindings, bindingsInTurn? parameters arguments = some bindings ∧
      bindArguments parameters arguments = .ok (Frame.setAll [] bindings)) ∨
    bindingsInTurn? parameters arguments = none ∧
      ∃ cause, bindArguments parameters arguments = .error cause := by
  rw [bindingsInTurn?, bindArguments]
  cases parameters.dropWhile (· ≠ restMarker) with
  | nil =>
      by_cases hcount : arguments.length = (parameters.takeWhile (· ≠ restMarker)).length
      · exact .inl ⟨_, if_pos hcount, if_pos hcount⟩
      · exact .inr ⟨if_neg hcount, _, if_neg hcount⟩
  | cons marker others =>
      cases others with
      | nil => exact .inr ⟨rfl, _, rfl⟩
      | cons rest others =>
          by_cases hcount : (parameters.takeWhile (· ≠ restMarker)).length ≤ arguments.length
          · refine .inl ⟨_, if_pos hcount, (if_pos hcount).trans ?_⟩
            rw [Frame.setAll, List.foldl_append]
            rfl
          · exact .inr ⟨if_neg hcount, _, if_neg hcount⟩

/-- The machine has the frames that were asked for, with the latest bindings in them. -/
structure Represents (history : History) (holder : Holder) : Prop where
  size : holder.machine.frames.size = history.parents.length
  handles : holder.handles.map Scope.own = history.handles
  chains : ∀ scope ∈ holder.handles, history.Chain scope.own scope.outer
  latest : ∀ frame name, (holder.machine.frame frame).get? name = history.latest? frame name

namespace Represents

variable {history : History} {holder : Holder}

theorem below (h : Represents history holder) {scope : Scope} (hscope : scope ∈ holder.handles) :
    scope.Below holder.machine.frames.size :=
  h.size ▸ (h.chains scope hscope).lt

theorem handle (h : Represents history holder) (handle : Nat) :
    history.handles[handle]? = (holder.handles[handle]?).map Scope.own := by
  rw [← h.handles, List.getElem?_map]

/-- A scope inside another is a chain that goes one frame further. -/
theorem chain_enter (h : Represents history holder) {scope : Scope}
    (hscope : scope ∈ holder.handles) :
    (history.enter (some scope.own)).Chain holder.machine.frames.size scope.frames :=
  .inside (h.size ▸ history.getElem?_parents_enter_length (some scope.own))
    ((h.chains scope hscope).of_parents fun _ _ => history.getElem?_parents_enter _)

theorem enter (h : Represents history holder) {scope : Scope} {parent : Option Nat}
    (hown : scope.own = history.parents.length)
    (hscope : (history.enter parent).Chain scope.own scope.outer) (bindings : Frame) :
    Represents ((history.enter parent).writeAll history.parents.length bindings)
      ⟨{ holder.machine with frames := holder.machine.frames.push (Frame.setAll [] bindings) },
        holder.handles ++ [scope]⟩ where
  size := by
    rw [Array.size_push, History.writeAll_parents, History.enter, List.length_append, h.size]
    rfl
  handles := by
    rw [List.map_append, h.handles, History.writeAll_handles, List.map_singleton, hown]
    rfl
  chains other hother := by
    have hchain : (history.enter parent).Chain other.own other.outer := by
      rcases List.mem_append.mp hother with hold | hnew
      · exact (h.chains other hold).of_parents fun _ _ => history.getElem?_parents_enter parent
      · exact List.mem_singleton.mp hnew ▸ hscope
    refine hchain.of_parents fun _ _ hframe => ?_
    rw [History.writeAll_parents, hframe]
  latest frame name := by
    -- Nothing was bound in a frame before it was made.
    have hnone (name : String) : Frame.get? [] name =
        (history.enter parent).latest? history.parents.length name := by
      rw [← Machine.frame_of_size_le h.size.le, h.latest]
      rfl
    rw [History.latest?_writeAll hnone]
    by_cases hframe : frame = history.parents.length
    · rw [if_pos hframe, hframe, ← h.size, Machine.frame_push_size]
    · rw [if_neg hframe]
      rcases lt_or_gt_of_ne hframe with hlt | hgt
      · rw [Machine.frame_push_of_lt (h.size ▸ hlt), h.latest]
        rfl
      · rw [Machine.frame_of_size_le (by rw [Array.size_push, h.size]; exact hgt),
          ← Machine.frame_of_size_le (h.size.le.trans hgt.le), h.latest]
        rfl

theorem write (h : Represents history holder) {scope : Scope} (hscope : scope ∈ holder.handles)
    (name : String) (value : Value) :
    Represents (history.write scope.own name value)
      ⟨holder.machine.define scope name value, holder.handles⟩ where
  size := by
    rw [Machine.define, Array.size_modify, h.size]
    rfl
  handles := h.handles
  chains other hother := (h.chains other hother).of_parents fun _ _ hframe => hframe
  latest frame other := by
    rw [Machine.frame_define (h.below hscope _ List.mem_cons_self), History.latest?_write]
    by_cases hframe : frame = scope.own
    · rw [if_pos hframe, Frame.get?_set, h.latest, hframe]
      simp only [true_and]
    · rw [if_neg hframe, if_neg fun hsame => hframe hsame.1.symm, h.latest]

/-- Every request keeps the machine and the history together. -/
theorem perform (h : Represents history holder) (request : ScopeRequest) :
    Represents (history.perform request) (holder.perform request) := by
  cases request with
  | new =>
      have hchain : (history.enter none).Chain holder.machine.frames.size [] :=
        .root (h.size ▸ history.getElem?_parents_enter_length none)
      exact @enter _ _ h ⟨holder.machine.frames.size, []⟩ none h.size hchain []
  | inside parent =>
      rw [History.perform, Holder.perform, h.handle]
      cases hparent : holder.handles[parent]? with
      | none => exact h
      | some scope => exact h.enter h.size (h.chain_enter (List.mem_of_getElem? hparent)) []
  | bind parent parameters arguments =>
      rw [History.perform, Holder.perform, h.handle]
      cases hparent : holder.handles[parent]? with
      | none => exact h
      | some scope =>
          obtain ⟨bindings, hsome, hbound⟩ | ⟨hnone, cause, hrefused⟩ :=
            bindArguments_in_turn parameters arguments
          · simp only [Option.map_some, hsome]
            rw [bindInner, hbound]
            exact h.enter h.size (h.chain_enter (List.mem_of_getElem? hparent)) bindings
          · simp only [Option.map_some, hnone]
            rw [bindInner, hrefused]
            exact h
  | copy handle =>
      rw [History.perform, Holder.perform, h.handle]
      cases hhandle : holder.handles[handle]? with
      | none => exact h
      | some scope =>
          refine ⟨h.size, ?_, fun other hother => ?_, h.latest⟩
          · simp only [List.map_append, h.handles, List.map_singleton, Option.map_some]
          · have hgiven : other ∈ holder.handles := by
              rcases List.mem_append.mp hother with hold | hnew
              · exact hold
              · exact List.mem_singleton.mp hnew ▸ List.mem_of_getElem? hhandle
            exact (h.chains other hgiven).of_parents fun _ _ hframe => hframe
  | set handle name value =>
      rw [History.perform, Holder.perform, h.handle]
      cases hhandle : holder.handles[handle]? with
      | none => exact h
      | some scope => exact h.write (List.mem_of_getElem? hhandle) name value

/-- Whatever was asked for, the machine is as the history says. -/
theorem after (files : Files) (requests : List ScopeRequest) :
    Represents (.of requests) (.after files requests) := by
  have hempty : Represents ⟨[], [], []⟩ ⟨.fresh files, []⟩ :=
    ⟨rfl, rfl, fun _ hscope => absurd hscope List.not_mem_nil, fun _ _ => rfl⟩
  rw [History.of, Holder.after]
  generalize (⟨[], [], []⟩ : History) = history, (⟨.fresh files, []⟩ : Holder) = holder at hempty
  induction requests generalizing history holder with
  | nil => exact hempty
  | cons request requests ih => exact ih _ _ (hempty.perform request)

/-- Looking a name up goes through the frames of the scope as the history has them. -/
theorem lookup?_eq (h : Represents history holder) (scope : Scope) (name : String) :
    holder.machine.lookup? scope name =
      (scope.own :: scope.outer).findSome? (history.latest? · name) := by
  rw [Machine.lookup?, Scope.frames]
  exact congrArg (List.findSome? · _) (funext fun frame => h.latest frame name)

end Represents

theorem run_symbol (steps : Nat) (name : String) (scope : Scope) (m : Machine) :
    run (steps + 1) (.symbol name) scope m =
      match m.lookup? scope name with
      | some value => .value value m
      | none => .error (.unbound name) m := by
  rw [run, step]
  simp only [Eval.bind_apply, Eval.read_apply, Outcome.andThen_value]
  cases m.lookup? scope name <;> rfl

/-- A scope remembers the latest binding of a name in the nearest frame that has one, whatever
was asked for through which handles in what order.  A name without one is unbound.  A further
binding is seen under its own name only, and from those scopes only that come to its frame
before another one with that name.  The listing of a scope has just the bindings that looking
names up finds, each name once, in the order of their bytes. -/
theorem scope_remembers_latest (files : Files) (requests : List ScopeRequest) (handle : Nat)
    (scope : Scope) (hscope : (Holder.after files requests).handles[handle]? = some scope) :
    ∃ frame, (History.of requests).handles[handle]? = some frame ∧
      (∀ name value, (Holder.after files requests).machine.lookup? scope name = some value ↔
        (History.of requests).Finds name frame value) ∧
      (∀ name, (Holder.after files requests).machine.lookup? scope name = none ↔
        ∀ outer, ReflTransGen (History.of requests).IsInside frame outer →
          (History.of requests).latest? outer name = none) ∧
      (∀ name steps, (Holder.after files requests).machine.lookup? scope name = none →
        run (steps + 1) (.symbol name) scope (Holder.after files requests).machine =
          .error (.unbound name) (Holder.after files requests).machine) ∧
      (∀ other target written value name, (History.of requests).handles[other]? = some target →
        (name = written ∧ (History.of requests).ComesTo written target frame →
          (Holder.after files (requests ++ [.set other written value])).machine.lookup?
            scope name = some value) ∧
        (¬ (name = written ∧ (History.of requests).ComesTo written target frame) →
          (Holder.after files (requests ++ [.set other written value])).machine.lookup?
            scope name = (Holder.after files requests).machine.lookup? scope name)) ∧
      (∀ name value, (name, value) ∈ (Holder.after files requests).machine.bindings scope ↔
        (Holder.after files requests).machine.lookup? scope name = some value) ∧
      (((Holder.after files requests).machine.bindings scope).map fun binding =>
        bytesOf binding.1).Pairwise (· < ·) := by
  have hrep := Represents.after files requests
  have hchain := hrep.chains scope (List.mem_of_getElem? hscope)
  refine ⟨scope.own, by rw [hrep.handle, hscope, Option.map_some], fun name value => ?_,
    fun name => ?_, fun name steps hnone => ?_, fun other target written value name htarget => ?_,
    fun name value => Machine.mem_bindings_iff, Machine.bytesOf_bindings_increasing _ _⟩
  · rw [hrep.lookup?_eq]
    exact hchain.findSome?_eq_some_iff
  · rw [hrep.lookup?_eq]
    exact hchain.findSome?_eq_none_iff
  · rw [run_symbol, hnone]
  · have hlater := Represents.after files (requests ++ [.set other written value])
    have hwrite : History.of (requests ++ [.set other written value]) =
        (History.of requests).write target written value := by
      rw [History.of, List.foldl_append, ← History.of, List.foldl_cons, List.foldl_nil,
        History.perform, htarget]
    rw [hwrite] at hlater
    rw [hlater.lookup?_eq, hrep.lookup?_eq]
    constructor
    · rintro ⟨rfl, hcomes⟩
      exact hchain.findSome?_write_of_comesTo hcomes value
    · exact fun hcomes => hchain.findSome?_write_of_not_comesTo hcomes value

/-- A binding that an outer scope gets late is seen inside, and one that it gets of a shadowed
name is not. -/
theorem scope_remembers_latest_lateBinding :
    (Holder.after noFiles [.new, .bind 0 ["x"] [.number 1], .set 0 "y" (.number 2)]).machine.lookup?
        ⟨1, [0]⟩ "y" = some (.number 2) ∧
      (Holder.after noFiles ([.new, .bind 0 ["x"] [.number 1], .set 0 "y" (.number 2)] ++
        [.set 0 "x" (.number 3)])).machine.lookup? ⟨1, [0]⟩ "x" = some (.number 1) := by
  obtain ⟨frame, hframe, hfinds, -, -, hset, -⟩ := scope_remembers_latest noFiles
    [.new, .bind 0 ["x"] [.number 1], .set 0 "y" (.number 2)] 1 ⟨1, [0]⟩ (by rfl)
  obtain rfl : 1 = frame := Option.some_inj.mp hframe
  have hx : (History.of [.new, .bind 0 ["x"] [.number 1], .set 0 "y" (.number 2)]).latest? 1 "x" =
      some (.number 1) := rfl
  refine ⟨(hfinds _ _).mpr (.outside rfl rfl (.here rfl)), ?_⟩
  rw [(hset 0 0 "x" (.number 3) "x" rfl).2]
  · exact (hfinds _ _).mpr (.here hx)
  · rintro ⟨-, hcomes⟩
    have hnone := ((History.comesTo_iff_of_ne (by decide)).mp hcomes).1
    exact nomatch hx.symm.trans hnone

end Lisplet
