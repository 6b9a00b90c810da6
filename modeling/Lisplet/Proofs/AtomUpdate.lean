/-
Updates of atoms.  Evaluation does nothing to cells but to make new ones and to replace what
is in them, so no cell is ever lost.  The cell that `swap!` updates is therefore still there
after the function that it calls, whatever that function has done, and gets what the function
came to.
-/
import Lisplet.Proofs.CellWrites
import Lisplet.Proofs.Invariants
import Lisplet.Proofs.RootScope

namespace Lisplet

theorem Rewrites.size_le {cells cells' : Array Value} (h : Rewrites cells cells') :
    cells.size ≤ cells'.size := by
  cases h with
  | make content =>
      rw [Array.size_push]
      exact Nat.le_succ _
  | replace cell content => rw [Array.size_setIfInBounds]

/-- Evaluation loses no cell. -/
theorem lawful_size_le (size : Nat) :
    (Invariant.ofMachine fun m => size ≤ m.cells.size).Lawful :=
  Invariant.lawful_ofMachine (fun hm hrewrites => hm.trans hrewrites.size_le) (fun _ hm => hm)
    (fun _ _ _ hm => hm) (fun _ hm => hm) (fun _ hm => hm)

theorem size_le_of_apply {steps : Nat} {function : Value} {arguments : List Value}
    {m after : Machine}
    (h : (apply (evaluateWithin steps) function arguments m).after? = some after) :
    m.cells.size ≤ after.cells.size := by
  have hleaves : Invariant.Leaves _ (apply (evaluateWithin steps) function arguments m) :=
    (lawful_size_le m.cells.size).apply steps trivial (fun _ _ => trivial) (Nat.le_refl _)
  exact hleaves.after h

/-- The second machine is the first with another content in the cell, and the same in
everything else. -/
structure Machine.Replaced (m : Machine) (cell : Nat) (content : Value) (after : Machine) :
    Prop where
  elsewhere : after = { m with cells := after.cells }
  size : after.cells.size = m.cells.size
  replaced : after.cells[cell]? = some content
  others : ∀ other, other ≠ cell → after.cells[other]? = m.cells[other]?

theorem Machine.replaced_setIfInBounds {m : Machine} {cell : Nat} (hcell : cell < m.cells.size)
    (content : Value) :
    m.Replaced cell content { m with cells := m.cells.setIfInBounds cell content } where
  elsewhere := rfl
  size := Array.size_setIfInBounds
  replaced := Array.getElem?_setIfInBounds_self_of_lt hcell
  others _ hother := Array.getElem?_setIfInBounds_ne hother.symm

section Swap

variable {native : Native} {steps : Nat} {updater content : Value} {others : List Value}
  {m after : Machine} {cell : Nat}

/-- The outcome of an update follows from that of the call in it. -/
theorem apply_swap_eq {evaluator : Evaluator} (hnative : native.operation = .swap)
    (hcell : m.cells[cell]? = some content) :
    apply evaluator (.native native) (.atom cell :: updater :: others) m =
      match apply evaluator updater (content :: others) m with
      | .value result after =>
          .value result { after with cells := after.cells.setIfInBounds cell result }
      | .error cause after => .error cause after
      | .unfinished => .unfinished := by
  rw [apply_swap_atom hnative, hcell, Option.getD_some]
  cases apply evaluator updater (content :: others) m <;> rfl

theorem apply_swap_value (hnative : native.operation = .swap)
    (hcell : m.cells[cell]? = some content) {result : Value}
    (h : apply (evaluateWithin steps) updater (content :: others) m = .value result after) :
    ∃ final, after.Replaced cell result final ∧
      apply (evaluateWithin steps) (.native native) (.atom cell :: updater :: others) m =
        .value result final := by
  have hlt : cell < m.cells.size := (Array.getElem?_eq_some_iff.mp hcell).1
  have hsize : m.cells.size ≤ after.cells.size := size_le_of_apply (by rw [h]; rfl)
  refine ⟨_, Machine.replaced_setIfInBounds (hlt.trans_le hsize) result, ?_⟩
  rw [apply_swap_eq hnative hcell, h]

theorem apply_swap_error {evaluator : Evaluator} (hnative : native.operation = .swap)
    (hcell : m.cells[cell]? = some content) {cause : Error}
    (h : apply evaluator updater (content :: others) m = .error cause after) :
    apply evaluator (.native native) (.atom cell :: updater :: others) m = .error cause after := by
  rw [apply_swap_eq hnative hcell, h]

/-- Only atoms are updated; for anything else the function is not called. -/
theorem apply_swap_other (evaluator : Evaluator) (hnative : native.operation = .swap)
    {target : Value} (htarget : target.kind ≠ .atom) (updater : Value) (others : List Value)
    (m : Machine) :
    apply evaluator (.native native) (target :: updater :: others) m =
      .error (.type (.unmet (.atom "swap!") target.kind) none) m := by
  rw [apply_swap evaluator hnative]
  cases target with
  | atom cell => exact (htarget rfl).elim
  | _ => rfl

end Swap

/-- `swap!` calls its function once, with the content that the atom has before the call.  If
that comes to a value, the atom has this value afterwards, and everything else is as the call
left it, whatever the call has written to the atom or elsewhere.  If it fails, so does
`swap!`, with the same error and the machine that the call left, in which an atom that has
not been written keeps its content.  What is no atom is refused before anything is called. -/
theorem swap_replaces_content_or_fails_cleanly {native : Native}
    (hnative : native.operation = .swap) (updater : Value) (others : List Value) (m : Machine) :
    (∀ steps cell content, m.cells[cell]? = some content →
      (∀ result after,
        apply (evaluateWithin steps) updater (content :: others) m = .value result after →
        ∃ final, after.Replaced cell result final ∧
          apply (evaluateWithin steps) (.native native) (.atom cell :: updater :: others) m =
            .value result final) ∧
      (∀ cause after,
        apply (evaluateWithin steps) updater (content :: others) m = .error cause after →
        apply (evaluateWithin steps) (.native native) (.atom cell :: updater :: others) m =
            .error cause after ∧
          (¬ CallWrites cell steps updater (content :: others) m →
            after.cells[cell]? = some content)) ∧
      (apply (evaluateWithin steps) updater (content :: others) m = .unfinished →
        apply (evaluateWithin steps) (.native native) (.atom cell :: updater :: others) m =
          .unfinished)) ∧
    ∀ (evaluator : Evaluator) (target : Value), target.kind ≠ .atom →
      apply evaluator (.native native) (target :: updater :: others) m =
        .error (.type (.unmet (.atom "swap!") target.kind) none) m := by
  refine ⟨fun steps cell content hcell => ⟨?_, ?_, ?_⟩, ?_⟩
  · intro result after h
    exact apply_swap_value hnative hcell h
  · intro cause after h
    refine ⟨apply_swap_error hnative hcell h, fun hunwritten => ?_⟩
    exact apply_leaves_of_not_callWrites hunwritten hcell after (by rw [h]; rfl)
  · intro h
    rw [apply_swap_eq hnative hcell, h]
  · intro evaluator target htarget
    exact apply_swap_other evaluator hnative htarget updater others m

def atomUpdate : Native := ⟨"swap!", .swap, Primitive.all.length⟩

/-- The body of a function that writes to the atom `a` and then adds one to its argument. -/
def resetAndAdd : Value :=
  .list [.symbol "do", .list [.symbol "reset!", .symbol "a", .number 100],
    .list [.symbol "+", .symbol "x", .number 1]]

/-- The machine of a run with an atom named `a`, that function and one that looks for a name
that there is not. -/
def machineWithAtom : Machine :=
  { rootMachine noFiles with
    frames := (rootMachine noFiles).frames.modify 0 (·.set "a" (.atom 0))
    cells := #[.number 7]
    closures := (rootMachine noFiles).closures ++
      #[⟨["x"], resetAndAdd, ⟨0, []⟩⟩, ⟨["x"], .symbol "missing", ⟨0, []⟩⟩] }

/-- What the first function writes to the atom is overridden by what it comes to; the second
fails without a write.  What is no atom is not updated. -/
theorem swap_replaces_content_or_fails_cleanly_resetAndAdd :
    (∃ final, apply (evaluateWithin 5) (.native atomUpdate) [.atom 0, .closure false 3]
        machineWithAtom = .value (.number 8) final ∧ final.cells[0]? = some (.number 8)) ∧
      (∃ cause after, apply (evaluateWithin 5) (.native atomUpdate) [.atom 0, .closure false 4]
        machineWithAtom = .error cause after ∧ after.cells[0]? = some (.number 7)) ∧
      apply (evaluateWithin 5) (.native atomUpdate) [.number 7, .closure false 3] machineWithAtom =
        .error (.type (.unmet (.atom "swap!") .number) none) machineWithAtom := by
  have hupdate : atomUpdate.operation = .swap := rfl
  have hcell : machineWithAtom.cells[0]? = some (.number 7) := rfl
  refine ⟨?_, ?_, ?_⟩
  · have hnumber : (apply (evaluateWithin 5) (.closure false 3) [.number 7]
        machineWithAtom).value?.any (·.same (.number 8)) = true := by
      rw [apply_closure]
      decide +kernel
    obtain ⟨result, hresult, hsame⟩ := (Option.any_eq_true _ _).mp hnumber
    obtain rfl : result = .number 8 := by
      cases result <;> simp_all [Value.same]
    obtain ⟨after, hcalled⟩ := Outcome.exists_of_value? hresult
    obtain ⟨final, hreplaced, hvalue⟩ := ((swap_replaces_content_or_fails_cleanly hupdate
      (.closure false 3) [] machineWithAtom).1 5 0 (.number 7) hcell).1 _ _ hcalled
    exact ⟨final, hvalue, hreplaced.replaced⟩
  · obtain ⟨cause, after, hcalled⟩ : ∃ cause after, apply (evaluateWithin 5) (.closure false 4)
        [.number 7] machineWithAtom = .error cause after := by
      apply Outcome.exists_of_isError
      rw [apply_closure]
      decide +kernel
    obtain ⟨-, hfails, -⟩ := (swap_replaces_content_or_fails_cleanly hupdate (.closure false 4) []
      machineWithAtom).1 5 0 (.number 7) hcell
    obtain ⟨herror, hkept⟩ := hfails cause after hcalled
    refine ⟨cause, after, herror, hkept ?_⟩
    -- The body of the second function is a name.
    rintro (hself | ⟨part, hinvokes, -, hpart⟩)
    · cases hself
    · cases hinvokes with
      | closure henter =>
          cases henter
          exact not_runWrites_of_symbol rfl hpart
  · exact (swap_replaces_content_or_fails_cleanly hupdate (.closure false 3) []
      machineWithAtom).2 (evaluateWithin 5) (.number 7) (by simp [Value.kind])

end Lisplet
