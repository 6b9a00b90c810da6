/-
Listings.  The bindings in sight of a scope are listed as looking them up finds them: each
name once, in the order of its bytes.
-/
import Lisplet.Listing
import Lisplet.Proofs.Lookup
import Mathlib.Data.List.Basic
import Mathlib.Data.String.Basic

namespace Lisplet

def bytesOf (text : String) : List UInt8 :=
  text.toByteArray.data.toList

theorem bytesOf_eq (text : String) : bytesOf text = text.toList.flatMap String.utf8EncodeChar := by
  rw [bytesOf, ← String.ofList_toList (s := text), String.toByteArray_ofList, List.utf8Encode,
    List.toList_data_toByteArray, String.toList_ofList]

section Bytes

variable {n m : Nat}

theorem byte_lt_iff (hn : n < 256) (hm : m < 256) :
    UInt8.ofNat n < UInt8.ofNat m ↔ n < m := by
  rw [UInt8.lt_iff_toNat_lt, UInt8.toNat_ofNat_of_lt' hn, UInt8.toNat_ofNat_of_lt' hm]

theorem byte_eq_iff (hn : n < 256) (hm : m < 256) :
    UInt8.ofNat n = UInt8.ofNat m ↔ n = m := by
  rw [← UInt8.toNat_inj, UInt8.toNat_ofNat_of_lt' hn, UInt8.toNat_ofNat_of_lt' hm]

/-- The bytes of a lesser character are less, whatever follows. -/
theorem utf8EncodeChar_append_lt {c d : Char} (h : c < d) (rest rest' : List UInt8) :
    String.utf8EncodeChar c ++ rest < String.utf8EncodeChar d ++ rest' := by
  have hlt : c.val.toNat < d.val.toNat := h
  have hd : d.val.toNat < 0x110000 := by
    rcases d.valid with hlow | hhigh
    · omega
    · exact hhigh.2
  -- Bytes after the first have six bits each.
  have hsplit (v : Nat) : v / 4096 = v / 64 / 64 ∧ v / 262144 = v / 64 / 64 / 64 := by omega
  simp only [String.utf8EncodeChar]
  generalize c.val.toNat = v at *
  generalize d.val.toNat = w at *
  rw [(hsplit v).1, (hsplit v).2, (hsplit w).1, (hsplit w).2]
  -- One case for each number of bytes that the characters take.
  split_ifs
  all_goals first
    | omega
    | simp (disch := omega) only [List.cons_append, List.nil_append, List.cons_lt_cons_iff,
        byte_lt_iff, byte_eq_iff]
      omega

theorem flatMap_utf8EncodeChar_lt {text text' : List Char} (h : text < text') :
    text.flatMap String.utf8EncodeChar < text'.flatMap String.utf8EncodeChar := by
  induction text generalizing text' with
  | nil =>
      cases text' with
      | nil => exact absurd h (lt_irrefl _)
      | cons d ds =>
          rw [List.flatMap_cons]
          obtain ⟨byte, bytes, hbytes⟩ :=
            List.exists_cons_of_ne_nil (String.utf8EncodeChar_ne_nil (c := d))
          rw [hbytes]
          exact List.nil_lt_cons _ _
  | cons c cs ih =>
      cases text' with
      | nil => exact absurd h (List.not_lt_nil _)
      | cons d ds =>
          rw [List.flatMap_cons, List.flatMap_cons]
          rcases List.cons_lt_cons_iff.mp h with hlt | ⟨rfl, hlt⟩
          · exact utf8EncodeChar_append_lt hlt _ _
          · exact List.append_left_lt (ih hlt)

/-- Texts are in the order of their bytes. -/
theorem bytesOf_lt {text text' : String} (h : text < text') : bytesOf text < bytesOf text' := by
  rw [bytesOf_eq, bytesOf_eq]
  exact flatMap_utf8EncodeChar_lt (String.lt_iff_toList_lt.mp h)

end Bytes

namespace Frame

def Increasing (listing : Frame) : Prop :=
  listing.Pairwise fun binding later => binding.1 < later.1

variable {listing : Frame} {name : String} {value : Value}

theorem get?_insert (listing : Frame) (name : String) (value : Value) (other : String) :
    (listing.insert name value).get? other =
      if name = other then some value else listing.get? other := by
  induction listing with
  | nil => simp [insert, get?]
  | cons binding listing ih =>
      obtain ⟨bound, old⟩ := binding
      rw [insert]
      split
      · rw [get?]
      · split
        · next heq =>
            subst heq
            by_cases hother : name = other <;> simp [get?, hother]
        · next hne =>
            rw [get?, get?, ih]
            by_cases hbound : bound = other
            · rw [if_pos hbound, if_neg (fun heq => hne (heq.trans hbound.symm)), if_pos hbound]
            · rw [if_neg hbound, if_neg hbound]

theorem name_of_mem_insert {binding : String × Value}
    (h : binding ∈ listing.insert name value) : binding.1 = name ∨ binding ∈ listing := by
  induction listing with
  | nil =>
      rw [insert, List.mem_singleton] at h
      exact .inl (congrArg Prod.fst h)
  | cons first listing ih =>
      obtain ⟨bound, old⟩ := first
      rw [insert] at h
      split at h
      · rcases List.mem_cons.mp h with rfl | hold
        · exact .inl rfl
        · exact .inr hold
      · split at h
        · rcases List.mem_cons.mp h with rfl | hold
          · exact .inl rfl
          · exact .inr (List.mem_cons_of_mem _ hold)
        · rcases List.mem_cons.mp h with rfl | hnext
          · exact .inr List.mem_cons_self
          · exact (ih hnext).imp_right (List.mem_cons_of_mem _)

theorem Increasing.insert (h : listing.Increasing) (name : String) (value : Value) :
    (listing.insert name value).Increasing := by
  induction listing with
  | nil => exact List.pairwise_singleton _ _
  | cons first listing ih =>
      obtain ⟨bound, old⟩ := first
      obtain ⟨hfirst, hlisting⟩ := List.pairwise_cons.mp h
      rw [Frame.insert]
      split
      · next hlt =>
          refine List.pairwise_cons.mpr ⟨fun later hlater => ?_, h⟩
          rcases List.mem_cons.mp hlater with rfl | hlater
          · exact hlt
          · exact lt_trans hlt (hfirst later hlater)
      · next hnotLess =>
          split
          · next heq =>
              subst heq
              exact List.pairwise_cons.mpr ⟨hfirst, hlisting⟩
          · next hne =>
              refine List.pairwise_cons.mpr ⟨fun later hlater => ?_, ih hlisting⟩
              rcases name_of_mem_insert hlater with hname | hold
              · exact hname ▸ lt_of_le_of_ne (not_lt.mp hnotLess) (Ne.symm hne)
              · exact hfirst later hold

/-- What a frame binds goes before what was listed. -/
theorem get?_insertAll (listing frame : Frame) (name : String) :
    (listing.insertAll frame).get? name = (frame.get? name).or (listing.get? name) := by
  induction frame with
  | nil => rfl
  | cons binding frame ih =>
      rw [insertAll, List.foldr_cons, ← insertAll, get?_insert, ih, get?]
      by_cases hname : binding.1 = name
      · rw [if_pos hname, if_pos hname, Option.some_or]
      · rw [if_neg hname, if_neg hname]

theorem Increasing.insertAll (h : listing.Increasing) (frame : Frame) :
    (listing.insertAll frame).Increasing := by
  induction frame with
  | nil => exact h
  | cons binding frame ih => exact ih.insert binding.1 binding.2

/-- Where each name is listed once, its binding is the one that is found. -/
theorem Increasing.mem_iff (h : listing.Increasing) :
    (name, value) ∈ listing ↔ listing.get? name = some value := by
  induction listing with
  | nil => simp [get?]
  | cons first listing ih =>
      obtain ⟨bound, old⟩ := first
      obtain ⟨hfirst, hlisting⟩ := List.pairwise_cons.mp h
      rw [List.mem_cons, get?]
      by_cases hname : bound = name
      · subst hname
        have hnotMem : (bound, value) ∉ listing := fun hmem =>
          lt_irrefl _ (hfirst (bound, value) hmem)
        rw [if_pos rfl, Option.some_inj, Prod.mk.injEq, or_iff_left hnotMem, eq_comm (a := value)]
        exact and_iff_right rfl
      · rw [if_neg hname, Prod.mk.injEq, ← ih hlisting]
        exact or_iff_right fun heq => hname heq.1.symm

end Frame

namespace Machine

variable {m : Machine} {scope : Scope}

theorem bindings_increasing (m : Machine) (scope : Scope) : (m.bindings scope).Increasing := by
  rw [bindings]
  induction scope.frames with
  | nil => exact List.Pairwise.nil
  | cons index indices ih => exact ih.insertAll _

/-- A listing agrees with looking names up. -/
theorem get?_bindings (m : Machine) (scope : Scope) (name : String) :
    (m.bindings scope).get? name = m.lookup? scope name := by
  rw [bindings, lookup?]
  induction scope.frames with
  | nil => rfl
  | cons index indices ih =>
      rw [List.foldr_cons, Frame.get?_insertAll, ih, List.findSome?_cons]
      cases (m.frame index).get? name <;> rfl

theorem mem_bindings_iff {name : String} {value : Value} :
    (name, value) ∈ m.bindings scope ↔ m.lookup? scope name = some value := by
  rw [(m.bindings_increasing scope).mem_iff, get?_bindings]

/-- The names of a listing strictly increase in the order of their bytes. -/
theorem bytesOf_bindings_increasing (m : Machine) (scope : Scope) :
    ((m.bindings scope).map fun binding => bytesOf binding.1).Pairwise (· < ·) :=
  List.pairwise_map.mpr ((m.bindings_increasing scope).imp bytesOf_lt)

end Machine

end Lisplet
