/-
  Families of lists and what they hold together.

  `slots is f` concatenates the lists `f i`, for the indices `i` in `is`.  Replacing one of them
  changes the whole as it changes that list (`slots_update_perm`), so an element pushed to or taken
  from one list is pushed to or taken from the whole (`slots_push`, `slots_take`).
-/
import Mathlib.Data.List.Nodup
import Mathlib.Data.List.Perm.Subperm
import Mathlib.Data.List.Range

namespace Cuw3.Lib

variable {ι α : Type} {is : List ι} {i : ι} {f : ι → List α} {xs : List α}

/-- The elements of the lists `f i`, for `i` in `is`. -/
def slots (is : List ι) (f : ι → List α) : List α := is.flatMap f

@[simp] theorem mem_slots {a : α} : a ∈ slots is f ↔ ∃ i ∈ is, a ∈ f i := by simp [slots]

theorem slots_congr {g : ι → List α} (h : ∀ i ∈ is, f i = g i) : slots is f = slots is g :=
  List.flatMap_congr h

theorem slots_eq_nil (h : ∀ i ∈ is, f i = []) : slots is f = [] := List.flatMap_eq_nil_iff.mpr h

/-- Permuting each list permutes the whole. -/
theorem slots_perm {g : ι → List α} (h : ∀ i ∈ is, (f i).Perm (g i)) :
    (slots is f).Perm (slots is g) := by
  induction is with
  | nil => exact .refl _
  | cons j js ih =>
    exact (h j List.mem_cons_self).append (ih fun i hi => h i (List.mem_cons_of_mem _ hi))

section Update

variable [DecidableEq ι]

/-- One list and all the others. -/
theorem slots_perm_cons (hi : i ∈ is) : (slots is f).Perm (f i ++ (is.erase i).flatMap f) := by
  have h := (List.perm_cons_erase hi).flatMap_right f
  rwa [List.flatMap_cons] at h

/-- A change of one list is a change of the whole. -/
theorem slots_update_perm (ps qs : List α) (hnodup : is.Nodup) (hi : i ∈ is)
    (h : (ps ++ xs).Perm (qs ++ f i)) :
    (ps ++ slots is (Function.update f i xs)).Perm (qs ++ slots is f) := by
  have hothers : (is.erase i).flatMap (Function.update f i xs) = (is.erase i).flatMap f := by
    refine List.flatMap_congr fun j hj => Function.update_of_ne ?_ _ _
    exact (hnodup.mem_erase_iff.mp hj).1
  have hnew := slots_perm_cons (f := Function.update f i xs) hi
  rw [hothers, Function.update_self] at hnew
  have hold := slots_perm_cons (f := f) hi
  have hmid : (ps ++ xs ++ (is.erase i).flatMap f).Perm (qs ++ f i ++ (is.erase i).flatMap f) :=
    h.append_right _
  rw [List.append_assoc, List.append_assoc] at hmid
  exact (hnew.append_left ps).trans (hmid.trans (hold.symm.append_left qs))

/-- An element is pushed to one list. -/
theorem slots_push {a : α} (hnodup : is.Nodup) (hi : i ∈ is) (h : xs.Perm (a :: f i)) :
    (slots is (Function.update f i xs)).Perm (a :: slots is f) :=
  slots_update_perm [] [a] hnodup hi h

/-- An element is taken from one list. -/
theorem slots_take {a : α} (hnodup : is.Nodup) (hi : i ∈ is) (h : (a :: xs).Perm (f i)) :
    (a :: slots is (Function.update f i xs)).Perm (slots is f) :=
  slots_update_perm [a] [] hnodup hi h

/-- The lists of a family without repetition do not meet. -/
theorem slots_unique {j : ι} {a : α} (hnodup : is.Nodup) (h : (slots is f).Nodup) (hi : i ∈ is)
    (hj : j ∈ is) (hai : a ∈ f i) (haj : a ∈ f j) : i = j := by
  by_contra hne
  refine List.disjoint_of_nodup_append ((slots_perm_cons hi).nodup_iff.mp h) hai
    (List.mem_flatMap.mpr ⟨j, ?_, haj⟩)
  exact hnodup.mem_erase_iff.mpr ⟨fun h => hne h.symm, hj⟩

end Update

theorem slots_nodup_part (h : (slots is f).Nodup) (hi : i ∈ is) : (f i).Nodup := by
  classical
  exact (List.nodup_append.mp ((slots_perm_cons hi).nodup_iff.mp h)).1

/-- Distinct positive 64-bit addresses are fewer than `2^64`. -/
theorem length_lt_of_nodup {bound : Nat} {xs : List Nat} (h : xs.Nodup)
    (hlt : ∀ x ∈ xs, 0 < x ∧ x < bound) (hbound : 0 < bound) : xs.length < bound := by
  have hsub : (0 :: xs).Subperm (List.range bound) := by
    refine (List.subperm_of_subset ?_ ?_)
    · exact List.nodup_cons.mpr ⟨fun h0 => absurd (hlt 0 h0).1 (by omega), h⟩
    · intro x hx
      rcases List.mem_cons.mp hx with rfl | hx
      · exact List.mem_range.mpr hbound
      · exact List.mem_range.mpr (hlt x hx).2
  have := hsub.length_le
  simp only [List.length_cons, List.length_range] at this
  omega

end Cuw3.Lib
