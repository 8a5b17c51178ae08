/-
  Blocks of addresses and their total size.

  A block is a half-open range, given by its start and its size.  Blocks no two of which have an
  address in common, and which lie in a range, have together at most its size (`Block.total_le`):
  the number of addresses that they cover is their total size (`Block.exists_cover`).
-/
import Mathlib.Algebra.BigOperators.Group.List.Basic
import Mathlib.Algebra.Ring.Nat
import Mathlib.Data.Finset.Card
import Mathlib.Order.Interval.Finset.Nat

namespace Cuw3.Lib

/-- The addresses from `start` on, `size` of them. -/
structure Block where
  start : Nat
  size : Nat

namespace Block

/-- The address is in the block. -/
def Has (b : Block) (x : Nat) : Prop := b.start ≤ x ∧ x < b.start + b.size

/-- No address is in both blocks. -/
def Apart (b b' : Block) : Prop := ∀ x, b.Has x → ¬b'.Has x

/-- The sum of the sizes. -/
def total (bs : List Block) : Nat := (bs.map size).sum

variable {b : Block} {bs bs' : List Block} {lo hi : Nat}

@[simp] theorem total_nil : total [] = 0 := rfl

@[simp] theorem total_cons : total (b :: bs) = b.size + total bs := by
  simp [total]

@[simp] theorem total_append : total (bs ++ bs') = total bs + total bs' := by
  simp [total]

theorem total_perm (h : bs.Perm bs') : total bs = total bs' := (h.map size).sum_eq

/-- Blocks of the same sizes. -/
theorem total_map_congr {α : Type} {as : List α} {f g : α → Block}
    (h : ∀ a ∈ as, (f a).size = (g a).size) : total (as.map f) = total (as.map g) := by
  rw [total, total, List.map_map, List.map_map]
  exact congrArg List.sum (List.map_congr_left h)

/-- The addresses that blocks apart from each other cover, and their number. -/
theorem exists_cover (h : bs.Pairwise Apart) :
    ∃ s : Finset Nat, s.card = total bs ∧ ∀ x, x ∈ s ↔ ∃ b ∈ bs, b.Has x := by
  induction bs with
  | nil => exact ⟨∅, rfl, by simp⟩
  | cons b bs ih =>
    obtain ⟨hb, hbs⟩ := List.pairwise_cons.mp h
    obtain ⟨s, hcard, hmem⟩ := ih hbs
    have hico : ∀ x, x ∈ Finset.Ico b.start (b.start + b.size) ↔ b.Has x := fun x => Finset.mem_Ico
    refine ⟨Finset.Ico b.start (b.start + b.size) ∪ s, ?_, ?_⟩
    · -- the first block shares no address with the others
      have hdisjoint : Disjoint (Finset.Ico b.start (b.start + b.size)) s := by
        refine Finset.disjoint_left.mpr fun x hx hxs => ?_
        obtain ⟨b', hb', hx'⟩ := (hmem x).mp hxs
        exact hb b' hb' x ((hico x).mp hx) hx'
      rw [Finset.card_union_of_disjoint hdisjoint, hcard, Nat.card_Ico, total_cons]
      omega
    · intro x
      rw [Finset.mem_union, hico, hmem]
      simp

/-- **Blocks apart from each other, in one range, have together at most its size.** -/
theorem total_le (h : bs.Pairwise Apart) (hin : ∀ b ∈ bs, lo ≤ b.start ∧ b.start + b.size ≤ hi) :
    total bs ≤ hi - lo := by
  obtain ⟨s, hcard, hmem⟩ := exists_cover h
  have hsub : s ⊆ Finset.Ico lo hi := by
    intro x hx
    obtain ⟨b, hb, hlo, hhi⟩ := (hmem x).mp hx
    obtain ⟨hstart, hend⟩ := hin b hb
    exact Finset.mem_Ico.mpr ⟨by omega, by omega⟩
  calc total bs = s.card := hcard.symm
    _ ≤ (Finset.Ico lo hi).card := Finset.card_le_card hsub
    _ = hi - lo := Nat.card_Ico lo hi

end Block

end Cuw3.Lib
