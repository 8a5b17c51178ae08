/-
  What an allocator is for: a store of blocks of addresses.

  A client asks for a size and an alignment, and gets a block that no other live block shares an
  address with, or nothing; it gives back a live block.  The live blocks of every run are apart from
  each other and below the limit of the address space (`BlockStore.reaches_apart`).
-/
import Cuw3.Lib.Blocks
import Cuw3.Lib.TransitionSystem

namespace Cuw3.Lib

deriving instance DecidableEq for Block

namespace BlockStore

/-- What happens between a client and the store: a request, with the start of the block or 0; and
the return of a block. -/
inductive Label where
  | alloc (size alignment start : Nat)
  | free (start size : Nat)

/-- The block of a request: a size of 0 counts as 1. -/
def block (start size : Nat) : Block := ⟨start, max size 1⟩

/-- The block may be handed out while these are live. -/
structure Fresh (limit : Nat) (live : List Block) (b : Block) (alignment : Nat) : Prop where
  aligned : alignment ∣ b.start
  start_pos : 0 < b.start
  below : b.start + b.size ≤ limit
  apart : ∀ b' ∈ live, b.Apart b'

/-- The live blocks before and after. -/
inductive Step (limit : Nat) : List Block → Label → List Block → Prop
  | refuse {live : List Block} {size alignment : Nat} :
      Step limit live (.alloc size alignment 0) live
  | serve {live : List Block} {size alignment start : Nat}
      (h : Fresh limit live (block start size) alignment) :
      Step limit live (.alloc size alignment start) (block start size :: live)
  | free {live : List Block} {start size : Nat} (h : block start size ∈ live) :
      Step limit live (.free start size) (live.erase (block start size))

/-- The store over the addresses below `limit`. -/
def machine (limit : Nat) : TransitionSystem (List Block) Label :=
  ⟨fun live => live = [], Step limit⟩

/-- The live blocks lie below the limit, and apart from each other. -/
structure Sound (limit : Nat) (live : List Block) : Prop where
  below : ∀ b ∈ live, 0 < b.start ∧ b.start + b.size ≤ limit
  apart : live.Pairwise Block.Apart

theorem invariant (limit : Nat) : (machine limit).Invariant (Sound limit) where
  init h := by
    obtain rfl := h
    exact ⟨fun b hb => absurd hb List.not_mem_nil, .nil⟩
  step h hstep := by
    cases hstep with
    | refuse => exact h
    | serve hfresh =>
      refine ⟨fun b hb => ?_, List.pairwise_cons.mpr ⟨hfresh.apart, h.apart⟩⟩
      rcases List.mem_cons.mp hb with rfl | hb
      · exact ⟨hfresh.start_pos, hfresh.below⟩
      · exact h.below b hb
    | free =>
      exact ⟨fun b hb => h.below b (List.mem_of_mem_erase hb),
        h.apart.sublist List.erase_sublist⟩

/-- **The live blocks are apart from each other in every run.** -/
theorem reaches_apart {limit : Nat} {ls : List Label} {live : List Block}
    (h : (machine limit).Reaches ls live) : Sound limit live :=
  (invariant limit).reaches h

/-- Together they have at most as many bytes as there are addresses. -/
theorem reaches_total_le {limit : Nat} {ls : List Label} {live : List Block}
    (h : (machine limit).Reaches ls live) : Block.total live ≤ limit := by
  have hsound := reaches_apart h
  exact Block.total_le hsound.apart fun b hb => ⟨b.start.zero_le, (hsound.below b hb).2⟩

end BlockStore

end Cuw3.Lib
