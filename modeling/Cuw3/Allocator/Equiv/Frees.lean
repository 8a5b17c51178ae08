/-
  Frees by other threads.

  `construct_arena_` sets the retired flag of a new arena, and `retire` pushes an arena to the list
  of its owner only when the flag was clear.  So an arena of the assembled allocator is never in a
  list, and the bytes that other threads free are never reclaimed: no free is lost exactly in the
  runs where every allocation is freed by the owner of its arena (`noFreeLost_iff`).
-/
import Cuw3.Allocator.Equiv.Runs
import Cuw3.Lib.Linked

namespace Cuw3

open Lib

namespace Allocator

/-- The arena is in the list of retired arenas of the allocator, or in the postponed one. -/
def Listed (alloc : Allocator) (t : Nat) (type : RegionChunkType) (p : Nat) : Prop :=
  ∃ ps, p ∈ ps ∧
    (Linked 0 (BinsLaw.nexts alloc.heap)
      (RetireReclaimPtr.ptr ((alloc.tlas t).allocator type).retiredArenas.head) ps ∨
    Linked 0 (BinsLaw.nexts alloc.heap)
      ((alloc.tlas t).allocator type).retiredArenas.nextPostponed ps)

/-- Every arena with retired bytes is in a list of its owner. -/
def NoFreeLost (threads : List Nat) (alloc : Allocator) : Prop :=
  ∀ t ∈ threads, ∀ type, ∀ p ∈ (alloc.tlas t).held type, (alloc.heap p).pending ≠ 0 →
    alloc.Listed t type p

variable {threads : List Nat} {w : World} {alloc : Allocator} {live : List Allocation} {t p : Nat}
  {type : RegionChunkType}

/-- Both lists stay empty. -/
theorem KindHolds.not_listed (h : alloc.KindHolds live t type) : ¬alloc.Listed t type p := by
  rintro ⟨ps, hp, hlinked | hlinked⟩
  · have hptr : RetireReclaimPtr.ptr 1 = 0 := RetireReclaimPtr.ptr_eq (by decide)
    rw [h.retired, hptr, Linked.null_iff] at hlinked
    subst hlinked
    cases hp
  · rw [h.retired, Linked.null_iff] at hlinked
    subst hlinked
    cases hp

theorem Inv.noFreeLost (h : Inv threads w) : w.alloc.NoFreeLost threads ↔ w.foreign = false := by
  constructor
  · intro hall
    by_contra hforeign
    obtain ⟨p, ⟨t, ht, type, hp⟩, hne⟩ := h.lost (by simpa using hforeign)
    exact (h.kind t ht type).not_listed (hall t ht type p hp hne)
  · exact fun hforeign t ht type p hp hne => absurd (h.quiet hforeign p ⟨t, ht, type, hp⟩) hne

/-- The first thread allocates 16 bytes, which are its own, and both threads can free. -/
def sampleRun : Bool :=
  match sampleAllocator.allocate true 64 16 16 with
  | .ok (.acquired 65536, alloc) => (alloc.ownerOf 65536).toOption == some 64 &&
    (alloc.deallocate 64 65536 16).isOk && (alloc.deallocate 128 65536 16).isOk
  | _ => false

theorem ok_of_isOk {α : Type} {x : Checked α} (h : x.isOk = true) : ∃ a, x = .ok a := by
  cases x with
  | error => cases h
  | ok a => exact ⟨a, rfl⟩

theorem reachable_sample : ∃ alloc, Reachable [64, 128] ⟨alloc, [⟨65536, 16⟩], false⟩ ∧
    alloc.ownerOf 65536 = .ok 64 ∧
    ∀ t ∈ [64, 128], ∃ alloc', alloc.deallocate t 65536 16 = .ok alloc' := by
  have hrun : sampleRun = true := by decide +kernel
  rw [sampleRun] at hrun
  split at hrun
  case h_1 alloc hallocate =>
    simp only [Bool.and_eq_true, beq_iff_eq] at hrun
    obtain ⟨⟨howner, hok⟩, hok'⟩ := hrun
    have hreach := Reachable.step (.init sampleAllocator_fresh)
      (.allocate (by decide) (by decide) hallocate)
    refine ⟨alloc, hreach, ?_, fun t ht => ?_⟩
    · cases hx : alloc.ownerOf 65536 <;> simp_all [Except.toOption]
    · obtain rfl | rfl : t = 64 ∨ t = 128 := by simpa using ht
      · exact ok_of_isOk hok
      · exact ok_of_isOk hok'
  case h_2 => cases hrun

end Allocator

end Cuw3
