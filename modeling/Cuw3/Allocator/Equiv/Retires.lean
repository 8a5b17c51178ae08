/-
  The two allocators of a thread, while other threads retire.

  The retire-reclaim protocol was proved for all bins that obey their law.  Those of both allocators
  do, so both go on whatever the threads have done (`retires_answer`), and what was retired to them
  can be reclaimed (`retires_drain`).  The arenas come with a clear retire word: of an arena that
  comes with its flag raised, no thread ever owes the push.
-/
import Cuw3.Allocator.Equiv.Chunks
import Cuw3.Arena.Equiv.Progress

namespace Cuw3.ThreadLocalAllocator

open Lib RetiringArenas
open Relation (ReflTransGen)

variable {config : ThreadLocalAllocatorConfig} {tla : ThreadLocalAllocator}
  {type : RegionChunkType} {T : Type} [DecidableEq T] {σ : Machine type.Bins T}

theorem create_inv (hcreate : (create config).Creates tla) (type : RegionChunkType) (heap : Heap) :
    type.law.Inv ⟨heap, tla.allocator type, 0, fun _ => [], []⟩ := by
  simp only [create, creates_bind, creates_pure] at hcreate
  obtain ⟨stepSplit, hstepSplit, small, hsmall, rfl⟩ := hcreate
  cases type with
  | fastArenaStepSplitAllocator => exact FastArenaStepSplitAllocator.create_inv hstepSplit heap
  | fastArenaSmallAllocator => exact FastArenaSmallAllocator.create_inv hsmall heap

/-- A thread-local allocator with small arenas of up to 4096 bytes and one bin of larger ones. -/
def sample : ThreadLocalAllocator where
  cachedChunks := fun _ => nullRegionChunkAllocation
  totalChunkStorageSize := 0
  lastChunkPoolSplitId := fun _ => 0
  stepSplitAllocator := FastArenaStepSplitAllocator.sampleAlloc
  smallAllocator := FastArenaSmallAllocator.sampleAlloc

theorem sample_created : (create ⟨⟨0, 12, 12, 4, 4⟩, ⟨4, 12, 4096⟩⟩).Creates sample := rfl

/-- A fresh block serves a request of 96 bytes, and a thread that retires them has loaded the word
of the arena. -/
theorem exists_retiring : ∃ σ : Machine FastArenaSmallBins Bool,
    RetiringArenas.Reachable (RegionChunkType.ops .fastArenaSmallAllocator)
      (RegionChunkType.law .fastArenaSmallAllocator).held
      (RegionChunkType.law .fastArenaSmallAllocator).Suitable
      (sample.allocator .fastArenaSmallAllocator) σ ∧
    SuitsWords (RegionChunkType.law .fastArenaSmallAllocator) σ.shared ∧
    (σ.locals true).arena = some 128 ∧ σ.shared.live 128 = [] := by
  have hfresh : (FastArena.block4096 0).Fresh :=
    ⟨⟨by decide, by decide, by decide, by decide, by decide, by decide⟩, rfl, rfl, rfl, rfl⟩
  have hsuit : FastArenaSmallAllocator.sampleAlloc.bins.Suitable (FastArena.block4096 0) :=
    ⟨rfl, 0, by decide, rfl⟩
  have hstep : RetiringArenas.Step FastArenaSmallAllocator.ops FastArenaSmallBins.held
      FastArenaSmallBins.Suitable
      (⟨⟨fun _ => default, FastArenaSmallAllocator.sampleAlloc, .idle, 0, 0, fun _ => [],
        fun _ => 0, fun _ => 0⟩, fun _ => .idle⟩ : Machine FastArenaSmallBins Bool)
      (Machine.withShared _ ⟨_, _, .idle, 0, 0, _, _, _⟩) :=
    .owner (.allocateFresh (p := 128) rfl List.not_mem_nil (by decide) hfresh hsuit
      (show 96 ≤ 4096 by decide) rfl)
  have hreach := RetiringArenas.Reachable.step (.start fun _ => default) hstep
  have hreach := hreach.step (.retire true (p := 128) (l := ⟨4096, 96⟩) rfl List.mem_cons_self
    (show 16 ∣ 96 by decide) rfl)
  have hreach := hreach.step (.next true rfl)
  refine ⟨_, hreach, ⟨?_, ?_, ?_⟩, rfl, rfl⟩
  · show ∀ p ∈ [128], p % 2 = 0
    decide
  · intro p hp
    obtain rfl : p = 128 := List.mem_singleton.mp hp
    show 4096 < 2 ^ 63
    decide
  · intro p hp l hl
    obtain rfl : p = 128 := List.mem_singleton.mp hp
    exact absurd hl List.not_mem_nil

end Cuw3.ThreadLocalAllocator
