/-
  `thread_local_allocator.hpp`: the two allocators of a thread and its cached chunks.

  Of the fields, those that `Allocator::allocate`, `deallocate` and `reclaim` use are kept.
-/
import Cuw3.Region.Specs
import Cuw3.Small.FastArenaSmallAllocator
import Cuw3.StepSplit.FastArenaStepSplitAllocator

namespace Cuw3

structure ThreadLocalAllocatorConfig where
  stepSplitAllocConfig : FastArenaBinsConfig
  smallAllocConfig : FastArenaSmallBinsConfig

/-- The arrays are functions on regions. -/
structure ThreadLocalAllocator where
  cachedChunks : Nat → RegionChunkAllocation
  totalChunkStorageSize : Nat
  lastChunkPoolSplitId : Nat → Nat
  stepSplitAllocator : FastArenaStepSplitAllocator
  smallAllocator : FastArenaSmallAllocator

def ThreadLocalAllocator.create (config : ThreadLocalAllocatorConfig) :
    Created ThreadLocalAllocator := do
  let stepSplitAllocator ← FastArenaStepSplitAllocator.create config.stepSplitAllocConfig
  let smallAllocator ← FastArenaSmallAllocator.create config.smallAllocConfig
  pure {
    cachedChunks := fun _ => nullRegionChunkAllocation
    totalChunkStorageSize := 0
    lastChunkPoolSplitId := fun _ => 0
    stepSplitAllocator, smallAllocator }

/-! ### The two allocators by their kind -/

namespace RegionChunkType

/-- The bins of the allocator of a kind. -/
abbrev Bins : RegionChunkType → Type
  | fastArenaStepSplitAllocator => FastArenaBins
  | fastArenaSmallAllocator => FastArenaSmallBins

def ops : (type : RegionChunkType) → AllocatorOps type.Bins
  | fastArenaStepSplitAllocator => FastArenaStepSplitAllocator.ops
  | fastArenaSmallAllocator => FastArenaSmallAllocator.ops

end RegionChunkType

namespace ThreadLocalAllocator

variable (tla : ThreadLocalAllocator)

/-- The allocator of a kind. -/
def allocator : (type : RegionChunkType) → ArenaAllocator type.Bins
  | .fastArenaStepSplitAllocator => tla.stepSplitAllocator
  | .fastArenaSmallAllocator => tla.smallAllocator

def withAllocator : (type : RegionChunkType) → ArenaAllocator type.Bins → ThreadLocalAllocator
  | .fastArenaStepSplitAllocator, alloc => { tla with stepSplitAllocator := alloc }
  | .fastArenaSmallAllocator, alloc => { tla with smallAllocator := alloc }

def withCachedChunk (region : Nat) (chunk : RegionChunkAllocation) : ThreadLocalAllocator :=
  { tla with cachedChunks := Function.update tla.cachedChunks region chunk }

end ThreadLocalAllocator

end Cuw3
