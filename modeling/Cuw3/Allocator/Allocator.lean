/-
  `allocator.hpp`: the assembled allocator.

  `Allocator` is the object of the source with the memory it reaches: the arenas in the handle
  memory, the thread-local allocators by their addresses, and which chunks are committed.  A
  function is run by one thread at a time; whether `vmem_commit` succeeds is an argument
  (`commitOk`), the other calls of `vmem.hpp` succeed.  The functions that the source writes for
  both kinds of arenas take the kind.
-/
import Cuw3.Region.Pools
import Cuw3.Allocator.ThreadLocalAllocator

namespace Cuw3

structure Allocator where
  rca : RegionChunkAllocator
  heap : Heap
  tlas : Nat → ThreadLocalAllocator
  /-- By the address of a chunk. -/
  committed : Nat → Bool

namespace Allocator

variable (alloc : Allocator)

def withTla (tla : Nat) (object : ThreadLocalAllocator) : Allocator :=
  { alloc with tlas := Function.update alloc.tlas tla object }

/-- A function of one of the allocators of a thread was run. -/
def withAllocator (tla : Nat) (type : RegionChunkType) (heap : Heap)
    (allocator : ArenaAllocator type.Bins) : Allocator :=
  { alloc with
    heap
    tlas := Function.update alloc.tlas tla ((alloc.tlas tla).withAllocator type allocator) }

/-! ### Chunks -/

/-- The cached chunk of the smallest region from `region` on. -/
def findCachedChunk (tla region : Nat) : Option Nat :=
  (List.range' region (confMaxCachedChunkSizeId + 1 - region)).find? fun currRegion =>
    ((alloc.tlas tla).cachedChunks currRegion).valid

/-- The loop of `allocate_chunk_` over the regions that are left, from `currRegion`. -/
def allocateNewChunk (commitOk : Bool) (tla : Nat) :
    Allocator → Nat → Nat → Checked (RegionChunkAllocation × Allocator)
  | alloc, 0, _ => pure (nullRegionChunkAllocation, alloc)
  | alloc, turns + 1, currRegion => do
    let splitStart := u32 ((alloc.tlas tla).lastChunkPoolSplitId currRegion)
    let (chunk, rca) ← alloc.rca.allocateChunk currRegion ⟨4, -1, splitStart, 1⟩
    let alloc := { alloc with rca }
    if !chunk.valid then
      return ← allocateNewChunk commitOk tla alloc turns (currRegion + 1)
    let object := alloc.tlas tla
    let chunkSize ← (← alloc.rca.getRegionSpec currRegion).getChunkSize
    let alloc := alloc.withTla tla { object with
      lastChunkPoolSplitId := Function.update object.lastChunkPoolSplitId currRegion chunk.split
      totalChunkStorageSize := u64 (object.totalChunkStorageSize + chunkSize) }
    let memory ← alloc.rca.chunkAllocationToMemory chunk
    if !commitOk then
      let rca ← alloc.rca.deallocateChunk chunk
      return (nullRegionChunkAllocation, { alloc with rca })
    pure (chunk, { alloc with committed := Function.update alloc.committed memory.chunk true })

/-- `allocate_chunk_`. -/
def allocateChunk (commitOk : Bool) (tla size alignment : Nat) :
    Checked (RegionChunkAllocation × Allocator) := do
  let object := alloc.tlas tla
  let demand := max (← align size alignment)
    (min (← alloc.rca.getMaxChunkSize) object.totalChunkStorageSize)
  let region := alloc.rca.specs.searchSuitableRegion demand
  if region = regionChunkAllocatorNullValue then
    return (nullRegionChunkAllocation, alloc)
  match alloc.findCachedChunk tla region with
  | some currRegion =>
    let chunk := object.cachedChunks currRegion
    pure (chunk, alloc.withTla tla (object.withCachedChunk currRegion nullRegionChunkAllocation))
  | none => allocateNewChunk commitOk tla alloc (alloc.rca.specs.numRegions - region) region

/-- `deallocate_chunk_`. -/
def deallocateChunk (tla : Nat) (chunk : RegionChunkAllocation) : Checked Allocator := do
  let object := alloc.tlas tla
  if chunk.region ≤ confMaxCachedChunkSizeId ∧ !(object.cachedChunks chunk.region).valid then
    return alloc.withTla tla (object.withCachedChunk chunk.region chunk)
  let memory ← alloc.rca.chunkAllocationToMemory chunk
  let alloc := alloc.withTla tla { object with
    totalChunkStorageSize := sub64 object.totalChunkStorageSize memory.chunkSize }
  let rca ← alloc.rca.deallocateChunk chunk
  pure { alloc with rca, committed := Function.update alloc.committed memory.chunk false }

/-! ### Arenas -/

/-- `construct_arena_`. -/
def constructArena (tla : Nat) (memory : RegionChunkMemory) (alignment type : Nat) :
    Created FastArena :=
  FastArena.create ⟨memory.handle, memory.handleSize⟩ {
    owner := tla
    arenaType := type
    arenaMemory := memory.chunk
    arenaMemorySize := memory.chunkSize
    arenaAlignment := alignment
    retireReclaimFlags := retiredFlag }

/-- `destroy_arena_`, which does nothing. -/
def destroyArena (_tla _arena : Nat) : Allocator := alloc

/-- `acquire_new_arena_`. -/
def acquireNewArena (commitOk : Bool) (tla size alignment arenaType : Nat) :
    Checked (Nat × Allocator) := do
  let (chunk, alloc) ← alloc.allocateChunk commitOk tla size alignment
  if !chunk.valid then
    return (0, alloc)
  let memory ← alloc.rca.chunkAllocationToMemory chunk
  match ← (constructArena tla memory alignment arenaType).run with
  | .ok arena =>
    pure (memory.handle, { alloc with heap := Function.update alloc.heap memory.handle arena })
  | .error _ => abortCritical "failed to construct small arena"

/-! ### Allocation -/

/-- `allocate_small_allocator_` and `allocate_step_split_allocator_`. -/
def allocateWith (commitOk : Bool) (tla : Nat) (type : RegionChunkType) (size alignment : Nat) :
    Checked (AcquiredResource × Allocator) := do
  let allocator := (alloc.tlas tla).allocator type
  let (acquired, heap, bins) ← type.ops.acquire alloc.heap allocator.bins size alignment
  let alloc := alloc.withAllocator tla type heap { allocator with bins }
  match acquired with
  | .noResource =>
    let (arena, alloc) ← alloc.acquireNewArena commitOk tla size alignment type.val
    if arena = 0 then
      return (.noResource, alloc)
    let (ptr, heap, allocator) ←
      type.ops.allocate alloc.heap ((alloc.tlas tla).allocator type) arena size
    pure (.acquired ptr, alloc.withAllocator tla type heap allocator)
  | .acquired arena =>
    let (ptr, heap, allocator) ←
      type.ops.allocate alloc.heap ((alloc.tlas tla).allocator type) arena size
    pure (.acquired ptr, alloc.withAllocator tla type heap allocator)
  | .failed => pure (.failed, alloc)

def allocateSmallAllocator (commitOk : Bool) (tla size alignment : Nat) :
    Checked (AcquiredResource × Allocator) :=
  alloc.allocateWith commitOk tla .fastArenaSmallAllocator size alignment

def allocateStepSplitAllocator (commitOk : Bool) (tla size alignment : Nat) :
    Checked (AcquiredResource × Allocator) :=
  alloc.allocateWith commitOk tla .fastArenaStepSplitAllocator size alignment

def allocate (commitOk : Bool) (tla size alignment : Nat) : Checked
    (AcquiredResource × Allocator) :=
  if !isAlignment alignment then pure (.failed, alloc)
  else
    let size := max size 1
    if size ≤ (alloc.tlas tla).smallAllocator.getSizeCutoff then
      alloc.allocateSmallAllocator commitOk tla size alignment
    else
      alloc.allocateStepSplitAllocator commitOk tla size alignment

/-! ### Deallocation -/

/-- The branch of `deallocate_owner_` for arenas of a kind; a drained arena's chunk is given back.
-/
def deallocateOwnerWith (tla : Nat) (type : RegionChunkType) (arena ptr size : Nat) :
    Checked Allocator := do
  let (released, heap, allocator) ←
    type.ops.deallocate alloc.heap ((alloc.tlas tla).allocator type) arena ptr size
  let alloc := alloc.withAllocator tla type heap allocator
  if released = 0 then
    return alloc
  let alloc := alloc.destroyArena tla released
  let chunk ← alloc.rca.ptrToAllocation (alloc.heap released).arenaMemory
  check chunk.valid "Attempt to deallocate invalid chunk"
  alloc.deallocateChunk tla chunk

/-- `deallocate_owner_`. -/
def deallocateOwner (tla arena ptr size : Nat) : Checked Allocator :=
  let type := (alloc.heap arena).type
  if type = RegionChunkType.fastArenaSmallAllocator.val then
    alloc.deallocateOwnerWith tla .fastArenaSmallAllocator arena ptr size
  else if type = RegionChunkType.fastArenaStepSplitAllocator.val then
    alloc.deallocateOwnerWith tla .fastArenaStepSplitAllocator arena ptr size
  else
    abortCritical "Invalid arena type detected"

/-- The branch of `deallocate_non_owner_` for arenas of a kind. -/
def deallocateNonOwnerWith (arenaTla : Nat) (type : RegionChunkType) (arena ptr size : Nat) :
    Checked Allocator := do
  let (_, heap, allocator) ← ArenaAllocator.retire type.ops.toBinsOps alloc.heap
    ((alloc.tlas arenaTla).allocator type) arena ptr size
  pure (alloc.withAllocator arenaTla type heap allocator)

/-- `deallocate_non_owner_`. -/
def deallocateNonOwner (arenaTla arena ptr size : Nat) : Checked Allocator :=
  let type := (alloc.heap arena).type
  if type = RegionChunkType.fastArenaSmallAllocator.val then
    alloc.deallocateNonOwnerWith arenaTla .fastArenaSmallAllocator arena ptr size
  else if type = RegionChunkType.fastArenaStepSplitAllocator.val then
    alloc.deallocateNonOwnerWith arenaTla .fastArenaStepSplitAllocator arena ptr size
  else
    abortCritical "Invalid arena type detected"

/-- The arena of a pointer. -/
def arenaOf (ptr : Nat) : Checked Nat := do
  let chunk ← alloc.rca.ptrToAllocation ptr
  check chunk.valid "attempt to deallocate invalid pointer"
  let memory ← alloc.rca.regionDataToMemory chunk.region chunk.chunk chunk.handle
  pure memory.handle

def deallocate (tla ptr size : Nat) : Checked Allocator := do
  let size := max size 1
  let arena ← alloc.arenaOf ptr
  let arenaTla := (alloc.heap arena).owner
  if tla = arenaTla then
    alloc.deallocateOwner tla arena ptr size
  else
    alloc.deallocateNonOwner arenaTla arena ptr size

/-! ### Reclamation -/

/-- The loop of `reclaim_small_allocator_` and `reclaim_step_split_allocator_` over the list of
retired arenas from `head`, for at most `fuel` arenas; `none` when there are more. -/
def reclaimList (tla : Nat) (type : RegionChunkType) :
    Nat → Nat → Allocator → Checked (Option Allocator)
  | fuel, head, alloc =>
    if head = 0 then pure (some alloc)
    else match fuel with
      | 0 => pure none
      | fuel + 1 => do
        let (arena, head, heap) ← FastArenaReclaimList.pop alloc.heap head
        let (released, heap, allocator) ←
          type.ops.reclaimArena heap ((alloc.tlas tla).allocator type) arena
        let alloc := alloc.withAllocator tla type heap allocator
        let alloc := if released ≠ 0 then alloc.destroyArena tla released else alloc
        reclaimList tla type fuel head alloc

/-- `reclaim_small_allocator_` and `reclaim_step_split_allocator_`. -/
def reclaimWith (fuel tla : Nat) (type : RegionChunkType) : Checked (Option Allocator) := do
  let (head, allocator) ← ArenaAllocator.reclaimArenas ((alloc.tlas tla).allocator type)
  reclaimList tla type fuel head (alloc.withAllocator tla type alloc.heap allocator)

/-- `reclaim`: whether both allocators hold no arena in the end. -/
def reclaim (fuel tla : Nat) : Checked (Option (Bool × Allocator)) := do
  let some alloc ← alloc.reclaimWith fuel tla .fastArenaSmallAllocator | return none
  let some alloc ← alloc.reclaimWith fuel tla .fastArenaStepSplitAllocator | return none
  let object := alloc.tlas tla
  pure (some (object.smallAllocator.empty && object.stepSplitAllocator.empty, alloc))

end Allocator

end Cuw3
