/-
  `atomic.hpp` and `region_chunk_allocator.hpp`: taking chunks from the pools and giving them back,
  by one thread running alone.

  Alone, a compare-exchange that follows the load of its expected value succeeds, so `push` and
  `pop` are done after one attempt.  `op_failed` is left for a `pop` that may make none.
-/
import Cuw3.Region.Specs
import Mathlib.Logic.Function.Basic

namespace Cuw3

/-! ### The free lists and the bump stacks -/

/- `AtomicListView<RegionPoolCommonTraits>`, with the links `pool_handles`. -/
namespace RegionChunkPoolListView

/-- `push`: the links and the head after it. -/
def push (numHandles : Nat) (links : Nat → Nat) (head : RegionChunkPoolListHead) (node : Nat) :
    Checked ((Nat → Nat) × RegionChunkPoolListHead) := do
  check (node < numHandles) "invalid link value 'node' passed"
  check (head.next < numHandles ∨ head.next = regionChunkPoolNullLink)
    "invalid link value 'next' passed"
  pure (Function.update links node head.next, ⟨u32 (head.version + 1), node⟩)

/-- `pop`: the node and the head after it. -/
def pop (numHandles : Nat) (links : Nat → Nat) (head : RegionChunkPoolListHead) (attempts : Int) :
    Checked (Nat × RegionChunkPoolListHead) := do
  if attempts = 0 then
    return (regionChunkPoolFailedAlloc, head)
  if head.next = regionChunkPoolNullLink then
    return (regionChunkPoolNullLink, head)
  check (head.next < numHandles) "invalid node handle passed"
  pure (head.next, ⟨u32 (head.version + 1), links head.next⟩)

end RegionChunkPoolListView

/-- `AtomicBumpStackView::bump`: the index and the top after it. -/
def RegionChunkPoolStackView.bump (limit top : Nat) : Nat × Nat :=
  if limit ≤ top then (regionChunkPoolNullLink, top) else (top, u32 (top + 1))

/-! ### The pools -/

/-- A negative number of rounds or attempts means no limit. -/
structure RegionChunkAllocParams where
  rounds : Int
  attempts : Int
  splitStart : Nat
  splitStep : Nat

namespace RegionChunkAllocatorPools

variable (pools : RegionChunkAllocatorPools)

def withEntry (region split : Nat) (entry : RegionPoolEntry) : RegionChunkAllocatorPools :=
  let entries := Function.update (pools.poolEntries region) split entry
  { pools with poolEntries := Function.update pools.poolEntries region entries }

def nextSplit (split step : Nat) : Checked Nat := do
  check (step = 0 ∨ step % 2 = 1) "invalid step value"
  pure (u32 (split + step) &&& (pools.numSplits - 1))

def allocateFromList (numHandles : Nat) (links : Nat → Nat) (region split : Nat) (attempts : Int) :
    Checked (Nat × RegionChunkAllocatorPools) := do
  check (region < pools.numRegions) "invalid region"
  check (split < pools.numSplits) "invalid split"
  let entry := pools.poolEntries region split
  let (handle, freeList) ← RegionChunkPoolListView.pop numHandles links entry.freeList attempts
  pure (handle, pools.withEntry region split { entry with freeList })

def allocateFromStack (region split : Nat) : Checked (Nat × RegionChunkAllocatorPools) := do
  check (region < pools.numRegions) "invalid region"
  check (split < pools.numSplits) "invalid split"
  let entry := pools.poolEntries region split
  let (handle, freeStack) := RegionChunkPoolStackView.bump entry.lastHandle entry.freeStack
  pure (handle, pools.withEntry region split { entry with freeStack })

def deallocate (numHandles : Nat) (links : Nat → Nat) (handle region split : Nat) :
    Checked ((Nat → Nat) × RegionChunkAllocatorPools) := do
  check (region < pools.numRegions) "invalid region"
  check (split < pools.numSplits) "invalid split"
  let entry := pools.poolEntries region split
  let (links, freeList) ← RegionChunkPoolListView.push numHandles links entry.freeList handle
  pure (links, pools.withEntry region split { entry with freeList })

end RegionChunkAllocatorPools

/-! ### Chunks -/

namespace RegionChunkAllocator

variable (alloc : RegionChunkAllocator)

def regionHandleToChunk (region handle : Nat) : Checked Nat := do
  assert (region < alloc.specs.numRegions) "invalid region value"
  assert (handle < alloc.specs.numHandles) "invalid handle value"
  let spec := alloc.specs.regionSpec region
  assert (!spec.isEmpty) "empty region"
  assert (spec.checkHandle handle) "handle does not belong to the region"
  pure (handle - spec.handleOffset)

/-- One turn of the loop of `allocate_chunk_`: the list of the split, then its stack. -/
def allocateFromSplit (region split : Nat) (attempts : Int) :
    Checked (Nat × RegionChunkAllocator) := do
  let (handle, pools) ←
    alloc.pools.allocateFromList alloc.specs.numHandles alloc.poolHandles region split attempts
  if handle < alloc.specs.numHandles then
    return (handle, { alloc with pools })
  if handle = regionChunkAllocatorFailedValue then
    return (handle, { alloc with pools })
  if handle = regionChunkAllocatorNullValue then
    let (handle, pools) ← pools.allocateFromStack region split
    return (handle, { alloc with pools })
  pure (handle, { alloc with pools })

/-- The loop of `allocate_chunk_` over the splits that are left, from `split`. -/
def allocateChunkFrom (region : Nat) (params : RegionChunkAllocParams) :
    RegionChunkAllocator → Nat → Nat → Bool → Checked (RegionChunkAllocation × RegionChunkAllocator)
  | alloc, 0, _, chunkSeen =>
    pure (if chunkSeen then failedRegionChunkAllocation else nullRegionChunkAllocation, alloc)
  | alloc, turns + 1, split, chunkSeen => do
    let (handle, alloc) ← alloc.allocateFromSplit region split params.attempts
    if handle < alloc.specs.numHandles then
      return (⟨region, ← alloc.regionHandleToChunk region handle, handle, split⟩, alloc)
    let next ← alloc.pools.nextSplit split params.splitStep
    allocateChunkFrom region params alloc turns next
      (chunkSeen || handle == regionChunkAllocatorFailedValue)

/-- `allocate_chunk_`. -/
def allocateChunkOnce (region : Nat) (params : RegionChunkAllocParams) :
    Checked (RegionChunkAllocation × RegionChunkAllocator) := do
  assert (region < alloc.specs.numRegions) "invalid region value"
  let split ← alloc.pools.nextSplit params.splitStart 0
  allocateChunkFrom region params alloc alloc.pools.numSplits split false

/-- The loop of `allocate_chunk`, for as many turns; a failed result takes a turn but no round. -/
def allocateChunkRounds (region : Nat) (params : RegionChunkAllocParams) :
    RegionChunkAllocator → Nat → Nat → Checked (RegionChunkAllocation × RegionChunkAllocator)
  | alloc, 0, _ => pure (nullRegionChunkAllocation, alloc)
  | alloc, _ + 1, 0 => pure (nullRegionChunkAllocation, alloc)
  | alloc, turns + 1, rounds + 1 => do
    let (allocation, alloc) ← alloc.allocateChunkOnce region params
    if allocation.valid then
      return (allocation, alloc)
    if allocation.null then
      allocateChunkRounds region params alloc turns rounds
    else
      allocateChunkRounds region params alloc turns (rounds + 1)

/-- `allocate_chunk`, for a number of rounds that is not negative.  Alone, and with attempts to
make, no result is failed, so each turn of the loop takes a round. -/
def allocateChunk (region : Nat) (params : RegionChunkAllocParams) :
    Checked (RegionChunkAllocation × RegionChunkAllocator) :=
  if alloc.specs.numRegions ≤ region then pure (nullRegionChunkAllocation, alloc)
  else allocateChunkRounds region params alloc params.rounds.toNat params.rounds.toNat

def deallocateChunk (location : RegionChunkAllocation) : Checked RegionChunkAllocator := do
  check (location.region < alloc.specs.numRegions) "invalid region value"
  check (location.split < alloc.pools.numSplits) "invalid split value"
  let spec := alloc.specs.regionSpec location.region
  check (spec.checkChunk location.chunk) "invalid chunk value"
  check (spec.checkHandle location.handle) "invalid handle value"
  let (poolHandles, pools) ← alloc.pools.deallocate alloc.specs.numHandles alloc.poolHandles
    location.handle location.region location.split
  pure { alloc with pools, poolHandles }

/-- `deallocate_chunk` of a pointer. -/
def deallocateChunkPtr (chunk : Nat) : Checked RegionChunkAllocator := do
  let allocation ← alloc.ptrToAllocation chunk
  check allocation.valid "invalid chunk"
  alloc.deallocateChunk allocation

end RegionChunkAllocator

end Cuw3
