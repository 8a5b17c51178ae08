/-
  `fast_arena_small_allocator.hpp`: bins of small arenas, one bin an alignment.

  The lists of a bin are the sequences of their arenas' addresses, from the head.  Erasing an arena
  removes it from whichever list of its bin it is in.  The entries of these lists are never asked
  whether they are linked, so the arenas are not written.
-/
import Cuw3.Arena.Allocator

namespace Cuw3

/-! ### One bin -/

structure FastArenaSmallBin where
  currentArena : Nat
  freeList : List Nat
  cutoffList : List Nat
  recycledList : List Nat
  alignment : Nat
  sizeCutoff : Nat
  deriving Inhabited

namespace FastArenaSmallBin

variable (heap : Heap) (bin : FastArenaSmallBin)

def create (alignment sizeCutoff : Nat) : FastArenaSmallBin :=
  { currentArena := 0, freeList := [], cutoffList := [], recycledList := [], alignment, sizeCutoff }

/-- Whether an arena that cannot serve `size` is given up. -/
def tooSmall (arena : FastArena) (size : Nat) : Checked Bool := do
  pure (u64 (2 * (← arena.remaining)) < size)

/-- The part of `acquire` that looks at the lists. -/
def acquireFromLists (size : Nat) : Checked (AcquiredResource × FastArenaSmallBin) :=
  match bin.freeList with
  | arena :: freeList => pure (.acquired arena, { bin with freeList })
  | [] => match bin.cutoffList with
    | [] => pure (.noResource, bin)
    | arena :: cutoffList => do
      if ← (heap arena).canAllocate size then
        return (.acquired arena, { bin with cutoffList })
      if ← tooSmall (heap arena) size then
        return (.noResource,
          { bin with cutoffList, recycledList := arena :: bin.recycledList })
      pure (.noResource, bin)

def acquire (size : Nat) : Checked (AcquiredResource × FastArenaSmallBin) := do
  if bin.currentArena = 0 then
    acquireFromLists heap bin size
  else
    let arena := heap bin.currentArena
    if ← arena.canAllocate size then
      return (.acquired bin.currentArena, { bin with currentArena := 0 })
    if ← tooSmall arena size then
      acquireFromLists heap { bin with
        currentArena := 0
        recycledList := bin.currentArena :: bin.recycledList } size
    else
      acquireFromLists heap bin size

/-- The last part of `release`: `arena` goes into one of the lists. -/
def releaseToLists (arena : Nat) : Checked FastArenaSmallBin := do
  if bin.sizeCutoff ≤ (← (heap arena).remaining) then
    pure { bin with freeList := arena :: bin.freeList }
  else
    pure { bin with cutoffList := arena :: bin.cutoffList }

def release (arena : Nat) : Checked FastArenaSmallBin := do
  check (arena ≠ 0) "arena was null"
  check (bin.alignment ≤ (heap arena).arenaAlignment) "arena has invalid alignment"
  check ((heap arena).type = RegionChunkType.fastArenaSmallAllocator.val) "arena has invalid type"
  if bin.currentArena = 0 then
    return { bin with currentArena := arena }
  if u64 (2 * (← (heap bin.currentArena).remaining)) < (← (heap arena).remaining) then
    releaseToLists heap { bin with currentArena := arena } bin.currentArena
  else
    releaseToLists heap bin arena

def extract (arena : Nat) : Checked FastArenaSmallBin := do
  check (arena ≠ 0) "arena was null"
  check (bin.alignment ≤ (heap arena).arenaAlignment) "arena has invalid alignment"
  check ((heap arena).type = RegionChunkType.fastArenaSmallAllocator.val) "arena has invalid type"
  if arena = bin.currentArena then
    pure { bin with currentArena := 0 }
  else
    pure { bin with
      freeList := bin.freeList.erase arena
      cutoffList := bin.cutoffList.erase arena
      recycledList := bin.recycledList.erase arena }

end FastArenaSmallBin

/-! ### The bins of all alignments -/

structure FastArenaSmallBinsConfig where
  minArenaAlignmentLog2 : Nat
  maxArenaAlignmentLog2 : Nat
  sizeCutoff : Nat

/-- The array `bins` is a function on alignment ids. -/
structure FastArenaSmallBins where
  bins : Nat → FastArenaSmallBin
  minArenaAlignmentLog2 : Nat
  maxArenaAlignmentLog2 : Nat
  numAlignments : Nat
  sizeCutoff : Nat
  totalArenas : Nat

namespace FastArenaSmallBins

def create (config : FastArenaSmallBinsConfig) : Created FastArenaSmallBins := do
  checkReturnVal (config.minArenaAlignmentLog2 ≤ config.maxArenaAlignmentLog2)
    "max alignment must be greater or equal to minimal alignment"
  checkReturnVal (config.maxArenaAlignmentLog2 ≤ confFastArenaMaxAlignmentLog2)
    "max alignment is too big"
  checkReturnVal (confFastArenaMinAlignmentLog2 ≤ config.minArenaAlignmentLog2)
    "min alignment is too small"
  let numAlignments := config.maxArenaAlignmentLog2 - config.minArenaAlignmentLog2 + 1
  checkReturnVal (numAlignments ≤ confMaxFastArenas) "num of of alignments is too great"
  let sizeCutoff ← align config.sizeCutoff (← intpow2 config.maxArenaAlignmentLog2)
  pure {
    bins := fun i =>
      if i < numAlignments then
        FastArenaSmallBin.create (2 ^ (config.minArenaAlignmentLog2 + i)) sizeCutoff
      else default
    minArenaAlignmentLog2 := config.minArenaAlignmentLog2
    maxArenaAlignmentLog2 := config.maxArenaAlignmentLog2
    numAlignments, sizeCutoff
    totalArenas := 0 }

variable (heap : Heap) (bins : FastArenaSmallBins)

def locateAlignment (alignment : Nat) : Nat :=
  let alignmentLog2 := intlog2 alignment
  if bins.maxArenaAlignmentLog2 < alignmentLog2 then bins.numAlignments
  else max alignmentLog2 bins.minArenaAlignmentLog2 - bins.minArenaAlignmentLog2

def withBin (alignmentId : Nat) (bin : FastArenaSmallBin) : FastArenaSmallBins :=
  { bins with bins := Function.update bins.bins alignmentId bin }

def decTotal : Checked FastArenaSmallBins := do
  check (0 < bins.totalArenas) "invariant violation: positive amount of arenas expected."
  pure { bins with totalArenas := bins.totalArenas - 1 }

def acquire (size alignmentId : Nat) : Checked (AcquiredResource × FastArenaSmallBins) := do
  check (alignmentId < bins.numAlignments) "invalid alignment"
  let (acquired, bin) ← (bins.bins alignmentId).acquire heap size
  let bins := bins.withBin alignmentId bin
  match acquired with
  | .acquired arena => pure (.acquired arena, ← bins.decTotal)
  | r => pure (r, bins)

def release (arena alignmentId : Nat) : Checked FastArenaSmallBins := do
  check (alignmentId < bins.numAlignments) "invalid alignment"
  let bin ← (bins.bins alignmentId).release heap arena
  pure { bins.withBin alignmentId bin with totalArenas := u64 (bins.totalArenas + 1) }

def extract (arena alignmentId : Nat) : Checked FastArenaSmallBins := do
  check (alignmentId < bins.numAlignments) "invalid alignment"
  let bin ← (bins.bins alignmentId).extract heap arena
  (bins.withBin alignmentId bin).decTotal

def validAlignmentId (alignmentId : Nat) : Bool := alignmentId < bins.numAlignments

def canAllocate (size alignmentId : Nat) : Bool :=
  bins.validAlignmentId alignmentId && size ≤ bins.sizeCutoff

def empty : Bool := bins.totalArenas == 0

/-- The bin of an arena is the one of its alignment. -/
def arenaId (arena : Nat) : Nat := bins.locateAlignment (heap arena).arenaAlignment

/-- `FastArenaSmallAllocator::acquire`. -/
def acquireFor (size alignment : Nat) : Checked (AcquiredResource × FastArenaSmallBins) := do
  let alignmentId := bins.locateAlignment alignment
  if !bins.canAllocate size alignmentId then
    return (.failed, bins)
  if !bins.validAlignmentId alignmentId then
    return (.failed, bins)
  let (acquired, bins) ← bins.acquire heap size alignmentId
  if acquired = .failed then
    abortCritical "unreachable reached"
  else
    pure (acquired, bins)

def ops : BinsOps FastArenaSmallBins where
  type := .fastArenaSmallAllocator
  acquire heap bins size alignment := do
    let (acquired, bins) ← bins.acquireFor heap size alignment
    pure (acquired, heap, bins)
  release heap bins arena := do
    pure (heap, ← bins.release heap arena (bins.arenaId heap arena))
  extract heap bins arena := do
    pure (heap, ← bins.extract heap arena (bins.arenaId heap arena))

end FastArenaSmallBins

/-! ### The allocator -/

abbrev FastArenaSmallAllocator : Type := ArenaAllocator FastArenaSmallBins

namespace FastArenaSmallAllocator

def create (config : FastArenaSmallBinsConfig) : Created FastArenaSmallAllocator := do
  let bins ← FastArenaSmallBins.create config
  let retiredArenas ← RetireReclaimEntry.create retiredFlag
  pure { retiredArenas, bins }

variable (heap : Heap) (alloc : FastArenaSmallAllocator)

def getSizeCutoff : Nat := alloc.bins.sizeCutoff

def acquire (size alignment : Nat) :
    Checked (AcquiredResource × Heap × FastArenaSmallAllocator) := do
  let (acquired, heap, bins) ← FastArenaSmallBins.ops.acquire heap alloc.bins size alignment
  pure (acquired, heap, { alloc with bins })

/-- Returns null, and leaves the arena out of the bins, when the size is above the cutoff. -/
def allocate (arena size : Nat) : Checked (Nat × Heap × FastArenaSmallAllocator) := do
  check (arena ≠ 0) "arena was null"
  check (size ≠ 0) "size was zero"
  let alignmentId := alloc.bins.arenaId heap arena
  if !alloc.bins.canAllocate size alignmentId then
    return (0, heap, alloc)
  if !alloc.bins.validAlignmentId alignmentId then
    return (0, heap, alloc)
  check ((heap arena).type = RegionChunkType.fastArenaSmallAllocator.val) "arena has invalid type"
  alloc.allocateFrom FastArenaSmallBins.ops heap
    "invariant violation: we cannot allocate proper size" arena size

def deallocate (arena memory size : Nat) : Checked (Nat × Heap × FastArenaSmallAllocator) := do
  check (arena ≠ 0) "arena was nullptr"
  check (size ≠ 0) "size was zero"
  alloc.deallocateFrom FastArenaSmallBins.ops heap "arena has invalid type" arena memory size

def retire (arena memory size : Nat) : Checked (Nat × Heap × FastArenaSmallAllocator) :=
  ArenaAllocator.retire FastArenaSmallBins.ops heap alloc arena memory size

def reclaimArenas : Checked (Nat × FastArenaSmallAllocator) := ArenaAllocator.reclaimArenas alloc

def reclaimArena (arena : Nat) : Checked (Nat × Heap × FastArenaSmallAllocator) := do
  check ((heap arena).type = RegionChunkType.fastArenaSmallAllocator.val)
    "arena does not belong to this allocator"
  check (alloc.bins.validAlignmentId (alloc.bins.arenaId heap arena)) "invalid alignment"
  ArenaAllocator.reclaimArena FastArenaSmallBins.ops heap alloc arena

def postpone (head : Nat) : Checked FastArenaSmallAllocator := ArenaAllocator.postpone alloc head

def empty : Bool := alloc.bins.empty

/-- The functions that take the bins as a parameter, for this allocator. -/
def ops : AllocatorOps FastArenaSmallBins where
  toBinsOps := FastArenaSmallBins.ops
  allocate := allocate
  deallocate := deallocate
  reclaimArena := reclaimArena

end FastArenaSmallAllocator

end Cuw3
