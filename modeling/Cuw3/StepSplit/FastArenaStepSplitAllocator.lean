/-
  `fast_arena_step_split_allocator.hpp`: bins of arenas by the size that remains in them.

  The lists of a bin are the sequences of their arenas' addresses, from the head; `linked` of an
  arena says whether its entry is in one of them.  Erasing an arena removes it from whichever list
  of its entry it is in.  The arrays are functions on indices.
-/
import Cuw3.Arena.Allocator
import Cuw3.StepSplit.Bitmap

namespace Cuw3

/-- `step_split_axis`. -/
def stepSplitAxis : Nat := (confMaxFastArenaLookupSteps + 1) * confMaxFastArenaLookupSplit + 1

structure FastArenaBinsConfig where
  numSplitsLog2 : Nat
  minArenaStepSizeLog2 : Nat
  maxArenaStepSizeLog2 : Nat
  minArenaAlignmentLog2 : Nat
  maxArenaAlignmentLog2 : Nat

/-! ### Steps and splits of the sizes -/

structure FastArenaStepSplitInfo where
  stepId : Nat
  splitId : Nat
  stepSplitId : Nat
  stepBase : Nat
  stepSizeLog2 : Nat
  numSplitsLog2 : Nat

/-- `get_step_split_size`. -/
def FastArenaStepSplitInfo.getStepSplitSize (info : FastArenaStepSplitInfo) : Checked Nat := do
  let stepSize ← intpow2 info.stepSizeLog2
  pure (u64 (info.stepBase + u64 (info.splitId * divpow2 stepSize info.numSplitsLog2)))

structure FastArenaBinsInfo where
  minAllocSize : Nat → Nat
  minStepSplitId : Nat → Nat
  numStepSplits : Nat
  numSplits : Nat
  numSplitsLog2 : Nat
  numSteps : Nat
  minArenaStepSizeLog2 : Nat
  maxArenaStepSizeLog2 : Nat
  numAlignments : Nat
  minArenaAlignmentLog2 : Nat
  maxArenaAlignmentLog2 : Nat
  globalMinAllocSize : Nat
  globalMaxAllocSize : Nat

namespace FastArenaBinsInfo

variable (info : FastArenaBinsInfo)

def stepSplitIdToInfo (stepSplitId : Nat) : Checked FastArenaStepSplitInfo := do
  check (stepSplitId < info.numStepSplits) "invalid step_split_id"
  let stepId := divpow2 stepSplitId info.numSplitsLog2
  let splitId := modpow2 stepSplitId info.numSplitsLog2
  if 0 < stepId then
    let stepSizeLog2 := info.minArenaStepSizeLog2 + stepId - 1
    pure ⟨stepId, splitId, stepSplitId, ← intpow2 stepSizeLog2, stepSizeLog2, info.numSplitsLog2⟩
  else
    pure ⟨stepId, splitId, stepSplitId, 0, info.minArenaStepSizeLog2, info.numSplitsLog2⟩

/-- The step of a size: its number, its base and the logarithm of its size. -/
def getStep (size : Nat) : Checked (Nat × Nat × Nat) := do
  let stepSizeLog2 := min (intlog2 size) info.maxArenaStepSizeLog2
  if stepSizeLog2 < info.minArenaStepSizeLog2 then
    pure (0, 0, info.minArenaStepSizeLog2)
  else
    pure (stepSizeLog2 - info.minArenaStepSizeLog2 + 1, ← intpow2 stepSizeLog2, stepSizeLog2)

def getStepSplitInfo (size : Nat) (alignSplitUp : Bool) : Checked FastArenaStepSplitInfo := do
  let (stepId, stepBase, stepSizeLog2) ← info.getStep size
  let splitOffset ← if alignSplitUp then
    do pure ((← intpow2 (stepSizeLog2 - info.numSplitsLog2)) - 1)
    else pure 0
  let splitId := min (divpow2 (mulpow2 (sub64 (u64 (size + splitOffset)) stepBase)
    info.numSplitsLog2) stepSizeLog2) info.numSplits
  let stepSplitId := u64 (mulpow2 stepId info.numSplitsLog2 + splitId)
  check (stepSplitId < info.numStepSplits) "invalid step_split index calculated"
  pure ⟨stepId, splitId, stepSplitId, stepBase, stepSizeLog2, info.numSplitsLog2⟩

def checkAlignmentId (alignmentId : Nat) : Bool := alignmentId < info.numAlignments

def getAlignment (alignmentId : Nat) : Checked Nat := do
  assert (alignmentId < info.numAlignments) "invalid alignment id"
  intpow2 (info.minArenaAlignmentLog2 + alignmentId)

/-- The loop of `create` over the alignments: the minimal allocation sizes and bins, in order. -/
def createAlignments (info : FastArenaBinsInfo) : Nat → Nat → Checked (List (Nat × Nat))
  | 0, _ => pure []
  | count + 1, alignmentId => do
    let alignment ← info.getAlignment alignmentId
    let minAllocSizeHint ← align info.globalMinAllocSize alignment
    let stepSplit ← info.getStepSplitInfo minAllocSizeHint true
    let minAllocSize ← stepSplit.getStepSplitSize
    let rest ← createAlignments info count (alignmentId + 1)
    pure ((minAllocSize, stepSplit.stepSplitId) :: rest)

def create (config : FastArenaBinsConfig) : Created FastArenaBinsInfo := do
  let numSplits ← intpow2 config.numSplitsLog2
  checkReturnVal (numSplits ≤ confMaxFastArenaLookupSplit) "num_splits is too big"
  checkReturnVal (config.minArenaAlignmentLog2 ≤ config.maxArenaAlignmentLog2)
    "max_arena_alignment_log2 < min_arena_alignment_log2"
  let numAlignments := config.maxArenaAlignmentLog2 - config.minArenaAlignmentLog2 + 1
  checkReturnVal (numAlignments ≤ confMaxFastArenas) "num_alignments is too big"
  checkReturnVal (config.minArenaStepSizeLog2 ≤ config.maxArenaStepSizeLog2)
    "max_arena_step_size_log2 < min_arena_step_size_log2"
  let numSteps := config.maxArenaStepSizeLog2 - config.minArenaStepSizeLog2 + 1
  checkReturnVal (numSteps ≤ confMaxFastArenaLookupSteps) "num_steps is too big"
  let numStepSplits := numSplits * (numSteps + 1) + 1
  checkReturnVal (config.numSplitsLog2 ≤ config.minArenaStepSizeLog2)
    "step size must be bigger than number of splits"
  let minAllocSize ← intpow2 (config.minArenaStepSizeLog2 - config.numSplitsLog2)
  let maxAllocSize ← intpow2 (config.maxArenaStepSizeLog2 + 1)
  let maxAlignment ← intpow2 config.maxArenaAlignmentLog2
  checkReturnVal (maxAlignment ≤ maxAllocSize)
    "constraints violation: max_alloc_size is too small compared to max alignment"
  let info : FastArenaBinsInfo := {
    minAllocSize := fun _ => 0
    minStepSplitId := fun _ => 0
    numStepSplits, numSplits
    numSplitsLog2 := config.numSplitsLog2
    numSteps
    minArenaStepSizeLog2 := config.minArenaStepSizeLog2
    maxArenaStepSizeLog2 := config.maxArenaStepSizeLog2
    numAlignments
    minArenaAlignmentLog2 := config.minArenaAlignmentLog2
    maxArenaAlignmentLog2 := config.maxArenaAlignmentLog2
    globalMinAllocSize := minAllocSize
    globalMaxAllocSize := maxAllocSize }
  let mins ← info.createAlignments numAlignments 0
  pure { info with
    minAllocSize := fun i => (mins.getD i (0, 0)).1
    minStepSplitId := fun i => (mins.getD i (0, 0)).2 }

def locateAlignment (alignment : Nat) : Nat :=
  let alignmentLog2 := intlog2 alignment
  if info.maxArenaAlignmentLog2 < alignmentLog2 then info.numAlignments
  else max alignmentLog2 info.minArenaAlignmentLog2 - info.minArenaAlignmentLog2

def locateStepSplitSize (size : Nat) : Checked Nat := do
  pure (← info.getStepSplitInfo size true).stepSplitId

def locateStepSplitArena (size : Nat) : Checked Nat := do
  pure (← info.getStepSplitInfo size false).stepSplitId

def locateStepSplitSizeClamped (alignmentId size : Nat) : Checked Nat := do
  check (info.checkAlignmentId alignmentId) "invalid alignment"
  let stepSplitId ← info.locateStepSplitSize size
  if stepSplitId < info.minStepSplitId alignmentId then
    return info.minStepSplitId alignmentId
  pure stepSplitId

def locateStepSplitArenaClamped (alignmentId size : Nat) : Checked Nat := do
  check (info.checkAlignmentId alignmentId) "invalid alignment"
  let stepSplitId ← info.locateStepSplitArena size
  if stepSplitId < info.minStepSplitId alignmentId then
    return 0
  pure stepSplitId

def canAllocateAligned (sizeAligned alignmentId : Nat) : Checked Bool := do
  assert (info.checkAlignmentId alignmentId) "invalid alignment id"
  assert (← isAligned sizeAligned (← info.getAlignment alignmentId)) "aligned size expected"
  pure (sizeAligned ≤ info.globalMaxAllocSize)

end FastArenaBinsInfo

/-! ### The entry of one alignment -/

/-- `present_arenas` is the set of the non-empty lists. -/
structure FastArenaStepSplitEntry where
  arenas : Nat → List Nat
  presentArenas : Bitmap
  cachedArena : Nat
  alignment : Nat
  numStepSplitBins : Nat
  minStepSplitId : Nat
  minAllocSize : Nat

instance : Inhabited FastArenaStepSplitEntry := ⟨⟨fun _ => [], default, 0, 0, 0, 0, 0⟩⟩

namespace FastArenaStepSplitEntry

/-- Whether the arena's list entry is linked, written to memory. -/
def setLinked (heap : Heap) (arena : Nat) (linked : Bool) : Heap :=
  Function.update heap arena { heap arena with linked }

def create (alignment numStepSplitBins minStepSplitId minAllocSize : Nat) :
    Created FastArenaStepSplitEntry := do
  checkReturnVal (numStepSplitBins ≤ stepSplitAxis) "to big number of step-split bins"
  checkReturnVal (0 < minStepSplitId ∧ minStepSplitId < stepSplitAxis)
    "too big value for min_step_split_id or value equals to zero"
  pure {
    arenas := fun _ => []
    presentArenas := default
    cachedArena := 0
    alignment, numStepSplitBins, minStepSplitId, minAllocSize }

variable (heap : Heap) (entry : FastArenaStepSplitEntry)

def acquireCachedArena (sizeAligned : Nat) :
    Checked (AcquiredResource × FastArenaStepSplitEntry) := do
  assert (← isAligned sizeAligned entry.alignment) "aligned size expected"
  if entry.cachedArena = 0 then
    return (.noResource, entry)
  if ← (heap entry.cachedArena).canAllocateAligned sizeAligned then
    return (.acquired entry.cachedArena, { entry with cachedArena := 0 })
  pure (.noResource, entry)

/-- The bit of a list that became empty is cleared. -/
def unsetIfEmpty (stepSplitId : Nat) : Checked FastArenaStepSplitEntry := do
  if (entry.arenas stepSplitId).isEmpty then
    pure { entry with presentArenas := ← entry.presentArenas.unset stepSplitAxis stepSplitId }
  else
    pure entry

def acquireBinArena (stepSplitId sizeAligned : Nat) :
    Checked (AcquiredResource × Heap × FastArenaStepSplitEntry) := do
  assert (← isAligned sizeAligned entry.alignment) "aligned size expected"
  assert (entry.minStepSplitId ≤ stepSplitId ∧ stepSplitId < entry.numStepSplitBins)
    "attempt to acquire arena from the improper bin"
  let presentArenaBinId ← entry.presentArenas.getFirstSet stepSplitAxis stepSplitId
  if presentArenaBinId = Bitmap.nullBit stepSplitAxis then
    return (.noResource, heap, entry)
  match entry.arenas presentArenaBinId with
  | [] => abortCritical "invariant violation: bit set but list is empty"
  | arena :: rest => do
    let heap := setLinked heap arena false
    let entry := { entry with arenas := Function.update entry.arenas presentArenaBinId rest }
    let entry ← entry.unsetIfEmpty presentArenaBinId
    check (entry.minAllocSize ≤ (← (heap arena).remaining))
      "invariant violation: bin arena has less space that min_alloc_size"
    pure (.acquired arena, heap, entry)

/-- Returns the arena that is not used as the cached one, or null. -/
def tryUpdateCachedArena (arena : Nat) : Checked (Nat × FastArenaStepSplitEntry) := do
  assert (arena ≠ 0) "arena was null"
  if entry.cachedArena = 0 then
    return (0, { entry with cachedArena := arena })
  let currRemaining ← (heap entry.cachedArena).remaining
  let newRemaining ← (heap arena).remaining
  if u64 (2 * currRemaining) ≤ newRemaining then
    return (entry.cachedArena, { entry with cachedArena := arena })
  pure (arena, entry)

def putArena (arena stepSplitId : Nat) : Checked (Heap × FastArenaStepSplitEntry) := do
  assert (arena ≠ 0) "arena was null"
  assert (stepSplitId = 0 ∨
    entry.minStepSplitId ≤ stepSplitId ∧ stepSplitId < entry.numStepSplitBins)
    "invalid step_split value"
  check (!(heap arena).inList) "arena must not be in any list"
  let wasEmpty := (entry.arenas stepSplitId).isEmpty
  let heap := setLinked heap arena true
  let entry := { entry with
    arenas := Function.update entry.arenas stepSplitId (arena :: entry.arenas stepSplitId) }
  if wasEmpty then
    pure (heap, { entry with
      presentArenas := ← entry.presentArenas.set stepSplitAxis stepSplitId })
  else
    pure (heap, entry)

/-- Whether the arena was the cached one. -/
def tryExtractCachedArena (extracted : Nat) : Checked (Bool × FastArenaStepSplitEntry) := do
  assert (extracted ≠ 0) "arena was null"
  if extracted = entry.cachedArena then
    return (true, { entry with cachedArena := 0 })
  pure (false, entry)

/-- Whether the arena was in a list. -/
def tryExtractBinArena (extracted stepSplitId : Nat) :
    Checked (Bool × Heap × FastArenaStepSplitEntry) := do
  assert (extracted ≠ 0) "arena was null"
  assert (stepSplitId = 0 ∨
    entry.minStepSplitId ≤ stepSplitId ∧ stepSplitId < entry.numStepSplitBins)
    "invalid step_split value"
  if !(heap extracted).inList then
    return (false, heap, entry)
  check (!(entry.arenas stepSplitId).isEmpty) "attempt to extract from an empty list"
  let heap := setLinked heap extracted false
  let entry := { entry with arenas := fun i => (entry.arenas i).erase extracted }
  pure (true, heap, ← entry.unsetIfEmpty stepSplitId)

end FastArenaStepSplitEntry

/-! ### The bins of all alignments -/

structure FastArenaBins where
  stepSplitEntries : Nat → FastArenaStepSplitEntry
  binsInfo : FastArenaBinsInfo
  totalArenas : Nat

namespace FastArenaBins

/-- The loop of `create` over the alignments. -/
def createEntries (info : FastArenaBinsInfo) :
    Nat → Nat → Created (List FastArenaStepSplitEntry)
  | 0, _ => pure []
  | count + 1, alignmentId => do
    let entry ← FastArenaStepSplitEntry.create (← info.getAlignment alignmentId) info.numStepSplits
      (info.minStepSplitId alignmentId) (info.minAllocSize alignmentId)
    let rest ← createEntries info count (alignmentId + 1)
    pure (entry :: rest)

def create (config : FastArenaBinsConfig) : Created FastArenaBins := do
  let binsInfo ← FastArenaBinsInfo.create config
  let entries ← createEntries binsInfo binsInfo.numAlignments 0
  pure {
    stepSplitEntries := fun i => entries.getD i default
    binsInfo
    totalArenas := 0 }

variable (heap : Heap) (bins : FastArenaBins)

def withEntry (alignmentId : Nat) (entry : FastArenaStepSplitEntry) : FastArenaBins :=
  { bins with stepSplitEntries := Function.update bins.stepSplitEntries alignmentId entry }

def decTotal (fmt : String) : Checked FastArenaBins := do
  check (0 < bins.totalArenas) fmt
  pure { bins with totalArenas := bins.totalArenas - 1 }

/-- `put_arena_`: the arena is not in any list. -/
def putArena (arena alignmentId : Nat) : Checked (Heap × FastArenaBins) := do
  assert (bins.binsInfo.checkAlignmentId alignmentId) "invalid alignment"
  assert (!(heap arena).resettable) "arena must not be resettable"
  let stepSplitId ← bins.binsInfo.locateStepSplitArenaClamped alignmentId (← (heap arena).remaining)
  let (heap, entry) ← (bins.stepSplitEntries alignmentId).putArena heap arena stepSplitId
  pure (heap, bins.withEntry alignmentId entry)

/-- `release_arena_`: the arena becomes the cached one, or it or the old cached one goes into a
list. -/
def releaseArenaTo (arena alignmentId : Nat) : Checked (Heap × FastArenaBins) := do
  assert (bins.binsInfo.checkAlignmentId alignmentId) "invalid alignment id"
  let (arena, entry) ← (bins.stepSplitEntries alignmentId).tryUpdateCachedArena heap arena
  let bins := bins.withEntry alignmentId entry
  if arena = 0 then
    return (heap, bins)
  bins.putArena heap arena alignmentId

/-- `acquire_arena_`: the cached arena, or else one from the lists. -/
def acquireArenaFrom (sizeAligned alignmentId : Nat) :
    Checked (AcquiredResource × Heap × FastArenaBins) := do
  assert (bins.binsInfo.checkAlignmentId alignmentId) "invalid alignment"
  let (acquired, entry) ←
    (bins.stepSplitEntries alignmentId).acquireCachedArena heap sizeAligned
  if acquired ≠ .noResource then
    return (acquired, heap, bins.withEntry alignmentId entry)
  let stepSplitId ← bins.binsInfo.locateStepSplitSizeClamped alignmentId sizeAligned
  let (acquired, heap, entry) ← entry.acquireBinArena heap stepSplitId sizeAligned
  pure (acquired, heap, bins.withEntry alignmentId entry)

def acquireArena (size alignment : Nat) : Checked (AcquiredResource × Heap × FastArenaBins) := do
  let alignmentId := bins.binsInfo.locateAlignment alignment
  if alignmentId = bins.binsInfo.numAlignments then
    return (.failed, heap, bins)
  let sizeAligned ← align size alignment
  if !(← bins.binsInfo.canAllocateAligned sizeAligned alignmentId) then
    return (.failed, heap, bins)
  let (acquired, heap, bins) ← bins.acquireArenaFrom heap sizeAligned alignmentId
  match acquired with
  | .acquired arena =>
    pure (.acquired arena, heap,
      ← bins.decTotal "invariant violation: total_arenas expected to be non-zero")
  | r => pure (r, heap, bins)

def releaseArena (arena : Nat) : Checked (Heap × FastArenaBins) := do
  check (arena ≠ 0) "arena was null"
  check (!(heap arena).inList) "arena must be out of any list"
  check (!(heap arena).resettable) "arena was empty, must have been recycled"
  let alignmentId := bins.binsInfo.locateAlignment (heap arena).arenaAlignment
  check (bins.binsInfo.checkAlignmentId alignmentId) "invalid alignment"
  check ((bins.stepSplitEntries alignmentId).minAllocSize ≤ (heap arena).arenaMemorySize)
    "arena is too small"
  let (heap, bins) ← bins.releaseArenaTo heap arena alignmentId
  pure (heap, { bins with totalArenas := u64 (bins.totalArenas + 1) })

def extractArena (arena : Nat) : Checked (Heap × FastArenaBins) := do
  check (arena ≠ 0) "arena was null"
  let alignmentId := bins.binsInfo.locateAlignment (heap arena).arenaAlignment
  check (bins.binsInfo.checkAlignmentId alignmentId) "invalid alignment"
  let (cached, entry) ← (bins.stepSplitEntries alignmentId).tryExtractCachedArena arena
  if cached then
    return (heap, ← (bins.withEntry alignmentId entry).decTotal
      "invariant violation: total_arenas epected to be non-zero")
  let stepSplitId ← bins.binsInfo.locateStepSplitArenaClamped alignmentId (← (heap arena).remaining)
  let (found, heap, entry) ← entry.tryExtractBinArena heap arena stepSplitId
  if found then
    return (heap, ← (bins.withEntry alignmentId entry).decTotal
      "invariant violation: total_arenas epected to be non-zero")
  abortCritical "unreachable reached: arena must have ben present in the bins"

def empty : Bool := bins.totalArenas == 0

def ops : BinsOps FastArenaBins where
  type := .fastArenaStepSplitAllocator
  acquire := acquireArena
  release := releaseArena
  extract := extractArena

end FastArenaBins

/-! ### The allocator -/

abbrev FastArenaStepSplitAllocator : Type := ArenaAllocator FastArenaBins

namespace FastArenaStepSplitAllocator

def create (config : FastArenaBinsConfig) : Created FastArenaStepSplitAllocator := do
  let bins ← FastArenaBins.create config
  let retiredArenas ← RetireReclaimEntry.create retiredFlag
  pure { retiredArenas, bins }

variable (heap : Heap) (alloc : FastArenaStepSplitAllocator)

def acquireArena (size alignment : Nat) :
    Checked (AcquiredResource × Heap × FastArenaStepSplitAllocator) := do
  let (acquired, heap, bins) ← alloc.bins.acquireArena heap size alignment
  pure (acquired, heap, { alloc with bins })

def allocate (arena size : Nat) : Checked (Nat × Heap × FastArenaStepSplitAllocator) := do
  check (arena ≠ 0) "arena was null"
  check (size ≠ 0) "cannot make zero allocation"
  check (!(heap arena).inList) "arena must not be in any list"
  check ((heap arena).empty ∨ !(heap arena).resettable)
    "arena must be either fresh (empty) or not resettable (we must have resetted it before)"
  alloc.allocateFrom FastArenaBins.ops heap "arena must have had enough space" arena size

def deallocate (arena memory size : Nat) : Checked (Nat × Heap × FastArenaStepSplitAllocator) := do
  check (arena ≠ 0) "arena was null"
  check (memory ≠ 0) "null memory deallocation is not allowed"
  check (size ≠ 0) "size was zero"
  alloc.deallocateFrom FastArenaBins.ops heap "arena does not belong to this allocator" arena memory
    size

def retire (arena memory size : Nat) : Checked (Nat × Heap × FastArenaStepSplitAllocator) :=
  ArenaAllocator.retire FastArenaBins.ops heap alloc arena memory size

def reclaimArenas : Checked (Nat × FastArenaStepSplitAllocator) :=
    ArenaAllocator.reclaimArenas alloc

def reclaimArena (arena : Nat) : Checked (Nat × Heap × FastArenaStepSplitAllocator) :=
  ArenaAllocator.reclaimArena FastArenaBins.ops heap alloc arena

def postpone (head : Nat) : Checked FastArenaStepSplitAllocator :=
    ArenaAllocator.postpone alloc head

def empty : Bool := alloc.bins.empty

/-- The functions that take the bins as a parameter, for this allocator. -/
def ops : AllocatorOps FastArenaBins where
  toBinsOps := FastArenaBins.ops
  allocate := allocate
  deallocate := deallocate
  reclaimArena := reclaimArena

end FastArenaStepSplitAllocator

end Cuw3
