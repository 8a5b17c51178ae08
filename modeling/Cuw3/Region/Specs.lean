/-
  `region_chunk_allocator.hpp`: the layout of regions and chunks, the split pools, and the lookups
  from pointers to chunks and back.

  The arrays of the source are functions on indices (or lists, where a loop fills them in order).
-/
import Cuw3.Base.Funcs

namespace Cuw3

def regionChunkAllocatorNullValue : Nat := 0xFFFFFFFF
def regionChunkAllocatorFailedValue : Nat := 0xFFFFFFFE

/-! ### Specs -/

/-- Both sizes arrays are given by their base-two logarithms. -/
structure RegionChunkAllocatorSpecsConfig where
  regionSizes : List Nat
  regionChunkSizes : List Nat
  handleSize : Nat
  regionAlignment : Nat
  handleAlignment : Nat

structure RegionSpec where
  regionOffset : Nat
  regionSize : Nat
  chunkSizeLog2 : Nat
  handleSizeLog2 : Nat
  handleOffset : Nat
  numHandles : Nat
  deriving Inhabited, DecidableEq, Repr

namespace RegionSpec

def getChunkSize (spec : RegionSpec) : Checked Nat := intpow2 spec.chunkSizeLog2

def getRelchunk (spec : RegionSpec) (chunk : Nat) : Nat :=
  u64 (spec.regionOffset + mulpow2 chunk spec.chunkSizeLog2)

def checkChunk (spec : RegionSpec) (chunk : Nat) : Bool := chunk < spec.numHandles

def checkHandle (spec : RegionSpec) (handle : Nat) : Bool :=
  spec.handleOffset ≤ handle && handle < u32 (spec.handleOffset + spec.numHandles)

def isEmpty (spec : RegionSpec) : Bool := spec.numHandles == 0

def getChunk (spec : RegionSpec) (regionsBase chunk : Nat) : Checked Nat := do
  check (spec.checkChunk chunk) "invalid chunk"
  advancePtr regionsBase (spec.getRelchunk chunk)

end RegionSpec

/-- `region = null_value` marks the null location. -/
structure RegionChunkLocation where
  region : Nat
  chunk : Nat
  handle : Nat
  deriving DecidableEq, Repr

def nullRegionChunkLocation : RegionChunkLocation := ⟨regionChunkAllocatorNullValue, 0, 0⟩

structure RegionChunkAllocatorSpecs where
  regionSpecs : List RegionSpec
  chunkSizeSearchSentinels : List Nat
  regionSearchSentinels : List Nat
  totalRegionsSize : Nat
  regionAlignment : Nat
  regionSize : Nat
  regionSizeLog2 : Nat
  numRegions : Nat
  totalHandlesSize : Nat
  handleAlignment : Nat
  handleSize : Nat
  handleSizeLog2 : Nat
  numHandles : Nat

namespace RegionChunkAllocatorSpecs

/-- The loop of `create` over the regions: their specs, the two sentinel arrays, and the handle and
byte offsets reached. -/
def createRegions (regionAlignment handleSizeLog2 : Nat) :
    List (Nat × Nat) → Nat → Nat →
      Checked (List RegionSpec × List Nat × List Nat × Nat × Nat)
  | [], handleOffset, regionOffset => pure ([], [], [], handleOffset, regionOffset)
  | (regionSizeLog2, chunkSizeLog2) :: rest, handleOffset, regionOffset => do
    let regionSize ← align (← intpow2 regionSizeLog2) regionAlignment
    let numHandles := u32 (divpow2 regionSize chunkSizeLog2)
    let chunkSize ← intpow2 chunkSizeLog2
    let (specs, chunkSentinels, regionSentinels, handles, bytes) ←
      createRegions regionAlignment handleSizeLog2 rest
        (u32 (handleOffset + numHandles)) (u64 (regionOffset + regionSize))
    pure (⟨regionOffset, regionSize, chunkSizeLog2, handleSizeLog2, handleOffset, numHandles⟩ ::
      specs, chunkSize :: chunkSentinels, u64 (regionOffset + regionSize) :: regionSentinels,
      handles, bytes)

/-- The common size of all regions, and `0` when the configured sizes differ. -/
def equalRegionSize (config : RegionChunkAllocatorSpecsConfig) : Checked Nat :=
  if allEqual config.regionSizes then do
    align (← intpow2 (config.regionSizes.getD 0 0)) config.regionAlignment
  else pure 0

def create (config : RegionChunkAllocatorSpecsConfig) : Created RegionChunkAllocatorSpecs := do
  let numRegionSizes := config.regionSizes.length
  checkReturnVal (0 < numRegionSizes ∧ numRegionSizes ≤ confMaxRegionSizes)
    "invalid number of regions"
  checkReturnVal (numRegionSizes = config.regionChunkSizes.length)
    "num of regions and num of region chunk sizes mismatch"
  checkReturnVal (isAlignment config.handleSize) "handle_size mut be power of 2"
  checkReturnVal (isAlignment config.regionAlignment) "invalid alignment value for region_storage"
  checkReturnVal (isAlignment config.handleAlignment) "invalid handle storage alignment"
  checkReturnVal (← isAligned config.handleSize config.handleAlignment) "handle_size is not aligned"
  let allRegionSizesEqual := allEqual config.regionSizes
  let regionSize ← equalRegionSize config
  let regionSizeLog2 := if allRegionSizesEqual then pow2log2 regionSize else 0
  let handleSizeLog2 := pow2log2 config.handleSize
  let (regionSpecs, chunkSizeSearchSentinels, regionSearchSentinels, handleOffset, regionOffset) ←
    createRegions config.regionAlignment handleSizeLog2
      (config.regionSizes.zip config.regionChunkSizes) 0 0
  -- `handle_offset` is a `uint32`, so the shift of `mulpow2` is a 32-bit one
  let totalHandlesSize ← align (u32 (handleOffset <<< handleSizeLog2)) config.handleAlignment
  pure {
    regionSpecs, chunkSizeSearchSentinels, regionSearchSentinels
    totalRegionsSize := regionOffset
    regionAlignment := config.regionAlignment
    regionSize, regionSizeLog2
    numRegions := numRegionSizes
    totalHandlesSize
    handleAlignment := config.handleAlignment
    handleSize := config.handleSize
    handleSizeLog2
    numHandles := handleOffset }

def regionSpec (specs : RegionChunkAllocatorSpecs) (region : Nat) : RegionSpec :=
  specs.regionSpecs.getD region default

def locateChunkCommon (specs : RegionChunkAllocatorSpecs) (relptr region : Nat) :
    Checked RegionChunkLocation := do
  let spec := specs.regionSpec region
  check (spec.numHandles ≠ 0) "we attempted to locate chunk within an empty region."
  let relToRegion := sub64 relptr spec.regionOffset
  let chunk := u32 (divpow2 relToRegion spec.chunkSizeLog2)
  pure ⟨region, chunk, u32 (spec.handleOffset + chunk)⟩

/-- The region the shift lookup of `locate_chunk_all_regions_equal_` computes. -/
def shiftRegion (specs : RegionChunkAllocatorSpecs) (relptr : Nat) : Nat :=
  u32 (divpow2 relptr specs.regionSizeLog2)

def locateChunkAllRegionsEqual (specs : RegionChunkAllocatorSpecs) (relptr : Nat) :
    Checked RegionChunkLocation := do
  check (specs.regionSize ≠ 0) "regions are not equal"
  specs.locateChunkCommon relptr (specs.shiftRegion relptr)

def searchHostingRegion (specs : RegionChunkAllocatorSpecs) (relptr : Nat) : Nat :=
  (findFirst specs.numRegions fun i => relptr < specs.regionSearchSentinels.getD i 0).getD
    regionChunkAllocatorNullValue

def searchSuitableRegion (specs : RegionChunkAllocatorSpecs) (size : Nat) : Nat :=
  (findFirst specs.numRegions fun i => size ≤ specs.chunkSizeSearchSentinels.getD i 0).getD
    regionChunkAllocatorNullValue

def locateChunkAllRegionsDiffer (specs : RegionChunkAllocatorSpecs) (relptr : Nat) :
    Checked RegionChunkLocation := do
  assert (specs.regionSize = 0) "all regions are equal: more effective algorithm available."
  let region := specs.searchHostingRegion relptr
  check (region ≠ regionChunkAllocatorNullValue) "unreachable reached: sentinel search exausted"
  specs.locateChunkCommon relptr region

def locateChunk (specs : RegionChunkAllocatorSpecs) (relptr : Nat) : Checked RegionChunkLocation :=
  if specs.regionSize ≠ 0 then specs.locateChunkAllRegionsEqual relptr
  else specs.locateChunkAllRegionsDiffer relptr

def getHandle (specs : RegionChunkAllocatorSpecs) (handlesBase handle : Nat) : Checked Nat := do
  check (handle < specs.numHandles) "invalid handle"
  advanceArrLog2 handlesBase specs.handleSizeLog2 handle

end RegionChunkAllocatorSpecs

/-! ### Pools -/

def regionChunkPoolNullLink : Nat := 0xFFFFFFFF
def regionChunkPoolFailedAlloc : Nat := 0xFFFFFFFE

structure RegionChunkPoolListHead where
  version : Nat
  next : Nat
  deriving Inhabited, DecidableEq, Repr

structure RegionPoolEntry where
  freeList : RegionChunkPoolListHead
  freeStack : Nat
  firstHandle : Nat
  lastHandle : Nat
  deriving Inhabited, DecidableEq, Repr

/-- `pool_entries` and `split_search_sentinels` are indexed by region, then by split. -/
structure RegionChunkAllocatorPools where
  poolEntries : Nat → Nat → RegionPoolEntry
  splitSearchSentinels : Nat → Nat → Nat
  numRegions : Nat
  numSplits : Nat

namespace RegionChunkAllocatorPools

/-- The bound that `create` computes for `split`: the first handle of the split, and the last handle
of the split before it. -/
def splitBound (spec : RegionSpec) (contentionSplit split : Nat) : Nat :=
  let handlesPerSplit := u32 ((spec.numHandles + contentionSplit - 1) / contentionSplit)
  u32 (spec.handleOffset + min (u32 (u64 (handlesPerSplit * split))) spec.numHandles)

def createEntry (spec : RegionSpec) (contentionSplit split : Nat) : RegionPoolEntry :=
  let firstHandle := splitBound spec contentionSplit split
  { freeList := ⟨0, regionChunkPoolNullLink⟩
    freeStack := firstHandle
    firstHandle
    lastHandle := splitBound spec contentionSplit (split + 1) }

/-- The tables that `create` fills in. -/
def build (specs : RegionChunkAllocatorSpecs) (contentionSplit : Nat) : RegionChunkAllocatorPools :=
  { poolEntries := fun pool split =>
      if pool < confMaxRegionSizes ∧ split < confMaxContentionSplit then
        createEntry (specs.regionSpec pool) contentionSplit split
      else default
    splitSearchSentinels := fun pool split =>
      if pool < confMaxRegionSizes ∧ split < confMaxContentionSplit then
        (createEntry (specs.regionSpec pool) contentionSplit split).lastHandle
      else 0
    numRegions := specs.numRegions
    numSplits := contentionSplit }

def create (specs : RegionChunkAllocatorSpecs) (contentionSplit : Nat) :
    Created RegionChunkAllocatorPools := do
  checkReturnVal (contentionSplit ≤ confMaxContentionSplit) "invalid value of contention split"
  checkReturnVal (isAlignment contentionSplit) "contention split must be power of two"
  let contentionSplit := if contentionSplit ≠ 0 then contentionSplit else 1
  pure (build specs contentionSplit)

def searchPoolSplit (pools : RegionChunkAllocatorPools) (region handle : Nat) : Checked Nat := do
  check (region < confMaxRegionSizes) "invalid region index"
  pure ((findFirst pools.numSplits fun split => handle < pools.splitSearchSentinels region
    split).getD
    regionChunkAllocatorNullValue)

end RegionChunkAllocatorPools

/-! ### Chunk allocations and lookups -/

/-- `region = null_value` marks the null allocation, `region = failed_value` a failed one. -/
structure RegionChunkAllocation where
  region : Nat
  chunk : Nat
  handle : Nat
  split : Nat
  deriving Inhabited, DecidableEq, Repr

def nullRegionChunkAllocation : RegionChunkAllocation := ⟨regionChunkAllocatorNullValue, 0, 0, 0⟩
def failedRegionChunkAllocation : RegionChunkAllocation :=
  ⟨regionChunkAllocatorFailedValue, 0, 0, 0⟩

namespace RegionChunkAllocation

def null (allocation : RegionChunkAllocation) : Bool :=
  allocation.region == regionChunkAllocatorNullValue

def failed (allocation : RegionChunkAllocation) : Bool :=
  allocation.region == regionChunkAllocatorFailedValue

def valid (allocation : RegionChunkAllocation) : Bool := !allocation.null && !allocation.failed

end RegionChunkAllocation

structure RegionChunkMemory where
  chunk : Nat
  chunkSize : Nat
  handle : Nat
  handleSize : Nat
  deriving Inhabited, DecidableEq, Repr

/-- `pool_handles` is the array of links of the free lists, indexed by handle. -/
structure RegionChunkAllocator where
  specs : RegionChunkAllocatorSpecs
  pools : RegionChunkAllocatorPools
  regions : Nat
  handles : Nat
  poolHandles : Nat → Nat

namespace RegionChunkAllocator

variable (alloc : RegionChunkAllocator)

def belongsAnyRegion (ptr : Nat) : Checked Bool := do
  let regionsEnd ← advancePtr alloc.regions alloc.specs.totalRegionsSize
  pure (alloc.regions ≤ ptr && ptr < regionsEnd)

def getMaxChunkSize : Checked Nat :=
    (alloc.specs.regionSpec (alloc.specs.numRegions - 1)).getChunkSize

def getRegionSpec (region : Nat) : Checked RegionSpec := do
  check (region < alloc.specs.numRegions) "invalid region"
  pure (alloc.specs.regionSpec region)

def regionDataToMemoryNoCheck (region chunk handle : Nat) : Checked RegionChunkMemory := do
  let spec := alloc.specs.regionSpec region
  let chunkMem ← spec.getChunk alloc.regions chunk
  let handleMem ← alloc.specs.getHandle alloc.handles handle
  pure ⟨chunkMem, ← spec.getChunkSize, handleMem, alloc.specs.handleSize⟩

/-- Returns the empty memory when one of the checks on the record fails. -/
def regionDataToMemory (region chunk handle : Nat) : Checked RegionChunkMemory :=
  let spec := alloc.specs.regionSpec region
  if region < alloc.specs.numRegions ∧ handle < alloc.specs.numHandles ∧ !spec.isEmpty ∧
      spec.checkChunk chunk ∧ spec.checkHandle handle then
    alloc.regionDataToMemoryNoCheck region chunk handle
  else pure default

def chunkAllocationToMemory (allocation : RegionChunkAllocation) : Checked RegionChunkMemory :=
  alloc.regionDataToMemory allocation.region allocation.chunk allocation.handle

def ptrToLocation (ptr : Nat) : Checked RegionChunkLocation := do
  if !(← alloc.belongsAnyRegion ptr) then
    return nullRegionChunkLocation
  alloc.specs.locateChunk (subptr ptr alloc.regions)

def ptrToAllocation (ptr : Nat) : Checked RegionChunkAllocation := do
  let location ← alloc.ptrToLocation ptr
  if location.region = regionChunkAllocatorNullValue then
    return nullRegionChunkAllocation
  let split ← alloc.pools.searchPoolSplit location.region location.handle
  check (split ≠ regionChunkAllocatorNullValue) "invalid split value"
  pure ⟨location.region, location.chunk, location.handle, split⟩

end RegionChunkAllocator

end Cuw3
