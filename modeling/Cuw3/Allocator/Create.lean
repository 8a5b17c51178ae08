/-
  `allocator.hpp` and `cuw3.cpp`: how the allocator is made and destroyed.

  A function that calls `vmem.hpp` takes the address space and returns the one after it.  What a
  `create` function gives back in place of a null pointer is the text that it prints.  A new
  allocator finds whatever the memory held in which it makes its objects (`Contents`).
-/
import Cuw3.Allocator.Api
import Cuw3.Base.Vmem

namespace Cuw3

/-- `conf_graveyard_slot_count`. -/
def confGraveyardSlotCount : Nat := 16

/-! ### The memory of the chunks -/

namespace RegionChunkAllocatorSpecs

variable (specs : RegionChunkAllocatorSpecs)

/-- `total_pool_handles_size`: a link, which is a `uint32`, for each handle. -/
def totalPoolHandlesSize : Nat := u64 (4 * specs.numHandles)

/-- `pool_handles_alignment`. -/
def poolHandlesAlignment : Nat := 4

end RegionChunkAllocatorSpecs

structure AllocatorMemoryBundle where
  regions : Nat
  handles : Nat
  poolHandles : Nat

namespace AllocatorMemoryBundle

variable (system : System) (space : AddressSpace) (specs : RegionChunkAllocatorSpecs)

/-- `AllocatorMemoryBundle::from`.  What was allocated is freed when a later allocation fails. -/
def fromSpecs : Checked (Except String AllocatorMemoryBundle × AddressSpace) := do
  let (regions, space) ← system.vmemAllocAligned space specs.totalRegionsSize System.vMemReserve
    specs.regionAlignment
  if regions = 0 then
    return (.error "failed to allocate regions memory", space)
  let (handles, space) ← system.vmemAllocAligned space specs.totalHandlesSize
    System.vMemReserveCommit specs.handleAlignment
  if handles = 0 then
    let (_, space) := system.vmemFree space regions specs.totalRegionsSize
    return (.error "failed to allocate handles memory", space)
  let (poolHandles, space) ← system.vmemAllocAligned space specs.totalPoolHandlesSize
    System.vMemReserveCommit RegionChunkAllocatorSpecs.poolHandlesAlignment
  if poolHandles = 0 then
    let (_, space) := system.vmemFree space handles specs.totalHandlesSize
    let (_, space) := system.vmemFree space regions specs.totalRegionsSize
    return (.error "failed to allocate pool handles memory", space)
  return (.ok ⟨regions, handles, poolHandles⟩, space)

variable (bundle : AllocatorMemoryBundle)

/-- The conversion to `bool`. -/
def complete : Bool := bundle.regions ≠ 0 && bundle.handles ≠ 0 && bundle.poolHandles ≠ 0

def release : AddressSpace :=
  if !bundle.complete then space
  else
    let (_, space) := system.vmemFree space bundle.regions specs.totalRegionsSize
    let (_, space) := system.vmemFree space bundle.handles specs.totalHandlesSize
    (system.vmemFree space bundle.poolHandles specs.totalPoolHandlesSize).2

end AllocatorMemoryBundle

/-! ### The allocator -/

structure AllocatorConfig where
  rcaSpecsConfig : RegionChunkAllocatorSpecsConfig
  contentionSplit : Nat
  numGraveEntries : Nat

/-- What the memory holds where objects will be made. -/
structure Contents where
  heap : Heap
  tlas : Nat → ThreadLocalAllocator
  cleanups : Nat → CleanupState
  poolHandles : Nat → Nat

/-- The number of slots is for the graveyard that is not simplified. -/
def ThreadGraveyard.create (numGraveEntries : Nat) : Created ThreadGraveyard := do
  checkReturnVal (isAlignment numGraveEntries) "number of graves must be pow of 2"
  checkReturnVal (numGraveEntries ≤ confGraveyardSlotCount) "too big amount of graves"
  pure ⟨[]⟩

/-- An allocator, with its memory. -/
structure NewAllocator where
  alloc : GraveAllocator
  bundle : AllocatorMemoryBundle

namespace NewAllocator

variable (system : System) (space : AddressSpace) (contents : Contents)

/-- `Allocator::create`. -/
def create (config : AllocatorConfig) : Checked (Except String NewAllocator × AddressSpace) := do
  let .ok specs ← (RegionChunkAllocatorSpecs.create config.rcaSpecsConfig).run
    | return (.error "allocator: failed to initialize region chunk allocator specs", space)
  let .ok pools ← (RegionChunkAllocatorPools.create specs config.contentionSplit).run
    | return (.error "allocator: failed to initialize region chunk allocator pools", space)
  let (memory, space) ← AllocatorMemoryBundle.fromSpecs system space specs
  let .ok bundle := memory
    | return (.error "allocator: failed to allocate memory", space)
  let .ok tlaGraveyard ← (ThreadGraveyard.create config.numGraveEntries).run
    | return (.error "allocator: failed to initialize thread graveyard",
        bundle.release system space specs)
  let rca := {
    specs, pools
    regions := bundle.regions
    handles := bundle.handles
    poolHandles := contents.poolHandles }
  return (.ok {
    bundle
    alloc := {
      rca, tlaGraveyard
      heap := contents.heap
      tlas := contents.tlas
      committed := fun _ => false
      cleanups := contents.cleanups } }, space)

/-- `Allocator::destroy`. -/
def destroy (new : NewAllocator) : AddressSpace :=
  new.bundle.release system space new.alloc.rca.specs

end NewAllocator

/-! ### `cuw3.cpp` -/

def cuw3CreateAllocatorConfig : AllocatorConfig :=
  { rcaSpecsConfig := cuw3CreateRcaAllocSpecsConfig System.vmemHugePageSize
    contentionSplit := 16
    numGraveEntries := confGraveyardSlotCount }

/-- `cuw3_create_allocator`, where an `Allocator` has `allocSize` bytes: the object at its address,
or none. -/
def cuw3CreateAllocator (system : System) (space : AddressSpace) (contents : Contents)
    (allocSize : Nat) : Checked (Option (Nat × NewAllocator) × AddressSpace) := do
  let (allocMem, space) := system.vmemAlloc space allocSize System.vMemReserveCommit
  if allocMem = 0 then
    return (none, space)
  let (result, space) ← NewAllocator.create system space contents cuw3CreateAllocatorConfig
  match result with
  | .ok new => return (some (allocMem, new), space)
  | .error _ =>
    let (_, space) := system.vmemFree space allocMem allocSize
    return (none, space)

end Cuw3
