/-
  `cuw3.cpp` with the address space: thread-local allocators are mapped and unmapped.

  These are the functions of `Api`, where `vmem_alloc_aligned` answers the address of a new
  thread-local allocator and `vmem_free` unmaps one that is destroyed.  A `ThreadLocalAllocator` has
  `tlaSize` bytes.
-/
import Cuw3.Allocator.Create

namespace Cuw3

structure Runtime where
  space : AddressSpace
  api : Api

namespace Runtime

variable (system : System) (tlaSize : Nat) (runtime : Runtime)

def withAllocator (allocator : GraveAllocator) : Runtime :=
  { runtime with api := { runtime.api with allocator } }

/-! ### Thread-local allocators -/

/-- `cuw3_create_new_tla`. -/
def createNewTla : Checked (Nat × Runtime) := do
  -- `region_owner_alignment` leaves room for the data bits of a header
  let tlaAlignment := max (2 ^ regionChunkHandleHeaderDataBits) system.vmemPageSize
  let (tlaMem, space) ← system.vmemAllocAligned runtime.space tlaSize System.vMemReserveCommit
    tlaAlignment
  if tlaMem = 0 then
    return (0, { runtime with space })
  let (tla, allocator) ← runtime.api.allocator.createNewTla cuw3CreateTlaConfig tlaMem
  if tla = 0 then
    let (_, space) := system.vmemFree space tlaMem tlaSize
    return (0, { runtime with space })
  return (tla, ⟨space, { runtime.api with allocator, tlas := tla :: runtime.api.tlas }⟩)

/-- `cuw3_create_tla`. -/
def createTla : Checked (Nat × Runtime) :=
  let (tla, allocator) := runtime.api.allocator.snatchDeadTla
  let runtime := runtime.withAllocator allocator
  if tla ≠ 0 then pure (tla, runtime) else runtime.createNewTla system tlaSize

/-- `cuw3_get_tla`. -/
def getTla (thread : Nat) : Checked (Nat × Runtime) :=
  match runtime.api.guards thread with
  | some tla => pure (tla, runtime)
  | none => do
    let (tla, runtime) ← runtime.createTla system tlaSize
    pure (tla, { runtime with api := { runtime.api with
      guards := Function.update runtime.api.guards thread (some tla) } })

/-- `cuw3_destroy_tla`. -/
def destroyTla (tla : Nat) : Checked Runtime := do
  let api ← runtime.api.destroyTla tla
  let (_, space) := system.vmemFree runtime.space tla tlaSize
  pure ⟨space, api⟩

/-- The destructor of the `guard` of a thread. -/
def exitThread (fuel thread : Nat) : Checked (Option Runtime) :=
  match runtime.api.guards thread with
  | none => pure (some runtime)
  | some tla => do
    if tla = 0 then
      return some runtime
    let some (empty, allocator) ← runtime.api.allocator.toAllocator.reclaim fuel tla | return none
    let runtime := runtime.withAllocator { runtime.api.allocator with toAllocator := allocator }
    let runtime ← if empty then runtime.destroyTla system tlaSize tla
      else pure (runtime.withAllocator (runtime.api.allocator.retireDeadTla tla))
    pure (some { runtime with api := { runtime.api with
      guards := Function.update runtime.api.guards thread (some 0) } })

/-! ### The exported functions, once there is an allocator -/

def alloc (commitOk : Bool) (thread size alignment : Nat) : Checked (Nat × Runtime) := do
  let (tla, runtime) ← runtime.getTla system tlaSize thread
  if tla = 0 then
    return (0, runtime)
  let (res, allocator) ← runtime.api.allocator.toAllocator.allocate commitOk tla size alignment
  let runtime := runtime.withAllocator { runtime.api.allocator with toAllocator := allocator }
  match res with
  | .acquired ptr => pure (ptr, runtime)
  | _ => pure (0, runtime)

/-- The end of `cuw3_free` and of `cuw3_cleanup`. -/
def graveCleanup (fuel tla : Nat) : Checked (Option Runtime) := do
  let some (released, allocator) ← runtime.api.allocator.graveTlaCleanup fuel tla | return none
  let runtime := runtime.withAllocator allocator
  if released = 0 then
    return some runtime
  return some (← runtime.destroyTla system tlaSize released)

def free (fuel thread ptr size : Nat) : Checked (Option Runtime) := do
  let (tla, runtime) ← runtime.getTla system tlaSize thread
  if tla = 0 then
    return some runtime
  let allocator ← runtime.api.allocator.toAllocator.deallocate tla ptr size
  let alloc := { runtime.api.allocator with toAllocator := allocator }
  let some (_, allocator) ← alloc.thisTlaCleanup fuel tla | return none
  graveCleanup system tlaSize (runtime.withAllocator allocator) fuel tla

def reclaim (fuel thread : Nat) : Checked (Option Runtime) := do
  let (tla, runtime) ← runtime.getTla system tlaSize thread
  if tla = 0 then
    return some runtime
  let some (_, allocator) ← runtime.api.allocator.toAllocator.reclaim fuel tla | return none
  pure (some (runtime.withAllocator { runtime.api.allocator with toAllocator := allocator }))

def cleanup (fuel thread : Nat) : Checked (Option Runtime) := do
  let (tla, runtime) ← runtime.getTla system tlaSize thread
  if tla = 0 then
    return some runtime
  runtime.graveCleanup system tlaSize fuel tla

end Runtime

end Cuw3
