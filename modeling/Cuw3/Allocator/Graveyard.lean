/-
  `thread_graveyard.hpp`, the functions of `allocator.hpp` on the allocators of dead threads, and
  the start and exit of a thread in `cuw3.cpp`.

  The graveyard is the simplified one (`CUW3_SIMPLIFY_GRAVEYARD`): a list of dead thread-local
  allocators.  As in `Allocator`, one thread runs at a time, so a list that was snatched is pushed
  back to an empty queue.  An entry of the graveyard is the first field of its thread-local
  allocator and has its address.
-/
import Cuw3.Allocator.Allocator

namespace Cuw3

/-- `cuw3_try_reclaim_each_op`. -/
def cuw3TryReclaimEachOp : Nat := 8

/-- `cuw3_try_cleanup_each_op`. -/
def cuw3TryCleanupEachOp : Nat := 16

/-! ### The graveyard -/

structure ThreadGraveData where
  data : Nat
  grave : Nat

/-- The dead thread-local allocators, from the head of `dead_queue`. -/
structure ThreadGraveyard where
  deadQueue : List Nat

namespace ThreadGraveyard

variable (graveyard : ThreadGraveyard)

/-- `acquire`: the first entry of the snatched list is kept, the others are pushed back. -/
def acquire : ThreadGraveData × ThreadGraveyard :=
  match graveyard.deadQueue with
  | [] => (⟨0, 0⟩, graveyard)
  | snatched :: remaining => (⟨snatched, 0⟩, ⟨remaining⟩)

/-- `put_thread`. -/
def putThread (thread : Nat) : ThreadGraveyard := ⟨thread :: graveyard.deadQueue⟩

/-- `release_thread`. -/
def releaseThread (graveData : ThreadGraveData) : ThreadGraveyard :=
    graveyard.putThread graveData.data

end ThreadGraveyard

/-! ### Dead thread-local allocators -/

/-- One turn of the loop of `free_tla_resources`. -/
def Allocator.freeCachedChunk (alloc : Allocator) (tla region : Nat) : Checked Allocator := do
  let chunk := (alloc.tlas tla).cachedChunks region
  if !chunk.valid then
    return alloc
  let alloc := alloc.withTla tla
    ((alloc.tlas tla).withCachedChunk region nullRegionChunkAllocation)
  let rca ← alloc.rca.deallocateChunk chunk
  pure { alloc with rca }

/-- `free_tla_resources`: the cached chunks go back to the pool. -/
def Allocator.freeTlaResources (alloc : Allocator) (tla : Nat) : Checked Allocator :=
  (List.range (confMaxCachedChunkSizeId + 1)).foldlM
    (fun alloc region => alloc.freeCachedChunk tla region) alloc

/-- The fields of a `ThreadLocalAllocator` that the clean-ups use. -/
structure CleanupState where
  lastGraveyardId : Nat
  thisCleanupCounter : Nat
  graveCleanupCounter : Nat

/-- The allocator with its graveyard. -/
structure GraveAllocator extends Allocator where
  tlaGraveyard : ThreadGraveyard
  cleanups : Nat → CleanupState

namespace GraveAllocator

variable (alloc : GraveAllocator)

def withCleanup (tla : Nat) (cleanup : CleanupState) : GraveAllocator :=
  { alloc with cleanups := Function.update alloc.cleanups tla cleanup }

/-- `acquire_dead_tla_`. -/
def acquireDeadTla : ThreadGraveData × GraveAllocator :=
  let (grave, tlaGraveyard) := alloc.tlaGraveyard.acquire
  (grave, { alloc with tlaGraveyard })

/-- `remove_dead_tla_`; `empty_grave` does nothing. -/
def removeDeadTla (_grave : ThreadGraveData) : GraveAllocator := alloc

/-- `release_dead_tla_`. -/
def releaseDeadTla (grave : ThreadGraveData) : GraveAllocator :=
  { alloc with tlaGraveyard := alloc.tlaGraveyard.releaseThread grave }

/-- `snatch_dead_tla`. -/
def snatchDeadTla : Nat × GraveAllocator :=
  let (grave, alloc) := alloc.acquireDeadTla
  if grave.data = 0 then (0, alloc) else (grave.data, alloc.removeDeadTla grave)

/-- `retire_dead_tla`. -/
def retireDeadTla (tla : Nat) : GraveAllocator :=
  { alloc with tlaGraveyard := alloc.tlaGraveyard.putThread tla }

/-- `this_tla_cleanup`: `tla` if it holds no arena, where it was this call's turn to look. -/
def thisTlaCleanup (fuel tla : Nat) : Checked (Option (Nat × GraveAllocator)) := do
  check (tla ≠ 0) "tla was nullptr"
  let counter := u64 ((alloc.cleanups tla).thisCleanupCounter + 1)
  let alloc := alloc.withCleanup tla { alloc.cleanups tla with thisCleanupCounter := counter }
  if counter % cuw3TryReclaimEachOp ≠ 0 then
    return some (0, alloc)
  let some (empty, allocator) ← alloc.toAllocator.reclaim fuel tla | return none
  let alloc := { alloc with toAllocator := allocator }
  pure (some (if empty then tla else 0, alloc))

/-- `grave_tla_cleanup`: a dead thread-local allocator that holds no arena any more. -/
def graveTlaCleanup (fuel tla : Nat) : Checked (Option (Nat × GraveAllocator)) := do
  check (tla ≠ 0) "tla was nullptr"
  let counter := u64 ((alloc.cleanups tla).graveCleanupCounter + 1)
  let alloc := alloc.withCleanup tla { alloc.cleanups tla with graveCleanupCounter := counter }
  if counter % cuw3TryCleanupEachOp ≠ 0 then
    return some (0, alloc)
  let (grave, alloc) := alloc.acquireDeadTla
  if grave.data = 0 then
    return some (0, alloc)
  let alloc := alloc.withCleanup tla { alloc.cleanups tla with lastGraveyardId := grave.grave }
  let some (reclaimed, allocator) ← alloc.toAllocator.reclaim fuel grave.data | return none
  let allocator ← allocator.freeTlaResources grave.data
  let alloc := { alloc with toAllocator := allocator }
  if reclaimed then
    return some (grave.data, alloc.removeDeadTla grave)
  pure (some (0, alloc.releaseDeadTla grave))

/-! ### Threads -/

/-- `cuw3_create_new_tla`, where `vmem_alloc_aligned` returns `tlaMem`. -/
def createNewTla (config : ThreadLocalAllocatorConfig) (tlaMem : Nat) :
    Checked (Nat × GraveAllocator) := do
  if tlaMem = 0 then
    return (0, alloc)
  match ← (ThreadLocalAllocator.create config).run with
  | .ok tla =>
    let alloc := { alloc with toAllocator := alloc.toAllocator.withTla tlaMem tla }
    pure (tlaMem, alloc.withCleanup tlaMem ⟨0, 0, 0⟩)
  | .error _ => pure (0, alloc)

/-- `cuw3_create_tla`, with which a thread starts. -/
def createTla (config : ThreadLocalAllocatorConfig) (tlaMem : Nat) :
    Checked (Nat × GraveAllocator) :=
  let (tla, snatched) := alloc.snatchDeadTla
  if tla ≠ 0 then pure (tla, snatched) else snatched.createNewTla config tlaMem

/-- `cuw3_destroy_tla`. -/
def destroyTla (tla : Nat) : Checked GraveAllocator := do
  let allocator ← alloc.toAllocator.freeTlaResources tla
  pure { alloc with toAllocator := allocator }

/-- The destructor of `ThreadLocalAllocatorGuard`, with which a thread exits: whether the
thread-local allocator was destroyed. -/
def exitThread (fuel tla : Nat) : Checked (Option (Bool × GraveAllocator)) := do
  let some (empty, allocator) ← alloc.toAllocator.reclaim fuel tla | return none
  let alloc := { alloc with toAllocator := allocator }
  if empty then
    return some (true, ← alloc.destroyTla tla)
  pure (some (false, alloc.retireDeadTla tla))

end GraveAllocator

end Cuw3
