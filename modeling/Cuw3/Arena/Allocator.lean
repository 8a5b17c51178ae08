/-
  What `fast_arena_small_allocator.hpp` and `fast_arena_step_split_allocator.hpp` share: an
  allocator is a set of bins that hold arenas and the root of the list of retired arenas.

  The source writes these functions twice, once for each kind of bins; here they take the operations
  of the bins as a parameter (`BinsOps`).  Arenas live in a `Heap`, from addresses to arenas; the
  pointer to an arena is its address.
-/
import Cuw3.Arena.FastArena
import Mathlib.Logic.Function.Basic

namespace Cuw3

/-- The arenas in memory. -/
abbrev Heap : Type := Nat → FastArena

/-! ### Lists of retired arenas -/

/-- `FastArenaReclaimList::pop`: the arena, the new head and the memory with its link cleared. -/
def FastArenaReclaimList.pop (heap : Heap) (head : Nat) : Checked (Nat × Nat × Heap) := do
  assert (head ≠ 0) "attempt to pop from empty list"
  let arena := heap head
  pure (head, arena.retireReclaimEntry.next, Function.update heap head (arena.withNext 0))

/-! ### Allocators -/

/-- What the allocators need of their bins. -/
structure BinsOps (B : Type) where
  /-- The kind of arenas, as stored in their headers. -/
  type : RegionChunkType
  /-- Takes an arena for a request of a size and an alignment out of the bins. -/
  acquire : Heap → B → Nat → Nat → Checked (AcquiredResource × Heap × B)
  /-- Puts an arena into the bins. -/
  release : Heap → B → Nat → Checked (Heap × B)
  /-- Takes a given arena out of the bins. -/
  extract : Heap → B → Nat → Checked (Heap × B)

structure ArenaAllocator (B : Type) where
  retiredArenas : RetireReclaimEntry
  bins : B

namespace ArenaAllocator

variable {B : Type} (ops : BinsOps B) (heap : Heap) (alloc : ArenaAllocator B)

def hasType (arena : Nat) : Bool := (heap arena).type == ops.type.val

/-- The end of `allocate`: the block is taken from the arena, which goes into the bins. -/
def allocateFrom (fmt : String) (arena size : Nat) : Checked (Nat × Heap × ArenaAllocator B) := do
  let (allocated, view) ← (heap arena).acquire size
  check (allocated ≠ 0) fmt
  let (heap, bins) ← ops.release (Function.update heap arena view) alloc.bins arena
  pure (allocated, heap, { alloc with bins })

/-- `deallocate`, after its checks on null arguments: the arena is returned when it became
resettable, otherwise null. -/
def deallocateFrom (fmt : String) (arena memory size : Nat) :
    Checked (Nat × Heap × ArenaAllocator B) := do
  check (hasType ops heap arena) fmt
  let view ← (heap arena).release memory size
  let heap := Function.update heap arena view
  if !view.resettable then
    return (0, heap, alloc)
  let (heap, bins) ← ops.extract heap alloc.bins arena
  let view ← (heap arena).reset
  pure (arena, Function.update heap arena view, { alloc with bins })

/-- `retire`: the arena goes onto the list of the root only when its own flag was clear. -/
def retire (arena memory size : Nat) : Checked (Nat × Heap × ArenaAllocator B) := do
  check (arena ≠ 0) "arena was null"
  check (memory ≠ 0) "memory was null"
  check (size ≠ 0) "size was zero"
  check (hasType ops heap arena) "arena does not belong to this allocator"
  let (old, view) ← (heap arena).retireAllocation memory size
  if retired old then
    return (old, Function.update heap arena view, alloc)
  let (old, new) ← RetireReclaimPtrView.retirePtr alloc.retiredArenas.head arena
  let view := view.withNext (RetireReclaimPtr.ptr old)
  pure (old, Function.update heap arena view,
    { alloc with retiredArenas := { alloc.retiredArenas with head := new } })

/-- `reclaim_arenas`: the head of the postponed list if there is one, else of the snatched list. -/
def reclaimArenas : Checked (Nat × ArenaAllocator B) := do
  if alloc.retiredArenas.nextPostponed ≠ 0 then
    return (alloc.retiredArenas.nextPostponed,
      { alloc with retiredArenas := { alloc.retiredArenas with nextPostponed := 0 } })
  let (old, new) ← RetireReclaimPtrView.reclaim alloc.retiredArenas.head
  pure (RetireReclaimPtr.ptr old,
    { alloc with retiredArenas := { alloc.retiredArenas with head := new } })

/-- `reclaim_arena`: the arena is returned when it became resettable, otherwise null. -/
def reclaimArena (arena : Nat) : Checked (Nat × Heap × ArenaAllocator B) := do
  check (hasType ops heap arena) "arena does not belong to this allocator"
  let (heap, bins) ← ops.extract heap alloc.bins arena
  let view ← (heap arena).reclaimAllocations
  if view.resettable then
    let view ← view.reset
    return (arena, Function.update heap arena view, { alloc with bins })
  let (heap, bins) ← ops.release (Function.update heap arena view) bins arena
  pure (0, heap, { alloc with bins })

def postpone (head : Nat) : Checked (ArenaAllocator B) := do
  check (alloc.retiredArenas.nextPostponed = 0) "already postponed"
  pure { alloc with retiredArenas := { alloc.retiredArenas with nextPostponed := head } }

end ArenaAllocator

/-- The two kinds of allocators, as the operations on their bins and the functions that each writes
in its own way. -/
structure AllocatorOps (B : Type) extends BinsOps B where
  allocate : Heap → ArenaAllocator B → Nat → Nat → Checked (Nat × Heap × ArenaAllocator B)
  deallocate : Heap → ArenaAllocator B → Nat → Nat → Nat → Checked (Nat × Heap × ArenaAllocator B)
  reclaimArena : Heap → ArenaAllocator B → Nat → Checked (Nat × Heap × ArenaAllocator B)

end Cuw3
