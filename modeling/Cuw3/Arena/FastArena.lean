/-
  `ptr.hpp`, `retire_reclaim.hpp` and `fast_arena.hpp`: packed pointers, the retire word and the
  arena that counts allocated (`top`) and freed bytes.

  The functions of `RetireReclaimPtrView` are given here for one thread running alone: a
  compare-exchange that follows the load of its expected value succeeds.  Their results pair the old
  value of the word, which the source returns, with the new one.
-/
import Cuw3.Base.Funcs

namespace Cuw3

/-! ### Packed pointers -/

/- `AlignmentPackedInt<uint64, bits>`: a value and, in its low `bits` bits, a small number. -/
namespace AlignmentPackedInt

def alignmentMask (bits : Nat) : Nat := 2 ^ bits - 1

def valueMask (bits : Nat) : Nat := not64 (alignmentMask bits)

def packed (bits value alignment : Nat) : Checked Nat := do
  assert (value &&& not64 (valueMask bits) = 0) "bad value: garbage in alignment bits"
  assert (alignment &&& not64 (alignmentMask bits) = 0) "bad alignment: garbage in value bits"
  pure (value ||| alignment)

def packedShifted (bits value alignment : Nat) : Checked Nat := do
  assert (value >>> (64 - bits) = 0) "value too large to shift"
  packed bits (u64 (value <<< bits)) alignment

def value (bits data : Nat) : Nat := data &&& valueMask bits

def valueShifted (bits data : Nat) : Nat := data >>> bits

def alignment (bits data : Nat) : Nat := data &&& alignmentMask bits

end AlignmentPackedInt

/-! ### The retire word -/

def retireReclaimFlagBits : Nat := 1

/-- `RetireReclaimFlags::RetiredFlag`. -/
def retiredFlag : Nat := 1

/- `RetireReclaimPtr`: `AlignmentPackedPtr<uint64, retire_reclaim_flag_bits>`. -/
namespace RetireReclaimPtr

def packed (ptr flags : Nat) : Checked Nat := AlignmentPackedInt.packed retireReclaimFlagBits ptr
    flags

def ptr (word : Nat) : Nat := AlignmentPackedInt.value retireReclaimFlagBits word

def valueShifted (word : Nat) : Nat := AlignmentPackedInt.valueShifted retireReclaimFlagBits word

def data (word : Nat) : Nat := AlignmentPackedInt.alignment retireReclaimFlagBits word

end RetireReclaimPtr

/-- `RetireReclaimFlagsHelper{flags}.retired()`. -/
def retired (flags : Nat) : Bool := flags &&& retiredFlag != 0

namespace RetireReclaimPtrView

def ptrWithFlags (ptr flags : Nat) : Checked Nat := RetireReclaimPtr.packed ptr flags

def dataWithFlags (data flags : Nat) : Checked Nat :=
  AlignmentPackedInt.packedShifted retireReclaimFlagBits data flags

/-- Takes the pointer out of the word and keeps the flags. -/
def reclaim (resource : Nat) : Checked (Nat × Nat) := do
  check (retired (RetireReclaimPtr.data resource)) "retired flag must have been set!"
  let resourceNew ← ptrWithFlags 0 (RetireReclaimPtr.data resource)
  pure (resource, resourceNew)

/-- Takes the count out of the word and clears the flags. -/
def reclaimReset (resource : Nat) : Checked (Nat × Nat) := do
  check (retired (RetireReclaimPtr.data resource)) "retired flag must have been set!"
  let resourceNew ← ptrWithFlags 0 0
  pure (resource, resourceNew)

/-- The new head of the list; `set_next(retired, resource_old.ptr())` is left to the caller, who
owns the entry. -/
def retirePtr (resource retired : Nat) : Checked (Nat × Nat) := do
  let resourceNew ← ptrWithFlags retired (RetireReclaimPtr.data resource ||| retiredFlag)
  pure (resource, resourceNew)

def retireData (resource data : Nat) : Checked (Nat × Nat) := do
  let resourceNew ← dataWithFlags (u64 (RetireReclaimPtr.valueShifted resource + data))
    (RetireReclaimPtr.data resource ||| retiredFlag)
  pure (resource, resourceNew)

end RetireReclaimPtrView

/-- `RetireReclaimEntry`, without the two hints that nothing reads. -/
structure RetireReclaimEntry where
  head : Nat
  next : Nat
  nextPostponed : Nat
  deriving Inhabited, DecidableEq, Repr

/-- `RetireReclaimEntryView::create`. -/
def RetireReclaimEntry.create (initialFlags : Nat) : Checked RetireReclaimEntry := do
  pure ⟨← RetireReclaimPtr.packed 0 initialFlags, 0, 0⟩

/-! ### The arena -/

/-- `RegionChunkType`. -/
inductive RegionChunkType where
  | fastArenaStepSplitAllocator
  | fastArenaSmallAllocator
  deriving DecidableEq, Repr

/-- The number stored in a chunk header. -/
def RegionChunkType.val : RegionChunkType → Nat
  | .fastArenaStepSplitAllocator => 1
  | .fastArenaSmallAllocator => 2

def regionChunkHandleHeaderDataBits : Nat := 6

/- `RegionChunkHandleHeader`: the packed owner and type of a chunk. -/
namespace RegionChunkHandleHeader

def pack (owner data : Nat) : Checked Nat :=
  AlignmentPackedInt.packed regionChunkHandleHeaderDataBits owner data

def owner (header : Nat) : Nat := AlignmentPackedInt.value regionChunkHandleHeaderDataBits header

def data (header : Nat) : Nat := AlignmentPackedInt.alignment regionChunkHandleHeaderDataBits header

end RegionChunkHandleHeader

/-- `Memory`: a block of `size` bytes at `ptr`. -/
structure Memory where
  ptr : Nat
  size : Nat

/-- `Memory::fits(size, alignment)`. -/
def Memory.fits (memory : Memory) (size alignment : Nat) : Checked Bool := do
  if memory.ptr = 0 ∨ memory.size < size then return false
  isAligned memory.ptr alignment

/-- Of `list_entry` only `linked` is kept: whether `prev` and `next` are both set.  The lists
themselves are sequences of arena addresses, held by the bins. -/
structure FastArena where
  regionChunkHeader : Nat
  retireReclaimEntry : RetireReclaimEntry
  linked : Bool
  freed : Nat
  top : Nat
  arenaMemorySize : Nat
  arenaAlignment : Nat
  arenaMemory : Nat
  deriving Inhabited, DecidableEq, Repr

structure FastArenaConfig where
  owner : Nat
  arenaType : Nat
  arenaMemory : Nat
  arenaMemorySize : Nat
  arenaAlignment : Nat
  retireReclaimFlags : Nat

/- The operations of `FastArenaView`, on the arena they view. -/
namespace FastArena

def create (memory : Memory) (config : FastArenaConfig) : Created FastArena := do
  checkReturnVal (← memory.fits confControlBlockSize confCacheline) "inappropriate memory"
  checkReturnVal (config.owner ≠ 0) "owner was null"
  checkReturnVal (config.arenaMemory ≠ 0) "arena memory was null"
  checkReturnVal (isAlignment config.arenaAlignment ∧ confMinAllocAlignment ≤ config.arenaAlignment)
    "invalid alignment provided"
  checkReturnVal (← isAligned config.arenaMemorySize config.arenaAlignment)
    "arena size is not properly aligned"
  checkReturnVal (← isAligned config.arenaMemory config.arenaAlignment)
    "arena memory is not properly aligned"
  let regionChunkHeader ← RegionChunkHandleHeader.pack config.owner config.arenaType
  let retireReclaimEntry ← RetireReclaimEntry.create config.retireReclaimFlags
  pure {
    regionChunkHeader, retireReclaimEntry
    linked := false
    freed := 0
    top := 0
    arenaMemorySize := config.arenaMemorySize
    arenaAlignment := config.arenaAlignment
    arenaMemory := config.arenaMemory }

variable (arena : FastArena)

/-- Returns `nullptr` when the remaining space is too small. -/
def acquire (size : Nat) : Checked (Nat × FastArena) := do
  check (arena.top ≤ arena.arenaMemorySize) "top is greater than memory size"
  let oldTop := arena.top
  let remaining := arena.arenaMemorySize - arena.top
  let requiredSpace ← align size arena.arenaAlignment
  if remaining < requiredSpace then
    return (0, arena)
  let mem ← advancePtr arena.arenaMemory oldTop
  pure (mem, { arena with top := u64 (arena.top + requiredSpace) })

def releaseReclaimed (size : Nat) : Checked FastArena := do
  check (← isAligned size arena.arenaAlignment) "size is not aligned"
  let newFreed := u64 (arena.freed + size)
  check (newFreed ≤ arena.top) "we have freed more than allocated"
  pure { arena with freed := newFreed }

def hasMemoryRange (memory size : Nat) : Bool :=
  let arenaStop := u64 (arena.arenaMemory + arena.arenaMemorySize)
  arena.arenaMemory ≤ memory && u64 (memory + size) ≤ arenaStop

def releaseAligned (memory size : Nat) : Checked FastArena := do
  check (← isAligned size arena.arenaAlignment) "size is not aligned"
  check (arena.hasMemoryRange memory size) "memory does not belong to the arena"
  let newFreed := u64 (arena.freed + size)
  check (newFreed ≤ arena.top) "we have freed more than allocated"
  pure { arena with freed := newFreed }

def release (memory size : Nat) : Checked FastArena := do
  arena.releaseAligned memory (← align size arena.arenaAlignment)

def resettable : Bool := arena.freed == arena.top

def reset : Checked FastArena := do
  check arena.resettable "arena was not resettable"
  pure { arena with top := 0, freed := 0 }

def empty : Bool := arena.freed == 0 && arena.top == 0

def inList : Bool := arena.linked

def remaining : Checked Nat := do
  check (arena.top ≤ arena.arenaMemorySize) "top is greater than memory size"
  pure (arena.arenaMemorySize - arena.top)

def canAllocateAligned (sizeAligned : Nat) : Checked Bool := do
  check (← isAligned sizeAligned arena.arenaAlignment) "misaligned size"
  let rem ← arena.remaining
  check (← isAligned rem arena.arenaAlignment) "arena internal state misalignment"
  pure (sizeAligned ≤ rem)

def canAllocate (size : Nat) : Checked Bool := do
  arena.canAllocateAligned (← align size arena.arenaAlignment)

def type : Nat := RegionChunkHandleHeader.data arena.regionChunkHeader

def owner : Nat := RegionChunkHandleHeader.owner arena.regionChunkHeader

/-- The arena with another retire word. -/
def withHead (head : Nat) : FastArena :=
  { arena with retireReclaimEntry := { arena.retireReclaimEntry with head } }

/-- The arena with another `next` link of its retire-reclaim entry. -/
def withNext (next : Nat) : FastArena :=
  { arena with retireReclaimEntry := { arena.retireReclaimEntry with next } }

/-- Returns the old retire word.  The range is checked for the aligned size, the word counts the
size as given. -/
def retireAllocation (memory size : Nat) : Checked (Nat × FastArena) := do
  let sizeAligned ← align size arena.arenaAlignment
  check (arena.hasMemoryRange memory sizeAligned) "invalid memory range to retire"
  let (old, new) ← RetireReclaimPtrView.retireData arena.retireReclaimEntry.head size
  pure (old, arena.withHead new)

def reclaimAllocations : Checked FastArena := do
  let (reclaimed, new) ← RetireReclaimPtrView.reclaimReset arena.retireReclaimEntry.head
  (arena.withHead new).releaseReclaimed (RetireReclaimPtr.valueShifted reclaimed)

end FastArena

end Cuw3
