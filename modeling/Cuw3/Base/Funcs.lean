/-
  The checks of `assert.hpp`, the integer helpers of `funcs.hpp` and the constants of `conf.hpp`
  and `defs.hpp`.

  A `uint64` is a natural number below `2^64`; every operation of the source that can leave that
  range wraps with `u64` (`u32` for `uint32`).  A function that can abort returns `Checked`: the
  error carries the text the failing check prints before `std::abort`.  `CUW3_CHECK` and
  `CUW3_ASSERT` are both active, as in the default build of the repository.

  A pointer is its address, `0` is `nullptr`.
-/
import Mathlib.Data.Nat.Bitwise

namespace Cuw3

/-! ### Checks -/

/-- The process was aborted: the text of the check that failed. -/
structure Abort where
  fmt : String
  deriving DecidableEq, Repr

/-- The result of code that may abort the process. -/
abbrev Checked (α : Type) : Type := Except Abort α

/-- `CUW3_CHECK(cond, fmt)`. -/
def check (cond : Prop) [Decidable cond] (fmt : String) : Checked Unit :=
  if cond then .ok () else .error ⟨fmt⟩

/-- `CUW3_ASSERT(cond, fmt)`. -/
def assert (cond : Prop) [Decidable cond] (fmt : String) : Checked Unit :=
  if cond then .ok () else .error ⟨fmt⟩

/-- `CUW3_ABORT_CRITICAL(fmt)`. -/
def abortCritical {α : Type} (fmt : String) : Checked α := .error ⟨fmt⟩

/-- The result of a `create` function: it may abort, or print a text and return `nullptr`. -/
abbrev Created (α : Type) : Type := ExceptT String (Except Abort) α

/-- `CUW3_CHECK_RETURN_VAL(cond, nullptr, fmt)`. -/
def checkReturnVal (cond : Prop) [Decidable cond] (fmt : String) : Created Unit :=
  if cond then pure () else throw fmt

/-- The call returned the object `a`. -/
def Created.Creates {α : Type} (x : Created α) (a : α) : Prop := x.run = .ok (.ok a)

/-- `std::find_if` over the indices `0 .. n - 1` of an array. -/
def findFirst (n : Nat) (p : Nat → Bool) : Option Nat := (List.range n).find? p

/-! ### Machine integers -/

def u64 (value : Nat) : Nat := value % 2 ^ 64

def u32 (value : Nat) : Nat := value % 2 ^ 32

/-- `~value` at 64 bits. -/
def not64 (value : Nat) : Nat := 2 ^ 64 - 1 - value

/-- Subtraction at 64 bits. -/
def sub64 (a b : Nat) : Nat := u64 (a + (2 ^ 64 - u64 b))

/-- `is_alignment`, `is_pow2`: `std::has_single_bit` of a 64-bit value. -/
def isAlignment (value : Nat) : Bool := (List.range 64).any fun k => value == 2 ^ k

/-- `std::bit_width(value) - 1`, and `0` for `0`. -/
def intlog2 (value : Nat) : Nat := if value ≠ 0 then Nat.log2 value else 0

def pow2log2 (value : Nat) : Nat := intlog2 value

def intpow2 (value : Nat) : Checked Nat := do
  assert (value < 64) "too big value"
  pure (2 ^ value)

def mulpow2 (a bLog2 : Nat) : Nat := u64 (a <<< bLog2)

def divpow2 (a bLog2 : Nat) : Nat := a >>> bLog2

def modpow2 (a bLog2 : Nat) : Nat := a &&& not64 (u64 (not64 0 <<< bLog2))

def isAligned (value alignment : Nat) : Checked Bool := do
  assert (isAlignment alignment) "not alignment"
  pure (value &&& (alignment - 1) == 0)

def align (value alignment : Nat) : Checked Nat := do
  assert (isAlignment alignment) "not alignment"
  pure (u64 (value + alignment - 1) &&& not64 (alignment - 1))

/-- `curr -= curr > 0`, for a number of attempts that is negative when there is no limit. -/
def countDown (curr : Int) : Int := curr - if 0 < curr then 1 else 0

/-- `std::adjacent_find(first, last, not_equal_to) == last`. -/
def allEqual : List Nat → Bool
  | [] => true
  | [_] => true
  | a :: b :: rest => a == b && allEqual (b :: rest)

/-- `advance_ptr`: pointer arithmetic modulo `2^64`. -/
def advancePtr (ptr diff : Nat) : Checked Nat := do
  assert (ptr ≠ 0) "ptr must not be zero."
  pure (u64 (ptr + diff))

/-- `advance_arr_log2`. -/
def advanceArrLog2 (ptr elemSizeLog2 elemIndex : Nat) : Checked Nat := do
  assert (ptr ≠ 0) "ptr must not be zero"
  pure (u64 (ptr + mulpow2 elemIndex elemSizeLog2))

/-- `subptr`, as the `uint64` its callers convert it to. -/
def subptr (a b : Nat) : Nat := sub64 a b

/-! ### Configuration constants -/

def confCacheline : Nat := 64
def confControlBlockSize : Nat := 128
def confMinAllocAlignment : Nat := 16
def confMaxRegionSizes : Nat := 8
def confMaxCachedChunkSizeId : Nat := 5
def confMaxContentionSplit : Nat := 16
def confFastArenaMinAlignmentLog2 : Nat := 4
def confFastArenaMaxAlignmentLog2 : Nat := 12
def confMaxFastArenas : Nat := confFastArenaMaxAlignmentLog2 - confFastArenaMinAlignmentLog2 + 1
def confMaxFastArenaLookupSplit : Nat := 128
def confMaxFastArenaLookupSteps : Nat := 11

/-! ### Acquired resources (`utils.hpp`) -/

/-- `AcquiredResource`: a status and, when it is `Acquired`, the resource's address. -/
inductive AcquiredResource where
  | failed
  | acquired (resource : Nat)
  | noResource
  deriving DecidableEq, Repr

end Cuw3
