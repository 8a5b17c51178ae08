/-
  `bitmap.hpp`: a set of bits in 64-bit words, and the bit masks of `funcs.hpp` it uses.

  The array of words is a function on their indices; `bitCapacity` is the template parameter.
-/
import Cuw3.Base.Funcs
import Mathlib.Logic.Function.Basic

namespace Cuw3

def alignDown (value alignment : Nat) : Checked Nat := do
  assert (isAlignment alignment) "not alignment"
  pure (value &&& not64 (alignment - 1))

/-- The word whose bits `[firstBit, lastBit)` are set. -/
def bitmask (firstBit lastBit : Nat) : Checked Nat := do
  assert (firstBit < lastBit) "last_bit is less than first_bit"
  assert (lastBit ≤ 64) "last_bit is too big"
  let head := firstBit
  let tail := 64 - lastBit
  pure (u64 (u64 ((not64 0 >>> head) <<< head) <<< tail) >>> tail)

/-- `std::countr_zero` of a word. -/
def countrZero (word : Nat) : Nat := (findFirst 64 fun i => word.testBit i).getD 64

structure Bitmap where
  bins : Nat → Nat

namespace Bitmap

def binSize : Nat := 64

instance : Inhabited Bitmap := ⟨⟨fun _ => 0⟩⟩

variable (bitCapacity : Nat) (bitmap : Bitmap)

/-- `null_bit`: the capacity. -/
def nullBit : Nat := bitCapacity

def set (bit : Nat) : Checked Bitmap := do
  assert (bit < bitCapacity) "invalid bit"
  let bin := bitmap.bins (bit / binSize)
  pure ⟨Function.update bitmap.bins (bit / binSize) (bin ||| u64 (1 <<< (bit % binSize)))⟩

def unset (bit : Nat) : Checked Bitmap := do
  assert (bit < bitCapacity) "invalid bit"
  let bin := bitmap.bins (bit / binSize)
  pure ⟨Function.update bitmap.bins (bit / binSize) (bin &&& not64 (u64 (1 <<< (bit % binSize))))⟩

def get (bit : Nat) : Checked Bool := do
  assert (bit < bitCapacity) "invalid bit"
  pure (bitmap.bins (bit / binSize) >>> (bit % binSize) &&& 1 != 0)

/-- The loop of `get_first_set` from `curr`; each turn looks at the rest of one word. -/
def getFirstSetFrom : Nat → Nat → Checked Nat
  | 0, _ => pure (nullBit bitCapacity)
  | turns + 1, curr => do
    if curr < bitCapacity then
      let next := min (← alignDown (curr + binSize) binSize) bitCapacity
      let mask ← bitmask (curr % binSize) (curr % binSize + next - curr)
      let masked := bitmap.bins (curr / binSize) &&& mask
      if masked ≠ 0 then
        pure ((← alignDown curr binSize) + countrZero masked)
      else
        getFirstSetFrom turns next
    else
      pure (nullBit bitCapacity)

/-- Each turn of the loop moves `curr` up, so `bit_capacity` turns are enough. -/
def getFirstSet (start : Nat) : Checked Nat := do
  assert (start < bitCapacity) "invalid bit"
  getFirstSetFrom bitCapacity bitmap bitCapacity start

end Bitmap

end Cuw3
