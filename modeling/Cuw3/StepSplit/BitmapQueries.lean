/-
  `bitmap.hpp`: all operations of `Bitmap<uint64, bit_capacity>`, with what C++ leaves undefined.

  An access past the last word and a shift by the word size or more are undefined in C++; here they
  abort, so that a run that returns has made none.  The queries that look at one word after the
  other share one loop (`scan`), which each gives its own body.  A loop takes a number of turns that
  is enough, and aborts when that runs out.
-/
import Cuw3.StepSplit.Bitmap
import Mathlib.Data.Finset.Card
import Mathlib.Data.Finset.Range

namespace Cuw3

/-! ### Words -/

/-- `value << amount` of a 64-bit word. -/
def shl (value amount : Nat) : Checked Nat := do
  assert (amount < 64) "undefined: shift by the word size"
  pure (u64 (value <<< amount))

/-- `value >> amount` of a 64-bit word. -/
def shr (value amount : Nat) : Checked Nat := do
  assert (amount < 64) "undefined: shift by the word size"
  pure (value >>> amount)

/-- `std::popcount`. -/
def popcount (word : Nat) : Nat := ((Finset.range 64).filter fun i => word.testBit i = true).card

/-- `std::countr_one`. -/
def countrOne (word : Nat) : Nat := (findFirst 64 fun i => !word.testBit i).getD 64

/-- `corrected &= corrected - 1`, so many times. -/
def clearLowest : Nat → Nat → Nat
  | 0, word => word
  | turns + 1, word => clearLowest turns (word &&& sub64 word 1)

/-- Conversion to `ssize`. -/
def ssize (value : Int) : Int := value.bmod (2 ^ 64)

/-- Conversion to `gsize`. -/
def gsize (value : Int) : Nat := (value % 2 ^ 64).toNat

/-- `align<ssize, ssize>`: clearing the low bits of a two's complement number rounds it down. -/
def alignSsize (value : Int) (alignment : Nat) : Checked Int := do
  assert (isAlignment alignment) "not alignment"
  pure ((value + alignment - 1) / alignment * alignment)

namespace GuardedBitmap

open Bitmap (binSize nullBit)

/-- `bitmask`. -/
def bitmask (firstBit lastBit : Nat) : Checked Nat := do
  assert (firstBit < lastBit) "last_bit is less than first_bit"
  assert (lastBit ≤ 64) "last_bit is too big"
  let head := firstBit
  let tail := 64 - lastBit
  shr (← shl (← shl (← shr (not64 0) head) head) tail) tail

variable (bitCapacity : Nat)

/-- `bin_capacity`. -/
def binCapacity : Nat := u64 (bitCapacity + binSize - 1) / binSize

variable (bitmap : Bitmap)

/-- `bins[index]`. -/
def bin (index : Nat) : Checked Nat := do
  assert (index < binCapacity bitCapacity) "undefined: index past the last word"
  pure (bitmap.bins index)

def set (bit : Nat) : Checked Bitmap := do
  assert (bit < bitCapacity) "invalid bit"
  let word ← bin bitCapacity bitmap (bit / binSize)
  pure ⟨Function.update bitmap.bins (bit / binSize) (word ||| (← shl 1 (bit % binSize)))⟩

def unset (bit : Nat) : Checked Bitmap := do
  assert (bit < bitCapacity) "invalid bit"
  let word ← bin bitCapacity bitmap (bit / binSize)
  pure ⟨Function.update bitmap.bins (bit / binSize) (word &&& not64 (← shl 1 (bit % binSize)))⟩

def reset : Bitmap := ⟨fun index => if index < binCapacity bitCapacity then 0 else bitmap.bins
    index⟩

/-- The loop of the queries, from `curr` on.  Its body is given the word of `curr` and the mask of
the bits of the word from `curr` on; it returns, or goes on with another value of the query's
variable. -/
def scan {σ β : Type} (body : σ → Nat → Nat → Nat → Checked (σ ⊕ β)) (exit : σ → Checked β) :
    Nat → σ → Nat → Checked β
  | 0, _, _ => abortCritical "the loop does not end"
  | turns + 1, state, curr => do
    if curr < bitCapacity then
      let next := min (← alignDown (u64 (curr + binSize)) binSize) bitCapacity
      let mask ← bitmask (curr % binSize) (sub64 (curr % binSize + next) curr)
      let word ← bin bitCapacity bitmap (curr / binSize)
      match ← body state curr word mask with
      | .inl state => scan body exit turns state next
      | .inr result => pure result
    else
      exit state

variable (start : Nat)

def anySet : Checked Bool := do
  assert (start < bitCapacity) "invlaid bit"
  scan bitCapacity bitmap (fun _ _ word mask =>
    pure (if word &&& mask ≠ 0 then .inr true else .inl ()))
    (fun _ => pure false) (bitCapacity + 1) () start

/-- The bit, and the bitmap after it. -/
def setFirstUnset : Checked (Nat × Bitmap) := do
  assert (start < bitCapacity) "invalid bit"
  scan bitCapacity bitmap
    (fun _ curr word mask => do
      -- the source computes `bitmask_inv`, the complement of the mask
      let covered := word ||| not64 mask
      if not64 covered ≠ 0 then
        let bit := (← alignDown curr binSize) + countrOne covered
        pure (.inr (bit, ← set bitCapacity bitmap bit))
      else
        pure (.inl ()))
    (fun _ => pure (nullBit bitCapacity, bitmap)) (bitCapacity + 1) () start

def getFirstSet : Checked Nat := do
  assert (start < bitCapacity) "invalid bit"
  scan bitCapacity bitmap
    (fun _ curr word mask => do
      if word &&& mask ≠ 0 then
        pure (.inr ((← alignDown curr binSize) + countrZero (word &&& mask)))
      else
        pure (.inl ()))
    (fun _ => pure (nullBit bitCapacity)) (bitCapacity + 1) () start

def count : Checked Nat := do
  assert (start < bitCapacity) "invalid bit"
  scan bitCapacity bitmap
    (fun total _ word mask => pure (.inl (u64 (total + popcount (word &&& mask)))))
    (fun total => pure total) (bitCapacity + 1) 0 start

def sampleSetBit (seed : Nat) : Checked Nat := do
  let total ← count bitCapacity bitmap start
  if total = 0 then
    return nullBit bitCapacity
  let bit := seed % total
  scan bitCapacity bitmap
    (fun skipped curr word mask => do
      let masked := word &&& mask
      let bitsInRange := popcount masked
      if sub64 bit skipped < bitsInRange then
        let corrected := clearLowest (sub64 bit skipped) masked
        pure (.inr ((← alignDown curr binSize) + countrZero corrected))
      else
        pure (.inl (u64 (skipped + bitsInRange))))
    (fun _ => abortCritical "unreachable") (bitCapacity + 1) 0 start

/-- The loop of `get_last_set_bit`, from `curr` down to `last`. -/
def getLastSetBitFrom (last : Int) : Nat → Int → Checked Nat
  | 0, _ => abortCritical "the loop does not end"
  | turns + 1, curr => do
    if last < curr then
      let next := max (← alignSsize (ssize (curr - binSize)) binSize) last
      let mask ← bitmask (gsize next % binSize)
        (sub64 (gsize next % binSize + gsize curr) (gsize next))
      let masked := (← bin bitCapacity bitmap (gsize next / binSize)) &&& mask
      if masked ≠ 0 then
        pure ((← alignDown (gsize next) binSize) + intlog2 masked)
      else
        getLastSetBitFrom last turns next
    else
      pure (nullBit bitCapacity)

def getLastSetBit : Checked Nat := do
  assert (start < bitCapacity) "invalid bit"
  getLastSetBitFrom bitCapacity bitmap (ssize start) (bitCapacity + 1) (ssize bitCapacity)

/-- The bitmaps that the operations make out of a new one. -/
inductive Reachable : Bitmap → Prop where
  | new : Reachable ⟨fun _ => 0⟩
  | set {bitmap bitmap' : Bitmap} {bit : Nat} (h : Reachable bitmap)
      (hok : set bitCapacity bitmap bit = .ok bitmap') : Reachable bitmap'
  | unset {bitmap bitmap' : Bitmap} {bit : Nat} (h : Reachable bitmap)
      (hok : unset bitCapacity bitmap bit = .ok bitmap') : Reachable bitmap'
  | reset {bitmap : Bitmap} (h : Reachable bitmap) : Reachable (reset bitCapacity bitmap)
  | setFirstUnset {bitmap bitmap' : Bitmap} {start bit : Nat} (h : Reachable bitmap)
      (hok : setFirstUnset bitCapacity bitmap start = .ok (bit, bitmap')) : Reachable bitmap'

end GuardedBitmap

end Cuw3
