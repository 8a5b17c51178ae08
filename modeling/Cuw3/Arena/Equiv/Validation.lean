/-
  What the checks on the free side accept, for every address and every size.

  `release` and `retireAllocation` round the size up, add it to the address and to a counter, each
  modulo `2^64`, and compare the results with the block and with `top`.  They do what their messages
  say (`ReleaseExact`, `RetireExact`) unless one of these three sums leaves the 64-bit range and the
  remainder passes (`freeSideExact_iff`):

  * the rounding: a size above `2^64 - arenaAlignment` is rounded to `0` (`RoundingSlips`);
  * the end of the range: it comes out below the end of the block (`EndSlips`);
  * the counter: it comes out below `top` (`CounterSlips`).
-/
import Cuw3.Arena.Equiv.RetireReclaim

namespace Cuw3.FastArena

/-! ### What the checks are for -/

variable (arena : FastArena)

/-- The arena's fields are 64-bit words and its alignment is one. -/
structure Represented : Prop where
  isAlignment : isAlignment arena.arenaAlignment = true
  memory_lt : arena.arenaMemory < 2 ^ 64
  size_lt : arena.arenaMemorySize < 2 ^ 64
  freed_lt : arena.freed < 2 ^ 64
  top_lt : arena.top < 2 ^ 64
  head_lt : arena.retireReclaimEntry.head < 2 ^ 64

/-- `[memory, memory + size)` is inside the arena's block, as mathematical integers. -/
def InBlock (memory size : Nat) : Prop :=
  arena.arenaMemory ≤ memory ∧ memory + size ≤ arena.arenaMemory + arena.arenaMemorySize

/-- When `release` passes its checks, the rounded size is inside the block and `freed` has grown by
it, up to `top` at most.  A check that fails ends the process: there is no arena to return. -/
def ReleaseExact (memory size : Nat) : Prop := ∀ arena', arena.release memory size = .ok arena' →
  arena.InBlock memory (alignUp size arena.arenaAlignment) ∧
    arena' = { arena with freed := arena.freed + alignUp size arena.arenaAlignment } ∧
    arena'.freed ≤ arena.top

/-- When `retireAllocation` passes its checks, the rounded size is inside the block. -/
def RetireExact (memory size : Nat) : Prop := ∀ old arena',
  arena.retireAllocation memory size = .ok (old, arena') →
    arena.InBlock memory (alignUp size arena.arenaAlignment)

/-! ### When they slip -/

/-- The 64-bit sum is at most `bound`, for the sum itself or for what is left of it. -/
def WrapsBelow (sum bound : Nat) : Prop := sum ≤ bound ∨ (2 ^ 64 ≤ sum ∧ sum ≤ 2 ^ 64 + bound)

/-- One of the two counters takes the size: `freed` the bytes, or the retire word the size as
given. -/
def Counted (bytes size : Nat) : Prop :=
  WrapsBelow (arena.freed + bytes) arena.top ∨ WrapsBelow (arena.pending + size) (2 ^ 63 - 1)

/-- The size is rounded to `0`, which fits everywhere. -/
def RoundingSlips (memory size : Nat) : Prop :=
  2 ^ 64 ≤ size + arena.arenaAlignment - 1 ∧
    arena.arenaMemory + arena.arenaMemorySize < 2 ^ 64 ∧ arena.arenaMemory ≤ memory ∧
    memory ≤ arena.arenaMemory + arena.arenaMemorySize ∧ arena.Counted 0 size

/-- The end of the range leaves the address space and comes out below the end of the block. -/
def EndSlips (memory size : Nat) : Prop :=
  size + arena.arenaAlignment - 1 < 2 ^ 64 ∧
    arena.arenaMemory + arena.arenaMemorySize < 2 ^ 64 ∧ arena.arenaMemory ≤ memory ∧
    2 ^ 64 ≤ memory + alignUp size arena.arenaAlignment ∧
    memory + alignUp size arena.arenaAlignment ≤
      2 ^ 64 + (arena.arenaMemory + arena.arenaMemorySize) ∧
    arena.Counted (alignUp size arena.arenaAlignment) size

/-- The range is inside the block, but `freed` leaves the 64-bit range and comes out below `top`. -/
def CounterSlips (memory size : Nat) : Prop :=
  size + arena.arenaAlignment - 1 < 2 ^ 64 ∧
    arena.InBlock memory (alignUp size arena.arenaAlignment) ∧
    (arena.arenaMemory + arena.arenaMemorySize < 2 ^ 64 ∨
      2 ^ 64 ≤ memory + alignUp size arena.arenaAlignment) ∧
    2 ^ 64 ≤ arena.freed + alignUp size arena.arenaAlignment ∧
    arena.freed + alignUp size arena.arenaAlignment ≤ 2 ^ 64 + arena.top

/-! ### The checks, one by one -/

section

variable {arena} {memory size : Nat}

theorem u64_le_iff {sum bound : Nat} (hsum : sum < 2 * 2 ^ 64) (hbound : bound < 2 ^ 64) :
    u64 sum ≤ bound ↔ WrapsBelow sum bound := by
  unfold WrapsBelow u64
  omega

theorem Represented.pending_lt (h : arena.Represented) : arena.pending < 2 ^ 63 := by
  have hhead := h.head_lt
  unfold pending
  omega

/-- What `release` computes, wrap-around included. -/
theorem Represented.release_eq_ok (h : arena.Represented) {arena' : FastArena} :
    arena.release memory size = .ok arena' ↔
      arena.hasMemoryRange memory (arena.requiredSpace size) = true ∧
        WrapsBelow (arena.freed + arena.requiredSpace size) arena.top ∧
        arena' = { arena with freed := u64 (arena.freed + arena.requiredSpace size) } := by
  have hfreed := h.freed_lt
  have hspace : arena.requiredSpace size < 2 ^ 64 := requiredSpace_lt size
  rw [← u64_le_iff (by omega) h.top_lt]
  simp only [release, releaseAligned, align_eq h.isAlignment, ok_bind, isAligned_eq h.isAlignment]
  rw [← requiredSpace, check_of (by simpa using requiredSpace_dvd size), ok_bind]
  simp only [bind_eq_ok, check_eq_ok, exists_const, pure_eq_ok]
  exact and_congr_right fun _ => and_congr_right fun _ => eq_comm

/-- What `retireAllocation` computes, wrap-around included. -/
theorem Represented.retireAllocation_eq_ok (h : arena.Represented) (hsize : size < 2 ^ 64) :
    (∃ old arena', arena.retireAllocation memory size = .ok (old, arena')) ↔
      arena.hasMemoryRange memory (arena.requiredSpace size) = true ∧
        WrapsBelow (arena.pending + size) (2 ^ 63 - 1) := by
  have hpending := h.pending_lt
  rw [← u64_le_iff (by omega) (by omega)]
  simp only [retireAllocation, align_eq h.isAlignment, ok_bind]
  rw [← requiredSpace]
  simp only [bind_eq_ok, check_eq_ok, exists_const, pure_eq_ok, Prod.mk.injEq, Prod.exists,
    RetireReclaimPtrView.retireData_eq_ok]
  rw [← pending]
  constructor
  · rintro ⟨old, arena', hrange, word, new, ⟨hcount, -, -⟩, -, -⟩
    exact ⟨hrange, by omega⟩
  · rintro ⟨hrange, hcount⟩
    exact ⟨_, _, hrange, _, _, ⟨by omega, rfl, rfl⟩, rfl, rfl⟩

/-- The range check on the rounded size. -/
theorem hasMemoryRange_iff :
    arena.hasMemoryRange memory (arena.requiredSpace size) = true ↔ arena.arenaMemory ≤ memory ∧
      u64 (memory + arena.requiredSpace size) ≤
        u64 (arena.arenaMemory + arena.arenaMemorySize) := by
  simp only [hasMemoryRange, Bool.and_eq_true, decide_eq_true_eq]

/-- Rounding a size that is too large gives `0` instead of `2^64`. -/
theorem Represented.requiredSpace_of_slip (h : arena.Represented) (hsize : size < 2 ^ 64)
    (hslip : 2 ^ 64 ≤ size + arena.arenaAlignment - 1) :
    arena.requiredSpace size = 0 ∧ 2 ^ 64 ≤ alignUp size arena.arenaAlignment := by
  have hpos := isAlignment_pos h.isAlignment
  refine ⟨requiredSpace_of_wrap hsize hpos hslip, ?_⟩
  -- `2^64` is a multiple of the alignment, and the only one at hand
  obtain ⟨k, hk, hk'⟩ := isAlignment_iff.mp h.isAlignment
  have hdvd : arena.arenaAlignment ∣ 2 ^ 64 := hk' ▸ Nat.pow_dvd_pow 2 (by omega)
  obtain ⟨c, hc⟩ := hdvd
  have hdiv : c ≤ (size + arena.arenaAlignment - 1) / arena.arenaAlignment := by
    rw [Nat.le_div_iff_mul_le hpos, Nat.mul_comm]
    omega
  unfold alignUp
  calc 2 ^ 64 = c * arena.arenaAlignment := by rw [hc, Nat.mul_comm]
    _ ≤ _ := Nat.mul_le_mul_right _ hdiv

/-! ### The range that is accepted -/

/-- The range check lets a range outside the block pass exactly when the rounding or the end slips.
-/
theorem Represented.accepts_iff (h : arena.Represented) (hmemory : memory < 2 ^ 64)
    (hsize : size < 2 ^ 64) :
    (arena.hasMemoryRange memory (arena.requiredSpace size) = true ∧
      arena.Counted (arena.requiredSpace size) size ∧
      ¬arena.InBlock memory (alignUp size arena.arenaAlignment)) ↔
      arena.RoundingSlips memory size ∨ arena.EndSlips memory size := by
  have hblock := h.size_lt
  have hstart := h.memory_lt
  rw [hasMemoryRange_iff]
  by_cases hround : size + arena.arenaAlignment - 1 < 2 ^ 64
  · have hspace := requiredSpace_of_le hround
    have hlt : arena.requiredSpace size < 2 ^ 64 := requiredSpace_lt size
    rw [hspace] at hlt ⊢
    unfold RoundingSlips EndSlips InBlock u64
    constructor
    · rintro ⟨⟨hlo, hhi⟩, hcounted, hout⟩
      right
      refine ⟨hround, ?_, hlo, ?_, ?_, hcounted⟩ <;> omega
    · rintro (⟨hround', -⟩ | ⟨-, hend, hlo, hwrap, hhi, hcounted⟩)
      · omega
      · refine ⟨⟨hlo, ?_⟩, hcounted, ?_⟩ <;> omega
  · obtain ⟨hspace, hlarge⟩ := h.requiredSpace_of_slip hsize (by omega)
    rw [hspace]
    unfold RoundingSlips EndSlips InBlock u64
    constructor
    · rintro ⟨⟨hlo, hhi⟩, hcounted, hout⟩
      left
      refine ⟨by omega, ?_, hlo, ?_, hcounted⟩ <;> omega
    · rintro (⟨-, hend, hlo, hhi, hcounted⟩ | ⟨hround', -⟩)
      · refine ⟨⟨hlo, ?_⟩, hcounted, ?_⟩ <;> omega
      · omega

/-- The counter takes a range inside the block and does not grow by it exactly when it slips. -/
theorem Represented.counts_iff (h : arena.Represented) (hsize : size < 2 ^ 64) :
    (arena.hasMemoryRange memory (arena.requiredSpace size) = true ∧
      WrapsBelow (arena.freed + arena.requiredSpace size) arena.top ∧
      arena.InBlock memory (alignUp size arena.arenaAlignment) ∧
      arena.top < arena.freed + alignUp size arena.arenaAlignment) ↔
      arena.CounterSlips memory size := by
  have htop := h.top_lt
  have hblock := h.size_lt
  have hstart := h.memory_lt
  rw [hasMemoryRange_iff]
  by_cases hround : size + arena.arenaAlignment - 1 < 2 ^ 64
  · have hspace := requiredSpace_of_le hround
    have hlt : arena.requiredSpace size < 2 ^ 64 := requiredSpace_lt size
    rw [hspace] at hlt ⊢
    unfold CounterSlips InBlock WrapsBelow u64
    omega
  · obtain ⟨hspace, hlarge⟩ := h.requiredSpace_of_slip hsize (by omega)
    unfold CounterSlips InBlock
    constructor
    · rintro ⟨-, -, hin, -⟩
      omega
    · rintro ⟨hround', -⟩
      omega

end

/-! ### The checks together -/

section

variable {arena} {memory size : Nat}

/-- The free side does something else than its checks say: it takes a range that is not in the
block, or a counter above `top`. -/
theorem Represented.not_exact_iff (h : arena.Represented) (hsize : size < 2 ^ 64) :
    ¬(arena.ReleaseExact memory size ∧ arena.RetireExact memory size) ↔
      (arena.hasMemoryRange memory (arena.requiredSpace size) = true ∧
        arena.Counted (arena.requiredSpace size) size ∧
        ¬arena.InBlock memory (alignUp size arena.arenaAlignment)) ∨
      (arena.hasMemoryRange memory (arena.requiredSpace size) = true ∧
        WrapsBelow (arena.freed + arena.requiredSpace size) arena.top ∧
        arena.InBlock memory (alignUp size arena.arenaAlignment) ∧
        arena.top < arena.freed + alignUp size arena.arenaAlignment) := by
  have hblock := h.size_lt
  have hstart := h.memory_lt
  constructor
  · intro hnot
    by_contra hgood
    apply hnot
    constructor
    · intro arena' hok
      obtain ⟨hrange, hcount, rfl⟩ := h.release_eq_ok.mp hok
      have hin : arena.InBlock memory (alignUp size arena.arenaAlignment) := by
        by_contra hout
        exact hgood (.inl ⟨hrange, .inl hcount, hout⟩)
      have hle : arena.freed + alignUp size arena.arenaAlignment ≤ arena.top := by
        by_contra hgt
        exact hgood (.inr ⟨hrange, hcount, hin, by omega⟩)
      -- a size whose rounding wraps is longer than any block
      have hround : size + arena.arenaAlignment - 1 < 2 ^ 64 := by
        by_contra hwrap
        have hlarge := (h.requiredSpace_of_slip hsize (by omega)).2
        have hfit := hin.2
        have hlo := hin.1
        omega
      have htop := h.top_lt
      rw [requiredSpace_of_le hround, u64_of_lt (by omega)]
      exact ⟨hin, rfl, hle⟩
    · intro old arena' hok
      obtain ⟨hrange, hcount⟩ := (h.retireAllocation_eq_ok hsize).mp ⟨old, arena', hok⟩
      by_contra hout
      exact hgood (.inl ⟨hrange, .inr hcount, hout⟩)
  · rintro (⟨hrange, hcount | hcount, hout⟩ | ⟨hrange, hcount, -, hgt⟩) ⟨hrelease, hretire⟩
    · exact hout (hrelease _ (h.release_eq_ok.mpr ⟨hrange, hcount, rfl⟩)).1
    · obtain ⟨old, arena', hok⟩ := (h.retireAllocation_eq_ok hsize).mpr ⟨hrange, hcount⟩
      exact hout (hretire old arena' hok)
    · obtain ⟨-, hgrown, hle⟩ := hrelease _ (h.release_eq_ok.mpr ⟨hrange, hcount, rfl⟩)
      rw [hgrown] at hle
      have hle : arena.freed + alignUp size arena.arenaAlignment ≤ arena.top := hle
      omega

/-- **The checks on the free side are exact if and only if none of the three sums slips.** -/
theorem freeSideExact_iff (h : arena.Represented) (hmemory : memory < 2 ^ 64)
    (hsize : size < 2 ^ 64) :
    arena.ReleaseExact memory size ∧ arena.RetireExact memory size ↔
      ¬arena.RoundingSlips memory size ∧ ¬arena.EndSlips memory size ∧
        ¬arena.CounterSlips memory size := by
  rw [← not_iff_not, h.not_exact_iff hsize, h.accepts_iff hmemory hsize,
    h.counts_iff hsize]
  tauto

end

/-! ### A block of 4096 bytes -/

theorem represented_block4096 : (block4096 16).Represented :=
  ⟨by decide, by decide, by decide, by decide, by decide, by decide⟩

/-- The checks are exact for the one allocation of the block. -/
theorem freeSideExact_iff_block4096 :
    (block4096 16).ReleaseExact 4096 1 ∧ (block4096 16).RetireExact 4096 1 ↔
      ¬(block4096 16).RoundingSlips 4096 1 ∧ ¬(block4096 16).EndSlips 4096 1 ∧
        ¬(block4096 16).CounterSlips 4096 1 :=
  freeSideExact_iff represented_block4096 (by decide) (by decide)

/-- **Freeing `2^64 - 1` bytes at the start of the block passes every check and frees nothing.** -/
theorem not_freeSideExact : ¬∀ (arena : FastArena) (memory size : Nat), arena.Represented →
    memory < 2 ^ 64 → 1 ≤ size → size < 2 ^ 64 →
      arena.ReleaseExact memory size ∧ arena.RetireExact memory size := by
  intro hall
  obtain ⟨hrelease, -⟩ := hall (block4096 16) 4096 (2 ^ 64 - 1) represented_block4096 (by decide)
    (by decide) (by decide)
  have hok : (block4096 16).release 4096 (2 ^ 64 - 1) = .ok (block4096 16) := rfl
  have hout := (hrelease _ hok).1.2
  revert hout
  decide

end Cuw3.FastArena
