/-
  What the operations on a retire word compute.

  A word `w` holds the count `w / 2` (or the pointer `2 * (w / 2)`) and, in its lowest bit, the
  retired flag.  `retireData` adds to the count and raises the flag (`retireData_eq_ok`),
  `retirePtr` stores a pointer and raises the flag (`retirePtr_eq_ok`), `reclaim` takes the pointer
  out and keeps the flag (`reclaim_eq_ok`), `reclaimReset` clears the word (`reclaimReset_eq_ok`).
-/
import Cuw3.Base.Equiv.Funcs
import Cuw3.Arena.FastArena

namespace Cuw3

/-! ### Reading a word -/

namespace RetireReclaimPtr

@[simp] theorem valueShifted_eq (w : Nat) : valueShifted w = w / 2 := by
  rw [valueShifted, AlignmentPackedInt.valueShifted, retireReclaimFlagBits,
    Nat.shiftRight_eq_div_pow, Nat.pow_one]

@[simp] theorem data_eq (w : Nat) : data w = w % 2 := by
  rw [data, AlignmentPackedInt.alignment, AlignmentPackedInt.alignmentMask, retireReclaimFlagBits,
    and_two_pow_sub_one, Nat.pow_one]

theorem ptr_eq {w : Nat} (hw : w < 2 ^ 64) : ptr w = w / 2 * 2 := by
  rw [ptr, AlignmentPackedInt.value, AlignmentPackedInt.valueMask, AlignmentPackedInt.alignmentMask,
    retireReclaimFlagBits, and_not64_two_pow (by omega) hw, Nat.pow_one]

/-- A pointer packs with a flag bit when it is even. -/
theorem packed_eq_ok {p flags w : Nat} (hf : flags < 2) :
    packed p flags = .ok w ↔ p % 2 = 0 ∧ w = p + flags := by
  have hmask : not64 (AlignmentPackedInt.valueMask retireReclaimFlagBits) = 1 := by decide
  have hflags : flags &&& not64 (AlignmentPackedInt.alignmentMask retireReclaimFlagBits) = 0 := by
    obtain rfl | rfl : flags = 0 ∨ flags = 1 := by omega
    · rfl
    · decide
  simp only [packed, AlignmentPackedInt.packed, hmask, hflags, Nat.and_one_is_mod,
    bind_eq_ok, assert_eq_ok, pure_eq_ok, exists_const, true_and]
  refine and_congr_right fun hp => ?_
  obtain ⟨c, rfl⟩ := Nat.dvd_of_mod_eq_zero hp
  have hor : 2 * c ||| flags = 2 * c + flags := by
    have h := Nat.two_pow_add_eq_or_of_lt (i := 1) (b := flags) (by omega) c
    rwa [Nat.pow_one, eq_comm] at h
  rw [hor, eq_comm]

end RetireReclaimPtr

@[simp] theorem retired_eq (flags : Nat) : retired flags = decide (flags % 2 = 1) := by
  have h : flags &&& retiredFlag = flags % 2 := and_two_pow_sub_one (k := 1)
  rw [retired, h]
  have : flags % 2 < 2 := Nat.mod_lt _ (by decide)
  by_cases h1 : flags % 2 = 1
  · simp [h1]
  · simp [show flags % 2 = 0 by omega]

/-! ### Updating a word -/

namespace RetireReclaimPtrView

/-- The flag bit of a word, with the retired flag raised. -/
theorem or_retiredFlag (w : Nat) : w % 2 ||| retiredFlag = 1 := by
  obtain h | h := Nat.mod_two_eq_zero_or_one w <;> rw [h] <;> rfl

theorem ptrWithFlags_eq_ok {p flags w : Nat} (hf : flags < 2) :
    ptrWithFlags p flags = .ok w ↔ p % 2 = 0 ∧ w = p + flags :=
  RetireReclaimPtr.packed_eq_ok hf

theorem dataWithFlags_eq_ok {d flags w : Nat} (hf : flags < 2) :
    dataWithFlags d flags = .ok w ↔ d < 2 ^ 63 ∧ w = 2 * d + flags := by
  have hshift : d >>> (64 - retireReclaimFlagBits) = 0 ↔ d < 2 ^ 63 := by
    rw [Nat.shiftRight_eq_div_pow, Nat.div_eq_zero_iff]
    simp [retireReclaimFlagBits]
  simp only [dataWithFlags, AlignmentPackedInt.packedShifted, bind_eq_ok, assert_eq_ok,
    exists_const, hshift]
  refine and_congr_right fun hd => ?_
  have hmul : u64 (d <<< retireReclaimFlagBits) = 2 * d := by
    rw [Nat.shiftLeft_eq, retireReclaimFlagBits, Nat.pow_one, u64_of_lt (by omega), Nat.mul_comm]
  rw [hmul]
  refine (RetireReclaimPtr.packed_eq_ok hf).trans ⟨fun h => h.2, fun h => ⟨by omega, h⟩⟩

theorem reclaim_eq_ok {w old new : Nat} :
    reclaim w = .ok (old, new) ↔ w % 2 = 1 ∧ old = w ∧ new = 1 := by
  simp only [reclaim, RetireReclaimPtr.data_eq, retired_eq, Nat.mod_mod, decide_eq_true_eq,
    bind_eq_ok, check_eq_ok, exists_const, pure_eq_ok, Prod.mk.injEq]
  constructor
  · rintro ⟨h1, new', hnew, rfl, rfl⟩
    rw [ptrWithFlags_eq_ok (by omega)] at hnew
    exact ⟨h1, rfl, by omega⟩
  · rintro ⟨h1, rfl, rfl⟩
    exact ⟨h1, 1, (ptrWithFlags_eq_ok (by omega)).mpr ⟨rfl, by omega⟩, rfl, rfl⟩

theorem reclaimReset_eq_ok {w old new : Nat} :
    reclaimReset w = .ok (old, new) ↔ w % 2 = 1 ∧ old = w ∧ new = 0 := by
  have hzero : ptrWithFlags 0 0 = .ok 0 := rfl
  simp only [reclaimReset, RetireReclaimPtr.data_eq, retired_eq, Nat.mod_mod, decide_eq_true_eq,
    bind_eq_ok, check_eq_ok, exists_const, hzero, Except.ok.injEq, exists_eq_left', pure_eq_ok,
    Prod.mk.injEq]
  exact and_congr_right fun _ => and_congr eq_comm eq_comm

theorem retirePtr_eq_ok {w p old new : Nat} :
    retirePtr w p = .ok (old, new) ↔ p % 2 = 0 ∧ old = w ∧ new = p + 1 := by
  simp only [retirePtr, RetireReclaimPtr.data_eq, or_retiredFlag, bind_eq_ok, pure_eq_ok,
    Prod.mk.injEq, ptrWithFlags_eq_ok (show (1 : Nat) < 2 by decide)]
  constructor
  · rintro ⟨new', ⟨hp, rfl⟩, rfl, rfl⟩
    exact ⟨hp, rfl, rfl⟩
  · rintro ⟨hp, rfl, rfl⟩
    exact ⟨_, ⟨hp, rfl⟩, rfl, rfl⟩

theorem retireData_eq_ok {w d old new : Nat} :
    retireData w d = .ok (old, new) ↔
      u64 (w / 2 + d) < 2 ^ 63 ∧ old = w ∧ new = 2 * u64 (w / 2 + d) + 1 := by
  simp only [retireData, RetireReclaimPtr.data_eq, RetireReclaimPtr.valueShifted_eq, or_retiredFlag,
    bind_eq_ok, pure_eq_ok, Prod.mk.injEq, dataWithFlags_eq_ok (show (1 : Nat) < 2 by decide)]
  constructor
  · rintro ⟨new', ⟨hd, rfl⟩, rfl, rfl⟩
    exact ⟨hd, rfl, rfl⟩
  · rintro ⟨hd, rfl, rfl⟩
    exact ⟨_, ⟨hd, rfl⟩, rfl, rfl⟩

end RetireReclaimPtrView

end Cuw3
