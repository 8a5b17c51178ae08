/-
  What the bit counting functions say about the bits of a word.

  `bitSet w` is the set of bits of a 64-bit word.  `countr_zero` is its least bit, `bit_width - 1`
  its greatest (`log2_isGreatest`), `popcount` its size; `corrected & (corrected - 1)` takes the
  least bit away (`bitSet_clear`), so that doing it `n` times and then looking for the least bit
  finds the bit that has `n` bits below it (`countrZero_clearLowest`).
-/
import Cuw3.StepSplit.BitmapQueries
import Cuw3.StepSplit.Equiv.Bitmap
import Mathlib.Order.Bounds.Defs

namespace Cuw3

/-! ### Shifts -/

theorem shl_of_lt {value amount : Nat} (h : amount < 64) :
    shl value amount = .ok (u64 (value <<< amount)) := by
  unfold shl
  rw [assert_of h]
  rfl

theorem shr_of_lt {value amount : Nat} (h : amount < 64) :
    shr value amount = .ok (value >>> amount) := by
  unfold shr
  rw [assert_of h]
  rfl

/-- No shift of `bitmask` reaches the word size, as its own checks see to. -/
theorem GuardedBitmap.bitmask_eq_bitmask {first last : Nat} (h : first < last) (hlast : last ≤ 64) :
    GuardedBitmap.bitmask first last = Cuw3.bitmask first last := by
  have hhead : first < 64 := by omega
  have htail : 64 - last < 64 := by omega
  unfold GuardedBitmap.bitmask Cuw3.bitmask
  simp only [assert_of h, assert_of hlast, ok_bind, shr_of_lt hhead, shl_of_lt hhead,
    shl_of_lt htail, shr_of_lt htail]
  rfl

/-! ### The bits of a word -/

/-- The bits of a word. -/
def bitSet (w : Nat) : Finset Nat := (Finset.range 64).filter fun i => w.testBit i = true

variable {w i j n : Nat}

theorem mem_bitSet : i ∈ bitSet w ↔ i < 64 ∧ w.testBit i = true := by
  simp [bitSet]

theorem lt_of_testBit (hw : w < 2 ^ 64) (h : w.testBit i = true) : i < 64 := by
  by_contra hge
  rw [Nat.testBit_lt_two_pow (lt_of_lt_of_le hw (Nat.pow_le_pow_right (by decide)
    (not_lt.mp hge)))] at h
  cases h

theorem mem_bitSet_of_lt (hw : w < 2 ^ 64) : i ∈ bitSet w ↔ w.testBit i = true := by
  rw [mem_bitSet]
  exact ⟨And.right, fun h => ⟨lt_of_testBit hw h, h⟩⟩

theorem popcount_eq : popcount w = (bitSet w).card := rfl

theorem bitSet_nonempty (hw : w < 2 ^ 64) : (bitSet w).Nonempty ↔ w ≠ 0 := by
  constructor
  · rintro ⟨i, hi⟩ rfl
    simp [mem_bitSet] at hi
  · intro h
    obtain ⟨i, hi⟩ := Nat.exists_testBit_of_ne_zero h
    exact ⟨i, (mem_bitSet_of_lt hw).mpr hi⟩

/-- `countr_zero` is the least bit. -/
theorem countrZero_isLeast (h : w ≠ 0) (hw : w < 2 ^ 64) :
    IsLeast (bitSet w : Set Nat) (countrZero w) := by
  obtain ⟨hset, hbelow⟩ := countrZero_spec h hw
  refine ⟨(mem_bitSet_of_lt hw).mpr hset, fun i hi => ?_⟩
  by_contra hlt
  have hclear := hbelow i (not_le.mp hlt)
  rw [(mem_bitSet.mp hi).2] at hclear
  cases hclear

/-- `bit_width - 1` is the greatest bit. -/
theorem log2_isGreatest (h : w ≠ 0) (hw : w < 2 ^ 64) :
    IsGreatest (bitSet w : Set Nat) (Nat.log2 w) := by
  refine ⟨(mem_bitSet_of_lt hw).mpr (Nat.testBit_log2 h), fun i hi => ?_⟩
  by_contra hgt
  have hhigh : w < 2 ^ i := by
    rw [← Nat.log2_lt h]
    exact not_le.mp hgt
  have hclear := Nat.testBit_lt_two_pow hhigh
  rw [(mem_bitSet.mp hi).2] at hclear
  cases hclear

/-- `countr_one` is the least bit that is not set. -/
theorem countrOne_isLeast (h : not64 w ≠ 0) (hw : w < 2 ^ 64) :
    IsLeast {i | i < 64 ∧ w.testBit i = false} (countrOne w) := by
  have hclear : ∃ i < 64, w.testBit i = false := by
    have hlt : not64 w < 2 ^ 64 := by
      unfold not64
      omega
    obtain ⟨i, hi⟩ := (bitSet_nonempty hlt).mpr h
    rw [mem_bitSet, testBit_not64 hw, Bool.and_eq_true, Bool.not_eq_true'] at hi
    exact ⟨i, hi.1, hi.2.2⟩
  unfold countrOne
  cases hfind : findFirst 64 fun i => !w.testBit i with
  | none =>
    obtain ⟨i, hi, hi'⟩ := hclear
    have hset := findFirst_eq_none.mp hfind i hi
    rw [hi'] at hset
    cases hset
  | some k =>
    obtain ⟨hk, hfirst, hbelow⟩ := findFirst_eq_some.mp hfind
    rw [Bool.not_eq_true'] at hfirst
    refine ⟨⟨hk, hfirst⟩, fun i hi => ?_⟩
    by_contra hlt
    have hset : (!w.testBit i) = false := hbelow i (not_le.mp hlt)
    rw [hi.2] at hset
    cases hset

/-! ### Clearing the lowest bit -/

/-- A word is its bits above the least one, and the least one. -/
theorem eq_add_of_isLeast (hw : w < 2 ^ 64) (hj : IsLeast (bitSet w : Set Nat) j) :
    w = 2 ^ (j + 1) * (w / 2 ^ (j + 1)) + 2 ^ j := by
  have hlow : w % 2 ^ (j + 1) = 2 ^ j := by
    apply Nat.eq_of_testBit_eq
    intro i
    rw [Nat.testBit_mod_two_pow, Nat.testBit_two_pow]
    by_cases hi : i < j
    · have hclear : w.testBit i = false := by
        by_contra hset
        have hmem : i ∈ bitSet w := (mem_bitSet_of_lt hw).mpr (by simpa using hset)
        exact absurd (hj.2 hmem) (not_le.mpr hi)
      rw [hclear, Bool.and_false]
      simp [show j ≠ i by omega]
    · by_cases heq : j = i
      · subst heq
        simp [(mem_bitSet.mp hj.1).2]
      · simp [heq, show ¬i < j + 1 by omega]
  have hdiv := Nat.div_add_mod w (2 ^ (j + 1))
  rw [hlow] at hdiv
  exact hdiv.symm

/-- `corrected & (corrected - 1)` takes the least bit away. -/
theorem bitSet_clear (hw : w < 2 ^ 64) (hj : IsLeast (bitSet w : Set Nat) j) :
    bitSet (w &&& sub64 w 1) = (bitSet w).erase j := by
  have hsplit := eq_add_of_isLeast hw hj
  have hpos : 0 < 2 ^ j := Nat.two_pow_pos j
  have hsub : sub64 w 1 = 2 ^ (j + 1) * (w / 2 ^ (j + 1)) + (2 ^ j - 1) := by
    rw [sub64_of_le hw (by omega)]
    omega
  have hlt : 2 ^ j < 2 ^ (j + 1) := Nat.pow_lt_pow_right (by decide) (Nat.lt_succ_self j)
  ext i
  rw [Finset.mem_erase, mem_bitSet, mem_bitSet, Nat.testBit_and, hsub,
    Nat.testBit_two_pow_mul_add _ (by omega), Nat.testBit_two_pow_sub_one]
  by_cases hi : i < j + 1
  · -- below the least bit nothing is set, and the least bit is cleared
    rw [if_pos hi]
    by_cases heq : i = j
    · subst heq
      simp
    · have hbelow : i < j := by omega
      have hclear : w.testBit i = false := by
        by_contra hset
        have hmem : i ∈ bitSet w := (mem_bitSet_of_lt hw).mpr (by simpa using hset)
        exact absurd (hj.2 hmem) (not_le.mpr hbelow)
      simp [hclear]
  · rw [if_neg hi]
    have hsame : w.testBit i = (w / 2 ^ (j + 1)).testBit (i - (j + 1)) := by
      rw [Nat.testBit_div_two_pow, show i - (j + 1) + (j + 1) = i by omega]
    rw [hsame, Bool.and_self]
    simp [show i ≠ j by omega]

/-- **After clearing the least bit `n` times, the least bit is the one with `n` bits below it.** -/
theorem countrZero_clearLowest (hw : w < 2 ^ 64) (hn : n < popcount w) :
    countrZero (clearLowest n w) ∈ bitSet w ∧
      ((bitSet w).filter (· < countrZero (clearLowest n w))).card = n := by
  induction n generalizing w with
  | zero =>
    have hne : w ≠ 0 := (bitSet_nonempty hw).mp (Finset.card_pos.mp hn)
    have hleast := countrZero_isLeast hne hw
    refine ⟨hleast.1, ?_⟩
    rw [Finset.card_eq_zero, Finset.filter_eq_empty_iff]
    intro i hi
    exact not_lt.mpr (hleast.2 hi)
  | succ n ih =>
    have hne : w ≠ 0 := (bitSet_nonempty hw).mp (Finset.card_pos.mp (by rw [← popcount_eq]; omega))
    have hleast := countrZero_isLeast hne hw
    have hbits := bitSet_clear hw hleast
    have hcard := Finset.card_erase_of_mem (Finset.mem_coe.mp hleast.1)
    have hlt : w &&& sub64 w 1 < 2 ^ 64 := lt_of_le_of_lt Nat.and_le_left hw
    have hmore : n < popcount (w &&& sub64 w 1) := by
      rw [popcount_eq, hbits, hcard, ← popcount_eq]
      omega
    obtain ⟨hmem, hbelow⟩ := ih hlt hmore
    rw [hbits] at hmem hbelow
    show countrZero (clearLowest n (w &&& sub64 w 1)) ∈ bitSet w ∧ _
    generalize hk : countrZero (clearLowest n (w &&& sub64 w 1)) = k at hmem hbelow
    obtain ⟨hkne, hkmem⟩ := Finset.mem_erase.mp hmem
    refine ⟨hkmem, ?_⟩
    have hgt : countrZero w < k := lt_of_le_of_ne (hleast.2 hkmem) (Ne.symm hkne)
    have hfilter : (bitSet w).filter (· < k) =
        insert (countrZero w) (((bitSet w).erase (countrZero w)).filter (· < k)) := by
      ext i
      rw [Finset.mem_insert, Finset.mem_filter, Finset.mem_filter, Finset.mem_erase]
      by_cases heq : i = countrZero w
      · rw [heq]
        exact iff_of_true ⟨hleast.1, hgt⟩ (Or.inl rfl)
      · tauto
    show ((bitSet w).filter (· < countrZero (clearLowest n (w &&& sub64 w 1)))).card = n + 1
    rw [hk, hfilter, Finset.card_insert_of_notMem, hbelow]
    rw [Finset.mem_filter, Finset.mem_erase]
    exact fun hself => hself.1.1 rfl

end Cuw3
