/-
  The bitmap is a set of bits.

  `testBit` says whether a bit is in the set; `set` and `unset` change one bit (`testBit_set`,
  `testBit_unset`), `getFirstSet` finds the least bit from a start on (`getFirstSet_spec`).
-/
import Cuw3.StepSplit.Bitmap
import Cuw3.Base.Equiv.Funcs

namespace Cuw3

/-! ### Words -/

theorem not64_eq {v : Nat} (h : v < 2 ^ 64) : not64 v = 2 ^ 64 - (v + 1) := by
  unfold not64
  omega

theorem testBit_not64 {v i : Nat} (h : v < 2 ^ 64) :
    (not64 v).testBit i = (decide (i < 64) && !v.testBit i) := by
  rw [not64_eq h, Nat.testBit_two_pow_sub_succ h]

theorem testBit_u64 (v i : Nat) : (u64 v).testBit i = (decide (i < 64) && v.testBit i) :=
  Nat.testBit_mod_two_pow v 64 i

theorem u64_one_shiftLeft {k : Nat} (h : k < 64) : u64 (1 <<< k) = 2 ^ k := by
  rw [Nat.one_shiftLeft, u64_of_lt (Nat.pow_lt_pow_right (by decide) h)]

theorem alignDown_eq {v k : Nat} (hk : k < 64) (hv : v < 2 ^ 64) :
    alignDown v (2 ^ k) = .ok (v / 2 ^ k * 2 ^ k) := by
  simp only [alignDown, assert_of (isAlignment_two_pow hk), ok_bind, and_not64_two_pow hk hv]
  rfl

theorem bitmask_eq {first last : Nat} (h : first < last) (hlast : last ≤ 64) :
    ∃ mask, bitmask first last = .ok mask ∧
      ∀ i, mask.testBit i = decide (first ≤ i ∧ i < last) := by
  refine ⟨_, by simp only [bitmask, assert_of h, assert_of hlast, ok_bind]; rfl, fun i => ?_⟩
  have hall : ∀ j, (not64 0).testBit j = decide (j < 64) := fun j => by
    rw [testBit_not64 (by decide), Nat.zero_testBit, Bool.not_false, Bool.and_true]
  simp only [Nat.testBit_shiftRight, testBit_u64, Nat.testBit_shiftLeft, hall]
  by_cases hi : first ≤ i ∧ i < last
  · simp only [hi, and_self, decide_true, Bool.and_eq_true, decide_eq_true_eq]
    omega
  · simp only [hi, decide_false, Bool.and_eq_false_iff, decide_eq_false_iff_not]
    omega

/-- The lowest set bit of a word. -/
theorem countrZero_spec {w : Nat} (h : w ≠ 0) (hw : w < 2 ^ 64) :
    w.testBit (countrZero w) = true ∧ ∀ i < countrZero w, w.testBit i = false := by
  obtain ⟨i, hi⟩ := Nat.exists_testBit_of_ne_zero h
  have hi64 : i < 64 := by
    by_contra hge
    rw [Nat.testBit_lt_two_pow (lt_of_lt_of_le hw (Nat.pow_le_pow_right (by decide)
      (not_lt.mp hge)))] at hi
    exact absurd hi (by decide)
  cases hfind : findFirst 64 fun i => w.testBit i with
  | none => exact absurd (findFirst_eq_none.mp hfind i hi64) (by simp [hi])
  | some j =>
    obtain ⟨-, hj, hbelow⟩ := findFirst_eq_some.mp hfind
    rw [countrZero, hfind, Option.getD_some]
    exact ⟨hj, hbelow⟩

/-! ### The set of bits -/

namespace Bitmap

/-- The bit is in the set. -/
def testBit (bitmap : Bitmap) (bit : Nat) : Bool := (bitmap.bins (bit / 64)).testBit (bit % 64)

/-- All words are 64-bit words. -/
def WordSized (bitmap : Bitmap) : Prop := ∀ k, bitmap.bins k < 2 ^ 64

variable {bitCapacity bit : Nat} {bitmap : Bitmap}

theorem set_eq (h : bit < bitCapacity) (hw : bitmap.WordSized) :
    ∃ bitmap', set bitCapacity bitmap bit = .ok bitmap' ∧ bitmap'.WordSized ∧
      ∀ i, bitmap'.testBit i = (decide (i = bit) || bitmap.testBit i) := by
  have hmod : bit % 64 < 64 := Nat.mod_lt _ (by decide)
  refine ⟨_, by simp only [set, assert_of h, ok_bind]; rfl, fun k => ?_, fun i => ?_⟩
  · by_cases hk : k = bit / 64
    · subst hk
      simp only [binSize, Function.update_self, u64_one_shiftLeft hmod]
      exact Nat.or_lt_two_pow (hw _) (Nat.pow_lt_pow_right (by decide) hmod)
    · simp only [binSize, Function.update_of_ne hk]
      exact hw k
  · simp only [testBit, binSize]
    by_cases hk : i / 64 = bit / 64
    · rw [hk, Function.update_self, u64_one_shiftLeft hmod, Nat.testBit_or, Nat.testBit_two_pow,
        Bool.or_comm]
      congr 2
      rw [eq_iff_iff]
      omega
    · rw [Function.update_of_ne hk]
      have hne : i ≠ bit := fun heq => hk (by rw [heq])
      simp [hne]

theorem unset_eq (h : bit < bitCapacity) (hw : bitmap.WordSized) :
    ∃ bitmap', unset bitCapacity bitmap bit = .ok bitmap' ∧ bitmap'.WordSized ∧
      ∀ i, bitmap'.testBit i = (!decide (i = bit) && bitmap.testBit i) := by
  have hmod : bit % 64 < 64 := Nat.mod_lt _ (by decide)
  have hpow : 2 ^ (bit % 64) < 2 ^ 64 := Nat.pow_lt_pow_right (by decide) hmod
  refine ⟨_, by simp only [unset, assert_of h, ok_bind]; rfl, fun k => ?_, fun i => ?_⟩
  · by_cases hk : k = bit / 64
    · subst hk
      simp only [binSize, Function.update_self]
      exact lt_of_le_of_lt Nat.and_le_left (hw _)
    · simp only [binSize, Function.update_of_ne hk]
      exact hw k
  · simp only [testBit, binSize]
    by_cases hk : i / 64 = bit / 64
    · have hi64 : i % 64 < 64 := Nat.mod_lt _ (by decide)
      rw [hk, Function.update_self, u64_one_shiftLeft hmod, Nat.testBit_and, testBit_not64 hpow,
        Nat.testBit_two_pow, Bool.and_comm, decide_eq_true hi64, Bool.true_and]
      congr 3
      rw [eq_iff_iff]
      omega
    · rw [Function.update_of_ne hk]
      have hne : i ≠ bit := fun heq => hk (by rw [heq])
      simp [hne]

/-- The least bit of the set from a start on, and the capacity when there is none. -/
structure FirstSet (bitCapacity : Nat) (bitmap : Bitmap) (start r : Nat) : Prop where
  le : r ≤ bitCapacity
  none_below : ∀ i, start ≤ i → i < r → bitmap.testBit i = false
  found : r < bitCapacity → start ≤ r ∧ bitmap.testBit r = true

theorem getFirstSetFrom_spec (hcap : bitCapacity + 64 < 2 ^ 64) (hw : bitmap.WordSized) :
    ∀ turns curr, bitCapacity ≤ curr + turns → curr ≤ bitCapacity →
      ∃ r, getFirstSetFrom bitCapacity bitmap turns curr = .ok r ∧
        FirstSet bitCapacity bitmap curr r
  | 0, curr, hturns, _ => ⟨bitCapacity, rfl, Nat.le_refl _, fun i hi hlt => by omega, by simp⟩
  | turns + 1, curr, hturns, hcurr => by
    by_cases hlt : curr < bitCapacity
    swap
    · refine ⟨bitCapacity, by simp only [getFirstSetFrom, hlt, if_false]; rfl, Nat.le_refl _,
        fun i hi hi' => by omega, by simp⟩
    have hnext : alignDown (curr + 64) 64 = .ok ((curr + 64) / 64 * 64) :=
      alignDown_eq (k := 6) (by decide) (by omega)
    have hdown : alignDown curr 64 = .ok (curr / 64 * 64) :=
      alignDown_eq (k := 6) (by decide) (by omega)
    obtain ⟨next, hnextDef⟩ : ∃ next, next = min ((curr + 64) / 64 * 64) bitCapacity := ⟨_, rfl⟩
    obtain ⟨mask, hmask, hbits⟩ := bitmask_eq
      (show curr % 64 < curr % 64 + next - curr by omega) (by omega)
    -- the bits of the masked word are the bits of the set in `[curr, next)`
    have hmasked : ∀ i, (bitmap.bins (curr / 64) &&& mask).testBit i =
        (decide (curr ≤ curr / 64 * 64 + i ∧ curr / 64 * 64 + i < next) &&
          bitmap.testBit (curr / 64 * 64 + i)) := by
      intro i
      rw [Nat.testBit_and, hbits, Bool.and_comm]
      by_cases hi : curr % 64 ≤ i ∧ i < curr % 64 + next - curr
      · have hin : curr ≤ curr / 64 * 64 + i ∧ curr / 64 * 64 + i < next := by omega
        rw [decide_eq_true hi, decide_eq_true hin, testBit,
          show (curr / 64 * 64 + i) / 64 = curr / 64 by omega,
          show (curr / 64 * 64 + i) % 64 = i by omega]
      · have hout : ¬(curr ≤ curr / 64 * 64 + i ∧ curr / 64 * 64 + i < next) := by omega
        rw [decide_eq_false hi, decide_eq_false hout, Bool.false_and, Bool.false_and]
    simp only [getFirstSetFrom, hlt, if_true, binSize, hnext, hdown, ok_bind, ← hnextDef, hmask]
    by_cases hzero : bitmap.bins (curr / 64) &&& mask = 0
    · have hempty : ∀ i, curr ≤ i → i < next → bitmap.testBit i = false := by
        intro i hi hi'
        have hbit := hmasked (i - curr / 64 * 64)
        rw [hzero, Nat.zero_testBit, show curr / 64 * 64 + (i - curr / 64 * 64) = i by omega,
          decide_eq_true ⟨hi, hi'⟩, Bool.true_and] at hbit
        exact hbit.symm
      obtain ⟨r, hr, hfirst⟩ := getFirstSetFrom_spec hcap hw turns next (by omega) (by omega)
      refine ⟨r, by simpa only [hzero, ne_eq, not_true_eq_false, if_false] using hr, hfirst.le,
        fun i hi hi' => ?_, fun hr => ?_⟩
      · by_cases hin : i < next
        · exact hempty i hi hin
        · exact hfirst.none_below i (by omega) hi'
      · exact ⟨by have := (hfirst.found hr).1; omega, (hfirst.found hr).2⟩
    · obtain ⟨hset, hlow⟩ := countrZero_spec hzero (lt_of_le_of_lt Nat.and_le_left (hw _))
      rw [hmasked, Bool.and_eq_true, decide_eq_true_eq] at hset
      obtain ⟨⟨hge, hltNext⟩, hbit⟩ := hset
      refine ⟨_, by simp only [hzero, ne_eq, not_false_eq_true, if_true]; rfl, by omega,
        fun i hi hi' => ?_, fun _ => ⟨hge, hbit⟩⟩
      have hbelow := hlow (i - curr / 64 * 64) (by omega)
      rw [hmasked, show curr / 64 * 64 + (i - curr / 64 * 64) = i by omega,
        decide_eq_true (show curr ≤ i ∧ i < next by omega), Bool.true_and] at hbelow
      exact hbelow

/-- **`get_first_set` returns the least set bit from the start on, or the capacity.** -/
theorem getFirstSet_spec {start : Nat} (hcap : bitCapacity + 64 < 2 ^ 64) (hw : bitmap.WordSized)
    (hstart : start < bitCapacity) :
    ∃ r, getFirstSet bitCapacity bitmap start = .ok r ∧ FirstSet bitCapacity bitmap start r := by
  obtain ⟨r, hr, hfirst⟩ := getFirstSetFrom_spec hcap hw bitCapacity start (by omega) (by omega)
  refine ⟨r, ?_, hfirst⟩
  simp only [getFirstSet, assert_of hstart, ok_bind, hr]

end Bitmap

end Cuw3
