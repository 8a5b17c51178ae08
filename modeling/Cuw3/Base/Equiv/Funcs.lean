/-
  What the checks and the integer helpers compute.

  The checks: a run of `Checked` code that returns has passed every check (`check_eq_ok`,
  `bind_eq_ok`).  The helpers: for a power of two `a` and a value that does not wrap, `align v a`
  is the least multiple of `a` that is at least `v` (`align_of_le`, `le_alignUp`, `alignUp_lt`);
  the shifts are multiplication and division by powers of two.
-/
import Cuw3.Base.Funcs
import Mathlib.Tactic.Ring
import Mathlib.Data.Nat.Log

namespace Cuw3

/-! ### Checked code -/

section Checks

variable {α β : Type} {cond : Prop} [Decidable cond] {fmt : String}

@[simp] theorem check_eq_ok {u : Unit} : check cond fmt = .ok u ↔ cond := by
  unfold check
  split_ifs with h <;> simp [h]

@[simp] theorem assert_eq_ok {u : Unit} : assert cond fmt = .ok u ↔ cond := by
  unfold assert
  split_ifs with h <;> simp [h]

theorem check_of (h : cond) : check cond fmt = .ok () := if_pos h

theorem assert_of (h : cond) : assert cond fmt = .ok () := if_pos h

@[simp] theorem abortCritical_ne_ok {a : α} : abortCritical fmt ≠ .ok a := by
  simp [abortCritical]

@[simp] theorem pure_eq_ok {a b : α} : (pure a : Checked α) = .ok b ↔ a = b := by
  simp [pure, Except.pure]

@[simp] theorem bind_eq_ok {x : Checked α} {f : α → Checked β} {b : β} :
    x >>= f = .ok b ↔ ∃ a, x = .ok a ∧ f a = .ok b := by
  cases x <;> simp [bind, Except.bind]

@[simp] theorem map_eq_ok {x : Checked α} {f : α → β} {b : β} :
    f <$> x = .ok b ↔ ∃ a, x = .ok a ∧ f a = b := by
  cases x <;> simp [Functor.map, Except.map]

@[simp] theorem ok_bind {a : α} {f : α → Checked β} : (Except.ok a : Checked α) >>= f = f a := rfl

@[simp] theorem creates_bind {x : Created α} {f : α → Created β} {b : β} :
    (x >>= f).Creates b ↔ ∃ a, x.Creates a ∧ (f a).Creates b := by
  change (ExceptT.run x >>= ExceptT.bindCont f) = _ ↔ ∃ a, ExceptT.run x = _ ∧ _
  cases hx : ExceptT.run x with
  | error e => simp [bind, Except.bind]
  | ok r =>
    cases r with
    | error e => simp [ExceptT.bindCont]
    | ok a => simp [ExceptT.bindCont, Created.Creates, ExceptT.run]

@[simp] theorem creates_lift {x : Checked α} {a : α} :
    Created.Creates (liftM x : Created α) a ↔ x = .ok a := by
  cases x with
  | error e =>
    change (Except.error e = Except.ok (Except.ok a)) ↔ _
    simp
  | ok b =>
    change (Except.ok (Except.ok b) = Except.ok (Except.ok a)) ↔ _
    simp

@[simp] theorem creates_pure {a b : α} : Created.Creates (pure a : Created α) b ↔ a = b := by
  simp [Created.Creates]

@[simp] theorem creates_checkReturnVal {u : Unit} :
    Created.Creates (checkReturnVal cond fmt) u ↔ cond := by
  unfold checkReturnVal
  split_ifs with h <;> simp [h, Created.Creates]

end Checks

theorem findFirst_eq_some {n i : Nat} {p : Nat → Bool} :
    findFirst n p = some i ↔ i < n ∧ p i = true ∧ ∀ j < i, p j = false := by
  simp only [findFirst, List.find?_range_eq_some, Bool.not_eq_eq_eq_not, Bool.not_true]
  exact ⟨fun h => ⟨by simpa using h.2.1, h.1, h.2.2⟩, fun h => ⟨h.2.1, by simpa using h.1, h.2.2⟩⟩

theorem findFirst_eq_none {n : Nat} {p : Nat → Bool} :
    findFirst n p = none ↔ ∀ j < n, p j = false := by
  simp [findFirst]

/-! ### Words -/

@[simp] theorem u64_of_lt {v : Nat} (h : v < 2 ^ 64) : u64 v = v := Nat.mod_eq_of_lt h

@[simp] theorem u32_of_lt {v : Nat} (h : v < 2 ^ 32) : u32 v = v := Nat.mod_eq_of_lt h

theorem u64_lt (v : Nat) : u64 v < 2 ^ 64 := Nat.mod_lt _ (by decide)

theorem u32_lt (v : Nat) : u32 v < 2 ^ 32 := Nat.mod_lt _ (by decide)

theorem u32_le (v : Nat) : u32 v ≤ v := Nat.mod_le _ _

/-- Two counters that agree modulo `2^32` and are less than `2^32` apart are equal. -/
theorem u32_eq_of_lt {a b : Nat} (h : u32 a = u32 b) (hle : b ≤ a) (hlt : a < b + 2 ^ 32) : a =
    b := by
  rw [u32, u32] at h
  omega

theorem u32_succ_u32 (a : Nat) : u32 (u32 a + 1) = u32 (a + 1) := by
  rw [u32, u32, u32]
  omega

theorem sub64_of_le {a b : Nat} (ha : a < 2 ^ 64) (hb : b ≤ a) : sub64 a b = a - b := by
  have hb' : u64 b = b := u64_of_lt (by omega)
  rw [sub64, hb', u64, show a + (2 ^ 64 - b) = (a - b) + 2 ^ 64 by omega, Nat.add_mod_right]
  exact Nat.mod_eq_of_lt (by omega)

theorem isAlignment_iff {v : Nat} : isAlignment v = true ↔ ∃ k < 64, v = 2 ^ k := by
  simp [isAlignment]

theorem isAlignment_pos {v : Nat} (h : isAlignment v = true) : 0 < v := by
  obtain ⟨k, -, rfl⟩ := isAlignment_iff.mp h
  exact Nat.two_pow_pos k

theorem isAlignment_two_pow {k : Nat} (h : k < 64) : isAlignment (2 ^ k) = true :=
  isAlignment_iff.mpr ⟨k, h, rfl⟩

/-- Clearing the low `k` bits of a 64-bit word rounds it down to a multiple of `2^k`. -/
theorem and_not64_two_pow {v k : Nat} (hk : k < 64) (hv : v < 2 ^ 64) :
    v &&& not64 (2 ^ k - 1) = v / 2 ^ k * 2 ^ k := by
  have hsplit : not64 (2 ^ k - 1) = 2 ^ k * (2 ^ (64 - k) - 1) := by
    have h : 2 ^ 64 = 2 ^ k * 2 ^ (64 - k) := by rw [← pow_add]; congr 1; omega
    have hp : 0 < 2 ^ k := Nat.two_pow_pos k
    rw [not64, Nat.mul_sub_one, ← h]
    omega
  refine Nat.eq_of_testBit_eq fun i => ?_
  rw [Nat.testBit_and, hsplit, Nat.testBit_two_pow_mul, Nat.testBit_two_pow_sub_one,
    Nat.mul_comm, Nat.testBit_two_pow_mul, Nat.testBit_div_two_pow]
  by_cases hi : k ≤ i
  · simp only [hi, decide_true, Bool.true_and, Nat.sub_add_cancel hi]
    by_cases h64 : i < 64
    · simp [show i - k < 64 - k by omega]
    · have : v.testBit i = false := Nat.testBit_lt_two_pow
        (lt_of_lt_of_le hv (Nat.pow_le_pow_right (by omega) (by omega)))
      simp [this]
  · simp [hi]

/-- The low `k` bits of a word are its remainder modulo `2^k`. -/
theorem and_two_pow_sub_one {v k : Nat} : v &&& (2 ^ k - 1) = v % 2 ^ k :=
  Nat.and_two_pow_sub_one_eq_mod v k

@[simp] theorem intlog2_eq (v : Nat) : intlog2 v = Nat.log2 v := by
  unfold intlog2
  split_ifs with h
  · rfl
  · rw [not_not.mp h, Nat.log2_zero]

@[simp] theorem pow2log2_two_pow (k : Nat) : pow2log2 (2 ^ k) = k := by
  rw [pow2log2, intlog2_eq, Nat.log2_two_pow]

@[simp] theorem intpow2_eq_ok {k r : Nat} : intpow2 k = .ok r ↔ k < 64 ∧ r = 2 ^ k := by
  simp only [intpow2, bind_eq_ok, assert_eq_ok, pure_eq_ok, exists_const, eq_comm (a := r)]

theorem intpow2_of_lt {k : Nat} (h : k < 64) : intpow2 k = .ok (2 ^ k) := by simp [h]

theorem mulpow2_of_lt {a k : Nat} (h : a * 2 ^ k < 2 ^ 64) : mulpow2 a k = a * 2 ^ k := by
  rw [mulpow2, Nat.shiftLeft_eq, u64_of_lt h]

@[simp] theorem divpow2_eq (a k : Nat) : divpow2 a k = a / 2 ^ k := Nat.shiftRight_eq_div_pow a k

theorem modpow2_eq {a k : Nat} (hk : k < 64) : modpow2 a k = a % 2 ^ k := by
  have hmask : not64 (u64 (not64 0 <<< k)) = 2 ^ k - 1 := by
    have h : 2 ^ 64 = 2 ^ k * 2 ^ (64 - k) := by rw [← pow_add]; congr 1; omega
    have hp : 0 < 2 ^ k := Nat.two_pow_pos k
    have hle : 2 ^ k ≤ 2 ^ 64 := Nat.pow_le_pow_right (by omega) (by omega)
    have hshift : not64 0 <<< k = 2 ^ 64 * (2 ^ k - 1) + (2 ^ 64 - 2 ^ k) := by
      rw [Nat.shiftLeft_eq, not64, Nat.sub_zero, Nat.sub_one_mul, Nat.mul_sub_one]
      have := Nat.le_mul_of_pos_right (2 ^ 64) hp
      omega
    rw [hshift, u64, Nat.mul_add_mod, Nat.mod_eq_of_lt (by omega), not64]
    omega
  rw [modpow2, hmask, and_two_pow_sub_one]

theorem advancePtr_eq {ptr diff : Nat} (h : ptr ≠ 0) :
    advancePtr ptr diff = .ok (u64 (ptr + diff)) := by
  rw [advancePtr, assert_of h]
  rfl

theorem advanceArrLog2_eq {ptr size index : Nat} (h : ptr ≠ 0) :
    advanceArrLog2 ptr size index = .ok (u64 (ptr + mulpow2 index size)) := by
  rw [advanceArrLog2, assert_of h]
  rfl

/-! ### Rounding to an alignment -/

/-- `value` rounded up to a multiple of `alignment`, as a mathematical integer. -/
def alignUp (value alignment : Nat) : Nat := (value + alignment - 1) / alignment * alignment

theorem alignUp_dvd (v a : Nat) : a ∣ alignUp v a := Dvd.intro_left _ rfl

theorem le_alignUp {v a : Nat} (ha : 0 < a) : v ≤ alignUp v a := by
  have h := Nat.lt_div_mul_add ha (a := v + a - 1)
  unfold alignUp
  omega

theorem alignUp_lt {v a : Nat} (ha : 0 < a) : alignUp v a < v + a := by
  have h := Nat.div_mul_le_self (v + a - 1) a
  unfold alignUp
  omega

theorem alignUp_of_dvd {v a : Nat} (ha : 0 < a) (h : a ∣ v) : alignUp v a = v := by
  obtain ⟨c, rfl⟩ := h
  rw [alignUp, Nat.add_sub_assoc ha, Nat.mul_add_div ha, Nat.div_eq_of_lt (by omega),
    Nat.add_zero, Nat.mul_comm]

theorem alignUp_eq_self_iff {v a : Nat} (ha : 0 < a) : alignUp v a = v ↔ a ∣ v :=
  ⟨fun h => h ▸ alignUp_dvd v a, alignUp_of_dvd ha⟩

/-- A multiple of `a` that is at least `v` is at least `v` rounded up. -/
theorem alignUp_le_of_dvd {v a m : Nat} (ha : 0 < a) (hm : a ∣ m) (h : v ≤ m) :
    alignUp v a ≤ m := by
  obtain ⟨c, rfl⟩ := hm
  have hdiv : (v + a - 1) / a ≤ c := by
    rw [Nat.le_iff_lt_add_one, Nat.div_lt_iff_lt_mul ha, Nat.add_one_mul, Nat.mul_comm c]
    omega
  rw [alignUp, Nat.mul_comm a]
  exact Nat.mul_le_mul_right a hdiv

theorem alignUp_pos {v a : Nat} (ha : 0 < a) (hv : 0 < v) : 0 < alignUp v a :=
  lt_of_lt_of_le hv (le_alignUp ha)

/-- What `align` computes, wrap-around included. -/
theorem align_eq {v a : Nat} (ha : isAlignment a = true) :
    align v a = .ok (u64 (v + a - 1) / a * a) := by
  obtain ⟨k, hk, rfl⟩ := isAlignment_iff.mp ha
  simp only [align, assert_of ha, ok_bind, and_not64_two_pow hk (u64_lt _)]
  rfl

/-- `align` without wrap-around. -/
theorem align_of_le {v a : Nat} (ha : isAlignment a = true) (h : v + a - 1 < 2 ^ 64) :
    align v a = .ok (alignUp v a) := by
  rw [align_eq ha, u64_of_lt h, alignUp]

@[simp] theorem isAligned_eq {v a : Nat} (ha : isAlignment a = true) :
    isAligned v a = .ok (decide (a ∣ v)) := by
  obtain ⟨k, -, rfl⟩ := isAlignment_iff.mp ha
  simp only [isAligned, assert_of ha, ok_bind, and_two_pow_sub_one, Nat.dvd_iff_mod_eq_zero]
  rfl

end Cuw3
