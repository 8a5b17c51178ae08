/-
  Scales of `2 ^ k` marks a step, with doubling steps.

  The marks of step `0` are the multiples of a unit below `2 ^ k` of them; every later step starts
  where the one before it ends, and its marks are twice as far apart.  So the marks ascend
  (`scale_strictMono`), and mark `c` of a step, up to `c = 2 ^ k`, is `c` widths above the step's
  start, also where it is the first mark of the next step (`scale_mul_add`).  The last mark that is
  at most a number and the first one that is at least the number are found by one division in the
  number's step (`scale_floor`, `scale_ceil`).
-/
import Mathlib.Order.Bounds.Basic
import Mathlib.Order.Monotone.Basic
import Mathlib.Tactic.Ring

namespace Cuw3.Lib

variable {k i j c n u r s : Nat}

/-- Where step `j` starts. -/
def stepStart (k j : Nat) : Nat := if j = 0 then 0 else 2 ^ k * 2 ^ (j - 1)

/-- Mark `i`. -/
def scale (k i : Nat) : Nat := stepStart k (i / 2 ^ k) + i % 2 ^ k * 2 ^ (i / 2 ^ k - 1)

@[simp] theorem stepStart_zero : stepStart k 0 = 0 := rfl

@[simp] theorem stepStart_add_one : stepStart k (j + 1) = 2 ^ k * 2 ^ j := rfl

/-- Each step ends where the next one starts. -/
theorem stepStart_end (k j : Nat) : stepStart k j + 2 ^ k * 2 ^ (j - 1) = stepStart k (j + 1) := by
  cases j with
  | zero => simp
  | succ j =>
    rw [stepStart_add_one, stepStart_add_one, Nat.add_sub_cancel, pow_succ]
    ring

theorem scale_mul_add (hc : c ≤ 2 ^ k) :
    scale k (j * 2 ^ k + c) = stepStart k j + c * 2 ^ (j - 1) := by
  have hpos : 0 < 2 ^ k := Nat.two_pow_pos k
  rcases Nat.lt_or_eq_of_le hc with hlt | rfl
  · have hdiv : (j * 2 ^ k + c) / 2 ^ k = j := by
      rw [Nat.add_comm, Nat.add_mul_div_right _ _ hpos, Nat.div_eq_of_lt hlt, Nat.zero_add]
    have hmod : (j * 2 ^ k + c) % 2 ^ k = c := by
      rw [Nat.add_comm, Nat.add_mul_mod_self_right, Nat.mod_eq_of_lt hlt]
    rw [scale, hdiv, hmod]
  · -- the first mark of the next step
    have hnext : j * 2 ^ k + 2 ^ k = (j + 1) * 2 ^ k := by ring
    rw [hnext, scale, Nat.mul_div_cancel _ hpos, Nat.mul_mod_left, Nat.zero_mul, Nat.add_zero,
      stepStart_end]

theorem scale_succ (k i : Nat) : scale k (i + 1) = scale k i + 2 ^ (i / 2 ^ k - 1) := by
  have hlt : i % 2 ^ k < 2 ^ k := Nat.mod_lt _ (Nat.two_pow_pos k)
  have hi : i + 1 = i / 2 ^ k * 2 ^ k + (i % 2 ^ k + 1) := by
    have hdiv := Nat.div_add_mod' i (2 ^ k)
    omega
  rw [hi, scale_mul_add (show i % 2 ^ k + 1 ≤ 2 ^ k from hlt), scale]
  ring

theorem scale_strictMono (k : Nat) : StrictMono (scale k) := by
  refine strictMono_nat_of_lt_succ fun i => ?_
  rw [scale_succ]
  exact Nat.lt_add_of_pos_right (Nat.two_pow_pos _)

/-- The marks in units of `u`. -/
theorem scale_mul_strictMono (k : Nat) (hu : 0 < u) : StrictMono fun i => scale k i * u :=
  fun _ _ h => Nat.mul_lt_mul_of_pos_right (scale_strictMono k h) hu

/-- **The last mark that is at most `r`**, in the step of `r`. -/
theorem scale_floor (hu : 0 < u) (hlo : stepStart k j * u ≤ r) (hhi : r < stepStart k (j + 1) * u) :
    (r - stepStart k j * u) / (2 ^ (j - 1) * u) < 2 ^ k ∧
      scale k (j * 2 ^ k + (r - stepStart k j * u) / (2 ^ (j - 1) * u)) * u ≤ r ∧
      r < scale k (j * 2 ^ k + (r - stepStart k j * u) / (2 ^ (j - 1) * u) + 1) * u := by
  have hw : 0 < 2 ^ (j - 1) * u := Nat.mul_pos (Nat.two_pow_pos _) hu
  have hend : stepStart k (j + 1) * u = stepStart k j * u + 2 ^ k * (2 ^ (j - 1) * u) := by
    rw [← stepStart_end]
    ring
  obtain ⟨c, hc⟩ : ∃ c, c = (r - stepStart k j * u) / (2 ^ (j - 1) * u) := ⟨_, rfl⟩
  rw [← hc]
  have hclt : c < 2 ^ k := by
    rw [hc, Nat.div_lt_iff_lt_mul hw]
    omega
  have hle : c * (2 ^ (j - 1) * u) ≤ r - stepStart k j * u := hc ▸ Nat.div_mul_le_self _ _
  have hlt : r - stepStart k j * u < (c + 1) * (2 ^ (j - 1) * u) := by
    rw [hc, ← Nat.div_lt_iff_lt_mul hw]
    exact Nat.lt_succ_self _
  refine ⟨hclt, ?_, ?_⟩
  · rw [scale_mul_add hclt.le, Nat.add_mul, Nat.mul_assoc]
    omega
  · rw [Nat.add_assoc, scale_mul_add (show c + 1 ≤ 2 ^ k from hclt), Nat.add_mul, Nat.mul_assoc]
    omega

/-- **The first mark that is at least `s`**, in the step of `s` or at its end. -/
theorem scale_ceil (hu : 0 < u) (hlo : stepStart k j * u ≤ s) (hhi : s ≤ stepStart k (j + 1) * u) :
    (s + (2 ^ (j - 1) * u - 1) - stepStart k j * u) / (2 ^ (j - 1) * u) ≤ 2 ^ k ∧
      s ≤ scale k (j * 2 ^ k + (s + (2 ^ (j - 1) * u - 1) - stepStart k j * u) /
        (2 ^ (j - 1) * u)) * u ∧
      ∀ i < j * 2 ^ k + (s + (2 ^ (j - 1) * u - 1) - stepStart k j * u) / (2 ^ (j - 1) * u),
        scale k i * u < s := by
  have hw : 0 < 2 ^ (j - 1) * u := Nat.mul_pos (Nat.two_pow_pos _) hu
  have hend : stepStart k (j + 1) * u = stepStart k j * u + 2 ^ k * (2 ^ (j - 1) * u) := by
    rw [← stepStart_end]
    ring
  obtain ⟨w, hwidth⟩ : ∃ w, w = 2 ^ (j - 1) * u := ⟨_, rfl⟩
  obtain ⟨c, hc⟩ : ∃ c, c = (s + (w - 1) - stepStart k j * u) / w := ⟨_, rfl⟩
  rw [← hwidth] at hw hend ⊢
  rw [← hc]
  have hle : c * w ≤ s + (w - 1) - stepStart k j * u := hc ▸ Nat.div_mul_le_self _ _
  have hlt : s + (w - 1) - stepStart k j * u < (c + 1) * w := by
    rw [hc, ← Nat.div_lt_iff_lt_mul hw]
    exact Nat.lt_succ_self _
  have hcle : c ≤ 2 ^ k := by
    refine Nat.le_of_lt_succ ?_
    rw [hc, Nat.div_lt_iff_lt_mul hw, Nat.succ_mul]
    omega
  rw [Nat.add_one_mul] at hlt
  refine ⟨hcle, ?_, fun i hi => ?_⟩
  · rw [scale_mul_add hcle, Nat.add_mul, Nat.mul_assoc, ← hwidth]
    omega
  · cases c with
    | zero =>
      -- no width is needed: the number is the start of its step
      have hstart : scale k (j * 2 ^ k + 0) = stepStart k j := by
        rw [scale_mul_add (Nat.zero_le _), Nat.zero_mul, Nat.add_zero]
      refine lt_of_lt_of_le (scale_mul_strictMono k hu hi) ?_
      dsimp only
      rw [hstart]
      exact hlo
    | succ c =>
      have hmark : scale k i * u ≤ scale k (j * 2 ^ k + c) * u :=
        (scale_mul_strictMono k hu).monotone (show i ≤ j * 2 ^ k + c by omega)
      refine lt_of_le_of_lt hmark ?_
      rw [Nat.succ_mul] at hle
      rw [scale_mul_add (by omega), Nat.add_mul, Nat.mul_assoc, ← hwidth]
      omega

/-! ### First and last marks -/

variable {f : Nat → Nat}

/-- The last of the first `n` marks that is at most `r`. -/
theorem isGreatest_of_lt_next (hf : StrictMono f) (hi : i < n) (hle : f i ≤ r)
    (hnext : i + 1 < n → r < f (i + 1)) : IsGreatest {j | j < n ∧ f j ≤ r} i := by
  refine ⟨⟨hi, hle⟩, ?_⟩
  rintro j ⟨hj, hfj⟩
  by_contra hlt
  have hmark : f (i + 1) ≤ f j := hf.monotone (by omega)
  have hr := hnext (by omega)
  omega

/-- The first of the first `n` marks that is at least `s`. -/
theorem isLeast_of_forall_lt (hi : i < n) (hle : s ≤ f i) (hbefore : ∀ j < i, f j < s) :
    IsLeast {j | j < n ∧ s ≤ f j} i := by
  refine ⟨⟨hi, hle⟩, ?_⟩
  rintro j ⟨-, hfj⟩
  by_contra hlt
  have hs := hbefore j (by omega)
  omega

end Cuw3.Lib
