/-
  Walks around a ring of `n` places with a fixed stride.

  A walk that starts anywhere and makes `n` steps with a stride coprime to `n` visits every place
  (`exists_visit`).  Where `n` is a power of two, every odd stride is one (`exists_visit_two_pow`).
-/
import Mathlib.Data.ZMod.Basic
import Mathlib.Tactic.Ring

namespace Cuw3.Lib

/-- The place after `k` steps from `start`. -/
def visit (n start stride k : Nat) : Nat := (start + k * stride) % n

theorem visit_lt {n : Nat} (hn : 0 < n) (start stride k : Nat) : visit n start stride k < n :=
  Nat.mod_lt _ hn

theorem visit_zero {n start : Nat} (hstart : start < n) (stride : Nat) :
    visit n start stride 0 = start := by
  unfold visit
  rw [Nat.zero_mul, Nat.add_zero, Nat.mod_eq_of_lt hstart]

/-- The walk after its first step. -/
theorem visit_succ (n start stride k : Nat) :
    visit n start stride (k + 1) = visit n (visit n start stride 1) stride k := by
  unfold visit
  rw [Nat.mod_add_mod]
  congr 1
  ring

/-- One step after `k` steps. -/
theorem visit_visit (n start stride k : Nat) :
    visit n (visit n start stride k) stride 1 = visit n start stride (k + 1) := by
  unfold visit
  rw [Nat.mod_add_mod]
  congr 1
  ring

/-- **Every place is visited.** -/
theorem exists_visit {n stride : Nat} (hn : 0 < n) (hcoprime : Nat.Coprime stride n) (start : Nat)
    {place : Nat} (hplace : place < n) : ∃ k < n, visit n start stride k = place := by
  have : NeZero n := ⟨hn.ne'⟩
  -- the number of steps is the distance divided by the stride, in the ring of residues
  let k : ZMod n := ((place : ZMod n) - start) * (stride : ZMod n)⁻¹
  refine ⟨k.val, ZMod.val_lt k, ?_⟩
  have hcast : ((start + k.val * stride : Nat) : ZMod n) = place := by
    have hinv := ZMod.coe_mul_inv_eq_one stride hcoprime
    push_cast
    rw [ZMod.natCast_zmod_val]
    calc (start : ZMod n) + k * stride
        = start + (place - start) * ((stride : ZMod n) * (stride : ZMod n)⁻¹) := by
          show (start : ZMod n) + (place - start) * (stride : ZMod n)⁻¹ * stride = _
          ring
      _ = place := by
          rw [hinv]
          ring
  have hmod := (ZMod.natCast_eq_natCast_iff' _ _ _).mp hcast
  rw [Nat.mod_eq_of_lt hplace] at hmod
  unfold visit
  exact hmod

theorem exists_visit_two_pow {j stride : Nat} (hodd : stride % 2 = 1) (start : Nat) {place : Nat}
    (hplace : place < 2 ^ j) : ∃ k < 2 ^ j, visit (2 ^ j) start stride k = place := by
  refine exists_visit (Nat.two_pow_pos j) ?_ start hplace
  exact Nat.Coprime.pow_right j (Nat.coprime_two_right.mpr (Nat.odd_iff.mpr hodd))

end Cuw3.Lib
