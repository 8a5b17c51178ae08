/-
  Loops with fuel.

  A loop that may not end is a function of its fuel: `none` while there is not enough.  `Returns f
  a`: with enough fuel `f` returns `a`.  A loop returns what its next turn returns (`Returns.turn`),
  a sequence of two loops what the second returns for the result of the first (`Returns.andThen`).
-/
import Mathlib.Data.Option.Basic

namespace Cuw3.Lib

variable {α β : Type}

/-- With enough fuel, `f` returns `a`. -/
def Returns (f : Nat → Option α) (a : α) : Prop := ∃ n, ∀ fuel, n ≤ fuel → f fuel = some a

namespace Returns

variable {f f' : Nat → Option α} {g r : Nat → Option β} {a a' : α} {b : β}

theorem unique (h : Returns f a) (h' : Returns f a') : a = a' := by
  obtain ⟨n, hn⟩ := h
  obtain ⟨m, hm⟩ := h'
  have hfirst := hn (max n m) (Nat.le_max_left n m)
  have hsecond := hm (max n m) (Nat.le_max_right n m)
  rw [hfirst] at hsecond
  exact Option.some.inj hsecond

theorem of_eq (h : ∀ fuel, f fuel = some a) : Returns f a := ⟨0, fun fuel _ => h fuel⟩

/-- The last turn of a loop. -/
theorem stop (h : ∀ fuel, f (fuel + 1) = some a) : Returns f a := by
  refine ⟨1, fun fuel hfuel => ?_⟩
  obtain ⟨k, rfl⟩ := Nat.exists_eq_add_of_le' hfuel
  exact h k

/-- One more turn of a loop. -/
theorem turn (h : Returns f' a) (heq : ∀ fuel, f (fuel + 1) = f' fuel) : Returns f a := by
  obtain ⟨n, hn⟩ := h
  refine ⟨n + 1, fun fuel hfuel => ?_⟩
  obtain ⟨k, rfl⟩ := Nat.exists_eq_add_of_le' (show 1 ≤ fuel by omega)
  rw [heq]
  exact hn k (by omega)

/-- A loop and what comes after it, which may have a loop too. -/
theorem andThen (h : Returns f a) (hg : Returns g b)
    (heq : ∀ fuel, f fuel = some a → r fuel = g fuel) :
    Returns r b := by
  obtain ⟨n, hn⟩ := h
  obtain ⟨m, hm⟩ := hg
  refine ⟨max n m, fun fuel hfuel => ?_⟩
  rw [heq fuel (hn fuel (Nat.le_trans (Nat.le_max_left n m) hfuel))]
  exact hm fuel (Nat.le_trans (Nat.le_max_right n m) hfuel)

end Returns

end Cuw3.Lib
