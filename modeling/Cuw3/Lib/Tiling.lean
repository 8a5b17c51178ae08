/-
  Tilings of an interval of naturals by consecutive half-open ranges.

  `Tiles a b rs`: the ranges `rs`, in order and without gaps, make up `[a, b)`; ranges may be empty.
  Every point of `[a, b)` lies in exactly one range (`Tiles.exists_mem`, `Tiles.unique`), and a
  left-to-right search for the first range that ends after the point finds it
  (`Tiles.le_of_lt_index`).
-/
import Mathlib.Data.List.Basic
import Mathlib.Tactic.Ring

namespace Cuw3.Lib

/-- `rs` is a sequence of consecutive ranges `[lo, hi)` from `a` to `b`. -/
def Tiles : Nat → Nat → List (Nat × Nat) → Prop
  | a, b, [] => a = b
  | a, b, r :: rs => r.1 = a ∧ r.1 ≤ r.2 ∧ Tiles r.2 b rs

namespace Tiles

theorem le : ∀ {a b : Nat} {rs : List (Nat × Nat)}, Tiles a b rs → a ≤ b
  | _, _, [], h => Nat.le_of_eq h
  | a, b, r :: rs, ⟨h1, h2, h⟩ => by
    have := le h
    omega

/-- Every range of a tiling lies within its interval. -/
theorem bounds : ∀ {a b : Nat} {rs : List (Nat × Nat)} {i : Nat} {r : Nat × Nat}, Tiles a b rs →
    rs[i]? = some r → a ≤ r.1 ∧ r.1 ≤ r.2 ∧ r.2 ≤ b
  | _, _, [], _, _, _, hi => by simp at hi
  | _, _, s :: rs, 0, r, ⟨h1, h2, h⟩, hi => by
    obtain rfl : s = r := by simpa using hi
    have := le h
    omega
  | _, _, s :: rs, i + 1, r, ⟨h1, h2, h⟩, hi => by
    have := bounds h (i := i) (r := r) (by simpa using hi)
    omega

/-- An earlier range ends before a later one starts. -/
theorem le_of_lt_index : ∀ {a b : Nat} {rs : List (Nat × Nat)} {i j : Nat} {r s : Nat × Nat},
    Tiles a b rs → rs[i]? = some r → rs[j]? = some s → i < j → r.2 ≤ s.1
  | _, _, [], _, _, _, _, _, hi, _, _ => by simp at hi
  | _, _, t :: rs, 0, j + 1, r, s, ⟨_, _, h⟩, hi, hj, _ => by
    obtain rfl : t = r := by simpa using hi
    exact (bounds h (i := j) (r := s) (by simpa using hj)).1
  | _, _, t :: rs, i + 1, j + 1, r, s, ⟨_, _, h⟩, hi, hj, hij =>
    le_of_lt_index h (i := i) (j := j) (by simpa using hi) (by simpa using hj) (by omega)

theorem exists_mem : ∀ {a b : Nat} {rs : List (Nat × Nat)} {x : Nat}, Tiles a b rs → a ≤ x → x < b →
    ∃ (i : Nat) (r : Nat × Nat), rs[i]? = some r ∧ r.1 ≤ x ∧ x < r.2
  | _, _, [], x, h, h1, h2 => by
    have : _ = _ := h
    omega
  | a, b, r :: rs, x, ⟨h1, h2, h⟩, hax, hxb => by
    by_cases hx : x < r.2
    · exact ⟨0, r, by simp, by omega, hx⟩
    · obtain ⟨i, s, hi, hs⟩ := exists_mem h (by omega) hxb
      exact ⟨i + 1, s, by simpa using hi, hs⟩

/-- The ranges of a tiling are in order. -/
theorem pairwise : ∀ {a b : Nat} {rs : List (Nat × Nat)}, Tiles a b rs →
    rs.Pairwise fun r s => r.2 ≤ s.1
  | _, _, [], _ => List.Pairwise.nil
  | _, _, r :: rs, ⟨_, _, h⟩ => by
    apply List.Pairwise.cons _ (pairwise h)
    intro s hs
    obtain ⟨i, hi⟩ := List.mem_iff_getElem?.mp hs
    exact (bounds h hi).1

/-- One more range at the end. -/
theorem concat : ∀ {a b c : Nat} {rs : List (Nat × Nat)}, Tiles a b rs → b ≤ c →
    Tiles a c (rs ++ [(b, c)])
  | _, _, _, [], h, hbc => ⟨h.symm, hbc, rfl⟩
  | _, _, _, _ :: _, ⟨h1, h2, h⟩, hbc => ⟨h1, h2, concat h hbc⟩

/-- Ranges whose widths are multiples of `d` start at multiples of `d`, if the first one does. -/
theorem dvd_start {d : Nat} : ∀ {a b : Nat} {rs : List (Nat × Nat)}, Tiles a b rs → d ∣ a →
    (∀ r ∈ rs, ∃ w, d ∣ w ∧ r.2 = r.1 + w) → ∀ r ∈ rs, d ∣ r.1
  | _, _, [], _, _, _ => by simp
  | a, b, r :: rs, ⟨h1, _, h⟩, ha, hw => by
    obtain ⟨w, hdvd, hr⟩ := hw r List.mem_cons_self
    have hstart : d ∣ r.1 := h1 ▸ ha
    have hrest := dvd_start h (hr ▸ Nat.dvd_add hstart hdvd) fun s hs =>
      hw s (List.mem_cons_of_mem r hs)
    rw [List.forall_mem_cons]
    exact ⟨hstart, hrest⟩

/-- The ranges of a tiling are disjoint. -/
theorem unique {a b : Nat} {rs : List (Nat × Nat)} {i j x : Nat} {r s : Nat × Nat}
    (h : Tiles a b rs) (hi : rs[i]? = some r) (hj : rs[j]? = some s) (hri : r.1 ≤ x) (hrx : x < r.2)
    (hsj : s.1 ≤ x) (hsx : x < s.2) : i = j := by
  rcases Nat.lt_trichotomy i j with hij | hij | hij
  · have := h.le_of_lt_index hi hj hij
    omega
  · exact hij
  · have := h.le_of_lt_index hj hi hij
    omega

/-- When every range has the same width, range `i` starts at `i` widths. -/
theorem start_of_width : ∀ {a b w : Nat} {rs : List (Nat × Nat)} {i : Nat} {r : Nat × Nat},
    Tiles a b rs → (∀ s ∈ rs, s.2 = s.1 + w) → rs[i]? = some r → r.1 = a + i * w
  | _, _, _, [], _, _, _, _, hi => by simp at hi
  | _, _, _, s :: rs, 0, r, ⟨h1, _, _⟩, _, hi => by
    obtain rfl : s = r := by simpa using hi
    omega
  | a, b, w, s :: rs, i + 1, r, ⟨h1, _, h⟩, hw, hi => by
    have hrec := start_of_width h (fun t ht => hw t (List.mem_cons_of_mem s ht)) (i := i) (r := r)
      (by simpa using hi)
    have hs := hw s List.mem_cons_self
    rw [hrec, hs, h1]
    ring

/-- Consecutive values of a monotone bound tile the interval between its ends. -/
theorem of_bound {f : Nat → Nat} : ∀ (n k : Nat), (∀ i < n, f (k + i) ≤ f (k + i + 1)) →
    Tiles (f k) (f (k + n)) ((List.range' k n).map fun i => (f i, f (i + 1)))
  | 0, _, _ => rfl
  | n + 1, k, h => by
    refine ⟨rfl, by simpa using h 0 (by omega), ?_⟩
    have := of_bound (f := f) n (k + 1) (fun i hi => by
      have := h (i + 1) (by omega)
      rwa [show k + 1 + i = k + (i + 1) by omega])
    rwa [show k + 1 + n = k + (n + 1) by omega] at this

end Tiles

end Cuw3.Lib
