/-
  Steps of several threads that cannot go on for ever.

  Every thread has a rank, and a step of one thread lowers its rank and raises no other one
  (`Lowers`).  Then threads that start with ranks up to a bound make at most that many steps for
  each of them (`Moves.length_le`), in whatever order, and however many free steps come between:
  those that raise no rank.
-/
import Mathlib.Algebra.Group.Action.Defs
import Mathlib.Algebra.GroupWithZero.Nat
import Mathlib.Algebra.Order.Group.Nat
import Mathlib.Algebra.Order.BigOperators.Group.List

namespace Cuw3.Lib

variable {S T : Type}

/-- Steps, with the thread that made each, and free steps. -/
inductive Moves (step : T → S → S → Prop) (free : S → S → Prop) (s : S) : List T → S → Prop where
  | start : Moves step free s [] s
  | step {moved : List T} {t : T} {s' s'' : S} (h : Moves step free s moved s')
      (hstep : step t s' s'') : Moves step free s (moved ++ [t]) s''
  | free {moved : List T} {s' s'' : S} (h : Moves step free s moved s') (hstep : free s' s'') :
      Moves step free s moved s''

/-- A step lowers the rank of its thread, and no step raises one. -/
structure Lowers (step : T → S → S → Prop) (free : S → S → Prop) (rank : S → T → Nat) : Prop where
  self {t : T} {s s' : S} : step t s s' → rank s' t < rank s t
  other {t u : T} {s s' : S} : step t s s' → u ≠ t → rank s' u ≤ rank s u
  free {u : T} {s s' : S} : free s s' → rank s' u ≤ rank s u

variable {step : T → S → S → Prop} {free : S → S → Prop} {rank : S → T → Nat} {s s' : S}
  {moved ts : List T} {t : T} {bound : Nat}

/-- The ranks of the threads together. -/
def totalRank (rank : S → T → Nat) (ts : List T) (s : S) : Nat := (ts.map (rank s)).sum

theorem totalRank_le (h : ∀ t ∈ ts, rank s t ≤ bound) :
    totalRank rank ts s ≤ bound * ts.length := by
  have hle := List.sum_le_card_nsmul (ts.map (rank s)) bound (by
    intro n hn
    obtain ⟨t, ht, rfl⟩ := List.mem_map.mp hn
    exact h t ht)
  rw [List.length_map, smul_eq_mul, Nat.mul_comm] at hle
  exact hle

theorem Lowers.totalRank_le_of_free (h : Lowers step free rank) (ts : List T)
    (hstep : free s s') :
    totalRank rank ts s' ≤ totalRank rank ts s :=
  List.sum_le_sum fun _ _ => h.free hstep

theorem Lowers.totalRank_lt (h : Lowers step free rank) (hstep : step t s s') (ht : t ∈ ts) :
    totalRank rank ts s' < totalRank rank ts s := by
  have hle : ∀ u ∈ ts, rank s' u ≤ rank s u := by
    intro u _
    by_cases hu : u = t
    · subst hu
      exact (h.self hstep).le
    · exact h.other hstep hu
  exact List.sum_lt_sum _ _ hle ⟨t, ht, h.self hstep⟩

/-- **Each step is paid for by a rank.** -/
theorem Moves.length_le (hmoves : Moves step free s moved s') (h : Lowers step free rank)
    (hts : ∀ t ∈ moved, t ∈ ts) (hbound : ∀ t ∈ ts, rank s t ≤ bound) :
    moved.length ≤ bound * ts.length := by
  have hspent : totalRank rank ts s' + moved.length ≤ totalRank rank ts s := by
    induction hmoves with
    | start => exact le_refl _
    | @step moved t s' s'' _ hstep ih =>
      have hless := h.totalRank_lt hstep (hts t (List.mem_append_right _ List.mem_cons_self))
      have hbefore := ih fun u hu => hts u (List.mem_append_left _ hu)
      rw [List.length_append, List.length_singleton]
      omega
    | @free moved s' s'' _ hstep ih =>
      have hle := h.totalRank_le_of_free ts hstep
      have hbefore := ih hts
      omega
  have htotal := totalRank_le hbound
  omega

/-- The same, of steps that are labelled. -/
theorem Moves.labels_length_le {L : Type} {labels : List (T × L)}
    (hmoves : Moves step free s (labels.map Prod.fst) s') (h : Lowers step free rank)
    (hts : ∀ x ∈ labels, x.1 ∈ ts) (hbound : ∀ t ∈ ts, rank s t ≤ bound) :
    labels.length ≤ bound * ts.length := by
  have hmoved : ∀ t ∈ labels.map Prod.fst, t ∈ ts := by
    intro t ht
    obtain ⟨x, hx, rfl⟩ := List.mem_map.mp ht
    exact hts x hx
  have hle := hmoves.length_le h hmoved hbound
  rwa [List.length_map] at hle

end Cuw3.Lib
