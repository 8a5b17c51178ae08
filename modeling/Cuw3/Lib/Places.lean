/-
  Places of things: a ghost state that gives each thing at most one place, so that places exclude
  each other by its type.

  Things move to a place together (`Places.move`).  What is at another place does not change, unless
  it moves (`Places.move_of_ne`); so a place is left alone by a move between two others
  (`Places.move_other`).
-/
import Mathlib.Data.List.Basic

namespace Cuw3.Lib

/-- The place of each thing; `none` for a thing that has no place. -/
abbrev Places (α P : Type) : Type := α → Option P

namespace Places

variable {α P : Type} [DecidableEq α] {g : Places α P} {ns : List α} {n : α}
    {place source target : P}

/-- The things move to the place. -/
def move (g : Places α P) (ns : List α) (target : P) : Places α P :=
  fun n => if n ∈ ns then some target else g n

@[simp] theorem move_nil : g.move [] target = g := by
  funext n
  simp [move]

/-- The thing has no place any more. -/
def leave (g : Places α P) (n : α) : Places α P := Function.update g n none

/-- What is at the place that things move to. -/
@[simp] theorem move_eq : g.move ns target n = some target ↔ n ∈ ns ∨ g n = some target := by
  unfold move
  split <;> simp_all

/-- What is at another place. -/
theorem move_of_ne (h : place ≠ target) :
    g.move ns target n = some place ↔ g n = some place ∧ n ∉ ns := by
  unfold move
  split
  · simp_all [h.symm]
  · simp_all

/-- A thing that does not move. -/
theorem move_of_not_mem (h : n ∉ ns) : g.move ns target n = g n := if_neg h

/-- Things that had no place do not matter for another place than that they move to. -/
theorem move_fresh (hfrom : ∀ n ∈ ns, g n = none) (htarget : place ≠ target) :
    g.move ns target n = some place ↔ g n = some place := by
  rw [move_of_ne htarget, and_iff_left_iff_imp]
  intro hn hmem
  rw [hfrom n hmem] at hn
  cases hn

/-- Things that move from one place to another do not matter for a third one. -/
theorem move_other (hfrom : ∀ n ∈ ns, g n = some source) (h : place ≠ source)
    (htarget : place ≠ target) : g.move ns target n = some place ↔ g n = some place := by
  rw [move_of_ne htarget, and_iff_left_iff_imp]
  intro hn hmem
  rw [hfrom n hmem] at hn
  exact h (Option.some_inj.mp hn).symm

/-- Moving from place to place, nothing is lost. -/
theorem move_none (hfrom : ∀ n ∈ ns, g n = some source) :
    g.move ns target n = none ↔ g n = none := by
  unfold move
  split
  next hmem => simp [hfrom n hmem]
  next => rfl

@[simp] theorem leave_self : g.leave n n = none := Function.update_self ..

theorem leave_of_ne {m : α} (h : m ≠ n) : g.leave n m = g m := Function.update_of_ne h ..

/-- A thing that leaves its place does not matter for another one. -/
theorem leave_other {m : α} (hfrom : g n = some source) (h : place ≠ source) :
    g.leave n m = some place ↔ g m = some place := by
  by_cases hm : m = n
  · subst hm
    rw [leave_self, hfrom]
    simp [h.symm]
  · rw [leave_of_ne hm]

end Places

end Cuw3.Lib
