/-
  Threads that interleave: a shared state and a local state of each thread, for any type of threads.
  A step changes the shared state and the local state of one thread.

  An invariant of such a system is a fact `I` about the shared state and a fact `A` about each
  thread, both under one ghost state, which records what the program does not store (who owns what,
  say).  A step keeps it when it establishes `I`, the acting thread's `A`, and does not disturb the
  `A` of the other threads (`Threads.Holds.step`).
-/
import Mathlib.Logic.Function.Basic

namespace Cuw3.Lib

/-- A shared state and the local states of the threads. -/
@[ext] structure Threads (S T L : Type) where
  shared : S
  locals : T → L

namespace Threads

variable {S T L G : Type} [DecidableEq T]

/-- The thread `t` has moved: the shared state is `s`, its local state `l`. -/
def set (σ : Threads S T L) (t : T) (s : S) (l : L) : Threads S T L :=
  ⟨s, Function.update σ.locals t l⟩

variable {σ : Threads S T L} {s : S} {t u : T} {l : L}

@[simp] theorem set_shared : (σ.set t s l).shared = s := rfl

@[simp] theorem set_locals_self : (σ.set t s l).locals t = l := Function.update_self ..

theorem set_locals_of_ne (h : u ≠ t) : (σ.set t s l).locals u = σ.locals u :=
  Function.update_of_ne h ..

@[simp] theorem set_set {s' : S} {l' : L} : (σ.set t s l).set t s' l' = σ.set t s' l' := by
  simp [set]

/-- The shared state and every thread are as `I` and `A` say, under one ghost state. -/
def Holds (I : G → S → Prop) (A : G → S → T → L → Prop) (σ : Threads S T L) : Prop :=
  ∃ g, I g σ.shared ∧ ∀ t, A g σ.shared t (σ.locals t)

variable {A : G → S → T → L → Prop} {I : G → S → Prop} {g g' : G}

/-- What holds of every thread still does after a step that does not disturb the others. -/
theorem forall_set (h : ∀ u, A g σ.shared u (σ.locals u)) (ht : A g' s t l)
    (hother : ∀ u, u ≠ t → A g σ.shared u (σ.locals u) → A g' s u (σ.locals u)) :
    ∀ u, A g' s u ((σ.set t s l).locals u) := by
  intro u
  by_cases hu : u = t
  · subst hu
    rw [set_locals_self]
    exact ht
  · rw [set_locals_of_ne hu]
    exact hother u hu (h u)

/-- **The rule for a step of one thread.** -/
theorem Holds.step (h : ∀ u, A g σ.shared u (σ.locals u)) (hI : I g' s) (ht : A g' s t l)
    (hother : ∀ u, u ≠ t → A g σ.shared u (σ.locals u) → A g' s u (σ.locals u)) :
    (σ.set t s l).Holds I A :=
  ⟨g', hI, forall_set h ht hother⟩

end Threads

end Cuw3.Lib
