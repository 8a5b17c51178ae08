/-
  The bump stack hands out each index exactly once.

  Threads that raise the top past the limit take the raise back with a separate `fetch_sub`; until
  they do, they are `overshooting`.  The top is always the number of indices handed out plus the
  number of overshooting threads, and there is no overshooting thread while an index is left
  (`Inv`).  So the indices come in order and without gaps, and a top that has reached the limit
  stays there (`runs_bump`).
-/
import Cuw3.Atomic.BumpStack
import Mathlib.Data.Finset.Card
import Mathlib.Data.Fintype.Card
import Mathlib.Data.List.Range

namespace Cuw3.AtomicBumpStackView

open Lib

/-! ### The answers -/

section

variable (stack : BumpStack)

@[simp] theorem indices_answer_none : (stack.answer none).indices = stack.indices := by
  simp [BumpStack.indices, BumpStack.answer]

@[simp] theorem indices_answer_some (i : Nat) :
    (stack.answer (some i)).indices = stack.indices ++ [i] := by
  simp [BumpStack.indices, BumpStack.answer]

@[simp] theorem answer_top (link : Option Nat) : (stack.answer link).top = stack.top := rfl

@[simp] theorem answer_limit (link : Option Nat) : (stack.answer link).limit = stack.limit := rfl

theorem none_mem_answer {link : Option Nat} :
    none ∈ (stack.answer link).answers ↔ none ∈ stack.answers ∨ link = none := by
  simp [BumpStack.answer, eq_comm]

/-! ### The accesses -/

theorem next_load (w : Nat) : Pc.load.next w stack =
    if stack.limit ≤ stack.top then (stack.answer none, .idle) else (stack, .fetchAdd) := rfl

theorem next_fetchAdd {w : Nat} (hfits : stack.top + 1 < 2 ^ w) : Pc.fetchAdd.next w stack =
    if stack.top < stack.limit then
      (BumpStack.answer { stack with top := stack.top + 1 } (some stack.top), .idle)
    else ({ stack with top := stack.top + 1 }, .fetchSub) := by
  unfold Pc.next
  rw [Nat.mod_eq_of_lt hfits]

theorem next_fetchSub {w : Nat} (hpos : 0 < stack.top) (hfits : stack.top < 2 ^ w) :
    Pc.fetchSub.next w stack =
      (BumpStack.answer { stack with top := stack.top - 1 } none, .idle) := by
  have hsplit : stack.top + (2 ^ w - 1) = (stack.top - 1) + 2 ^ w := by omega
  have hmod : (stack.top + (2 ^ w - 1)) % 2 ^ w = stack.top - 1 := by
    rw [hsplit, Nat.add_mod_right]
    exact Nat.mod_eq_of_lt (by omega)
  unfold Pc.next
  rw [hmod]

end

variable {T : Type} [DecidableEq T] [Fintype T] {w first limit : Nat} {σ σ' : Machine T}

/-! ### Overshooting threads -/

/-- The threads between a `fetch_add` that raised the top past the limit and its `fetch_sub`. -/
def overshooting (σ : Machine T) : Finset T := Finset.univ.filter fun t => σ.locals t = .fetchSub

omit [DecidableEq T] in
theorem mem_overshooting {t : T} : t ∈ overshooting σ ↔ σ.locals t = .fetchSub := by
  simp [overshooting]

theorem overshooting_set_of_ne {t : T} {stack : BumpStack} {pc : Pc} (hpc : pc ≠ .fetchSub) :
    overshooting (σ.set t stack pc) = (overshooting σ).erase t := by
  ext u
  rw [Finset.mem_erase, mem_overshooting, mem_overshooting]
  by_cases hu : u = t
  · subst hu
    simp [hpc]
  · simp [hu, Threads.set_locals_of_ne hu]

theorem overshooting_set_fetchSub {t : T} {stack : BumpStack} :
    overshooting (σ.set t stack .fetchSub) = insert t (overshooting σ) := by
  ext u
  rw [Finset.mem_insert, mem_overshooting, mem_overshooting]
  by_cases hu : u = t
  · subst hu
    simp
  · simp [hu, Threads.set_locals_of_ne hu]

omit [DecidableEq T] in
/-- A thread that does not overshoot leaves room for one more. -/
theorem card_overshooting_lt {t : T} (ht : t ∉ overshooting σ) :
    (overshooting σ).card < Fintype.card T := by
  rw [← Finset.card_univ]
  apply Finset.card_lt_card
  exact (Finset.ssubset_iff_of_subset (Finset.subset_univ _)).mpr ⟨t, Finset.mem_univ t, ht⟩

/-! ### The invariant -/

/-- The invariant of a stack whose indices are `[first, limit)`. -/
structure Inv (first limit : Nat) (σ : Machine T) : Prop where
  limit_eq : σ.shared.limit = limit
  indices_eq : σ.shared.indices = List.range' first σ.shared.indices.length
  indices_le : first + σ.shared.indices.length ≤ limit
  top_eq : σ.shared.top = first + σ.shared.indices.length + (overshooting σ).card
  /-- Nobody overshoots while an index is left. -/
  claimed : (overshooting σ).Nonempty → first + σ.shared.indices.length = limit
  /-- Nobody is sent away while an index is left. -/
  answered : none ∈ σ.shared.answers → first + σ.shared.indices.length = limit

omit [DecidableEq T] in
theorem Inv.start (hle : first ≤ limit) : Inv first limit (start T first limit) := by
  have hover : overshooting (AtomicBumpStackView.start T first limit) = ∅ := by
    ext t
    simp [mem_overshooting, AtomicBumpStackView.start]
  refine ⟨rfl, rfl, hle, ?_, ?_, ?_⟩
  · rw [hover]
    rfl
  · rw [hover]
    intro hne
    exact absurd hne Finset.not_nonempty_empty
  · intro hnone
    cases hnone

/-- A step of a thread that overshoots neither before nor after it, and leaves the top alone. -/
theorem Inv.stay (h : Inv first limit σ) {t : T} {stack : BumpStack} {pc : Pc}
    (ht : σ.locals t ≠ .fetchSub) (hpc : pc ≠ .fetchSub) (hlimit : stack.limit = σ.shared.limit)
    (htop : stack.top = σ.shared.top) (hindices : stack.indices = σ.shared.indices)
    (hnone : none ∈ stack.answers →
      none ∈ σ.shared.answers ∨ first + σ.shared.indices.length = limit) :
    Inv first limit (σ.set t stack pc) := by
  have hover : overshooting (σ.set t stack pc) = overshooting σ := by
    rw [overshooting_set_of_ne hpc, Finset.erase_eq_of_notMem]
    rwa [mem_overshooting]
  constructor
  · exact hlimit.trans h.limit_eq
  · rw [Threads.set_shared, hindices]
    exact h.indices_eq
  · rw [Threads.set_shared, hindices]
    exact h.indices_le
  · rw [Threads.set_shared, hindices, hover, htop]
    exact h.top_eq
  · rw [Threads.set_shared, hindices, hover]
    exact h.claimed
  · rw [Threads.set_shared, hindices]
    intro hmem
    exact (hnone hmem).elim h.answered id

/-- The load of the top: a top at the limit or above it says that every index was claimed. -/
theorem Inv.load (h : Inv first limit σ) {t : T} (ht : σ.locals t = .load) :
    Inv first limit (σ.set t (Pc.next w σ.shared .load).1 (Pc.next w σ.shared .load).2) := by
  have hpc : σ.locals t ≠ .fetchSub := by
    rw [ht]
    decide
  rw [next_load]
  split_ifs with hfull
  · show Inv first limit (σ.set t (σ.shared.answer none) .idle)
    refine h.stay hpc (by decide) (answer_limit _ none) (answer_top _ none)
      (indices_answer_none _) ?_
    intro _
    right
    have htop := h.top_eq
    rw [h.limit_eq] at hfull
    rcases (overshooting σ).eq_empty_or_nonempty with hempty | hne
    · have hle := h.indices_le
      rw [hempty, Finset.card_empty] at htop
      omega
    · exact h.claimed hne
  · show Inv first limit (σ.set t σ.shared .fetchAdd)
    exact h.stay hpc (by decide) rfl rfl rfl Or.inl

theorem Inv.fetchAdd (h : Inv first limit σ) (hrange : limit + Fintype.card T < 2 ^ w) {t : T}
    (ht : σ.locals t = .fetchAdd) :
    Inv first limit (σ.set t (Pc.next w σ.shared .fetchAdd).1
      (Pc.next w σ.shared .fetchAdd).2) := by
  have hnot : t ∉ overshooting σ := by
    rw [mem_overshooting, ht]
    decide
  have htop := h.top_eq
  have hle := h.indices_le
  have hfew := card_overshooting_lt hnot
  rw [next_fetchAdd σ.shared (by omega)]
  split_ifs with hlt
  · -- an index is left, so nobody overshoots and the top is the next index
    rw [h.limit_eq] at hlt
    have hempty : overshooting σ = ∅ := by
      apply Finset.not_nonempty_iff_eq_empty.mp
      intro hne
      have hall := h.claimed hne
      omega
    rw [hempty, Finset.card_empty] at htop
    have hover : ∀ stack, overshooting (σ.set t stack .idle) = ∅ := by
      intro stack
      rw [overshooting_set_of_ne (by decide), hempty, Finset.erase_empty]
    constructor
    · exact h.limit_eq
    · show BumpStack.indices (BumpStack.answer _ (some σ.shared.top)) = _
      rw [Threads.set_shared, indices_answer_some, List.length_append]
      show σ.shared.indices ++ [σ.shared.top] =
        List.range' first (σ.shared.indices.length + 1)
      rw [List.range'_1_concat, ← h.indices_eq, htop]
      rfl
    · rw [Threads.set_shared, indices_answer_some, List.length_append]
      show first + (σ.shared.indices.length + 1) ≤ limit
      omega
    · rw [hover, Threads.set_shared, indices_answer_some, List.length_append]
      show σ.shared.top + 1 = first + (σ.shared.indices.length + 1) + 0
      omega
    · rw [hover]
      intro hne
      exact absurd hne Finset.not_nonempty_empty
    · intro hnone
      have hall := h.answered (by simpa [none_mem_answer] using hnone)
      omega
  · -- the limit is reached: one more thread overshoots
    rw [h.limit_eq] at hlt
    have hall : first + σ.shared.indices.length = limit := by
      rcases (overshooting σ).eq_empty_or_nonempty with hempty | hne
      · rw [hempty, Finset.card_empty] at htop
        omega
      · exact h.claimed hne
    constructor
    · exact h.limit_eq
    · exact h.indices_eq
    · exact h.indices_le
    · rw [overshooting_set_fetchSub, Finset.card_insert_of_notMem hnot]
      show σ.shared.top + 1 = first + σ.shared.indices.length + _
      omega
    · intro _
      exact hall
    · intro _
      exact hall

/-- The `fetch_sub` of an overshooting thread leaves a top that is still at the limit or above it.
-/
theorem Inv.fetchSub (h : Inv first limit σ) (hrange : limit + Fintype.card T < 2 ^ w) {t : T}
    (ht : σ.locals t = .fetchSub) :
    Inv first limit (σ.set t (Pc.next w σ.shared .fetchSub).1 (Pc.next w σ.shared .fetchSub).2) ∧
      limit ≤ (Pc.next w σ.shared .fetchSub).1.top := by
  have hmem : t ∈ overshooting σ := mem_overshooting.mpr ht
  have hall := h.claimed ⟨t, hmem⟩
  have hpos := Finset.card_pos.mpr ⟨t, hmem⟩
  have hcard : (overshooting σ).card ≤ Fintype.card T := Finset.card_le_univ _
  have htop := h.top_eq
  rw [next_fetchSub σ.shared (by omega) (by omega)]
  have hstays : limit ≤ σ.shared.top - 1 := by omega
  refine ⟨?_, hstays⟩
  show Inv first limit (σ.set t (BumpStack.answer { σ.shared with top := σ.shared.top - 1 } none)
    .idle)
  constructor
  · exact h.limit_eq
  · rw [Threads.set_shared, indices_answer_none]
    exact h.indices_eq
  · rw [Threads.set_shared, indices_answer_none]
    exact h.indices_le
  · rw [Threads.set_shared, indices_answer_none, overshooting_set_of_ne (by decide),
      Finset.card_erase_of_mem hmem]
    show σ.shared.top - 1 = first + σ.shared.indices.length + _
    omega
  · intro _
    rw [Threads.set_shared, indices_answer_none]
    exact hall
  · intro _
    rw [Threads.set_shared, indices_answer_none]
    exact hall

theorem Inv.step (h : Inv first limit σ) (hrange : limit + Fintype.card T < 2 ^ w)
    (hstep : Step w σ σ') : Inv first limit σ' := by
  cases hstep with
  | bump t hidle =>
    have hpc : σ.locals t ≠ .fetchSub := by
      rw [hidle]
      decide
    exact h.stay hpc (by decide) rfl rfl rfl Or.inl
  | next t =>
    cases hpc : σ.locals t with
    | idle =>
      show Inv first limit (σ.set t σ.shared .idle)
      exact h.stay (by simp [hpc]) (by decide) rfl rfl rfl Or.inl
    | load => exact h.load hpc
    | fetchAdd => exact h.fetchAdd hrange hpc
    | fetchSub => exact (h.fetchSub hrange hpc).1

/-- A top at the limit or above it stays there. -/
theorem Inv.step_top (h : Inv first limit σ) (hrange : limit + Fintype.card T < 2 ^ w)
    (hstep : Step w σ σ') (hfull : limit ≤ σ.shared.top) : limit ≤ σ'.shared.top := by
  cases hstep with
  | bump t hidle => exact hfull
  | next t =>
    rw [Threads.set_shared]
    cases hpc : σ.locals t with
    | idle => exact hfull
    | load =>
      rw [next_load]
      split_ifs
      · exact hfull
      · exact hfull
    | fetchAdd =>
      have hnot : t ∉ overshooting σ := by
        rw [mem_overshooting, hpc]
        decide
      have hfew := card_overshooting_lt hnot
      have htop := h.top_eq
      have hle := h.indices_le
      rw [next_fetchAdd σ.shared (by omega)]
      split_ifs with hlt
      · exact Nat.le_succ_of_le hfull
      · exact Nat.le_succ_of_le hfull
    | fetchSub => exact (h.fetchSub hrange hpc).2

/-! ### Runs -/

theorem Runs.inv (h : Runs w σ σ') (hinv : Inv first limit σ)
    (hrange : limit + Fintype.card T < 2 ^ w) : Inv first limit σ' := by
  induction h with
  | refl => exact hinv
  | tail _ hstep ih => exact ih.step hrange hstep

theorem Runs.top_le (h : Runs w σ σ') (hinv : Inv first limit σ)
    (hrange : limit + Fintype.card T < 2 ^ w) (hfull : limit ≤ σ.shared.top) :
    limit ≤ σ'.shared.top := by
  induction h with
  | refl => exact hfull
  | tail hruns hstep ih => exact (Runs.inv hruns hinv hrange).step_top hrange hstep ih

/-- **Each index is handed out once, in order and without gaps; nobody is sent away before the last
one is claimed; and a top that has reached the limit never falls below it again.** -/
theorem runs_bump (hle : first ≤ limit) (hrange : limit + Fintype.card T < 2 ^ w)
    (h : Runs w (start T first limit) σ) :
    σ.shared.indices = List.range' first σ.shared.indices.length ∧ σ.shared.indices.Nodup ∧
      (∀ i ∈ σ.shared.indices, first ≤ i ∧ i < limit) ∧
      (none ∈ σ.shared.answers → σ.shared.indices = List.range' first (limit - first)) ∧
      ∀ σ', Runs w σ σ' → limit ≤ σ.shared.top → limit ≤ σ'.shared.top := by
  have hinv := Runs.inv h (Inv.start hle) hrange
  have hindices := hinv.indices_eq
  have hbound := hinv.indices_le
  refine ⟨hindices, ?_, ?_, ?_, ?_⟩
  · rw [hindices]
    exact List.nodup_range'
  · intro i hi
    rw [hindices, List.mem_range'_1] at hi
    omega
  · intro hnone
    have hall := hinv.answered hnone
    rw [hindices]
    congr 1
    omega
  · intro σ' hruns hfull
    exact Runs.top_le hruns hinv hrange hfull

/-- Two threads that have both seen the last index; one has it, the other overshoots. -/
def race : Machine Bool :=
  (((((((start Bool 5 6).set true ⟨5, 6, []⟩ .load).set false ⟨5, 6, []⟩ .load).set true ⟨5, 6, []⟩
    .fetchAdd).set false ⟨5, 6, []⟩ .fetchAdd).set true ⟨6, 6, [some 5]⟩ .idle).set false
    ⟨7, 6, [some 5]⟩ .fetchSub)

theorem runs_race : Runs 8 (start Bool 5 6) race :=
  ((((((Relation.ReflTransGen.refl.tail (.bump true rfl)).tail (.bump false rfl)).tail
    (.next true)).tail (.next false)).tail (.next true)).tail (.next false))

theorem runs_bump_race :
    race.shared.indices = List.range' 5 race.shared.indices.length ∧ race.shared.indices.Nodup ∧
      (∀ i ∈ race.shared.indices, 5 ≤ i ∧ i < 6) ∧
      (none ∈ race.shared.answers → race.shared.indices = List.range' 5 (6 - 5)) ∧
      ∀ σ', Runs 8 race σ' → 6 ≤ race.shared.top → 6 ≤ σ'.shared.top :=
  runs_bump (by decide) (by decide) runs_race

end Cuw3.AtomicBumpStackView
