/-
  Skip links over a linked list: each node has, next to its `next` link, a link to itself or to a
  later node of its list (`Skips`).

  They lead from any node to the tail.  A step of the walk (`skipFrom`) follows the skip link, or
  the `next` link where the skip link goes nowhere; it stays in the list (`Skips.skipFrom_mem`) and
  moves on as long as there is a next node (`Skips.skipFrom_ne`).
-/
import Cuw3.Lib.Linked

namespace Cuw3.Lib

variable {α : Type}

/-- The skip link of each node goes to the node or to a later one. -/
def Skips (skip : α → α) : List α → Prop
  | [] => True
  | p :: ps => skip p ∈ p :: ps ∧ Skips skip ps

namespace Skips

variable {skip skip' : α → α} {p q tail : α} {ps qs : List α}

@[simp] theorem nil : Skips skip [] := trivial

/-- Only the skip links of the list's own nodes matter. -/
theorem congr (h : Skips skip ps) (heq : ∀ p ∈ ps, skip' p = skip p) : Skips skip' ps := by
  induction ps with
  | nil => exact nil
  | cons p ps ih =>
    obtain ⟨hp, hps⟩ := h
    refine ⟨?_, ih hps fun q hq => heq q (List.mem_cons_of_mem _ hq)⟩
    rw [heq p List.mem_cons_self]
    exact hp

theorem append (hps : Skips skip ps) (hqs : Skips skip qs) : Skips skip (ps ++ qs) := by
  induction ps with
  | nil => exact hqs
  | cons p ps ih =>
    obtain ⟨hp, hps⟩ := hps
    exact ⟨List.mem_append_left qs hp, ih hps⟩

theorem suffix (h : Skips skip (ps ++ qs)) : Skips skip qs := by
  induction ps with
  | nil => exact h
  | cons p ps ih => exact ih h.2

/-- The skip links of a list stay in it. -/
theorem mem (h : Skips skip ps) (hp : p ∈ ps) : skip p ∈ ps := by
  obtain ⟨before, after, rfl⟩ := List.append_of_mem hp
  exact List.mem_append_right before h.suffix.1

/-- All skip links may go to the tail. -/
theorem of_tail (hlast : ps.getLast? = some tail) (h : ∀ p ∈ ps, skip p = tail) :
    Skips skip ps := by
  induction ps with
  | nil => exact nil
  | cons p ps ih =>
    constructor
    · rw [h p List.mem_cons_self]
      exact List.mem_of_getLast? hlast
    · cases ps with
      | nil => exact nil
      | cons q qs =>
        rw [List.getLast?_cons_cons] at hlast
        exact ih hlast fun r hr => h r (List.mem_cons_of_mem _ hr)

variable [DecidableEq α]

/-- The skip link of the head may go to any node. -/
theorem update_head (h : Skips skip (p :: ps)) (hp : p ∉ ps) (hq : q ∈ p :: ps) :
    Skips (Function.update skip p q) (p :: ps) := by
  refine ⟨?_, h.2.congr fun r hr => Function.update_of_ne (ne_of_mem_of_not_mem hr hp) _ _⟩
  rw [Function.update_self]
  exact hq

end Skips

/-- Where the walk to the tail goes from a node that links to `next`. -/
def skipFrom [DecidableEq α] (skip : α → α) (p next : α) : α := if skip p ≠ p then skip p else next

namespace Skips

variable [DecidableEq α] {null : α} {next skip : α → α} {p q : α} {ps : List α}

theorem skipFrom_mem (h : Skips skip ps) (hps : Linked null next p ps) (hq : q ∈ ps)
    (hnext : next q ≠ null) : skipFrom skip q (next q) ∈ ps := by
  unfold skipFrom
  split
  · exact h.mem hq
  · exact (hps.next_mem hq hnext).1

/-- The walk moves on where there is a next node. -/
theorem skipFrom_ne (hps : Linked null next p ps) (hq : q ∈ ps) (hnext : next q ≠ null) :
    skipFrom skip q (next q) ≠ q := by
  unfold skipFrom
  split
  · assumption
  · exact (hps.next_mem hq hnext).2

/-- And it moves towards the end. -/
theorem chainLength_skipFrom_lt (h : Skips skip ps) (hps : Linked null next p ps) (hq : q ∈ ps)
    (hnext : next q ≠ null) :
    chainLength null next (skipFrom skip q (next q)) < chainLength null next q := by
  have hnode := hps.chainLength_node hq
  obtain ⟨before, after, rfl, hafter⟩ := hps.rest hq
  have hmem : skipFrom skip q (next q) ∈ after := by
    unfold skipFrom
    split_ifs with hskip
    · exact List.mem_of_ne_of_mem hskip h.suffix.1
    · obtain ⟨rest, rfl, -⟩ := hafter.of_ne_null hnext
      exact List.mem_cons_self
  have hle := hafter.chainLength_le hmem
  rw [hafter.chainLength_eq] at hnode
  omega

end Skips

end Cuw3.Lib
