/-
  Singly linked lists in a memory of `next` links, ended by a null link.

  `Linked null next p ps`: following `next` from `p` visits exactly the nodes `ps`, in order, and
  then reaches `null`.  A list depends on the links of its own nodes only (`Linked.congr`); a node
  is pushed by pointing it to the old head (`Linked.push`); the nodes are determined by the head
  (`Linked.unique`), and none is visited twice (`Linked.nodup`).

  Two lists become one when the last node of the first links to the second (`Linked.append`), and
  one becomes two when it is cut (`Linked.cut`).

Each `next` link leads one node closer to the end (`Linked.chainLength_node`).
-/
import Mathlib.Logic.Function.Basic
import Mathlib.Data.List.Basic

namespace Cuw3.Lib

variable {α : Type}

/-- `ps` are the nodes of the list that starts at `p`. -/
def Linked (null : α) (next : α → α) : α → List α → Prop
  | p, [] => p = null
  | p, q :: qs => p = q ∧ q ≠ null ∧ Linked null next (next q) qs

namespace Linked

variable {null : α} {next next' : α → α} {p q : α} {ps qs : List α}

@[simp] theorem nil_iff : Linked null next p [] ↔ p = null := Iff.rfl

@[simp] theorem null_iff : Linked null next null ps ↔ ps = [] := by
  cases ps with
  | nil => simp
  | cons q qs =>
    simp only [Linked, reduceCtorEq, iff_false]
    rintro ⟨rfl, hq, -⟩
    exact hq rfl

/-- From a node that is not null, the list has a first node and a rest. -/
theorem of_ne_null (h : Linked null next p ps) (hp : p ≠ null) :
    ∃ qs, ps = p :: qs ∧ Linked null next (next p) qs := by
  cases ps with
  | nil => exact absurd h hp
  | cons q qs =>
    obtain ⟨rfl, -, hqs⟩ := h
    exact ⟨qs, rfl, hqs⟩

theorem ne_null (h : Linked null next p ps) (hq : q ∈ ps) : q ≠ null := by
  induction ps generalizing p with
  | nil => simp at hq
  | cons r rs ih =>
    obtain ⟨-, hr, hrs⟩ := h
    rcases List.mem_cons.mp hq with rfl | hq
    · exact hr
    · exact ih hrs hq

/-- Only the links of the list's own nodes matter. -/
theorem congr (h : Linked null next p ps) (heq : ∀ q ∈ ps, next' q = next q) :
    Linked null next' p ps := by
  induction ps generalizing p with
  | nil => exact h
  | cons q qs ih =>
    obtain ⟨rfl, hq, hqs⟩ := h
    refine ⟨rfl, hq, ?_⟩
    rw [heq p List.mem_cons_self]
    exact ih hqs fun r hr => heq r (List.mem_cons_of_mem _ hr)

/-- The nodes are determined by the head. -/
theorem unique (h : Linked null next p ps) (h' : Linked null next p qs) : ps = qs := by
  induction ps generalizing p qs with
  | nil =>
    obtain rfl : p = null := h
    exact (null_iff.mp h').symm
  | cons r rs ih =>
    obtain ⟨rfl, hr, hrs⟩ := h
    obtain ⟨ts, rfl, hts⟩ := h'.of_ne_null hr
    rw [ih hrs hts]

/-- What follows a part of the list is a list too. -/
theorem suffix (h : Linked null next p (qs ++ ps)) : ∃ q, Linked null next q ps := by
  induction qs generalizing p with
  | nil => exact ⟨p, h⟩
  | cons q qs ih =>
    obtain ⟨-, -, hqs⟩ := h
    exact ih hqs

/-- The link of the last node of a part leads to what follows it. -/
theorem after (h : Linked null next p (ps ++ qs)) (hlast : ps.getLast? = some q) :
    Linked null next (next q) qs := by
  obtain ⟨before, rfl⟩ := List.getLast?_eq_some_iff.mp hlast
  rw [List.append_assoc] at h
  obtain ⟨r, rfl, -, hqs⟩ := h.suffix
  exact hqs

/-- The nodes after a node of the list. -/
theorem rest (h : Linked null next p ps) (hq : q ∈ ps) :
    ∃ before after, ps = before ++ q :: after ∧ Linked null next (next q) after := by
  obtain ⟨before, after, rfl⟩ := List.append_of_mem hq
  obtain ⟨r, rfl, -, hafter⟩ := h.suffix
  exact ⟨before, after, rfl, hafter⟩

/-- A list that ends visits no node twice. -/
theorem nodup (h : Linked null next p ps) : ps.Nodup := by
  induction ps generalizing p with
  | nil => exact List.nodup_nil
  | cons q qs ih =>
    obtain ⟨rfl, -, hqs⟩ := h
    refine List.nodup_cons.mpr ⟨fun hmem => ?_, ih hqs⟩
    -- the nodes after a second visit are those after the first
    obtain ⟨before, after, hsplit, hafter⟩ := hqs.rest hmem
    have hlength := congrArg List.length hsplit
    rw [hqs.unique hafter, List.length_append, List.length_cons] at hlength
    omega

/-- The last node has no link. -/
theorem next_getLast (h : Linked null next p ps) (hlast : ps.getLast? = some q) :
    next q = null := by
  obtain ⟨before, rfl⟩ := List.getLast?_eq_some_iff.mp hlast
  obtain ⟨r, rfl, -, hnil⟩ := h.suffix
  exact hnil

/-- A node without a link is the last one. -/
theorem getLast_of_next (h : Linked null next p ps) (hq : q ∈ ps) (hnull : next q = null) :
    ps.getLast? = some q := by
  obtain ⟨before, after, rfl, hafter⟩ := h.rest hq
  rw [hnull, null_iff] at hafter
  rw [hafter, List.getLast?_concat]

/-- A link that is not null leads to another node of the list. -/
theorem next_mem (h : Linked null next p ps) (hq : q ∈ ps) (hnull : next q ≠ null) :
    next q ∈ ps ∧ next q ≠ q := by
  have hnodup := h.nodup
  obtain ⟨before, after, rfl, hafter⟩ := h.rest hq
  obtain ⟨after, rfl, -⟩ := hafter.of_ne_null hnull
  refine ⟨by simp, fun heq => ?_⟩
  rw [heq, List.nodup_append, List.nodup_cons] at hnodup
  exact hnodup.2.1.1 List.mem_cons_self

variable [DecidableEq α]

/-- Writing the link of a node outside of the list keeps it. -/
theorem update (h : Linked null next p ps) (hq : q ∉ ps) (v : α) :
    Linked null (Function.update next q v) p ps :=
  h.congr fun _ hr => Function.update_of_ne (ne_of_mem_of_not_mem hr hq) _ _

/-- Pushing a node in front of a list. -/
theorem push (h : Linked null next p ps) (hq : q ≠ null) (hmem : q ∉ ps) :
    Linked null (Function.update next q p) q (q :: ps) :=
  ⟨rfl, hq, by rw [Function.update_self]; exact h.update hmem p⟩

variable {tail : α}

/-- A list whose last node links to another list. -/
theorem append (h : Linked null (Function.update next tail null) p ps)
    (hlast : ps.getLast? = some tail) (hqs : Linked null next (next tail) qs) :
    Linked null next p (ps ++ qs) := by
  have hnodup := h.nodup
  induction ps generalizing p with
  | nil => simp at hlast
  | cons r rs ih =>
    obtain ⟨rfl, hp, hrs⟩ := h
    refine ⟨rfl, hp, ?_⟩
    cases rs with
    | nil =>
      obtain rfl : p = tail := by simpa using hlast
      exact hqs
    | cons r rs =>
      rw [List.getLast?_cons_cons] at hlast
      obtain ⟨hnot, hnodup⟩ := List.nodup_cons.mp hnodup
      have hne : p ≠ tail := ne_of_mem_of_not_mem (List.mem_of_getLast? hlast) hnot |>.symm
      rw [Function.update_of_ne hne] at hrs
      exact ih hrs hlast hnodup

/-- A list that is cut after one of its nodes. -/
theorem cut (h : Linked null next p (ps ++ qs)) (hlast : ps.getLast? = some tail) :
    Linked null (Function.update next tail null) p ps ∧
      Linked null (Function.update next tail null) (next tail) qs := by
  have hnodup := h.nodup
  induction ps generalizing p with
  | nil => simp at hlast
  | cons r rs ih =>
    obtain ⟨rfl, hp, hrs⟩ := h
    obtain ⟨hnot, hnodup⟩ := List.nodup_cons.mp hnodup
    cases rs with
    | nil =>
      obtain rfl : p = tail := by simpa using hlast
      exact ⟨⟨rfl, hp, Function.update_self ..⟩, hrs.update hnot null⟩
    | cons r rs =>
      rw [List.getLast?_cons_cons] at hlast
      have hmem : tail ∈ r :: rs ++ qs := List.mem_append_left _ (List.mem_of_getLast? hlast)
      have hne : p ≠ tail := ne_of_mem_of_not_mem hmem hnot |>.symm
      obtain ⟨hfirst, hsecond⟩ := ih hrs hlast hnodup
      refine ⟨⟨rfl, hp, ?_⟩, hsecond⟩
      rw [Function.update_of_ne hne]
      exact hfirst

end Linked

/-! ### How far the end is -/

open Classical in
/-- The number of nodes from `p` to the end; zero where there is no end. -/
noncomputable def chainLength (null : α) (next : α → α) (p : α) : Nat :=
  if h : ∃ ps, Linked null next p ps then h.choose.length else 0

namespace Linked

variable {null : α} {next next' : α → α} {p q : α} {ps : List α}

theorem chainLength_eq (h : Linked null next p ps) : chainLength null next p = ps.length := by
  have hends : ∃ ps, Linked null next p ps := ⟨ps, h⟩
  rw [chainLength, dif_pos hends, hends.choose_spec.unique h]

/-- A node is one further from the end than the next one. -/
theorem chainLength_node (h : Linked null next p ps) (hq : q ∈ ps) :
    chainLength null next q = chainLength null next (next q) + 1 := by
  obtain ⟨before, after, rfl, hafter⟩ := h.rest hq
  have hnode : Linked null next q (q :: after) := ⟨rfl, h.ne_null hq, hafter⟩
  rw [hnode.chainLength_eq, hafter.chainLength_eq, List.length_cons]

theorem chainLength_le (h : Linked null next p ps) (hq : q ∈ ps) :
    chainLength null next q ≤ ps.length := by
  have hnull := h.ne_null hq
  obtain ⟨before, after, rfl, hafter⟩ := h.rest hq
  have hnode : Linked null next q (q :: after) := ⟨rfl, hnull, hafter⟩
  rw [hnode.chainLength_eq, List.length_append]
  omega

/-- Only the links of the list's own nodes matter. -/
theorem chainLength_congr (h : Linked null next p ps) (hq : q ∈ ps)
    (heq : ∀ n ∈ ps, next' n = next n) : chainLength null next' q = chainLength null next q := by
  have hnull := h.ne_null hq
  obtain ⟨before, after, rfl, hafter⟩ := h.rest hq
  have hnode : Linked null next q (q :: after) := ⟨rfl, hnull, hafter⟩
  have hsame := hnode.congr fun n hn => heq n (List.mem_append_right before hn)
  rw [hnode.chainLength_eq, hsame.chainLength_eq]

end Linked

end Cuw3.Lib
