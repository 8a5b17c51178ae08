/-
  Doubly linked rings in a memory of `prev` and `next` links.

  `Path prev next a xs b`: from `a` the links lead through `xs` to `b`, and back.  A ring is a path
  from a node to itself (`Ring`); it can be read from any of its nodes on (`Ring.rotate`).

  A part of a ring is replaced by giving the paths that are new and saying that the other links
  stay: nodes come in after the first node (`Ring.splice`), before it (`Ring.splice_before`), and
  the first node goes out (`Ring.unlink`).  A path that leads somewhere else after its last node is
  `Path.retarget`.
-/
import Mathlib.Logic.Function.Basic
import Mathlib.Data.List.Basic

namespace Cuw3.Lib

variable {α : Type}

/-- The links lead from `a` through `xs` to `b`, and back. -/
def Path (prev next : α → α) : α → List α → α → Prop
  | a, [], b => next a = b ∧ prev b = a
  | a, x :: xs, b => next a = x ∧ prev x = a ∧ Path prev next x xs b

/-- The links lead from `a` through `xs` back to `a`, both ways. -/
def Ring (prev next : α → α) (a : α) (xs : List α) : Prop := Path prev next a xs a

variable {prev next prev' next' : α → α} {a b c x y : α} {xs ys : List α}

namespace Path

/-- A path through a node is one to it and one from it. -/
theorem append_iff : Path prev next a (xs ++ y :: ys) b ↔
    Path prev next a xs y ∧ Path prev next y ys b := by
  induction xs generalizing a with
  | nil => exact (and_assoc).symm
  | cons x xs ih =>
    rw [List.cons_append]
    show next a = x ∧ prev x = a ∧ Path prev next x (xs ++ y :: ys) b ↔ _
    rw [ih, ← and_assoc, ← and_assoc, Path, and_assoc (a := next a = x)]

/-- Only the links of the path's own nodes matter. -/
theorem congr (h : Path prev next a xs b) (hnext : ∀ x ∈ a :: xs, next' x = next x)
    (hprev : ∀ x ∈ xs ++ [b], prev' x = prev x) : Path prev' next' a xs b := by
  induction xs generalizing a with
  | nil =>
    obtain ⟨hab, hba⟩ := h
    refine ⟨?_, ?_⟩
    · rw [hnext a List.mem_cons_self, hab]
    · rw [hprev b (by simp), hba]
  | cons x xs ih =>
    obtain ⟨hax, hxa, h⟩ := h
    refine ⟨?_, ?_, ih h (fun y hy => hnext y (List.mem_cons_of_mem _ hy))
      fun y hy => hprev y (List.mem_cons_of_mem _ hy)⟩
    · rw [hnext a List.mem_cons_self, hax]
    · rw [hprev x List.mem_cons_self, hxa]

theorem prev_eq (h : Path prev next a xs b) : prev b = (a :: xs).getLast (by simp) := by
  induction xs generalizing a with
  | nil => exact h.2
  | cons x xs ih =>
    rw [List.getLast_cons_cons]
    exact ih h.2.2

/-- The last node is linked to another end. -/
theorem retarget (h : Path prev next a xs b) (hnodup : (a :: xs).Nodup)
    (hnext : ∀ x ∈ a :: xs, x ≠ prev b → next' x = next x) (hprev : ∀ x ∈ xs, prev' x = prev x)
    (hlast : next' (prev b) = c) (hend : prev' c = prev b) : Path prev' next' a xs c := by
  induction xs generalizing a with
  | nil =>
    obtain ⟨-, hba⟩ := h
    rw [hba] at hlast hend
    exact ⟨hlast, hend⟩
  | cons x xs ih =>
    obtain ⟨hax, hxa, h⟩ := h
    obtain ⟨hnot, hnodup'⟩ := List.nodup_cons.mp hnodup
    have hne : a ≠ prev b := by
      rintro rfl
      rw [h.prev_eq] at hnot
      exact hnot (List.getLast_mem _)
    refine ⟨?_, ?_, ih h hnodup' (fun y hy => hnext y (List.mem_cons_of_mem _ hy))
      fun y hy => hprev y (List.mem_cons_of_mem _ hy)⟩
    · rw [hnext a List.mem_cons_self hne, hax]
    · rw [hprev x List.mem_cons_self, hxa]

end Path

namespace Ring

/-- A ring can be read from any of its nodes on. -/
theorem rotate (h : Ring prev next a (xs ++ y :: ys)) : Ring prev next y (ys ++ a :: xs) := by
  obtain ⟨hto, hfrom⟩ := Path.append_iff.mp h
  exact Path.append_iff.mpr ⟨hfrom, hto⟩

theorem congr (h : Ring prev next a xs) (hnext : ∀ x ∈ a :: xs, next' x = next x)
    (hprev : ∀ x ∈ a :: xs, prev' x = prev x) : Ring prev' next' a xs := by
  refine Path.congr h hnext fun x hx => hprev x ?_
  rw [List.mem_append, List.mem_singleton] at hx
  exact List.mem_cons.mpr hx.symm

/-- The node before the first one is the last. -/
theorem prev_eq (h : Ring prev next a xs) : prev a = (a :: xs).getLast (by simp) := Path.prev_eq h

theorem prev_mem (h : Ring prev next a xs) : prev a ∈ a :: xs := by
  rw [h.prev_eq]
  exact List.getLast_mem _

theorem next_mem (h : Ring prev next a xs) : next a ∈ a :: xs := by
  cases xs with
  | nil =>
    obtain ⟨haa, -⟩ := h
    rw [haa]
    exact List.mem_cons_self
  | cons x xs =>
    obtain ⟨hax, -⟩ := h
    rw [hax]
    exact List.mem_cons_of_mem _ List.mem_cons_self

/-- Back and forth. -/
theorem next_prev (h : Ring prev next a xs) : next (prev a) = a := by
  rcases List.eq_nil_or_concat' xs with rfl | ⟨xs, x, rfl⟩
  · obtain ⟨haa, hback⟩ := h
    rw [hback, haa]
  · obtain ⟨-, hxa, hback⟩ := Path.append_iff.mp h
    rw [hback, hxa]

/-- A ring of one node is the only one whose node links to itself. -/
theorem self_iff (h : Ring prev next a xs) (hnodup : (a :: xs).Nodup) :
    prev a = a ∧ next a = a ↔ xs = [] := by
  constructor
  · rintro ⟨-, hnext⟩
    cases xs with
    | nil => rfl
    | cons x xs =>
      obtain ⟨hax, -⟩ := h
      rw [← hnext, hax] at hnodup
      exact absurd List.mem_cons_self (List.nodup_cons.mp hnodup).1
  · rintro rfl
    exact ⟨h.2, h.1⟩

/-- New nodes come in after the first one: they are linked up to the node that was next. -/
theorem splice (h : Ring prev next a xs) (hnodup : (a :: xs).Nodup)
    (hnew : Path prev' next' a ys (next a)) (hnext : ∀ x ∈ xs, next' x = next x)
    (hprev : ∀ x ∈ a :: xs, x ≠ next a → prev' x = prev x) : Ring prev' next' a (ys ++ xs) := by
  cases xs with
  | nil =>
    obtain ⟨haa, -⟩ := h
    rw [haa] at hnew
    rw [List.append_nil]
    exact hnew
  | cons x xs =>
    obtain ⟨hax, -, hrest⟩ := h
    rw [hax] at hnew hprev
    obtain ⟨hnot, hnodup⟩ := List.nodup_cons.mp hnodup
    have hfirst : x ∉ xs := (List.nodup_cons.mp hnodup).1
    have hne : a ≠ x := fun heq => hnot (heq ▸ List.mem_cons_self)
    -- the links from the second node on stay
    have hkept : Path prev' next' x xs a := by
      refine hrest.congr hnext fun y hy => ?_
      rw [List.mem_append, List.mem_singleton] at hy
      rcases hy with hy | rfl
      · exact hprev y (by simp [hy]) (ne_of_mem_of_not_mem hy hfirst)
      · exact hprev y List.mem_cons_self hne
    exact Path.append_iff.mpr ⟨hnew, hkept⟩

/-- New nodes come in before the first one: they are linked after the node that was its previous. -/
theorem splice_before (h : Ring prev next a xs) (hnodup : (a :: xs).Nodup)
    (hnew : Path prev' next' (prev a) ys a)
    (hnext : ∀ x ∈ a :: xs, x ≠ prev a → next' x = next x) (hprev : ∀ x ∈ xs, prev' x = prev x) :
    Ring prev' next' a (xs ++ ys) := by
  rcases List.eq_nil_or_concat' xs with rfl | ⟨xs, x, rfl⟩
  · rw [h.prev_eq] at hnew
    exact hnew
  · have hlast : prev a = x := by
      rw [h.prev_eq]
      simp
    rw [hlast] at hnew hnext
    obtain ⟨hto, hback, -⟩ := Path.append_iff.mp h
    have hnot : x ∉ a :: xs := by
      rw [← List.cons_append, List.nodup_append] at hnodup
      exact fun hx => hnodup.2.2 x hx x (List.mem_singleton_self x) rfl
    -- the links up to the last node stay
    have hkept : Path prev' next' a xs x := by
      refine hto.congr (fun y hy => ?_) hprev
      have hmem : y ∈ a :: (xs ++ [x]) := by
        rw [← List.cons_append]
        exact List.mem_append_left _ hy
      exact hnext y hmem (ne_of_mem_of_not_mem hy hnot)
    rw [List.append_assoc]
    exact Path.append_iff.mpr ⟨hkept, hnew⟩

/-- The first node goes out: its neighbours are linked to each other. -/
theorem unlink (h : Ring prev next a (x :: xs)) (hnodup : (a :: x :: xs).Nodup)
    (hnext : ∀ y ∈ x :: xs, y ≠ prev a → next' y = next y) (hprev : ∀ y ∈ xs, prev' y = prev y)
    (hlast : next' (prev a) = x) (hfirst : prev' x = prev a) : Ring prev' next' x xs :=
  Path.retarget h.2.2 (List.nodup_cons.mp hnodup).2 hnext hprev hlast hfirst

end Ring

/-! ### Places in a ring -/

section

variable {list place : α} {nodes : List α}

/-- A node of the ring other than the first one splits the sequence. -/
theorem exists_split (hnodup : (list :: xs).Nodup) (hplace : place ∈ list :: xs)
    (hne : place ≠ list) : ∃ before after, xs = before ++ place :: after ∧ place ∉ before ∧
      place ∉ after := by
  obtain ⟨before, after, rfl⟩ := List.append_of_mem (List.mem_of_ne_of_mem hne hplace)
  rw [List.nodup_cons, List.nodup_append, List.nodup_cons] at hnodup
  exact ⟨before, after, rfl,
    fun hmem => hnodup.2.2.2 place hmem place List.mem_cons_self rfl, hnodup.2.2.1.1⟩

/-- The ring, read from one of its nodes on. -/
theorem Ring.read_at (h : Ring prev next list xs) (hplace : place ∈ list :: xs) :
    ∃ ys, Ring prev next place ys ∧ (place :: ys).Perm (list :: xs) := by
  rcases List.mem_cons.mp hplace with rfl | hmem
  · exact ⟨xs, h, List.Perm.refl _⟩
  · obtain ⟨before, after, rfl⟩ := List.append_of_mem hmem
    exact ⟨_, h.rotate, @List.perm_append_comm _ (place :: after) _⟩

/-- The neighbours of a node are in its ring. -/
theorem Ring.mem_of_mem (h : Ring prev next list xs) (hplace : place ∈ list :: xs) :
    prev place ∈ list :: xs ∧ next place ∈ list :: xs := by
  obtain ⟨ys, hys, hperm⟩ := h.read_at hplace
  exact ⟨hperm.mem_iff.mp hys.prev_mem, hperm.mem_iff.mp hys.next_mem⟩

variable [DecidableEq α]

/-- The sequence of the ring of `list`, with `nodes` put after `place`, which may be `list` itself.
-/
def spliceAfter (list place : α) (nodes xs : List α) : List α :=
  if place = list then nodes ++ xs else xs.flatMap fun x => if x = place then x :: nodes else [x]

/-- The sequence of the ring of `list`, with `nodes` put before `place`, which may be `list` itself.
-/
def spliceBefore (list place : α) (nodes xs : List α) : List α :=
  if place = list then xs ++ nodes else xs.flatMap fun x => if x = place then nodes ++ [x] else [x]

theorem flatMap_ite_of_notMem {f : α → List α} (h : place ∉ xs) :
    (xs.flatMap fun x => if x = place then f x else [x]) = xs := by
  induction xs with
  | nil => rfl
  | cons x xs ih =>
    obtain ⟨hne, hnot⟩ := not_or.mp (mt List.mem_cons.mpr h)
    rw [List.flatMap_cons, if_neg (Ne.symm hne), ih hnot]
    rfl

theorem spliceAfter_split {before after : List α} (hne : place ≠ list) (hbefore : place ∉ before)
    (hafter : place ∉ after) :
    spliceAfter list place nodes (before ++ place :: after) = before ++ place ::
      (nodes ++ after) := by
  rw [spliceAfter, if_neg hne, List.flatMap_append, List.flatMap_cons, if_pos rfl,
    flatMap_ite_of_notMem hbefore, flatMap_ite_of_notMem hafter, List.cons_append]

theorem spliceBefore_split {before after : List α} (hne : place ≠ list) (hbefore : place ∉ before)
    (hafter : place ∉ after) :
    spliceBefore list place nodes (before ++ place :: after) =
      before ++ nodes ++ place :: after := by
  rw [spliceBefore, if_neg hne, List.flatMap_append, List.flatMap_cons, if_pos rfl,
    flatMap_ite_of_notMem hbefore, flatMap_ite_of_notMem hafter, List.append_assoc,
    List.append_assoc, List.singleton_append]

theorem spliceAfter_nil : spliceAfter list place [] xs = xs := by
  unfold spliceAfter
  split
  · rfl
  · simp only [ite_self, List.flatMap_singleton']

theorem spliceBefore_nil : spliceBefore list place [] xs = xs := by
  unfold spliceBefore
  split
  · exact List.append_nil xs
  · simp only [List.nil_append, ite_self, List.flatMap_singleton']

theorem spliceAfter_perm (hnodup : (list :: xs).Nodup) (hplace : place ∈ list :: xs) :
    (spliceAfter list place nodes xs).Perm (nodes ++ xs) := by
  by_cases heq : place = list
  · rw [spliceAfter, if_pos heq]
  · obtain ⟨before, after, rfl, hbefore, hafter⟩ := exists_split hnodup hplace heq
    rw [spliceAfter_split heq hbefore hafter]
    have hswap : (nodes ++ (before ++ place :: after)).Perm
        (before ++ place :: after ++ nodes) := List.perm_append_comm
    refine List.Perm.trans ?_ hswap.symm
    rw [List.append_assoc, List.cons_append]
    exact (List.perm_append_comm.cons place).append_left before

theorem spliceBefore_perm (hnodup : (list :: xs).Nodup) (hplace : place ∈ list :: xs) :
    (spliceBefore list place nodes xs).Perm (nodes ++ xs) := by
  by_cases heq : place = list
  · rw [spliceBefore, if_pos heq]
    exact List.perm_append_comm
  · obtain ⟨before, after, rfl, hbefore, hafter⟩ := exists_split hnodup hplace heq
    rw [spliceBefore_split heq hbefore hafter, ← List.append_assoc nodes]
    exact List.perm_append_comm.append_right _

/-- What is true of the ring read from the place on is true of the whole. -/
theorem Ring.spliceAfter (h : Ring prev next list xs) (hnodup : (list :: xs).Nodup)
    (hplace : place ∈ list :: xs)
    (hop : ∀ ys, Ring prev next place ys → (place :: ys).Perm (list :: xs) →
      Ring prev' next' place (nodes ++ ys)) :
    Ring prev' next' list (spliceAfter list place nodes xs) := by
  by_cases heq : place = list
  · subst heq
    rw [Lib.spliceAfter, if_pos rfl]
    exact hop xs h (List.Perm.refl _)
  · obtain ⟨before, after, rfl, hbefore, hafter⟩ := exists_split hnodup hplace heq
    have hnew := hop _ h.rotate (@List.perm_append_comm _ (place :: after) _)
    rw [spliceAfter_split heq hbefore hafter]
    rw [← List.append_assoc] at hnew
    exact hnew.rotate

theorem Ring.spliceBefore (h : Ring prev next list xs) (hnodup : (list :: xs).Nodup)
    (hplace : place ∈ list :: xs)
    (hop : ∀ ys, Ring prev next place ys → (place :: ys).Perm (list :: xs) →
      Ring prev' next' place (ys ++ nodes)) :
    Ring prev' next' list (spliceBefore list place nodes xs) := by
  by_cases heq : place = list
  · subst heq
    rw [Lib.spliceBefore, if_pos rfl]
    exact hop xs h (List.Perm.refl _)
  · obtain ⟨before, after, rfl, hbefore, hafter⟩ := exists_split hnodup hplace heq
    have hnew := hop _ h.rotate (@List.perm_append_comm _ (place :: after) _)
    rw [spliceBefore_split heq hbefore hafter]
    rw [List.append_assoc, List.cons_append] at hnew
    exact hnew.rotate

/-- A node other than the first goes out of the ring. -/
theorem Ring.erase (h : Ring prev next list xs) (hnodup : (list :: xs).Nodup) (hplace : place ∈ xs)
    (hnext : ∀ y, y ≠ prev place → next' y = next y)
    (hprev : ∀ y, y ≠ next place → prev' y = prev y)
    (hlast : next' (prev place) = next place) (hfirst : prev' (next place) = prev place) :
    Ring prev' next' list (xs.erase place) := by
  have hne : place ≠ list := ne_of_mem_of_not_mem hplace (List.nodup_cons.mp hnodup).1
  obtain ⟨before, after, rfl, hbefore, -⟩ :=
    exists_split hnodup (List.mem_cons_of_mem _ hplace) hne
  have hperm : (place :: (after ++ list :: before)).Perm (list :: (before ++ place :: after)) :=
    @List.perm_append_comm _ (place :: after) _
  have hrotated := hperm.nodup_iff.mpr hnodup
  have hring := h.rotate
  rw [List.erase_append_right _ hbefore, List.erase_cons_head]
  cases after with
  | nil =>
    have hfirstEq : next place = list := hring.1
    rw [hfirstEq] at hprev hlast hfirst
    rw [List.append_nil]
    refine hring.unlink hrotated (fun y _ => hnext y) (fun y hy => hprev y ?_) hlast hfirst
    exact ne_of_mem_of_not_mem hy (List.nodup_cons.mp (List.nodup_cons.mp hrotated).2).1
  | cons y after =>
    have hfirstEq : next place = y := hring.1
    rw [hfirstEq] at hprev hlast hfirst
    refine (hring.unlink hrotated (fun y _ => hnext y) (fun z hz => hprev z ?_) hlast hfirst).rotate
    exact ne_of_mem_of_not_mem hz (List.nodup_cons.mp (List.nodup_cons.mp hrotated).2).1

end

end Cuw3.Lib
