/-
  The intrusive lists are sequences.

  The lists in a memory are rings, each with its terminator-node, and no node is in two of them
  (`Holds`).  For operations on entries that are what their description says (`ListOps.Lawful`),
  each function does to the sequence of one list what its name says, whatever nodes are neighbours
  there; `execCalls_refines` is the result for every sequence of calls.
-/
import Cuw3.Base.List
import Cuw3.Lib.Rings
import Mathlib.Data.Fintype.Basic

namespace Cuw3

open Lib

variable {σ ν : Type}

/-! ### The links after a call -/

section

variable [DecidableEq ν]

/-- What the operations on entries have to be: the two links of a node are set apart. -/
structure ListOps.Lawful (ops : ListOps σ ν) : Prop where
  getPrev_setPrev : ∀ memory node prev, ops.getPrev (ops.setPrev memory node prev) =
    Function.update (ops.getPrev memory) node prev
  getNext_setPrev : ∀ memory node prev, ops.getNext (ops.setPrev memory node prev) =
    ops.getNext memory
  getPrev_setNext : ∀ memory node next, ops.getPrev (ops.setNext memory node next) =
    ops.getPrev memory
  getNext_setNext : ∀ memory node next, ops.getNext (ops.setNext memory node next) =
    Function.update (ops.getNext memory) node next
  selfEquals_iff : ∀ memory node, ops.selfEquals memory node = true ↔
    ops.getPrev memory node = node ∧ ops.getNext memory node = node

theorem defaultListOps_lawful : (defaultListOps ν).Lawful where
  getPrev_setPrev _ _ _ := rfl
  getNext_setPrev _ _ _ := rfl
  getPrev_setNext _ _ _ := rfl
  getNext_setNext _ _ _ := rfl
  selfEquals_iff entries node := by
    show (entries.prev node == node && entries.next node == node) = true ↔ _
    rw [Bool.and_eq_true, beq_iff_eq, beq_iff_eq]
    rfl

variable {ops : ListOps σ ν} {memory memory' : σ} {a b c list node place x : ν}
  {xs ys cs nodes : List ν}

/-- The links of a node are the same in both memories. -/
def SameLinks (ops : ListOps σ ν) (memory memory' : σ) (node : ν) : Prop :=
  ops.getPrev memory' node = ops.getPrev memory node ∧
    ops.getNext memory' node = ops.getNext memory node

variable (hops : ops.Lawful)

include hops

theorem getPrev_listInsertAfter : ops.getPrev (listInsertAfter ops memory a node) =
    Function.update (Function.update (ops.getPrev memory) node a) (ops.getNext memory a) node := by
  unfold listInsertAfter
  simp only [hops.getPrev_setNext, hops.getPrev_setPrev]

theorem getNext_listInsertAfter : ops.getNext (listInsertAfter ops memory a node) =
    Function.update (Function.update (ops.getNext memory) node (ops.getNext memory a)) a node := by
  unfold listInsertAfter
  simp only [hops.getNext_setNext, hops.getNext_setPrev]

theorem getPrev_listErase : ops.getPrev (listErase ops memory node) =
    Function.update (ops.getPrev memory) (ops.getNext memory node) (ops.getPrev memory node) := by
  unfold listErase
  simp only [hops.getPrev_setNext, hops.getPrev_setPrev]

theorem getNext_listErase : ops.getNext (listErase ops memory node) =
    Function.update (ops.getNext memory) (ops.getPrev memory node) (ops.getNext memory node) := by
  unfold listErase
  simp only [hops.getNext_setNext, hops.getNext_setPrev]

theorem getPrev_listInsertChainAfter (hne : listEmpty ops memory c = false) :
    ops.getPrev (listInsertChainAfter ops memory a c) =
      Function.update (Function.update (Function.update (ops.getPrev memory)
        (ops.getNext memory c) a) (ops.getNext memory a) (ops.getPrev memory c)) c c := by
  unfold listInsertChainAfter listReset listInit
  simp only [hne, Bool.false_eq_true, if_false, hops.getPrev_setNext, hops.getPrev_setPrev]

theorem getNext_listInsertChainAfter (hne : listEmpty ops memory c = false) :
    ops.getNext (listInsertChainAfter ops memory a c) =
      Function.update (Function.update (Function.update (ops.getNext memory)
        a (ops.getNext memory c)) (ops.getPrev memory c) (ops.getNext memory a)) c c := by
  unfold listInsertChainAfter listReset listInit
  simp only [hne, Bool.false_eq_true, if_false, hops.getNext_setNext, hops.getNext_setPrev]

/-! ### One ring -/

/-- `list_empty` is true exactly of a ring of one node. -/
theorem listEmpty_iff (h : Ring (ops.getPrev memory) (ops.getNext memory) list xs)
    (hnodup : (list :: xs).Nodup) : listEmpty ops memory list = true ↔ xs = [] := by
  rw [← h.self_iff hnodup]
  exact hops.selfEquals_iff memory list

/-- The new node comes between the two. -/
theorem listInsertAfter_path (ha : node ≠ a) (hb : node ≠ ops.getNext memory a) :
    Path (ops.getPrev (listInsertAfter ops memory a node))
      (ops.getNext (listInsertAfter ops memory a node)) a [node] (ops.getNext memory a) := by
  rw [getPrev_listInsertAfter hops, getNext_listInsertAfter hops]
  refine ⟨?_, ?_, ?_, ?_⟩
  · rw [Function.update_self]
  · rw [Function.update_of_ne hb, Function.update_self]
  · rw [Function.update_of_ne ha, Function.update_self]
  · rw [Function.update_self]

theorem listInsertAfter_sameLinks (hx : x ≠ node) :
    (x ≠ ops.getNext memory a → ops.getPrev (listInsertAfter ops memory a node) x =
      ops.getPrev memory x) ∧
    (x ≠ a → ops.getNext (listInsertAfter ops memory a node) x = ops.getNext memory x) := by
  rw [getPrev_listInsertAfter hops, getNext_listInsertAfter hops]
  constructor
  · intro hne
    rw [Function.update_of_ne hne, Function.update_of_ne hx]
  · intro hne
    rw [Function.update_of_ne hne, Function.update_of_ne hx]

/-- Nodes outside of the ring keep their links. -/
theorem listInsertAfter_frame (h : Ring (ops.getPrev memory) (ops.getNext memory) list xs)
    (hplace : place ∈ list :: xs) (hx : x ∉ list :: xs) (hnode : x ≠ node) :
    SameLinks ops memory (listInsertAfter ops memory place node) x := by
  have hnext := (h.mem_of_mem hplace).2
  obtain ⟨hprevSame, hnextSame⟩ := listInsertAfter_sameLinks hops hnode
  exact ⟨hprevSame (ne_of_mem_of_not_mem hnext hx).symm,
    hnextSame (ne_of_mem_of_not_mem hplace hx).symm⟩

theorem listInsertAfter_ring (h : Ring (ops.getPrev memory) (ops.getNext memory) a xs)
    (hnodup : (a :: xs).Nodup) (hnode : node ∉ a :: xs) :
    Ring (ops.getPrev (listInsertAfter ops memory a node))
      (ops.getNext (listInsertAfter ops memory a node)) a ([node] ++ xs) := by
  have hne : ∀ x ∈ a :: xs, x ≠ node := fun x hx => ne_of_mem_of_not_mem hx hnode
  apply h.splice hnodup
  · exact listInsertAfter_path hops (hne a List.mem_cons_self).symm (hne _ h.next_mem).symm
  · intro x hx
    have hxa : x ≠ a := ne_of_mem_of_not_mem hx (List.nodup_cons.mp hnodup).1
    exact (listInsertAfter_sameLinks hops (hne x (List.mem_cons_of_mem _ hx))).2 hxa
  · intro x hx hxb
    exact (listInsertAfter_sameLinks hops (hne x hx)).1 hxb

theorem listInsertBefore_ring (h : Ring (ops.getPrev memory) (ops.getNext memory) b xs)
    (hnodup : (b :: xs).Nodup) (hnode : node ∉ b :: xs) :
    Ring (ops.getPrev (listInsertBefore ops memory b node))
      (ops.getNext (listInsertBefore ops memory b node)) b (xs ++ [node]) := by
  have hne : ∀ x ∈ b :: xs, x ≠ node := fun x hx => ne_of_mem_of_not_mem hx hnode
  have hnext : ops.getNext memory (ops.getPrev memory b) = b := h.next_prev
  have hb : node ≠ ops.getNext memory (ops.getPrev memory b) := by
    rw [hnext]
    exact (hne b List.mem_cons_self).symm
  have hpath := listInsertAfter_path hops (hne _ h.prev_mem).symm hb
  rw [hnext] at hpath
  unfold listInsertBefore
  apply h.splice_before hnodup hpath
  · intro x hx hxp
    exact (listInsertAfter_sameLinks hops (hne x hx)).2 hxp
  · intro x hx
    have hxb : x ≠ b := ne_of_mem_of_not_mem hx (List.nodup_cons.mp hnodup).1
    refine (listInsertAfter_sameLinks hops (hne x (List.mem_cons_of_mem _ hx))).1 ?_
    rw [hnext]
    exact hxb

theorem listErase_ring (h : Ring (ops.getPrev memory) (ops.getNext memory) list xs)
    (hnodup : (list :: xs).Nodup) (hnode : node ∈ xs) :
    Ring (ops.getPrev (listErase ops memory node)) (ops.getNext (listErase ops memory node)) list
      (xs.erase node) := by
  rw [getPrev_listErase hops, getNext_listErase hops]
  apply h.erase hnodup hnode
  · exact fun y hy => Function.update_of_ne hy ..
  · exact fun y hy => Function.update_of_ne hy ..
  · exact Function.update_self ..
  · exact Function.update_self ..

section

variable (hc : Ring (ops.getPrev memory) (ops.getNext memory) c cs) (hcn : (c :: cs).Nodup)
  (hne : cs ≠ [])

include hc hcn hne

theorem listEmpty_eq_false : listEmpty ops memory c = false := by
  rw [← Bool.not_eq_true, listEmpty_iff hops hc hcn]
  exact hne

/-- The nodes of the chain come between the two nodes, which are in another ring. -/
theorem listInsertChainAfter_path (ha : a ∉ c :: cs) (hb : ops.getNext memory a ∉ c :: cs) :
    Path (ops.getPrev (listInsertChainAfter ops memory a c))
      (ops.getNext (listInsertChainAfter ops memory a c)) a cs (ops.getNext memory a) := by
  have hempty := listEmpty_eq_false hops hc hcn hne
  have htail := hc.prev_mem
  obtain ⟨x, rest, rfl⟩ := List.exists_cons_of_ne_nil hne
  obtain ⟨hfirst, hback, hpath⟩ := hc
  obtain ⟨hcnot, hrest⟩ := List.nodup_cons.mp hcn
  have hxnot : x ∉ rest := (List.nodup_cons.mp hrest).1
  have hout : ∀ y ∈ x :: rest, y ≠ c ∧ y ≠ a ∧ y ≠ ops.getNext memory a := fun y hy =>
    ⟨ne_of_mem_of_not_mem hy hcnot, ne_of_mem_of_not_mem (List.mem_cons_of_mem c hy) ha,
      ne_of_mem_of_not_mem (List.mem_cons_of_mem c hy) hb⟩
  have hac : a ≠ c := fun heq => ha (heq ▸ List.mem_cons_self)
  have hbc : ops.getNext memory a ≠ c := fun heq => hb (heq ▸ List.mem_cons_self)
  have hlast : ops.getPrev memory c ∈ x :: rest := by
    rw [hpath.prev_eq]
    exact List.getLast_mem _
  have haTail : a ≠ ops.getPrev memory c := fun heq => (hout _ hlast).2.1 heq.symm
  rw [getPrev_listInsertChainAfter hops hempty, getNext_listInsertChainAfter hops hempty, hfirst]
  refine ⟨?_, ?_, hpath.retarget hrest ?_ ?_ ?_ ?_⟩
  · rw [Function.update_of_ne hac, Function.update_of_ne haTail, Function.update_self]
  · obtain ⟨hxc, -, hxb⟩ := hout x List.mem_cons_self
    rw [Function.update_of_ne hxc, Function.update_of_ne hxb, Function.update_self]
  · intro y hy hyTail
    obtain ⟨hyc, hya, -⟩ := hout y hy
    rw [Function.update_of_ne hyc, Function.update_of_ne hyTail, Function.update_of_ne hya]
  · intro y hy
    obtain ⟨hyc, -, hyb⟩ := hout y (List.mem_cons_of_mem _ hy)
    have hyx : y ≠ x := ne_of_mem_of_not_mem hy hxnot
    rw [Function.update_of_ne hyc, Function.update_of_ne hyb, Function.update_of_ne hyx]
  · rw [Function.update_of_ne (hout _ hlast).1, Function.update_self]
  · rw [Function.update_of_ne hbc, Function.update_self]

theorem listInsertChainAfter_sameLinks (hx : x ∉ c :: cs) :
    (x ≠ ops.getNext memory a → ops.getPrev (listInsertChainAfter ops memory a c) x =
      ops.getPrev memory x) ∧
    (x ≠ a → ops.getNext (listInsertChainAfter ops memory a c) x = ops.getNext memory x) := by
  have hempty := listEmpty_eq_false hops hc hcn hne
  have hxc : x ≠ c := fun heq => hx (heq ▸ List.mem_cons_self)
  have hxTail : x ≠ ops.getPrev memory c := fun heq => hx (heq ▸ hc.prev_mem)
  have hxHead : x ≠ ops.getNext memory c := fun heq => hx (heq ▸ hc.next_mem)
  rw [getPrev_listInsertChainAfter hops hempty, getNext_listInsertChainAfter hops hempty]
  constructor
  · intro hxb
    rw [Function.update_of_ne hxc, Function.update_of_ne hxb, Function.update_of_ne hxHead]
  · intro hxa
    rw [Function.update_of_ne hxc, Function.update_of_ne hxTail, Function.update_of_ne hxa]

theorem listInsertChainAfter_frame (h : Ring (ops.getPrev memory) (ops.getNext memory) list xs)
    (hplace : place ∈ list :: xs) (hx : x ∉ list :: xs) (hxc : x ∉ c :: cs) :
    SameLinks ops memory (listInsertChainAfter ops memory place c) x := by
  have hnext := (h.mem_of_mem hplace).2
  obtain ⟨hprevSame, hnextSame⟩ := listInsertChainAfter_sameLinks hops hc hcn hne hxc
  exact ⟨hprevSame (ne_of_mem_of_not_mem hnext hx).symm,
    hnextSame (ne_of_mem_of_not_mem hplace hx).symm⟩

/-- The chain is left empty. -/
theorem listInsertChainAfter_chain :
    Ring (ops.getPrev (listInsertChainAfter ops memory a c))
      (ops.getNext (listInsertChainAfter ops memory a c)) c [] := by
  have hempty := listEmpty_eq_false hops hc hcn hne
  rw [getPrev_listInsertChainAfter hops hempty, getNext_listInsertChainAfter hops hempty]
  exact ⟨Function.update_self .., Function.update_self ..⟩

theorem listInsertChainAfter_ring (h : Ring (ops.getPrev memory) (ops.getNext memory) a xs)
    (hnodup : (a :: xs).Nodup) (hdisjoint : ∀ x ∈ a :: xs, x ∉ c :: cs) :
    Ring (ops.getPrev (listInsertChainAfter ops memory a c))
      (ops.getNext (listInsertChainAfter ops memory a c)) a (cs ++ xs) := by
  apply h.splice hnodup
  · exact listInsertChainAfter_path hops hc hcn hne (hdisjoint a List.mem_cons_self)
      (hdisjoint _ h.next_mem)
  · intro x hx
    have hxa : x ≠ a := ne_of_mem_of_not_mem hx (List.nodup_cons.mp hnodup).1
    have hxc := hdisjoint x (List.mem_cons_of_mem _ hx)
    exact (listInsertChainAfter_sameLinks hops hc hcn hne hxc).2 hxa
  · intro x hx hxb
    exact (listInsertChainAfter_sameLinks hops hc hcn hne (hdisjoint x hx)).1 hxb

theorem listInsertChainBefore_ring (h : Ring (ops.getPrev memory) (ops.getNext memory) b xs)
    (hnodup : (b :: xs).Nodup) (hdisjoint : ∀ x ∈ b :: xs, x ∉ c :: cs) :
    Ring (ops.getPrev (listInsertChainBefore ops memory b c))
      (ops.getNext (listInsertChainBefore ops memory b c)) b (xs ++ cs) := by
  have hnext : ops.getNext memory (ops.getPrev memory b) = b := h.next_prev
  have hb : ops.getNext memory (ops.getPrev memory b) ∉ c :: cs := by
    rw [hnext]
    exact hdisjoint b List.mem_cons_self
  have hpath := listInsertChainAfter_path hops hc hcn hne (hdisjoint _ h.prev_mem) hb
  rw [hnext] at hpath
  unfold listInsertChainBefore
  apply h.splice_before hnodup hpath
  · intro x hx hxp
    exact (listInsertChainAfter_sameLinks hops hc hcn hne (hdisjoint x hx)).2 hxp
  · intro x hx
    have hxb : x ≠ b := ne_of_mem_of_not_mem hx (List.nodup_cons.mp hnodup).1
    have hxc := hdisjoint x (List.mem_cons_of_mem _ hx)
    refine (listInsertChainAfter_sameLinks hops hc hcn hne hxc).1 ?_
    rw [hnext]
    exact hxb

end

end

/-! ### All lists -/

/-- The sequence of each list, by its terminator-node. -/
abbrev Sequences (ν : Type) : Type := ν → Option (List ν)

section

variable [DecidableEq ν]

/-- What a call does to the sequences, and the node it returns. -/
def ListCall.spec (lists : Sequences ν) : ListCall ν → Sequences ν × Option ν
  | insertAfter list after node =>
    (Function.update lists list ((lists list).map (spliceAfter list after [node])), none)
  | insertBefore list before node =>
    (Function.update lists list ((lists list).map (spliceBefore list before [node])), none)
  | pushHead list node => (Function.update lists list ((lists list).map (node :: ·)), none)
  | pushTail list node => (Function.update lists list ((lists list).map (· ++ [node])), none)
  | erase list node => (Function.update lists list ((lists list).map (·.erase node)), none)
  | popHead list =>
    (Function.update lists list ((lists list).map List.tail), (lists list).bind List.head?)
  | popTail list =>
    (Function.update lists list ((lists list).map List.dropLast), (lists list).bind List.getLast?)
  | insertChainAfter list node chain =>
    let nodes := (lists chain).getD []
    (Function.update (Function.update lists list ((lists list).map (spliceAfter list node nodes)))
      chain (some []), none)
  | insertChainBefore list node chain =>
    let nodes := (lists chain).getD []
    (Function.update (Function.update lists list ((lists list).map (spliceBefore list node nodes)))
      chain (some []), none)

/-- One call after the other. -/
def specCalls : Sequences ν → List (ListCall ν) → Sequences ν × List (Option ν)
  | lists, [] => (lists, [])
  | lists, call :: calls =>
    let (lists, result) := call.spec lists
    (specCalls lists calls).map id (result :: ·)

end

/-- The node is in the list, or is its terminator-node. -/
def InList (lists : Sequences ν) (list node : ν) : Prop :=
  ∃ xs, lists list = some xs ∧ node ∈ list :: xs

/-- The node is in no list. -/
def Free (lists : Sequences ν) (node : ν) : Prop := ∀ list, ¬InList lists list node

/-- What a call expects of the lists. -/
def ListCall.Allowed (lists : Sequences ν) : ListCall ν → Prop
  | insertAfter list place node => InList lists list place ∧ Free lists node
  | insertBefore list place node => InList lists list place ∧ Free lists node
  | pushHead list node => (lists list).isSome ∧ Free lists node
  | pushTail list node => (lists list).isSome ∧ Free lists node
  | erase list node => InList lists list node ∧ node ≠ list
  | popHead list => ∃ xs, lists list = some xs ∧ xs ≠ []
  | popTail list => ∃ xs, lists list = some xs ∧ xs ≠ []
  | insertChainAfter list node chain =>
    InList lists list node ∧ (lists chain).isSome ∧ chain ≠ list
  | insertChainBefore list node chain =>
    InList lists list node ∧ (lists chain).isSome ∧ chain ≠ list

/-- Every call is allowed when it is made. -/
def AllowedCalls [DecidableEq ν] : Sequences ν → List (ListCall ν) → Prop
  | _, [] => True
  | lists, call :: calls => call.Allowed lists ∧ AllowedCalls (call.spec lists).1 calls

/-- The lists in the memory are these sequences: each is a ring, and no node is in two of them. -/
structure Holds (ops : ListOps σ ν) (memory : σ) (lists : Sequences ν) : Prop where
  ring : ∀ {list xs}, lists list = some xs →
    Ring (ops.getPrev memory) (ops.getNext memory) list xs
  nodup : ∀ {list xs}, lists list = some xs → (list :: xs).Nodup
  unique : ∀ {list list' node}, InList lists list node → InList lists list' node → list = list'

section

variable [DecidableEq ν] {lists : Sequences ν} {list node : ν}

instance : Decidable (InList lists list node) :=
  decidable_of_iff (node ∈ ((lists list).map (list :: ·)).getD []) <| by
    unfold InList
    cases lists list with
    | none => simp
    | some xs => simp

instance [Fintype ν] : Decidable (Free lists node) :=
  inferInstanceAs (Decidable (∀ list, ¬InList lists list node))

instance decidableNonempty : Decidable (∃ xs, lists list = some xs ∧ xs ≠ []) :=
  decidable_of_iff ((lists list).getD [] ≠ []) <| by
    cases lists list with
    | none => simp
    | some xs => simp

instance [Fintype ν] : (call : ListCall ν) → Decidable (call.Allowed lists)
  | .insertAfter list place _ => inferInstanceAs (Decidable (InList lists list place ∧ _))
  | .insertBefore list place _ => inferInstanceAs (Decidable (InList lists list place ∧ _))
  | .pushHead list node => inferInstanceAs (Decidable ((lists list).isSome ∧ Free lists node))
  | .pushTail list node => inferInstanceAs (Decidable ((lists list).isSome ∧ Free lists node))
  | .erase list node => inferInstanceAs (Decidable (InList lists list node ∧ _))
  | .popHead list => inferInstanceAs (Decidable (∃ xs, lists list = some xs ∧ xs ≠ []))
  | .popTail list => inferInstanceAs (Decidable (∃ xs, lists list = some xs ∧ xs ≠ []))
  | .insertChainAfter list node _ => inferInstanceAs (Decidable (InList lists list node ∧ _))
  | .insertChainBefore list node _ => inferInstanceAs (Decidable (InList lists list node ∧ _))

instance AllowedCalls.decidable [Fintype ν] : (lists : Sequences ν) → (calls : List (ListCall ν)) →
    Decidable (AllowedCalls lists calls)
  | _, [] => isTrue trivial
  | lists, call :: calls =>
    have := AllowedCalls.decidable (call.spec lists).1 calls
    inferInstanceAs (Decidable (call.Allowed lists ∧ AllowedCalls (call.spec lists).1 calls))

end

section

variable {ops : ListOps σ ν} {memory memory' : σ} {lists : Sequences ν}
  {list chain node place x : ν} {xs xs' cs nodes : List ν}

theorem Holds.notMem_of_inList (h : Holds ops memory lists) (hlist : lists list = some xs)
    {other : ν} (hne : other ≠ list) (hx : InList lists other x) : x ∉ list :: xs :=
  fun hmem => hne (h.unique hx ⟨xs, hlist, hmem⟩)

variable [DecidableEq ν]

theorem InList.of_update {other : ν} {value : Option (List ν)}
    (h : InList (Function.update lists list value) other x) (hne : other ≠ list) :
    InList lists other x := by
  obtain ⟨ys, hys, hx⟩ := h
  rw [Function.update_of_ne hne] at hys
  exact ⟨ys, hys, hx⟩

theorem InList.of_update_self (h : InList (Function.update lists list (some xs)) list x) :
    x ∈ list :: xs := by
  obtain ⟨ys, hys, hx⟩ := h
  rw [Function.update_self, Option.some_inj] at hys
  rwa [hys]

/-- One list changes: its nodes after the call are those before it and free ones. -/
theorem Holds.update (h : Holds ops memory lists)
    (hring : Ring (ops.getPrev memory') (ops.getNext memory') list xs)
    (hnodup : (list :: xs).Nodup)
    (hnodes : ∀ x ∈ list :: xs, InList lists list x ∨ Free lists x)
    (hframe : ∀ other x, other ≠ list → InList lists other x → SameLinks ops memory memory' x) :
    Holds ops memory' (Function.update lists list (some xs)) := by
  -- a node of the new list is in no other one
  have hother : ∀ other x, other ≠ list → InList lists other x → x ∉ list :: xs := by
    intro other x hne hx hmem
    rcases hnodes x hmem with hin | hfree
    · exact hne (h.unique hx hin)
    · exact hfree other hx
  constructor
  · intro other ys hys
    by_cases heq : other = list
    · subst heq
      rw [Function.update_self, Option.some_inj] at hys
      rw [← hys]
      exact hring
    · rw [Function.update_of_ne heq] at hys
      have hsame : ∀ x ∈ other :: ys, SameLinks ops memory memory' x := fun x hx =>
        hframe other x heq ⟨ys, hys, hx⟩
      exact (h.ring hys).congr (fun x hx => (hsame x hx).2) fun x hx => (hsame x hx).1
  · intro other ys hys
    by_cases heq : other = list
    · subst heq
      rw [Function.update_self, Option.some_inj] at hys
      rw [← hys]
      exact hnodup
    · rw [Function.update_of_ne heq] at hys
      exact h.nodup hys
  · intro list1 list2 x h1 h2
    by_cases heq1 : list1 = list
    · subst heq1
      by_cases heq2 : list2 = list1
      · exact heq2.symm
      · exact absurd h1.of_update_self (hother list2 x heq2 (h2.of_update heq2))
    · by_cases heq2 : list2 = list
      · subst heq2
        exact absurd h2.of_update_self (hother list1 x heq1 (h1.of_update heq1))
      · exact h.unique (h1.of_update heq1) (h2.of_update heq2)

/-- A list is forgotten. -/
theorem Holds.forget (h : Holds ops memory lists) (list : ν) :
    Holds ops memory (Function.update lists list none) := by
  have hne : ∀ {other ys}, Function.update lists list none other = some ys → other ≠ list := by
    rintro other ys hys rfl
    rw [Function.update_self] at hys
    cases hys
  constructor
  · intro other ys hys
    have hother := hne hys
    rw [Function.update_of_ne hother] at hys
    exact h.ring hys
  · intro other ys hys
    have hother := hne hys
    rw [Function.update_of_ne hother] at hys
    exact h.nodup hys
  · rintro list1 list2 x ⟨ys1, hys1, hx1⟩ ⟨ys2, hys2, hx2⟩
    have h1 : InList lists list1 x := InList.of_update ⟨ys1, hys1, hx1⟩ (hne hys1)
    have h2 : InList lists list2 x := InList.of_update ⟨ys2, hys2, hx2⟩ (hne hys2)
    exact h.unique h1 h2

/-- Free nodes come into a list. -/
theorem Holds.replace (h : Holds ops memory lists) (hlist : lists list = some xs)
    (hring : Ring (ops.getPrev memory') (ops.getNext memory') list xs')
    (hperm : xs'.Perm (nodes ++ xs)) (hnodup : nodes.Nodup) (hfree : ∀ x ∈ nodes, Free lists x)
    (hframe : ∀ x, x ∉ list :: xs → x ∉ nodes → (∃ other, InList lists other x) →
      SameLinks ops memory memory' x) :
    Holds ops memory' (Function.update lists list (some xs')) := by
  have hlistNodup := h.nodup hlist
  have hdisjoint : ∀ x ∈ nodes, x ∉ list :: xs := fun x hx hmem =>
    hfree x hx list ⟨xs, hlist, hmem⟩
  apply h.update hring
  · have hcons : (list :: xs').Perm (nodes ++ list :: xs) :=
      (hperm.cons list).trans List.perm_middle.symm
    rw [hcons.nodup_iff, List.nodup_append]
    exact ⟨hnodup, hlistNodup, fun x hx y hy heq => hdisjoint x hx (heq ▸ hy)⟩
  · intro x hx
    rcases List.mem_cons.mp hx with rfl | hx
    · exact Or.inl ⟨xs, hlist, List.mem_cons_self⟩
    · rcases List.mem_append.mp (hperm.mem_iff.mp hx) with hx | hx
      · exact Or.inr (hfree x hx)
      · exact Or.inl ⟨xs, hlist, List.mem_cons_of_mem _ hx⟩
  · intro other x hne hx
    exact hframe x (h.notMem_of_inList hlist hne hx) (fun hmem => hfree x hmem other hx)
      ⟨other, hx⟩

/-! ### One call -/

variable (hops : ops.Lawful)

include hops

theorem Holds.insertAfter (h : Holds ops memory lists) (hlist : lists list = some xs)
    (hplace : place ∈ list :: xs) (hfree : Free lists node) :
    Holds ops (listInsertAfter ops memory place node)
      (Function.update lists list (some (spliceAfter list place [node] xs))) := by
  have hnodup := h.nodup hlist
  have hnode : node ∉ list :: xs := fun hmem => hfree list ⟨xs, hlist, hmem⟩
  apply h.replace hlist
  case hring =>
    apply (h.ring hlist).spliceAfter hnodup hplace
    intro ys hys hperm
    exact listInsertAfter_ring hops hys (hperm.nodup_iff.mpr hnodup) (mt hperm.mem_iff.mp hnode)
  case hperm => exact spliceAfter_perm hnodup hplace
  case hnodup => exact List.pairwise_singleton _ node
  case hfree => simpa using hfree
  case hframe =>
    rintro x hx hxn -
    exact listInsertAfter_frame hops (h.ring hlist) hplace hx (List.ne_of_not_mem_cons hxn)

theorem Holds.insertBefore (h : Holds ops memory lists) (hlist : lists list = some xs)
    (hplace : place ∈ list :: xs) (hfree : Free lists node) :
    Holds ops (listInsertBefore ops memory place node)
      (Function.update lists list (some (spliceBefore list place [node] xs))) := by
  have hnodup := h.nodup hlist
  have hnode : node ∉ list :: xs := fun hmem => hfree list ⟨xs, hlist, hmem⟩
  apply h.replace hlist
  case hring =>
    apply (h.ring hlist).spliceBefore hnodup hplace
    intro ys hys hperm
    exact listInsertBefore_ring hops hys (hperm.nodup_iff.mpr hnodup) (mt hperm.mem_iff.mp hnode)
  case hperm => exact spliceBefore_perm hnodup hplace
  case hnodup => exact List.pairwise_singleton _ node
  case hfree => simpa using hfree
  case hframe =>
    rintro x hx hxn -
    have hprevMem := ((h.ring hlist).mem_of_mem hplace).1
    exact listInsertAfter_frame hops (h.ring hlist) hprevMem hx (List.ne_of_not_mem_cons hxn)

theorem Holds.erase (h : Holds ops memory lists) (hlist : lists list = some xs)
    (hnode : node ∈ xs) :
    Holds ops (listErase ops memory node) (Function.update lists list (some (xs.erase node))) := by
  have hnodup := h.nodup hlist
  have hsub : (xs.erase node).Sublist xs := List.erase_sublist
  obtain ⟨hprevMem, hnextMem⟩ := (h.ring hlist).mem_of_mem (List.mem_cons_of_mem list hnode)
  apply h.update
  case hring => exact listErase_ring hops (h.ring hlist) hnodup hnode
  case hnodup => exact hnodup.sublist (hsub.cons_cons list)
  case hnodes => exact fun x hx => Or.inl ⟨xs, hlist, (hsub.cons_cons list).mem hx⟩
  case hframe =>
    intro other x hne hx
    have hout := h.notMem_of_inList hlist hne hx
    constructor
    · rw [getPrev_listErase hops]
      exact Function.update_of_ne (ne_of_mem_of_not_mem hnextMem hout).symm ..
    · rw [getNext_listErase hops]
      exact Function.update_of_ne (ne_of_mem_of_not_mem hprevMem hout).symm ..

omit hops in
theorem Free.update (hfree : Free lists x) (hx : x ∉ list :: xs) :
    Free (Function.update lists list (some xs)) x := by
  intro other hother
  by_cases heq : other = list
  · subst heq
    exact hx hother.of_update_self
  · exact hfree other (hother.of_update heq)

omit hops in
/-- Without a list its nodes are free. -/
theorem Holds.free_of_forget (h : Holds ops memory lists) (hx : InList lists list x) :
    Free (Function.update lists list none) x := by
  intro other hother
  by_cases heq : other = list
  · subst heq
    obtain ⟨ys, hys, -⟩ := hother
    rw [Function.update_self] at hys
    cases hys
  · exact heq (h.unique (hother.of_update heq) hx)

omit hops in
/-- The nodes of a chain go into another list: first the chain is forgotten, so that its nodes are
free, and then it is there again, empty. -/
theorem Holds.replace_chain (h : Holds ops memory lists) (hlist : lists list = some xs)
    (hchain : lists chain = some cs) (hne : chain ≠ list)
    (hring : Ring (ops.getPrev memory') (ops.getNext memory') list xs')
    (hempty : Ring (ops.getPrev memory') (ops.getNext memory') chain [])
    (hperm : xs'.Perm (cs ++ xs))
    (hframe : ∀ x, x ∉ list :: xs → x ∉ chain :: cs → SameLinks ops memory memory' x) :
    Holds ops memory'
      (Function.update (Function.update lists list (some xs')) chain (some [])) := by
  have hlist' : Function.update lists chain none list = some xs := by
    rw [Function.update_of_ne hne.symm, hlist]
  have hnodup := List.nodup_cons.mp (h.nodup hchain)
  have hfree : ∀ x ∈ chain :: cs, Free (Function.update lists chain none) x := fun x hx =>
    h.free_of_forget ⟨cs, hchain, hx⟩
  have hmoved : Holds ops memory'
      (Function.update (Function.update lists chain none) list (some xs')) := by
    apply (h.forget chain).replace hlist' hring hperm hnodup.2
    · exact fun x hx => hfree x (List.mem_cons_of_mem _ hx)
    · rintro x hx hxc ⟨other, hother⟩
      have hxChain : x ≠ chain := by
        rintro rfl
        exact hfree x List.mem_cons_self other hother
      refine hframe x hx fun hmem => ?_
      rcases List.mem_cons.mp hmem with heq | hmem
      · exact hxChain heq
      · exact hxc hmem
  have hout : chain ∉ list :: xs' := by
    intro hmem
    rcases List.mem_cons.mp hmem with heq | hmem
    · exact hne heq
    · rcases List.mem_append.mp (hperm.mem_iff.mp hmem) with hmem | hmem
      · exact hnodup.1 hmem
      · exact hne (h.unique ⟨cs, hchain, List.mem_cons_self⟩
          ⟨xs, hlist, List.mem_cons_of_mem _ hmem⟩)
  have hreset := hmoved.update hempty (List.pairwise_singleton _ chain) (fun x hx => Or.inr ?_)
    fun _ _ _ _ => ⟨rfl, rfl⟩
  · rwa [Function.update_comm hne, Function.update_idem] at hreset
  · rw [List.mem_singleton.mp hx]
    exact (hfree chain List.mem_cons_self).update hout

/-- An empty chain changes nothing. -/
theorem Holds.insertChain_nil (h : Holds ops memory lists) (hlist : lists list = some xs)
    (hchain : lists chain = some []) (place : ν) :
    Holds ops (listInsertChainAfter ops memory place chain)
      (Function.update (Function.update lists list (some xs)) chain (some [])) := by
  have hempty : listEmpty ops memory chain = true :=
    (listEmpty_iff hops (h.ring hchain) (h.nodup hchain)).mpr rfl
  have hsame : Function.update lists list (some xs) = lists := by
    rw [← hlist, Function.update_eq_self]
  have hsame' : Function.update lists chain (some []) = lists := by
    rw [← hchain, Function.update_eq_self]
  unfold listInsertChainAfter
  rw [if_pos hempty, hsame, hsame']
  exact h

theorem Holds.insertChainAfter (h : Holds ops memory lists) (hlist : lists list = some xs)
    (hplace : place ∈ list :: xs) (hchain : lists chain = some cs) (hne : chain ≠ list) :
    Holds ops (listInsertChainAfter ops memory place chain)
      (Function.update (Function.update lists list (some (spliceAfter list place cs xs)))
        chain (some [])) := by
  by_cases hcs : cs = []
  · subst hcs
    rw [spliceAfter_nil]
    exact h.insertChain_nil hops hlist hchain place
  have hnodup := h.nodup hlist
  have hring := h.ring hchain
  have hchainNodup := h.nodup hchain
  have hdisjoint : ∀ x ∈ list :: xs, x ∉ chain :: cs := fun x hx =>
    h.notMem_of_inList hchain hne.symm ⟨xs, hlist, hx⟩
  apply h.replace_chain hlist hchain hne
  case hring =>
    apply (h.ring hlist).spliceAfter hnodup hplace
    intro ys hys hperm
    exact listInsertChainAfter_ring hops hring hchainNodup hcs hys (hperm.nodup_iff.mpr hnodup)
      fun x hx => hdisjoint x (hperm.mem_iff.mp hx)
  case hempty => exact listInsertChainAfter_chain hops hring hchainNodup hcs
  case hperm => exact spliceAfter_perm hnodup hplace
  case hframe =>
    exact fun x => listInsertChainAfter_frame hops hring hchainNodup hcs (h.ring hlist) hplace

theorem Holds.insertChainBefore (h : Holds ops memory lists) (hlist : lists list = some xs)
    (hplace : place ∈ list :: xs) (hchain : lists chain = some cs) (hne : chain ≠ list) :
    Holds ops (listInsertChainBefore ops memory place chain)
      (Function.update (Function.update lists list (some (spliceBefore list place cs xs)))
        chain (some [])) := by
  by_cases hcs : cs = []
  · subst hcs
    rw [spliceBefore_nil]
    exact h.insertChain_nil hops hlist hchain _
  have hnodup := h.nodup hlist
  have hring := h.ring hchain
  have hchainNodup := h.nodup hchain
  have hdisjoint : ∀ x ∈ list :: xs, x ∉ chain :: cs := fun x hx =>
    h.notMem_of_inList hchain hne.symm ⟨xs, hlist, hx⟩
  apply h.replace_chain hlist hchain hne
  case hring =>
    apply (h.ring hlist).spliceBefore hnodup hplace
    intro ys hys hperm
    exact listInsertChainBefore_ring hops hring hchainNodup hcs hys (hperm.nodup_iff.mpr hnodup)
      fun x hx => hdisjoint x (hperm.mem_iff.mp hx)
  case hempty => exact listInsertChainAfter_chain hops hring hchainNodup hcs
  case hperm => exact spliceBefore_perm hnodup hplace
  case hframe =>
    have hprev := ((h.ring hlist).mem_of_mem hplace).1
    exact fun x => listInsertChainAfter_frame hops hring hchainNodup hcs (h.ring hlist) hprev

/-- `list_init` makes a new list. -/
theorem Holds.listInit (h : Holds ops memory lists) (hfree : Free lists list) :
    Holds ops (listInit ops memory list) (Function.update lists list (some [])) := by
  have hprev : ops.getPrev (Cuw3.listInit ops memory list) =
      Function.update (ops.getPrev memory) list list := by
    unfold Cuw3.listInit
    rw [hops.getPrev_setNext, hops.getPrev_setPrev]
  have hnext : ops.getNext (Cuw3.listInit ops memory list) =
      Function.update (ops.getNext memory) list list := by
    unfold Cuw3.listInit
    rw [hops.getNext_setNext, hops.getNext_setPrev]
  apply h.update
  case hring =>
    rw [hprev, hnext]
    exact ⟨Function.update_self .., Function.update_self ..⟩
  case hnodup => exact List.pairwise_singleton _ list
  case hnodes =>
    intro x hx
    rw [List.mem_singleton.mp hx]
    exact Or.inr hfree
  case hframe =>
    intro other x hne hx
    have hxl : x ≠ list := by
      rintro rfl
      exact hfree other hx
    constructor
    · rw [hprev, Function.update_of_ne hxl]
    · rw [hnext, Function.update_of_ne hxl]

/-- A list that is not empty gives away its first node. -/
theorem Holds.popHead (h : Holds ops memory lists) (hlist : lists list = some (x :: xs)) :
    Holds ops (listPopHead ops memory list).1 (Function.update lists list (some xs)) ∧
      (listPopHead ops memory list).2 = x := by
  have hnext : ops.getNext memory list = x := (h.ring hlist).1
  have herase := h.erase hops hlist List.mem_cons_self
  rw [List.erase_cons_head] at herase
  unfold listPopHead
  rw [hnext]
  exact ⟨herase, rfl⟩

/-- A list that is not empty gives away its last node. -/
theorem Holds.popTail (h : Holds ops memory lists) (hlist : lists list = some (xs ++ [x])) :
    Holds ops (listPopTail ops memory list).1 (Function.update lists list (some xs)) ∧
      (listPopTail ops memory list).2 = x := by
  have hprev : ops.getPrev memory list = x := by
    rw [(h.ring hlist).prev_eq]
    simp
  have hnot : x ∉ xs := by
    have hnodup := (List.nodup_cons.mp (h.nodup hlist)).2
    rw [List.nodup_append] at hnodup
    exact fun hx => hnodup.2.2 x hx x List.mem_cons_self rfl
  have herase := h.erase hops hlist (List.mem_append_right xs List.mem_cons_self)
  rw [List.erase_append_right _ hnot, List.erase_cons_head, List.append_nil] at herase
  unfold listPopTail
  rw [hprev]
  exact ⟨herase, rfl⟩

/-- **A call does to the sequences what its name says.** -/
theorem Holds.exec (h : Holds ops memory lists) (call : ListCall ν)
    (hallowed : call.Allowed lists) :
    Holds ops (call.exec ops memory).1 (call.spec lists).1 ∧
      (call.exec ops memory).2 = (call.spec lists).2 := by
  cases call with
  | insertAfter list after node =>
    obtain ⟨⟨xs, hlist, hplace⟩, hfree⟩ := hallowed
    refine ⟨?_, rfl⟩
    show Holds ops _ (Function.update lists list ((lists list).map (spliceAfter list after [node])))
    rw [hlist]
    exact h.insertAfter hops hlist hplace hfree
  | insertBefore list before node =>
    obtain ⟨⟨xs, hlist, hplace⟩, hfree⟩ := hallowed
    refine ⟨?_, rfl⟩
    show Holds ops _ (Function.update lists list
      ((lists list).map (spliceBefore list before [node])))
    rw [hlist]
    exact h.insertBefore hops hlist hplace hfree
  | pushHead list node =>
    obtain ⟨hsome, hfree⟩ := hallowed
    obtain ⟨xs, hlist⟩ := Option.isSome_iff_exists.mp hsome
    refine ⟨?_, rfl⟩
    have hpush := h.insertAfter hops hlist List.mem_cons_self hfree
    rw [spliceAfter, if_pos rfl] at hpush
    show Holds ops _ (Function.update lists list ((lists list).map (node :: ·)))
    rw [hlist]
    exact hpush
  | pushTail list node =>
    obtain ⟨hsome, hfree⟩ := hallowed
    obtain ⟨xs, hlist⟩ := Option.isSome_iff_exists.mp hsome
    refine ⟨?_, rfl⟩
    have hpush := h.insertBefore hops hlist List.mem_cons_self hfree
    rw [spliceBefore, if_pos rfl] at hpush
    show Holds ops _ (Function.update lists list ((lists list).map (· ++ [node])))
    rw [hlist]
    exact hpush
  | erase list node =>
    obtain ⟨⟨xs, hlist, hmem⟩, hne⟩ := hallowed
    refine ⟨?_, rfl⟩
    show Holds ops _ (Function.update lists list ((lists list).map (·.erase node)))
    rw [hlist]
    exact h.erase hops hlist (List.mem_of_ne_of_mem hne hmem)
  | popHead list =>
    obtain ⟨xs, hlist, hne⟩ := hallowed
    obtain ⟨x, xs, rfl⟩ := List.exists_cons_of_ne_nil hne
    obtain ⟨hpop, hresult⟩ := h.popHead hops hlist
    show Holds ops _ (Function.update lists list ((lists list).map List.tail)) ∧
      _ = (lists list).bind List.head?
    rw [hlist]
    exact ⟨hpop, congrArg some hresult⟩
  | popTail list =>
    obtain ⟨xs, hlist, hne⟩ := hallowed
    obtain ⟨xs, x, rfl⟩ := (List.eq_nil_or_concat' xs).resolve_left hne
    obtain ⟨hpop, hresult⟩ := h.popTail hops hlist
    show Holds ops _ (Function.update lists list ((lists list).map List.dropLast)) ∧
      _ = (lists list).bind List.getLast?
    rw [hlist, Option.map_some, List.dropLast_concat, Option.bind_some, List.getLast?_concat]
    exact ⟨hpop, congrArg some hresult⟩
  | insertChainAfter list node chain =>
    obtain ⟨⟨xs, hlist, hplace⟩, hsome, hne⟩ := hallowed
    obtain ⟨cs, hchain⟩ := Option.isSome_iff_exists.mp hsome
    refine ⟨?_, rfl⟩
    show Holds ops _ (Function.update (Function.update lists list
      ((lists list).map (spliceAfter list node ((lists chain).getD [])))) chain (some []))
    rw [hlist, hchain]
    exact h.insertChainAfter hops hlist hplace hchain hne
  | insertChainBefore list node chain =>
    obtain ⟨⟨xs, hlist, hplace⟩, hsome, hne⟩ := hallowed
    obtain ⟨cs, hchain⟩ := Option.isSome_iff_exists.mp hsome
    refine ⟨?_, rfl⟩
    show Holds ops _ (Function.update (Function.update lists list
      ((lists list).map (spliceBefore list node ((lists chain).getD [])))) chain (some []))
    rw [hlist, hchain]
    exact h.insertChainBefore hops hlist hplace hchain hne

/-- The lists after any number of calls. -/
theorem Holds.execCalls (calls : List (ListCall ν)) (h : Holds ops memory lists)
    (hallowed : AllowedCalls lists calls) :
    Holds ops (execCalls ops memory calls).1 (specCalls lists calls).1 ∧
      (execCalls ops memory calls).2 = (specCalls lists calls).2 := by
  induction calls generalizing memory lists with
  | nil => exact ⟨h, rfl⟩
  | cons call calls ih =>
    obtain ⟨hcall, hcalls⟩ := hallowed
    obtain ⟨hstep, hresult⟩ := h.exec hops call hcall
    obtain ⟨hrun, hresults⟩ := ih hstep hcalls
    exact ⟨hrun, congrArg₂ List.cons hresult hresults⟩

end

section

variable [DecidableEq ν]

/-- The lists that a call is about. -/
def ListCall.lists : ListCall ν → List ν
  | insertAfter list _ _ | insertBefore list _ _ | pushHead list _ | pushTail list _ | erase list _
  | popHead list | popTail list => [list]
  | insertChainAfter list _ chain | insertChainBefore list _ chain => [list, chain]

theorem ListCall.spec_of_notMem {call : ListCall ν} {lists : Sequences ν} {list : ν}
    (h : list ∉ call.lists) : (call.spec lists).1 list = lists list := by
  cases call with
  | insertChainAfter list node chain =>
    unfold ListCall.lists at h
    rw [List.mem_cons, List.mem_singleton, not_or] at h
    unfold ListCall.spec
    dsimp only
    rw [Function.update_of_ne h.2, Function.update_of_ne h.1]
  | insertChainBefore list node chain =>
    unfold ListCall.lists at h
    rw [List.mem_cons, List.mem_singleton, not_or] at h
    unfold ListCall.spec
    dsimp only
    rw [Function.update_of_ne h.2, Function.update_of_ne h.1]
  | _ => exact Function.update_of_ne (List.ne_of_not_mem_cons h) ..

theorem specCalls_of_notMem {calls : List (ListCall ν)} {lists : Sequences ν} {list : ν}
    (h : ∀ call ∈ calls, list ∉ call.lists) : (specCalls lists calls).1 list = lists list := by
  induction calls generalizing lists with
  | nil => rfl
  | cons call calls ih =>
    show (specCalls (call.spec lists).1 calls).1 list = _
    rw [ih fun call hmem => h call (List.mem_cons_of_mem _ hmem),
      ListCall.spec_of_notMem (h call List.mem_cons_self)]

/-- **Any sequence of calls does to the sequences of the lists what the names say**: the lists stay
rings, the results are those of the sequences, `list_empty` is true exactly of an empty one, and no
list changes that no call is about. -/
theorem execCalls_refines (entries : DefaultListEntries ν) (lists : Sequences ν)
    (calls : List (ListCall ν)) (h : Holds (defaultListOps ν) entries lists)
    (hallowed : AllowedCalls lists calls) :
    Holds (defaultListOps ν) (execCalls (defaultListOps ν) entries calls).1
      (specCalls lists calls).1 ∧
    (execCalls (defaultListOps ν) entries calls).2 = (specCalls lists calls).2 ∧
    (∀ list xs, (specCalls lists calls).1 list = some xs →
      (listEmpty (defaultListOps ν) (execCalls (defaultListOps ν) entries calls).1 list = true ↔
        xs = [])) ∧
    ∀ list, (∀ call ∈ calls, list ∉ call.lists) → (specCalls lists calls).1 list = lists list := by
  obtain ⟨hholds, hresults⟩ := h.execCalls defaultListOps_lawful calls hallowed
  refine ⟨hholds, hresults, fun list xs hlist => ?_, fun list hcalls => specCalls_of_notMem hcalls⟩
  exact listEmpty_iff defaultListOps_lawful (hholds.ring hlist) (hholds.nodup hlist)

/-- Two new lists, with the terminator-nodes `0` and `1`. -/
def twoLists : DefaultListEntries (Fin 5) :=
  listInit (defaultListOps (Fin 5)) (listInit (defaultListOps (Fin 5)) ⟨fun _ => 0, fun _ => 0⟩ 0) 1

theorem twoLists_holds : Holds (defaultListOps (Fin 5)) twoLists
    (Function.update (Function.update (fun _ => none) 0 (some [])) 1 (some [])) := by
  have hnone : Holds (defaultListOps (Fin 5)) ⟨fun _ => 0, fun _ => 0⟩ (fun _ => none) := by
    constructor
    · intro list xs hlist
      cases hlist
    · intro list xs hlist
      cases hlist
    · rintro list list' node ⟨xs, hlist, -⟩
      cases hlist
  have hfirst : Free (fun _ => none) (0 : Fin 5) := by decide
  have hsecond : Free (Function.update (fun _ => none) 0 (some [])) (1 : Fin 5) := by decide
  exact (hnone.listInit defaultListOps_lawful hfirst).listInit defaultListOps_lawful hsecond

/-- Nodes `2` and `3` come into the first list, which then goes whole into the second; that gives
away its first node. -/
theorem execCalls_refines_twoLists : (execCalls (defaultListOps (Fin 5)) twoLists
    [.pushHead 0 2, .insertAfter 0 2 3, .insertChainBefore 1 1 0, .popHead 1]).2 =
      [none, none, none, some 2] :=
  (execCalls_refines twoLists _ [.pushHead 0 2, .insertAfter 0 2 3, .insertChainBefore 1 1 0,
    .popHead 1] twoLists_holds (by decide)).2.1

end

end Cuw3
