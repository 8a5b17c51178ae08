/-
  The functions of the push/snatch list, called by one thread.

  `get_tail` follows the skip links from node to node of the list, each time to a later one, and
  ends at the last (`getTail_returns`).  `bite` cuts a list after its first nodes (`bite_returns`),
  `push` puts one list in front of the other (`push_returns`).  Whatever is called in whatever
  order, the lists that the thread holds and the shared one stay lists whose skip links go to the
  node itself or forward, and no node is in two of them (`Contents`).
-/
import Cuw3.Graveyard.ListFunctions
import Cuw3.Graveyard.Equiv.PushSnatchList

namespace Cuw3.AtomicPushSnatchList

open Lib

variable {s s' : AtomicPushSnatchList} {list node tail part2 : Nat} {ps qs rest : List Nat}

theorem SameLinks.trans {s'' : AtomicPushSnatchList} (h : SameLinks s s' node)
    (h' : SameLinks s' s'' node) : SameLinks s s'' node :=
  ⟨h'.1.trans h.1, h'.2.trans h.2⟩

/-! ### The way to the tail -/

/-- The list from one of its nodes on. -/
theorem Listed.suffix (h : Listed s list (qs ++ node :: rest)) : Listed s node (node :: rest) := by
  obtain ⟨p, hp⟩ := h.linked.suffix
  obtain rfl : p = node := hp.1
  exact .of hp h.skips.suffix

/-- From a node that is not the tail, `get_skip` goes to a later node. -/
theorem Listed.getSkip_mem (h : Listed s node (node :: rest)) (hnext : s.next node ≠ nullLink) :
    s.getSkip node ∈ rest := by
  have hself : node ∈ node :: rest := List.mem_cons_self
  have hmem := h.skips.skipFrom_mem h.linked hself hnext
  have hne : skipFrom s.skip node (s.next node) ≠ node := Skips.skipFrom_ne h.linked hself hnext
  have heq : s.getSkip node = skipFrom s.skip node (s.next node) := by
    unfold getSkip skipFrom
    rw [if_pos hnext]
  rw [heq]
  exact (List.mem_cons.mp hmem).resolve_left hne

theorem getSkip_of_tail (hnext : s.next node = nullLink) : s.getSkip node = node := by
  unfold getSkip
  rw [if_neg (not_not.mpr hnext)]

/-- The loop of `get_tail` ends at the tail, by induction on the number of nodes that are left. -/
theorem Listed.getTailFrom_returns (h : Listed s node (node :: rest))
    (hlast : (node :: rest).getLast? = some tail) : Returns (s.getTailFrom node) tail := by
  induction hleft : rest.length using Nat.strongRecOn generalizing node rest with
  | ind left ih =>
    by_cases hnext : s.next node = nullLink
    · have hskip := getSkip_of_tail hnext
      have htail := h.linked.getLast_of_next List.mem_cons_self hnext
      obtain rfl : node = tail := Option.some.inj (htail.symm.trans hlast)
      apply Returns.stop
      intro fuel
      unfold getTailFrom
      rw [hskip, if_pos rfl]
    · have hmem := h.getSkip_mem hnext
      have hne : node ≠ s.getSkip node := by
        intro heq
        rw [← heq] at hmem
        exact (List.nodup_cons.mp h.nodup).1 hmem
      obtain ⟨before, after, hsplit⟩ := List.append_of_mem hmem
      have hlater : Listed s (s.getSkip node) (s.getSkip node :: after) := by
        rw [hsplit, ← List.cons_append] at h
        exact h.suffix
      have hlater_last : (s.getSkip node :: after).getLast? = some tail := by
        rw [hsplit, ← List.cons_append, List.getLast?_append_of_ne_nil _ (by simp)] at hlast
        exact hlast
      have hless : after.length < left := by
        rw [← hleft, hsplit, List.length_append, List.length_cons]
        omega
      apply (ih after.length hless hlater hlater_last rfl).turn
      intro fuel
      rw [getTailFrom, if_neg hne]

/-- **`get_tail` returns the last node.** -/
theorem Listed.getTail_returns (h : Listed s list ps) (hlast : ps.getLast? = some tail) :
    Returns (s.getTail list) tail := by
  cases ps with
  | nil => cases hlast
  | cons p rest =>
    obtain ⟨rfl, -, -⟩ := h.linked
    by_cases hnext : s.next list = nullLink
    · have hself := h.getTailFrom_returns hlast
      rw [← getSkip_of_tail hnext] at hself
      exact hself
    · obtain ⟨before, after, hsplit⟩ := List.append_of_mem (h.getSkip_mem hnext)
      have hlater : Listed s (s.getSkip list) (s.getSkip list :: after) := by
        rw [hsplit, ← List.cons_append] at h
        exact h.suffix
      apply hlater.getTailFrom_returns
      rw [hsplit, ← List.cons_append, List.getLast?_append_of_ne_nil _ (by simp)] at hlast
      exact hlast

/-! ### `bite` -/

/-- The first loop of `bite` ends at the last node of the first part. -/
theorem getLast?_take_biteTail {turns : Nat} (h : Linked nullLink s.next node (node :: rest)) :
    ((node :: rest).take (turns + 1)).getLast? = some (s.biteTail turns node) := by
  induction turns generalizing node rest with
  | zero => rfl
  | succ turns ih =>
    obtain ⟨-, hnode, hrest⟩ := h
    unfold biteTail
    dsimp only
    split_ifs with hnext
    · rw [hnext, Linked.null_iff] at hrest
      rw [hrest]
      rfl
    · obtain ⟨after, rfl, -⟩ := hrest.of_ne_null hnext
      have hlast := ih hrest
      rw [List.take_succ_cons] at hlast ⊢
      rw [List.take_succ_cons, List.getLast?_cons_cons]
      exact hlast

/-- The second loop of `bite` points the skip links of the first part to its tail. -/
theorem Bitten.biteSetSkips_returns {part1 : Nat} {done todo rest : List Nat}
    (h : Bitten s part1 part2 tail done todo rest) {curr : Nat}
    (hcurr : Linked nullLink s.next curr todo) : ∃ s', Returns (biteSetSkips tail s curr) s' ∧
      Bitten s' part1 part2 tail (done ++ todo) [] rest ∧ s'.head = s.head ∧
      ∀ n ∉ todo, SameLinks s s' n := by
  induction todo generalizing s done curr with
  | nil =>
    obtain rfl : curr = nullLink := hcurr
    refine ⟨s, Returns.stop fun fuel => ?_, ?_, rfl, fun n _ => ⟨rfl, rfl⟩⟩
    · rw [biteSetSkips, if_neg (not_not.mpr rfl)]
    · rw [List.append_nil]
      exact h
  | cons p todo ih =>
    obtain ⟨rfl, hp, htodo⟩ := hcurr
    obtain ⟨s', hreturns, hbitten, hhead, hsame⟩ := ih h.setSkip htodo
    refine ⟨s', hreturns.turn fun fuel => ?_, ?_, hhead, fun n hn => ?_⟩
    · rw [biteSetSkips, if_pos hp]
      rfl
    · rw [← List.append_cons] at hbitten
      exact hbitten
    · have hfirst : SameLinks s (s.setSkip curr tail) n :=
        sameLinks_setSkip (List.ne_of_not_mem_cons hn)
      exact hfirst.trans (hsame n (List.not_mem_of_not_mem_cons hn))

/-- **`bite` splits a list after its first `max 1 (min amount length)` nodes**, and writes to no
other node. -/
theorem Listed.bite_returns (h : Listed s list ps) (hne : list ≠ nullLink) (amount : Nat) :
    ∃ s' part2, Returns (s.bite list amount) (s', list, part2) ∧
      Listed s' list (ps.take (max 1 (min amount ps.length))) ∧
      Listed s' part2 (ps.drop (max 1 (min amount ps.length))) ∧ s'.head = s.head ∧
      ∀ n ∉ ps, SameLinks s s' n := by
  obtain ⟨after, rfl, -⟩ := h.linked.of_ne_null hne
  -- past the end of the list the number of turns does not matter
  have htake : (list :: after).take (max 1 (min amount (list :: after).length)) =
      (list :: after).take (amount - 1 + 1) := by
    rw [List.take_eq_take_iff, List.length_cons]
    omega
  have hdrop : (list :: after).drop (max 1 (min amount (list :: after).length)) =
      (list :: after).drop (amount - 1 + 1) := by
    have hsplit := List.take_append_drop (max 1 (min amount (list :: after).length)) (list :: after)
    have hsplit' := List.take_append_drop (amount - 1 + 1) (list :: after)
    rw [htake] at hsplit
    exact List.append_cancel_left (hsplit.trans hsplit'.symm)
  rw [htake, hdrop]
  have hlast : ((list :: after).take (amount - 1 + 1)).getLast? =
      some (s.biteTail (amount - 1) list) := getLast?_take_biteTail h.linked
  have hlisted : Listed s list ((list :: after).take (amount - 1 + 1) ++
      (list :: after).drop (amount - 1 + 1)) := by
    rw [List.take_append_drop]
    exact h
  have hcut := hlisted.cut hlast
  have hlinked := hcut.linked
  rw [List.nil_append] at hlinked
  obtain ⟨s', hreturns, hbitten, hhead, hsame⟩ := hcut.biteSetSkips_returns hlinked
  rw [List.nil_append] at hbitten
  refine ⟨s', _, ?_, hbitten.finish.1, hbitten.listed, hhead, fun n hn => ?_⟩
  · have hpair : Returns (fun _ => some (s', list, s.next (s.biteTail (amount - 1) list)))
        (s', list, s.next (s.biteTail (amount - 1) list)) := Returns.of_eq fun _ => rfl
    apply hreturns.andThen hpair
    intro fuel hfuel
    unfold bite
    rw [if_neg hne]
    dsimp only
    rw [hfuel]
    rfl
  · have htail : s.biteTail (amount - 1) list ∈ list :: after :=
      List.mem_of_mem_take (List.mem_of_getLast? hlast)
    have hfirst : SameLinks s (s.setNext (s.biteTail (amount - 1) list) nullLink) n :=
      sameLinks_setNext (ne_of_mem_of_not_mem htail hn).symm
    exact hfirst.trans (hsame n fun hmem => hn (List.mem_of_mem_take hmem))

/-! ### `push` -/

/-- **`push` puts a list in front of the shared one**, and writes to no other node. -/
theorem Listed.push_returns (h : Listed s list ps) (hne : list ≠ nullLink)
    (hqs : Listed s s.head qs) (hdisjoint : ps.Disjoint qs) {attempts : Int}
    (hattempts : attempts ≠ 0) :
    ∃ s', Returns (s.push alone attempts list) (s', true) ∧ s'.head = list ∧
      Listed s' list (ps ++ qs) ∧ ∀ n ∉ ps, SameLinks s s' n := by
  obtain ⟨after, rfl, -⟩ := h.linked.of_ne_null hne
  obtain ⟨tail, hlast⟩ : ∃ tail, (list :: after).getLast? = some tail :=
    ⟨_, List.getLast?_eq_some_getLast (List.cons_ne_nil list after)⟩
  have htail := h.getTail_returns hlast
  have hmem := List.mem_of_getLast? hlast
  -- the list, with its tail linked to the head
  let s' := (s.setSkip list tail).setNext tail s.head
  have hopened : Opened s' list tail (list :: after) := (h.setSkip hlast).setNext
  have hsame : ∀ n ∉ list :: after, SameLinks s s' n := by
    intro n hn
    have hskip : SameLinks s (s.setSkip list tail) n :=
      sameLinks_setSkip (List.ne_of_not_mem_cons hn)
    exact hskip.trans (sameLinks_setNext (ne_of_mem_of_not_mem hmem hn).symm)
  refine ⟨{ s' with head := list }, ?_, rfl, ?_, hsame⟩
  · have hloop : Returns (pushAttempts alone list tail (s.setSkip list tail) s.head attempts 1)
        ({ s' with head := list }, true) := by
      apply Returns.stop
      intro fuel
      rw [pushAttempts, if_pos hattempts]
      exact if_pos rfl
    apply htail.andThen hloop
    intro fuel hfuel
    unfold push
    rw [if_neg hne]
    dsimp only [alone]
    rw [hfuel]
    rfl
  · have hshared : Listed s' (s'.next tail) qs := by
      have hhead : s'.next tail = s.head := Function.update_self ..
      rw [hhead]
      exact hqs.congr fun n hn => hsame n fun hmem => hdisjoint hmem hn
    have hlisted := hopened.append hshared
    exact ⟨hlisted.linked, hlisted.skips, hlisted.nodup⟩

/-- Without attempts `push` only shortens the way to the tail. -/
theorem Listed.push_returns_zero (h : Listed s list ps) (hne : list ≠ nullLink) :
    ∃ s', Returns (s.push alone 0 list) (s', false) ∧ s'.head = s.head ∧ Listed s' list ps ∧
      ∀ n ∉ ps, SameLinks s s' n := by
  obtain ⟨after, rfl, -⟩ := h.linked.of_ne_null hne
  obtain ⟨tail, hlast⟩ : ∃ tail, (list :: after).getLast? = some tail :=
    ⟨_, List.getLast?_eq_some_getLast (List.cons_ne_nil list after)⟩
  have htail := h.getTail_returns hlast
  refine ⟨s.setSkip list tail, ?_, rfl, ⟨h.linked, (h.setSkip hlast).skips, h.nodup⟩,
    fun n hn => sameLinks_setSkip (List.ne_of_not_mem_cons hn)⟩
  have hloop : Returns (pushAttempts alone list tail (s.setSkip list tail) s.head 0 1)
      (s.setSkip list tail, false) := by
    apply Returns.stop
    intro fuel
    rw [pushAttempts, if_neg (not_not.mpr rfl)]
  apply htail.andThen hloop
  intro fuel hfuel
  unfold push
  rw [if_neg hne]
  dsimp only [alone]
  rw [hfuel]
  rfl

/-! ### Sequences of calls -/

/-- The heads of the lists: the shared one and those that the thread holds. -/
def Lists.Root (σ : Lists) (p : Nat) : Prop := p = σ.list.head ∨ p ∈ σ.held

/-- The nodes of each list.  Skip links go to the node itself or forward, and no node is in two
lists. -/
structure Contents (σ : Lists) (nodes : Nat → List Nat) : Prop where
  listed : ∀ p, σ.Root p → Listed σ.list p (nodes p)
  apart : ∀ p q, σ.Root p → σ.Root q → p ≠ q → (nodes p).Disjoint (nodes q)
  null : nullLink ∉ σ.held
  head : σ.list.head ∉ σ.held

section

variable {σ : Lists} {nodes : Nat → List Nat} {p q amount part1 : Nat} {attempts : Int}

/-- A list is kept by writes to the nodes of another. -/
theorem Contents.keep (h : Contents σ nodes) (hp : σ.Root p) (hq : σ.Root q) (hne : q ≠ p)
    (hsame : ∀ n ∉ nodes p, SameLinks σ.list s' n) : Listed s' q (nodes q) := by
  apply (h.listed q hq).congr
  intro n hn
  apply hsame
  intro hmem
  exact h.apart q p hq hp hne hn hmem

theorem Contents.ne_null (h : Contents σ nodes) (hp : p ∈ σ.held) : p ≠ nullLink :=
  ne_of_mem_of_not_mem hp h.null

/-- The list that is pushed joins the shared one. -/
theorem Contents.push (h : Contents σ nodes) (hp : p ∈ σ.held)
    (hlisted : Listed s' p (nodes p ++ nodes σ.list.head)) (hhead : s'.head = p)
    (hsame : ∀ n ∉ nodes p, SameLinks σ.list s' n) :
    Contents ⟨s', σ.held.erase p⟩
      (Function.update nodes p (nodes p ++ nodes σ.list.head)) := by
  have hroot : σ.Root σ.list.head := Or.inl rfl
  have hroots : ∀ q, Lists.Root ⟨s', σ.held.erase p⟩ q → q ≠ p → q ∈ σ.held := by
    rintro q (hq | hq) hne
    · exact absurd (hq.trans hhead) hne
    · exact Finset.mem_of_mem_erase hq
  -- the joined list against another one
  have hjoined : ∀ q ∈ σ.held, q ≠ p → (nodes p ++ nodes σ.list.head).Disjoint (nodes q) := by
    intro q hq hne
    rw [List.disjoint_append_left]
    exact ⟨h.apart p q (.inr hp) (.inr hq) hne.symm,
      h.apart σ.list.head q hroot (.inr hq) (ne_of_mem_of_not_mem hq h.head).symm⟩
  constructor
  · intro q hq
    by_cases hne : q = p
    · rw [hne, Function.update_self]
      exact hlisted
    · rw [Function.update_of_ne hne]
      exact h.keep (.inr hp) (.inr (hroots q hq hne)) hne hsame
  · intro q r hq hr hqr
    by_cases hqp : q = p
    · have hrp : r ≠ p := fun heq => hqr (hqp.trans heq.symm)
      rw [hqp, Function.update_self, Function.update_of_ne hrp]
      exact hjoined r (hroots r hr hrp) hrp
    · by_cases hrp : r = p
      · rw [hrp, Function.update_self, Function.update_of_ne hqp]
        exact (hjoined q (hroots q hq hqp) hqp).symm
      · rw [Function.update_of_ne hqp, Function.update_of_ne hrp]
        exact h.apart q r (.inr (hroots q hq hqp)) (.inr (hroots r hr hrp)) hqr
  · exact fun hnull => h.null (Finset.mem_of_mem_erase hnull)
  · show s'.head ∉ σ.held.erase p
    rw [hhead]
    exact Finset.notMem_erase p σ.held

theorem mem_hold {held : Finset Nat} {n : Nat} :
    q ∈ hold held n ↔ q ∈ held ∨ (q = n ∧ n ≠ nullLink) := by
  unfold hold
  split_ifs with hn
  · simp [hn]
  · rw [Finset.mem_insert]
    tauto

/-- The list that is bitten becomes two. -/
theorem Contents.bite (h : Contents σ nodes) (hp : p ∈ σ.held) {qs : List Nat}
    (hsplit : nodes p = qs ++ rest) (hqs : Listed s' p qs) (hrest : Listed s' part2 rest)
    (hhead : s'.head = σ.list.head) (hsame : ∀ n ∉ nodes p, SameLinks σ.list s' n) :
    Contents ⟨s', hold (hold (σ.held.erase p) p) part2⟩
        (Function.update (Function.update nodes p qs) part2 rest) ∧
      part2 ≠ p ∧ part2 ∉ σ.held := by
  have hroot : σ.Root p := .inr hp
  have hnodup := (h.listed p hroot).nodup
  rw [hsplit, List.nodup_append] at hnodup
  have hparts : qs.Disjoint rest := fun n hn hn' => hnodup.2.2 n hn n hn' rfl
  have hfirst : p ∈ qs := by
    obtain ⟨after, rfl, -⟩ := hqs.linked.of_ne_null (h.ne_null hp)
    exact List.mem_cons_self
  -- the head of the second part, if it has one, is a node of the list that was bitten
  have hsecond : part2 ≠ nullLink → part2 ∈ rest := by
    intro hne
    obtain ⟨after, rfl, -⟩ := hrest.linked.of_ne_null hne
    exact List.mem_cons_self
  have hne : part2 ≠ p := by
    intro heq
    have hmem := hsecond (heq ▸ h.ne_null hp)
    exact hparts hfirst (heq ▸ hmem)
  have hfresh : part2 ∉ σ.held := by
    intro hheld
    obtain ⟨after, hafter, -⟩ := (h.listed part2 (.inr hheld)).linked.of_ne_null (h.ne_null hheld)
    have hmem : part2 ∈ nodes p := hsplit ▸ List.mem_append_right qs (hsecond (h.ne_null hheld))
    have hmem' : part2 ∈ nodes part2 := hafter ▸ List.mem_cons_self
    exact h.apart p part2 hroot (.inr hheld) hne.symm hmem hmem'
  refine ⟨?_, hne, hfresh⟩
  have hroots : ∀ q, Lists.Root ⟨s', hold
      (hold (σ.held.erase p) p) part2⟩ q → q ≠ part2 → σ.Root q := by
    rintro q (hq | hq) hq2
    · exact .inl (hq.trans hhead)
    · rcases mem_hold.mp hq with hq | ⟨hq, -⟩
      · rcases mem_hold.mp hq with hq | ⟨rfl, -⟩
        · exact .inr (Finset.mem_of_mem_erase hq)
        · exact hroot
      · exact absurd hq hq2
  have hqs_sub : ∀ q, σ.Root q → q ≠ p → qs.Disjoint (nodes q) := by
    intro q hq hqp n hn hn'
    exact h.apart p q hroot hq hqp.symm (hsplit ▸ List.mem_append_left rest hn) hn'
  have hrest_sub : ∀ q, σ.Root q → q ≠ p → rest.Disjoint (nodes q) := by
    intro q hq hqp n hn hn'
    exact h.apart p q hroot hq hqp.symm (hsplit ▸ List.mem_append_right qs hn) hn'
  -- the second part against any other list
  have hother : ∀ q, Lists.Root ⟨s', hold
      (hold (σ.held.erase p) p) part2⟩ q → q ≠ part2 →
      rest.Disjoint (Function.update nodes p qs q) := by
    intro q hq hq2
    by_cases hqp : q = p
    · rw [hqp, Function.update_self]
      exact hparts.symm
    · rw [Function.update_of_ne hqp]
      exact hrest_sub q (hroots q hq hq2) hqp
  constructor
  · intro q hq
    by_cases hq2 : q = part2
    · rw [hq2, Function.update_self]
      exact hrest
    · rw [Function.update_of_ne hq2]
      by_cases hqp : q = p
      · rw [hqp, Function.update_self]
        exact hqs
      · rw [Function.update_of_ne hqp]
        exact h.keep hroot (hroots q hq hq2) hqp hsame
  · intro q r hq hr hqr
    by_cases hq2 : q = part2
    · have hr2 : r ≠ part2 := fun heq => hqr (hq2.trans heq.symm)
      rw [hq2, Function.update_self, Function.update_of_ne hr2]
      exact hother r hr hr2
    · rw [Function.update_of_ne hq2]
      by_cases hr2 : r = part2
      · rw [hr2, Function.update_self]
        exact (hother q hq hq2).symm
      · rw [Function.update_of_ne hr2]
        by_cases hqp : q = p
        · have hrp : r ≠ p := fun heq => hqr (hqp.trans heq.symm)
          rw [hqp, Function.update_self, Function.update_of_ne hrp]
          exact hqs_sub r (hroots r hr hr2) hrp
        · rw [Function.update_of_ne hqp]
          by_cases hrp : r = p
          · rw [hrp, Function.update_self]
            exact (hqs_sub q (hroots q hq hq2) hqp).symm
          · rw [Function.update_of_ne hrp]
            exact h.apart q r (hroots q hq hq2) (hroots r hr hr2) hqr
  · intro hnull
    rcases mem_hold.mp hnull with hnull | ⟨hnull, hne'⟩
    · rcases mem_hold.mp hnull with hnull | ⟨hnull, hne'⟩
      · exact h.null (Finset.mem_of_mem_erase hnull)
      · exact hne' hnull.symm
    · exact hne' hnull.symm
  · show s'.head ∉ _
    rw [hhead]
    intro hmem
    rcases mem_hold.mp hmem with hmem | ⟨heq, hne'⟩
    · rcases mem_hold.mp hmem with hmem | ⟨heq, -⟩
      · exact h.head (Finset.mem_of_mem_erase hmem)
      · exact h.head (heq ▸ hp)
    · -- the head of the shared list is no node of the list that was bitten
      have hhead_root : σ.Root σ.list.head := .inl rfl
      have hhead_null : σ.list.head ≠ nullLink := heq ▸ hne'
      obtain ⟨after, hafter, -⟩ := (h.listed _ hhead_root).linked.of_ne_null hhead_null
      have hmem : σ.list.head ∈ nodes p := by
        rw [hsplit, heq]
        exact List.mem_append_right qs (hsecond hne')
      have hmem' : σ.list.head ∈ nodes σ.list.head := hafter ▸ List.mem_cons_self
      exact h.apart p _ hroot hhead_root (ne_of_mem_of_not_mem hp h.head) hmem hmem'

/-- The list that is snatched is the thread's, and the shared one is empty. -/
theorem Contents.snatch (h : Contents σ nodes) :
    Contents ⟨σ.list.snatch.1, hold σ.held σ.list.snatch.2⟩
      (Function.update nodes nullLink []) := by
  have hempty : ∀ q, σ.Root q → Function.update nodes nullLink [] q = nodes q := by
    intro q hq
    by_cases hnull : q = nullLink
    · have hlinked := (h.listed q hq).linked
      rw [hnull, Linked.null_iff] at hlinked
      rw [hnull, Function.update_self, hlinked]
    · exact Function.update_of_ne hnull ..
  unfold AtomicPushSnatchList.snatch
  split_ifs with hhead
  · have hheld : hold σ.held nullLink = σ.held := if_pos rfl
    show Contents ⟨σ.list, hold σ.held nullLink⟩ _
    rw [hheld]
    refine ⟨fun q hq => ?_, fun q r hq hr hqr => ?_, h.null, h.head⟩
    · rw [hempty q hq]
      exact h.listed q hq
    · rw [hempty q hq, hempty r hr]
      exact h.apart q r hq hr hqr
  · have hheld : hold σ.held σ.list.head = insert σ.list.head σ.held := if_neg hhead
    show Contents ⟨{ σ.list with head := nullLink }, hold σ.held σ.list.head⟩ _
    rw [hheld]
    have hroot : ∀ q, Lists.Root ⟨{ σ.list with head := nullLink }, insert σ.list.head σ.held⟩ q →
        q = nullLink ∨ (q ≠ nullLink ∧ σ.Root q) := by
      rintro q (hq | hq)
      · exact .inl hq
      · rcases Finset.mem_insert.mp hq with rfl | hq
        · exact .inr ⟨hhead, .inl rfl⟩
        · exact .inr ⟨h.ne_null hq, .inr hq⟩
    constructor
    · intro q hq
      rcases hroot q hq with rfl | ⟨-, hq⟩
      · rw [Function.update_self]
        exact ⟨rfl, trivial, List.nodup_nil⟩
      · rw [hempty q hq]
        obtain ⟨hlinked, hskips, hnodup⟩ := h.listed q hq
        exact ⟨hlinked, hskips, hnodup⟩
    · intro q r hq hr hqr
      rcases hroot q hq with rfl | ⟨-, hq⟩
      · rw [Function.update_self]
        exact List.disjoint_nil_left _
      · rcases hroot r hr with rfl | ⟨-, hr⟩
        · rw [Function.update_self]
          exact List.disjoint_nil_right _
        · rw [hempty q hq, hempty r hr]
          exact h.apart q r hq hr hqr
    · rw [Finset.mem_insert]
      rintro (hnull | hnull)
      · exact hhead hnull.symm
      · exact h.null hnull
    · show nullLink ∉ insert σ.list.head σ.held
      rw [Finset.mem_insert]
      rintro (hnull | hnull)
      · exact hhead hnull.symm
      · exact h.null hnull

/-- The list that is not pushed for want of attempts is as it was. -/
theorem Contents.pushFails (h : Contents σ nodes) (hp : p ∈ σ.held)
    (hlisted : Listed s' p (nodes p)) (hhead : s'.head = σ.list.head)
    (hsame : ∀ n ∉ nodes p, SameLinks σ.list s' n) : Contents ⟨s', σ.held⟩ nodes := by
  have hroots : ∀ q, Lists.Root ⟨s', σ.held⟩ q → σ.Root q := by
    rintro q (hq | hq)
    · exact .inl (hq.trans hhead)
    · exact .inr hq
  refine ⟨fun q hq => ?_, fun q r hq hr => h.apart q r (hroots q hq) (hroots r hr), h.null, ?_⟩
  · by_cases hne : q = p
    · rw [hne]
      exact hlisted
    · exact h.keep (.inr hp) (hroots q hq) hne hsame
  · show s'.head ∉ σ.held
    rw [hhead]
    exact h.head

/-! ### Steps -/

theorem push_null {others : Others} : Returns (s.push others attempts nullLink) (s, true) :=
  Returns.of_eq fun _ => if_pos rfl

theorem bite_null : Returns (s.bite nullLink amount) (s, nullLink, nullLink) :=
  Returns.of_eq fun _ => if_pos rfl

@[simp] theorem hold_null (held : Finset Nat) : hold held nullLink = held := if_pos rfl

theorem hold_of_ne {held : Finset Nat} (hne : p ≠ nullLink) : hold held p = insert p held :=
  if_neg hne

/-- What `push` of a list that the thread holds does to the lists. -/
theorem Contents.push_returns (h : Contents σ nodes) (hp : p ∈ σ.held) {pushed : Bool}
    (hok : Returns (σ.list.push alone attempts p) (s', pushed)) :
    ∃ nodes', Contents ⟨s', if pushed then σ.held.erase p else σ.held⟩ nodes' := by
  have hlisted := h.listed p (.inr hp)
  by_cases hattempts : attempts = 0
  · subst hattempts
    obtain ⟨s'', hreturns, hhead, hlisted', hsame⟩ := hlisted.push_returns_zero (h.ne_null hp)
    obtain ⟨rfl, rfl⟩ := Prod.mk.inj (hok.unique hreturns)
    exact ⟨nodes, h.pushFails hp hlisted' hhead hsame⟩
  · have hapart : (nodes p).Disjoint (nodes σ.list.head) :=
      h.apart p σ.list.head (.inr hp) (.inl rfl) (ne_of_mem_of_not_mem hp h.head)
    obtain ⟨s'', hreturns, hhead, hlisted', hsame⟩ :=
      hlisted.push_returns (h.ne_null hp) (h.listed σ.list.head (.inl rfl)) hapart hattempts
    obtain ⟨rfl, rfl⟩ := Prod.mk.inj (hok.unique hreturns)
    exact ⟨_, h.push hp hlisted' hhead hsame⟩

/-- What `bite` of a list that the thread holds does to the lists. -/
theorem Contents.bite_returns (h : Contents σ nodes) (hp : p ∈ σ.held)
    (hok : Returns (σ.list.bite p amount) (s', part1, part2)) :
    part1 = p ∧ part2 ≠ p ∧ part2 ∉ σ.held ∧
      ∃ nodes', Contents ⟨s', hold (hold (σ.held.erase p) p) part2⟩ nodes' := by
  have hlisted := h.listed p (.inr hp)
  obtain ⟨s'', part2', hreturns, hfirst, hsecond, hhead, hsame⟩ :=
    hlisted.bite_returns (h.ne_null hp) amount
  obtain ⟨rfl, hparts⟩ := Prod.mk.inj (hok.unique hreturns)
  obtain ⟨rfl, rfl⟩ := Prod.mk.inj hparts
  have hsplit := (List.take_append_drop (max 1 (min amount (nodes part1).length))
    (nodes part1)).symm
  obtain ⟨hcontents, hne, hfresh⟩ := h.bite hp hsplit hfirst hsecond hhead hsame
  exact ⟨rfl, hne, hfresh, _, hcontents⟩

/-- `bite` of a list that the thread holds returns. -/
theorem Contents.exists_bite (h : Contents σ nodes) (hp : p ∈ σ.held) (amount : Nat) :
    ∃ s' part2, Returns (σ.list.bite p amount) (s', p, part2) := by
  obtain ⟨s', part2, hreturns, -⟩ := (h.listed p (.inr hp)).bite_returns (h.ne_null hp) amount
  exact ⟨s', part2, hreturns⟩

/-- `push` of a list that the thread holds returns true, when it may make an attempt. -/
theorem Contents.exists_push (h : Contents σ nodes) (hp : p ∈ σ.held) (hattempts : attempts ≠ 0) :
    ∃ s', Returns (σ.list.push alone attempts p) (s', true) := by
  have hapart : (nodes p).Disjoint (nodes σ.list.head) :=
    h.apart p σ.list.head (.inr hp) (.inl rfl) (ne_of_mem_of_not_mem hp h.head)
  obtain ⟨s', hreturns, -⟩ := (h.listed p (.inr hp)).push_returns (h.ne_null hp)
    (h.listed σ.list.head (.inl rfl)) hapart hattempts
  exact ⟨s', hreturns⟩

/-- `snatch_part` is `snatch`, `bite` and `push`, one after the other. -/
theorem snatchPart_returns {s₂ s₃ : AtomicPushSnatchList} {pushed : Bool}
    (hbite : Returns (s.snatch.1.bite s.snatch.2 amount) (s₂, part1, part2))
    (hpush : Returns (s₂.push alone (-1) part2) (s₃, pushed)) :
    Returns (s.snatchPart amount) (s₃, part1) := by
  have hpair : Returns (fun _ => some (s₃, part1)) (s₃, part1) := Returns.of_eq fun _ => rfl
  have hrest : Returns (fun fuel => (s₂.push alone (-1) part2 fuel).bind
      fun pushed => some (pushed.1, part1)) (s₃, part1) := by
    apply hpush.andThen hpair
    intro fuel hfuel
    rw [hfuel]
    rfl
  apply hbite.andThen hrest
  intro fuel hfuel
  show (s.snatch.1.bite s.snatch.2 amount fuel).bind _ = _
  rw [hfuel]
  rfl

theorem Contents.snatchPart (h : Contents σ nodes)
    (hok : Returns (σ.list.snatchPart amount) (s', part1)) :
    ∃ nodes', Contents ⟨s', hold σ.held part1⟩ nodes' := by
  have hsnatch := h.snatch
  by_cases hhead : σ.list.head = nullLink
  · -- nothing was snatched
    have hnothing : σ.list.snatch = (σ.list, nullLink) := if_pos hhead
    have hreturns : Returns (σ.list.snatchPart amount) (σ.list, nullLink) := by
      apply snatchPart_returns
      · rw [hnothing]
        exact bite_null
      · exact push_null
    obtain ⟨rfl, rfl⟩ := Prod.mk.inj (hok.unique hreturns)
    rw [hold_null]
    exact ⟨nodes, h⟩
  · have hsnatched : σ.list.snatch = ({ σ.list with head := nullLink }, σ.list.head) :=
      if_neg hhead
    rw [hsnatched, hold_of_ne hhead] at hsnatch
    have hheld : σ.list.head ∈ insert σ.list.head σ.held := Finset.mem_insert_self ..
    obtain ⟨s₂, part2, hbite⟩ := hsnatch.exists_bite hheld amount
    obtain ⟨-, hne, hfresh, nodes₂, hbitten⟩ := hsnatch.bite_returns hheld hbite
    have hback : hold ((insert σ.list.head σ.held).erase σ.list.head) σ.list.head =
        insert σ.list.head σ.held := by
      rw [hold_of_ne hhead, Finset.insert_erase hheld]
    have hbite' : Returns (σ.list.snatch.1.bite σ.list.snatch.2 amount)
        (s₂, σ.list.head, part2) := by
      rw [hsnatched]
      exact hbite
    dsimp only at hfresh
    rw [hback] at hbitten
    by_cases hpart2 : part2 = nullLink
    · -- the whole list was bitten off
      subst hpart2
      obtain ⟨rfl, rfl⟩ := Prod.mk.inj (hok.unique (snatchPart_returns hbite' push_null))
      rw [hold_null] at hbitten
      rw [hold_of_ne hhead]
      exact ⟨nodes₂, hbitten⟩
    · rw [hold_of_ne hpart2] at hbitten
      have hheld₂ : part2 ∈ insert part2 (insert σ.list.head σ.held) :=
        Finset.mem_insert_self ..
      obtain ⟨s₃, hpush⟩ := hbitten.exists_push hheld₂ (show (-1 : Int) ≠ 0 by decide)
      obtain ⟨nodes₃, hpushed⟩ := hbitten.push_returns hheld₂ hpush
      obtain ⟨rfl, rfl⟩ := Prod.mk.inj (hok.unique (snatchPart_returns hbite' hpush))
      dsimp only at hpushed
      rw [if_pos rfl, Finset.erase_insert hfresh] at hpushed
      rw [hold_of_ne hhead]
      exact ⟨nodes₃, hpushed⟩

theorem Contents.step {σ' : Lists} (h : Contents σ nodes) (hstep : σ.Step σ') :
    ∃ nodes', Contents σ' nodes' := by
  have herase : σ.held.erase nullLink = σ.held := Finset.erase_eq_of_notMem h.null
  cases hstep with
  | push hheld hok =>
    rcases hheld with rfl | hheld
    · obtain ⟨rfl, rfl⟩ := Prod.mk.inj (hok.unique push_null)
      rw [if_pos rfl, herase]
      exact ⟨nodes, h⟩
    · exact h.push_returns hheld hok
  | snatch => exact ⟨_, h.snatch⟩
  | bite hheld hok =>
    rcases hheld with rfl | hheld
    · obtain ⟨rfl, hparts⟩ := Prod.mk.inj (hok.unique bite_null)
      obtain ⟨rfl, rfl⟩ := Prod.mk.inj hparts
      rw [hold_null, hold_null, herase]
      exact ⟨nodes, h⟩
    · obtain ⟨rfl, -, -, hcontents⟩ := h.bite_returns hheld hok
      exact hcontents
  | snatchPart hok => exact h.snatchPart hok

theorem Lists.Reachable.contents (h : σ.Reachable) : ∃ nodes, Contents σ nodes := by
  induction h with
  | @start σ hnull hhead hsingle =>
    refine ⟨fun p => if p ∈ σ.held then [p] else [], ?_, ?_, hnull, ?_⟩
    · rintro p (hp | hp)
      · have hp : p = nullLink := hp.trans hhead
        rw [hp, if_neg hnull]
        exact ⟨rfl, trivial, List.nodup_nil⟩
      · obtain ⟨hnext, hskip⟩ := hsingle p hp
        rw [if_pos hp]
        refine .of ⟨rfl, ne_of_mem_of_not_mem hp hnull, hnext⟩ ⟨?_, trivial⟩
        rw [hskip]
        exact List.mem_singleton_self p
    · intro p q hp hq hne
      split_ifs
      · exact List.disjoint_singleton.mpr fun hmem => hne (List.mem_singleton.mp hmem).symm
      · exact List.disjoint_nil_right _
      · exact List.disjoint_nil_left _
      · exact List.disjoint_nil_left _
    · rw [hhead]
      exact hnull
  | step _ hstep ih =>
    obtain ⟨nodes, hcontents⟩ := ih
    exact hcontents.step hstep

/-- Every list is as `get_tail` needs it, `bite` and `push` return and do what they say. -/
structure WellShaped (σ : Lists) : Prop where
  listed : ∀ p, σ.Root p → ∃ ps, Listed σ.list p ps
  apart : ∀ p q ps qs, σ.Root p → σ.Root q → p ≠ q → Listed σ.list p ps → Listed σ.list q qs →
    ps.Disjoint qs
  bite : ∀ p ∈ σ.held, ∀ ps amount, Listed σ.list p ps → ∃ s' part2,
    Returns (σ.list.bite p amount) (s', p, part2) ∧
      Listed s' p (ps.take (max 1 (min amount ps.length))) ∧
      Listed s' part2 (ps.drop (max 1 (min amount ps.length)))
  push : ∀ p ∈ σ.held, ∀ ps qs attempts, Listed σ.list p ps → Listed σ.list σ.list.head qs →
    attempts ≠ 0 → ∃ s', Returns (σ.list.push alone attempts p) (s', true) ∧ s'.head = p ∧
      Listed s' p (ps ++ qs)

theorem Contents.wellShaped (h : Contents σ nodes) : WellShaped σ := by
  have hapart : ∀ p q ps qs, σ.Root p → σ.Root q → p ≠ q → Listed σ.list p ps →
      Listed σ.list q qs → ps.Disjoint qs := by
    intro p q ps qs hp hq hne hps hqs
    rw [hps.linked.unique (h.listed p hp).linked, hqs.linked.unique (h.listed q hq).linked]
    exact h.apart p q hp hq hne
  refine ⟨fun p hp => ⟨nodes p, h.listed p hp⟩, hapart, ?_, ?_⟩
  · intro p hp ps amount hps
    obtain ⟨s', part2, hreturns, hfirst, hsecond, -⟩ := hps.bite_returns (h.ne_null hp) amount
    exact ⟨s', part2, hreturns, hfirst, hsecond⟩
  · intro p hp ps qs attempts hps hqs hattempts
    have hdisjoint := hapart p _ ps qs (.inr hp) (.inl rfl) (ne_of_mem_of_not_mem hp h.head) hps hqs
    obtain ⟨s', hreturns, hhead, hlisted, -⟩ :=
      hps.push_returns (h.ne_null hp) hqs hdisjoint hattempts
    exact ⟨s', hreturns, hhead, hlisted⟩

end

/-- **`get_tail` returns the last node of every list whose skip links go to the node itself or
forward, and every sequence of calls keeps all lists so.** -/
theorem getTail_returns_and_wellShaped :
    (∀ (s : AtomicPushSnatchList) (list tail : Nat) (ps : List Nat),
      Linked nullLink s.next list ps →
      Skips s.skip ps → ps.getLast? = some tail → Returns (s.getTail list) tail) ∧
    ∀ σ : Lists, σ.Reachable → WellShaped σ := by
  constructor
  · intro s list tail ps hlinked hskips hlast
    exact (Listed.of hlinked hskips).getTail_returns hlast
  · intro σ hreachable
    obtain ⟨nodes, hcontents⟩ := hreachable.contents
    exact hcontents.wellShaped

/-- The list `1, 2, 3`, whose skip links go one node further. -/
def threeNodes : AtomicPushSnatchList where
  head := nullLink
  next n := if n = 1 then 2 else if n = 2 then 3 else nullLink
  skip n := if n = 1 then 2 else 3

/-- Two single nodes. -/
def twoNodes : Lists := ⟨⟨nullLink, fun _ => nullLink, id⟩, {1, 2}⟩

theorem getTail_returns_threeNodes : Returns (threeNodes.getTail 1) 3 ∧ WellShaped twoNodes := by
  have hlinked : Linked nullLink threeNodes.next 1 [1, 2, 3] :=
    ⟨rfl, by decide, rfl, by decide, rfl, by decide, rfl⟩
  have hskips : Skips threeNodes.skip [1, 2, 3] := ⟨by decide, by decide, by decide, trivial⟩
  have hreachable : twoNodes.Reachable := .start (by decide) rfl fun _ _ => ⟨rfl, rfl⟩
  exact ⟨getTail_returns_and_wellShaped.1 threeNodes 1 3 [1, 2, 3] hlinked hskips rfl,
    getTail_returns_and_wellShaped.2 twoNodes hreachable⟩

end Cuw3.AtomicPushSnatchList
