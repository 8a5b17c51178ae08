/-
  Runs of an arena allocator by its owner and its clients.

  `Step` lists what can happen between two states: the owner allocates (from an arena of the bins or
  from a fresh one), frees, snatches the list of retired arenas, walks it, postpones it; a client
  retires an allocation.  `Inv` adds to `Holds` the shape of the retired lists (`Queued`): the list
  of the root, the postponed one and the one being walked are disjoint null-terminated lists of held
  arenas, exactly the held arenas whose retired flag is set.  It holds of every reachable state
  (`Reachable.inv`).
-/
import Cuw3.Arena.Equiv.Allocator
import Cuw3.Lib.Linked

namespace Cuw3

open Lib

/-! ### Fresh arenas -/

/-- An arena that has just been created, or was reset, with a clear retire word. -/
structure FastArena.Fresh (arena : FastArena) : Prop extends FastArena.Static arena where
  freed : arena.freed = 0
  top : arena.top = 0
  head : arena.retireReclaimEntry.head = 0
  linked : arena.linked = false

namespace FastArena

variable {arena : FastArena}

theorem Fresh.law (h : arena.Fresh) : arena.Law [] where
  toStatic := h.toStatic
  top_dvd := h.top ▸ Nat.dvd_zero _
  freed_dvd := h.freed ▸ Nat.dvd_zero _
  top_le := by simp [h.top]
  range := by simp
  size_pos := by simp
  accounted := by simp [h.freed, h.top, pending, h.head]

/-- A request of at most the arena's size takes some bytes of it. -/
theorem Static.requiredSpace_pos (h : arena.Static) {size : Nat} (hpos : 0 < size)
    (hle : size ≤ arena.arenaMemorySize) : 0 < arena.requiredSpace size := by
  have hbound := h.bound
  have hmem := Nat.le_of_dvd h.memory_pos h.memory_dvd
  rw [requiredSpace_of_le (by omega)]
  exact alignUp_pos h.alignment_pos hpos

end FastArena

/-! ### States and steps -/

namespace ArenaAllocator

/-- The memory, the allocator and the list of retired arenas that the owner is walking; by arena,
the allocations that the clients hold; and the arenas that were given to the allocator and not
handed back. -/
structure State (B : Type) where
  heap : Heap
  alloc : ArenaAllocator B
  walking : Nat
  live : Nat → List Allocation
  given : List Nat

variable {B : Type}

/-- One operation that returns.  `held` are the arenas in the bins, `Suitable` the arenas that they
take. -/
inductive Step (ops : AllocatorOps B) (held : B → List Nat) (Suitable : B → FastArena → Prop) :
    State B → State B → Prop
  /-- The bins have an arena for the request, and it serves the request. -/
  | allocate {s : State B} {size alignment p heap₁ bins₁ m heap' alloc'} (hsize : size < 2 ^ 64)
      (hacquire : ops.acquire s.heap s.alloc.bins size alignment = .ok (.acquired p, heap₁, bins₁))
      (hok : ops.allocate heap₁ { s.alloc with bins := bins₁ } p size = .ok (m, heap', alloc')) :
      Step ops held Suitable s
        ⟨heap', alloc', s.walking, Function.update s.live p (⟨m, size⟩ :: s.live p), s.given⟩
  /-- The bins have no arena for the request. -/
  | acquireNone {s : State B} {size alignment r heap' bins'}
      (hok : ops.acquire s.heap s.alloc.bins size alignment = .ok (r, heap', bins'))
      (hr : ∀ p, r ≠ .acquired p) :
      Step ops held Suitable s ⟨heap', { s.alloc with bins := bins' }, s.walking, s.live, s.given⟩
  /-- A fresh arena with room for the request serves it, or null is returned. -/
  | allocateFresh {s : State B} {p arena size m heap' alloc'} (hp : p ∉ held s.alloc.bins)
      (hlt : p < 2 ^ 64) (hfresh : arena.Fresh) (hsuit : Suitable s.alloc.bins arena)
      (hroom : size ≤ arena.arenaMemorySize)
      (hok : ops.allocate (Function.update s.heap p arena) s.alloc p size =
        .ok (m, heap', alloc')) :
      Step ops held Suitable s ⟨heap', alloc', s.walking,
        if m = 0 then s.live else Function.update s.live p [⟨m, size⟩],
        if m = 0 then s.given else p :: s.given⟩
  /-- The owner frees a live allocation.  A drained arena is handed back. -/
  | deallocate {s : State B} {p l r heap' alloc'} (hl : l ∈ s.live p)
      (hok : ops.deallocate s.heap s.alloc p l.memory l.size = .ok (r, heap', alloc')) :
      Step ops held Suitable s ⟨heap', alloc', s.walking,
        Function.update s.live p (if r = 0 then (s.live p).erase l else []),
        if r = 0 then s.given else s.given.erase r⟩
  /-- Another thread frees a live allocation whose size is a multiple of the alignment. -/
  | retire {s : State B} {p l old heap' alloc'} (hl : l ∈ s.live p)
      (hdvd : (s.heap p).arenaAlignment ∣ l.size)
      (hok : ArenaAllocator.retire ops.toBinsOps s.heap s.alloc p l.memory l.size =
        .ok (old, heap', alloc')) :
      Step ops held Suitable s
        ⟨heap', alloc', s.walking, Function.update s.live p ((s.live p).erase l), s.given⟩
  /-- The owner starts to walk a list of retired arenas. -/
  | reclaimArenas {s : State B} {head alloc'} (hwalk : s.walking = 0)
      (hok : s.alloc.reclaimArenas = .ok (head, alloc')) :
      Step ops held Suitable s ⟨s.heap, alloc', head, s.live, s.given⟩
  /-- The owner pops the next arena of its walk and reclaims it. -/
  | reclaimArena {s : State B} {p head heap₁ r heap' alloc'}
      (hpop : FastArenaReclaimList.pop s.heap s.walking = .ok (p, head, heap₁))
      (hok : ops.reclaimArena heap₁ s.alloc p = .ok (r, heap', alloc')) :
      Step ops held Suitable s
        ⟨heap', alloc', head, if r = 0 then s.live else Function.update s.live p [],
          if r = 0 then s.given else s.given.erase r⟩
  /-- The owner puts the rest of its walk off. -/
  | postpone {s : State B} {alloc'} (hok : s.alloc.postpone s.walking = .ok alloc') :
      Step ops held Suitable s ⟨s.heap, alloc', 0, s.live, s.given⟩

/-- The states that runs reach from an allocator that has just been created. -/
inductive Reachable (ops : AllocatorOps B) (held : B → List Nat)
    (Suitable : B → FastArena → Prop) (init : ArenaAllocator B) : State B → Prop
  | init (heap : Heap) : Reachable ops held Suitable init ⟨heap, init, 0, fun _ => [], []⟩
  | step {s s'} (h : Reachable ops held Suitable init s) (hstep : Step ops held Suitable s s') :
      Reachable ops held Suitable init s'

end ArenaAllocator

/-! ### The retired lists -/

namespace BinsLaw

variable {B : Type} {ops : AllocatorOps B} (law : BinsLaw ops)

/-- The links between retired arenas. -/
def nexts (heap : Heap) (p : Nat) : Nat := (heap p).retireReclaimEntry.next

/-- The retired lists: the one of the root, whose flag is always set, the postponed one and the one
being walked.  They are made of the held arenas that have a pending count. -/
structure Queued (heap : Heap) (alloc : ArenaAllocator B) (walking : Nat)
    (root postponed walk : List Nat) : Prop where
  locked : alloc.retiredArenas.head % 2 = 1
  word : alloc.retiredArenas.head < 2 ^ 64
  rootLinked : Linked 0 (nexts heap) (alloc.retiredArenas.head / 2 * 2) root
  postponedLinked : Linked 0 (nexts heap) alloc.retiredArenas.nextPostponed postponed
  walkLinked : Linked 0 (nexts heap) walking walk
  nodup : (root ++ postponed ++ walk).Nodup
  queued : ∀ q ∈ root ++ postponed ++ walk, q ∈ law.held alloc.bins ∧ (heap q).flagged ∧
    0 < (heap q).pending ∧ (heap q).arenaAlignment ∣ (heap q).pending
  idle : ∀ q ∈ law.held alloc.bins, q ∉ root ++ postponed ++ walk →
    (heap q).retireReclaimEntry.head = 0

variable {law} {heap heap' : Heap} {alloc alloc' : ArenaAllocator B} {walking : Nat}
  {root postponed walk : List Nat} {live : Nat → List Allocation} {p : Nat}

/-- The lists do not depend on anything but the entries of the arenas in them. -/
theorem Queued.congr (h : law.Queued heap alloc walking root postponed walk)
    (hretired : alloc'.retiredArenas = alloc.retiredArenas)
    (hsame : ∀ q ∈ root ++ postponed ++ walk, q ∈ law.held alloc'.bins ∧
      (heap' q).retireReclaimEntry = (heap q).retireReclaimEntry ∧
      (heap' q).arenaAlignment = (heap q).arenaAlignment)
    (hidle : ∀ q ∈ law.held alloc'.bins, q ∉ root ++ postponed ++ walk →
      (heap' q).retireReclaimEntry.head = 0) :
    law.Queued heap' alloc' walking root postponed walk := by
  have hnext : ∀ q ∈ root ++ postponed ++ walk, nexts heap' q = nexts heap q := fun q hq => by
    rw [nexts, (hsame q hq).2.1, nexts]
  simp only [List.append_assoc, List.mem_append] at hnext
  refine ⟨?_, ?_, ?_, ?_, ?_, h.nodup, ?_, hidle⟩
  · rw [hretired]
    exact h.locked
  · rw [hretired]
    exact h.word
  · rw [hretired]
    exact h.rootLinked.congr fun q hq => hnext q (.inl hq)
  · rw [hretired]
    exact h.postponedLinked.congr fun q hq => hnext q (.inr (.inl hq))
  · exact h.walkLinked.congr fun q hq => hnext q (.inr (.inr hq))
  · intro q hq
    obtain ⟨-, hflag, hpos, hdvd⟩ := h.queued q hq
    obtain ⟨hheld, hentry, halign⟩ := hsame q hq
    rw [FastArena.flagged, FastArena.pending, hentry, halign]
    exact ⟨hheld, hflag, hpos, hdvd⟩

/-- What `retire` did to the arena and to the root. -/
theorem Holds.retire_cases (h : law.Holds heap alloc.bins live) (hp : p ∈ law.held alloc.bins)
    {l : Allocation} (hl : l ∈ live p) {old : Nat}
    (hok : alloc.retire ops.toBinsOps heap p l.memory l.size = .ok (old, heap', alloc')) :
    let head := 2 * u64 ((heap p).pending + l.size) + 1
    u64 ((heap p).pending + l.size) < 2 ^ 63 ∧
    (((heap p).flagged ∧ heap' = Function.update heap p ((heap p).withHead head) ∧ alloc' = alloc) ∨
      (¬(heap p).flagged ∧ p % 2 = 0 ∧
        heap' = Function.update heap p (((heap p).withHead head).withNext
          (RetireReclaimPtr.ptr alloc.retiredArenas.head)) ∧
        alloc' = { alloc with retiredArenas := { alloc.retiredArenas with head := p + 1 } })) := by
  intro head
  simp only [ArenaAllocator.retire, bind_eq_ok, check_eq_ok, exists_const, Prod.exists,
    (h.arena p hp).retireAllocation_eq_ok hl] at hok
  obtain ⟨-, -, -, -, old', view, ⟨hcount, rfl, rfl⟩, hok⟩ := hok
  refine ⟨hcount, ?_⟩
  by_cases hflag : (heap p).flagged
  · have hret : retired (heap p).retireReclaimEntry.head = true := by
      rw [retired_eq, decide_eq_true_eq]
      exact hflag
    simp only [hret, if_true, pure_eq_ok, Prod.mk.injEq] at hok
    obtain ⟨-, rfl, rfl⟩ := hok
    exact .inl ⟨hflag, rfl, rfl⟩
  · have hret : retired (heap p).retireReclaimEntry.head = false := by
      rw [retired_eq, decide_eq_false_iff_not]
      exact hflag
    simp only [hret, Bool.false_eq_true, if_false, bind_eq_ok, Prod.exists,
      RetireReclaimPtrView.retirePtr_eq_ok, pure_eq_ok, Prod.mk.injEq] at hok
    obtain ⟨_, _, ⟨hp2, rfl, rfl⟩, -, rfl, rfl⟩ := hok
    exact .inr ⟨hflag, hp2, rfl, rfl⟩

/-- Retiring keeps the bins and their arenas. -/
theorem Holds.retire (h : law.Holds heap alloc.bins live) (hp : p ∈ law.held alloc.bins)
    {l : Allocation} (hl : l ∈ live p) {old : Nat}
    (hok : alloc.retire ops.toBinsOps heap p l.memory l.size = .ok (old, heap', alloc')) :
    alloc'.bins = alloc.bins ∧
      law.Holds heap' alloc.bins (Function.update live p ((live p).erase l)) := by
  obtain ⟨hcount, hcases⟩ := h.retire_cases hp hl hok
  have hlaw := (h.arena p hp).retireAllocation hl
    (((h.arena p hp).retireAllocation_eq_ok hl).mpr ⟨hcount, rfl, rfl⟩)
  rcases hcases with ⟨-, rfl, rfl⟩ | ⟨-, -, rfl, rfl⟩
  · exact ⟨rfl, h.write ⟨rfl, rfl, rfl, rfl, rfl⟩ ⟨rfl, rfl, rfl, rfl⟩ hlaw (h.busy p hp)⟩
  · exact ⟨rfl, h.write ⟨rfl, rfl, rfl, rfl, rfl⟩ ⟨rfl, rfl, rfl, rfl⟩ (hlaw.withNext _)
      (h.busy p hp)⟩

/-- Retiring keeps the lists: the arena is in one of them, or it is pushed onto the root's. -/
theorem Queued.retire (h : law.Queued heap alloc walking root postponed walk)
    (hholds : law.Holds heap alloc.bins live) (hp : p ∈ law.held alloc.bins)
    {l : Allocation} (hl : l ∈ live p) (hdvd : (heap p).arenaAlignment ∣ l.size) {old : Nat}
    (hok : alloc.retire ops.toBinsOps heap p l.memory l.size = .ok (old, heap', alloc')) :
    ∃ root', law.Queued heap' alloc' walking root' postponed walk := by
  obtain ⟨hcount, hcases⟩ := hholds.retire_cases hp hl hok
  have hlaw := hholds.arena p hp
  have hpos := (law.member hholds.wf hp).1
  obtain ⟨hlpos, -⟩ := hlaw.size_pos l hl
  rw [hlaw.u64_pending hl hdvd] at hcases hcount
  have hhalf : (2 * ((heap p).pending + l.size) + 1) / 2 = (heap p).pending + l.size := by omega
  rcases hcases with ⟨hflag, rfl, rfl⟩ | ⟨hflag, hp2, rfl, rfl⟩
  · have hmem : p ∈ root ++ postponed ++ walk := by
      by_contra hnot
      have hzero := h.idle p hp hnot
      rw [FastArena.flagged, hzero] at hflag
      exact absurd hflag (by decide)
    have hnext : nexts (Function.update heap p ((heap p).withHead
        (2 * ((heap p).pending + l.size) + 1))) = nexts heap := by
      funext q
      by_cases hqp : q = p
      · subst hqp
        simp only [nexts, Function.update_self]
        rfl
      · simp only [nexts, Function.update_of_ne hqp]
    refine ⟨root, h.locked, h.word, ?_, ?_, ?_, h.nodup, fun q hq => ?_, fun q hq hnot => ?_⟩
    · rw [hnext]
      exact h.rootLinked
    · rw [hnext]
      exact h.postponedLinked
    · rw [hnext]
      exact h.walkLinked
    · by_cases hqp : q = p
      · subst hqp
        rw [Function.update_self]
        refine ⟨hp, ?_, ?_, ?_⟩
        · change (2 * ((heap q).pending + l.size) + 1) % 2 = 1
          omega
        · rw [FastArena.withHead_pending]
          omega
        · rw [FastArena.withHead_pending, hhalf]
          exact Nat.dvd_add (h.queued q hq).2.2.2 hdvd
      · rw [Function.update_of_ne hqp]
        exact h.queued q hq
    · rw [Function.update_of_ne (ne_of_mem_of_not_mem hmem hnot).symm]
      exact h.idle q hq hnot
  · have hmem : p ∉ root ++ postponed ++ walk := fun hmem => hflag (h.queued p hmem).2.1
    have hzero := h.idle p hp hmem
    have hptr : RetireReclaimPtr.ptr alloc.retiredArenas.head = alloc.retiredArenas.head / 2 * 2 :=
      RetireReclaimPtr.ptr_eq h.word
    have hnext : nexts (Function.update heap p (((heap p).withHead
        (2 * ((heap p).pending + l.size) + 1)).withNext
        (RetireReclaimPtr.ptr alloc.retiredArenas.head))) =
        Function.update (nexts heap) p (alloc.retiredArenas.head / 2 * 2) := by
      funext q
      by_cases hqp : q = p
      · subst hqp
        simp only [nexts, Function.update_self, ← hptr]
        rfl
      · simp only [nexts, Function.update_of_ne hqp]
    have hsplit := hmem
    simp only [List.append_assoc, List.mem_append, not_or] at hsplit
    obtain ⟨hroot, hpost, hwalk⟩ := hsplit
    refine ⟨p :: root, ?_, ?_, ?_, ?_, ?_, ?_, fun q hq => ?_, fun q hq hnot => ?_⟩
    · change (p + 1) % 2 = 1
      omega
    · change p + 1 < 2 ^ 64
      omega
    · change Linked 0 _ ((p + 1) / 2 * 2) _
      rw [hnext, show (p + 1) / 2 * 2 = p by omega]
      exact h.rootLinked.push (by omega) hroot
    · rw [hnext]
      exact h.postponedLinked.update hpost _
    · rw [hnext]
      exact h.walkLinked.update hwalk _
    · exact List.nodup_cons.mpr ⟨hmem, h.nodup⟩
    · rcases List.mem_cons.mp hq with rfl | hq
      · rw [Function.update_self]
        refine ⟨hp, ?_, ?_, ?_⟩
        · change (2 * ((heap q).pending + l.size) + 1) % 2 = 1
          omega
        · change 0 < (2 * ((heap q).pending + l.size) + 1) / 2
          omega
        · change (heap q).arenaAlignment ∣ (2 * ((heap q).pending + l.size) + 1) / 2
          rw [hhalf, FastArena.pending, hzero]
          simpa using hdvd
      · rw [Function.update_of_ne (ne_of_mem_of_not_mem hq hmem)]
        exact h.queued q hq
    · simp only [List.cons_append, List.mem_cons, not_or] at hnot
      rw [Function.update_of_ne hnot.1]
      exact h.idle q hq hnot.2

/-- The owner starts to walk the postponed list, or the list it snatches from the root. -/
theorem Queued.reclaimArenas (h : law.Queued heap alloc 0 root postponed walk) {head : Nat}
    (hok : alloc.reclaimArenas = .ok (head, alloc')) :
    alloc'.bins = alloc.bins ∧
      ∃ root' postponed' walk', law.Queued heap alloc' head root' postponed' walk' := by
  have hwalk : walk = [] := Linked.null_iff.mp h.walkLinked
  subst hwalk
  have hnodup := h.nodup
  rw [ArenaAllocator.reclaimArenas] at hok
  split_ifs at hok with hpost
  · simp only [pure_eq_ok, Prod.mk.injEq] at hok
    obtain ⟨rfl, rfl⟩ := hok
    refine ⟨rfl, root, [], postponed, h.locked, h.word, h.rootLinked, rfl, h.postponedLinked, ?_,
      ?_,
      ?_⟩
    · simpa using hnodup
    · simpa using h.queued
    · simpa using h.idle
  · rw [not_not] at hpost
    have hnil : postponed = [] := by
      have hlinked := h.postponedLinked
      rw [hpost] at hlinked
      exact Linked.null_iff.mp hlinked
    subst hnil
    simp only [bind_eq_ok, Prod.exists, RetireReclaimPtrView.reclaim_eq_ok, pure_eq_ok,
      Prod.mk.injEq] at hok
    obtain ⟨_, _, ⟨-, rfl, rfl⟩, rfl, rfl⟩ := hok
    refine ⟨rfl, [], [], root, rfl, show 1 < 2 ^ 64 by decide, show Linked 0 _ (1 / 2 * 2)
      [] from rfl,
      ?_, ?_, ?_, ?_, ?_⟩
    · exact h.postponedLinked
    · rw [RetireReclaimPtr.ptr_eq h.word]
      exact h.rootLinked
    · simpa using hnodup
    · simpa using h.queued
    · simpa using h.idle

/-- The owner puts its walk off. -/
theorem Queued.postpone (h : law.Queued heap alloc walking root postponed walk)
    (hok : alloc.postpone walking = .ok alloc') :
    alloc'.bins = alloc.bins ∧ law.Queued heap alloc' 0 root walk [] := by
  simp only [ArenaAllocator.postpone, bind_eq_ok, check_eq_ok, exists_const, pure_eq_ok] at hok
  obtain ⟨hpost, rfl⟩ := hok
  have hnil : postponed = [] := by
    have hlinked := h.postponedLinked
    rw [hpost] at hlinked
    exact Linked.null_iff.mp hlinked
  subst hnil
  refine ⟨rfl, h.locked, h.word, h.rootLinked, h.walkLinked, rfl, ?_, ?_, ?_⟩
  · simpa using h.nodup
  · simpa using h.queued
  · simpa using h.idle

/-- Popping takes the first arena of the walk and clears its link. -/
theorem Queued.pop (h : law.Queued heap alloc walking root postponed walk) {head : Nat}
    {heap₁ : Heap} (hok : FastArenaReclaimList.pop heap walking = .ok (p, head, heap₁)) :
    ∃ rest, walk = p :: rest ∧ p = walking ∧
      heap₁ = Function.update heap p ((heap p).withNext 0) ∧ head = nexts heap p := by
  simp only [FastArenaReclaimList.pop, bind_eq_ok, assert_eq_ok, exists_const, pure_eq_ok,
    Prod.mk.injEq] at hok
  obtain ⟨hne, rfl, rfl, rfl⟩ := hok
  obtain ⟨rest, rfl, -⟩ := h.walkLinked.of_ne_null hne
  exact ⟨rest, rfl, rfl, rfl, rfl⟩

/-! ### The invariant of runs -/

/-- What holds of every reachable state. -/
structure Inv (law : BinsLaw ops) (s : ArenaAllocator.State B) : Prop where
  holds : law.Holds s.heap s.alloc.bins s.live
  queued : ∃ root postponed walk, law.Queued s.heap s.alloc s.walking root postponed walk
  live_held : ∀ p, s.live p ≠ [] → p ∈ law.held s.alloc.bins
  given : (law.held s.alloc.bins).Perm s.given

variable {s s' : ArenaAllocator.State B}

/-- Changing the allocations of a held arena. -/
theorem mem_held_of_update {held : List Nat} {allocs : List Allocation}
    (hlive : ∀ q, live q ≠ [] → q ∈ held) (hp : p ∈ held) (q : Nat)
    (hq : Function.update live p allocs q ≠ []) : q ∈ held := by
  by_cases hqp : q = p
  · exact hqp ▸ hp
  · rw [Function.update_of_ne hqp] at hq
    exact hlive q hq

/-- Serving a request from a held arena that `acquire` took out. -/
theorem Inv.allocate (h : law.Inv s) {size alignment m : Nat} {heap₁ : Heap} {bins₁ : B}
    (hsize : size < 2 ^ 64)
    (hacquire : ops.acquire s.heap s.alloc.bins size alignment = .ok (.acquired p, heap₁, bins₁))
    (hok : ops.allocate heap₁ { s.alloc with bins := bins₁ } p size = .ok (m, heap', alloc')) :
    law.Inv ⟨heap', alloc', s.walking, Function.update s.live p (⟨m, size⟩ :: s.live p),
      s.given⟩ := by
  obtain ⟨hframe, hwf, hperm, hlinked, -⟩ := law.acquire h.holds.wf hacquire
  obtain ⟨hholds, hp, hnot⟩ := h.holds.taken hframe hwf hperm
  obtain ⟨-, hpos, ⟨rfl, -, -⟩ | ⟨fmt, hfrom⟩⟩ := law.allocate_cases hok
  · exact absurd rfl (law.acquire_allocate h.holds.wf hacquire hok)
  obtain ⟨⟨hp0, hp64⟩, hsuit, -⟩ := law.member h.holds.wf hp
  have hholds' : law.Holds heap₁ ({ s.alloc with bins := bins₁ } : ArenaAllocator B).bins s.live :=
    hholds
  obtain ⟨hretired, hserved, -⟩ := hholds'.allocateFrom hnot hp0
    hp64 (by rw [hframe.suitable]; exact law.suitable_congr (hframe.links.sameBlock p) hsuit)
    (hframe.links.law (h.holds.arena p hp)) hlinked hpos hsize
    (.inl (by rw [hframe.links p]; exact h.holds.busy p hp)) hfrom
  have hheld : (law.held alloc'.bins).Perm (law.held s.alloc.bins) := hserved.perm.trans hperm
  have hentry : ∀ q, (heap' q).retireReclaimEntry = (s.heap q).retireReclaimEntry := fun q => by
    rw [hserved.entry q, hframe.links q]
  obtain ⟨root, postponed, walk, hqueued⟩ := h.queued
  refine ⟨hserved.holds, ⟨root, postponed, walk, hqueued.congr hretired ?_ ?_⟩, ?_,
    hheld.trans h.given⟩
  · intro q hq
    refine ⟨hheld.symm.subset (hqueued.queued q hq).1, hentry q, ?_⟩
    exact ((hframe.links.sameBlock q).trans (hserved.block q)).alignment
  · intro q hq hnot
    rw [hentry q]
    exact hqueued.idle q (hheld.subset hq) hnot
  · exact fun q hq => hheld.symm.subset (mem_held_of_update h.live_held hp q hq)

/-- The bins had nothing for the request. -/
theorem Inv.acquireNone (h : law.Inv s) {size alignment : Nat} {r : AcquiredResource} {bins' : B}
    (hok : ops.acquire s.heap s.alloc.bins size alignment = .ok (r, heap', bins'))
    (hr : ∀ p, r ≠ .acquired p) :
    law.Inv ⟨heap', { s.alloc with bins := bins' }, s.walking, s.live, s.given⟩ := by
  obtain ⟨hframe, hwf, hperm⟩ := law.acquire h.holds.wf hok
  have hheld : (law.held bins').Perm (law.held s.alloc.bins) := by
    cases r with
    | failed => exact hperm
    | noResource => exact hperm
    | acquired p => exact absurd rfl (hr p)
  have hentry : ∀ q, (heap' q).retireReclaimEntry = (s.heap q).retireReclaimEntry := fun q => by
    rw [hframe.links q]
  obtain ⟨root, postponed, walk, hqueued⟩ := h.queued
  refine ⟨h.holds.frame hframe hwf fun q hq => hheld.subset hq,
    ⟨root, postponed, walk, hqueued.congr rfl ?_ ?_⟩, fun q hq => ?_, hheld.trans h.given⟩
  · intro q hq
    exact ⟨hheld.symm.subset (hqueued.queued q hq).1, hentry q,
      (hframe.links.sameBlock q).alignment⟩
  · intro q hq hnot
    rw [hentry q]
    exact hqueued.idle q (hheld.subset hq) hnot
  · exact hheld.symm.subset (h.live_held q hq)

/-- A fresh arena serves a request, or it is left out of the bins. -/
theorem Inv.allocateFresh (h : law.Inv s) {arena : FastArena} {size m : Nat}
    (hp : p ∉ law.held s.alloc.bins) (hlt : p < 2 ^ 64) (hfresh : arena.Fresh)
    (hsuit : law.Suitable s.alloc.bins arena) (hroom : size ≤ arena.arenaMemorySize)
    (hok : ops.allocate (Function.update s.heap p arena) s.alloc p size = .ok (m, heap', alloc')) :
    law.Inv ⟨heap', alloc', s.walking,
      if m = 0 then s.live else Function.update s.live p [⟨m, size⟩],
      if m = 0 then s.given else p :: s.given⟩ := by
  have hnil : s.live p = [] := by
    by_contra hne
    exact hp (h.live_held p hne)
  have hne : ∀ q ∈ law.held s.alloc.bins, q ≠ p := fun q hq => ne_of_mem_of_not_mem hq hp
  have hholds : law.Holds (Function.update s.heap p arena) s.alloc.bins s.live :=
    h.holds.congr fun q hq => ⟨Function.update_of_ne (hne q hq) _ _, rfl⟩
  obtain ⟨root, postponed, walk, hqueued⟩ := h.queued
  have hqueued' : law.Queued (Function.update s.heap p arena) s.alloc s.walking root postponed
    walk :=
    hqueued.congr rfl
      (fun q hq => by
        have hheld := (hqueued.queued q hq).1
        rw [Function.update_of_ne (hne q hheld)]
        exact ⟨hheld, rfl, rfl⟩)
      (fun q hq hnot => by
        rw [Function.update_of_ne (hne q hq)]
        exact hqueued.idle q hq hnot)
  obtain ⟨hp0, hpos, ⟨rfl, rfl, rfl⟩ | ⟨fmt, hfrom⟩⟩ := law.allocate_cases hok
  · exact ⟨hholds, ⟨root, postponed, walk, hqueued'⟩, h.live_held, h.given⟩
  obtain ⟨hretired, hserved, -⟩ := hholds.allocateFrom hp (Nat.pos_of_ne_zero hp0) hlt
    (by rwa [Function.update_self])
    (by rw [Function.update_self, hnil]; exact hfresh.law)
    (by rw [Function.update_self]; exact hfresh.linked) hpos
    (lt_of_le_of_lt hroom (lt_of_le_of_lt (Nat.le_add_left _ _) hfresh.bound))
    (.inr (by rw [Function.update_self]; exact hfresh.toStatic.requiredSpace_pos hpos hroom)) hfrom
  have hholds' := hserved.holds
  rw [hnil] at hholds'
  rw [if_neg hserved.nonnull, if_neg hserved.nonnull]
  refine ⟨hholds', ⟨root, postponed, walk, hqueued'.congr hretired ?_ ?_⟩, fun q hq => ?_,
    hserved.perm.trans (h.given.cons p)⟩
  · intro q hq
    refine ⟨hserved.perm.symm.subset (List.mem_cons_of_mem _ (hqueued.queued q hq).1),
      hserved.entry q, (hserved.block q).alignment⟩
  · intro q hq hnot
    rw [hserved.entry q]
    rcases List.mem_cons.mp (hserved.perm.subset hq) with rfl | hq
    · rw [Function.update_self]
      exact hfresh.head
    · exact hqueued'.idle q hq hnot
  · refine hserved.perm.symm.subset (mem_held_of_update (p := p) ?_ List.mem_cons_self q hq)
    exact fun q hq => List.mem_cons_of_mem _ (h.live_held q hq)

/-- Where the clients' allocations are after a free or a reclaim. -/
theorem Settled.live_held {heap heap' : Heap} {bins bins' : B} {entry : RetireReclaimEntry}
    {r : Nat}
    (hsettled : Settled law heap heap' bins bins' live p r entry) (hp0 : p ≠ 0)
    (hlive : ∀ q, live q ≠ [] → q ∈ law.held bins) (q : Nat)
    (hq : (if r = 0 then live else Function.update live p []) q ≠ []) : q ∈ law.held bins' := by
  rcases hsettled.result with ⟨rfl, hperm, -⟩ | ⟨rfl, hperm, -⟩
  · rw [if_pos rfl] at hq
    exact hperm.symm.subset (hlive q hq)
  · rw [if_neg hp0] at hq
    have hqp : q ≠ r := by
      rintro rfl
      rw [Function.update_self] at hq
      exact hq rfl
    rw [Function.update_of_ne hqp] at hq
    exact (List.mem_cons.mp (hperm.symm.subset (hlive q hq))).resolve_left hqp

theorem Settled.holds_live {heap heap' : Heap} {bins bins' : B} {entry : RetireReclaimEntry}
    {r : Nat}
    (hsettled : Settled law heap heap' bins bins' live p r entry) (hnodup : (law.held bins).Nodup)
    (hp0 : p ≠ 0) : law.Holds heap' bins' (if r = 0 then live else Function.update live p []) := by
  rcases hsettled.result with ⟨rfl, -⟩ | ⟨rfl, hperm, -⟩
  · rw [if_pos rfl]
    exact hsettled.holds
  · rw [if_neg hp0]
    have hnot := (List.nodup_cons.mp (hperm.nodup_iff.mpr hnodup)).1
    refine hsettled.holds.congr fun q hq => ⟨rfl, ?_⟩
    rw [Function.update_of_ne (ne_of_mem_of_not_mem hq hnot)]

theorem Settled.given {heap heap' : Heap} {bins bins' : B} {entry : RetireReclaimEntry} {r : Nat}
    {given : List Nat} (hsettled : Settled law heap heap' bins bins' live p r entry) (hp0 : p ≠ 0)
    (hgiven : (law.held bins).Perm given) :
    (law.held bins').Perm (if r = 0 then given else given.erase r) := by
  rcases hsettled.result with ⟨rfl, hperm, -⟩ | ⟨rfl, hperm, -⟩
  · rw [if_pos rfl]
    exact hperm.trans hgiven
  · rw [if_neg hp0]
    have herase := (hperm.trans hgiven).erase r
    rwa [List.erase_cons_head] at herase

theorem Inv.deallocate (h : law.Inv s) {l : Allocation} {r : Nat} (hl : l ∈ s.live p)
    (hok : ops.deallocate s.heap s.alloc p l.memory l.size = .ok (r, heap', alloc')) :
    law.Inv ⟨heap', alloc', s.walking,
      Function.update s.live p (if r = 0 then (s.live p).erase l else []),
      if r = 0 then s.given else s.given.erase r⟩ := by
  have hp := h.live_held p (List.ne_nil_of_mem hl)
  have hp0 : p ≠ 0 := Nat.pos_iff_ne_zero.mp (law.member h.holds.wf hp).1.1
  obtain ⟨fmt, hfrom⟩ := law.deallocate_cases hok
  obtain ⟨r', heap₁, alloc₁, heq, hretired, hsettled⟩ := h.holds.deallocateFrom hp hl fmt
  rw [hfrom, Except.ok.injEq, Prod.mk.injEq, Prod.mk.injEq] at heq
  obtain ⟨rfl, rfl, rfl⟩ := heq
  have hlive : Function.update s.live p (if r = 0 then (s.live p).erase l else []) =
      if r = 0 then Function.update s.live p ((s.live p).erase l)
      else Function.update (Function.update s.live p ((s.live p).erase l)) p [] := by
    split_ifs <;> simp
  rw [hlive]
  obtain ⟨root, postponed, walk, hqueued⟩ := h.queued
  refine ⟨hsettled.holds_live (law.nodup h.holds.wf) hp0,
    ⟨root, postponed, walk, hqueued.congr hretired ?_ ?_⟩, hsettled.live_held hp0 fun q hq => ?_,
    hsettled.given hp0 h.given⟩
  · intro q hq
    obtain ⟨hheld, -, hpending, -⟩ := hqueued.queued q hq
    have hentry : (heap' q).retireReclaimEntry = (s.heap q).retireReclaimEntry := by
      by_cases hqp : q = p
      · subst hqp
        exact hsettled.entry
      · rw [hsettled.others q hqp]
    refine ⟨?_, hentry, ?_⟩
    · rcases hsettled.result with ⟨-, hperm, -⟩ | ⟨rfl, hperm, -, -, -, hzero, -⟩
      · exact hperm.symm.subset hheld
      · refine (List.mem_cons.mp (hperm.symm.subset hheld)).resolve_left ?_
        rintro rfl
        rw [FastArena.pending, hentry] at hzero
        exact absurd hzero (Nat.pos_iff_ne_zero.mp hpending)
    · by_cases hqp : q = p
      · subst hqp
        exact hsettled.block.alignment
      · dsimp only
        rw [hsettled.others q hqp]
  · intro q hq hnot
    dsimp only
    have hheld : q ∈ law.held s.alloc.bins := by
      rcases hsettled.result with ⟨-, hperm, -⟩ | ⟨-, hperm, -⟩
      · exact hperm.subset hq
      · exact hperm.subset (List.mem_cons_of_mem _ hq)
    by_cases hqp : q = p
    · subst hqp
      rw [hsettled.entry]
      exact hqueued.idle q hheld hnot
    · rw [hsettled.others q hqp]
      exact hqueued.idle q hheld hnot
  · exact mem_held_of_update h.live_held hp q hq

theorem Inv.retire (h : law.Inv s) {l : Allocation} {old : Nat} (hl : l ∈ s.live p)
    (hdvd : (s.heap p).arenaAlignment ∣ l.size)
    (hok : s.alloc.retire ops.toBinsOps s.heap p l.memory l.size = .ok (old, heap', alloc')) :
    law.Inv ⟨heap', alloc', s.walking, Function.update s.live p ((s.live p).erase l), s.given⟩ := by
  have hp := h.live_held p (List.ne_nil_of_mem hl)
  obtain ⟨hbins, hholds⟩ := h.holds.retire hp hl hok
  obtain ⟨root, postponed, walk, hqueued⟩ := h.queued
  obtain ⟨root', hqueued'⟩ := hqueued.retire h.holds hp hl hdvd hok
  refine ⟨by rw [hbins]; exact hholds, ⟨root', postponed, walk, hqueued'⟩, fun q hq => ?_,
    by rw [hbins]; exact h.given⟩
  rw [hbins]
  exact mem_held_of_update h.live_held hp q hq

theorem Inv.reclaimArena (h : law.Inv s) {head r : Nat} {heap₁ : Heap}
    (hpop : FastArenaReclaimList.pop s.heap s.walking = .ok (p, head, heap₁))
    (hok : ops.reclaimArena heap₁ s.alloc p = .ok (r, heap', alloc')) :
    law.Inv ⟨heap', alloc', head, if r = 0 then s.live else Function.update s.live p [],
      if r = 0 then s.given else s.given.erase r⟩ := by
  obtain ⟨root, postponed, walk, hqueued⟩ := h.queued
  obtain ⟨rest, rfl, rfl, rfl, rfl⟩ := hqueued.pop hpop
  have hmem : s.walking ∈ root ++ postponed ++ s.walking :: rest := by simp
  obtain ⟨hp, hflag, -, hdvd⟩ := hqueued.queued _ hmem
  have hp0 : s.walking ≠ 0 := Nat.pos_iff_ne_zero.mp (law.member h.holds.wf hp).1.1
  -- clearing the link of the popped arena does not change what the bins see
  have hholds : law.Holds (Function.update s.heap s.walking ((s.heap s.walking).withNext 0))
      s.alloc.bins s.live := by
    have hwrite : law.Holds (Function.update s.heap s.walking ((s.heap s.walking).withNext 0))
        s.alloc.bins (Function.update s.live s.walking (s.live s.walking)) :=
      h.holds.write ⟨rfl, rfl, rfl, rfl, rfl⟩ ⟨rfl, rfl, rfl, rfl⟩ ((h.holds.arena _ hp).withNext 0)
        (h.holds.busy _ hp)
    rwa [Function.update_eq_self] at hwrite
  rw [law.reclaimArena_eq hholds.wf hp] at hok
  obtain ⟨r', heap₂, alloc₂, heq, hretired, -, hsettled⟩ := hholds.reclaimArena hp
    (by rw [Function.update_self]; exact hflag) (by rw [Function.update_self]; exact hdvd)
  rw [hok, Except.ok.injEq, Prod.mk.injEq, Prod.mk.injEq] at heq
  obtain ⟨rfl, rfl, rfl⟩ := heq
  have hnodup : (s.walking :: (root ++ postponed ++ rest)).Nodup :=
    (List.perm_middle.nodup_iff).mp hqueued.nodup
  obtain ⟨hfree, hnodup'⟩ := List.nodup_cons.mp hnodup
  have hmem' : ∀ q, q ∈ root ++ postponed ++ s.walking :: rest ↔
      q = s.walking ∨ q ∈ root ++ postponed ++ rest := fun q => by
    rw [← List.mem_cons]
    exact List.perm_middle.mem_iff
  have hsame : ∀ q, q ≠ s.walking →
      (heap' q).retireReclaimEntry = (s.heap q).retireReclaimEntry ∧
        (heap' q).arenaAlignment = (s.heap q).arenaAlignment := fun q hqp => by
    rw [hsettled.others q hqp, Function.update_of_ne hqp]
    exact ⟨rfl, rfl⟩
  have hlinks : ∀ q ∈ root ++ postponed ++ rest, nexts heap' q = nexts s.heap q := fun q hq => by
    rw [nexts, (hsame q (ne_of_mem_of_not_mem hq hfree)).1, nexts]
  simp only [List.append_assoc, List.mem_append] at hlinks
  obtain ⟨rest', hrest, hrestLinked⟩ := hqueued.walkLinked.of_ne_null hp0
  obtain rfl : rest = rest' := (List.cons.inj hrest).2
  refine ⟨hsettled.holds_live (law.nodup h.holds.wf) hp0,
    ⟨root, postponed, rest, ?_, ?_, ?_, ?_, ?_,
    hnodup', ?_, ?_⟩, hsettled.live_held hp0 h.live_held, hsettled.given hp0 h.given⟩
  · rw [hretired]
    exact hqueued.locked
  · rw [hretired]
    exact hqueued.word
  · rw [hretired]
    exact hqueued.rootLinked.congr fun q hq => hlinks q (.inl hq)
  · rw [hretired]
    exact hqueued.postponedLinked.congr fun q hq => hlinks q (.inr (.inl hq))
  · exact hrestLinked.congr fun q hq => hlinks q (.inr (.inr hq))
  · intro q hq
    have hqp := ne_of_mem_of_not_mem hq hfree
    obtain ⟨hheld, hqflag, hqpos, hqdvd⟩ := hqueued.queued q ((hmem' q).mpr (.inr hq))
    rw [FastArena.flagged, FastArena.pending, (hsame q hqp).1, (hsame q hqp).2]
    refine ⟨?_, hqflag, hqpos, hqdvd⟩
    rcases hsettled.result with ⟨-, hperm, -⟩ | ⟨-, hperm, -⟩
    · exact hperm.symm.subset hheld
    · exact (List.mem_cons.mp (hperm.symm.subset hheld)).resolve_left hqp
  · intro q hq hnot
    have hheld : q ∈ law.held s.alloc.bins := by
      rcases hsettled.result with ⟨-, hperm, -⟩ | ⟨-, hperm, -⟩
      · exact hperm.subset hq
      · exact hperm.subset (List.mem_cons_of_mem _ hq)
    by_cases hqp : q = s.walking
    · rw [hqp, hsettled.entry]
    · rw [(hsame q hqp).1]
      refine hqueued.idle q hheld fun hm => ?_
      exact ((hmem' q).mp hm).elim hqp hnot

/-- Every step keeps the invariant. -/
theorem Inv.step (h : law.Inv s) (hstep : ArenaAllocator.Step ops law.held law.Suitable s s') :
    law.Inv s' := by
  cases hstep with
  | allocate hsize hacquire hok => exact h.allocate hsize hacquire hok
  | acquireNone hok hr => exact h.acquireNone hok hr
  | allocateFresh hp hlt hfresh hsuit hroom hok =>
    exact h.allocateFresh hp hlt hfresh hsuit hroom hok
  | deallocate hl hok => exact h.deallocate hl hok
  | retire hl hdvd hok => exact h.retire hl hdvd hok
  | reclaimArenas hwalk hok =>
    obtain ⟨root, postponed, walk, hqueued⟩ := h.queued
    rw [hwalk] at hqueued
    obtain ⟨hbins, hqueued'⟩ := hqueued.reclaimArenas hok
    exact ⟨by rw [hbins]; exact h.holds, hqueued', by rw [hbins]; exact h.live_held,
      by rw [hbins]; exact h.given⟩
  | reclaimArena hpop hok => exact h.reclaimArena hpop hok
  | postpone hok =>
    obtain ⟨root, postponed, walk, hqueued⟩ := h.queued
    obtain ⟨hbins, hqueued'⟩ := hqueued.postpone hok
    exact ⟨by rw [hbins]; exact h.holds, ⟨_, _, _, hqueued'⟩, by rw [hbins]; exact h.live_held,
      by rw [hbins]; exact h.given⟩

/-- Bins that hold nothing, with the root as `create` makes it. -/
theorem Inv.empty {bins : B} (hwf : law.WellFormed heap bins) (hnil : law.held bins = []) :
    law.Inv ⟨heap, ⟨⟨1, 0, 0⟩, bins⟩, 0, fun _ => [], []⟩ where
  holds := ⟨hwf, by simp [hnil], by simp [hnil]⟩
  queued := ⟨[], [], [], rfl, show 1 < 2 ^ 64 by decide, show Linked 0 _ (1 / 2 * 2) [] from rfl,
    rfl,
    rfl, List.nodup_nil, by simp, by simp [hnil]⟩
  live_held := by simp
  given := by simp [hnil]

/-- **The invariant holds of every reachable state.** -/
theorem reachable_inv {init : ArenaAllocator B}
    (hinit : ∀ heap, law.Inv ⟨heap, init, 0, fun _ => [], []⟩)
    (h : ArenaAllocator.Reachable ops law.held law.Suitable init s) : law.Inv s := by
  induction h with
  | init heap => exact hinit heap
  | step _ hstep ih => exact ih.step hstep

end BinsLaw

end Cuw3
