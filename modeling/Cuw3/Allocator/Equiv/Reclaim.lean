/-
  The reclaim path.

  `reclaim` walks the list of retired arenas of each kind (`reclaimList_walked`).  An arena that
  becomes resettable leaves the bins and is passed to `destroy_arena_`, which does nothing;
  `deallocate_owner_` gives the chunk back in that case.  So the chunks end where they should
  exactly when no arena of the walked lists is drained by its retired bytes
  (`reclaim_givesBack_iff`).
-/
import Cuw3.Allocator.Equiv.Frees

namespace Cuw3

open Lib

namespace FastArena

/-- The retired bytes are the last ones of the arena. -/
def Drains (arena : FastArena) : Prop := arena.freed + arena.pending = arena.top

instance (arena : FastArena) : Decidable arena.Drains := inferInstanceAs (Decidable (_ = _))

end FastArena

namespace Allocator

open BinsLaw (nexts)

/-! ### States -/

/-- The head of the list that the next walk takes. -/
def walkHead {B : Type} (allocator : ArenaAllocator B) : Nat :=
  if allocator.retiredArenas.nextPostponed ≠ 0 then allocator.retiredArenas.nextPostponed
  else RetireReclaimPtr.ptr allocator.retiredArenas.head

/-- The walk over the arenas `ps` of a kind of a thread can start at `head`: the bins hold, and the
arenas are held, each with its flag set and a count that is a multiple of its alignment. -/
structure Walkable (alloc : Allocator) (live : Nat → List Allocation) (t : Nat)
    (type : RegionChunkType)
    (head : Nat) (ps : List Nat) : Prop where
  holds : type.law.Holds alloc.heap ((alloc.tlas t).allocator type).bins live
  linked : Linked 0 (nexts alloc.heap) head ps
  nodup : ps.Nodup
  queued : ∀ p ∈ ps, p ∈ (alloc.tlas t).held type ∧ (alloc.heap p).flagged ∧
    (alloc.heap p).arenaAlignment ∣ (alloc.heap p).pending

/-- The bins of a thread and its lists of retired arenas are in order, and each held arena has the
block of its chunk. -/
structure Reclaimable (threads : List Nat) (alloc : Allocator) (live : Nat → List Allocation)
    (t : Nat)
    (lists : RegionChunkType → List Nat) : Prop where
  chunks : alloc.ChunksHold threads
  backed : ∀ type, ∀ p ∈ (alloc.tlas t).held type, ∃ c, Backed alloc.rca alloc.heap t p c
  root : ∀ type, ((alloc.tlas t).allocator type).retiredArenas.head % 2 = 1 ∧
    ((alloc.tlas t).allocator type).retiredArenas.head < 2 ^ 64
  walkable : ∀ type, alloc.Walkable live t type (walkHead ((alloc.tlas t).allocator type))
    (lists type)

/-- The chunk is one of the cached chunks of the thread. -/
def Cached (alloc : Allocator) (t handle : Nat) : Prop :=
  ∃ r < confMaxRegionSizes, ((alloc.tlas t).cachedChunks r).valid = true ∧
    ((alloc.tlas t).cachedChunks r).handle = handle

/-- The chunk of every arena that left the bins is cached or pooled, and every chunk that was
cached, pooled or held still is. -/
structure GivesBack (threads : List Nat) (alloc alloc' : Allocator) (t : Nat) : Prop where
  left : ∀ type, ∀ p ∈ (alloc.tlas t).held type, p ∉ (alloc'.tlas t).held type →
    ∀ c, Backed alloc.rca alloc.heap t p c → alloc'.Cached t c.handle ∨ alloc'.rca.Pooled c.handle
  accounted : ∀ q, alloc.Accounted threads q → alloc'.Accounted threads q

/-! ### The walk -/

/-- The walk of one kind took the arenas `out` out of the bins, and nothing else was changed. -/
structure Walked (alloc alloc' : Allocator) (live : Nat → List Allocation) (t : Nat)
    (type : RegionChunkType) (out : List Nat) : Prop where
  holds : type.law.Holds alloc'.heap ((alloc'.tlas t).allocator type).bins live
  perm : (out ++ (alloc'.tlas t).held type).Perm ((alloc.tlas t).held type)
  rca : alloc'.rca = alloc.rca
  cached : ∀ u, (alloc'.tlas u).cachedChunks = (alloc.tlas u).cachedChunks
  others : ∀ u type', ¬(u = t ∧ type' = type) →
    (alloc'.tlas u).allocator type' = (alloc.tlas u).allocator type'
  outside : ∀ q, q ∉ (alloc.tlas t).held type → alloc'.heap q = alloc.heap q

variable {threads : List Nat} {alloc alloc' : Allocator} {live : Nat → List Allocation}
    {t p head : Nat}
  {type : RegionChunkType} {ps out : List Nat} {lists : RegionChunkType → List Nat}

theorem Walked.refl (h : type.law.Holds alloc.heap ((alloc.tlas t).allocator type).bins live) :
    Walked alloc alloc live t type [] :=
  ⟨h, .refl _, rfl, fun _ => rfl, fun _ _ _ => rfl, fun _ _ => rfl⟩

/-- One arena of the walk, and then the others. -/
theorem Walked.trans {alloc'' : Allocator} {out' : List Nat}
    (h : Walked alloc alloc' live t type out)
    (h' : Walked alloc' alloc'' live t type out') : Walked alloc alloc'' live t type
    (out ++ out') := by
  refine ⟨h'.holds, ?_, h'.rca.trans h.rca, fun u => (h'.cached u).trans (h.cached u),
    fun u type' hne => (h'.others u type' hne).trans (h.others u type' hne), fun q hq => ?_⟩
  · rw [List.append_assoc]
    exact (h'.perm.append_left out).trans h.perm
  · have hq' : q ∉ (alloc'.tlas t).held type := fun hmem =>
      hq (h.perm.subset (List.mem_append_right _ hmem))
    rw [h'.outside q hq', h.outside q hq]

/-- **One turn of the walk**: the arena goes back into the bins, or it is drained and leaves them.
-/
theorem Walkable.turn (h : alloc.Walkable live t type head (p :: ps)) :
    head = p ∧ p ≠ 0 ∧ ∃ next heap released heap' allocator',
      FastArenaReclaimList.pop alloc.heap p = .ok (p, next, heap) ∧
      type.ops.reclaimArena heap ((alloc.tlas t).allocator type) p =
        .ok (released, heap', allocator') ∧
      Walked alloc (alloc.withAllocator t type heap' allocator') live t type
        (if (alloc.heap p).Drains then [p] else []) ∧
      (alloc.withAllocator t type heap' allocator').Walkable live t type next ps ∧
      ∀ q ∈ ps, (heap' q).Drains ↔ (alloc.heap q).Drains := by
  obtain ⟨rfl, hp0, hrest⟩ := h.linked
  obtain ⟨hp, hflag, hdvd⟩ := h.queued head List.mem_cons_self
  obtain ⟨hnot, hnodup⟩ := List.nodup_cons.mp h.nodup
  have hpop : FastArenaReclaimList.pop alloc.heap head = .ok (head, nexts alloc.heap head,
      Function.update alloc.heap head ((alloc.heap head).withNext 0)) := by
    simp only [FastArenaReclaimList.pop, assert_of hp0, ok_bind]
    rfl
  -- clearing the link does not change what the bins see
  have hholds : type.law.Holds (Function.update alloc.heap head ((alloc.heap head).withNext 0))
      ((alloc.tlas t).allocator type).bins live := by
    have hwrite : type.law.Holds (Function.update alloc.heap head ((alloc.heap head).withNext 0))
        ((alloc.tlas t).allocator type).bins (Function.update live head (live head)) :=
      h.holds.write ⟨rfl, rfl, rfl, rfl, rfl⟩ ⟨rfl, rfl, rfl, rfl⟩ ((h.holds.arena _ hp).withNext 0)
        (h.holds.busy _ hp)
    rwa [Function.update_eq_self] at hwrite
  obtain ⟨r, heap', allocator', hok, hretired, hr, hsettled⟩ := hholds.reclaimArena hp
    (by rw [Function.update_self]; exact hflag) (by rw [Function.update_self]; exact hdvd)
  rw [← type.law.reclaimArena_eq hholds.wf hp] at hok
  rw [Function.update_self] at hr
  have hothers : ∀ q, q ≠ head → heap' q = { alloc.heap q with linked := (heap' q).linked } :=
    fun q hq => by
      have hq' := hsettled.others q hq
      rwa [Function.update_of_ne hq] at hq'
  have houtside : ∀ q, q ∉ (alloc.tlas t).held type → heap' q = alloc.heap q := fun q hq => by
    rw [hsettled.outside q hq, Function.update_of_ne (ne_of_mem_of_not_mem hp hq).symm]
  have hperm : ((if (alloc.heap head).Drains then [head] else []) ++ type.law.held
      allocator'.bins).Perm
      ((alloc.tlas t).held type) := by
    rcases hsettled.result with ⟨hr0, hperm, -⟩ | ⟨hr0, hperm, -⟩
    · have hdrains : ¬(alloc.heap head).Drains := hr.mp hr0
      rw [if_neg hdrains]
      exact hperm
    · have hdrains : (alloc.heap head).Drains := by
        by_contra hne
        exact hp0 (hr0.symm.trans (hr.mpr hne))
      rw [if_pos hdrains]
      exact hperm
  refine ⟨rfl, hp0, _, _, r, heap', allocator', hpop, hok, ⟨?_, ?_, rfl, cachedChunks_withAllocator,
    fun u type' hne => allocator_withAllocator_of_ne hne, houtside⟩,
      ⟨?_, ?_, hnodup, fun q hq => ?_⟩,
    fun q hq => ?_⟩
  · rw [allocator_withAllocator_self]
    exact hsettled.holds
  · rwa [held_withAllocator_self]
  · rw [allocator_withAllocator_self]
    exact hsettled.holds
  · refine hrest.congr fun q hq => ?_
    rw [nexts, withAllocator_heap, hothers q (ne_of_mem_of_not_mem hq hnot), nexts]
  · obtain ⟨hheld, hqflag, hqdvd⟩ := h.queued q (List.mem_cons_of_mem _ hq)
    have hqp := ne_of_mem_of_not_mem hq hnot
    rw [held_withAllocator_self, withAllocator_heap, hothers q hqp]
    refine ⟨?_, hqflag, hqdvd⟩
    rcases List.mem_append.mp (hperm.symm.subset hheld) with hmem | hmem
    · split_ifs at hmem
      · exact absurd (List.mem_singleton.mp hmem) hqp
      · cases hmem
    · exact hmem
  · rw [hothers q (ne_of_mem_of_not_mem hq hnot)]
    rfl

/-- **The walk ends, with enough turns, and takes exactly the drained arenas out of the bins.** -/
theorem Walkable.reclaimList {fuel : Nat} (h : alloc.Walkable live t type head ps)
    (hfuel : ps.length ≤ fuel) : ∃ alloc', reclaimList t type fuel head alloc = .ok (some alloc') ∧
      Walked alloc alloc' live t type (ps.filter fun p => (alloc.heap p).Drains) := by
  induction ps generalizing fuel head alloc with
  | nil =>
    obtain rfl : head = 0 := h.linked
    exact ⟨alloc, by cases fuel <;> rfl, .refl h.holds⟩
  | cons p ps ih =>
    obtain ⟨rfl, hp0, next, heap, released, heap', allocator', hpop, hok, hwalked, hwalkable,
      hdrains⟩ :=
      h.turn
    obtain ⟨fuel, rfl⟩ : ∃ n, fuel = n + 1 := ⟨fuel - 1, by
      rw [List.length_cons] at hfuel
      omega⟩
    obtain ⟨alloc', hrest, hwalked'⟩ := ih hwalkable (Nat.le_of_succ_le_succ hfuel)
    refine ⟨alloc', ?_, ?_⟩
    · rw [Allocator.reclaimList, if_neg hp0]
      simp only [hpop, hok, ok_bind, destroyArena, ite_self]
      exact hrest
    · have hfilter : ps.filter (fun p => (heap' p).Drains) = ps.filter fun p =>
        (alloc.heap p).Drains :=
        List.filter_congr fun q hq => by rw [decide_eq_decide, hdrains q hq]
      have htrans := hwalked.trans hwalked'
      rw [withAllocator_heap, hfilter] at htrans
      rw [List.filter_cons]
      split_ifs at htrans ⊢ <;> simp_all

/-! ### Both walks -/

/-- What `reclaim_arenas` returns, and that it touches the root only. -/
theorem reclaimArenas_eq {B : Type} {allocator : ArenaAllocator B}
    (hlocked : allocator.retiredArenas.head % 2 = 1) :
    ∃ allocator', allocator.reclaimArenas = .ok (walkHead allocator, allocator') ∧
      allocator'.bins = allocator.bins := by
  rw [ArenaAllocator.reclaimArenas, walkHead]
  by_cases hpostponed : allocator.retiredArenas.nextPostponed ≠ 0
  · rw [if_pos hpostponed, if_pos hpostponed]
    exact ⟨_, rfl, rfl⟩
  · rw [if_neg hpostponed, if_neg hpostponed]
    have hreclaim := RetireReclaimPtrView.reclaim_eq_ok.mpr ⟨hlocked, rfl, rfl⟩
    rw [hreclaim]
    exact ⟨_, rfl, rfl⟩

/-- The walk of one kind. -/
theorem Walkable.reclaimWith {fuel : Nat}
    (hlocked : ((alloc.tlas t).allocator type).retiredArenas.head % 2 = 1)
    (h : alloc.Walkable live t type (walkHead ((alloc.tlas t).allocator type)) ps)
    (hfuel : ps.length ≤ fuel) : ∃ alloc', alloc.reclaimWith fuel t type = .ok (some alloc') ∧
      Walked alloc alloc' live t type (ps.filter fun p => (alloc.heap p).Drains) := by
  obtain ⟨allocator, hreclaim, hbins⟩ := reclaimArenas_eq hlocked
  have hstart : (alloc.withAllocator t type alloc.heap allocator).Walkable live t type
      (walkHead ((alloc.tlas t).allocator type)) ps := by
    refine ⟨?_, h.linked, h.nodup, fun p hp => ?_⟩
    · rw [allocator_withAllocator_self, hbins]
      exact h.holds
    · rw [held_withAllocator_self, hbins]
      exact h.queued p hp
  obtain ⟨alloc', hlist, hwalked⟩ := hstart.reclaimList hfuel
  refine ⟨alloc', ?_, ⟨hwalked.holds, ?_, hwalked.rca, fun u => ?_, fun u type' hne => ?_,
    fun q hq => ?_⟩⟩
  · simp only [Allocator.reclaimWith, hreclaim, ok_bind]
    exact hlist
  · have hperm := hwalked.perm
    rwa [held_withAllocator_self, hbins] at hperm
  · rw [hwalked.cached, cachedChunks_withAllocator]
  · rw [hwalked.others u type' hne, allocator_withAllocator_of_ne hne]
  · have hout := hwalked.outside q
    rw [held_withAllocator_self, hbins] at hout
    exact hout hq

/-- `reclaim` takes the drained arenas of both lists out of the bins, and moves no chunk. -/
structure Reclaimed (alloc alloc' : Allocator) (t : Nat) (lists : RegionChunkType → List Nat) : Prop
    where
  rca : alloc'.rca = alloc.rca
  cached : ∀ u, (alloc'.tlas u).cachedChunks = (alloc.tlas u).cachedChunks
  others : ∀ u type, u ≠ t → (alloc'.tlas u).allocator type = (alloc.tlas u).allocator type
  perm : ∀ type, ((lists type).filter (fun p => (alloc.heap p).Drains) ++ (alloc'.tlas t).held
    type).Perm
    ((alloc.tlas t).held type)

theorem Reclaimable.reclaim {fuel : Nat} (h : Reclaimable threads alloc live t lists)
    (ht : t ∈ threads)
    (hfuel : ∀ type, (lists type).length ≤ fuel) : ∃ empty alloc',
      alloc.reclaim fuel t = .ok (some (empty, alloc')) ∧ Reclaimed alloc alloc' t lists := by
  obtain ⟨alloc₁, hsmall, hwalked₁⟩ := (h.walkable .fastArenaSmallAllocator).reclaimWith
    (h.root _).1 (hfuel _)
  -- the walk of the small arenas leaves the others alone
  have hne : ¬(t = t ∧ RegionChunkType.fastArenaStepSplitAllocator =
    .fastArenaSmallAllocator) := by simp
  have hallocator := hwalked₁.others t .fastArenaStepSplitAllocator hne
  have hheap : ∀ q ∈ (alloc.tlas t).held .fastArenaStepSplitAllocator, alloc₁.heap q =
    alloc.heap q :=
    fun q hq => hwalked₁.outside q fun hq' => hne (h.chunks.held_unique ht ht hq hq')
  have hstep := h.walkable .fastArenaStepSplitAllocator
  have hroot := h.root .fastArenaStepSplitAllocator
  rw [← hallocator] at hstep hroot
  have hwalk : alloc₁.Walkable live t .fastArenaStepSplitAllocator
      (walkHead ((alloc₁.tlas t).allocator .fastArenaStepSplitAllocator))
      (lists .fastArenaStepSplitAllocator) := by
    refine ⟨?_, ?_, hstep.nodup, fun q hq => ?_⟩
    · rw [hallocator]
      exact (h.walkable _).holds.congr fun q hq => ⟨hheap q hq, rfl⟩
    · exact hstep.linked.congr fun q hq => by rw [nexts, hheap q (hstep.queued q hq).1, nexts]
    · obtain ⟨hheld, hflag, hdvd⟩ := hstep.queued q hq
      rw [hheap q hheld, ThreadLocalAllocator.held, hallocator]
      exact ⟨hheld, hflag, hdvd⟩
  obtain ⟨alloc₂, hstepSplit, hwalked₂⟩ := hwalk.reclaimWith hroot.1 (hfuel _)
  refine ⟨_, alloc₂, by simp only [Allocator.reclaim, hsmall, hstepSplit, ok_bind]; rfl, ?_⟩
  refine ⟨hwalked₂.rca.trans hwalked₁.rca, fun u => (hwalked₂.cached u).trans (hwalked₁.cached u),
    fun u type hu => ?_, fun type => ?_⟩
  · rw [hwalked₂.others u type (fun hut => hu hut.1), hwalked₁.others u type fun hut => hu hut.1]
  cases type with
  | fastArenaStepSplitAllocator =>
    have hperm := hwalked₂.perm
    rw [ThreadLocalAllocator.held, ThreadLocalAllocator.held, hallocator] at hperm
    rw [List.filter_congr fun q hq => by rw [← hheap q (hstep.queued q hq).1]]
    exact hperm
  | fastArenaSmallAllocator =>
    rw [ThreadLocalAllocator.held, hwalked₂.others t _ (by simp), ← ThreadLocalAllocator.held]
    exact hwalked₁.perm

/-- The chunks end where they should exactly when no arena of the lists is drained. -/
theorem Reclaimable.givesBack_iff (h : Reclaimable threads alloc live t lists) (ht : t ∈ threads)
    (hreclaimed : Reclaimed alloc alloc' t lists) :
    GivesBack threads alloc alloc' t ↔ ∀ type, ∀ p ∈ lists type, ¬(alloc.heap p).Drains := by
  constructor
  · intro hback type p hp hdrains
    have hheld := ((h.walkable type).queued p hp).1
    obtain ⟨c, hc⟩ := h.backed type p hheld
    have hleft : p ∉ (alloc'.tlas t).held type := by
      have hnodup := (hreclaimed.perm type).nodup_iff.mpr
        (type.law.nodup (h.walkable type).holds.wf)
      exact List.disjoint_of_nodup_append hnodup
        (List.mem_filter.mpr ⟨hp, decide_eq_true hdrains⟩)
    rcases hback.left type p hheld hleft c hc with ⟨r, hr, hvalid, hhandle⟩ | hpooled
    · rw [hreclaimed.cached] at hvalid hhandle
      have hnot : _ ∉ (alloc.tlas t).held type := h.chunks.cached_not_held ht hr hvalid
      refine hnot ?_
      rwa [hhandle, ← hc.address]
    · rw [hreclaimed.rca] at hpooled
      refine h.chunks.notPooled _ hpooled ?_
      rw [← hc.address]
      exact mem_taken_of_held ht hheld
  · intro hnone
    have hperm : ∀ type, ((alloc'.tlas t).held type).Perm ((alloc.tlas t).held type) :=
      fun type => by
      have hnil : (lists type).filter (fun p => (alloc.heap p).Drains) = [] :=
        List.filter_eq_nil_iff.mpr fun p hp => by simpa using hnone type p hp
      have hperm := hreclaimed.perm type
      rwa [hnil, List.nil_append] at hperm
    refine ⟨fun type p hp hleft => absurd ((hperm type).symm.subset hp) hleft, fun q hq => ?_⟩
    rw [Accounted, hreclaimed.rca]
    refine hq.imp_right fun hmem => ?_
    obtain ⟨u, hu, haddress⟩ := mem_taken.mp hmem
    refine mem_taken.mpr ⟨u, hu, ?_⟩
    rw [ThreadLocalAllocator.mem_addresses] at haddress
    rw [hreclaimed.rca, ThreadLocalAllocator.mem_addresses]
    refine haddress.imp (fun hcached => ?_) (Exists.imp fun type hheld => ?_)
    · rwa [ThreadLocalAllocator.cachedAddresses, hreclaimed.cached]
    · by_cases hut : u = t
      · subst hut
        exact (hperm type).symm.subset hheld
      · rwa [ThreadLocalAllocator.held, hreclaimed.others u type hut]

/-- **The reclaim path gives every chunk back in exactly the states where no arena of the lists it
walks is drained by its retired bytes.** -/
theorem reclaim_givesBack_iff {fuel : Nat} (h : Reclaimable threads alloc live t lists)
    (ht : t ∈ threads)
    (hfuel : ∀ type, (lists type).length ≤ fuel) : ∃ empty alloc',
      alloc.reclaim fuel t = .ok (some (empty, alloc')) ∧
      (GivesBack threads alloc alloc' t ↔ ∀ type, ∀ p ∈ lists type, ¬(alloc.heap p).Drains) := by
  obtain ⟨empty, alloc', hok, hreclaimed⟩ := h.reclaim ht hfuel
  exact ⟨empty, alloc', hok, h.givesBack_iff ht hreclaimed⟩

/-! ### A retired arena of 16 bytes -/

/-- The first thread allocates 16 bytes and the second one frees them: the arena at 8192. -/
def sampleRetire : Bool :=
  match sampleAllocator.allocate true 64 16 16 with
  | .ok (.acquired 65536, alloc) =>
    match (alloc.ownerOf 65536).toOption, alloc.deallocate 128 65536 16 with
    | some 64, .ok alloc =>
      decide (8192 ∈ (alloc.tlas 64).held .fastArenaSmallAllocator) &&
        alloc.heap 8192 == ⟨66, ⟨33, 0, 0⟩, false, 0, 16, 4096, 16, 65536⟩
    | _, _ => false
  | _ => false

theorem reachable_retired : ∃ alloc, Reachable [64, 128] ⟨alloc, [], true⟩ ∧
    8192 ∈ (alloc.tlas 64).held .fastArenaSmallAllocator ∧
    alloc.heap 8192 = ⟨66, ⟨33, 0, 0⟩, false, 0, 16, 4096, 16, 65536⟩ := by
  have hrun : sampleRetire = true := by decide +kernel
  rw [sampleRetire] at hrun
  split at hrun
  case h_2 => cases hrun
  case h_1 alloc hallocate =>
    split at hrun
    case h_2 => cases hrun
    case h_1 alloc' howner hfree =>
      simp only [Bool.and_eq_true, decide_eq_true_eq, beq_iff_eq] at hrun
      have howner' : alloc.ownerOf 65536 = .ok 64 := by
        cases hx : alloc.ownerOf 65536 <;> simp_all [Except.toOption]
      have hreach := Reachable.step (.init sampleAllocator_fresh)
        (.allocate (by decide) (by decide) hallocate)
      have hreach' := Reachable.step hreach
        (.deallocate (by decide) List.mem_cons_self howner' hfree)
      exact ⟨alloc', hreach', hrun⟩

/-- The list of the small arenas has one arena, the other list none. -/
def sampleLists : RegionChunkType → List Nat
  | .fastArenaSmallAllocator => [8192]
  | .fastArenaStepSplitAllocator => []

/-- The arena is in the list of its owner: it is drained by its retired bytes. -/
theorem reclaimable_sample : ∃ alloc, Reclaimable [64, 128] alloc (fun _ => []) 64 sampleLists ∧
    (alloc.heap 8192).Drains := by
  obtain ⟨alloc, hreach, hheld, harena⟩ := reachable_retired
  have hinv := hreach.inv
  have hkind := hinv.kind 64 (by decide)
  -- the list entry of the arena is the root's
  refine ⟨alloc.withAllocator 64 .fastArenaSmallAllocator alloc.heap
    { (alloc.tlas 64).allocator .fastArenaSmallAllocator with retiredArenas := ⟨8193, 0, 0⟩ },
    ⟨hinv.chunks.keep (by decide) (.refl _), fun type p hp => ?_, fun type => ?_, fun type => ?_⟩,
      ?_⟩
  · cases type with
    | fastArenaSmallAllocator =>
      rw [held_withAllocator_self] at hp
      obtain ⟨c, hc⟩ := (hkind .fastArenaSmallAllocator).backed p hp
      exact ⟨c, hc⟩
    | fastArenaStepSplitAllocator =>
      rw [held_withAllocator_of_ne (by simp)] at hp
      obtain ⟨c, hc⟩ := (hkind .fastArenaStepSplitAllocator).backed p hp
      exact ⟨c, hc⟩
  · cases type with
    | fastArenaSmallAllocator =>
      rw [allocator_withAllocator_self]
      exact show 8193 % 2 = 1 ∧ 8193 < 2 ^ 64 by decide
    | fastArenaStepSplitAllocator =>
      rw [allocator_withAllocator_of_ne (by simp), (hkind _).retired]
      decide
  · cases type with
    | fastArenaSmallAllocator =>
      have hhead : walkHead ({ (alloc.tlas 64).allocator .fastArenaSmallAllocator with
          retiredArenas := ⟨8193, 0, 0⟩ } : ArenaAllocator FastArenaSmallBins) = 8192 :=
        RetireReclaimPtr.ptr_eq (w := 8193) (by decide)
      rw [allocator_withAllocator_self, hhead]
      refine ⟨?_, ⟨rfl, by decide, ?_⟩, by decide, fun p hp => ?_⟩
      · rw [allocator_withAllocator_self]
        exact (hkind .fastArenaSmallAllocator).holds
      · rw [nexts, withAllocator_heap, harena]
        rfl
      · obtain rfl : p = 8192 := List.mem_singleton.mp hp
        rw [held_withAllocator_self, withAllocator_heap, harena]
        exact ⟨hheld, by decide, by decide⟩
    | fastArenaStepSplitAllocator =>
      have hhead : walkHead ((alloc.tlas 64).allocator .fastArenaStepSplitAllocator) = 0 := by
        rw [walkHead, (hkind _).retired]
        exact RetireReclaimPtr.ptr_eq (by decide)
      rw [allocator_withAllocator_of_ne (by simp), hhead]
      refine ⟨?_, rfl, by decide, fun p hp => by cases hp⟩
      rw [allocator_withAllocator_of_ne (by simp)]
      exact (hkind .fastArenaStepSplitAllocator).holds
  · rw [withAllocator_heap, harena]
    decide

/-- The chunk of the drained arena is not given back. -/
theorem reclaim_givesBack_iff_sample : ∃ alloc empty alloc',
    alloc.reclaim 1 64 = .ok (some (empty, alloc')) ∧ ¬GivesBack [64, 128] alloc alloc' 64 := by
  obtain ⟨alloc, hreclaimable, hdrains⟩ := reclaimable_sample
  have hfuel : ∀ type, (sampleLists type).length ≤ 1 := fun type => by cases type <;> decide
  obtain ⟨empty, alloc', hok, hiff⟩ := reclaim_givesBack_iff hreclaimable (by decide) hfuel
  refine ⟨alloc, empty, alloc', hok, fun hback => ?_⟩
  exact hiff.mp hback .fastArenaSmallAllocator 8192 List.mem_cons_self hdrains

/-- **The chunk of a drained arena is neither cached, nor pooled, nor behind an arena of the bins.**
-/
theorem not_reclaim_givesBack : ¬ ∀ (threads : List Nat) (alloc : Allocator)
    (live : Nat → List Allocation) (t : Nat) (lists : RegionChunkType → List Nat) (fuel : Nat),
    Reclaimable threads alloc live t lists → t ∈ threads → (∀ type, (lists type).length ≤ fuel) →
      ∃ empty alloc', alloc.reclaim fuel t = .ok (some (empty, alloc')) ∧
        GivesBack threads alloc alloc' t := by
  intro hall
  obtain ⟨alloc, hreclaimable, hdrains⟩ := reclaimable_sample
  have hfuel : ∀ type, (sampleLists type).length ≤ 1 := fun type => by cases type <;> decide
  obtain ⟨empty, alloc', hok, hback⟩ := hall _ alloc _ 64 _ 1 hreclaimable (by decide) hfuel
  obtain ⟨empty₁, alloc₁, hok₁, hreclaimed⟩ := hreclaimable.reclaim (by decide) hfuel
  obtain ⟨-, rfl⟩ := Prod.mk.inj (Option.some.inj (Except.ok.inj (hok.symm.trans hok₁)))
  exact (hreclaimable.givesBack_iff (by decide) hreclaimed).mp hback .fastArenaSmallAllocator 8192
    List.mem_cons_self hdrains

end Allocator

end Cuw3
