/-
  Runs of a process: threads start and exit, allocate and free, and clean the graveyard.

  A thread-local allocator is run by a thread, dead in the graveyard, or released by a clean-up and
  about to be destroyed.  The invariant of the assembled allocator is kept as thread-local
  allocators come (`Inv.addThread`) and go (`Inv.removeThread`); one that is destroyed holds no
  arena.  So it holds in every state that a run of a process reaches (`Process.Reachable.inv`).
-/
import Cuw3.Allocator.Graveyard
import Cuw3.Allocator.Equiv.Runs

namespace Cuw3

open Lib

namespace Allocator

variable {threads : List Nat} {w : World} {alloc alloc' : Allocator} {t u r p : Nat}
  {type : RegionChunkType} {c : RegionChunkAllocation}

/-! ### The other threads -/

theorem ChunkOut.tlas_of_ne {commitOk : Bool} (h : ChunkOut alloc t commitOk c alloc')
    (hu : u ≠ t) :
    alloc'.tlas u = alloc.tlas u := by
  cases h with
  | none => rfl
  | cached => exact Function.update_of_ne hu ..
  | pooled => exact Function.update_of_ne hu ..
  | failed => exact Function.update_of_ne hu ..

theorem ChunkIn.tlas_of_ne (h : ChunkIn alloc t c alloc') (hu : u ≠ t) :
    alloc'.tlas u = alloc.tlas u := by
  cases h with
  | cached => exact Function.update_of_ne hu ..
  | pooled => exact Function.update_of_ne hu ..

theorem withAllocator_tlas_of_ne {heap : Heap} {allocator : ArenaAllocator type.Bins} (hu : u ≠ t) :
    (alloc.withAllocator t type heap allocator).tlas u = alloc.tlas u :=
  Function.update_of_ne hu ..

/-- A request changes the allocator of its own thread. -/
theorem Allocates.tlas_of_ne {size alignment : Nat} {commitOk : Bool} {r : AcquiredResource}
    (h : Allocates threads w t size alignment commitOk type r alloc') (hu : u ≠ t) :
    alloc'.tlas u = w.alloc.tlas u := by
  cases h with
  | none _ _ _ hout _ => rw [hout.tlas_of_ne hu, withAllocator_tlas_of_ne hu]
  | held => exact withAllocator_tlas_of_ne hu
  | fresh _ _ hout _ _ =>
    rw [withAllocator_tlas_of_ne hu, hout.tlas_of_ne hu, withAllocator_tlas_of_ne hu]

/-- A free changes the allocator of its own thread. -/
theorem Deallocates.tlas_of_ne {l : Allocation} {owner : Nat}
    (h : Deallocates threads alloc t l owner alloc') (hu : u ≠ t) : alloc'.tlas u =
    alloc.tlas u := by
  cases h with
  | own _ _ _ hfrees =>
    cases hfrees with
    | kept => exact withAllocator_tlas_of_ne hu
    | drained _ _ _ _ hin => rw [hin.tlas_of_ne hu, withAllocator_tlas_of_ne hu]
  | other => rfl

/-- An arena that served a request has the same memory. -/
theorem served_sameBlock {heap heap' : Heap} {size : Nat}
    (h : OnlyLinks (Function.update heap p (served (heap p) size)) heap') (q : Nat) :
    (heap q).SameBlock (heap' q) := by
  have hlink := h q
  by_cases hq : q = p
  · subst hq
    rw [Function.update_self] at hlink
    rw [hlink]
    exact ⟨rfl, rfl, rfl, rfl⟩
  · rw [Function.update_of_ne hq] at hlink
    rw [hlink]
    exact ⟨rfl, rfl, rfl, rfl⟩

/-- A request moves no arena of the bins in memory. -/
theorem Allocates.block {size alignment : Nat} {commitOk : Bool} {res : AcquiredResource}
    (h : Allocates threads w t size alignment commitOk type res alloc') :
    w.alloc.rca.SameLayout alloc'.rca ∧
      ∀ q, w.alloc.HeldBy threads q → (w.alloc.heap q).SameBlock (alloc'.heap q) := by
  cases h with
  | none hr hlinks hheld hout hc =>
    refine ⟨hout.frame.rca, fun q _ => ?_⟩
    rw [hout.frame.heap]
    exact hlinks.sameBlock q
  | held hp hheld hheap hblock => exact ⟨.refl _, fun q _ => served_sameBlock hheap q⟩
  | fresh hlinks hheld hout hnew hput =>
    refine ⟨hout.frame.rca, fun q hq => ?_⟩
    have hput' := served_sameBlock hput.heap q
    dsimp only at hput'
    rw [Function.update_of_ne (by rintro rfl; exact hnew.notHeld hq), hout.frame.heap] at hput'
    exact (hlinks.sameBlock q).trans hput'

/-- A free moves no arena in memory. -/
theorem Deallocates.block (hinv : Inv threads w) {l : Allocation} {owner : Nat}
    (h : Deallocates threads w.alloc t l owner alloc') :
    w.alloc.rca.SameLayout alloc'.rca ∧ ∀ q, (w.alloc.heap q).SameBlock (alloc'.heap q) := by
  cases h with
  | other hne hblock => exact ⟨.refl _, hblock⟩
  | @own type p _ ht hp hown hfrees =>
    cases hfrees with
    | kept =>
      refine ⟨.refl _, fun q => ?_⟩
      rw [withAllocator_heap]
      by_cases hq : q = p
      · subst hq
        rw [Function.update_self]
        exact ⟨rfl, rfl, rfl, rfl⟩
      · rw [Function.update_of_ne hq]
        exact .refl _
    | @drained c heap allocator _ hheld hothers hblock hbacked hin =>
      obtain ⟨hholds, hflight, -⟩ : (w.alloc.withAllocator t type heap allocator).ChunksHold
          threads ∧
          (w.alloc.withAllocator t type heap allocator).InFlight threads c ∧ _ :=
        hinv.chunks.drop ht hbacked.placed (hbacked.address ▸ hheld)
      have hframe := (hholds.chunkIn ht hflight hin).2.1
      refine ⟨hframe.rca, fun q => ?_⟩
      rw [hframe.heap]
      exact hblock q

/-! ### `free_tla_resources` -/

/-- The thread has no cached chunk. -/
def CachesNothing (alloc : Allocator) (t : Nat) : Prop :=
  ∀ region ≤ confMaxCachedChunkSizeId, ((alloc.tlas t).cachedChunks region).valid = false

instance (alloc : Allocator) (t : Nat) : Decidable (alloc.CachesNothing t) :=
  Nat.decidableBallLE _ _

theorem freeTlaResources_eq (h : alloc.CachesNothing t) : alloc.freeTlaResources t = .ok alloc := by
  have hloop : ∀ regions : List Nat, (∀ r ∈ regions, r ≤ confMaxCachedChunkSizeId) →
      regions.foldlM (fun alloc region => alloc.freeCachedChunk t region) alloc = .ok alloc := by
    intro regions
    induction regions with
    | nil => exact fun _ => rfl
    | cons r regions ih =>
      intro hle
      have hturn : alloc.freeCachedChunk t r = .ok alloc := by
        simp [freeCachedChunk, h r (hle r List.mem_cons_self)]
      rw [List.foldlM_cons, hturn, ok_bind]
      exact ih fun r' hr' => hle r' (List.mem_cons_of_mem _ hr')
  exact hloop _ fun r hr => Nat.le_of_lt_succ (List.mem_range.mp hr)

/-- Cached chunks of one thread were moved to the pool. -/
structure FreesCache (threads : List Nat) (alloc alloc' : Allocator) (t : Nat) : Prop where
  holds : alloc'.ChunksHold threads
  frame : ChunkFrame alloc alloc'
  others : ∀ u, u ≠ t → alloc'.tlas u = alloc.tlas u

theorem FreesCache.trans {alloc'' : Allocator} (h : FreesCache threads alloc alloc' t)
    (h' : FreesCache threads alloc' alloc'' t) : FreesCache threads alloc alloc'' t :=
  ⟨h'.holds, h.frame.trans h'.frame, fun u hu => (h'.others u hu).trans (h.others u hu)⟩

theorem ChunksHold.freeCachedChunk (h : alloc.ChunksHold threads) (ht : t ∈ threads)
    (hr : r < confMaxRegionSizes) :
    ∃ alloc', alloc.freeCachedChunk t r = .ok alloc' ∧ FreesCache threads alloc alloc' t := by
  unfold Allocator.freeCachedChunk
  by_cases hvalid : ((alloc.tlas t).cachedChunks r).valid = true
  swap
  · rw [Bool.not_eq_true] at hvalid
    exact ⟨alloc, by simp [hvalid], h, .refl _, fun u _ => rfl⟩
  -- the chunk leaves the cache
  obtain ⟨hplaced, hregion⟩ := h.cached t ht r hvalid
  generalize hmid : alloc.withTla t ((alloc.tlas t).withCachedChunk r
    nullRegionChunkAllocation) = mid
  have hperm : (alloc.rca.handleAddress ((alloc.tlas t).cachedChunks r).handle ::
      mid.taken threads).Perm (alloc.taken threads) := by
    rw [← hmid]
    refine taken_withCachedChunk [_] [] h.threads_nodup ht hr ?_
    rw [if_pos hvalid]
    exact .refl _
  have hrca : mid.rca = alloc.rca := hmid ▸ rfl
  obtain ⟨hholds, hflight, -⟩ := h.take hplaced hperm hrca
    (h.cached_withCachedChunk (fun hnull => absurd hnull (by decide)) hmid.symm)
  have hframe : ChunkFrame alloc mid := by
    rw [← hmid]
    exact chunkFrame_of_update rfl (.refl _) rfl fun _ =>
      ThreadLocalAllocator.withCachedChunk_allocator
  -- and goes back to the pool
  obtain ⟨rca, hback, -⟩ := hholds.pools.deallocateChunk hflight.placed hflight.notPooled
  have htlas : mid.tlas = Function.update mid.tlas t (mid.tlas t) :=
    (Function.update_eq_self t mid.tlas).symm
  have hgive : ({ mid with rca } : Allocator).ChunksHold threads ∧
      ChunkFrame mid { mid with rca } ∧ _ :=
    hholds.giveBack hflight hback rfl htlas rfl fun _ => rfl
  refine ⟨{ mid with rca }, ?_, hgive.1, hframe.trans hgive.2.1, fun u hu => ?_⟩
  · simp only [hvalid, Bool.not_true, Bool.false_eq_true, if_false, hback, ok_bind]
    rfl
  · rw [← hmid]
    exact Function.update_of_ne hu ..

/-- **`free_tla_resources` moves the cached chunks of a thread to the pool.** -/
theorem ChunksHold.freeTlaResources (h : alloc.ChunksHold threads) (ht : t ∈ threads) :
    ∃ alloc', alloc.freeTlaResources t = .ok alloc' ∧ FreesCache threads alloc alloc' t := by
  have hloop : ∀ regions : List Nat, (∀ r ∈ regions, r < confMaxRegionSizes) →
      ∀ {alloc : Allocator},
      alloc.ChunksHold threads → ∃ alloc',
        regions.foldlM (fun alloc region => alloc.freeCachedChunk t region) alloc = .ok alloc' ∧
          FreesCache threads alloc alloc' t := by
    intro regions
    induction regions with
    | nil => exact fun _ alloc h => ⟨alloc, rfl, h, .refl _, fun u _ => rfl⟩
    | cons r regions ih =>
      intro hlt alloc h
      obtain ⟨mid, hturn, hfrees⟩ := h.freeCachedChunk ht (hlt r List.mem_cons_self)
      obtain ⟨alloc', hrest, hfrees'⟩ :=
        ih (fun r' hr' => hlt r' (List.mem_cons_of_mem _ hr')) hfrees.holds
      refine ⟨alloc', ?_, hfrees.trans hfrees'⟩
      rw [List.foldlM_cons, hturn, ok_bind]
      exact hrest
  refine hloop _ (fun r hr => ?_) h
  have hle := List.mem_range.mp hr
  simp only [confMaxCachedChunkSizeId] at hle
  rw [confMaxRegionSizes]
  omega

/-! ### Threads come and go -/

/-- A new thread-local allocator is made at an address that none has. -/
theorem Inv.addThread (h : Inv threads w) (ht : t ∉ threads) (hlt : t < 2 ^ 64)
    {config : ThreadLocalAllocatorConfig} {object : ThreadLocalAllocator}
    (hcreate : (ThreadLocalAllocator.create config).Creates object)
    (hstepMin : config.stepSplitAllocConfig.minArenaAlignmentLog2 = confFastArenaMinAlignmentLog2)
    (hsmallMin : config.smallAllocConfig.minArenaAlignmentLog2 = confFastArenaMinAlignmentLog2) :
    Inv (t :: threads) ⟨w.alloc.withTla t object, w.live, w.foreign⟩ := by
  generalize hnew : w.alloc.withTla t object = alloc'
  have hself : alloc'.tlas t = object := by
    rw [← hnew]
    exact Function.update_self ..
  have hother : ∀ u ∈ threads, alloc'.tlas u = w.alloc.tlas u := by
    intro u hu
    rw [← hnew]
    exact Function.update_of_ne (ne_of_mem_of_not_mem hu ht) ..
  have hrca : alloc'.rca = w.alloc.rca := hnew ▸ rfl
  have hheap : alloc'.heap = w.alloc.heap := hnew ▸ rfl
  rw [← hself] at hcreate
  have hkind : ∀ type, alloc'.KindHolds w.live t type ∧ (alloc'.tlas t).held type = [] :=
    kind_of_create hcreate hstepMin hsmallMin
  have hcached := cachedChunks_of_create hcreate
  -- the new thread has no arena and no chunk
  have hheldBy : ∀ q, alloc'.HeldBy (t :: threads) q ↔ w.alloc.HeldBy threads q := by
    intro q
    constructor
    · rintro ⟨u, hu, type, hq⟩
      rcases List.mem_cons.mp hu with rfl | hu
      · rw [(hkind type).2] at hq
        cases hq
      · rw [hother u hu] at hq
        exact ⟨u, hu, type, hq⟩
    · rintro ⟨u, hu, type, hq⟩
      rw [← hother u hu] at hq
      exact ⟨u, List.mem_cons_of_mem _ hu, type, hq⟩
  have htaken : alloc'.taken (t :: threads) = w.alloc.taken threads := by
    have hnil : (alloc'.tlas t).addresses alloc'.rca = [] := by
      rw [ThreadLocalAllocator.addresses, cachedAddresses_eq_nil hcached, (hkind _).2, (hkind _).2]
      rfl
    have hrest : alloc'.taken threads = w.alloc.taken threads :=
      slots_congr fun u hu => by rw [hother u hu, hrca]
    rw [← hrest, taken, slots, List.flatMap_cons, hnil]
    rfl
  have hchunks := h.chunks
  refine ⟨fun u hu => ?_, ⟨?_, hrca ▸ hchunks.pools, hrca ▸ hchunks.mapped, fun u hu r hr => ?_, ?_,
    fun q hq => ?_⟩, fun u hu type => ?_, fun l hl => ?_, fun hf q hq => ?_, fun hf => ?_⟩
  · rcases List.mem_cons.mp hu with rfl | hu
    · exact hlt
    · exact h.address u hu
  · exact List.nodup_cons.mpr ⟨ht, hchunks.threads_nodup⟩
  · rcases List.mem_cons.mp hu with rfl | hu
    · rw [hcached] at hr
      change nullRegionChunkAllocation.valid = true at hr
      exact absurd hr (by decide)
    · rw [hother u hu] at hr ⊢
      rw [hrca]
      exact hchunks.cached u hu r hr
  · rw [htaken]
    exact hchunks.nodup
  · rw [htaken, hrca] at *
    exact hchunks.notPooled q hq
  · rcases List.mem_cons.mp hu with rfl | hu
    · exact (hkind type).1
    · exact (h.kind u hu type).congr (hrca ▸ .refl _) (by rw [hother u hu])
        fun q _ => ⟨congrFun hheap q, rfl⟩
  · obtain ⟨q, hq, hown⟩ := h.live_held l hl
    exact ⟨q, (hheldBy q).mpr hq, hheap ▸ hown⟩
  · dsimp only
    rw [hheap]
    exact h.quiet hf q ((hheldBy q).mp hq)
  · obtain ⟨q, hq, hne⟩ := h.lost hf
    exact ⟨q, (hheldBy q).mpr hq, hheap ▸ hne⟩

/-- A thread-local allocator that holds no arena is destroyed. -/
theorem Inv.removeThread (h : Inv threads w) (hempty : ∀ type, (w.alloc.tlas t).held type = []) :
    Inv (threads.erase t) w := by
  have hmem : ∀ {u}, u ∈ threads.erase t → u ∈ threads := fun hu => List.mem_of_mem_erase hu
  have hheldBy : ∀ q, w.alloc.HeldBy (threads.erase t) q ↔ w.alloc.HeldBy threads q := by
    intro q
    constructor
    · rintro ⟨u, hu, type, hq⟩
      exact ⟨u, hmem hu, type, hq⟩
    · rintro ⟨u, hu, type, hq⟩
      refine ⟨u, (List.mem_erase_of_ne ?_).mpr hu, type, hq⟩
      rintro rfl
      rw [hempty type] at hq
      cases hq
  have hsub : (w.alloc.taken (threads.erase t)).Sublist (w.alloc.taken threads) :=
    List.erase_sublist.flatMap _
  have hchunks := h.chunks
  refine ⟨fun u hu => h.address u (hmem hu), ⟨hchunks.threads_nodup.erase t, hchunks.pools,
    hchunks.mapped, fun u hu => hchunks.cached u (hmem hu), hchunks.nodup.sublist hsub,
    fun q hq hq' => hchunks.notPooled q hq (hsub.subset hq')⟩, fun u hu => h.kind u (hmem hu),
    fun l hl => ?_, fun hf q hq => h.quiet hf q ((hheldBy q).mp hq), fun hf => ?_⟩
  · obtain ⟨q, hq, hown⟩ := h.live_held l hl
    exact ⟨q, (hheldBy q).mpr hq, hown⟩
  · obtain ⟨q, hq, hne⟩ := h.lost hf
    exact ⟨q, (hheldBy q).mpr hq, hne⟩

end Allocator

/-! ### What the clean-ups do -/

/-- The thread-local allocator holds no arena. -/
def ThreadLocalAllocator.empty (tla : ThreadLocalAllocator) : Bool :=
  tla.smallAllocator.empty && tla.stepSplitAllocator.empty

namespace GraveAllocator

variable {threads : List Nat} {alloc alloc' : GraveAllocator} {live : List Allocation}
    {foreign : Bool}
  {fuel t g : Nat}

/-- The dead thread-local allocator that the next `grave_tla_cleanup` of a thread visits. -/
def visits (alloc : GraveAllocator) (t : Nat) : Option Nat :=
  if u64 ((alloc.cleanups t).graveCleanupCounter + 1) % cuw3TryCleanupEachOp = 0 then
    alloc.tlaGraveyard.deadQueue.head?
  else none

theorem mem_of_visits {d : Nat} (h : alloc.visits t = some d) : d ∈
    alloc.tlaGraveyard.deadQueue := by
  unfold visits at h
  split_ifs at h
  exact List.mem_of_mem_head? h

/-- What `grave_tla_cleanup` did when it returned `g`: it visited no dead thread-local allocator; or
it visited one, freed its resources, and put it back unless it was empty. -/
inductive Cleans (alloc : GraveAllocator) (t : Nat) : Nat → GraveAllocator → Prop where
  | none {alloc' : GraveAllocator} (hsame : alloc'.toAllocator = alloc.toAllocator)
      (hqueue : alloc'.tlaGraveyard = alloc.tlaGraveyard) : Cleans alloc t 0 alloc'
  | emptied {dead : Nat} {rest : List Nat} {alloc' : GraveAllocator}
      (hvisits : alloc.visits t = some dead)
      (hqueue : alloc.tlaGraveyard.deadQueue = dead :: rest)
      (hempty : (alloc.tlas dead).empty = true)
      (hfrees : alloc.toAllocator.freeTlaResources dead = .ok alloc'.toAllocator)
      (hqueue' : alloc'.tlaGraveyard.deadQueue = rest) : Cleans alloc t dead alloc'
  | kept {dead : Nat} {alloc' : GraveAllocator} (hvisits : alloc.visits t = some dead)
      (hfrees : alloc.toAllocator.freeTlaResources dead = .ok alloc'.toAllocator)
      (hqueue : alloc'.tlaGraveyard = alloc.tlaGraveyard) : Cleans alloc t 0 alloc'

theorem graveTlaCleanup_cases (h : Allocator.Inv threads ⟨alloc.toAllocator, live, foreign⟩)
    (hdead : ∀ d ∈ alloc.tlaGraveyard.deadQueue, d ∈ threads ∧ 0 < d)
    (hok : alloc.graveTlaCleanup fuel t = .ok (some (g, alloc'))) : Cleans alloc t g alloc' := by
  simp only [graveTlaCleanup, bind_eq_ok, check_eq_ok, exists_const] at hok
  obtain ⟨-, hok⟩ := hok
  split_ifs at hok with hturn hnull
  · obtain ⟨rfl, rfl⟩ := Prod.mk.inj (Option.some.inj (Except.ok.inj hok))
    exact .none rfl rfl
  · obtain ⟨rfl, rfl⟩ := Prod.mk.inj (Option.some.inj (Except.ok.inj hok))
    refine .none rfl ?_
    simp only [acquireDeadTla, ThreadGraveyard.acquire, withCleanup] at hnull ⊢
    cases hqueue : alloc.tlaGraveyard.deadQueue with
    | nil => rfl
    | cons dead rest =>
      rw [hqueue] at hnull
      have hpos := (hdead dead (hqueue ▸ List.mem_cons_self)).2
      exact absurd hnull hpos.ne'
  · simp only [acquireDeadTla, ThreadGraveyard.acquire, withCleanup] at hnull hok
    cases hqueue : alloc.tlaGraveyard.deadQueue with
    | nil =>
      rw [hqueue] at hnull
      exact absurd rfl hnull
    | cons dead rest =>
      have hvisits : alloc.visits t = some dead := by
        rw [visits, if_pos (not_not.mp hturn), hqueue]
        rfl
      obtain ⟨ht, -⟩ := hdead dead (hqueue ▸ List.mem_cons_self)
      simp only [hqueue, h.reclaim_eq ht, ok_bind, bind_eq_ok] at hok
      obtain ⟨allocator, hfrees, hok⟩ := hok
      split_ifs at hok with hempty
      · obtain ⟨rfl, rfl⟩ := Prod.mk.inj (Option.some.inj (Except.ok.inj hok))
        exact .emptied hvisits hqueue hempty hfrees rfl
      · obtain ⟨rfl, rfl⟩ := Prod.mk.inj (Option.some.inj (Except.ok.inj hok))
        refine .kept hvisits hfrees ?_
        simp only [releaseDeadTla, ThreadGraveyard.releaseThread, ThreadGraveyard.putThread,
          ← hqueue]

/-- What the start of a thread did: it took the first dead thread-local allocator; there was none
and no new one could be made; or one was made. -/
inductive Starts (alloc : GraveAllocator) (config : ThreadLocalAllocatorConfig) (tlaMem : Nat) :
    Nat → GraveAllocator → Prop where
  | snatched {dead : Nat} {rest : List Nat} {alloc' : GraveAllocator}
      (hqueue : alloc.tlaGraveyard.deadQueue = dead :: rest)
      (hsame : alloc'.toAllocator = alloc.toAllocator)
      (hqueue' : alloc'.tlaGraveyard.deadQueue = rest) : Starts alloc config tlaMem dead alloc'
  | none : Starts alloc config tlaMem 0 alloc
  | created {tla : ThreadLocalAllocator} {alloc' : GraveAllocator} (hmem : 0 < tlaMem)
      (hcreate : (ThreadLocalAllocator.create config).Creates tla)
      (hnew : alloc'.toAllocator = alloc.toAllocator.withTla tlaMem tla)
      (hqueue : alloc'.tlaGraveyard = alloc.tlaGraveyard) : Starts alloc config tlaMem tlaMem alloc'

theorem createTla_cases {config : ThreadLocalAllocatorConfig} {tlaMem : Nat}
    (hdead : ∀ d ∈ alloc.tlaGraveyard.deadQueue, 0 < d)
    (hok : alloc.createTla config tlaMem = .ok (t, alloc')) : Starts alloc config tlaMem t
    alloc' := by
  cases hqueue : alloc.tlaGraveyard.deadQueue with
  | cons dead rest =>
    have hpos := hdead dead (hqueue ▸ List.mem_cons_self)
    simp only [createTla, snatchDeadTla, acquireDeadTla, ThreadGraveyard.acquire, hqueue, hpos.ne',
      removeDeadTla, if_false, ne_eq, not_false_eq_true, if_true, pure_eq_ok, Prod.mk.injEq] at hok
    obtain ⟨rfl, rfl⟩ := hok
    exact .snatched hqueue rfl rfl
  | nil =>
    simp only [createTla, snatchDeadTla, acquireDeadTla, ThreadGraveyard.acquire, hqueue, if_true,
      ne_eq, not_true_eq_false, if_false, createNewTla] at hok
    split_ifs at hok with hmem
    · obtain ⟨rfl, rfl⟩ := Prod.mk.inj (Except.ok.inj hok)
      exact .none
    · simp only [bind_eq_ok] at hok
      obtain ⟨created, hcreate, hok⟩ := hok
      cases created with
      | error =>
        obtain ⟨rfl, rfl⟩ := Prod.mk.inj (Except.ok.inj hok)
        exact .none
      | ok tla =>
        obtain ⟨rfl, rfl⟩ := Prod.mk.inj (Except.ok.inj hok)
        exact .created (Nat.pos_of_ne_zero hmem) hcreate rfl rfl

/-- What the exit of a thread did: its thread-local allocator was empty and is destroyed, or it is
buried. -/
inductive Exits (alloc : GraveAllocator) (t : Nat) : Bool → GraveAllocator → Prop where
  | destroyed {alloc' : GraveAllocator} (hempty : (alloc.tlas t).empty = true)
      (hfrees : alloc.toAllocator.freeTlaResources t = .ok alloc'.toAllocator)
      (hqueue : alloc'.tlaGraveyard = alloc.tlaGraveyard) : Exits alloc t true alloc'
  | buried : Exits alloc t false (alloc.retireDeadTla t)

theorem exitThread_cases (h : Allocator.Inv threads ⟨alloc.toAllocator, live, foreign⟩)
    (ht : t ∈ threads) {destroyed : Bool}
    (hok : alloc.exitThread fuel t = .ok (some (destroyed, alloc'))) : Exits alloc t destroyed
    alloc' := by
  simp only [exitThread, h.reclaim_eq ht, ok_bind] at hok
  split_ifs at hok with hempty
  · simp only [destroyTla, bind_eq_ok, pure_eq_ok] at hok
    obtain ⟨_, ⟨allocator, hfrees, rfl⟩, hok⟩ := hok
    obtain ⟨rfl, rfl⟩ := Prod.mk.inj (Option.some.inj hok)
    exact .destroyed hempty hfrees rfl
  · obtain ⟨rfl, rfl⟩ := Prod.mk.inj (Option.some.inj (Except.ok.inj hok))
    exact .buried

/-- `this_tla_cleanup` moves no arena and no chunk. -/
theorem thisTlaCleanup_same (h : Allocator.Inv threads ⟨alloc.toAllocator, live, foreign⟩)
    (ht : t ∈ threads) (hok : alloc.thisTlaCleanup fuel t = .ok (some (g, alloc'))) :
    alloc'.toAllocator = alloc.toAllocator ∧ alloc'.tlaGraveyard = alloc.tlaGraveyard := by
  simp only [thisTlaCleanup, bind_eq_ok, check_eq_ok, exists_const] at hok
  obtain ⟨-, hok⟩ := hok
  split_ifs at hok with hturn
  · obtain ⟨rfl, rfl⟩ := Prod.mk.inj (Option.some.inj (Except.ok.inj hok))
    exact ⟨rfl, rfl⟩
  · simp only [withCleanup, h.reclaim_eq ht, ok_bind, pure_eq_ok] at hok
    obtain ⟨rfl, rfl⟩ := Prod.mk.inj (Option.some.inj hok)
    exact ⟨rfl, rfl⟩

end GraveAllocator

end Cuw3
