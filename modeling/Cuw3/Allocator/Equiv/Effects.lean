/-
  What operations do to the chunks of a process.

  An operation is a request, a free, the return of the cached chunks of one thread-local allocator
  to the pool, a new thread-local allocator, or it changes no chunk (`Process.Step.effect`).  So in
  every state that a run reaches, whatever commits fail and whoever frees, no chunk is lost and
  those that threads have are committed (`Process.Reachable.keeps`); and as long as only owners
  free, the arenas in the bins stay balanced (`Process.Reachable.books`).
-/
import Cuw3.Allocator.Equiv.Commits
import Cuw3.Allocator.Equiv.Leaks

namespace Cuw3

open Lib

namespace Allocator

variable {threads : List Nat} {w : World} {alloc alloc' : Allocator} {t u r : Nat}
  {type : RegionChunkType} {c : RegionChunkAllocation} {heap : Heap}
  {allocator : ArenaAllocator type.Bins}

/-! ### `free_tla_resources` -/

/-- Cached chunks of `t` went to the pool. -/
structure ReturnsCached (threads : List Nat) (alloc alloc' : Allocator) (t : Nat) : Prop where
  committed : alloc'.committed = alloc.committed
  taken : ∀ a ∈ alloc'.taken threads, a ∈ alloc.taken threads
  accounted : ∀ q, alloc.Accounted threads q → alloc'.Accounted threads q
  cached : ∀ u r, ((alloc'.tlas u).cachedChunks r).valid = true →
    ((alloc.tlas u).cachedChunks r).valid = true

theorem ReturnsCached.trans {alloc'' : Allocator} (h : ReturnsCached threads alloc alloc' t)
    (h' : ReturnsCached threads alloc' alloc'' t) : ReturnsCached threads alloc alloc'' t := by
  constructor
  · exact h'.committed.trans h.committed
  · exact fun a ha => h.taken a (h'.taken a ha)
  · exact fun q hq => h'.accounted q (h.accounted q hq)
  · exact fun u r hvalid => h.cached u r (h'.cached u r hvalid)

/-- One turn of `free_tla_resources`. -/
theorem ChunksHold.freeCachedChunk_returnsCached (h : alloc.ChunksHold threads) (ht : t ∈ threads)
    (hr : r < confMaxRegionSizes) (hok : alloc.freeCachedChunk t r = .ok alloc') :
    ReturnsCached threads alloc alloc' t ∧ ((alloc'.tlas t).cachedChunks r).valid = false := by
  unfold Allocator.freeCachedChunk at hok
  by_cases hvalid : ((alloc.tlas t).cachedChunks r).valid = true
  swap
  · rw [Bool.not_eq_true] at hvalid
    simp only [hvalid, Bool.not_false, if_true] at hok
    obtain rfl := Except.ok.inj hok
    exact ⟨⟨rfl, fun _ => id, fun _ => id, fun _ _ => id⟩, hvalid⟩
  simp only [hvalid, Bool.not_true, Bool.false_eq_true, if_false, bind_eq_ok, pure_eq_ok] at hok
  obtain ⟨rca, hback, rfl⟩ := hok
  -- the chunk leaves the cache
  obtain ⟨hplaced, hregion⟩ := h.cached t ht r hvalid
  generalize hmid : alloc.withTla t ((alloc.tlas t).withCachedChunk r
    nullRegionChunkAllocation) = mid at hback
  have hperm : (alloc.rca.handleAddress ((alloc.tlas t).cachedChunks r).handle ::
      mid.taken threads).Perm (alloc.taken threads) := by
    rw [← hmid]
    refine taken_withCachedChunk [_] [] h.threads_nodup ht hr ?_
    rw [if_pos hvalid]
    exact .refl _
  have hrca : mid.rca = alloc.rca := hmid ▸ rfl
  obtain ⟨hholds, hflight, htake⟩ := h.take hplaced hperm hrca
    (h.cached_withCachedChunk (fun hnull => absurd hnull (by decide)) hmid.symm)
  -- and goes back to the pool
  have htlas : mid.tlas = Function.update mid.tlas t (mid.tlas t) :=
    (Function.update_eq_self t mid.tlas).symm
  obtain ⟨-, hframe, hgive⟩ : ({ mid with rca } : Allocator).ChunksHold threads ∧
      ChunkFrame mid { mid with rca } ∧ _ :=
    hholds.giveBack hflight hback rfl htlas rfl fun _ => rfl
  have htaken : ({ mid with rca } : Allocator).taken threads = mid.taken threads :=
    taken_congr hframe.rca (fun _ => rfl) fun _ _ => rfl
  have hmidTlas : mid.tlas = Function.update alloc.tlas t
      ((alloc.tlas t).withCachedChunk r nullRegionChunkAllocation) := hmid ▸ rfl
  refine ⟨⟨?_, fun a ha => ?_, fun q hq => (hgive q).mpr ((htake q).mp hq), fun u s hs => ?_⟩, ?_⟩
  · rw [← hmid]
    rfl
  · rw [htaken] at ha
    exact hperm.subset (List.mem_cons_of_mem _ ha)
  · dsimp only at hs
    rw [hmidTlas] at hs
    by_cases hu : u = t
    · subst hu
      by_cases hsr : s = r
      · rwa [hsr]
      · simpa [ThreadLocalAllocator.withCachedChunk, hsr] using hs
    · rwa [Function.update_of_ne hu] at hs
  · dsimp only
    simp only [hmidTlas, ThreadLocalAllocator.withCachedChunk, Function.update_self]
    rfl

/-- `free_tla_resources` empties the cache. -/
theorem ChunksHold.freeTlaResources_returnsCached (h : alloc.ChunksHold threads) (ht : t ∈ threads)
    (hok : alloc.freeTlaResources t = .ok alloc') :
    ReturnsCached threads alloc alloc' t ∧ alloc'.CachesNothing t := by
  have hloop : ∀ regions : List Nat, (∀ r ∈ regions, r < confMaxRegionSizes) →
      ∀ {alloc : Allocator}, alloc.ChunksHold threads →
        regions.foldlM (fun alloc region => alloc.freeCachedChunk t region) alloc = .ok alloc' →
          ReturnsCached threads alloc alloc' t ∧
            ∀ r ∈ regions, ((alloc'.tlas t).cachedChunks r).valid = false := by
    intro regions
    induction regions with
    | nil =>
      intro _ alloc _ hok
      obtain rfl := Except.ok.inj hok
      exact ⟨⟨rfl, fun _ => id, fun _ => id, fun _ _ => id⟩,
        fun r hr => absurd hr List.not_mem_nil⟩
    | cons r regions ih =>
      intro hlt alloc h hok
      rw [List.foldlM_cons, bind_eq_ok] at hok
      obtain ⟨mid, hturn, hok⟩ := hok
      have hr := hlt r List.mem_cons_self
      obtain ⟨hback, hempty⟩ := h.freeCachedChunk_returnsCached ht hr hturn
      obtain ⟨mid', hturn', hfrees⟩ := h.freeCachedChunk ht hr
      obtain rfl : mid = mid' := Except.ok.inj (hturn.symm.trans hturn')
      obtain ⟨hback', hrest⟩ := ih (fun s hs => hlt s (List.mem_cons_of_mem _ hs)) hfrees.holds hok
      refine ⟨hback.trans hback', fun s hs => ?_⟩
      rcases List.mem_cons.mp hs with rfl | hs
      · -- what is empty stays empty
        by_contra hvalid
        rw [hback'.cached t s (by simpa using hvalid)] at hempty
        cases hempty
      · exact hrest s hs
  have hlt : ∀ r ∈ List.range (confMaxCachedChunkSizeId + 1), r < confMaxRegionSizes := by
    intro r hr
    exact lt_of_lt_of_le (List.mem_range.mp hr) (by decide)
  obtain ⟨hback, hempty⟩ := hloop _ hlt h hok
  exact ⟨hback, fun r hr => hempty r (List.mem_range.mpr (Nat.lt_succ_of_le hr))⟩

/-! ### Committed chunks -/

/-- The chunks that threads have are committed. -/
def TakenCommitted (threads : List Nat) (alloc : Allocator) : Prop :=
  ∀ c, alloc.rca.Placed c → alloc.rca.handleAddress c.handle ∈ alloc.taken threads →
    alloc.Committed c

variable {threads' : List Nat} {commitOk : Bool}

/-- The counts of a thread were changed, not its chunks. -/
theorem taken_of_update {object : ThreadLocalAllocator} (hframe : ChunkFrame alloc alloc')
    (htlas : alloc'.tlas = Function.update alloc.tlas t object)
    (hcached : object.cachedChunks = (alloc.tlas t).cachedChunks) :
    alloc'.taken threads = alloc.taken threads :=
  taken_congr hframe.rca (cachedChunks_of_update htlas hcached) hframe.allocators

/-- Nothing was decommitted, and no chunk came to a thread. -/
theorem TakenCommitted.congr (h : alloc.TakenCommitted threads)
    (hrca : alloc.rca.SameLayout alloc'.rca) (hcommitted : alloc'.committed = alloc.committed)
    (htaken : ∀ a ∈ alloc'.taken threads', a ∈ alloc.taken threads) :
    alloc'.TakenCommitted threads' := by
  intro c hc ha
  rw [committed_congr hrca hcommitted]
  refine h c (hrca.placed.mp hc) ?_
  rw [← hrca.handleAddress]
  exact htaken _ ha

/-- One chunk was committed, or decommitted when no thread had it. -/
theorem TakenCommitted.update (h : alloc.TakenCommitted threads) (hl : alloc.rca.Layout)
    (hm : alloc.rca.MappedHandles) (hc : alloc.rca.Placed c)
    (hrca : alloc.rca.SameLayout alloc'.rca) {b : Bool}
    (hcommitted : alloc'.committed =
      Function.update alloc.committed (alloc.rca.address c.region c.chunk 0) b)
    (htaken : alloc'.taken threads = alloc.taken threads)
    (hfree : b = true ∨ alloc.rca.handleAddress c.handle ∉ alloc.taken threads) :
    alloc'.TakenCommitted threads := by
  obtain ⟨hself, hother⟩ := committed_update hl hm hc hrca hcommitted
  intro c' hc' ha
  rw [hrca.placed] at hc'
  rw [htaken, hrca.handleAddress] at ha
  by_cases hcc : c' = c
  · subst hcc
    exact hself.mpr (hfree.resolve_right fun hnot => hnot ha)
  · rw [hother c' hc' hcc]
    exact h c' hc' ha

/-- A committed chunk came to a thread. -/
theorem TakenCommitted.gain (h : alloc.TakenCommitted threads) (hl : alloc.rca.Layout)
    (hc : alloc.rca.Placed c) (hcommitted : alloc.Committed c) (hrca : alloc'.rca = alloc.rca)
    (hsame : alloc'.committed = alloc.committed)
    (htaken : (alloc'.taken threads).Perm
      (alloc.rca.handleAddress c.handle :: alloc.taken threads)) :
    alloc'.TakenCommitted threads := by
  intro c' hc' ha
  rw [hrca] at hc' ha
  rw [committed_congr (hrca ▸ .refl _) hsame]
  rcases List.mem_cons.mp (htaken.subset ha) with heq | ha
  · have hhandle : c'.handle = c.handle := RegionChunkAllocator.handleAddress_inj hl heq
    rwa [hc'.unique hc hl hhandle]
  · exact h c' hc' ha

/-- The bins of a thread hold the same arenas. -/
theorem TakenCommitted.keep (h : alloc.TakenCommitted threads) (hnodup : threads.Nodup)
    (ht : t ∈ threads) (hperm : (type.law.held allocator.bins).Perm ((alloc.tlas t).held type)) :
    (alloc.withAllocator t type heap allocator).TakenCommitted threads := by
  have htaken : ((alloc.withAllocator t type heap allocator).taken threads).Perm
      (alloc.taken threads) := taken_withAllocator [] [] hnodup ht hperm
  exact h.congr (.refl _) rfl fun a ha => htaken.subset ha

/-- `allocate_chunk_` returns a committed chunk, and decommits none. -/
theorem TakenCommitted.chunkOut (h : alloc.TakenCommitted threads)
    (hchunks : alloc.ChunksHold threads) (ht : t ∈ threads)
    (hout : ChunkOut alloc t commitOk c alloc') :
    alloc'.TakenCommitted threads ∧ (c.valid = true → alloc'.Committed c) := by
  have hl := hchunks.pools.toLayout
  have hframe := hout.frame
  cases hout with
  | none => exact ⟨h, fun hvalid => absurd hvalid (by decide)⟩
  | cached r hr hvalid =>
    have hplaced := (hchunks.cached t ht r hvalid).1
    have htaken : (alloc.rca.handleAddress ((alloc.tlas t).cachedChunks r).handle ::
        (alloc.withTla t ((alloc.tlas t).withCachedChunk r
          nullRegionChunkAllocation)).taken threads).Perm (alloc.taken threads) := by
      refine taken_withCachedChunk [_] [] hchunks.threads_nodup ht hr ?_
      rw [if_pos hvalid]
      exact .refl _
    refine ⟨h.congr (.refl _) rfl fun a ha => ?_, fun _ => ?_⟩
    · exact htaken.subset (List.mem_cons_of_mem _ ha)
    · exact h _ hplaced (htaken.subset List.mem_cons_self)
  | pooled c rca split hplaced htaken =>
    have hsame := htaken.same
    refine ⟨h.update hl hchunks.mapped hplaced hsame rfl ?_ (.inl rfl), fun _ => ?_⟩
    · exact taken_of_update hframe rfl rfl
    · exact (committed_update hl hchunks.mapped hplaced hsame rfl).1.mpr rfl
  | failed c rca split hcommit hplaced hpools hsame hpooled =>
    refine ⟨h.congr hsame rfl fun a ha => ?_, fun hvalid => absurd hvalid (by decide)⟩
    rwa [taken_of_update hframe rfl rfl] at ha

/-- `deallocate_chunk_` decommits a chunk only if no thread has it. -/
theorem TakenCommitted.chunkIn (h : alloc.TakenCommitted threads)
    (hchunks : alloc.ChunksHold threads) (ht : t ∈ threads) (hc : alloc.InFlight threads c)
    (hcommitted : alloc.Committed c) (hin : ChunkIn alloc t c alloc') :
    alloc'.TakenCommitted threads := by
  have hl := hchunks.pools.toLayout
  have hframe := (hchunks.chunkIn ht hc hin).2.1
  cases hin with
  | cached hregion hempty =>
    have hr : c.region < confMaxRegionSizes :=
      lt_of_lt_of_le hc.placed.region_lt hchunks.pools.specs.numRegions_le
    refine h.gain hl hc.placed hcommitted rfl rfl ?_
    refine taken_withCachedChunk [] [_] hchunks.threads_nodup ht hr ?_
    rw [if_pos (hc.placed.valid hl), hempty]
    exact .refl _
  | pooled rca hback =>
    refine h.update hl hchunks.mapped hc.placed hframe.rca rfl ?_ (.inr hc.notTaken)
    exact taken_of_update hframe rfl rfl

/-- A request commits what it takes, or fails. -/
theorem TakenCommitted.allocate {size alignment : Nat} {res : AcquiredResource}
    (h : w.alloc.TakenCommitted threads) (hinv : Inv threads w) (ht : t ∈ threads)
    (heffect : Allocates threads w t size alignment commitOk type res alloc') :
    alloc'.TakenCommitted threads := by
  have hchunks := hinv.chunks
  have hnodup := hchunks.threads_nodup
  cases heffect with
  | none hr hlinks hheld hout hc =>
    exact ((h.keep hnodup ht hheld).chunkOut (hchunks.keep ht hheld) ht hout).1
  | held hp hheld hheap hblock => exact h.keep hnodup ht hheld
  | @fresh c alloc₁ arena p m heap₁ heap bins allocator hlinks hheld hout hnew hput =>
    have hchunks₁ : (w.alloc.withAllocator t type heap₁
        { (w.alloc.tlas t).allocator type with bins }).ChunksHold threads := hchunks.keep ht hheld
    have hl := hout.frame.rca.layout hchunks₁.pools.toLayout
    obtain ⟨hholds, hcommitted⟩ := (h.keep hnodup ht hheld).chunkOut hchunks₁ ht hout
    refine hholds.gain hl hnew.placed (hcommitted (hnew.placed.valid hl)) rfl rfl ?_
    refine taken_withAllocator [] [_] hnodup ht ?_
    rw [← hnew.address]
    exact hput.held

/-- A free decommits at most the chunk of an arena that left the bins. -/
theorem TakenCommitted.deallocate {l : Allocation} {owner : Nat}
    (h : w.alloc.TakenCommitted threads) (hinv : Inv threads w)
    (heffect : Deallocates threads w.alloc t l owner alloc') : alloc'.TakenCommitted threads := by
  have hchunks := hinv.chunks
  have hnodup := hchunks.threads_nodup
  cases heffect with
  | other hne hblock => exact h.congr (.refl _) rfl fun _ => id
  | @own type p _ ht hp hown hfrees =>
    cases hfrees with
    | kept hheld => exact h.keep hnodup ht hheld
    | @drained c heap allocator _ hheld hothers hblock hbacked hin =>
      rw [hbacked.address] at hheld
      obtain ⟨hholds, hflight, -⟩ := hchunks.drop ht hbacked.placed hheld
      have htaken : (w.alloc.rca.handleAddress c.handle ::
          (w.alloc.withAllocator t type heap allocator).taken threads).Perm
            (w.alloc.taken threads) := taken_withAllocator [_] [] hnodup ht hheld
      have hdrop : (w.alloc.withAllocator t type heap allocator).TakenCommitted threads :=
        h.congr (.refl _) rfl fun a ha => htaken.subset (List.mem_cons_of_mem _ ha)
      have hcommitted := h c hbacked.placed (htaken.subset List.mem_cons_self)
      exact hdrop.chunkIn hholds ht hflight hcommitted hin

/-! ### Cached chunks -/

/-- Only small chunks come to a cache. -/
theorem ChunkOut.cached_valid (hout : ChunkOut alloc t commitOk c alloc')
    (hvalid : ((alloc'.tlas u).cachedChunks r).valid = true) :
    ((alloc.tlas u).cachedChunks r).valid = true := by
  by_cases hu : u = t
  swap
  · rwa [hout.tlas_of_ne hu] at hvalid
  subst hu
  cases hout with
  | none => exact hvalid
  | cached region hregion hfull =>
    simp only [withTla, Function.update_self] at hvalid
    by_cases hr : r = region
    · rwa [hr]
    · simpa [ThreadLocalAllocator.withCachedChunk, hr] using hvalid
  | pooled => simpa [withTla] using hvalid
  | failed => simpa [withTla] using hvalid

theorem ChunkIn.cached_valid (hin : ChunkIn alloc t c alloc')
    (hvalid : ((alloc'.tlas u).cachedChunks r).valid = true) :
    r ≤ confMaxCachedChunkSizeId ∨ ((alloc.tlas u).cachedChunks r).valid = true := by
  by_cases hu : u = t
  swap
  · rw [hin.tlas_of_ne hu] at hvalid
    exact .inr hvalid
  subst hu
  cases hin with
  | cached hregion hempty =>
    simp only [withTla, Function.update_self] at hvalid
    by_cases hr : r = c.region
    · exact .inl (hr ▸ hregion)
    · exact .inr (by simpa [ThreadLocalAllocator.withCachedChunk, hr] using hvalid)
  | pooled => exact .inr (by simpa [withTla] using hvalid)

theorem Allocates.cached_valid {size alignment : Nat} {res : AcquiredResource}
    (heffect : Allocates threads w t size alignment commitOk type res alloc')
    (hvalid : ((alloc'.tlas u).cachedChunks r).valid = true) :
    ((w.alloc.tlas u).cachedChunks r).valid = true := by
  cases heffect with
  | none hr hlinks hheld hout hc =>
    have hout := hout.cached_valid hvalid
    rwa [cachedChunks_withAllocator] at hout
  | held => rwa [cachedChunks_withAllocator] at hvalid
  | fresh hlinks hheld hout =>
    rw [cachedChunks_withAllocator] at hvalid
    have hout := hout.cached_valid hvalid
    rwa [cachedChunks_withAllocator] at hout

theorem Deallocates.cached_valid {l : Allocation} {owner : Nat}
    (heffect : Deallocates threads alloc t l owner alloc')
    (hvalid : ((alloc'.tlas u).cachedChunks r).valid = true) :
    r ≤ confMaxCachedChunkSizeId ∨ ((alloc.tlas u).cachedChunks r).valid = true := by
  cases heffect with
  | other => exact .inr hvalid
  | own ht hp hown hfrees =>
    cases hfrees with
    | kept =>
      rw [cachedChunks_withAllocator] at hvalid
      exact .inr hvalid
    | drained hheld hothers hblock hbacked hin =>
      have hin := hin.cached_valid hvalid
      rwa [cachedChunks_withAllocator] at hin

/-! ### All chunks -/

/-- The chunks that threads have are committed, no chunk is lost, and only small ones are cached. -/
structure Keeps (threads : List Nat) (alloc : Allocator) : Prop where
  committed : alloc.TakenCommitted threads
  whole : Whole threads alloc
  small : ∀ t ∈ threads, ∀ r, ((alloc.tlas t).cachedChunks r).valid = true →
    r ≤ confMaxCachedChunkSizeId

theorem Keeps.allocate {size alignment : Nat} {res : AcquiredResource}
    (h : w.alloc.Keeps threads) (hinv : Inv threads w) (ht : t ∈ threads)
    (heffect : Allocates threads w t size alignment commitOk type res alloc') :
    alloc'.Keeps threads := by
  constructor
  · exact h.committed.allocate hinv ht heffect
  · exact h.whole.allocate hinv ht heffect
  · exact fun u hu r hvalid => h.small u hu r (heffect.cached_valid hvalid)

theorem Keeps.deallocate {l : Allocation} {owner : Nat} (h : w.alloc.Keeps threads)
    (hinv : Inv threads w) (heffect : Deallocates threads w.alloc t l owner alloc') :
    alloc'.Keeps threads := by
  constructor
  · exact h.committed.deallocate hinv heffect
  · cases heffect with
    | other => exact h.whole
    | own ht hp hown hfrees => exact h.whole.deallocate hinv ht hfrees
  · exact fun u hu r hvalid => (heffect.cached_valid hvalid).elim id (h.small u hu r)

theorem Keeps.returnsCached (h : alloc.Keeps threads) (hrca : alloc.rca.SameLayout alloc'.rca)
    (hback : ReturnsCached threads alloc alloc' t) : alloc'.Keeps threads := by
  constructor
  · exact h.committed.congr hrca hback.committed hback.taken
  · intro q hq
    rw [hrca.specs] at hq
    exact hback.accounted q (h.whole q hq)
  · exact fun u hu r hvalid => h.small u hu r (hback.cached u r hvalid)

/-- A thread-local allocator without chunks was destroyed. -/
theorem Keeps.remove (h : alloc.Keeps threads) (hnodup : threads.Nodup)
    (hcache : alloc.CachesNothing t) (hheld : ∀ type, (alloc.tlas t).held type = []) :
    alloc.Keeps (threads.erase t) := by
  have hmem : ∀ {u}, u ∈ threads.erase t → u ∈ threads := fun hu => List.mem_of_mem_erase hu
  constructor
  · intro c hc ha
    obtain ⟨u, hu, ha⟩ := mem_taken.mp ha
    exact h.committed c hc (mem_taken.mpr ⟨u, hmem hu, ha⟩)
  · intro q hq
    refine (h.whole q hq).imp_right fun ha => ?_
    obtain ⟨u, hu, ha⟩ := mem_taken.mp ha
    refine mem_taken.mpr ⟨u, hnodup.mem_erase_iff.mpr ⟨?_, hu⟩, ha⟩
    rintro rfl
    -- it has neither cached chunks nor arenas
    rcases ThreadLocalAllocator.mem_addresses.mp ha with hcached | ⟨type, hin⟩
    · obtain ⟨r, -, hin⟩ := mem_slots.mp hcached
      by_cases hvalid : ((alloc.tlas u).cachedChunks r).valid = true
      · rw [hcache r (h.small u hu r hvalid)] at hvalid
        cases hvalid
      · rw [if_neg hvalid] at hin
        cases hin
    · rw [hheld type] at hin
      cases hin
  · exact fun u hu => h.small u (hmem hu)

/-- A new thread-local allocator has no chunk. -/
theorem Keeps.add (h : alloc.Keeps threads) (ht : t ∉ threads)
    {config : ThreadLocalAllocatorConfig} {object : ThreadLocalAllocator}
    (hcreate : (ThreadLocalAllocator.create config).Creates object)
    (hstepMin : config.stepSplitAllocConfig.minArenaAlignmentLog2 = confFastArenaMinAlignmentLog2)
    (hsmallMin : config.smallAllocConfig.minArenaAlignmentLog2 = confFastArenaMinAlignmentLog2) :
    (alloc.withTla t object).Keeps (t :: threads) := by
  generalize hnew : alloc.withTla t object = alloc'
  have hself : alloc'.tlas t = object := by
    rw [← hnew]
    exact Function.update_self ..
  have hother : ∀ u ∈ threads, alloc'.tlas u = alloc.tlas u := by
    intro u hu
    rw [← hnew]
    exact Function.update_of_ne (ne_of_mem_of_not_mem hu ht) ..
  have hrca : alloc'.rca = alloc.rca := hnew ▸ rfl
  rw [← hself] at hcreate
  have hkind : ∀ type, alloc'.KindHolds [] t type ∧ (alloc'.tlas t).held type = [] :=
    kind_of_create hcreate hstepMin hsmallMin
  have hcached := cachedChunks_of_create hcreate
  have htaken : alloc'.taken (t :: threads) = alloc.taken threads := by
    have hnil : (alloc'.tlas t).addresses alloc'.rca = [] := by
      rw [ThreadLocalAllocator.addresses, cachedAddresses_eq_nil hcached, (hkind _).2, (hkind _).2]
      rfl
    have hrest : alloc'.taken threads = alloc.taken threads :=
      slots_congr fun u hu => by rw [hother u hu, hrca]
    rw [← hrest, taken, slots, List.flatMap_cons, hnil]
    rfl
  constructor
  · refine h.committed.congr (hrca ▸ .refl _) (hnew ▸ rfl) fun a ha => ?_
    rwa [htaken] at ha
  · intro q hq
    rw [Accounted, htaken, hrca]
    rw [hrca] at hq
    exact h.whole q hq
  · intro u hu r hvalid
    rcases List.mem_cons.mp hu with rfl | hu
    · have hnull : (alloc'.tlas u).cachedChunks r = nullRegionChunkAllocation := by rw [hcached]
      rw [hnull] at hvalid
      exact absurd hvalid (by decide)
    · rw [hother u hu] at hvalid
      exact h.small u hu r hvalid

/-- The arenas are those that were in the bins. -/
theorem BooksHold.mono (h : BooksHold threads w) (hheap : alloc'.heap = w.alloc.heap)
    (hheld : ∀ q, alloc'.HeldBy threads' q → w.alloc.HeldBy threads q) :
    BooksHold threads' ⟨alloc', w.live, w.foreign⟩ := by
  intro q hq
  dsimp only
  rw [hheap]
  exact h q (hheld q hq)

end Allocator

/-! ### Operations -/

/-- A thread-local allocator that was buried holds an arena. -/
theorem GraveAllocator.exitThread_buried {alloc alloc' : GraveAllocator} {threads : List Nat}
    {live : List Allocation} {foreign : Bool} {fuel t : Nat}
    (h : Allocator.Inv threads ⟨alloc.toAllocator, live, foreign⟩) (ht : t ∈ threads)
    (hok : alloc.exitThread fuel t = .ok (some (false, alloc'))) :
    (alloc.tlas t).empty = false := by
  simp only [exitThread, h.reclaim_eq ht, ok_bind] at hok
  split_ifs at hok with hempty
  · simp only [bind_eq_ok] at hok
    obtain ⟨_, -, hok⟩ := hok
    cases hok
  · rwa [Bool.not_eq_true] at hempty

namespace Process

open Allocator

variable {p p' : Process} {t : Nat} {a : Action}

/-- The dead thread-local allocators. -/
def dead (p : Process) : List Nat := p.alloc.tlaGraveyard.deadQueue

/-- What an operation does to the chunks, to the thread-local allocators that exist and to the dead
ones, and to the allocations of the clients. -/
inductive Effect (p : Process) : Process → Prop
  | allocate {commitOk : Bool} {t size alignment : Nat} {type : RegionChunkType}
      {r : AcquiredResource} {alloc' : Allocator} (ht : p.Running t)
      (heffect : Allocates p.tlas p.world t (max size 1) alignment commitOk type r alloc') :
      Effect p (p.withWorld ⟨alloc', liveAfter p.live size r, p.foreign⟩)
  | deallocate {t ptr size owner : Nat} {alloc' : Allocator} (ht : p.Running t)
      (hl : ⟨ptr, max size 1⟩ ∈ p.live)
      (heffect : Deallocates p.tlas p.alloc.toAllocator t ⟨ptr, max size 1⟩ owner alloc') :
      Effect p (p.withWorld ⟨alloc', p.live.erase ⟨ptr, max size 1⟩, p.foreign || owner != t⟩)
  | same {alloc' : GraveAllocator} {released : List Nat}
      (hsame : alloc'.toAllocator = p.alloc.toAllocator)
      (hdead : ∀ d ∈ alloc'.tlaGraveyard.deadQueue, d ∈ p.dead ∨ d ∈ p.tlas ∧
        (p.alloc.tlas d).empty = false) :
      Effect p { p with alloc := alloc', released }
  | frees {t : Nat} {alloc' : GraveAllocator} {released : List Nat} (ht : t ∈ p.tlas)
      (hfrees : p.alloc.toAllocator.freeTlaResources t = .ok alloc'.toAllocator)
      (hdead : alloc'.tlaGraveyard.deadQueue ⊆ p.dead) :
      Effect p { p with alloc := alloc', released }
  | destroys {t : Nat} {alloc' : GraveAllocator} {released : List Nat} (ht : t ∈ p.tlas)
      (hheld : ∀ type, (p.alloc.tlas t).held type = [])
      (hfrees : p.alloc.toAllocator.freeTlaResources t = .ok alloc'.toAllocator)
      (hdead : alloc'.tlaGraveyard.deadQueue ⊆ p.dead) :
      Effect p { p with alloc := alloc', tlas := p.tlas.erase t, released }
  | creates {config : ThreadLocalAllocatorConfig} {tlaMem : Nat} {tla : ThreadLocalAllocator}
      {alloc' : GraveAllocator} (hmem : tlaMem ∉ p.tlas)
      (hcreate : (ThreadLocalAllocator.create config).Creates tla)
      (hstepMin : config.stepSplitAllocConfig.minArenaAlignmentLog2 = confFastArenaMinAlignmentLog2)
      (hsmallMin : config.smallAllocConfig.minArenaAlignmentLog2 = confFastArenaMinAlignmentLog2)
      (hnew : alloc'.toAllocator = p.alloc.toAllocator.withTla tlaMem tla)
      (hdead : alloc'.tlaGraveyard.deadQueue ⊆ p.dead) :
      Effect p { p with alloc := alloc', tlas := tlaMem :: p.tlas }

theorem Step.effect (hstep : Step p a p') (hinv : p.Inv) : Effect p p' := by
  cases hstep with
  | allocate ht hsize hok =>
    obtain ⟨-, -, type, heffect⟩ := hinv.world.allocate ht.mem hsize hok
    exact .allocate ht heffect
  | deallocate ht hl howner hok =>
    obtain ⟨-, heffect⟩ := hinv.world.deallocate hl howner hok
    exact .deallocate ht hl heffect
  | reclaim ht hok =>
    have hsame := hinv.world.reclaim_eq ht.mem
    dsimp only [Process.world] at hsame
    rw [hsame] at hok
    obtain ⟨-, rfl⟩ := Prod.mk.inj (Option.some.inj (Except.ok.inj hok))
    exact .same rfl fun d hd => .inl hd
  | thisTlaCleanup ht hok =>
    obtain ⟨hsame, hqueue⟩ := GraveAllocator.thisTlaCleanup_same hinv.world ht.mem hok
    refine .same hsame fun d hd => .inl ?_
    rwa [hqueue] at hd
  | graveTlaCleanup ht hok =>
    cases GraveAllocator.graveTlaCleanup_cases hinv.world hinv.dead_pos hok with
    | none hsame hqueue =>
      refine .same hsame fun d hd => .inl ?_
      rwa [hqueue] at hd
    | emptied hvisits hqueue hempty hfrees hqueue' =>
      refine .frees (hinv.dead _ (GraveAllocator.mem_of_visits hvisits)) hfrees fun d hd => ?_
      rw [hqueue'] at hd
      rw [dead, hqueue]
      exact List.mem_cons_of_mem _ hd
    | kept hvisits hfrees hqueue =>
      refine .frees (hinv.dead _ (GraveAllocator.mem_of_visits hvisits)) hfrees fun d hd => ?_
      rwa [hqueue] at hd
  | freeTlaResources ht hok => exact .frees ht.mem hok fun d hd => hd
  | destroyTla ht hok =>
    simp only [GraveAllocator.destroyTla, bind_eq_ok, pure_eq_ok] at hok
    obtain ⟨allocator, hfrees, rfl⟩ := hok
    obtain ⟨hmem, hheld⟩ := hinv.released _ ht
    exact .destroys hmem hheld hfrees fun d hd => hd
  | @start config tlaMem t alloc' hmem hlt hstepMin hsmallMin hok =>
    cases GraveAllocator.createTla_cases (fun d hd => (hinv.dead_pos d hd).2) hok with
    | none =>
      rw [if_pos (.inl rfl)]
      exact .same rfl fun d hd => .inl hd
    | snatched hqueue hsame hqueue' =>
      rw [if_pos (.inr (hinv.dead _ (hqueue ▸ List.mem_cons_self)))]
      refine .same hsame fun d hd => .inl ?_
      rw [hqueue'] at hd
      rw [dead, hqueue]
      exact List.mem_cons_of_mem _ hd
    | created hpos hcreate hnew hqueue =>
      rw [if_neg fun hor => hor.elim hpos.ne' hmem]
      refine .creates hmem hcreate hstepMin hsmallMin hnew fun d hd => ?_
      rwa [hqueue] at hd
  | @exit fuel t destroyed alloc' ht hok =>
    cases GraveAllocator.exitThread_cases hinv.world ht.mem hok with
    | destroyed hempty hfrees hqueue =>
      refine .destroys ht.mem (hinv.held_of_empty ht.mem hempty) hfrees fun d hd => ?_
      rwa [hqueue] at hd
    | buried =>
      refine .same rfl fun d hd => ?_
      rcases List.mem_cons.mp hd with rfl | hd
      · exact .inr ⟨ht.mem, GraveAllocator.exitThread_buried hinv.world ht.mem hok⟩
      · exact .inl hd

/-! ### Runs -/

theorem Init.keeps (h : Init p) : p.alloc.toAllocator.Keeps p.tlas := by
  obtain ⟨config, hspecs⟩ := h.fresh.specs
  obtain ⟨contentionSplit, hpools⟩ := h.fresh.pools
  have hw := RegionChunkAllocatorSpecs.create_wellFormed hspecs h.fresh.fits
  rw [h.tlas]
  constructor
  · intro c _ ha
    cases ha
  · exact fun q hq => .inl ((RegionChunkAllocator.poolsHold_of_create hw hpools).2 q hq)
  · exact fun t ht => absurd ht List.not_mem_nil

theorem Effect.keeps (heffect : Effect p p') (hinv : p.Inv)
    (h : p.alloc.toAllocator.Keeps p.tlas) : p'.alloc.toAllocator.Keeps p'.tlas := by
  have hworld : p.world.alloc.Keeps p.tlas := h
  cases heffect with
  | allocate ht heffect => exact hworld.allocate hinv.world ht.mem heffect
  | deallocate ht hl heffect => exact hworld.deallocate hinv.world heffect
  | same hsame =>
    dsimp only
    rwa [hsame]
  | frees ht hfrees =>
    obtain ⟨-, hcache⟩ := hinv.freeTlaResources ht hfrees
    exact h.returnsCached hcache.frame.rca
      (hinv.world.chunks.freeTlaResources_returnsCached ht hfrees).1
  | @destroys t alloc' released ht hheld hfrees =>
    obtain ⟨-, hcache⟩ := hinv.freeTlaResources ht hfrees
    obtain ⟨hback, hempty⟩ := hinv.world.chunks.freeTlaResources_returnsCached ht hfrees
    refine (h.returnsCached hcache.frame.rca hback).remove hcache.holds.threads_nodup hempty ?_
    intro type
    rw [hcache.frame.held]
    exact hheld type
  | creates hmem hcreate hstepMin hsmallMin hnew =>
    dsimp only
    rw [hnew]
    exact h.add hmem hcreate hstepMin hsmallMin

/-- **In every run** the chunks that threads have are committed, and no chunk is lost. -/
theorem Reachable.keeps {meets : Process → Action → Prop} (h : Reachable meets p) :
    p.alloc.toAllocator.Keeps p.tlas := by
  induction h with
  | init h => exact h.keeps
  | step hreach _ hstep ih => exact (hstep.effect hreach.inv).keeps hreach.inv ih

/-- A thread-local allocator that holds no arena is empty. -/
theorem Inv.empty_of_held (h : p.Inv) (ht : t ∈ p.tlas)
    (hheld : ∀ type, (p.alloc.tlas t).held type = []) : (p.alloc.tlas t).empty = true := by
  have hsmall : (p.alloc.tlas t).smallAllocator.bins.WellFormed p.alloc.heap :=
    (h.world.kind t ht .fastArenaSmallAllocator).holds.wf
  have hstepSplit : (p.alloc.tlas t).stepSplitAllocator.bins.WellFormed p.alloc.heap :=
    (h.world.kind t ht .fastArenaStepSplitAllocator).holds.wf
  have hsmallNil : (p.alloc.tlas t).smallAllocator.bins.held = [] := hheld .fastArenaSmallAllocator
  have hstepNil : (p.alloc.tlas t).stepSplitAllocator.bins.held = [] :=
    hheld .fastArenaStepSplitAllocator
  rw [ThreadLocalAllocator.empty, Bool.and_eq_true]
  constructor
  · unfold FastArenaSmallAllocator.empty FastArenaSmallBins.empty
    rw [hsmall.total, hsmallNil]
    rfl
  · unfold FastArenaStepSplitAllocator.empty FastArenaBins.empty
    rw [hstepSplit.total, hstepNil]
    rfl

/-- A dead thread-local allocator holds an arena. -/
def Buried (p : Process) : Prop := ∀ d ∈ p.dead, ∃ type, (p.alloc.tlas d).held type ≠ []

theorem Effect.buried (heffect : Effect p p') (hinv : p.Inv) (h : p.Buried) : p'.Buried := by
  cases heffect with
  | allocate ht heffect =>
    intro d hd
    have hne : d ≠ _ := ne_of_mem_of_not_mem hd ht.notDead
    obtain ⟨type, hheld⟩ := h d hd
    refine ⟨type, ?_⟩
    dsimp only [withWorld]
    rwa [heffect.tlas_of_ne hne]
  | deallocate ht hl heffect =>
    intro d hd
    have hne : d ≠ _ := ne_of_mem_of_not_mem hd ht.notDead
    obtain ⟨type, hheld⟩ := h d hd
    refine ⟨type, ?_⟩
    dsimp only [withWorld]
    rwa [heffect.tlas_of_ne hne]
  | same hsame hdead =>
    intro d hd
    dsimp only
    rw [hsame]
    rcases hdead d hd with hd | ⟨hd, hempty⟩
    · exact h d hd
    · by_contra! hnone
      rw [hinv.empty_of_held hd hnone] at hempty
      cases hempty
  | frees ht hfrees hdead =>
    intro d hd
    obtain ⟨-, hcache⟩ := hinv.freeTlaResources ht hfrees
    obtain ⟨type, hheld⟩ := h d (hdead hd)
    refine ⟨type, ?_⟩
    dsimp only
    rwa [hcache.frame.held]
  | destroys ht _ hfrees hdead =>
    intro d hd
    obtain ⟨-, hcache⟩ := hinv.freeTlaResources ht hfrees
    obtain ⟨type, hheld⟩ := h d (hdead hd)
    refine ⟨type, ?_⟩
    dsimp only
    rwa [hcache.frame.held]
  | @creates config tlaMem tla alloc' hmem _ _ _ hnew hdead =>
    intro d hd
    have hne : d ≠ tlaMem := ne_of_mem_of_not_mem (hinv.dead d (hdead hd)) hmem
    obtain ⟨type, hheld⟩ := h d (hdead hd)
    refine ⟨type, ?_⟩
    dsimp only
    rw [hnew]
    dsimp only [Allocator.withTla]
    rwa [Function.update_of_ne hne]

theorem Reachable.buried {meets : Process → Action → Prop} (h : Reachable meets p) :
    p.Buried := by
  induction h with
  | init h =>
    intro d hd
    rw [dead, h.graveyard] at hd
    cases hd
  | step hreach _ hstep ih => exact (hstep.effect hreach.inv).buried hreach.inv ih

/-! ### Runs in which owners free -/

theorem Effect.books (heffect : Effect p p') (hinv : p.Inv) (hinv' : p'.Inv)
    (h : p.foreign = false → BooksHold p.tlas p.world) (hforeign : p'.foreign = false) :
    BooksHold p'.tlas p'.world := by
  cases heffect with
  | @allocate commitOk t size alignment type r alloc' ht heffect =>
    have hlive : liveAfter p.live (max size 1) r = liveAfter p.live size r := by
      cases r <;> simp [liveAfter]
    have hworld : Allocator.Inv p.tlas ⟨alloc', liveAfter p.live size r, p.foreign⟩ :=
      hinv'.world
    show BooksHold p.tlas ⟨alloc', liveAfter p.live size r, p.foreign⟩
    rw [← hlive] at hworld ⊢
    exact (h hforeign).allocate hinv.world ht.mem (by omega) heffect hworld
  | @deallocate t ptr size owner alloc' ht hl heffect =>
    have hboth : (p.foreign || owner != t) = false := hforeign
    rw [Bool.or_eq_false_iff] at hboth
    obtain rfl : owner = t := by simpa using hboth.2
    cases heffect with
    | @own type q alloc' ht' hq hown hfrees =>
      have hsame : (p.foreign || owner != owner) = p.foreign := by simp
      show BooksHold p.tlas ⟨alloc', p.live.erase ⟨ptr, max size 1⟩, p.foreign || owner != owner⟩
      rw [hsame]
      exact (h hboth.1).deallocate hinv.world ht' hl hq hown hfrees
    | other hne => exact absurd rfl hne
  | same hsame =>
    have hbooks := h hforeign
    show BooksHold p.tlas ⟨_, p.live, p.foreign⟩
    rw [hsame]
    exact hbooks
  | frees ht hfrees =>
    obtain ⟨-, hcache⟩ := hinv.freeTlaResources ht hfrees
    exact (h hforeign).mono hcache.frame.heap fun q hq => hcache.frame.heldBy.mp hq
  | destroys ht _ hfrees =>
    obtain ⟨-, hcache⟩ := hinv.freeTlaResources ht hfrees
    refine (h hforeign).mono hcache.frame.heap fun q hq => hcache.frame.heldBy.mp ?_
    obtain ⟨u, hu, type, hq⟩ := hq
    exact ⟨u, List.mem_of_mem_erase hu, type, hq⟩
  | @creates config tlaMem tla alloc' hmem hcreate hstepMin hsmallMin hnew =>
    have hself : alloc'.tlas tlaMem = tla := by
      rw [hnew]
      exact Function.update_self ..
    rw [← hself] at hcreate
    have hkind : ∀ type, alloc'.KindHolds [] tlaMem type ∧ (alloc'.tlas tlaMem).held type = [] :=
      kind_of_create hcreate hstepMin hsmallMin
    have hheap : alloc'.heap = p.alloc.heap := by
      rw [hnew]
      rfl
    refine (h hforeign).mono hheap fun q hq => ?_
    obtain ⟨u, hu, type, hq⟩ := hq
    rcases List.mem_cons.mp hu with rfl | hu
    · -- the new one holds nothing
      rw [(hkind type).2] at hq
      cases hq
    · have hother : alloc'.tlas u = p.alloc.tlas u := by
        rw [hnew]
        exact Function.update_of_ne (ne_of_mem_of_not_mem hu hmem) ..
      rw [hother] at hq
      exact ⟨u, hu, type, hq⟩

/-- **As long as only owners free**, each arena in the bins has a live allocation. -/
theorem Reachable.books {meets : Process → Action → Prop} (h : Reachable meets p)
    (hforeign : p.foreign = false) : BooksHold p.tlas p.world := by
  induction h with
  | init h =>
    rintro q ⟨t, ht, -⟩
    rw [h.tlas] at ht
    cases ht
  | step hreach _ hstep ih =>
    exact (hstep.effect hreach.inv).books hreach.inv (hreach.inv.step hstep) ih hforeign

end Process

end Cuw3
