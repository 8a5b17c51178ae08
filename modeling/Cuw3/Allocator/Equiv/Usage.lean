/-
  The usage that a thread-local allocator counts.

  `storageSize` is the sum of the sizes of the chunks that a thread has: the cached ones, and those
  under the arenas in its bins.  As these are apart in memory it is below `2 ^ 64`
  (`Inv.storageSize_lt`), so `total_chunk_storage_size` does not wrap where it follows that sum.  It
  does (`reachable_counted`) as long as no commit fails and `free_tla_resources` finds no cached
  chunk: `allocate_chunk_` counts a chunk before it commits it, and `free_tla_resources` does not
  discount the chunks that it gives back.
-/
import Cuw3.Allocator.Equiv.Processes

namespace Cuw3

open Lib

/-! ### The chunks of a thread -/

namespace ThreadLocalAllocator

/-- The memory of the cached chunks. -/
def cachedBlocks (rca : RegionChunkAllocator) (tla : ThreadLocalAllocator) : List Block :=
  slots (List.range confMaxRegionSizes) fun region =>
    if (tla.cachedChunks region).valid then [rca.chunkBlock (tla.cachedChunks region)] else []

/-- The memory of the arenas in the bins of a kind. -/
def heldBlocks (heap : Heap) (tla : ThreadLocalAllocator) (type : RegionChunkType) : List Block :=
  (tla.held type).map fun p => (heap p).block

/-- A change of one cached chunk. -/
theorem total_cachedBlocks_withCachedChunk (rca : RegionChunkAllocator) (tla : ThreadLocalAllocator)
    (chunk : RegionChunkAllocation) {region : Nat} (hregion : region < confMaxRegionSizes) :
    Block.total (if (tla.cachedChunks region).valid then [rca.chunkBlock (tla.cachedChunks region)]
        else []) + Block.total ((tla.withCachedChunk region chunk).cachedBlocks rca) =
      Block.total (if chunk.valid then [rca.chunkBlock chunk] else []) +
        Block.total (tla.cachedBlocks rca) := by
  have hfun : (fun r => if ((tla.withCachedChunk region chunk).cachedChunks r).valid then
      [rca.chunkBlock ((tla.withCachedChunk region chunk).cachedChunks r)] else []) =
      Function.update (fun r => if (tla.cachedChunks r).valid then
        [rca.chunkBlock (tla.cachedChunks r)] else []) region
        (if chunk.valid then [rca.chunkBlock chunk] else []) := by
    funext r
    by_cases hr : r = region
    · subst hr
      simp [withCachedChunk]
    · simp [withCachedChunk, hr]
  rw [← Block.total_append, ← Block.total_append, cachedBlocks, hfun]
  exact Block.total_perm (slots_update_perm _ _ List.nodup_range (List.mem_range.mpr hregion)
    List.perm_append_comm)

end ThreadLocalAllocator

namespace Allocator

variable {threads : List Nat} {w : World} {alloc alloc' : Allocator} {t u r p : Nat}
  {type : RegionChunkType} {c : RegionChunkAllocation} {heap : Heap}
  {allocator : ArenaAllocator type.Bins}

/-- The memory of the chunks that a thread has. -/
def storage (alloc : Allocator) (t : Nat) : List Block :=
  (alloc.tlas t).cachedBlocks alloc.rca ++
    ((alloc.tlas t).heldBlocks alloc.heap .fastArenaSmallAllocator ++
      (alloc.tlas t).heldBlocks alloc.heap .fastArenaStepSplitAllocator)

/-- The sum of the sizes of the chunks that a thread has. -/
def storageSize (alloc : Allocator) (t : Nat) : Nat := Block.total (alloc.storage t)

theorem storageSize_eq : alloc.storageSize t =
    Block.total ((alloc.tlas t).cachedBlocks alloc.rca) +
      (Block.total ((alloc.tlas t).heldBlocks alloc.heap .fastArenaSmallAllocator) +
        Block.total ((alloc.tlas t).heldBlocks alloc.heap .fastArenaStepSplitAllocator)) := by
  rw [storageSize, storage, Block.total_append, Block.total_append]

/-- The arenas of the bins are made over chunks. -/
theorem exists_chunks {ps : List Nat} (h : ∀ p ∈ ps, ∃ c, Backed alloc.rca alloc.heap t p c) :
    ∃ cs : List RegionChunkAllocation, (∀ c ∈ cs, alloc.rca.Placed c) ∧
      cs.map (fun c => alloc.rca.handleAddress c.handle) = ps ∧
      cs.map alloc.rca.chunkBlock = ps.map fun p => (alloc.heap p).block := by
  induction ps with
  | nil => exact ⟨[], by simp, rfl, rfl⟩
  | cons p ps ih =>
    obtain ⟨c, hc⟩ := h p List.mem_cons_self
    obtain ⟨cs, hplaced, haddress, hblock⟩ := ih fun q hq => h q (List.mem_cons_of_mem _ hq)
    refine ⟨c :: cs, ?_, ?_, ?_⟩
    · intro c' hc'
      rcases List.mem_cons.mp hc' with rfl | hc'
      · exact hc.placed
      · exact hplaced c' hc'
    · rw [List.map_cons, haddress, ← hc.address]
    · rw [List.map_cons, hblock, ← hc.block_eq, List.map_cons]

/-- The chunks that a thread has, by their addresses and by their memory. -/
theorem Inv.exists_storage (h : Inv threads w) (ht : t ∈ threads) :
    ∃ cs : List RegionChunkAllocation, (∀ c ∈ cs, w.alloc.rca.Placed c) ∧
      cs.map (fun c => w.alloc.rca.handleAddress c.handle) =
        (w.alloc.tlas t).addresses w.alloc.rca ∧
      cs.map w.alloc.rca.chunkBlock = w.alloc.storage t := by
  obtain ⟨small, hsmall, hsmallAddress, hsmallBlock⟩ :=
    exists_chunks (h.kind t ht .fastArenaSmallAllocator).backed
  obtain ⟨step, hstep, hstepAddress, hstepBlock⟩ :=
    exists_chunks (h.kind t ht .fastArenaStepSplitAllocator).backed
  refine ⟨slots (List.range confMaxRegionSizes) (fun r =>
    if ((w.alloc.tlas t).cachedChunks r).valid then [(w.alloc.tlas t).cachedChunks r] else []) ++
      (small ++ step), ?_, ?_, ?_⟩
  · intro c hc
    rw [List.mem_append, List.mem_append] at hc
    rcases hc with hc | hc | hc
    · obtain ⟨r, -, hc⟩ := mem_slots.mp hc
      split_ifs at hc with hvalid
      · rw [List.mem_singleton] at hc
        subst hc
        exact (h.chunks.cached t ht r hvalid).1
      · cases hc
    · exact hsmall c hc
    · exact hstep c hc
  · simp only [slots, List.map_append, List.map_flatMap, hsmallAddress, hstepAddress, apply_ite,
      List.map_cons, List.map_nil]
    rfl
  · simp only [slots, List.map_append, List.map_flatMap, hsmallBlock, hstepBlock, apply_ite,
      List.map_cons, List.map_nil]
    rfl

/-- **The chunks that a thread has are smaller than the address space.** -/
theorem Inv.storageSize_lt (h : Inv threads w) (ht : t ∈ threads) :
    w.alloc.storageSize t < 2 ^ 64 := by
  have hl := h.chunks.pools.toLayout
  have hm := h.chunks.mapped
  obtain ⟨cs, hplaced, haddress, hblock⟩ := h.exists_storage ht
  have hnodup : (cs.map fun c => w.alloc.rca.handleAddress c.handle).Nodup := by
    rw [haddress]
    exact slots_nodup_part (f := fun t => (w.alloc.tlas t).addresses w.alloc.rca) h.chunks.nodup ht
  have hle : Block.total (w.alloc.storage t) ≤ 2 ^ 64 - 1 - 1 := by
    rw [← hblock]
    refine Block.total_le ?_ ?_
    · -- chunks with different handles are apart
      rw [List.pairwise_map]
      refine (List.pairwise_map.mp hnodup).imp_of_mem fun {c c'} hc hc' hne => ?_
      refine (hplaced c hc).apart (hplaced c' hc') hl hm ?_
      rintro rfl
      exact hne rfl
    · intro b hb
      obtain ⟨c, hc, rfl⟩ := List.mem_map.mp hb
      exact (hplaced c hc).block_bounds hl hm
  rw [storageSize]
  omega

/-! ### Changes of the storage -/

/-- The memory of the chunks depends on the thread's own fields and the arenas' sizes. -/
theorem storageSize_congr (htla : alloc'.tlas t = alloc.tlas t)
    (hrca : alloc.rca.SameLayout alloc'.rca)
    (hsize : ∀ type, ∀ q ∈ (alloc.tlas t).held type,
      (alloc'.heap q).arenaMemorySize = (alloc.heap q).arenaMemorySize) :
    alloc'.storageSize t = alloc.storageSize t := by
  have hheld : ∀ type, Block.total ((alloc.tlas t).heldBlocks alloc'.heap type) =
      Block.total ((alloc.tlas t).heldBlocks alloc.heap type) :=
    fun type => Block.total_map_congr (hsize type)
  have hcached : (alloc.tlas t).cachedBlocks alloc'.rca =
    (alloc.tlas t).cachedBlocks alloc.rca := by
    simp only [ThreadLocalAllocator.cachedBlocks, hrca.chunkBlock]
  rw [storageSize_eq, storageSize_eq, htla, hheld, hheld, hcached]

/-- The bins of one allocator of the thread were changed. -/
theorem storageSize_withAllocator (ps qs : List Nat)
    (hperm : (ps ++ type.law.held allocator.bins).Perm (qs ++ (alloc.tlas t).held type))
    (hsize : ∀ type', ∀ q ∈ (alloc.tlas t).held type',
      (heap q).arenaMemorySize = (alloc.heap q).arenaMemorySize) :
    Block.total (ps.map fun p => (heap p).block) +
        (alloc.withAllocator t type heap allocator).storageSize t =
      Block.total (qs.map fun p => (heap p).block) + alloc.storageSize t := by
  generalize hnew : alloc.withAllocator t type heap allocator = alloc'
  have hcached : (alloc'.tlas t).cachedBlocks alloc'.rca =
    (alloc.tlas t).cachedBlocks alloc.rca := by
    rw [ThreadLocalAllocator.cachedBlocks, ← hnew, cachedChunks_withAllocator]
    rfl
  have hheap : alloc'.heap = heap := hnew ▸ rfl
  have hself : (alloc'.tlas t).held type = type.law.held allocator.bins := by
    rw [← hnew, held_withAllocator_self]
  have hother : ∀ type', type' ≠ type → Block.total ((alloc'.tlas t).heldBlocks heap type') =
      Block.total ((alloc.tlas t).heldBlocks alloc.heap type') := by
    intro type' hne
    have hsame : (alloc'.tlas t).held type' = (alloc.tlas t).held type' := by
      rw [← hnew, held_withAllocator_of_ne fun h => hne h.2]
    rw [ThreadLocalAllocator.heldBlocks, hsame]
    exact Block.total_map_congr (hsize type')
  -- the arenas of the changed bins, counted with their sizes in the new memory
  have hchanged : Block.total (ps.map fun p => (heap p).block) +
      Block.total ((alloc'.tlas t).heldBlocks heap type) =
        Block.total (qs.map fun p => (heap p).block) +
          Block.total ((alloc.tlas t).heldBlocks alloc.heap type) := by
    have hold : Block.total ((alloc.tlas t).heldBlocks alloc.heap type) =
        Block.total ((alloc.tlas t).heldBlocks heap type) :=
      Block.total_map_congr fun q hq => (hsize type q hq).symm
    rw [hold, ThreadLocalAllocator.heldBlocks, ThreadLocalAllocator.heldBlocks, hself,
      ← Block.total_append, ← Block.total_append, ← List.map_append, ← List.map_append]
    exact Block.total_perm (hperm.map _)
  rw [storageSize_eq, storageSize_eq, hcached, hheap]
  cases type with
  | fastArenaStepSplitAllocator =>
    have hsmall := hother .fastArenaSmallAllocator (by decide)
    omega
  | fastArenaSmallAllocator =>
    have hstep := hother .fastArenaStepSplitAllocator (by decide)
    omega

/-- A cached chunk of the thread was replaced. -/
theorem storageSize_withCachedChunk (alloc : Allocator) (t : Nat) (chunk : RegionChunkAllocation)
    (hr : r < confMaxRegionSizes) :
    Block.total (if ((alloc.tlas t).cachedChunks r).valid then
        [alloc.rca.chunkBlock ((alloc.tlas t).cachedChunks r)] else []) +
        (alloc.withTla t ((alloc.tlas t).withCachedChunk r chunk)).storageSize t =
      Block.total (if chunk.valid then [alloc.rca.chunkBlock chunk] else []) +
        alloc.storageSize t := by
  generalize hnew : alloc.withTla t ((alloc.tlas t).withCachedChunk r chunk) = alloc'
  have hself : alloc'.tlas t = (alloc.tlas t).withCachedChunk r chunk := by
    rw [← hnew]
    exact Function.update_self ..
  have hrca : alloc'.rca = alloc.rca := hnew ▸ rfl
  have hheld : ∀ type, (alloc'.tlas t).heldBlocks alloc'.heap type =
      (alloc.tlas t).heldBlocks alloc.heap type := by
    intro type
    rw [ThreadLocalAllocator.heldBlocks, ThreadLocalAllocator.held, hself,
      ThreadLocalAllocator.withCachedChunk_allocator, ← hnew]
    rfl
  have hcached :=
    ThreadLocalAllocator.total_cachedBlocks_withCachedChunk alloc.rca (alloc.tlas t) chunk hr
  rw [storageSize_eq, storageSize_eq, hheld, hheld, hself, hrca]
  omega

/-- Neither the bins nor the cached chunks of the thread were changed. -/
theorem storageSize_frame (hframe : ChunkFrame alloc alloc')
    (hcached : (alloc'.tlas t).cachedChunks = (alloc.tlas t).cachedChunks) :
    alloc'.storageSize t = alloc.storageSize t := by
  have hblocks : (alloc'.tlas t).cachedBlocks alloc'.rca =
    (alloc.tlas t).cachedBlocks alloc.rca := by
    simp only [ThreadLocalAllocator.cachedBlocks, hcached, hframe.rca.chunkBlock]
  have hheld : ∀ type, (alloc'.tlas t).heldBlocks alloc'.heap type =
      (alloc.tlas t).heldBlocks alloc.heap type := by
    intro type
    rw [ThreadLocalAllocator.heldBlocks, hframe.held, hframe.heap]
    rfl
  rw [storageSize_eq, storageSize_eq, hheld, hheld, hblocks]

/-- An arena in the bins is a part of the storage. -/
theorem arenaMemorySize_le_storageSize (h : p ∈ (alloc.tlas t).held type) :
    (alloc.heap p).arenaMemorySize ≤ alloc.storageSize t := by
  have hmem : (alloc.heap p).arenaMemorySize ∈ (alloc.storage t).map Block.size := by
    refine List.mem_map.mpr ⟨(alloc.heap p).block, ?_, rfl⟩
    have hblock : (alloc.heap p).block ∈ (alloc.tlas t).heldBlocks alloc.heap type :=
      List.mem_map_of_mem h
    rw [storage, List.mem_append, List.mem_append]
    cases type with
    | fastArenaStepSplitAllocator => exact .inr (.inr hblock)
    | fastArenaSmallAllocator => exact .inr (.inl hblock)
  exact List.le_sum_of_mem hmem

/-! ### The counter -/

/-- The counter of the thread is the sum of the sizes of its chunks. -/
def Counted (alloc : Allocator) (t : Nat) : Prop :=
  (alloc.tlas t).totalChunkStorageSize = alloc.storageSize t

theorem withAllocator_total :
    ((alloc.withAllocator t type heap allocator).tlas t).totalChunkStorageSize =
    (alloc.tlas t).totalChunkStorageSize := by
  cases type <;> simp [withAllocator, ThreadLocalAllocator.withAllocator]

/-- The arenas in the bins stay the same. -/
theorem Counted.keep (h : alloc.Counted t)
    (hperm : (type.law.held allocator.bins).Perm ((alloc.tlas t).held type))
    (hsize : ∀ type', ∀ q ∈ (alloc.tlas t).held type',
      (heap q).arenaMemorySize = (alloc.heap q).arenaMemorySize) :
    (alloc.withAllocator t type heap allocator).Counted t ∧
      (alloc.withAllocator t type heap allocator).storageSize t = alloc.storageSize t := by
  have hstorage := storageSize_withAllocator [] [] hperm hsize
  simp only [List.map_nil, Block.total_nil, Nat.zero_add] at hstorage
  unfold Counted at h ⊢
  exact ⟨by rw [withAllocator_total, hstorage, h], hstorage⟩

/-- `allocate_chunk_` counts the chunk that it takes out of the pool, where its memory could be
committed. -/
theorem Counted.chunkOut (h : alloc.Counted t) (hchunks : alloc.ChunksHold threads)
    (ht : t ∈ threads)
    (hlt : alloc.storageSize t < 2 ^ 64) (hout : ChunkOut alloc t true c alloc') :
    (alloc'.tlas t).totalChunkStorageSize =
      u64 (alloc'.storageSize t + if c.valid then alloc.rca.specs.chunkSize c.region else 0) := by
  unfold Counted at h
  have hframe := hout.frame
  cases hout with
  | none =>
    rw [if_neg (by decide), Nat.add_zero, u64_of_lt hlt, h]
  | cached r hr hvalid =>
    have hregion := (hchunks.cached t ht r hvalid).2
    have hstorage := storageSize_withCachedChunk alloc t nullRegionChunkAllocation hr
    have hnull : nullRegionChunkAllocation.valid = false := rfl
    have htotal : ((alloc.withTla t ((alloc.tlas t).withCachedChunk r
        nullRegionChunkAllocation)).tlas t).totalChunkStorageSize =
          (alloc.tlas t).totalChunkStorageSize := by
      simp [withTla, ThreadLocalAllocator.withCachedChunk]
    simp only [hvalid, if_true, hnull, Bool.false_eq_true, if_false, Block.total_nil,
      Block.total_cons,
      Nat.zero_add, Nat.add_zero, RegionChunkAllocator.chunkBlock] at hstorage
    rw [if_pos hvalid, htotal, h, Nat.add_comm, hstorage, u64_of_lt hlt]
  | pooled c rca split hplaced htaken =>
    rw [if_pos (hplaced.valid hchunks.pools.toLayout)]
    have hstorage := storageSize_frame (t := t) hframe (by simp [withTla])
    rw [hstorage, ← h]
    simp [withTla]
  | failed c rca split hcommit => cases hcommit

/-- `deallocate_chunk_` discounts the chunk that it gives back to the pool. -/
theorem Counted.chunkIn (hchunks : alloc.ChunksHold threads) (ht : t ∈ threads)
    (hc : alloc.InFlight threads c) (htotal : (alloc.tlas t).totalChunkStorageSize =
      alloc.storageSize t + alloc.rca.specs.chunkSize c.region)
    (hlt : (alloc.tlas t).totalChunkStorageSize < 2 ^ 64) (hin : ChunkIn alloc t c alloc') :
    alloc'.Counted t := by
  unfold Counted
  have hvalid := hc.placed.valid hchunks.pools.toLayout
  have hframe := (hchunks.chunkIn ht hc hin).2.1
  cases hin with
  | cached hregion hempty =>
    have hr : c.region < confMaxRegionSizes :=
      lt_of_lt_of_le hc.placed.region_lt hchunks.pools.specs.numRegions_le
    have hstorage := storageSize_withCachedChunk alloc t c hr
    have hsame : ((alloc.withTla t ((alloc.tlas t).withCachedChunk c.region c)).tlas
        t).totalChunkStorageSize = (alloc.tlas t).totalChunkStorageSize := by
      simp [withTla, ThreadLocalAllocator.withCachedChunk]
    simp only [hempty, hvalid, if_true, Bool.false_eq_true, if_false, Block.total_nil,
      Block.total_cons, Nat.zero_add, Nat.add_zero, RegionChunkAllocator.chunkBlock] at hstorage
    rw [hsame, htotal, hstorage, Nat.add_comm]
  | pooled rca hback =>
    have hstorage := storageSize_frame (t := t) hframe (by simp [withTla])
    have hdiscounted : sub64 (alloc.tlas t).totalChunkStorageSize
        (alloc.rca.specs.chunkSize c.region) = alloc.storageSize t := by
      rw [sub64_of_le hlt (by omega), htotal]
      exact Nat.add_sub_cancel ..
    rw [hstorage, ← hdiscounted]
    simp [withTla]

/-- A request that a chunk can be committed for keeps the thread's counter right. -/
theorem Counted.allocate (h : w.alloc.Counted t) (hinv : Inv threads w) (ht : t ∈ threads)
    {size alignment : Nat} {res : AcquiredResource}
    (heffect : Allocates threads w t size alignment true type res alloc')
    (hlt : alloc'.storageSize t < 2 ^ 64) : alloc'.Counted t := by
  have hstored := hinv.storageSize_lt ht
  have hchunks := hinv.chunks
  cases heffect with
  | @none _ heap bins c _ hr hlinks hheld hout hc =>
    obtain ⟨hkeep, hsame⟩ : (w.alloc.withAllocator t type heap
        { (w.alloc.tlas t).allocator type with bins }).Counted t ∧ _ :=
      h.keep hheld fun type' q _ => (hlinks.sameBlock q).size
    have htotal := hkeep.chunkOut (hchunks.keep ht hheld) ht (hsame ▸ hstored) hout
    rwa [if_neg (by rw [hc]; decide), Nat.add_zero, u64_of_lt hlt] at htotal
  | held hp hheld hheap hblock =>
    exact (h.keep hheld fun type' q _ => (served_sameBlock hheap q).size).1
  | @fresh c alloc₁ arena q m heap₁ heap bins allocator hlinks hheld hout hnew hput =>
    obtain ⟨hkeep, hsame⟩ : (w.alloc.withAllocator t type heap₁
        { (w.alloc.tlas t).allocator type with bins }).Counted t ∧ _ :=
      h.keep hheld fun type' q _ => (hlinks.sameBlock q).size
    have htotal := hkeep.chunkOut (hchunks.keep ht hheld) ht (hsame ▸ hstored) hout
    have hframe := hout.frame
    have hvalid : c.valid = true :=
      hnew.placed.valid (hframe.rca.layout hchunks.pools.toLayout)
    -- the new arena is in no bins yet
    have hfree : ∀ type', ∀ q' ∈ (alloc₁.tlas t).held type', q' ≠ q := by
      rintro type' q' hq' rfl
      rw [hframe.held] at hq'
      exact hnew.notHeld ((heldBy_keep ht hheld).mp ⟨t, ht, type', hq'⟩)
    have hbefore : ({ alloc₁ with heap := Function.update alloc₁.heap q arena } :
        Allocator).storageSize t = alloc₁.storageSize t :=
      storageSize_congr rfl (.refl _) fun type' q' hq' =>
        congrArg FastArena.arenaMemorySize (Function.update_of_ne (hfree type' q' hq') ..)
    have hstorage := storageSize_withAllocator [] [q] hput.held
      fun _ q' _ => (served_sameBlock hput.heap q').size
    have harena : (heap q).arenaMemorySize = w.alloc.rca.specs.chunkSize c.region := by
      rw [(served_sameBlock hput.heap q).size]
      dsimp only
      rw [Function.update_self, hnew.size, hframe.rca.specs]
      rfl
    simp only [List.map_nil, List.map_cons, Block.total_nil, Block.total_cons, FastArena.block,
      harena,
      hbefore, Nat.zero_add, Nat.add_zero] at hstorage
    change (alloc₁.withAllocator t type heap allocator).storageSize t = _ at hstorage
    rw [if_pos hvalid, Nat.add_comm] at htotal
    unfold Counted
    rw [withAllocator_total, htotal]
    exact (u64_of_lt (hstorage ▸ hlt)).trans hstorage.symm

/-- A free by the owner keeps the thread's counter right. -/
theorem Counted.deallocate (h : w.alloc.Counted t) (hinv : Inv threads w) (ht : t ∈ threads)
    {size : Nat} (hfrees : FreesOwn w.alloc t type p size alloc') : alloc'.Counted t := by
  have hstored := hinv.storageSize_lt ht
  have hchunks := hinv.chunks
  cases hfrees with
  | kept hheld =>
    refine (h.keep hheld fun type' q _ => ?_).1
    by_cases hq : q = p
    · subst hq
      rw [Function.update_self]
    · rw [Function.update_of_ne hq]
  | @drained c heap allocator _ hheld hothers hblock hbacked hin =>
    obtain ⟨hholds, hflight, -⟩ : (w.alloc.withAllocator t type heap allocator).ChunksHold threads ∧
        (w.alloc.withAllocator t type heap allocator).InFlight threads c ∧ _ :=
      hchunks.drop ht hbacked.placed (hbacked.address ▸ hheld)
    have hstorage := storageSize_withAllocator [p] [] hheld fun _ q _ => (hblock q).size
    have harena : (heap p).arenaMemorySize = w.alloc.rca.specs.chunkSize c.region :=
      (hblock p).size.trans hbacked.size
    simp only [List.map_nil, List.map_cons, Block.total_nil, Block.total_cons, FastArena.block,
      harena,
      Nat.zero_add, Nat.add_zero] at hstorage
    unfold Counted at h
    refine Counted.chunkIn hholds ht hflight ?_ ?_ hin
    · rw [withAllocator_total, h, ← hstorage, Nat.add_comm]
      rfl
    · rw [withAllocator_total, h]
      exact hstored

/-- What is counted for a thread stays where others act. -/
theorem Counted.congr (h : alloc.Counted t) (htla : alloc'.tlas t = alloc.tlas t)
    (hrca : alloc.rca.SameLayout alloc'.rca)
    (hblock : ∀ type, ∀ q ∈ (alloc.tlas t).held type, (alloc.heap q).SameBlock (alloc'.heap q)) :
    alloc'.Counted t := by
  unfold Counted at h ⊢
  rw [storageSize_congr htla hrca fun type q hq => (hblock type q hq).size, htla]
  exact h

/-- A new thread-local allocator has no chunk, and counts none. -/
theorem counted_of_create {config : ThreadLocalAllocatorConfig}
    (hcreate : (ThreadLocalAllocator.create config).Creates (alloc.tlas t))
    (hheld : ∀ type, (alloc.tlas t).held type = []) : alloc.Counted t := by
  have hcached : (alloc.tlas t).cachedBlocks alloc.rca = [] := slots_eq_nil fun r _ => by
    rw [cachedChunks_of_create hcreate]
    rfl
  have hzero : (alloc.tlas t).totalChunkStorageSize = 0 := by
    simp only [ThreadLocalAllocator.create, creates_bind, creates_pure] at hcreate
    obtain ⟨_, -, _, -, heq⟩ := hcreate
    rw [← heq]
  unfold Counted
  rw [storageSize_eq, ThreadLocalAllocator.heldBlocks, ThreadLocalAllocator.heldBlocks, hheld,
    hheld,
    hcached, hzero]
  rfl

end Allocator

/-! ### Runs -/

namespace Process

open Allocator

variable {p p' : Process} {t u : Nat}

/-- The operations that the counter follows: memory that is asked for can be committed, and
`free_tla_resources` finds no cached chunk. -/
def KeepsCount (p : Process) : Action → Prop
  | .allocate commitOk _ _ _ => commitOk = true
  | .graveTlaCleanup t => ∀ dead ∈ p.alloc.visits t, p.alloc.CachesNothing dead
  | .freeTlaResources t => p.alloc.CachesNothing t
  | _ => True

/-- Each counter is the sum of the sizes of the thread's chunks. -/
def Counts (p : Process) : Prop := ∀ t ∈ p.tlas, p.alloc.toAllocator.Counted t

/-- The thread-local allocator of another thread was destroyed. -/
theorem Counts.destroyed (h : p.Counts) {alloc' : Allocator}
    (hcache : FreesCache p.tlas p.alloc.toAllocator alloc' t) (hnodup : p.tlas.Nodup) :
    ∀ u ∈ p.tlas.erase t, alloc'.Counted u := by
  intro u hu
  obtain ⟨hne, hu⟩ := hnodup.mem_erase_iff.mp hu
  refine (h u hu).congr (hcache.others u hne) hcache.frame.rca fun type q _ => ?_
  rw [hcache.frame.heap]
  exact .refl _

theorem Counts.step {a : Action} (h : p.Counts) (hinv : p.Inv) (hkeeps : KeepsCount p a)
    (hstep : Step p a p') : p'.Counts := by
  have hinv' := hinv.step hstep
  cases hstep with
  | @allocate commitOk t size alignment res alloc' ht hsize hok =>
    obtain rfl : commitOk = true := hkeeps
    obtain ⟨-, -, type, heffect⟩ := hinv.world.allocate ht.mem hsize hok
    intro u hu
    by_cases hut : u = t
    · subst hut
      exact Counted.allocate (h u hu) hinv.world hu heffect (hinv'.world.storageSize_lt hu)
    · obtain ⟨hrca, hblock⟩ := heffect.block
      exact (h u hu).congr (heffect.tlas_of_ne hut) hrca
        fun type q hq => hblock q ⟨u, hu, type, hq⟩
  | @deallocate t ptr size owner alloc' ht hl howner hok =>
    obtain ⟨-, heffect⟩ := hinv.world.deallocate hl howner hok
    intro u hu
    obtain ⟨hrca, hblock⟩ := heffect.block hinv.world
    by_cases hut : u = t
    · subst hut
      cases heffect with
      | own _ hp hown hfrees => exact Counted.deallocate (h _ hu) hinv.world hu hfrees
      | other => exact (h _ hu).congr rfl hrca fun type q _ => hblock q
    · exact (h u hu).congr (heffect.tlas_of_ne hut) hrca fun type q _ => hblock q
  | reclaim ht hok =>
    have hsame := hinv.world.reclaim_eq ht.mem
    dsimp only [Process.world] at hsame
    rw [hsame] at hok
    obtain ⟨-, rfl⟩ := Prod.mk.inj (Option.some.inj (Except.ok.inj hok))
    exact h
  | thisTlaCleanup ht hok =>
    obtain ⟨hsame, -⟩ := GraveAllocator.thisTlaCleanup_same hinv.world ht.mem hok
    intro u hu
    dsimp only
    rw [hsame]
    exact h u hu
  | graveTlaCleanup ht hok =>
    intro u hu
    dsimp only at hu ⊢
    cases GraveAllocator.graveTlaCleanup_cases hinv.world hinv.dead_pos hok with
    | none hsame _ =>
      rw [hsame]
      exact h u hu
    | emptied hvisits _ _ hfrees _ =>
      rw [freeTlaResources_eq (hkeeps _ hvisits)] at hfrees
      rw [← Except.ok.inj hfrees]
      exact h u hu
    | kept hvisits hfrees _ =>
      rw [freeTlaResources_eq (hkeeps _ hvisits)] at hfrees
      rw [← Except.ok.inj hfrees]
      exact h u hu
  | freeTlaResources ht hok =>
    rw [freeTlaResources_eq hkeeps] at hok
    rw [← Except.ok.inj hok]
    exact h
  | @destroyTla t alloc' ht hok =>
    simp only [GraveAllocator.destroyTla, bind_eq_ok, pure_eq_ok] at hok
    obtain ⟨allocator, hfrees, rfl⟩ := hok
    exact h.destroyed (hinv.freeTlaResources (hinv.released t ht).1 hfrees).2
      hinv.world.chunks.threads_nodup
  | @start config tlaMem t alloc' hmem hlt hstepMin hsmallMin hok =>
    intro u hu
    dsimp only at hu ⊢
    cases GraveAllocator.createTla_cases (fun d hd => (hinv.dead_pos d hd).2) hok with
    | none => exact h u hu
    | snatched hqueue hsame hqueue' =>
      rw [if_pos (.inr (hinv.dead _ (hqueue ▸ List.mem_cons_self)))] at hu
      rw [hsame]
      exact h u hu
    | @created tla _ hpos hcreate hnew hqueue =>
      have hself : alloc'.tlas tlaMem = tla := by
        rw [hnew]
        exact Function.update_self ..
      rw [← hself] at hcreate
      by_cases hut : u = tlaMem
      · subst hut
        have hkind : ∀ type, alloc'.KindHolds [] u type ∧ (alloc'.tlas u).held type = [] :=
          kind_of_create hcreate hstepMin hsmallMin
        exact counted_of_create hcreate fun type => (hkind type).2
      · have hu : u ∈ p.tlas := by
          split_ifs at hu
          · exact hu
          · exact (List.mem_cons.mp hu).resolve_left hut
        rw [hnew]
        exact (h u hu).congr (Function.update_of_ne hut ..) (.refl _) fun type q _ => .refl _
  | @exit fuel t destroyed alloc' ht hok =>
    cases GraveAllocator.exitThread_cases hinv.world ht.mem hok with
    | destroyed hempty hfrees hqueue =>
      exact h.destroyed (hinv.freeTlaResources ht.mem hfrees).2 hinv.world.chunks.threads_nodup
    | buried => exact h

theorem Reachable.counts (h : Reachable KeepsCount p) : p.Counts := by
  induction h with
  | init h =>
    intro u hu
    rw [h.tlas] at hu
    cases hu
  | step hreach hmeets hstep ih => exact ih.step hreach.inv hmeets hstep

/-- **The counter of each thread is the sum of the sizes of the chunks that it has**, in every state
of every run in which no commit fails and `free_tla_resources` finds no cached chunk; so what
`deallocate_chunk_` subtracts for an arena of the bins is no more than the counter. -/
theorem reachable_counted (h : Reachable KeepsCount p) (ht : t ∈ p.tlas) :
    (p.alloc.tlas t).totalChunkStorageSize = p.alloc.storageSize t ∧
      ∀ type, ∀ q ∈ (p.alloc.tlas t).held type,
        (p.alloc.heap q).arenaMemorySize ≤ (p.alloc.tlas t).totalChunkStorageSize := by
  have hcounts : p.Counts := h.counts
  have htotal : (p.alloc.tlas t).totalChunkStorageSize = p.alloc.storageSize t := hcounts t ht
  refine ⟨htotal, fun type q hq => ?_⟩
  rw [htotal]
  exact arenaMemorySize_le_storageSize hq

/-- A thread that got its 16 bytes has one chunk of 4096 bytes. -/
theorem reachable_counted_sample : ∃ p, Reachable KeepsCount p ∧ 64 ∈ p.tlas ∧
    (p.alloc.tlas 64).totalChunkStorageSize = 4096 ∧ p.alloc.storageSize 64 = 4096 := by
  have hrun : (sampleProcess.execAll 1 [.start sampleConfig 64, .allocate true 64 16 16]).map
      (fun p => decide (64 ∈ p.tlas ∧ (p.alloc.tlas 64).totalChunkStorageSize = 4096)) =
        some true := by decide +kernel
  obtain ⟨p, hexec, hp⟩ := Option.map_eq_some_iff.mp hrun
  obtain ⟨hmem, htotal⟩ := of_decide_eq_true hp
  have hreach : Reachable KeepsCount p := by
    refine Reachable.execAll (.init sampleProcess_init) (fun p a ha => ?_) hexec
    simp only [List.mem_cons, List.not_mem_nil, or_false] at ha
    rcases ha with rfl | rfl
    exacts [trivial, rfl]
  exact ⟨p, hreach, hmem, htotal, (reachable_counted hreach hmem).1 ▸ htotal⟩

/-- **The counter drifts**: a chunk that could not be committed stays counted; and even where every
commit succeeds, the cached chunks that `free_tla_resources` gave back do. -/
theorem not_counted :
    (¬ ∀ p, Reachable (fun _ _ => True) p → ∀ t ∈ p.tlas,
      (p.alloc.tlas t).totalChunkStorageSize = p.alloc.storageSize t) ∧
    ¬ ∀ p, Reachable (fun _ a => ∀ t size alignment, a ≠ .allocate false t size alignment) p →
      ∀ t ∈ p.tlas, (p.alloc.tlas t).totalChunkStorageSize = p.alloc.storageSize t := by
  constructor
  · intro h
    have hrun : (sampleProcess.execAll 1 [.start sampleConfig 64, .allocate false 64 16 16]).map
        (fun p => decide (64 ∈ p.tlas ∧
          (p.alloc.tlas 64).totalChunkStorageSize ≠ p.alloc.storageSize 64)) = some true := by
      decide +kernel
    obtain ⟨p, hexec, hp⟩ := Option.map_eq_some_iff.mp hrun
    obtain ⟨hmem, hne⟩ := of_decide_eq_true hp
    exact hne (h p (Reachable.execAll (.init sampleProcess_init) (fun _ _ _ => trivial) hexec) 64
      hmem)
  · intro h
    have hrun : (sampleProcess.execAll 1 [.start sampleConfig 64, .allocate true 64 16 16,
        .deallocate 64 65536 16, .freeTlaResources 64]).map
        (fun p => decide (64 ∈ p.tlas ∧
          (p.alloc.tlas 64).totalChunkStorageSize ≠ p.alloc.storageSize 64)) = some true := by
      decide +kernel
    obtain ⟨p, hexec, hp⟩ := Option.map_eq_some_iff.mp hrun
    obtain ⟨hmem, hne⟩ := of_decide_eq_true hp
    refine hne (h p (Reachable.execAll (.init sampleProcess_init) (fun p a ha => ?_) hexec) 64 hmem)
    simp only [List.mem_cons, List.not_mem_nil, or_false] at ha
    rcases ha with rfl | rfl | rfl | rfl <;> simp

end Process

end Cuw3
