/-
  Where the chunks are.

  A chunk is known by the address of its handle.  It is in the pool, or taken: cached by a thread,
  or the memory of an arena in a thread's bins.  `ChunksHold`: no two places have the same chunk.
  `allocate_chunk_` takes a chunk out of the pool or the cache (`ChunksHold.allocateChunk`),
  `deallocate_chunk_` puts one back (`ChunksHold.deallocateChunk`); in between it is in flight.
-/
import Cuw3.Allocator.Allocator
import Cuw3.Region.Equiv.Pools
import Cuw3.Small.Equiv.Bins
import Cuw3.StepSplit.Equiv.Bins

namespace Cuw3

open Lib

/-! ### Handles in memory -/

namespace RegionChunkAllocatorSpecs

/-- The chunk size of a region. -/
def chunkSize (specs : RegionChunkAllocatorSpecs) (region : Nat) : Nat :=
  2 ^ (specs.regionSpec region).chunkSizeLog2

theorem WellFormed.getChunkSize_eq {specs : RegionChunkAllocatorSpecs} (hw : specs.WellFormed)
    {r : Nat} (hr : r < specs.numRegions) :
    (specs.regionSpec r).getChunkSize = .ok (specs.chunkSize r) :=
  intpow2_of_lt (hw.chunks _ (hw.mem hr)).1

end RegionChunkAllocatorSpecs

namespace RegionChunkAllocator

/-- The address of a handle. -/
def handleAddress (rca : RegionChunkAllocator) (handle : Nat) : Nat :=
  rca.handles + handle * rca.specs.handleSize

/-- The handles are a block of memory, too. -/
structure MappedHandles (rca : RegionChunkAllocator) : Prop extends Mapped rca where
  handles_end : rca.handles + rca.specs.numHandles * rca.specs.handleSize < 2 ^ 64

variable {rca rca' : RegionChunkAllocator} {c : RegionChunkAllocation} {a b : Nat}

theorem SameLayout.handleAddress (h : SameLayout rca rca') (handle : Nat) :
    rca'.handleAddress handle = rca.handleAddress handle := by
  rw [RegionChunkAllocator.handleAddress, h.handles, h.specs]
  rfl

theorem SameLayout.address (h : SameLayout rca rca') (r c o : Nat) :
    rca'.address r c o = rca.address r c o := by
  rw [RegionChunkAllocator.address, RegionChunkAllocator.address, h.regions, h.specs]

theorem SameLayout.mapped (h : SameLayout rca rca') (hm : rca.MappedHandles) :
    rca'.MappedHandles := by
  refine ⟨⟨?_, ?_, ?_⟩, ?_⟩
  · rw [h.regions]
    exact hm.regions_pos
  · rw [h.regions, h.specs]
    exact hm.regions_end
  · rw [h.handles]
    exact hm.handles_pos
  · rw [h.handles, h.specs]
    exact hm.handles_end

theorem handleAddress_inj (hl : rca.Layout) (h : rca.handleAddress a = rca.handleAddress b) : a =
    b := by
  have hpos : 0 < rca.specs.handleSize := by
    rw [hl.specs.handleSize]
    exact Nat.two_pow_pos _
  exact Nat.eq_of_mul_eq_mul_right hpos (Nat.add_left_cancel h)

theorem handleAddress_bounds (hm : rca.MappedHandles) {handle : Nat}
    (h : handle < rca.specs.numHandles) :
    0 < rca.handleAddress handle ∧ rca.handleAddress handle < 2 ^ 64 := by
  have hpos := hm.handles_pos
  have hend := hm.handles_end
  have hle : handle * rca.specs.handleSize ≤ rca.specs.numHandles * rca.specs.handleSize :=
    Nat.mul_le_mul_right _ h.le
  unfold handleAddress
  omega

/-- The memory and the handle of a chunk. -/
theorem chunkAllocationToMemory_eq (hl : rca.Layout) (hm : rca.MappedHandles) (hc : rca.Placed c) :
    rca.chunkAllocationToMemory c = .ok ⟨rca.address c.region c.chunk 0,
      2 ^ (rca.specs.regionSpec c.region).chunkSizeLog2, rca.handleAddress c.handle,
      rca.specs.handleSize⟩ := by
  have hlt := hc.toInSplit.lt_numHandles hl
  have hend := hm.handles_end
  have hle : c.handle * rca.specs.handleSize ≤ rca.specs.numHandles * rca.specs.handleSize :=
    Nat.mul_le_mul_right _ hlt.le
  have hsize := hl.specs.handleSize
  rw [chunkAllocationToMemory, hc.handle_eq, regionDataToMemory_eq hl.specs hm.toMapped hc.region_lt
    hc.chunk_lt, ← hc.handle_eq, mulpow2_of_lt (by rw [← hsize]; omega), ← hsize,
    u64_of_lt (by omega)]
  rfl

end RegionChunkAllocator

/-! ### The allocators of a thread -/

namespace ThreadLocalAllocator

variable {tla : ThreadLocalAllocator} {type type' : RegionChunkType} {region : Nat}
  {chunk : RegionChunkAllocation}

@[simp] theorem allocator_withAllocator (allocator : ArenaAllocator type.Bins) :
    (tla.withAllocator type allocator).allocator type = allocator := by
  cases type <;> rfl

theorem allocator_withAllocator_of_ne (h : type' ≠ type) (allocator : ArenaAllocator type.Bins) :
    (tla.withAllocator type allocator).allocator type' = tla.allocator type' := by
  cases type <;> cases type' <;> first | rfl | exact absurd rfl h

@[simp] theorem withAllocator_withAllocator (allocator allocator' : ArenaAllocator type.Bins) :
    (tla.withAllocator type allocator).withAllocator type allocator' =
      tla.withAllocator type allocator' := by
  cases type <;> rfl

@[simp] theorem withAllocator_cachedChunks (allocator : ArenaAllocator type.Bins) :
    (tla.withAllocator type allocator).cachedChunks = tla.cachedChunks := by
  cases type <;> rfl

@[simp] theorem withCachedChunk_allocator :
    (tla.withCachedChunk region chunk).allocator type = tla.allocator type := by
  cases type <;> rfl

end ThreadLocalAllocator

namespace RegionChunkType

/-- The law of the bins of each kind. -/
def law : (type : RegionChunkType) → BinsLaw type.ops
  | fastArenaStepSplitAllocator => FastArenaBins.law
  | fastArenaSmallAllocator => FastArenaSmallBins.law

end RegionChunkType

/-! ### Taken chunks -/

namespace ThreadLocalAllocator

/-- The handle addresses of the cached chunks. -/
def cachedAddresses (rca : RegionChunkAllocator) (tla : ThreadLocalAllocator) : List Nat :=
  slots (List.range confMaxRegionSizes) fun region =>
    if (tla.cachedChunks region).valid then [rca.handleAddress (tla.cachedChunks region).handle]
    else []

/-- The arenas in the bins of a kind. -/
def held (tla : ThreadLocalAllocator) (type : RegionChunkType) : List Nat :=
  type.law.held (tla.allocator type).bins

/-- The handle addresses of the chunks that a thread has. -/
def addresses (rca : RegionChunkAllocator) (tla : ThreadLocalAllocator) : List Nat :=
  tla.cachedAddresses rca ++ (tla.held .fastArenaSmallAllocator ++
    tla.held .fastArenaStepSplitAllocator)

variable {rca rca' : RegionChunkAllocator} {tla tla' : ThreadLocalAllocator} {p : Nat}

theorem mem_addresses : p ∈ tla.addresses rca ↔
    p ∈ tla.cachedAddresses rca ∨ ∃ type, p ∈ tla.held type := by
  simp only [addresses, List.mem_append]
  constructor
  · rintro (h | h | h)
    · exact .inl h
    · exact .inr ⟨_, h⟩
    · exact .inr ⟨_, h⟩
  · rintro (h | ⟨_ | _, h⟩)
    · exact .inl h
    · exact .inr (.inr h)
    · exact .inr (.inl h)

theorem addresses_congr (hhandles : ∀ h, rca'.handleAddress h = rca.handleAddress h)
    (hcached : tla'.cachedChunks = tla.cachedChunks)
    (hheld : ∀ type, tla'.held type = tla.held type) : tla'.addresses rca' = tla.addresses rca := by
  rw [addresses, addresses, hheld, hheld, cachedAddresses, cachedAddresses, hcached]
  simp only [hhandles]

/-- A change of what the bins of one kind hold. -/
theorem addresses_withAllocator {type : RegionChunkType} {allocator : ArenaAllocator type.Bins}
    (ps qs : List Nat)
    (h : (ps ++ type.law.held allocator.bins).Perm (qs ++ tla.held type)) :
    (ps ++ (tla.withAllocator type allocator).addresses rca).Perm (qs ++ tla.addresses rca) := by
  have hcached : (tla.withAllocator type allocator).cachedAddresses rca =
    tla.cachedAddresses rca := by
    simp only [cachedAddresses, withAllocator_cachedChunks]
  rw [List.perm_iff_count] at h ⊢
  intro a
  have ha := h a
  simp only [addresses, hcached, List.count_append] at ha ⊢
  cases type with
  | fastArenaStepSplitAllocator =>
    have hsame : (tla.withAllocator .fastArenaStepSplitAllocator allocator).held
        .fastArenaSmallAllocator = tla.held .fastArenaSmallAllocator := rfl
    have hnew : (tla.withAllocator .fastArenaStepSplitAllocator allocator).held
        .fastArenaStepSplitAllocator =
          (RegionChunkType.law .fastArenaStepSplitAllocator).held allocator.bins := rfl
    rw [hsame, hnew]
    omega
  | fastArenaSmallAllocator =>
    have hsame : (tla.withAllocator .fastArenaSmallAllocator allocator).held
        .fastArenaStepSplitAllocator = tla.held .fastArenaStepSplitAllocator := rfl
    have hnew : (tla.withAllocator .fastArenaSmallAllocator allocator).held
        .fastArenaSmallAllocator =
          (RegionChunkType.law .fastArenaSmallAllocator).held allocator.bins := rfl
    rw [hsame, hnew]
    omega

/-- A change of one cached chunk. -/
theorem addresses_withCachedChunk {region : Nat} {chunk : RegionChunkAllocation} (ps qs : List Nat)
    (hregion : region < confMaxRegionSizes)
    (h : (ps ++ (if chunk.valid then [rca.handleAddress chunk.handle] else [])).Perm
      (qs ++ (if (tla.cachedChunks region).valid then
        [rca.handleAddress (tla.cachedChunks region).handle] else []))) :
    (ps ++ (tla.withCachedChunk region chunk).addresses rca).Perm (qs ++ tla.addresses rca) := by
  have hfun : (fun r => if ((tla.withCachedChunk region chunk).cachedChunks r).valid then
      [rca.handleAddress ((tla.withCachedChunk region chunk).cachedChunks r).handle] else []) =
      Function.update (fun r => if (tla.cachedChunks r).valid then
        [rca.handleAddress (tla.cachedChunks r).handle] else []) region
        (if chunk.valid then [rca.handleAddress chunk.handle] else []) := by
    funext r
    by_cases hr : r = region
    · subst hr
      simp [withCachedChunk]
    · simp [withCachedChunk, hr]
  have hcached : (ps ++ (tla.withCachedChunk region chunk).cachedAddresses rca).Perm
      (qs ++ tla.cachedAddresses rca) := by
    rw [cachedAddresses, hfun]
    exact slots_update_perm ps qs List.nodup_range (List.mem_range.mpr hregion) h
  have hheld : ∀ type, (tla.withCachedChunk region chunk).held type = tla.held type :=
    fun type => by
    rw [held, held, withCachedChunk_allocator]
  rw [addresses, addresses, hheld, hheld, ← List.append_assoc ps, ← List.append_assoc qs]
  exact hcached.append_right _

end ThreadLocalAllocator

namespace Allocator

/-- The handle addresses of the chunks that the threads have. -/
def taken (threads : List Nat) (alloc : Allocator) : List Nat :=
  slots threads fun t => (alloc.tlas t).addresses alloc.rca

/-- The chunk is in the pool, or some thread has it. -/
def Accounted (threads : List Nat) (alloc : Allocator) (handle : Nat) : Prop :=
  alloc.rca.Pooled handle ∨ alloc.rca.handleAddress handle ∈ alloc.taken threads

/-- The places of the chunks: the cached ones are chunks of the layout, and no chunk is in two
places. -/
structure ChunksHold (threads : List Nat) (alloc : Allocator) : Prop where
  threads_nodup : threads.Nodup
  pools : alloc.rca.PoolsHold
  mapped : alloc.rca.MappedHandles
  cached : ∀ t ∈ threads, ∀ r, ((alloc.tlas t).cachedChunks r).valid = true →
    alloc.rca.Placed ((alloc.tlas t).cachedChunks r) ∧ ((alloc.tlas t).cachedChunks r).region = r
  nodup : (alloc.taken threads).Nodup
  notPooled : ∀ h, alloc.rca.Pooled h → alloc.rca.handleAddress h ∉ alloc.taken threads

/-- A chunk that is neither pooled nor taken. -/
structure InFlight (threads : List Nat) (alloc : Allocator) (c : RegionChunkAllocation) : Prop where
  placed : alloc.rca.Placed c
  notTaken : alloc.rca.handleAddress c.handle ∉ alloc.taken threads
  notPooled : ¬alloc.rca.Pooled c.handle

variable {threads : List Nat} {alloc alloc' : Allocator} {t r p : Nat} {c : RegionChunkAllocation}
  {type : RegionChunkType} {heap : Heap} {allocator : ArenaAllocator type.Bins}

theorem mem_taken : p ∈ alloc.taken threads ↔
    ∃ t ∈ threads, p ∈ (alloc.tlas t).addresses alloc.rca := mem_slots

theorem mem_taken_of_held (ht : t ∈ threads) (hp : p ∈ (alloc.tlas t).held type) :
    p ∈ alloc.taken threads :=
  mem_taken.mpr ⟨t, ht, ThreadLocalAllocator.mem_addresses.mpr (.inr ⟨type, hp⟩)⟩

theorem taken_congr (hsame : alloc.rca.SameLayout alloc'.rca)
    (hcached : ∀ t, (alloc'.tlas t).cachedChunks = (alloc.tlas t).cachedChunks)
    (hallocators : ∀ t type, (alloc'.tlas t).allocator type = (alloc.tlas t).allocator type) :
    alloc'.taken threads = alloc.taken threads := by
  refine slots_congr fun t _ => ThreadLocalAllocator.addresses_congr hsame.handleAddress
    (hcached t) ?_
  intro type
  rw [ThreadLocalAllocator.held, hallocators, ThreadLocalAllocator.held]

/-- A change of what one thread has. -/
theorem taken_update {object : ThreadLocalAllocator} (ps qs : List Nat) (hnodup : threads.Nodup)
    (ht : t ∈ threads)
    (hrca : alloc'.rca = alloc.rca) (htlas : alloc'.tlas = Function.update alloc.tlas t object)
    (h : (ps ++ object.addresses alloc.rca).Perm (qs ++ (alloc.tlas t).addresses alloc.rca)) :
    (ps ++ alloc'.taken threads).Perm (qs ++ alloc.taken threads) := by
  have hfun : (fun t => (alloc'.tlas t).addresses alloc'.rca) =
      Function.update (fun t => (alloc.tlas t).addresses alloc.rca) t
        (object.addresses alloc.rca) := by
    funext u
    rw [hrca, htlas]
    by_cases hu : u = t
    · subst hu
      rw [Function.update_self, Function.update_self]
    · rw [Function.update_of_ne hu, Function.update_of_ne hu]
  rw [taken, hfun]
  exact slots_update_perm ps qs hnodup ht h

theorem taken_withAllocator (ps qs : List Nat) (hnodup : threads.Nodup) (ht : t ∈ threads)
    (h : (ps ++ type.law.held allocator.bins).Perm (qs ++ (alloc.tlas t).held type)) :
    (ps ++ (alloc.withAllocator t type heap allocator).taken threads).Perm
      (qs ++ alloc.taken threads) :=
  taken_update ps qs hnodup ht rfl rfl (ThreadLocalAllocator.addresses_withAllocator ps qs h)

theorem taken_withCachedChunk {chunk : RegionChunkAllocation} (ps qs : List Nat)
    (hnodup : threads.Nodup) (ht : t ∈ threads) (hr : r < confMaxRegionSizes)
    (h : (ps ++ (if chunk.valid then [alloc.rca.handleAddress chunk.handle] else [])).Perm
      (qs ++ (if ((alloc.tlas t).cachedChunks r).valid then
        [alloc.rca.handleAddress ((alloc.tlas t).cachedChunks r).handle] else []))) :
    (ps ++ (alloc.withTla t ((alloc.tlas t).withCachedChunk r chunk)).taken threads).Perm
      (qs ++ alloc.taken threads) :=
  taken_update ps qs hnodup ht rfl rfl (ThreadLocalAllocator.addresses_withCachedChunk ps qs hr h)

/-- An arena is in the bins of one kind of one thread. -/
theorem ChunksHold.held_unique (h : alloc.ChunksHold threads) {u : Nat} {type' : RegionChunkType}
    (ht : t ∈ threads) (hu : u ∈ threads) (hp : p ∈ (alloc.tlas t).held type)
    (hp' : p ∈ (alloc.tlas u).held type') : t = u ∧ type = type' := by
  have hmem : p ∈ (alloc.tlas t).addresses alloc.rca :=
    ThreadLocalAllocator.mem_addresses.mpr (.inr ⟨type, hp⟩)
  have hmem' : p ∈ (alloc.tlas u).addresses alloc.rca :=
    ThreadLocalAllocator.mem_addresses.mpr (.inr ⟨type', hp'⟩)
  obtain rfl : t = u := slots_unique h.threads_nodup h.nodup ht hu hmem hmem'
  refine ⟨rfl, ?_⟩
  have hnodup := slots_nodup_part (f := fun t => (alloc.tlas t).addresses alloc.rca) h.nodup ht
  have hdisjoint := List.disjoint_of_nodup_append (List.nodup_append.mp hnodup).2.1
  cases type <;> cases type'
  · rfl
  · exact absurd hp (hdisjoint hp')
  · exact absurd hp' (hdisjoint hp)
  · rfl

/-- A cached chunk is not the chunk of an arena in the bins. -/
theorem ChunksHold.cached_not_held (h : alloc.ChunksHold threads) (ht : t ∈ threads)
    (hr : r < confMaxRegionSizes) (hvalid : ((alloc.tlas t).cachedChunks r).valid = true) :
    alloc.rca.handleAddress ((alloc.tlas t).cachedChunks r).handle ∉ (alloc.tlas t).held type := by
  intro hheld
  have hcached : alloc.rca.handleAddress ((alloc.tlas t).cachedChunks r).handle ∈
      (alloc.tlas t).cachedAddresses alloc.rca := by
    refine mem_slots.mpr ⟨r, List.mem_range.mpr hr, ?_⟩
    rw [if_pos hvalid]
    exact List.mem_cons_self
  have hnodup := slots_nodup_part (f := fun t => (alloc.tlas t).addresses alloc.rca) h.nodup ht
  refine List.disjoint_of_nodup_append hnodup hcached ?_
  cases type
  · exact List.mem_append_right _ hheld
  · exact List.mem_append_left _ hheld

/-! ### Moving a chunk -/

theorem accounted_iff_of_perm (hl : alloc.rca.Layout) (hrca : alloc'.rca = alloc.rca)
    (hperm : (alloc.rca.handleAddress c.handle :: alloc'.taken threads).Perm (alloc.taken threads))
    (q : Nat) : alloc.Accounted threads q ↔ alloc'.Accounted threads q ∨ q = c.handle := by
  rw [Accounted, Accounted, hrca, ← hperm.mem_iff, List.mem_cons]
  constructor
  · rintro (hq | heq | hq)
    · exact .inl (.inl hq)
    · exact .inr (RegionChunkAllocator.handleAddress_inj hl heq)
    · exact .inl (.inr hq)
  · rintro ((hq | hq) | rfl)
    · exact .inl hq
    · exact .inr (.inr hq)
    · exact .inr (.inl rfl)

/-- One chunk was put to a thread. -/
theorem ChunksHold.put (h : alloc.ChunksHold threads) (hc : alloc.InFlight threads c)
    (hperm : (alloc'.taken threads).Perm
      (alloc.rca.handleAddress c.handle :: alloc.taken threads))
    (hrca : alloc'.rca = alloc.rca)
    (hcached : ∀ t ∈ threads, ∀ r, ((alloc'.tlas t).cachedChunks r).valid = true →
      alloc'.rca.Placed ((alloc'.tlas t).cachedChunks r) ∧ ((alloc'.tlas t).cachedChunks r).region =
        r) :
    alloc'.ChunksHold threads ∧
      ∀ q, alloc'.Accounted threads q ↔ alloc.Accounted threads q ∨ q = c.handle := by
  refine ⟨⟨h.threads_nodup, hrca ▸ h.pools, hrca ▸ h.mapped, hcached, ?_, fun q hq hmem => ?_⟩,
    accounted_iff_of_perm (hrca ▸ h.pools.toLayout) hrca.symm (hrca ▸ hperm.symm)⟩
  · exact hperm.nodup_iff.mpr (List.nodup_cons.mpr ⟨hc.notTaken, h.nodup⟩)
  · rw [hrca] at hq hmem
    rcases List.mem_cons.mp (hperm.subset hmem) with heq | hmem
    · exact hc.notPooled (RegionChunkAllocator.handleAddress_inj h.pools.toLayout heq ▸ hq)
    · exact h.notPooled q hq hmem

/-- One chunk was taken from a thread. -/
theorem ChunksHold.take (h : alloc.ChunksHold threads) (hc : alloc.rca.Placed c)
    (hperm : (alloc.rca.handleAddress c.handle :: alloc'.taken threads).Perm (alloc.taken threads))
    (hrca : alloc'.rca = alloc.rca)
    (hcached : ∀ t ∈ threads, ∀ r, ((alloc'.tlas t).cachedChunks r).valid = true →
      alloc'.rca.Placed ((alloc'.tlas t).cachedChunks r) ∧ ((alloc'.tlas t).cachedChunks r).region =
        r) :
    alloc'.ChunksHold threads ∧ alloc'.InFlight threads c ∧
      ∀ q, alloc.Accounted threads q ↔ alloc'.Accounted threads q ∨ q = c.handle := by
  obtain ⟨hnot, hnodup⟩ := List.nodup_cons.mp (hperm.nodup_iff.mpr h.nodup)
  refine ⟨⟨h.threads_nodup, hrca ▸ h.pools, hrca ▸ h.mapped, hcached, hnodup, fun q hq hmem => ?_⟩,
    ⟨hrca ▸ hc, by rwa [hrca], fun hp => ?_⟩, accounted_iff_of_perm h.pools.toLayout hrca hperm⟩
  · rw [hrca] at hq hmem
    exact h.notPooled q hq (hperm.subset (List.mem_cons_of_mem _ hmem))
  · rw [hrca] at hp
    exact h.notPooled _ hp (hperm.subset List.mem_cons_self)

theorem cachedChunks_withAllocator (u : Nat) :
    ((alloc.withAllocator t type heap allocator).tlas u).cachedChunks =
    (alloc.tlas u).cachedChunks := by
  by_cases hu : u = t
  · subst hu
    simp [withAllocator]
  · simp [withAllocator, hu]

theorem ChunksHold.cached_withAllocator (h : alloc.ChunksHold threads)
    (heq : alloc' = alloc.withAllocator t type heap allocator) :
    ∀ u ∈ threads, ∀ r, ((alloc'.tlas u).cachedChunks r).valid = true →
      alloc'.rca.Placed ((alloc'.tlas u).cachedChunks r) ∧
        ((alloc'.tlas u).cachedChunks r).region = r := by
  subst heq
  intro u hu r
  rw [cachedChunks_withAllocator]
  exact h.cached u hu r

/-- The chunk of an arena that the bins of a thread now hold. -/
theorem ChunksHold.hold (h : alloc.ChunksHold threads) (ht : t ∈ threads)
    (hc : alloc.InFlight threads c)
    (hperm : (type.law.held allocator.bins).Perm
      (alloc.rca.handleAddress c.handle :: (alloc.tlas t).held type)) :
    (alloc.withAllocator t type heap allocator).ChunksHold threads := by
  have htaken : ((alloc.withAllocator t type heap allocator).taken threads).Perm
      (alloc.rca.handleAddress c.handle :: alloc.taken threads) :=
    taken_withAllocator [] [_] h.threads_nodup ht hperm
  exact (h.put hc htaken rfl (h.cached_withAllocator rfl)).1

/-- The chunk of an arena that the bins of a thread no longer hold. -/
theorem ChunksHold.drop (h : alloc.ChunksHold threads) (ht : t ∈ threads) (hc : alloc.rca.Placed c)
    (hperm : (alloc.rca.handleAddress c.handle :: type.law.held allocator.bins).Perm
      ((alloc.tlas t).held type)) :
    (alloc.withAllocator t type heap allocator).ChunksHold threads ∧
      (alloc.withAllocator t type heap allocator).InFlight threads c ∧
      ∀ q, alloc.Accounted threads q ↔
        (alloc.withAllocator t type heap allocator).Accounted threads q ∨ q = c.handle := by
  have htaken : (alloc.rca.handleAddress c.handle ::
      (alloc.withAllocator t type heap allocator).taken threads).Perm (alloc.taken threads) :=
    taken_withAllocator [_] [] h.threads_nodup ht hperm
  exact h.take hc htaken rfl (h.cached_withAllocator rfl)

/-- The bins of a thread hold the same arenas. -/
theorem ChunksHold.keep (h : alloc.ChunksHold threads) (ht : t ∈ threads)
    (hperm : (type.law.held allocator.bins).Perm ((alloc.tlas t).held type)) :
    (alloc.withAllocator t type heap allocator).ChunksHold threads := by
  have htaken : ((alloc.withAllocator t type heap allocator).taken threads).Perm
      (alloc.taken threads) := taken_withAllocator [] [] h.threads_nodup ht hperm
  refine ⟨h.threads_nodup, h.pools, h.mapped, h.cached_withAllocator rfl, ?_, fun q hq hmem => ?_⟩
  · exact htaken.nodup_iff.mpr h.nodup
  · exact h.notPooled q hq (htaken.subset hmem)

/-! ### Allocating and freeing chunks -/

/-- What the functions on chunks leave alone. -/
structure ChunkFrame (alloc alloc' : Allocator) : Prop where
  rca : alloc.rca.SameLayout alloc'.rca
  heap : alloc'.heap = alloc.heap
  allocators : ∀ t type, (alloc'.tlas t).allocator type = (alloc.tlas t).allocator type

theorem ChunkFrame.trans {alloc'' : Allocator} (h : ChunkFrame alloc alloc')
    (h' : ChunkFrame alloc' alloc'') : ChunkFrame alloc alloc'' :=
  ⟨h.rca.trans h'.rca, h'.heap.trans h.heap,
    fun t type => (h'.allocators t type).trans (h.allocators t type)⟩

theorem ChunkFrame.refl (alloc : Allocator) : ChunkFrame alloc alloc :=
  ⟨.refl _, rfl, fun _ _ => rfl⟩

section Update

variable {object : ThreadLocalAllocator} (htlas : alloc'.tlas = Function.update alloc.tlas t object)

include htlas

/-- The pool was changed, and what is no allocator of one thread. -/
theorem chunkFrame_of_update (hrca : alloc.rca.SameLayout alloc'.rca)
    (hheap : alloc'.heap = alloc.heap)
    (hallocators : ∀ type, object.allocator type = (alloc.tlas t).allocator type) :
    ChunkFrame alloc alloc' := by
  refine ⟨hrca, hheap, fun u type => ?_⟩
  rw [htlas]
  by_cases hu : u = t
  · subst hu
    rw [Function.update_self]
    exact hallocators type
  · rw [Function.update_of_ne hu]

theorem cachedChunks_of_update (hcached : object.cachedChunks = (alloc.tlas t).cachedChunks)
    (u : Nat) :
    (alloc'.tlas u).cachedChunks = (alloc.tlas u).cachedChunks := by
  rw [htlas]
  by_cases hu : u = t
  · subst hu
    rw [Function.update_self]
    exact hcached
  · rw [Function.update_of_ne hu]

end Update

/-- A cached chunk of one thread was replaced. -/
theorem ChunksHold.cached_withCachedChunk (h : alloc.ChunksHold threads)
    {chunk : RegionChunkAllocation}
    (hchunk : chunk.valid = true → alloc.rca.Placed chunk ∧ chunk.region = r)
    (heq : alloc' = alloc.withTla t ((alloc.tlas t).withCachedChunk r chunk)) :
    ∀ u ∈ threads, ∀ s, ((alloc'.tlas u).cachedChunks s).valid = true →
      alloc'.rca.Placed ((alloc'.tlas u).cachedChunks s) ∧
        ((alloc'.tlas u).cachedChunks s).region = s := by
  subst heq
  intro u hu s
  change ((Function.update alloc.tlas t _ u).cachedChunks s).valid = true →
    alloc.rca.Placed ((Function.update alloc.tlas t _ u).cachedChunks s) ∧
      ((Function.update alloc.tlas t _ u).cachedChunks s).region = s
  by_cases hut : u = t
  · subst hut
    rw [Function.update_self]
    by_cases hs : s = r
    · subst hs
      simpa [ThreadLocalAllocator.withCachedChunk] using hchunk
    · simpa [ThreadLocalAllocator.withCachedChunk, hs] using h.cached u hu s
  · rw [Function.update_of_ne hut]
    exact h.cached u hu s

/-- The pool was changed, what the threads have was not. -/
theorem ChunksHold.repool (h : alloc.ChunksHold threads) (hframe : ChunkFrame alloc alloc')
    (hcached : ∀ t, (alloc'.tlas t).cachedChunks = (alloc.tlas t).cachedChunks)
    (hpools : alloc'.rca.PoolsHold)
    (hnot : ∀ q, alloc'.rca.Pooled q → alloc.rca.handleAddress q ∉ alloc.taken threads) :
    alloc'.ChunksHold threads ∧ alloc'.taken threads = alloc.taken threads := by
  have htaken : alloc'.taken threads = alloc.taken threads :=
    taken_congr hframe.rca hcached hframe.allocators
  refine ⟨⟨h.threads_nodup, hpools, hframe.rca.mapped h.mapped, fun u hu r hr => ?_,
    htaken ▸ h.nodup, fun q hq hmem => ?_⟩, htaken⟩
  · rw [hcached] at hr ⊢
    obtain ⟨hplaced, hregion⟩ := h.cached u hu r hr
    exact ⟨hframe.rca.placed.mpr hplaced, hregion⟩
  · rw [htaken, hframe.rca.handleAddress] at hmem
    exact hnot q hq hmem

/-- A chunk in flight went back to the pool. -/
theorem ChunksHold.giveBack (h : alloc.ChunksHold threads) (hc : alloc.InFlight threads c)
    {object : ThreadLocalAllocator} (hback : alloc.rca.deallocateChunk c = .ok alloc'.rca)
    (hheap : alloc'.heap = alloc.heap) (htlas : alloc'.tlas = Function.update alloc.tlas t object)
    (hcached : object.cachedChunks = (alloc.tlas t).cachedChunks)
    (hallocators : ∀ type, object.allocator type = (alloc.tlas t).allocator type) :
    alloc'.ChunksHold threads ∧ ChunkFrame alloc alloc' ∧
      ∀ q, alloc'.Accounted threads q ↔ alloc.Accounted threads q ∨ q = c.handle := by
  obtain ⟨rca, hback', hpools, hsame, hpooled⟩ := h.pools.deallocateChunk hc.placed hc.notPooled
  obtain rfl : alloc'.rca = rca := Except.ok.inj (hback.symm.trans hback')
  have hframe := chunkFrame_of_update htlas hsame hheap hallocators
  obtain ⟨hholds, htaken⟩ := h.repool hframe (cachedChunks_of_update htlas hcached) hpools
    fun q hq => by
    rcases (hpooled q).mp hq with hq | rfl
    · exact h.notPooled q hq
    · exact hc.notTaken
  refine ⟨hholds, hframe, fun q => ?_⟩
  rw [Accounted, Accounted, htaken, hsame.handleAddress, hpooled]
  exact or_right_comm

/-- What `allocate_chunk_` did when it returned a chunk: nothing was found; a cached chunk was
taken; a chunk of the pool was taken, counted and committed; or it was counted and, as it could not
be committed, given back. -/
inductive ChunkOut (alloc : Allocator) (t : Nat) (commitOk : Bool) :
    RegionChunkAllocation → Allocator → Prop where
  | none : ChunkOut alloc t commitOk nullRegionChunkAllocation alloc
  | cached (region : Nat) (hregion : region < confMaxRegionSizes)
      (hvalid : ((alloc.tlas t).cachedChunks region).valid = true) :
      ChunkOut alloc t commitOk ((alloc.tlas t).cachedChunks region)
        (alloc.withTla t ((alloc.tlas t).withCachedChunk region nullRegionChunkAllocation))
  | pooled (c : RegionChunkAllocation) (rca : RegionChunkAllocator) (split : Nat → Nat)
      (hplaced : alloc.rca.Placed c) (htaken : alloc.rca.Taken rca c.region c.split c.handle) :
      ChunkOut alloc t commitOk c { alloc.withTla t { alloc.tlas t with
          lastChunkPoolSplitId := split
          totalChunkStorageSize := u64 ((alloc.tlas t).totalChunkStorageSize +
            alloc.rca.specs.chunkSize c.region) } with
        rca
        committed := Function.update alloc.committed (alloc.rca.address c.region c.chunk 0) true }
  | failed (c : RegionChunkAllocation) (rca : RegionChunkAllocator) (split : Nat → Nat)
      (hcommit : commitOk = false) (hplaced : alloc.rca.Placed c) (hpools : rca.PoolsHold)
      (hsame : alloc.rca.SameLayout rca) (hpooled : ∀ q, rca.Pooled q ↔ alloc.rca.Pooled q) :
      ChunkOut alloc t commitOk nullRegionChunkAllocation { alloc.withTla t { alloc.tlas t with
          lastChunkPoolSplitId := split
          totalChunkStorageSize := u64 ((alloc.tlas t).totalChunkStorageSize +
            alloc.rca.specs.chunkSize c.region) } with
        rca }

theorem ChunkOut.frame {commitOk : Bool} (h : ChunkOut alloc t commitOk c alloc') :
    ChunkFrame alloc alloc' := by
  cases h with
  | none => exact .refl _
  | cached region hregion hvalid =>
    exact chunkFrame_of_update rfl (.refl _) rfl fun _ =>
      ThreadLocalAllocator.withCachedChunk_allocator
  | pooled c rca split hplaced htaken =>
    exact chunkFrame_of_update rfl htaken.same rfl fun type => by cases type <;> rfl
  | failed c rca split hcommit hplaced hpools hsame hpooled =>
    exact chunkFrame_of_update rfl hsame rfl fun type => by cases type <;> rfl

theorem allocateNewChunk_cases {commitOk : Bool} {turns : Nat} (hpools : alloc.rca.PoolsHold)
    (hm : alloc.rca.MappedHandles) :
    ∀ {region}, allocateNewChunk commitOk t alloc turns region = .ok (c, alloc') →
      ChunkOut alloc t commitOk c alloc' := by
  induction turns with
  | zero =>
    intro region hok
    simp only [Allocator.allocateNewChunk, pure_eq_ok, Prod.mk.injEq] at hok
    obtain ⟨rfl, rfl⟩ := hok
    exact .none
  | succ turns ih =>
    intro region hok
    obtain ⟨c₁, rca₁, hnew, hcases⟩ := hpools.allocateChunk
      (show (⟨4, -1, u32 ((alloc.tlas t).lastChunkPoolSplitId region), 1⟩ :
        RegionChunkAllocParams).attempts ≠ 0 by simp) (.inr rfl) region
    simp only [Allocator.allocateNewChunk, hnew, ok_bind] at hok
    rcases hcases with ⟨rfl, rfl⟩ | ⟨rfl, hplaced, htaken⟩
    · exact ih hok
    have hvalid := hplaced.valid hpools.toLayout
    have hsame := htaken.same
    have hplaced' := hsame.placed.mpr hplaced
    have hspec : rca₁.getRegionSpec c₁.region = .ok (alloc.rca.specs.regionSpec c₁.region) := by
      unfold RegionChunkAllocator.getRegionSpec
      rw [check_of (hsame.specs.symm ▸ hplaced.region_lt), ok_bind, hsame.specs]
      rfl
    have hmem := RegionChunkAllocator.chunkAllocationToMemory_eq htaken.holds.toLayout
      (hsame.mapped hm) hplaced'
    simp only [hvalid, Bool.not_true, Bool.false_eq_true, if_false, hspec, ok_bind,
      hpools.specs.getChunkSize_eq hplaced.region_lt] at hok
    simp only [withTla, hmem, ok_bind, hsame.address] at hok
    cases commitOk with
    | true =>
      simp only [Bool.not_true, Bool.false_eq_true, if_false, pure_eq_ok, Prod.mk.injEq] at hok
      obtain ⟨rfl, rfl⟩ := hok
      exact .pooled _ _ _ hplaced htaken
    | false =>
      simp only [Bool.not_false, if_true, bind_eq_ok, pure_eq_ok, Prod.mk.injEq] at hok
      obtain ⟨rca₂, hback, rfl, rfl⟩ := hok
      have hnot : ¬rca₁.Pooled c₁.handle := fun hp => ((htaken.rest _).mp hp).2 rfl
      obtain ⟨rca₃, hback', hholds, hsame', hpooled⟩ := htaken.holds.deallocateChunk hplaced' hnot
      rw [hback] at hback'
      cases hback'
      refine .failed c₁ rca₂ _ rfl hplaced hholds (hsame.trans hsame') fun q => ?_
      rw [hpooled, htaken.rest]
      by_cases hq : q = c₁.handle
      · subst hq
        simp [htaken.pooled]
      · simp [hq]

theorem findCachedChunk_eq_some {region curr : Nat}
    (h : alloc.findCachedChunk t region = some curr) :
    curr < confMaxRegionSizes ∧ ((alloc.tlas t).cachedChunks curr).valid = true := by
  have hmem := List.mem_of_find?_eq_some h
  have hvalid := List.find?_some h
  rw [List.mem_range'_1] at hmem
  simp only [confMaxCachedChunkSizeId] at hmem
  rw [confMaxRegionSizes]
  exact ⟨by omega, hvalid⟩

theorem allocateChunk_cases {commitOk : Bool} {size alignment : Nat} (hpools : alloc.rca.PoolsHold)
    (hm : alloc.rca.MappedHandles)
    (hok : alloc.allocateChunk commitOk t size alignment = .ok (c, alloc')) :
    ChunkOut alloc t commitOk c alloc' := by
  simp only [Allocator.allocateChunk, bind_eq_ok] at hok
  obtain ⟨aligned, -, maxChunkSize, -, hok⟩ := hok
  split_ifs at hok with hnull
  · obtain ⟨rfl, rfl⟩ := Prod.mk.inj (Except.ok.inj hok)
    exact .none
  split at hok
  case h_2 => exact allocateNewChunk_cases hpools hm hok
  case h_1 curr hfind =>
    obtain ⟨rfl, rfl⟩ := Prod.mk.inj (Except.ok.inj hok)
    obtain ⟨hcurr, hvalid⟩ := findCachedChunk_eq_some hfind
    exact .cached curr hcurr hvalid

/-- `allocate_chunk_` returned no chunk and moved none, or the chunk it returned is in flight. -/
structure ChunkAllocated (threads : List Nat) (alloc alloc' : Allocator)
    (c : RegionChunkAllocation) :
    Prop where
  holds : alloc'.ChunksHold threads
  frame : ChunkFrame alloc alloc'
  result : (c.valid = false ∧ ∀ q, alloc.Accounted threads q ↔ alloc'.Accounted threads q) ∨
    (alloc'.InFlight threads c ∧
      ∀ q, alloc.Accounted threads q ↔ alloc'.Accounted threads q ∨ q = c.handle)

/-- A chunk left the pool. -/
theorem ChunksHold.unpool (h : alloc.ChunksHold threads) {object : ThreadLocalAllocator}
    (hplaced : alloc.rca.Placed c) (htaken : alloc.rca.Taken alloc'.rca c.region c.split c.handle)
    (hheap : alloc'.heap = alloc.heap) (htlas : alloc'.tlas = Function.update alloc.tlas t object)
    (hcached : object.cachedChunks = (alloc.tlas t).cachedChunks)
    (hallocators : ∀ type, object.allocator type = (alloc.tlas t).allocator type) :
    ChunkAllocated threads alloc alloc' c := by
  have hframe : ChunkFrame alloc alloc' := chunkFrame_of_update htlas htaken.same hheap hallocators
  obtain ⟨hholds, htakenEq⟩ := h.repool hframe (cachedChunks_of_update htlas hcached) htaken.holds
    fun q hq => h.notPooled q ((htaken.rest q).mp hq).1
  refine ⟨hholds, hframe, .inr ⟨⟨hframe.rca.placed.mpr hplaced, ?_, fun hq => ?_⟩, fun q => ?_⟩⟩
  · rw [htakenEq, hframe.rca.handleAddress]
    exact h.notPooled _ htaken.pooled
  · exact ((htaken.rest _).mp hq).2 rfl
  · rw [Accounted, Accounted, htakenEq, hframe.rca.handleAddress, htaken.rest]
    by_cases hq : q = c.handle
    · subst hq
      simp [htaken.pooled]
    · simp [hq]

theorem ChunksHold.chunkOut {commitOk : Bool} (h : alloc.ChunksHold threads) (ht : t ∈ threads)
    (hout : ChunkOut alloc t commitOk c alloc') : ChunkAllocated threads alloc alloc' c := by
  cases hout with
  | none => exact ⟨h, .refl _, .inl ⟨rfl, fun _ => Iff.rfl⟩⟩
  | cached curr hcurr hvalid =>
    obtain ⟨hplaced, hregion⟩ := h.cached t ht curr hvalid
    have hperm : (alloc.rca.handleAddress ((alloc.tlas t).cachedChunks curr).handle ::
        (alloc.withTla t ((alloc.tlas t).withCachedChunk curr
          nullRegionChunkAllocation)).taken threads).Perm (alloc.taken threads) := by
      refine taken_withCachedChunk [_] [] h.threads_nodup ht hcurr ?_
      rw [if_pos hvalid]
      exact .refl _
    obtain ⟨hholds, hflight, hacc⟩ := h.take hplaced hperm rfl
      (h.cached_withCachedChunk (fun hnull => absurd hnull (by decide)) rfl)
    exact ⟨hholds, chunkFrame_of_update rfl (.refl _) rfl fun _ =>
      ThreadLocalAllocator.withCachedChunk_allocator, .inr ⟨hflight, hacc⟩⟩
  | pooled c rca split hplaced htaken =>
    exact h.unpool hplaced htaken rfl rfl rfl fun type => by cases type <;> rfl
  | failed c rca split hcommit hplaced hpools hsame hpooled =>
    have hframe : ChunkFrame alloc { alloc.withTla t { alloc.tlas t with
        lastChunkPoolSplitId := split
        totalChunkStorageSize := u64 ((alloc.tlas t).totalChunkStorageSize +
          alloc.rca.specs.chunkSize c.region) } with rca } :=
      chunkFrame_of_update rfl hsame rfl fun type => by cases type <;> rfl
    obtain ⟨hholds, htaken⟩ := h.repool hframe (cachedChunks_of_update rfl rfl) hpools fun q hq =>
      h.notPooled q ((hpooled q).mp hq)
    refine ⟨hholds, hframe, .inl ⟨rfl, fun q => ?_⟩⟩
    rw [Accounted, Accounted, htaken, hframe.rca.handleAddress]
    dsimp only
    rw [hpooled]

/-- **`allocate_chunk_` returns no chunk, or takes one out of the cache or the pool.** -/
theorem ChunksHold.allocateChunk {commitOk : Bool} {size alignment : Nat}
    (h : alloc.ChunksHold threads) (ht : t ∈ threads)
    (hok : alloc.allocateChunk commitOk t size alignment = .ok (c, alloc')) :
    ChunkAllocated threads alloc alloc' c :=
  h.chunkOut ht (allocateChunk_cases h.pools h.mapped hok)

/-- What `deallocate_chunk_` did with a chunk: it was cached; or it was uncounted, decommitted and
given back. -/
inductive ChunkIn (alloc : Allocator) (t : Nat) (c : RegionChunkAllocation) : Allocator → Prop where
  | cached (hregion : c.region ≤ confMaxCachedChunkSizeId)
      (hempty : ((alloc.tlas t).cachedChunks c.region).valid = false) :
      ChunkIn alloc t c (alloc.withTla t ((alloc.tlas t).withCachedChunk c.region c))
  | pooled (rca : RegionChunkAllocator) (hback : alloc.rca.deallocateChunk c = .ok rca) :
      ChunkIn alloc t c { alloc.withTla t { alloc.tlas t with
          totalChunkStorageSize := sub64 (alloc.tlas t).totalChunkStorageSize
            (alloc.rca.specs.chunkSize c.region) } with
        rca
        committed := Function.update alloc.committed (alloc.rca.address c.region c.chunk 0) false }

theorem deallocateChunk_cases (hl : alloc.rca.Layout) (hm : alloc.rca.MappedHandles)
    (hplaced : alloc.rca.Placed c) (hok : alloc.deallocateChunk t c = .ok alloc') :
    ChunkIn alloc t c alloc' := by
  simp only [Allocator.deallocateChunk] at hok
  split_ifs at hok with hcache
  · cases hok
    exact .cached hcache.1 (by simpa using hcache.2)
  · simp only [RegionChunkAllocator.chunkAllocationToMemory_eq hl hm hplaced, ok_bind] at hok
    simp only [withTla, bind_eq_ok, pure_eq_ok] at hok
    obtain ⟨rca, hback, rfl⟩ := hok
    exact .pooled rca hback

theorem ChunksHold.chunkIn (h : alloc.ChunksHold threads) (ht : t ∈ threads)
    (hc : alloc.InFlight threads c) (hin : ChunkIn alloc t c alloc') : alloc'.ChunksHold threads ∧
      ChunkFrame alloc alloc' ∧
        ∀ q, alloc'.Accounted threads q ↔ alloc.Accounted threads q ∨ q = c.handle := by
  have hvalid := hc.placed.valid h.pools.toLayout
  cases hin with
  | cached hregion hempty =>
    have hr : c.region < confMaxRegionSizes :=
      lt_of_lt_of_le hc.placed.region_lt h.pools.specs.numRegions_le
    have hperm : ((alloc.withTla t ((alloc.tlas t).withCachedChunk c.region c)).taken threads).Perm
        (alloc.rca.handleAddress c.handle :: alloc.taken threads) := by
      refine taken_withCachedChunk [] [_] h.threads_nodup ht hr ?_
      rw [if_pos hvalid, hempty]
      exact .refl _
    obtain ⟨hholds, hacc⟩ := h.put hc hperm rfl
      (h.cached_withCachedChunk (fun _ => ⟨hc.placed, rfl⟩) rfl)
    exact ⟨hholds, chunkFrame_of_update rfl (.refl _) rfl fun _ =>
      ThreadLocalAllocator.withCachedChunk_allocator, hacc⟩
  | pooled rca hback => exact h.giveBack hc hback rfl rfl rfl fun type => by cases type <;> rfl

/-- **`deallocate_chunk_` puts a chunk in flight into the cache or the pool.** -/
theorem ChunksHold.deallocateChunk (h : alloc.ChunksHold threads) (ht : t ∈ threads)
    (hc : alloc.InFlight threads c) :
    ∃ alloc', alloc.deallocateChunk t c = .ok alloc' ∧ alloc'.ChunksHold threads ∧
      ChunkFrame alloc alloc' ∧
        ∀ q, alloc'.Accounted threads q ↔ alloc.Accounted threads q ∨ q = c.handle := by
  have hok : ∃ alloc', alloc.deallocateChunk t c = .ok alloc' := by
    unfold Allocator.deallocateChunk
    dsimp only
    split_ifs with hcache
    · exact ⟨_, rfl⟩
    · obtain ⟨rca, hback, -⟩ := h.pools.deallocateChunk hc.placed hc.notPooled
      simp only [RegionChunkAllocator.chunkAllocationToMemory_eq h.pools.toLayout h.mapped
        hc.placed,
        ok_bind]
      simp only [withTla, hback, ok_bind]
      exact ⟨_, rfl⟩
  obtain ⟨alloc', hok⟩ := hok
  exact ⟨alloc', hok, h.chunkIn ht hc
    (deallocateChunk_cases h.pools.toLayout h.mapped hc.placed hok)⟩

end Allocator

end Cuw3
