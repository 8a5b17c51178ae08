/-
  When `allocate_chunk_` returns no chunk.

  The demand is the aligned size, or the chunk usage of the thread where that is more, but not more
  than the largest chunk.  `allocate_chunk_` looks at the regions from the first one that meets the
  demand on, so it fails only where none of these has a chunk (`allocateChunk_finds`).  A smaller
  region that would do for the size is not looked at, and in chunk sizes that do not ascend a later
  region may be too small (`not_allocateChunk_size_only`).
-/
import Cuw3.Allocator.Equiv.Runs

namespace Cuw3

open RegionChunkAllocator

namespace RegionChunkAllocatorSpecs

variable {specs : RegionChunkAllocatorSpecs}

/-- The chunk sizes ascend. -/
def Ascending (specs : RegionChunkAllocatorSpecs) : Prop :=
  ∀ r r', r ≤ r' → r' < specs.numRegions → specs.chunkSize r ≤ specs.chunkSize r'

theorem WellFormed.chunkSentinel_eq (hw : specs.WellFormed) {r : Nat} (hr : r < specs.numRegions) :
    specs.chunkSizeSearchSentinels.getD r 0 = specs.chunkSize r := by
  rw [hw.chunkSentinels, List.getD_eq_getElem?_getD, List.getElem?_map, hw.getElem? hr]
  rfl

/-- The search finds the first region that meets the demand. -/
theorem searchSuitableRegion_some (hw : specs.WellFormed) {size : Nat}
    (h : specs.searchSuitableRegion size ≠ regionChunkAllocatorNullValue) :
    specs.searchSuitableRegion size < specs.numRegions ∧
      size ≤ specs.chunkSize (specs.searchSuitableRegion size) ∧
      ∀ r < specs.searchSuitableRegion size, specs.chunkSize r < size := by
  unfold searchSuitableRegion at h ⊢
  cases hfind : findFirst specs.numRegions
      (fun i => decide (size ≤ specs.chunkSizeSearchSentinels.getD i 0)) with
  | none =>
    rw [hfind] at h
    exact absurd rfl h
  | some r =>
    obtain ⟨hr, hle, hfirst⟩ := findFirst_eq_some.mp hfind
    rw [Option.getD_some]
    refine ⟨hr, ?_, ?_⟩
    · rw [← hw.chunkSentinel_eq hr]
      exact of_decide_eq_true hle
    · intro r' hr'
      rw [← hw.chunkSentinel_eq (lt_trans hr' hr)]
      exact not_le.mp (of_decide_eq_false (hfirst r' hr'))

theorem searchSuitableRegion_none (hw : specs.WellFormed) {size : Nat}
    (h : specs.searchSuitableRegion size = regionChunkAllocatorNullValue) {r : Nat}
    (hr : r < specs.numRegions) : specs.chunkSize r < size := by
  unfold searchSuitableRegion at h
  cases hfind : findFirst specs.numRegions
      (fun i => decide (size ≤ specs.chunkSizeSearchSentinels.getD i 0)) with
  | none =>
    have hnot := findFirst_eq_none.mp hfind r hr
    rw [← hw.chunkSentinel_eq hr]
    exact not_le.mp (of_decide_eq_false hnot)
  | some r' =>
    have hlt := (findFirst_eq_some.mp hfind).1
    have hle := hw.numRegions_le
    rw [hfind, Option.getD_some] at h
    subst h
    simp only [regionChunkAllocatorNullValue, confMaxRegionSizes] at hlt hle
    omega

end RegionChunkAllocatorSpecs

namespace Allocator

variable {alloc alloc' : Allocator} {t r : Nat} {c : RegionChunkAllocation} {commitOk : Bool}

/-- Pools that nobody is using, and cached chunks that are not in them. -/
structure Quiet (alloc : Allocator) (t : Nat) : Prop where
  pools : alloc.rca.PoolsHold
  mapped : alloc.rca.MappedHandles
  cached : ∀ r, ((alloc.tlas t).cachedChunks r).valid = true →
    alloc.rca.Placed ((alloc.tlas t).cachedChunks r) ∧
      ((alloc.tlas t).cachedChunks r).region = r ∧
      ¬alloc.rca.Pooled ((alloc.tlas t).cachedChunks r).handle

theorem ChunksHold.quiet {threads : List Nat} (h : alloc.ChunksHold threads) (ht : t ∈ threads) :
    alloc.Quiet t := by
  refine ⟨h.pools, h.mapped, ?_⟩
  intro r hvalid
  obtain ⟨hplaced, hregion⟩ := h.cached t ht r hvalid
  refine ⟨hplaced, hregion, fun hpooled => h.notPooled _ hpooled ?_⟩
  have hr : r < confMaxRegionSizes := by
    rw [← hregion]
    exact lt_of_lt_of_le hplaced.region_lt h.pools.specs.numRegions_le
  refine mem_taken.mpr ⟨t, ht, ThreadLocalAllocator.mem_addresses.mpr (.inl ?_)⟩
  refine Lib.mem_slots.mpr ⟨r, List.mem_range.mpr hr, ?_⟩
  rw [if_pos hvalid]
  exact List.mem_cons_self

/-- The region has a chunk in the pool, or the thread has one in its cache. -/
def HasChunk (alloc : Allocator) (t r : Nat) : Prop :=
  ¬alloc.rca.Drained r ∨
    (r ≤ confMaxCachedChunkSizeId ∧ ((alloc.tlas t).cachedChunks r).valid = true)

/-- The size that `allocate_chunk_` looks for. -/
def demand (alloc : Allocator) (t size alignment : Nat) : Nat :=
  max (alignUp size alignment)
    (min (alloc.rca.specs.chunkSize (alloc.rca.specs.numRegions - 1))
      (alloc.tlas t).totalChunkStorageSize)

/-- The chunk has left the cache or the pool. -/
def Left (alloc alloc' : Allocator) (t : Nat) (c : RegionChunkAllocation) : Prop :=
  ((alloc.tlas t).cachedChunks c.region = c ∧
      (alloc'.tlas t).cachedChunks c.region = nullRegionChunkAllocation) ∨
    (alloc.rca.Pooled c.handle ∧ ¬alloc'.rca.Pooled c.handle)

/-- The loop over the regions finds a chunk where one of them has one. -/
theorem allocateNewChunk_finds (hpools : alloc.rca.PoolsHold) (hm : alloc.rca.MappedHandles)
    (t : Nat) (commitOk : Bool) (turns : Nat) : ∀ region, region + turns ≤
    alloc.rca.specs.numRegions →
      ∃ c alloc', allocateNewChunk commitOk t alloc turns region = .ok (c, alloc') ∧
        (c.valid = false → commitOk = false ∨
          ∀ r, region ≤ r → r < region + turns → alloc.rca.Drained r) ∧
        (c.valid = true → region ≤ c.region ∧ alloc.rca.Placed c ∧ alloc.rca.Pooled c.handle ∧
          ¬alloc'.rca.Pooled c.handle) := by
  induction turns with
  | zero =>
    intro region _
    exact ⟨_, alloc, rfl, fun _ => .inr fun r hle hlt => absurd hlt (not_lt.mpr hle),
      fun hvalid => absurd hvalid (by decide)⟩
  | succ turns ih =>
    intro region hle
    have hr : region < alloc.rca.specs.numRegions := by omega
    let params : RegionChunkAllocParams :=
      ⟨4, -1, u32 ((alloc.tlas t).lastChunkPoolSplitId region), 1⟩
    obtain ⟨c, rca, hnew, hcases⟩ :=
      hpools.allocateChunk (show params.attempts ≠ 0 by simp [params]) (.inr rfl) region
    have hdrained : c.valid = false → alloc.rca.Drained region :=
      hpools.drained_of_allocateChunk (show 1 ≤ params.rounds by simp [params])
        (show params.attempts ≠ 0 by simp [params]) rfl hr hnew
    simp only [allocateNewChunk]
    rw [hnew, ok_bind]
    rcases hcases with ⟨rfl, rfl⟩ | ⟨rfl, hplaced, htaken⟩
    · -- this region has none: the loop goes on from the same state
      obtain ⟨c, alloc', hok, hnone, hsome⟩ := ih (region + 1) (by omega)
      refine ⟨c, alloc', hok, ?_, ?_⟩
      · intro hinvalid
        refine (hnone hinvalid).imp_right fun hrest r hlo hhi => ?_
        rcases Nat.eq_or_lt_of_le hlo with rfl | hlt
        · exact hdrained rfl
        · exact hrest r hlt (by omega)
      · intro hvalid
        obtain ⟨hregion, hrest⟩ := hsome hvalid
        exact ⟨by omega, hrest⟩
    · have hvalid := hplaced.valid hpools.toLayout
      have hsame := htaken.same
      have hplaced' := hsame.placed.mpr hplaced
      have hmem := RegionChunkAllocator.chunkAllocationToMemory_eq htaken.holds.toLayout
        (hsame.mapped hm) hplaced'
      have hspec : rca.getRegionSpec c.region = .ok (alloc.rca.specs.regionSpec c.region) := by
        unfold getRegionSpec
        rw [check_of (hsame.specs.symm ▸ hr), ok_bind, hsame.specs]
        rfl
      have hnot : ¬rca.Pooled c.handle := fun hp => ((htaken.rest _).mp hp).2 rfl
      simp only [hvalid, Bool.not_true, Bool.false_eq_true, if_false, hspec, ok_bind,
        hpools.specs.getChunkSize_eq hr]
      simp only [withTla, hmem, ok_bind]
      cases commitOk with
      | true => exact ⟨c, _, rfl, fun h => absurd h (by simp [hvalid]), fun _ =>
          ⟨le_rfl, hplaced, htaken.pooled, hnot⟩⟩
      | false =>
        obtain ⟨rca', hback, -⟩ := htaken.holds.deallocateChunk hplaced' hnot
        simp only [hback, ok_bind, Bool.not_false, if_true]
        refine ⟨_, _, rfl, fun _ => .inl trivial, fun h => absurd h (by decide)⟩

theorem findCachedChunk_eq_none {region : Nat} (h : alloc.findCachedChunk t region = none)
    (hle : region ≤ r)
    (hr : r ≤ confMaxCachedChunkSizeId) : ((alloc.tlas t).cachedChunks r).valid = false := by
  have hnot := List.find?_eq_none.mp h r (List.mem_range'_1.mpr ⟨hle, by omega⟩)
  exact Bool.not_eq_true _ ▸ hnot

theorem findCachedChunk_ge {region curr : Nat} (h : alloc.findCachedChunk t region = some curr) :
    region ≤ curr :=
  (List.mem_range'_1.mp (List.mem_of_find?_eq_some h)).1

/-- **`allocate_chunk_` fails only where the memory cannot be committed, or no region whose chunks
meet the demand has one**; a chunk it returns has left the cache or the pool, and it is large enough
where the chunk sizes ascend. -/
theorem allocateChunk_finds (h : alloc.Quiet t) {size alignment : Nat}
    (halign : isAlignment alignment = true) (hsize : size + alignment - 1 < 2 ^ 64)
    (commitOk : Bool) :
    ∃ c alloc', alloc.allocateChunk commitOk t size alignment = .ok (c, alloc') ∧
      (c.valid = false → commitOk = false ∨ ∀ r < alloc.rca.specs.numRegions,
        alloc.demand t size alignment ≤ alloc.rca.specs.chunkSize r → ¬alloc.HasChunk t r) ∧
      (c.valid = true → alloc.rca.Placed c ∧ Left alloc alloc' t c ∧
        (alloc.rca.specs.Ascending →
          alignUp size alignment ≤ alloc.rca.specs.chunkSize c.region)) := by
  have hw := h.pools.specs
  have hlast : alloc.rca.specs.numRegions - 1 < alloc.rca.specs.numRegions :=
    Nat.sub_lt hw.numRegions_pos one_pos
  have hmax : alloc.rca.getMaxChunkSize =
      .ok (alloc.rca.specs.chunkSize (alloc.rca.specs.numRegions - 1)) := hw.getChunkSize_eq hlast
  have hdemand : max (alignUp size alignment)
      (min (alloc.rca.specs.chunkSize (alloc.rca.specs.numRegions - 1))
        (alloc.tlas t).totalChunkStorageSize) = alloc.demand t size alignment := rfl
  simp only [Allocator.allocateChunk, align_of_le halign hsize, hmax, ok_bind, hdemand]
  by_cases hnull : alloc.rca.specs.searchSuitableRegion (alloc.demand t size alignment) =
      regionChunkAllocatorNullValue
  · rw [if_pos hnull]
    refine ⟨_, alloc, rfl, fun _ => .inr ?_, fun hvalid => absurd hvalid (by decide)⟩
    intro r hr hle
    exact absurd hle (not_le.mpr
      (RegionChunkAllocatorSpecs.searchSuitableRegion_none hw hnull hr))
  rw [if_neg hnull]
  obtain ⟨hregion, hmeets, hfirst⟩ := RegionChunkAllocatorSpecs.searchSuitableRegion_some hw hnull
  -- a chunk of a region from there on is large enough
  have hfits : ∀ c : RegionChunkAllocation, alloc.rca.Placed c →
      alloc.rca.specs.searchSuitableRegion (alloc.demand t size alignment) ≤ c.region →
      alloc.rca.specs.Ascending → alignUp size alignment ≤ alloc.rca.specs.chunkSize c.region := by
    intro c hplaced hle hasc
    calc alignUp size alignment ≤ alloc.demand t size alignment := le_max_left _ _
      _ ≤ _ := hmeets
      _ ≤ _ := hasc _ _ hle hplaced.region_lt
  cases hfind : alloc.findCachedChunk t
      (alloc.rca.specs.searchSuitableRegion (alloc.demand t size alignment)) with
  | some curr =>
    obtain ⟨-, hvalid⟩ := findCachedChunk_eq_some hfind
    obtain ⟨hplaced, hcurr, -⟩ := h.cached curr hvalid
    refine ⟨_, _, rfl, fun h => absurd h (by simp [hvalid]), fun _ => ⟨hplaced, .inl ⟨?_, ?_⟩,
      hfits _ hplaced (hcurr.symm ▸ findCachedChunk_ge hfind)⟩⟩
    · rw [hcurr]
    · rw [hcurr]
      simp [withTla, ThreadLocalAllocator.withCachedChunk]
  | none =>
    obtain ⟨c, alloc', hok, hnone, hsome⟩ := allocateNewChunk_finds h.pools h.mapped t commitOk
      (alloc.rca.specs.numRegions -
        alloc.rca.specs.searchSuitableRegion (alloc.demand t size alignment))
      (alloc.rca.specs.searchSuitableRegion (alloc.demand t size alignment)) (by omega)
    refine ⟨c, alloc', hok, ?_, ?_⟩
    · intro hinvalid
      refine (hnone hinvalid).imp_right fun hdrained r hr hle => ?_
      have hge : alloc.rca.specs.searchSuitableRegion (alloc.demand t size alignment) ≤ r := by
        by_contra hlt
        exact absurd hle (not_le.mpr (hfirst r (not_le.mp hlt)))
      rintro (hpool | ⟨hr5, hvalid⟩)
      · exact hpool (hdrained r hge (by omega))
      · rw [findCachedChunk_eq_none hfind hge hr5] at hvalid
        exact Bool.noConfusion hvalid
    · intro hvalid
      obtain ⟨hle, hplaced, hpooled, hnot⟩ := hsome hvalid
      exact ⟨hplaced, .inr ⟨hpooled, hnot⟩, hfits c hplaced hle⟩

/-! ### Two regions of one chunk -/

/-- The layout of two regions of one chunk each. -/
def pairSpecs (firstLog2 secondLog2 : Nat) : RegionChunkAllocatorSpecs :=
  { regionSpecs := [⟨0, 2 ^ firstLog2, firstLog2, 7, 0, 1⟩,
      ⟨2 ^ firstLog2, 2 ^ secondLog2, secondLog2, 7, 1, 1⟩]
    chunkSizeSearchSentinels := [2 ^ firstLog2, 2 ^ secondLog2]
    regionSearchSentinels := [2 ^ firstLog2, 2 ^ firstLog2 + 2 ^ secondLog2]
    totalRegionsSize := 2 ^ firstLog2 + 2 ^ secondLog2
    regionAlignment := 4096, regionSize := 0, regionSizeLog2 := 0, numRegions := 2
    totalHandlesSize := 256, handleAlignment := 64, handleSize := 128, handleSizeLog2 := 7
    numHandles := 2 }

def pairAllocator (firstLog2 secondLog2 : Nat) : Allocator :=
  { sampleAllocator with
    rca := {
      specs := pairSpecs firstLog2 secondLog2, pools := .build (pairSpecs firstLog2 secondLog2) 1
      regions := 65536, handles := 8192, poolHandles := fun _ => regionChunkPoolNullLink } }

theorem pairAllocator_fresh : Fresh [64] (pairAllocator 12 13) ∧
    Fresh [64] (pairAllocator 13 12) := by
  constructor
  · exact {
      specs := ⟨{
        regionSizes := [12, 13], regionChunkSizes := [12, 13], handleSize := 128
        regionAlignment := 4096, handleAlignment := 64 }, rfl⟩
      pools := ⟨1, rfl⟩
      fits := ⟨by decide, by decide⟩
      mapped := ⟨⟨by decide, by decide, by decide⟩, by decide⟩
      threads_nodup := by decide
      address := by decide
      tlas := fun _ _ => ⟨⟨⟨0, 12, 12, 4, 4⟩, ⟨4, 12, 4096⟩⟩, rfl, rfl, rfl⟩ }
  · exact {
      specs := ⟨{
        regionSizes := [13, 12], regionChunkSizes := [13, 12], handleSize := 128
        regionAlignment := 4096, handleAlignment := 64 }, rfl⟩
      pools := ⟨1, rfl⟩
      fits := ⟨by decide, by decide⟩
      mapped := ⟨⟨by decide, by decide, by decide⟩, by decide⟩
      threads_nodup := by decide
      address := by decide
      tlas := fun _ _ => ⟨⟨⟨0, 12, 12, 4, 4⟩, ⟨4, 12, 4096⟩⟩, rfl, rfl, rfl⟩ }

/-- The state after one thread took the chunk of 8192 bytes. -/
theorem Fresh.quiet_allocateChunk {size alignment : Nat} (h : Fresh [64] alloc)
    (hok : alloc.allocateChunk true 64 size alignment = .ok (c, alloc')) : alloc'.Quiet 64 :=
  (h.inv.chunks.allocateChunk (by decide) hok).holds.quiet (by decide)

/-- **The usage of the thread counts, and so does the order of the sizes.**  With the chunk of 8192
bytes taken, a thread gets no chunk for 16 bytes, and the chunk of 4096 bytes is left; where that
one comes second, the thread gets it for 8192 bytes. -/
theorem not_allocateChunk_size_only :
    (¬∀ (alloc alloc' : Allocator) (t size alignment : Nat) (c : RegionChunkAllocation),
      alloc.Quiet t → alloc.rca.specs.Ascending → isAlignment alignment = true →
      size + alignment - 1 < 2 ^ 64 → alloc.allocateChunk true t size alignment = .ok (c, alloc') →
      c.valid = false → ∀ r < alloc.rca.specs.numRegions,
        alignUp size alignment ≤ alloc.rca.specs.chunkSize r → ¬alloc.HasChunk t r) ∧
    ¬∀ (alloc alloc' : Allocator) (t size alignment : Nat) (c : RegionChunkAllocation),
      alloc.Quiet t → isAlignment alignment = true → size + alignment - 1 < 2 ^ 64 →
      alloc.allocateChunk true t size alignment = .ok (c, alloc') → c.valid = true →
      alignUp size alignment ≤ alloc.rca.specs.chunkSize c.region := by
  constructor
  · intro h
    have hok : (pairAllocator 12 13).allocateChunk true 64 8192 16 = .ok (⟨1, 0, 1, 0⟩, _) := rfl
    have hquiet := pairAllocator_fresh.1.quiet_allocateChunk hok
    refine h _ _ 64 16 16 _ hquiet ?_ (by decide) (by decide) rfl (by decide) 0 (by decide)
      (by decide)
      (.inl fun hdrained => hdrained 0 (by decide) 0 (.inr ⟨by decide, by decide⟩))
    intro r r' hle hr'
    have hr' : r' < 2 := hr'
    obtain ⟨rfl, rfl⟩ | ⟨rfl, rfl⟩ | ⟨rfl, rfl⟩ :
        (r = 0 ∧ r' = 0) ∨ (r = 0 ∧ r' = 1) ∨ (r = 1 ∧ r' = 1) := by omega
    all_goals decide
  · intro h
    have hok : (pairAllocator 13 12).allocateChunk true 64 8192 16 = .ok (⟨0, 0, 0, 0⟩, _) := rfl
    have hquiet := pairAllocator_fresh.2.quiet_allocateChunk hok
    have hsmall := h _ _ 64 8192 16 ⟨1, 0, 1, 0⟩ hquiet (by decide) (by decide) rfl (by decide)
    exact absurd hsmall (by decide)

/-- The chunk of 8192 bytes meets the demand of a new thread. -/
theorem allocateChunk_finds_pair : ∃ alloc',
    (pairAllocator 12 13).allocateChunk true 64 8192 16 = .ok (⟨1, 0, 1, 0⟩, alloc') ∧
      Left (pairAllocator 12 13) alloc' 64 ⟨1, 0, 1, 0⟩ := by
  obtain ⟨c, alloc', hok, -, hsome⟩ := allocateChunk_finds
    (pairAllocator_fresh.1.inv.chunks.quiet (show 64 ∈ [64] by decide))
    (show isAlignment 16 = true by decide) (show 8192 + 16 - 1 < 2 ^ 64 by decide) true
  have hok' : (pairAllocator 12 13).allocateChunk true 64 8192 16 = .ok (⟨1, 0, 1, 0⟩, _) := rfl
  rw [hok] at hok'
  obtain ⟨rfl, -⟩ := Prod.mk.inj (Except.ok.inj hok')
  exact ⟨alloc', hok, (hsome (by decide)).2.1⟩

end Allocator

end Cuw3
