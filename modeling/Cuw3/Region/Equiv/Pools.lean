/-
  The pools of chunks, used by one thread at a time.

  `PoolsHold`: in every split, the free list is a list of handles of the split below the top of its
  bump stack.  `Pooled alloc handle`: the handle can still be handed out.  `allocate_chunk` takes
  one pooled handle (`PoolsHold.allocateChunk`), and finds one where there is one
  (`PoolsHold.drained_of_allocateChunk`); `deallocate_chunk` puts one back
  (`PoolsHold.deallocateChunk`).
-/
import Cuw3.Region.Pools
import Cuw3.Region.Equiv.Layout
import Cuw3.Lib.Linked
import Cuw3.Lib.Stride

namespace Cuw3.RegionChunkAllocator

open Lib RegionChunkAllocatorPools

/-! ### Handles and splits -/

/-- What the `create` functions establish. -/
structure Layout (alloc : RegionChunkAllocator) : Prop where
  specs : alloc.specs.WellFormed
  pools : alloc.pools.WellFormed alloc.specs

/-- The split of the region hosts the handle. -/
structure InSplit (alloc : RegionChunkAllocator) (region split handle : Nat) : Prop where
  region_lt : region < alloc.specs.numRegions
  split_lt : split < alloc.pools.numSplits
  first_le : (alloc.pools.poolEntries region split).firstHandle ≤ handle
  lt_last : handle < (alloc.pools.poolEntries region split).lastHandle

/-- The allocation is a chunk of the layout. -/
structure Placed (alloc : RegionChunkAllocator) (allocation : RegionChunkAllocation) : Prop
    extends InSplit alloc allocation.region allocation.split allocation.handle where
  chunk_lt : allocation.chunk < (alloc.specs.regionSpec allocation.region).numHandles
  handle_eq : allocation.handle =
    (alloc.specs.regionSpec allocation.region).handleOffset + allocation.chunk

/-- Only links, list heads and stack tops differ. -/
structure SameLayout (alloc alloc' : RegionChunkAllocator) : Prop where
  specs : alloc'.specs = alloc.specs
  regions : alloc'.regions = alloc.regions
  handles : alloc'.handles = alloc.handles
  numRegions : alloc'.pools.numRegions = alloc.pools.numRegions
  numSplits : alloc'.pools.numSplits = alloc.pools.numSplits
  sentinels : alloc'.pools.splitSearchSentinels = alloc.pools.splitSearchSentinels
  first : ∀ r s, (alloc'.pools.poolEntries r s).firstHandle =
    (alloc.pools.poolEntries r s).firstHandle
  last : ∀ r s, (alloc'.pools.poolEntries r s).lastHandle = (alloc.pools.poolEntries r s).lastHandle

variable {alloc alloc' alloc'' : RegionChunkAllocator} {r s r' s' handle : Nat}

theorem SameLayout.refl (alloc : RegionChunkAllocator) : SameLayout alloc alloc :=
  ⟨rfl, rfl, rfl, rfl, rfl, rfl, fun _ _ => rfl, fun _ _ => rfl⟩

theorem SameLayout.trans (h : SameLayout alloc alloc') (h' : SameLayout alloc' alloc'') :
    SameLayout alloc alloc'' :=
  ⟨h'.specs.trans h.specs, h'.regions.trans h.regions, h'.handles.trans h.handles,
    h'.numRegions.trans h.numRegions, h'.numSplits.trans h.numSplits,
    h'.sentinels.trans h.sentinels, fun r s => (h'.first r s).trans (h.first r s),
    fun r s => (h'.last r s).trans (h.last r s)⟩

theorem SameLayout.layout (h : SameLayout alloc alloc') (hl : alloc.Layout) : alloc'.Layout := by
  refine ⟨h.specs ▸ hl.specs, ?_⟩
  rw [h.specs]
  refine ⟨h.numRegions.trans hl.pools.numRegions, ?_, ?_, ?_, fun r hr => ?_, fun r hr s hs => ?_⟩
  · rw [h.numSplits]
    exact hl.pools.numSplits_pos
  · rw [h.numSplits]
    exact hl.pools.numSplits_le
  · rw [h.numSplits]
    exact hl.pools.numSplits_pow2
  · simp only [h.numSplits, h.first, h.last]
    exact hl.pools.splits r hr
  · rw [h.sentinels, h.last]
    exact hl.pools.sentinels r hr s (h.numSplits ▸ hs)

theorem SameLayout.inSplit (h : SameLayout alloc alloc') :
    alloc'.InSplit r s handle ↔ alloc.InSplit r s handle := by
  constructor
  · rintro ⟨hr, hs, hf, hl⟩
    exact ⟨h.specs ▸ hr, h.numSplits ▸ hs, h.first r s ▸ hf, h.last r s ▸ hl⟩
  · rintro ⟨hr, hs, hf, hl⟩
    exact ⟨h.specs.symm ▸ hr, h.numSplits.symm ▸ hs, (h.first r s).symm ▸ hf,
      (h.last r s).symm ▸ hl⟩

theorem SameLayout.placed (h : SameLayout alloc alloc') {allocation : RegionChunkAllocation} :
    alloc'.Placed allocation ↔ alloc.Placed allocation := by
  constructor
  · rintro ⟨hin, hc, hh⟩
    exact ⟨h.inSplit.mp hin, h.specs ▸ hc, h.specs ▸ hh⟩
  · rintro ⟨hin, hc, hh⟩
    exact ⟨h.inSplit.mpr hin, h.specs.symm ▸ hc, h.specs.symm ▸ hh⟩

/-- The handles of a split are handles of its region. -/
theorem InSplit.region (h : alloc.InSplit r s handle) (hl : alloc.Layout) :
    (alloc.specs.regionSpec r).handleOffset ≤ handle ∧
      handle < (alloc.specs.regionSpec r).handleOffset + (alloc.specs.regionSpec r).numHandles := by
  have hbounds := (hl.pools.splits r h.region_lt).bounds (split_getElem? h.split_lt)
  have hfirst := h.first_le
  have hlast := h.lt_last
  dsimp only at hbounds
  omega

theorem InSplit.lt_numHandles (h : alloc.InSplit r s handle) (hl : alloc.Layout) :
    handle < alloc.specs.numHandles :=
  lt_of_lt_of_le (h.region hl).2 (hl.specs.handle_le h.region_lt)

theorem InSplit.ne_null (h : alloc.InSplit r s handle) (hl : alloc.Layout) :
    handle ≠ regionChunkPoolNullLink := by
  have hlt := h.lt_numHandles hl
  have hle := hl.specs.handles_le
  rw [regionChunkPoolNullLink]
  omega

/-- A handle belongs to one split of one region. -/
theorem InSplit.unique (h : alloc.InSplit r s handle) (h' : alloc.InSplit r' s' handle)
    (hl : alloc.Layout) : r = r' ∧ s = s' := by
  obtain ⟨hlo, hhi⟩ := h.region hl
  obtain ⟨hlo', hhi'⟩ := h'.region hl
  obtain rfl : r = r' := hl.specs.handles.unique (hl.specs.handleRange_getElem? h.region_lt)
    (hl.specs.handleRange_getElem? h'.region_lt) hlo hhi hlo' hhi'
  exact ⟨rfl, hl.pools.split_unique h.region_lt h.split_lt h'.split_lt h.first_le h.lt_last
    h'.first_le h'.lt_last⟩

theorem InSplit.placed (h : alloc.InSplit r s handle) (hl : alloc.Layout) :
    alloc.Placed ⟨r, handle - (alloc.specs.regionSpec r).handleOffset, handle, s⟩ := by
  obtain ⟨hlo, hhi⟩ := h.region hl
  exact ⟨h, by dsimp only; omega, by dsimp only; omega⟩

/-- Allocations of one handle are equal. -/
theorem Placed.unique {a b : RegionChunkAllocation} (ha : alloc.Placed a) (hb : alloc.Placed b)
    (hl : alloc.Layout) (h : a.handle = b.handle) : a = b := by
  obtain ⟨hr, hs⟩ := ha.toInSplit.unique (h ▸ hb.toInSplit) hl
  have hca := ha.handle_eq
  have hcb := hb.handle_eq
  rw [hr] at hca
  have hc : a.chunk = b.chunk := by omega
  cases a
  cases b
  simp_all

theorem Placed.valid {a : RegionChunkAllocation} (ha : alloc.Placed a) (hl : alloc.Layout) :
    a.valid = true := by
  have hlt := ha.region_lt
  have hle := hl.specs.numRegions_le
  simp only [confMaxRegionSizes] at hle
  simp only [RegionChunkAllocation.valid, RegionChunkAllocation.null, RegionChunkAllocation.failed,
    regionChunkAllocatorNullValue, regionChunkAllocatorFailedValue, Bool.and_eq_true,
    Bool.not_eq_true', beq_eq_false_iff_ne]
  omega

theorem regionHandleToChunk_eq (hl : alloc.Layout) (h : alloc.InSplit r s handle) :
    alloc.regionHandleToChunk r handle =
      .ok (handle - (alloc.specs.regionSpec r).handleOffset) := by
  obtain ⟨hlo, hhi⟩ := h.region hl
  have hle := hl.specs.handle_le h.region_lt
  have hmax := hl.specs.handles_le
  have hempty : (!(alloc.specs.regionSpec r).isEmpty) = true := by
    simp only [RegionSpec.isEmpty, Bool.not_eq_true', beq_eq_false_iff_ne]
    omega
  have hcheck : (alloc.specs.regionSpec r).checkHandle handle = true := by
    rw [RegionSpec.checkHandle, u32_of_lt (by omega)]
    simp [hlo, hhi]
  simp only [regionHandleToChunk, assert_of h.region_lt, assert_of (h.lt_numHandles hl),
    assert_of hempty, assert_of hcheck, ok_bind]
  rfl

/-! ### The representation of the pools -/

/-- The handle is in the free list of the split. -/
def Listed (alloc : RegionChunkAllocator) (r s handle : Nat) : Prop :=
  ∃ ps, Linked regionChunkPoolNullLink alloc.poolHandles
    (alloc.pools.poolEntries r s).freeList.next ps ∧ handle ∈ ps

/-- The handle can be handed out from the split. -/
def PooledIn (alloc : RegionChunkAllocator) (r s handle : Nat) : Prop :=
  alloc.Listed r s handle ∨ ((alloc.pools.poolEntries r s).freeStack ≤ handle ∧
    handle < (alloc.pools.poolEntries r s).lastHandle)

/-- The handle can be handed out. -/
def Pooled (alloc : RegionChunkAllocator) (handle : Nat) : Prop :=
  ∃ r < alloc.specs.numRegions, ∃ s < alloc.pools.numSplits, alloc.PooledIn r s handle

/-- The representation of the pool of one split. -/
structure SplitHolds (alloc : RegionChunkAllocator) (r s : Nat) : Prop where
  list : ∃ ps, Linked regionChunkPoolNullLink alloc.poolHandles
    (alloc.pools.poolEntries r s).freeList.next ps ∧ ps.Nodup ∧
    ∀ h ∈ ps, (alloc.pools.poolEntries r s).firstHandle ≤ h ∧
      h < (alloc.pools.poolEntries r s).freeStack
  first_le : (alloc.pools.poolEntries r s).firstHandle ≤ (alloc.pools.poolEntries r s).freeStack
  le_last : (alloc.pools.poolEntries r s).freeStack ≤ (alloc.pools.poolEntries r s).lastHandle

structure PoolsHold (alloc : RegionChunkAllocator) : Prop extends Layout alloc where
  split : ∀ r < alloc.specs.numRegions, ∀ s < alloc.pools.numSplits, alloc.SplitHolds r s

theorem PoolsHold.inSplit (h : alloc.PoolsHold) (hr : r < alloc.specs.numRegions)
    (hs : s < alloc.pools.numSplits) (hp : alloc.PooledIn r s handle) :
    alloc.InSplit r s handle := by
  have hsplit := h.split r hr s hs
  have hfirst := hsplit.first_le
  have hlast := hsplit.le_last
  rcases hp with ⟨ps, hlinked, hmem⟩ | ⟨hlo, hhi⟩
  · obtain ⟨qs, hlinked', -, hrange⟩ := hsplit.list
    obtain rfl := hlinked.unique hlinked'
    have := hrange handle hmem
    exact ⟨hr, hs, by omega, by omega⟩
  · exact ⟨hr, hs, by omega, hhi⟩

/-- A pooled handle of a split is pooled there. -/
theorem PoolsHold.pooledIn (h : alloc.PoolsHold) (hin : alloc.InSplit r s handle)
    (hp : alloc.Pooled handle) : alloc.PooledIn r s handle := by
  obtain ⟨r', hr', s', hs', hp⟩ := hp
  obtain ⟨rfl, rfl⟩ := (h.inSplit hr' hs' hp).unique hin h.toLayout
  exact hp

/-- In new pools the free lists are empty and nothing is bumped. -/
theorem poolEntries_of_create {contentionSplit : Nat} (hw : alloc.specs.WellFormed)
    (hcreate : (RegionChunkAllocatorPools.create alloc.specs contentionSplit).Creates alloc.pools)
    (hr : r < alloc.specs.numRegions) (hs : s < alloc.pools.numSplits) :
    (alloc.pools.poolEntries r s).freeList = ⟨0, regionChunkPoolNullLink⟩ ∧
      (alloc.pools.poolEntries r s).freeStack = (alloc.pools.poolEntries r s).firstHandle := by
  have hp := RegionChunkAllocatorPools.create_wellFormed hw hcreate
  have hr8 := lt_of_lt_of_le hr hw.numRegions_le
  have hs16 := lt_of_lt_of_le hs hp.numSplits_le
  simp only [RegionChunkAllocatorPools.create, creates_bind, creates_checkReturnVal,
    creates_pure] at hcreate
  obtain ⟨-, -, -, -, hpools⟩ := hcreate
  rw [← hpools]
  simp only [build, hr8, hs16, and_self, ↓reduceIte, createEntry]

/-- Every handle is in a split. -/
theorem Layout.exists_inSplit (hl : alloc.Layout) (hh : handle < alloc.specs.numHandles) :
    ∃ r s, alloc.InSplit r s handle := by
  obtain ⟨r, range, hget, hlo, hhi⟩ := hl.specs.handles.exists_mem (Nat.zero_le handle) hh
  have hr : r < alloc.specs.numRegions := by
    have hlen := (List.getElem?_eq_some_iff.mp hget).1
    rwa [List.length_map, hl.specs.length] at hlen
  rw [hl.specs.handleRange_getElem? hr] at hget
  obtain rfl := Option.some.inj hget
  obtain ⟨s, hs, hfirst, hlast⟩ := hl.pools.exists_split hr hlo hhi
  exact ⟨r, s, hr, hs, hfirst, hlast⟩

/-- New pools: the free lists are empty, and every handle is pooled. -/
theorem poolsHold_of_create {contentionSplit : Nat} (hw : alloc.specs.WellFormed)
    (hcreate : (RegionChunkAllocatorPools.create alloc.specs contentionSplit).Creates alloc.pools) :
    alloc.PoolsHold ∧ ∀ h < alloc.specs.numHandles, alloc.Pooled h := by
  have hp := RegionChunkAllocatorPools.create_wellFormed hw hcreate
  have hl : alloc.Layout := ⟨hw, hp⟩
  refine ⟨⟨hl, fun r hr s hs => ?_⟩, fun h hh => ?_⟩
  · obtain ⟨hlist, hstack⟩ := poolEntries_of_create hw hcreate hr hs
    have hbounds := (hp.splits r hr).bounds (split_getElem? hs)
    refine ⟨⟨[], by rw [hlist]; rfl, List.nodup_nil, by simp⟩, ?_, ?_⟩
    · rw [hstack]
    · rw [hstack]
      exact hbounds.2.1
  · obtain ⟨r, s, hin⟩ := hl.exists_inSplit hh
    have hstack := (poolEntries_of_create hw hcreate hin.region_lt hin.split_lt).2
    exact ⟨r, hin.region_lt, s, hin.split_lt, .inr ⟨hstack ▸ hin.first_le, hin.lt_last⟩⟩

/-! ### Changing the pool of one split -/

/-- The allocator with other links and another entry for one split. -/
def withSplit (alloc : RegionChunkAllocator) (r s : Nat) (entry : RegionPoolEntry)
    (poolHandles : Nat → Nat) : RegionChunkAllocator :=
  { alloc with pools := alloc.pools.withEntry r s entry, poolHandles }

variable {entry : RegionPoolEntry} {poolHandles : Nat → Nat}

theorem withSplit_entry_self :
    (alloc.withSplit r s entry poolHandles).pools.poolEntries r s = entry := by
  simp [withSplit, withEntry]

theorem withSplit_entry_of_ne (hne : ¬(r' = r ∧ s' = s)) :
    (alloc.withSplit r s entry poolHandles).pools.poolEntries r' s' =
      alloc.pools.poolEntries r' s' := by
  by_cases hr : r' = r
  · subst hr
    have hs : s' ≠ s := fun hs => hne ⟨rfl, hs⟩
    simp [withSplit, withEntry, hs]
  · simp [withSplit, withEntry, hr]

theorem withSplit_self :
    alloc.withSplit r s (alloc.pools.poolEntries r s) alloc.poolHandles = alloc := by
  simp [withSplit, withEntry]

/-- Another entry of the same split keeps the layout. -/
theorem sameLayout_withSplit
    (hfirst : entry.firstHandle = (alloc.pools.poolEntries r s).firstHandle)
    (hlast : entry.lastHandle = (alloc.pools.poolEntries r s).lastHandle) :
    SameLayout alloc (alloc.withSplit r s entry poolHandles) := by
  refine ⟨rfl, rfl, rfl, rfl, rfl, rfl, fun r' s' => ?_, fun r' s' => ?_⟩
  all_goals
    by_cases hne : r' = r ∧ s' = s
    · obtain ⟨rfl, rfl⟩ := hne
      rw [withSplit_entry_self]
      assumption
    · rw [withSplit_entry_of_ne hne]

/-- One split was changed and holds again: the others are as they were. -/
theorem PoolsHold.change (h : alloc.PoolsHold) (hr : r < alloc.specs.numRegions)
    (hs : s < alloc.pools.numSplits)
    (hfirst : entry.firstHandle = (alloc.pools.poolEntries r s).firstHandle)
    (hlast : entry.lastHandle = (alloc.pools.poolEntries r s).lastHandle)
    (hlinks : ∀ q, ¬alloc.InSplit r s q → poolHandles q = alloc.poolHandles q)
    (hsplit : (alloc.withSplit r s entry poolHandles).SplitHolds r s) :
    (alloc.withSplit r s entry poolHandles).PoolsHold ∧
      ∀ q, (alloc.withSplit r s entry poolHandles).Pooled q ↔
        (alloc.withSplit r s entry poolHandles).PooledIn r s q ∨
          (alloc.Pooled q ∧ ¬alloc.InSplit r s q) := by
  have hsame : SameLayout alloc (alloc.withSplit r s entry poolHandles) :=
    sameLayout_withSplit hfirst hlast
  -- the free list of another split has none of the written links
  have hother : ∀ r' < alloc.specs.numRegions, ∀ s' < alloc.pools.numSplits, ¬(r' = r ∧ s' = s) →
      ∀ p ps, (∀ q ∈ ps, alloc.InSplit r' s' q) →
        (Linked regionChunkPoolNullLink poolHandles p ps ↔
          Linked regionChunkPoolNullLink alloc.poolHandles p ps) := by
    intro r' hr' s' hs' hne p ps hin
    have heq : ∀ q ∈ ps, poolHandles q = alloc.poolHandles q := fun q hq =>
      hlinks q fun hq' => hne ((hin q hq).unique hq' h.toLayout)
    exact ⟨fun hl => hl.congr fun q hq => (heq q hq).symm, fun hl => hl.congr heq⟩
  have hholds : (alloc.withSplit r s entry poolHandles).PoolsHold := by
    refine ⟨hsame.layout h.toLayout, fun r' hr' s' hs' => ?_⟩
    by_cases hne : r' = r ∧ s' = s
    · rwa [hne.1, hne.2]
    obtain ⟨⟨ps, hlinked, hnodup, hrange⟩, hf, hl⟩ := h.split r' hr' s' hs'
    refine ⟨⟨ps, ?_, hnodup, ?_⟩, ?_, ?_⟩
    · rw [withSplit_entry_of_ne hne]
      refine (hother r' hr' s' hs' hne _ ps fun q hq => ?_).mpr hlinked
      exact h.inSplit hr' hs' (.inl ⟨ps, hlinked, hq⟩)
    · rwa [withSplit_entry_of_ne hne]
    · rwa [withSplit_entry_of_ne hne]
    · rwa [withSplit_entry_of_ne hne]
  refine ⟨hholds, fun q => ⟨?_, ?_⟩⟩
  · rintro ⟨r', hr', s', hs', hq⟩
    by_cases hne : r' = r ∧ s' = s
    · rw [hne.1, hne.2] at hq
      exact .inl hq
    have hin : alloc.InSplit r' s' q := hsame.inSplit.mp (hholds.inSplit hr' hs' hq)
    refine .inr ⟨⟨r', hr', s', hs', ?_⟩, fun hq' => hne (hin.unique hq' h.toLayout)⟩
    obtain ⟨⟨qs, hlinked, -, hrange⟩, hf, hl⟩ := h.split r' hr' s' hs'
    rcases hq with ⟨ps, hps, hmem⟩ | hstack
    · rw [withSplit_entry_of_ne hne] at hps
      have hqs : Linked regionChunkPoolNullLink poolHandles
          (alloc.pools.poolEntries r' s').freeList.next qs :=
        (hother r' hr' s' hs' hne _ qs fun q hq =>
          h.inSplit hr' hs' (.inl ⟨qs, hlinked, hq⟩)).mpr hlinked
      obtain rfl := hps.unique hqs
      exact .inl ⟨ps, hlinked, hmem⟩
    · rw [withSplit_entry_of_ne hne] at hstack
      exact .inr hstack
  · rintro (hq | ⟨⟨r', hr', s', hs', hq⟩, hnot⟩)
    · exact ⟨r, hr, s, hs, hq⟩
    have hin := h.inSplit hr' hs' hq
    have hne : ¬(r' = r ∧ s' = s) := fun ⟨h1, h2⟩ => hnot (h1 ▸ h2 ▸ hin)
    refine ⟨r', hr', s', hs', ?_⟩
    rcases hq with ⟨ps, hps, hmem⟩ | hstack
    · refine .inl ⟨ps, ?_, hmem⟩
      rw [withSplit_entry_of_ne hne]
      exact (hother r' hr' s' hs' hne _ ps fun q hq =>
        h.inSplit hr' hs' (.inl ⟨ps, hps, hq⟩)).mpr hps
    · refine .inr ?_
      rwa [withSplit_entry_of_ne hne]

/-- What taking a handle out of the pool of a split does. -/
structure Taken (alloc alloc' : RegionChunkAllocator) (r s handle : Nat) : Prop where
  holds : alloc'.PoolsHold
  same : SameLayout alloc alloc'
  inSplit : alloc.InSplit r s handle
  pooled : alloc.Pooled handle
  rest : ∀ q, alloc'.Pooled q ↔ alloc.Pooled q ∧ q ≠ handle

/-- The free list has a first handle, which is taken. -/
theorem PoolsHold.pop (h : alloc.PoolsHold) (hr : r < alloc.specs.numRegions)
    (hs : s < alloc.pools.numSplits)
    (hne : (alloc.pools.poolEntries r s).freeList.next ≠ regionChunkPoolNullLink) (version : Nat) :
    Taken alloc (alloc.withSplit r s { alloc.pools.poolEntries r s with
      freeList := ⟨version, alloc.poolHandles (alloc.pools.poolEntries r s).freeList.next⟩ }
      alloc.poolHandles) r s (alloc.pools.poolEntries r s).freeList.next := by
  obtain ⟨⟨ps, hlinked, hnodup, hrange⟩, hf, hl⟩ := h.split r hr s hs
  obtain ⟨rest, rfl, hrest⟩ := hlinked.of_ne_null hne
  have hpooled : alloc.PooledIn r s (alloc.pools.poolEntries r s).freeList.next :=
    .inl ⟨_, hlinked, List.mem_cons_self⟩
  have hin := h.inSplit hr hs hpooled
  obtain ⟨hnot, hnodup'⟩ := List.nodup_cons.mp hnodup
  have hlisted : ∀ q, (∃ qs, Linked regionChunkPoolNullLink alloc.poolHandles
      (alloc.poolHandles (alloc.pools.poolEntries r s).freeList.next) qs ∧ q ∈ qs) ↔ q ∈ rest :=
    fun q => ⟨fun ⟨qs, hqs, hq⟩ => hrest.unique hqs ▸ hq, fun hq => ⟨rest, hrest, hq⟩⟩
  have hsplit : (alloc.withSplit r s { alloc.pools.poolEntries r s with
      freeList := ⟨version, alloc.poolHandles (alloc.pools.poolEntries r s).freeList.next⟩ }
      alloc.poolHandles).SplitHolds r s := by
    refine ⟨⟨rest, ?_, hnodup', ?_⟩, ?_, ?_⟩
    · rw [withSplit_entry_self]
      exact hrest
    · rw [withSplit_entry_self]
      exact fun q hq => hrange q (List.mem_cons_of_mem _ hq)
    · rwa [withSplit_entry_self]
    · rwa [withSplit_entry_self]
  obtain ⟨hholds, hiff⟩ := h.change hr hs (by rfl) (by rfl) (fun _ _ => rfl) hsplit
  refine ⟨hholds, sameLayout_withSplit rfl rfl, hin, ⟨r, hr, s, hs, hpooled⟩, fun q => ?_⟩
  rw [hiff, PooledIn, Listed, withSplit_entry_self]
  dsimp only [withSplit]
  rw [hlisted]
  have hlt := (hrange _ List.mem_cons_self).2
  constructor
  · rintro ((hq | ⟨hlo, hhi⟩) | ⟨hq, hnotIn⟩)
    · exact ⟨⟨r, hr, s, hs, .inl ⟨_, hlinked, List.mem_cons_of_mem _ hq⟩⟩,
        ne_of_mem_of_not_mem hq hnot⟩
    · exact ⟨⟨r, hr, s, hs, .inr ⟨hlo, hhi⟩⟩, by omega⟩
    · exact ⟨hq, fun heq => hnotIn (heq ▸ hin)⟩
  · rintro ⟨hq, hqne⟩
    by_cases hqin : alloc.InSplit r s q
    · refine .inl ?_
      rcases h.pooledIn hqin hq with ⟨qs, hqs, hmem⟩ | hstack
      · obtain rfl := hlinked.unique hqs
        exact .inl ((List.mem_cons.mp hmem).resolve_left hqne)
      · exact .inr hstack
    · exact .inr ⟨hq, hqin⟩

/-- The bump stack has handles left, the first of which is taken. -/
theorem PoolsHold.bump (h : alloc.PoolsHold) (hr : r < alloc.specs.numRegions)
    (hs : s < alloc.pools.numSplits)
    (hlt : (alloc.pools.poolEntries r s).freeStack < (alloc.pools.poolEntries r s).lastHandle) :
    Taken alloc (alloc.withSplit r s { alloc.pools.poolEntries r s with
      freeStack := (alloc.pools.poolEntries r s).freeStack + 1 } alloc.poolHandles) r s
      (alloc.pools.poolEntries r s).freeStack := by
  obtain ⟨⟨ps, hlinked, hnodup, hrange⟩, hf, hl⟩ := h.split r hr s hs
  have hpooled : alloc.PooledIn r s (alloc.pools.poolEntries r s).freeStack := .inr ⟨le_rfl, hlt⟩
  have hin := h.inSplit hr hs hpooled
  have hsplit : (alloc.withSplit r s { alloc.pools.poolEntries r s with
      freeStack := (alloc.pools.poolEntries r s).freeStack + 1 } alloc.poolHandles).SplitHolds r
        s := by
    refine ⟨⟨ps, ?_, hnodup, fun q hq => ?_⟩, ?_, ?_⟩
    · rw [withSplit_entry_self]
      exact hlinked
    · have := hrange q hq
      rw [withSplit_entry_self]
      dsimp only
      omega
    · rw [withSplit_entry_self]
      exact Nat.le_succ_of_le hf
    · rw [withSplit_entry_self]
      exact hlt
  obtain ⟨hholds, hiff⟩ := h.change hr hs (by rfl) (by rfl) (fun _ _ => rfl) hsplit
  refine ⟨hholds, sameLayout_withSplit rfl rfl, hin, ⟨r, hr, s, hs, hpooled⟩, fun q => ?_⟩
  rw [hiff, PooledIn, Listed, withSplit_entry_self]
  dsimp only [withSplit]
  constructor
  · rintro ((⟨qs, hqs, hq⟩ | ⟨hlo, hhi⟩) | ⟨hq, hnotIn⟩)
    · obtain rfl := hlinked.unique hqs
      have := hrange q hq
      exact ⟨⟨r, hr, s, hs, .inl ⟨_, hlinked, hq⟩⟩, by omega⟩
    · exact ⟨⟨r, hr, s, hs, .inr ⟨by omega, hhi⟩⟩, by omega⟩
    · exact ⟨hq, fun heq => hnotIn (heq ▸ hin)⟩
  · rintro ⟨hq, hqne⟩
    by_cases hqin : alloc.InSplit r s q
    · refine .inl ((h.pooledIn hqin hq).imp_right fun ⟨hlo, hhi⟩ => ⟨by omega, hhi⟩)
    · exact .inr ⟨hq, hqin⟩

/-- A handle that is not pooled is pushed to the free list of its split. -/
theorem PoolsHold.push (h : alloc.PoolsHold) (hin : alloc.InSplit r s handle)
    (hnot : ¬alloc.Pooled handle) (version : Nat) :
    (alloc.withSplit r s { alloc.pools.poolEntries r s with freeList := ⟨version, handle⟩ }
        (Function.update alloc.poolHandles handle
          (alloc.pools.poolEntries r s).freeList.next)).PoolsHold ∧
      ∀ q, (alloc.withSplit r s { alloc.pools.poolEntries r s with freeList := ⟨version, handle⟩ }
        (Function.update alloc.poolHandles handle
          (alloc.pools.poolEntries r s).freeList.next)).Pooled q ↔ alloc.Pooled q ∨ q = handle := by
  obtain ⟨⟨ps, hlinked, hnodup, hrange⟩, hf, hl⟩ := h.split r hin.region_lt s hin.split_lt
  have hnotIn : ¬alloc.PooledIn r s handle := fun hp =>
    hnot ⟨r, hin.region_lt, s, hin.split_lt, hp⟩
  have hfree : handle ∉ ps := fun hmem => hnotIn (.inl ⟨ps, hlinked, hmem⟩)
  have hlow : handle < (alloc.pools.poolEntries r s).freeStack := by
    by_contra hge
    exact hnotIn (.inr ⟨not_lt.mp hge, hin.lt_last⟩)
  have hpush := hlinked.push (hin.ne_null h.toLayout) hfree
  have hlisted : ∀ q, (∃ qs, Linked regionChunkPoolNullLink
      (Function.update alloc.poolHandles handle
      (alloc.pools.poolEntries r s).freeList.next) handle qs ∧ q ∈ qs) ↔ q ∈ handle :: ps :=
    fun q => ⟨fun ⟨qs, hqs, hq⟩ => hpush.unique hqs ▸ hq, fun hq => ⟨_, hpush, hq⟩⟩
  have hsplit : (alloc.withSplit r s
      { alloc.pools.poolEntries r s with freeList := ⟨version, handle⟩ }
      (Function.update alloc.poolHandles handle
        (alloc.pools.poolEntries r s).freeList.next)).SplitHolds r s := by
    refine ⟨⟨handle :: ps, ?_, List.nodup_cons.mpr ⟨hfree, hnodup⟩, ?_⟩, ?_, ?_⟩
    · rw [withSplit_entry_self]
      exact hpush
    · rw [withSplit_entry_self]
      exact List.forall_mem_cons.mpr ⟨⟨hin.first_le, hlow⟩, hrange⟩
    · rwa [withSplit_entry_self]
    · rwa [withSplit_entry_self]
  obtain ⟨hholds, hiff⟩ := h.change hin.region_lt hin.split_lt (by rfl) (by rfl)
    (fun q hq => Function.update_of_ne (fun (heq : q = handle) => hq (heq ▸ hin)) _ _) hsplit
  refine ⟨hholds, fun q => ?_⟩
  rw [hiff, PooledIn, Listed, withSplit_entry_self]
  dsimp only [withSplit]
  rw [hlisted]
  constructor
  · rintro ((hq | hstack) | ⟨hq, -⟩)
    · rcases List.mem_cons.mp hq with rfl | hq
      · exact .inr rfl
      · exact .inl ⟨r, hin.region_lt, s, hin.split_lt, .inl ⟨ps, hlinked, hq⟩⟩
    · exact .inl ⟨r, hin.region_lt, s, hin.split_lt, .inr hstack⟩
    · exact .inl hq
  · rintro (hq | rfl)
    · by_cases hqin : alloc.InSplit r s q
      · refine .inl ?_
        rcases h.pooledIn hqin hq with ⟨qs, hqs, hmem⟩ | hstack
        · obtain rfl := hlinked.unique hqs
          exact .inl (List.mem_cons_of_mem _ hmem)
        · exact .inr hstack
      · exact .inr ⟨hq, hqin⟩
    · exact .inl (.inl List.mem_cons_self)

/-! ### Allocating and freeing chunks -/

/-- The splits are visited around a ring. -/
theorem Layout.nextSplit_eq (hl : alloc.Layout) (split : Nat) {step : Nat}
    (hstep : step = 0 ∨ step % 2 = 1) :
    alloc.pools.nextSplit split step = .ok (visit alloc.pools.numSplits split step 1) := by
  obtain ⟨j, hj, hsplits⟩ := isAlignment_iff.mp hl.pools.numSplits_pow2
  simp only [nextSplit, check_of hstep, ok_bind]
  unfold visit u32
  -- the splits are a power of two, so the ring of `uint32` wraps around theirs
  have hle : alloc.pools.numSplits ≤ 2 ^ 32 :=
    le_trans hl.pools.numSplits_le (by decide)
  rw [hsplits] at hle ⊢
  have hdvd : 2 ^ j ∣ 2 ^ 32 := by
    refine Nat.pow_dvd_pow 2 ?_
    exact (Nat.pow_le_pow_iff_right one_lt_two).mp hle
  rw [Nat.and_two_pow_sub_one_eq_mod, Nat.mod_mod_of_dvd _ hdvd, one_mul]
  rfl

theorem nextSplit_eq (h : alloc.PoolsHold) (split : Nat) {step : Nat}
    (hstep : step = 0 ∨ step % 2 = 1) :
    alloc.pools.nextSplit split step = .ok (visit alloc.pools.numSplits split step 1) :=
  h.toLayout.nextSplit_eq split hstep

/-- One split gives a pooled handle, or nothing where it has none. -/
theorem PoolsHold.allocateFromSplit (h : alloc.PoolsHold) (hr : r < alloc.specs.numRegions)
    (hs : s < alloc.pools.numSplits) {attempts : Int} (hattempts : attempts ≠ 0) :
    ∃ handle alloc', alloc.allocateFromSplit r s attempts = .ok (handle, alloc') ∧
      ((handle = regionChunkPoolNullLink ∧ alloc' = alloc ∧ ∀ q, ¬alloc.PooledIn r s q) ∨
        Taken alloc alloc' r s handle) := by
  have hregion : r < alloc.pools.numRegions := h.pools.numRegions.symm ▸ hr
  have hmax := h.specs.handles_le
  have hnull : ¬regionChunkPoolNullLink < alloc.specs.numHandles := by
    rw [regionChunkPoolNullLink]
    omega
  simp only [RegionChunkAllocator.allocateFromSplit, allocateFromList, check_of hregion,
    check_of hs,
    RegionChunkPoolListView.pop, if_neg hattempts, ok_bind]
  by_cases hempty : (alloc.pools.poolEntries r s).freeList.next = regionChunkPoolNullLink
  · -- the free list is empty: the stack is tried
    have hself : alloc.pools.withEntry r s (alloc.pools.poolEntries r s) = alloc.pools := by
      simp [withEntry]
    have hfailed : regionChunkPoolNullLink ≠ regionChunkAllocatorFailedValue := by decide
    rw [if_pos hempty]
    change ∃ handle alloc', (if regionChunkPoolNullLink < alloc.specs.numHandles then _ else _) =
      _ ∧ _
    rw [if_neg hnull, if_neg hfailed, if_pos (show regionChunkPoolNullLink =
      regionChunkAllocatorNullValue from rfl)]
    change ∃ handle alloc', ((alloc.pools.withEntry r s
      (alloc.pools.poolEntries r s)).allocateFromStack
      r s >>= _) = _ ∧ _
    simp only [hself, allocateFromStack, check_of hregion, check_of hs,
      RegionChunkPoolStackView.bump,
      ok_bind]
    by_cases hfull : (alloc.pools.poolEntries r s).lastHandle ≤
      (alloc.pools.poolEntries r s).freeStack
    · rw [if_pos hfull]
      refine ⟨regionChunkPoolNullLink, alloc, ?_, .inl ⟨rfl, rfl, ?_⟩⟩
      · change Except.ok (_, { alloc with
          pools := alloc.pools.withEntry r s (alloc.pools.poolEntries r s) }) = _
        rw [hself]
      · rintro q (⟨ps, hlinked, hq⟩ | ⟨hlo, hhi⟩)
        · rw [hempty] at hlinked
          obtain rfl : ps = [] := hlinked.unique (show Linked _ _ _ [] from rfl)
          exact List.not_mem_nil hq
        · exact absurd (lt_of_le_of_lt hlo hhi) (not_lt.mpr hfull)
    · rw [if_neg hfull]
      have htaken := h.bump hr hs (not_le.mp hfull)
      have hlt := htaken.inSplit.lt_numHandles h.toLayout
      rw [u32_of_lt (by omega)]
      exact ⟨_, _, rfl, .inr htaken⟩
  · rw [if_neg hempty]
    have htaken := h.pop hr hs hempty (u32 ((alloc.pools.poolEntries r s).freeList.version + 1))
    have hlt := htaken.inSplit.lt_numHandles h.toLayout
    simp only [check_of hlt, ok_bind]
    refine ⟨_, _, ?_, .inr htaken⟩
    change (if _ then _ else _) = _
    rw [if_pos hlt]
    rfl

/-- What an allocation returns: nothing, or a pooled chunk of the region. -/
def Allocated (alloc alloc' : RegionChunkAllocator) (region : Nat) (c : RegionChunkAllocation) :
    Prop :=
  (c = nullRegionChunkAllocation ∧ alloc' = alloc) ∨
    (c.region = region ∧ alloc.Placed c ∧ Taken alloc alloc' c.region c.split c.handle)

/-- A result without a chunk: the splits that were visited have no handle left. -/
theorem PoolsHold.allocateChunkFrom {params : RegionChunkAllocParams}
    (hattempts : params.attempts ≠ 0)
    (hstep : params.splitStep = 0 ∨ params.splitStep % 2 = 1) (h : alloc.PoolsHold)
    (hr : r < alloc.specs.numRegions) : ∀ {turns split}, split < alloc.pools.numSplits →
      ∃ c alloc', allocateChunkFrom r params alloc turns split false = .ok (c, alloc') ∧
        Allocated alloc alloc' r c ∧ (c.valid = false → ∀ k < turns, ∀ q,
          ¬alloc.PooledIn r (visit alloc.pools.numSplits split params.splitStep k) q) := by
  intro turns
  induction turns with
  | zero => exact fun _ => ⟨_, alloc, rfl, .inl ⟨rfl, rfl⟩, fun _ k hk => absurd hk k.not_lt_zero⟩
  | succ turns ih =>
    intro split hsplit
    obtain ⟨handle, alloc', hok, htaken⟩ := h.allocateFromSplit hr hsplit hattempts
    have hlt : visit alloc.pools.numSplits split params.splitStep 1 < alloc.pools.numSplits :=
      visit_lt h.pools.numSplits_pos _ _ _
    have hnext := nextSplit_eq h split hstep
    simp only [RegionChunkAllocator.allocateChunkFrom, hok, ok_bind]
    rcases htaken with ⟨rfl, rfl, hnone⟩ | htaken
    · have hmax := h.specs.handles_le
      have hnull : ¬regionChunkPoolNullLink < alloc'.specs.numHandles := by
        rw [regionChunkPoolNullLink]
        omega
      obtain ⟨c, alloc'', hrest, hc, hdrained⟩ := ih hlt
      rw [if_neg hnull]
      simp only [hnext, ok_bind]
      refine ⟨c, alloc'', hrest, hc, ?_⟩
      intro hinvalid k hk
      cases k with
      | zero => rwa [visit_zero hsplit]
      | succ k =>
        rw [visit_succ]
        exact hdrained hinvalid k (Nat.lt_of_succ_lt_succ hk)
    · have hhandle := htaken.inSplit.lt_numHandles h.toLayout
      have hspecs := htaken.same.specs
      have hplaced := htaken.inSplit.placed h.toLayout
      rw [if_pos (hspecs.symm ▸ hhandle), regionHandleToChunk_eq htaken.holds.toLayout
        (htaken.same.inSplit.mpr htaken.inSplit), ok_bind, hspecs]
      refine ⟨_, alloc', rfl, .inr ⟨rfl, hplaced, htaken⟩, fun hinvalid => ?_⟩
      rw [hplaced.valid h.toLayout] at hinvalid
      exact Bool.noConfusion hinvalid

/-- No handle of the region can be handed out. -/
def Drained (alloc : RegionChunkAllocator) (r : Nat) : Prop :=
  ∀ s < alloc.pools.numSplits, ∀ q, ¬alloc.PooledIn r s q

theorem PoolsHold.allocateChunkOnce {params : RegionChunkAllocParams}
    (hattempts : params.attempts ≠ 0)
    (hstep : params.splitStep = 0 ∨ params.splitStep % 2 = 1) (h : alloc.PoolsHold)
    (hr : r < alloc.specs.numRegions) :
    ∃ c alloc', alloc.allocateChunkOnce r params = .ok (c, alloc') ∧ Allocated alloc alloc' r c ∧
      (c.valid = false → params.splitStep % 2 = 1 → alloc.Drained r) := by
  have hlt : visit alloc.pools.numSplits params.splitStart 0 1 < alloc.pools.numSplits :=
    visit_lt h.pools.numSplits_pos _ _ _
  simp only [RegionChunkAllocator.allocateChunkOnce, assert_of hr,
    nextSplit_eq h params.splitStart (.inl rfl), ok_bind]
  obtain ⟨c, alloc', hok, hc, hdrained⟩ := h.allocateChunkFrom hattempts hstep hr hlt
  refine ⟨c, alloc', hok, hc, ?_⟩
  intro hinvalid hodd s hs
  -- an odd step leads to every one of the splits
  obtain ⟨j, hj, hsplits⟩ := isAlignment_iff.mp h.pools.numSplits_pow2
  rw [hsplits] at hs hdrained
  obtain ⟨k, hk, hvisit⟩ :=
    exists_visit_two_pow hodd (visit (2 ^ j) params.splitStart 0 1) hs
  intro q hq
  rw [← hvisit] at hq
  exact hdrained hinvalid k hk q hq

theorem PoolsHold.allocateChunkRounds {params : RegionChunkAllocParams}
    (hattempts : params.attempts ≠ 0) (hstep : params.splitStep = 0 ∨ params.splitStep % 2 = 1)
    (h : alloc.PoolsHold) (hr : r < alloc.specs.numRegions) (turns : Nat) : ∀ rounds,
      ∃ c alloc', allocateChunkRounds r params alloc turns rounds = .ok (c, alloc') ∧
        Allocated alloc alloc' r c ∧ (c.valid = false → params.splitStep % 2 = 1 → 0 < turns →
          0 < rounds → alloc.Drained r) := by
  induction turns with
  | zero =>
    intro rounds
    exact ⟨_, alloc, rfl, .inl ⟨rfl, rfl⟩, fun _ _ hpos => absurd hpos (Nat.lt_irrefl 0)⟩
  | succ turns ih =>
    intro rounds
    cases rounds with
    | zero => exact ⟨_, alloc, rfl, .inl ⟨rfl, rfl⟩, fun _ _ _ hpos =>
      absurd hpos (Nat.lt_irrefl 0)⟩
    | succ rounds =>
      obtain ⟨c, alloc', hok, hc, hdrained⟩ := h.allocateChunkOnce hattempts hstep hr
      simp only [RegionChunkAllocator.allocateChunkRounds, hok, ok_bind]
      rcases hc with ⟨rfl, rfl⟩ | ⟨hregion, hplaced, htaken⟩
      · obtain ⟨c, alloc'', hrest, hc, -⟩ := ih rounds
        exact ⟨c, alloc'', hrest, hc, fun _ hodd _ _ => hdrained rfl hodd⟩
      · have hvalid := hplaced.valid h.toLayout
        rw [if_pos hvalid]
        refine ⟨c, alloc', rfl, .inr ⟨hregion, hplaced, htaken⟩, fun hinvalid => ?_⟩
        rw [hvalid] at hinvalid
        exact Bool.noConfusion hinvalid

/-- **`allocate_chunk` returns no chunk, or takes a pooled chunk of the region out of the pool.** -/
theorem PoolsHold.allocateChunk {params : RegionChunkAllocParams} (hattempts : params.attempts ≠ 0)
    (hstep : params.splitStep = 0 ∨ params.splitStep % 2 = 1) (h : alloc.PoolsHold) (r : Nat) :
    ∃ c alloc', alloc.allocateChunk r params = .ok (c, alloc') ∧ Allocated alloc alloc' r c := by
  by_cases hr : alloc.specs.numRegions ≤ r
  · exact ⟨_, alloc, by rw [RegionChunkAllocator.allocateChunk, if_pos hr]; rfl, .inl ⟨rfl, rfl⟩⟩
  · rw [RegionChunkAllocator.allocateChunk, if_neg hr]
    obtain ⟨c, alloc', hok, hc, -⟩ :=
      h.allocateChunkRounds hattempts hstep (not_le.mp hr) params.rounds.toNat params.rounds.toNat
    exact ⟨c, alloc', hok, hc⟩

/-- **`allocate_chunk` with an odd step returns no chunk only of a region that has none left.** -/
theorem PoolsHold.drained_of_allocateChunk {params : RegionChunkAllocParams}
    (hrounds : 1 ≤ params.rounds) (hattempts : params.attempts ≠ 0)
    (hodd : params.splitStep % 2 = 1) (h : alloc.PoolsHold) (hr : r < alloc.specs.numRegions)
    {c : RegionChunkAllocation} (hok : alloc.allocateChunk r params = .ok (c, alloc'))
    (hinvalid : c.valid = false) : alloc.Drained r := by
  obtain ⟨c', alloc'', hok', -, hdrained⟩ :=
    h.allocateChunkRounds hattempts (.inr hodd) hr params.rounds.toNat params.rounds.toNat
  rw [RegionChunkAllocator.allocateChunk, if_neg (not_le.mpr hr), hok'] at hok
  cases hok
  exact hdrained hinvalid hodd (by omega) (by omega)

/-- **`deallocate_chunk` puts a chunk that is not pooled back into the pool.** -/
theorem PoolsHold.deallocateChunk (h : alloc.PoolsHold) {c : RegionChunkAllocation}
    (hc : alloc.Placed c) (hnot : ¬alloc.Pooled c.handle) :
    ∃ alloc', alloc.deallocateChunk c = .ok alloc' ∧ alloc'.PoolsHold ∧ SameLayout alloc alloc' ∧
      ∀ q, alloc'.Pooled q ↔ alloc.Pooled q ∨ q = c.handle := by
  obtain ⟨hholds, hiff⟩ := h.push hc.toInSplit hnot
    (u32 ((alloc.pools.poolEntries c.region c.split).freeList.version + 1))
  obtain ⟨hlo, hhi⟩ := hc.toInSplit.region h.toLayout
  have hregion : c.region < alloc.pools.numRegions := h.pools.numRegions.symm ▸ hc.region_lt
  have hlt := hc.toInSplit.lt_numHandles h.toLayout
  have hmax := h.specs.handles_le
  have hle := h.specs.handle_le hc.region_lt
  have hchunk : (alloc.specs.regionSpec c.region).checkChunk c.chunk = true :=
    decide_eq_true hc.chunk_lt
  have hhandle : (alloc.specs.regionSpec c.region).checkHandle c.handle = true := by
    rw [RegionSpec.checkHandle, u32_of_lt (by omega)]
    simp [hlo, hhi]
  -- the head of the free list is a handle or null
  have hnext : (alloc.pools.poolEntries c.region c.split).freeList.next < alloc.specs.numHandles ∨
      (alloc.pools.poolEntries c.region c.split).freeList.next = regionChunkPoolNullLink := by
    by_cases hempty :
        (alloc.pools.poolEntries c.region c.split).freeList.next = regionChunkPoolNullLink
    · exact .inr hempty
    · exact .inl ((h.pop hc.region_lt hc.split_lt hempty 0).inSplit.lt_numHandles h.toLayout)
  refine ⟨_, ?_, hholds, sameLayout_withSplit rfl rfl, hiff⟩
  simp only [RegionChunkAllocator.deallocateChunk, check_of hc.region_lt, check_of hc.split_lt,
    check_of hchunk, check_of hhandle, RegionChunkAllocatorPools.deallocate, check_of hregion,
    RegionChunkPoolListView.push, check_of hlt, check_of hnext, ok_bind]
  rfl

end Cuw3.RegionChunkAllocator
