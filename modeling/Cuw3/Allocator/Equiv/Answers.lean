/-
  Every request is answered.

  In the configuration of `cuw3.cpp` the chunks are large enough for every request, and aligned for
  every alignment that an arena may have (`RegionChunkAllocator.Chunks`); so the bins, the chunk and
  the arena of a request pass all checks.  A request fails only for an alignment above the largest
  one, and is answered in every state of a run where its alignment is not below the least one
  (`Process.answers_iff`).  Below that one, no arena can be made.
-/
import Cuw3.Allocator.Config
import Cuw3.Allocator.Equiv.Configured
import Cuw3.Allocator.Equiv.Demand
import Cuw3.Allocator.Equiv.Sizes

namespace Cuw3

/-! ### The chunks -/

namespace RegionChunkAllocator

/-- The layout of a configuration, in memory that is aligned as the layout asks for. -/
structure ConfiguredBy (config : RegionChunkAllocatorSpecsConfig) (rca : RegionChunkAllocator) :
    Prop where
  specs : (RegionChunkAllocatorSpecs.create config).Creates rca.specs
  regions : rca.specs.regionAlignment ∣ rca.regions
  handles : rca.specs.handleAlignment ∣ rca.handles

/-- What the arenas need of the chunks and of their handles. -/
structure Chunks (rca : RegionChunkAllocator) : Prop where
  ascending : rca.specs.Ascending
  largest : rca.specs.chunkSize (rca.specs.numRegions - 1) = 2 ^ confMaxRegionChunkSizeLog2
  least : ∀ r < rca.specs.numRegions, confMinRegionChunkSize ∣ rca.specs.chunkSize r
  address : ∀ r < rca.specs.numRegions, ∀ c, confMinRegionChunkSize ∣ rca.address r c 0
  handle : ∀ h, confCacheline ∣ rca.handleAddress h
  handleSize : rca.specs.handleSize = confControlBlockSize

variable {rca rca' : RegionChunkAllocator} {vmemHugePageSize : Nat}

/-- The chunks double in size from region to region. -/
theorem ConfiguredBy.chunkSize_eq
    (h : rca.ConfiguredBy (cuw3CreateRcaAllocSpecsConfig vmemHugePageSize))
    (hl : rca.Layout) {r : Nat} (hr : r < rca.specs.numRegions) :
    rca.specs.chunkSize r = 2 ^ (confMinRegionChunkSizeLog2 + r) := by
  have hconf := RegionChunkAllocatorSpecs.create_configuredBy h.specs
  have hnum : rca.specs.numRegions = 6 := hconf.numRegions
  have hmap : (rca.specs.regionSpecs.map RegionSpec.chunkSizeLog2)[r]? =
      some (rca.specs.regionSpec r).chunkSizeLog2 := by
    rw [List.getElem?_map, hl.specs.getElem? hr]
    rfl
  rw [hconf.chunkSizes] at hmap
  have hlog : ∀ r < 6, confRegionChunkSizesLog2[r]? =
    some (confMinRegionChunkSizeLog2 + r) := by decide
  have heq := Option.some.inj ((hlog r (hnum ▸ hr)).symm.trans hmap)
  rw [RegionChunkAllocatorSpecs.chunkSize, ← heq]

theorem ConfiguredBy.chunks (h : rca.ConfiguredBy (cuw3CreateRcaAllocSpecsConfig vmemHugePageSize))
    (hl : rca.Layout) : rca.Chunks := by
  have hconf := RegionChunkAllocatorSpecs.create_configuredBy h.specs
  have hnum : rca.specs.numRegions = 6 := hconf.numRegions
  have hsize := fun r hr => h.chunkSize_eq hl (r := r) hr
  have hleast : ∀ r < rca.specs.numRegions, confMinRegionChunkSize ∣ rca.specs.chunkSize r := by
    intro r hr
    rw [hsize r hr, confMinRegionChunkSize]
    exact Nat.pow_dvd_pow 2 (Nat.le_add_right _ _)
  -- the alignment of the regions is a power of two that is at least the least chunk size
  have halign : confMinRegionChunkSize ∣ rca.specs.regionAlignment := by
    obtain ⟨k, -, hk⟩ := isAlignment_iff.mp hl.specs.regionAlignment
    have hle : confMinRegionChunkSize ≤ rca.specs.regionAlignment := by
      rw [hconf.alignment]
      exact (le_max_left _ _).trans (le_max_right _ _)
    rw [hk, confMinRegionChunkSize] at hle ⊢
    exact Nat.pow_dvd_pow 2 ((Nat.pow_le_pow_iff_right (by decide)).mp hle)
  refine ⟨?_, ?_, hleast, ?_, ?_, hconf.handleSize⟩
  · intro r r' hle hr'
    rw [hsize r (lt_of_le_of_lt hle hr'), hsize r' hr']
    exact Nat.pow_le_pow_right (by decide) (Nat.add_le_add_left hle _)
  · rw [hsize _ (by omega), hnum]
    rfl
  · intro r hr c
    have hoffset := hconf.offsets _ (hl.specs.mem hr)
    rw [← hconf.alignment] at hoffset
    refine Nat.dvd_add (Nat.dvd_add (Nat.dvd_add ?_ ?_) ?_) (Nat.dvd_zero _)
    · exact halign.trans h.regions
    · exact halign.trans hoffset
    · exact Dvd.dvd.mul_left (hleast r hr) c
  · intro handle
    have hhandles := h.handles
    rw [hconf.handleAlignment] at hhandles
    refine Nat.dvd_add hhandles (Dvd.dvd.mul_left ?_ handle)
    rw [hconf.handleSize]
    exact show confCacheline ∣ confRegionHandleSize by decide

theorem Chunks.chunkSize_le (h : rca.Chunks) {r : Nat} (hr : r < rca.specs.numRegions) :
    rca.specs.chunkSize r ≤ 2 ^ confMaxRegionChunkSizeLog2 := by
  rw [← h.largest]
  exact h.ascending r _ (by omega) (by omega)

theorem Chunks.congr (h : rca.Chunks) (hsame : rca.SameLayout rca') : rca'.Chunks := by
  refine ⟨?_, ?_, ?_, ?_, ?_, ?_⟩
  · rw [hsame.specs]
    exact h.ascending
  · rw [hsame.specs]
    exact h.largest
  · rw [hsame.specs]
    exact h.least
  · rw [hsame.specs]
    intro r hr c
    rw [hsame.address]
    exact h.address r hr c
  · intro handle
    rw [hsame.handleAddress]
    exact h.handle handle
  · rw [hsame.specs]
    exact h.handleSize

end RegionChunkAllocator

/-! ### The bins -/

/-- The ranges of the step-split bins of `cuw3.cpp`. -/
structure FastArenaBinsInfo.Configured (info : FastArenaBinsInfo) : Prop where
  mins : info.Mins
  minAlignment : info.minArenaAlignmentLog2 = confFastArenaMinAlignmentLog2
  maxAlignment : info.maxArenaAlignmentLog2 = confFastArenaMaxAlignmentLog2
  globalMax : info.globalMaxAllocSize = 2 ^ confMaxRegionChunkSizeLog2
  minAllocSize_le : ∀ i < info.numAlignments, info.minAllocSize i ≤ confMinRegionChunkSize

/-- The ranges of the small bins of `cuw3.cpp`. -/
structure FastArenaSmallBins.Configured (bins : FastArenaSmallBins) : Prop where
  minAlignment : bins.minArenaAlignmentLog2 = confFastArenaMinAlignmentLog2
  maxAlignment : bins.maxArenaAlignmentLog2 = confFastArenaMaxAlignmentLog2
  cutoff : bins.sizeCutoff = confSizeCutoff

namespace ThreadLocalAllocator

/-- What `create` computes from the configuration of `cuw3.cpp`. -/
theorem create_eval : ((create cuw3CreateTlaConfig).run.toOption.bind Except.toOption).map
    (fun tla =>
    decide ((tla.stepSplitAllocator.bins.binsInfo.globalMaxAllocSize =
        2 ^ confMaxRegionChunkSizeLog2 ∧
        ∀ i < tla.stepSplitAllocator.bins.binsInfo.numAlignments,
          tla.stepSplitAllocator.bins.binsInfo.minAllocSize i ≤ confMinRegionChunkSize) ∧
      tla.smallAllocator.bins.minArenaAlignmentLog2 = confFastArenaMinAlignmentLog2 ∧
      tla.smallAllocator.bins.maxArenaAlignmentLog2 = confFastArenaMaxAlignmentLog2 ∧
      tla.smallAllocator.bins.sizeCutoff = confSizeCutoff)) = some true := by
  decide +kernel

theorem create_configured {tla : ThreadLocalAllocator}
    (h : (create cuw3CreateTlaConfig).Creates tla) :
    tla.stepSplitAllocator.bins.binsInfo.Configured ∧ tla.smallAllocator.bins.Configured := by
  have heval := create_eval
  have hrun : (create cuw3CreateTlaConfig).run.toOption.bind Except.toOption = some tla := by
    rw [h]
    rfl
  rw [hrun, Option.map_some, Option.some.injEq, decide_eq_true_eq] at heval
  obtain ⟨⟨hglobal, hmins⟩, hmin, hmax, hcutoff⟩ := heval
  simp only [create, FastArenaStepSplitAllocator.create, FastArenaBins.create, creates_bind,
    creates_lift,
    creates_pure] at h
  obtain ⟨_, ⟨_, ⟨info, hinfo, _, -, rfl⟩, _, -, rfl⟩, _, -, rfl⟩ := h
  obtain ⟨hinfoMin, hinfoMax⟩ := FastArenaBinsInfo.create_alignmentLog2 hinfo
  exact ⟨⟨FastArenaBinsInfo.create_mins hinfo (by decide), hinfoMin, hinfoMax, hglobal, hmins⟩,
    hmin, hmax, hcutoff⟩

end ThreadLocalAllocator

/-! ### Both kinds of bins -/

namespace RegionChunkType

variable {type : RegionChunkType} {heap : Heap} {bins : type.Bins} {size alignment p : Nat}

/-- The largest request that is made of the bins. -/
def limit : RegionChunkType → Nat
  | fastArenaStepSplitAllocator => 2 ^ confMaxRegionChunkSizeLog2
  | fastArenaSmallAllocator => confSizeCutoff

/-- The bins have the ranges of `cuw3.cpp`. -/
def Configured : (type : RegionChunkType) → type.Bins → Prop
  | fastArenaStepSplitAllocator, bins => bins.binsInfo.Configured
  | fastArenaSmallAllocator, bins => bins.Configured

theorem limit_le (type : RegionChunkType) : type.limit ≤ 2 ^ confMaxRegionChunkSizeLog2 := by
  cases type <;> decide

theorem Configured.same {bins' : type.Bins} (h : type.Configured bins)
    (hsame : type.Same bins bins') :
    type.Configured bins' := by
  cases type with
  | fastArenaStepSplitAllocator =>
    have hinfo : bins'.binsInfo = bins.binsInfo := hsame
    change bins'.binsInfo.Configured
    rw [hinfo]
    exact h
  | fastArenaSmallAllocator =>
    have hconfig : FastArenaSmallBins.SameConfig bins bins' := hsame
    change bins'.Configured
    rw [hconfig]
    exact ⟨h.minAlignment, h.maxAlignment, h.cutoff⟩

/-- The sizes and alignments of requests do not wrap. -/
theorem add_alignment_lt (hlimit : size ≤ type.limit) (halign : isAlignment alignment = true) :
    size + alignment - 1 < 2 ^ 64 := by
  have hle := hlimit.trans type.limit_le
  obtain ⟨k, hk, rfl⟩ := isAlignment_iff.mp halign
  have hpow : 2 ^ k ≤ 2 ^ 63 := Nat.pow_le_pow_right (by decide) (by omega)
  have hconf : 2 ^ confMaxRegionChunkSizeLog2 = 2 ^ 26 := rfl
  omega

/-- A request that is rounded up is not above the largest chunk. -/
theorem alignUp_le (hlimit : size ≤ type.limit) (halign : isAlignment alignment = true)
    (hmax : alignment ≤ 2 ^ confFastArenaMaxAlignmentLog2) :
    alignUp size alignment ≤ 2 ^ confMaxRegionChunkSizeLog2 := by
  refine alignUp_le_of_dvd (isAlignment_pos halign) ?_ (hlimit.trans type.limit_le)
  obtain ⟨k, -, rfl⟩ := isAlignment_iff.mp halign
  exact Nat.pow_dvd_pow 2 (((Nat.pow_le_pow_iff_right (by decide)).mp hmax).trans (by decide))

/-- The acquired arena has room for the request. -/
def Roomy (heap : Heap) (size : Nat) : AcquiredResource → Prop
  | .acquired p => (heap p).requiredSpace size ≤ (heap p).room
  | _ => True

/-- **The bins answer a request**: it fails above the largest alignment only, and an arena that it
gets has room for it. -/
theorem acquire_exists (hconf : type.Configured bins) (hwf : type.law.WellFormed heap bins)
    (hsmall : ∀ p ∈ type.law.held bins, (heap p).arenaMemorySize < 2 ^ 48)
    (halign : isAlignment alignment = true) (hmin : 2 ^ confFastArenaMinAlignmentLog2 ≤ alignment)
    (hpos : 0 < size) (hlimit : size ≤ type.limit) :
    ∃ r heap' bins', type.ops.acquire heap bins size alignment = .ok (r, heap', bins') ∧
      (r = .failed ↔ 2 ^ confFastArenaMaxAlignmentLog2 < alignment) ∧ Roomy heap' size r := by
  have hwrap := add_alignment_lt hlimit halign
  cases type with
  | fastArenaStepSplitAllocator =>
    have hinfo : bins.binsInfo.Configured := hconf
    have hbins : bins.WellFormed heap := hwf
    rw [← hinfo.minAlignment] at hmin
    by_cases hmax : alignment ≤ 2 ^ confFastArenaMaxAlignmentLog2
    · have hle := alignUp_le hlimit halign hmax
      rw [← hinfo.globalMax] at hle
      have hmax' := hmax
      rw [← hinfo.maxAlignment] at hmax'
      obtain ⟨r, heap', bins', hok, hacquires⟩ :=
        hbins.acquireArena_spec hinfo.mins hsmall halign hmin hmax' hpos hwrap
      refine ⟨r, heap', bins', hok, ?_⟩
      cases hacquires with
      | failed hgt => exact absurd hle (not_le.mpr hgt)
      | noResource => exact ⟨iff_of_false AcquiredResource.noConfusion (not_lt.mpr hmax), trivial⟩
      | @acquired p heap' bins' _ hp hroom htakes =>
        refine ⟨iff_of_false AcquiredResource.noConfusion (not_lt.mpr hmax), ?_⟩
        -- the arena has the alignment of the request
        have hid := hbins.config.locateAlignment_lt halign hmax'
        have hmember := ((hbins.entry _ hid).member p hp).2
        have heq : (heap p).arenaAlignment = alignment := by
          rw [hmember.alignment_eq, ← FastArenaBinsInfo.eq_of_locateAlignment halign hmin hid]
        have hspace : (heap p).requiredSpace size = alignUp size alignment := by
          rw [FastArena.requiredSpace_of_le (by rwa [heq]), heq]
        rw [Roomy, htakes.heap, FastArenaStepSplitEntry.setLinked, Function.update_self]
        exact hspace.le.trans hroom
    · have hgt := not_le.mp hmax
      refine ⟨.failed, heap, bins, ?_, ⟨fun _ => hgt, fun _ => rfl⟩, trivial⟩
      exact FastArenaBins.acquireArena_of_gt halign (by rwa [hinfo.maxAlignment])
  | fastArenaSmallAllocator =>
    have hranges : bins.Configured := hconf
    have hbins : bins.WellFormed heap := hwf
    obtain ⟨r, bins', hok, hfailed⟩ : ∃ r bins', bins.acquireFor heap size alignment =
      .ok (r, bins') ∧ _ :=
      hbins.acquireFor_exists halign
    rw [hranges.maxAlignment, hranges.cutoff] at hfailed
    refine ⟨r, heap, bins', ?_, ?_, ?_⟩
    · simp only [RegionChunkType.ops, FastArenaSmallAllocator.ops, FastArenaSmallBins.ops]
      rw [hok]
      rfl
    · rw [hfailed, not_and_or, not_le]
      exact or_iff_left (not_not.mpr hlimit)
    · have hacquired := (hbins.acquireFor hok).2.2
      cases r with
      | acquired p => exact hacquired.2.2.1
      | noResource => exact trivial
      | failed => exact trivial

/-- The bins take arenas of the alignments of requests. -/
theorem suitable_of_alignment (hconf : type.Configured bins) (hwf : type.law.WellFormed heap bins)
    {arena : FastArena} (htype : arena.type = type.val)
    (halign : isAlignment arena.arenaAlignment = true)
    (hmin : 2 ^ confFastArenaMinAlignmentLog2 ≤ arena.arenaAlignment)
    (hmax : arena.arenaAlignment ≤ 2 ^ confFastArenaMaxAlignmentLog2)
    (hsize : confMinRegionChunkSize ≤ arena.arenaMemorySize) : type.law.Suitable bins arena := by
  cases type with
  | fastArenaStepSplitAllocator =>
    have hinfo : bins.binsInfo.Configured := hconf
    have hbins : bins.WellFormed heap := hwf
    rw [← hinfo.minAlignment] at hmin
    rw [← hinfo.maxAlignment] at hmax
    have hid := hbins.config.locateAlignment_lt halign hmax
    refine ⟨htype, _, hid, FastArenaBinsInfo.eq_of_locateAlignment halign hmin hid, ?_⟩
    exact (hinfo.minAllocSize_le _ hid).trans hsize
  | fastArenaSmallAllocator =>
    have hranges : bins.Configured := hconf
    have hbins : bins.WellFormed heap := hwf
    obtain ⟨k, -, heq⟩ := isAlignment_iff.mp halign
    rw [heq, Nat.pow_le_pow_iff_right (by decide)] at hmin hmax
    have hnum := hbins.num
    rw [hranges.minAlignment, hranges.maxAlignment] at hnum
    refine ⟨htype, k - confFastArenaMinAlignmentLog2, by omega, ?_⟩
    rw [hranges.minAlignment, heq]
    congr 1
    omega

/-- **An arena outside of the bins serves a request that it has room for.** -/
theorem allocate_exists {alloc : ArenaAllocator type.Bins} {live : Nat → List Allocation}
    (h : type.law.Holds heap alloc.bins live) (hp : p ∉ type.law.held alloc.bins) (hpos : 0 < p)
    (hlt : p < 2 ^ 64) (hsuit : type.law.Suitable alloc.bins (heap p))
    (hlaw : (heap p).Law (live p))
    (hlinked : (heap p).linked = false) (hsize : 0 < size) (hlimit : size ≤ type.limit)
    (hready : (heap p).empty = true ∧ 0 < (heap p).requiredSpace size ∨
      (heap p).freed ≠ (heap p).top)
    (hroom : (heap p).requiredSpace size ≤ (heap p).room) :
    ∃ m heap' alloc', type.ops.allocate heap alloc p size = .ok (m, heap', alloc') := by
  have hsize64 : size < 2 ^ 64 := lt_of_le_of_lt (hlimit.trans type.limit_le) (by decide)
  have hbusy : (heap p).freed ≠ (heap p).top ∨ 0 < (heap p).requiredSpace size :=
    hready.symm.imp_right And.right
  have hserves := fun fmt =>
    h.allocateFrom_exists fmt hp hpos hlt hsuit hlaw hlinked hsize hsize64 hbusy hroom
  have hkind := type.law.type hsuit
  cases type with
  | fastArenaStepSplitAllocator =>
    have hnotInList : (!(heap p).inList) = true := by rw [FastArena.inList, hlinked, Bool.not_false]
    have hfresh : (heap p).empty = true ∨ (!(heap p).resettable) = true := by
      refine hready.imp And.left fun hne => ?_
      rw [Bool.not_eq_true', Bool.eq_false_iff, ne_eq, FastArena.resettable_eq_true]
      exact hne
    obtain ⟨m, heap', alloc', hok⟩ := hserves "arena must have had enough space"
    refine ⟨m, heap', alloc', ?_⟩
    change FastArenaStepSplitAllocator.allocate heap alloc p size = _
    simp only [FastArenaStepSplitAllocator.allocate, check_of hpos.ne', check_of hsize.ne',
      check_of hnotInList, check_of hfresh, ok_bind]
    exact hok
  | fastArenaSmallAllocator =>
    change ∃ m heap' alloc', FastArenaSmallAllocator.allocate heap alloc p size = _
    simp only [FastArenaSmallAllocator.allocate, check_of hpos.ne', check_of hsize.ne', ok_bind]
    split_ifs
    · exact ⟨_, _, _, rfl⟩
    · exact ⟨_, _, _, rfl⟩
    · have hkind : (heap p).type = fastArenaSmallAllocator.val := hkind
      obtain ⟨m, heap', alloc', hok⟩ := hserves "invariant violation: we cannot allocate proper size"
      refine ⟨m, heap', alloc', ?_⟩
      rw [check_of hkind, ok_bind]
      exact hok

end RegionChunkType

/-! ### New arenas -/

namespace Allocator

variable {threads : List Nat} {w : World} {alloc alloc' : Allocator} {t p size alignment : Nat}
  {type : RegionChunkType}

/-- An arena is made over an aligned chunk. -/
theorem constructArena_exists {memory : RegionChunkMemory} (ht : 0 < t)
    (howner : regionOwnerAlignment ∣ t) (hhandle : 0 < memory.handle)
    (hline : confCacheline ∣ memory.handle) (hhandleSize : memory.handleSize = confControlBlockSize)
    (hchunk : 0 < memory.chunk) (haddress : confMinRegionChunkSize ∣ memory.chunk)
    (hsize : confMinRegionChunkSize ∣ memory.chunkSize) (halign : isAlignment alignment = true)
    (hmin : 2 ^ confFastArenaMinAlignmentLog2 ≤ alignment)
    (hmax : alignment ≤ 2 ^ confFastArenaMaxAlignmentLog2) :
    ∃ arena, (constructArena t memory alignment type.val).Creates arena := by
  -- every alignment divides the least chunk size
  have hdvd : alignment ∣ confMinRegionChunkSize := by
    obtain ⟨k, -, rfl⟩ := isAlignment_iff.mp halign
    exact Nat.pow_dvd_pow 2 (((Nat.pow_le_pow_iff_right (by decide)).mp hmax).trans (by decide))
  have hfits : (⟨memory.handle, memory.handleSize⟩ : Memory).fits confControlBlockSize
      confCacheline =
      .ok true := by
    have hnot : ¬(memory.handle = 0 ∨ memory.handleSize < confControlBlockSize) := by omega
    rw [Memory.fits]
    simp only [if_neg hnot]
    rw [isAligned_eq (show isAlignment confCacheline = true by decide), decide_eq_true hline]
  have hpack : RegionChunkHandleHeader.pack t type.val = .ok (t ||| type.val) := by
    have hmask : not64 (AlignmentPackedInt.valueMask regionChunkHandleHeaderDataBits) =
      2 ^ 6 - 1 := by
      decide
    have hvalue : t &&& not64 (AlignmentPackedInt.valueMask regionChunkHandleHeaderDataBits) =
      0 := by
      rw [hmask, and_two_pow_sub_one]
      exact Nat.mod_eq_zero_of_dvd howner
    have hdata : type.val &&& not64
        (AlignmentPackedInt.alignmentMask regionChunkHandleHeaderDataBits) =
        0 := by
      cases type <;> decide
    rw [RegionChunkHandleHeader.pack, AlignmentPackedInt.packed, assert_of hvalue, assert_of hdata]
    rfl
  simp only [constructArena, FastArena.create, creates_bind, creates_lift, creates_checkReturnVal,
    creates_pure, exists_const]
  refine ⟨_, true, hfits, rfl, ht.ne', hchunk.ne', ⟨halign, hmin⟩, _, isAligned_eq halign,
    decide_eq_true (hdvd.trans hsize), _, isAligned_eq halign, decide_eq_true (hdvd.trans haddress),
      _,
    hpack, _, rfl, rfl⟩

/-- **`acquire_new_arena_` passes its checks**; an arena that it returns has room for the request.
-/
theorem Inv.acquireNewArena_exists (h : Inv threads w) (ht : t ∈ threads)
    (hchunks : w.alloc.rca.Chunks) (hpos : 0 < t) (howner : regionOwnerAlignment ∣ t)
    (halign : isAlignment alignment = true) (hmin : 2 ^ confFastArenaMinAlignmentLog2 ≤ alignment)
    (hmax : alignment ≤ 2 ^ confFastArenaMaxAlignmentLog2) (hwrap : size + alignment - 1 < 2 ^ 64)
    (commitOk : Bool) :
    ∃ p alloc', w.alloc.acquireNewArena commitOk t size alignment type.val = .ok (p, alloc') ∧
      (p ≠ 0 → alignUp size alignment ≤ (alloc'.heap p).arenaMemorySize ∧
        confMinRegionChunkSize ≤ (alloc'.heap p).arenaMemorySize) := by
  obtain ⟨c, alloc₁, hok, -, hsome⟩ := allocateChunk_finds (h.chunks.quiet ht) halign hwrap commitOk
  unfold Allocator.acquireNewArena
  simp only [hok, ok_bind]
  cases hvalid : c.valid with
  | false => exact ⟨0, alloc₁, rfl, fun hne => absurd rfl hne⟩
  | true =>
    obtain ⟨hplaced, -, hfits⟩ := hsome hvalid
    obtain ⟨hholds, hframe, -⟩ := h.chunks.allocateChunk ht hok
    have hl := hholds.pools.toLayout
    have hm := hholds.mapped
    have hplaced' : alloc₁.rca.Placed c := hframe.rca.placed.mpr hplaced
    have hchunks' := hchunks.congr hframe.rca
    have hhandle := RegionChunkAllocator.handleAddress_bounds hm
      (hplaced'.toInSplit.lt_numHandles hl)
    have hleast := hchunks'.least _ hplaced'.region_lt
    have haddress := hchunks'.address _ hplaced'.region_lt c.chunk
    have hchunkPos : 0 < alloc₁.rca.address c.region c.chunk 0 := (hplaced'.block_bounds hl hm).1
    let memory : RegionChunkMemory := ⟨alloc₁.rca.address c.region c.chunk 0,
      2 ^ (alloc₁.rca.specs.regionSpec c.region).chunkSizeLog2, alloc₁.rca.handleAddress c.handle,
      alloc₁.rca.specs.handleSize⟩
    have hmemory : alloc₁.rca.chunkAllocationToMemory c = .ok memory :=
      RegionChunkAllocator.chunkAllocationToMemory_eq hl hm hplaced'
    obtain ⟨arena, hcreate⟩ : ∃ arena, (constructArena t memory alignment type.val).Creates arena :=
      constructArena_exists hpos howner hhandle.1 (hchunks'.handle _) hchunks'.handleSize hchunkPos
        haddress hleast halign hmin hmax
    have hsize : arena.arenaMemorySize = alloc₁.rca.specs.chunkSize c.region :=
      (constructArena_spec (h.address t ht) (address_add_lt hl hm hplaced') hcreate).size
    have hrun : (constructArena t memory alignment type.val).run = .ok (.ok arena) := hcreate
    simp only [Bool.not_true, Bool.false_eq_true, if_false, hmemory, hrun, ok_bind]
    refine ⟨_, _, rfl, fun _ => ?_⟩
    dsimp only
    rw [Function.update_self, hsize]
    rw [hframe.rca.specs] at hleast ⊢
    exact ⟨hfits hchunks.ascending, Nat.le_of_dvd (Nat.two_pow_pos _) hleast⟩

/-! ### Requests -/

/-- What a thread needs so that its requests are answered. -/
structure Ready (alloc : Allocator) (t : Nat) : Prop where
  chunks : alloc.rca.Chunks
  pos : 0 < t
  aligned : regionOwnerAlignment ∣ t
  configured : ∀ type : RegionChunkType, type.Configured ((alloc.tlas t).allocator type).bins

/-- The arenas in the bins are no larger than a chunk. -/
theorem Inv.arenaMemorySize_lt (h : Inv threads w) (ht : t ∈ threads) (hchunks : w.alloc.rca.Chunks)
    (hp : p ∈ (w.alloc.tlas t).held type) : (w.alloc.heap p).arenaMemorySize < 2 ^ 48 := by
  obtain ⟨c, hc⟩ := (h.kind t ht type).backed p hp
  rw [hc.size]
  exact lt_of_le_of_lt (hchunks.chunkSize_le hc.placed.region_lt) (by decide)

/-- The arena that the bins gave serves the request. -/
theorem Inv.allocateHeld_exists (h : Inv threads w) (ht : t ∈ threads) {heap₁ : Heap}
    {bins : type.Bins}
    (hpos : 0 < size) (hlimit : size ≤ type.limit)
    (hacquire : type.ops.acquire w.alloc.heap ((w.alloc.tlas t).allocator type).bins size
      alignment =
      .ok (.acquired p, heap₁, bins))
    (hroom : (heap₁ p).requiredSpace size ≤ (heap₁ p).room) :
    ∃ m heap allocator, type.ops.allocate heap₁ { (w.alloc.tlas t).allocator type with bins } p
      size =
      .ok (m, heap, allocator) := by
  have hkind := h.kind t ht type
  obtain ⟨hframe, hwf, hperm, hlinked, hserves⟩ := type.law.acquire hkind.holds.wf hacquire
  obtain ⟨hholds, hp, hnot⟩ := hkind.holds.taken hframe hwf hperm
  obtain ⟨⟨hp0, hp64⟩, hsuit, -⟩ := type.law.member hkind.holds.wf hp
  have hlaw := hframe.links.law (hkind.holds.arena p hp)
  have hbusy : (heap₁ p).freed ≠ (heap₁ p).top := by
    rw [hframe.links p]
    exact hkind.holds.busy p hp
  have hsuit' : type.law.Suitable bins (heap₁ p) := by
    rw [hframe.suitable]
    exact type.law.suitable_congr (hframe.links.sameBlock p) hsuit
  have hholds' : type.law.Holds heap₁ ({ (w.alloc.tlas t).allocator type with bins } :
      ArenaAllocator type.Bins).bins fun p => (w.alloc.heap p).liveIn w.live := hholds
  exact RegionChunkType.allocate_exists hholds' hnot hp0 hp64 hsuit' hlaw hlinked hpos hlimit
    (.inr hbusy) hroom

/-- A new arena serves the request it was made for. -/
theorem NewArena.allocate_exists (hnew : NewArena threads w alloc' t p alignment type)
    (ht : t ∈ threads)
    (hconf : type.Configured ((w.alloc.tlas t).allocator type).bins)
    (halign : isAlignment alignment = true) (hmin : 2 ^ confFastArenaMinAlignmentLog2 ≤ alignment)
    (hmax : alignment ≤ 2 ^ confFastArenaMaxAlignmentLog2) (hpos : 0 < size)
    (hlimit : size ≤ type.limit)
    (hfits : alignUp size alignment ≤ (alloc'.heap p).arenaMemorySize)
    (hleast : confMinRegionChunkSize ≤ (alloc'.heap p).arenaMemorySize) :
    ∃ m heap allocator, type.ops.allocate alloc'.heap ((alloc'.tlas t).allocator type) p size =
      .ok (m, heap, allocator) := by
  obtain ⟨memory, hcons⟩ := hnew.constructed
  obtain ⟨c, hhand⟩ := hnew.hand
  have hkind := hhand.kind t ht type
  have hallocator := hnew.allocators t type
  have hnot : p ∉ type.law.held ((alloc'.tlas t).allocator type).bins :=
    fun hp => hhand.not_held ⟨t, ht, type, hp⟩ rfl
  have hbounds := RegionChunkAllocator.handleAddress_bounds hhand.chunks.mapped
    (hhand.flight.placed.toInSplit.lt_numHandles hhand.chunks.pools.toLayout)
  rw [← hhand.backed.address] at hbounds
  have hsuit : type.law.Suitable ((alloc'.tlas t).allocator type).bins (alloc'.heap p) := by
    rw [← hallocator] at hconf
    refine RegionChunkType.suitable_of_alignment hconf hkind.holds.wf hcons.type ?_ ?_ ?_ hleast
    all_goals rwa [hcons.alignment]
  have hlaw : (alloc'.heap p).Law ((alloc'.heap p).liveIn w.live) := hnew.empty.symm ▸ hcons.law
  have hspace : (alloc'.heap p).requiredSpace size = alignUp size alignment := by
    have hwrap := RegionChunkType.add_alignment_lt hlimit halign
    rw [← hcons.alignment] at hwrap ⊢
    exact FastArena.requiredSpace_of_le hwrap
  have hempty : (alloc'.heap p).empty = true := by
    have hfreed : (alloc'.heap p).freed = 0 := by
      have hacc := hcons.law.accounted
      have htop := hcons.top
      omega
    rw [FastArena.empty, hfreed, hcons.top]
    rfl
  refine RegionChunkType.allocate_exists hkind.holds hnot hbounds.1 hbounds.2 hsuit hlaw
    hcons.linked
    hpos hlimit (.inl ⟨hempty, ?_⟩) ?_
  · rw [hspace]
    exact alignUp_pos (isAlignment_pos halign) hpos
  · rw [hspace, FastArena.room, hcons.top]
    exact hfits

/-- **A request to one of the allocators of a thread passes all checks.** -/
theorem Inv.allocateWith_exists (h : Inv threads w) (ht : t ∈ threads) (hready : w.alloc.Ready t)
    (halign : isAlignment alignment = true) (hmin : 2 ^ confFastArenaMinAlignmentLog2 ≤ alignment)
    (hpos : 0 < size) (hlimit : size ≤ type.limit) (commitOk : Bool) :
    ∃ r alloc', w.alloc.allocateWith commitOk t type size alignment = .ok (r, alloc') ∧
      (r = .failed ↔ 2 ^ confFastArenaMaxAlignmentLog2 < alignment) := by
  have hkind := h.kind t ht type
  have hconf := hready.configured type
  obtain ⟨r, heap₁, bins, hacquire, hfailed, hroom⟩ := RegionChunkType.acquire_exists hconf
    hkind.holds.wf (fun p hp => h.arenaMemorySize_lt ht hready.chunks hp) halign hmin hpos hlimit
  unfold Allocator.allocateWith
  simp only [hacquire, ok_bind]
  cases r with
  | failed => exact ⟨_, _, rfl, hfailed⟩
  | acquired p =>
    obtain ⟨m, heap, allocator, hallocate⟩ :=
      h.allocateHeld_exists ht hpos hlimit hacquire hroom
    simp only [withAllocator_heap, allocator_withAllocator_self, hallocate, ok_bind]
    exact ⟨_, _, rfl, iff_of_false AcquiredResource.noConfusion fun hgt => nomatch hfailed.mpr hgt⟩
  | noResource =>
    have hmax : alignment ≤ 2 ^ confFastArenaMaxAlignmentLog2 :=
      not_lt.mp fun hgt => nomatch hfailed.mpr hgt
    obtain ⟨hframe, hwf, hperm⟩ := type.law.acquire hkind.holds.wf hacquire
    have hinv := h.acquireNone ht hframe hwf hperm
    obtain ⟨p, alloc₁, hok, hfits⟩ : ∃ p alloc', (w.alloc.withAllocator t type heap₁
        { (w.alloc.tlas t).allocator type with bins }).acquireNewArena commitOk t size alignment
          type.val =
          .ok (p, alloc') ∧ _ :=
      hinv.acquireNewArena_exists ht hready.chunks hready.pos hready.aligned halign hmin hmax
        (RegionChunkType.add_alignment_lt hlimit halign) commitOk
    simp only [hok, ok_bind]
    obtain ⟨c, alloc₂, -, ⟨rfl, -⟩ | ⟨hp, hnew, -⟩⟩ := hinv.acquireNewArena ht hok
    · exact ⟨_, _, rfl, iff_of_false AcquiredResource.noConfusion (not_lt.mpr hmax)⟩
    · have hconf' : type.Configured (((w.alloc.withAllocator t type heap₁
          { (w.alloc.tlas t).allocator type with bins }).tlas t).allocator type).bins := by
        rw [allocator_withAllocator_self]
        exact hconf.same (RegionChunkType.acquire_same hacquire)
      obtain ⟨m, heap, allocator, hallocate⟩ := hnew.allocate_exists ht hconf' halign hmin hmax hpos
        hlimit (hfits hp).1 (hfits hp).2
      simp only [if_neg hp, hallocate, ok_bind]
      exact ⟨_, _, rfl, iff_of_false AcquiredResource.noConfusion (not_lt.mpr hmax)⟩

/-- **A request of an alignment that is not below the least one passes all checks**; it fails above
the largest alignment only. -/
theorem Inv.allocate_exists (h : Inv threads w) (ht : t ∈ threads) (hready : w.alloc.Ready t)
    (halign : isAlignment alignment = true) (hmin : 2 ^ confFastArenaMinAlignmentLog2 ≤ alignment)
    (hsize : size ≤ w.alloc.maxAllocSize t) (commitOk : Bool) :
    ∃ r alloc', w.alloc.allocate commitOk t size alignment = .ok (r, alloc') ∧
      (r = .failed ↔ 2 ^ confFastArenaMaxAlignmentLog2 < alignment) := by
  have hstep : (w.alloc.tlas t).stepSplitAllocator.bins.binsInfo.Configured :=
    hready.configured .fastArenaStepSplitAllocator
  have hsmall : (w.alloc.tlas t).smallAllocator.bins.Configured :=
    hready.configured .fastArenaSmallAllocator
  have hcutoff : (w.alloc.tlas t).smallAllocator.getSizeCutoff = confSizeCutoff := hsmall.cutoff
  rw [maxAllocSize, hcutoff, hstep.globalMax] at hsize
  have hpos : 0 < max size 1 := by omega
  unfold Allocator.allocate
  simp only [halign, Bool.not_true, Bool.false_eq_true, if_false, hcutoff]
  split_ifs with hle
  · have hlimit : max size 1 ≤ RegionChunkType.fastArenaSmallAllocator.limit := hle
    exact h.allocateWith_exists ht hready halign hmin hpos hlimit commitOk
  · have hlimit : max size 1 ≤ RegionChunkType.fastArenaStepSplitAllocator.limit := by
      refine max_le (hsize.trans (max_le ?_ le_rfl)) ?_ <;> decide
    exact h.allocateWith_exists ht hready halign hmin hpos hlimit commitOk

end Allocator

/-! ### Runs of a process -/

namespace Process

open Allocator

variable {p p' : Process} {t size alignment vmemHugePageSize : Nat}

/-- The layout of the chunks never changes. -/
theorem sameLayout_step {a : Action} (hinv : p.Inv) (hstep : Step p a p') :
    p.alloc.rca.SameLayout p'.alloc.rca := by
  cases hstep with
  | allocate ht hsize hok =>
    obtain ⟨-, -, type, hallocates⟩ := hinv.world.allocate ht.mem hsize hok
    exact hallocates.block.1
  | deallocate ht hl howner hok =>
    exact ((hinv.world.deallocate hl howner hok).2.block hinv.world).1
  | reclaim ht hok =>
    have hsame := hinv.world.reclaim_eq ht.mem
    dsimp only [Process.world] at hsame
    rw [hsame] at hok
    obtain ⟨-, rfl⟩ := Prod.mk.inj (Option.some.inj (Except.ok.inj hok))
    exact .refl _
  | thisTlaCleanup ht hok =>
    obtain ⟨hsame, -⟩ := GraveAllocator.thisTlaCleanup_same hinv.world ht.mem hok
    dsimp only
    rw [hsame]
    exact .refl _
  | graveTlaCleanup ht hok =>
    cases GraveAllocator.graveTlaCleanup_cases hinv.world hinv.dead_pos hok with
    | none hsame hqueue =>
      dsimp only
      rw [hsame]
      exact .refl _
    | emptied hvisits hqueue hempty hfrees hqueue' =>
      have hdead := hinv.dead _ (hqueue ▸ List.mem_cons_self)
      exact (hinv.freeTlaResources hdead hfrees).2.frame.rca
    | kept hvisits hfrees hqueue =>
      have hdead := hinv.dead _ (GraveAllocator.mem_of_visits hvisits)
      exact (hinv.freeTlaResources hdead hfrees).2.frame.rca
  | freeTlaResources ht hok => exact (hinv.freeTlaResources ht.mem hok).2.frame.rca
  | destroyTla ht hok =>
    simp only [GraveAllocator.destroyTla, bind_eq_ok, pure_eq_ok] at hok
    obtain ⟨allocator, hfrees, rfl⟩ := hok
    exact (hinv.freeTlaResources (hinv.released _ ht).1 hfrees).2.frame.rca
  | start hmem hlt hstepMin hsmallMin hok =>
    cases GraveAllocator.createTla_cases (fun d hd => (hinv.dead_pos d hd).2) hok with
    | none => exact .refl _
    | snatched hqueue hsame hqueue' =>
      dsimp only
      rw [hsame]
      exact .refl _
    | created hpos hcreate hnew hqueue =>
      dsimp only
      rw [hnew]
      exact .refl _
  | exit ht hok =>
    cases GraveAllocator.exitThread_cases hinv.world ht.mem hok with
    | destroyed hempty hfrees hqueue => exact (hinv.freeTlaResources ht.mem hfrees).2.frame.rca
    | buried => exact .refl _

/-- The allocator and the threads that start are configured as in `cuw3.cpp`. -/
def Configured (vmemHugePageSize : Nat) (p : Process) (a : Action) : Prop :=
  p.alloc.rca.ConfiguredBy (cuw3CreateRcaAllocSpecsConfig vmemHugePageSize) ∧
    StartsWith cuw3CreateTlaConfig p a

theorem Reachable.mono {meets meets' : Process → Action → Prop} (h : Reachable meets p)
    (hmeets : ∀ p a, meets p a → meets' p a) : Reachable meets' p := by
  induction h with
  | init h => exact .init h
  | step hprev hmeet hstep ih => exact .step ih (hmeets _ _ hmeet) hstep

theorem reachable_chunks (hreach : Reachable (Configured vmemHugePageSize) p) (ht : t ∈ p.tlas) :
    p.alloc.rca.Chunks := by
  cases hreach with
  | init h =>
    rw [h.tlas] at ht
    cases ht
  | step hprev hmeets hstep =>
    have hinv := hprev.inv
    have hchunks := hmeets.1.chunks hinv.world.chunks.pools.toLayout
    exact hchunks.congr (sameLayout_step hinv hstep)

/-- Each thread is ready for requests in every state of a run. -/
theorem reachable_ready (hreach : Reachable (Configured vmemHugePageSize) p) (ht : t ∈ p.tlas) :
    p.alloc.toAllocator.Ready t := by
  obtain ⟨haligned, tla, hcreate, hsame⟩ :=
    reachable_configured (hreach.mono fun _ _ hmeets => hmeets.2) t ht
  obtain ⟨hstep, hsmall⟩ := ThreadLocalAllocator.create_configured hcreate
  refine ⟨reachable_chunks hreach ht, hreach.inv.positive t ht, haligned, fun type => ?_⟩
  have hnew : type.Configured (tla.allocator type).bins := by
    cases type with
    | fastArenaStepSplitAllocator => exact hstep
    | fastArenaSmallAllocator => exact hsmall
  exact hnew.same (hsame type)

/-! ### A new process -/

/-- The layout of `cuw3.cpp`, with huge pages of 2 MiB. -/
def cuw3Specs : RegionChunkAllocatorSpecs :=
  { regionSpecs := [⟨0, 2 ^ 36, 21, 7, 0, 32768⟩, ⟨2 ^ 36, 2 ^ 36, 22, 7, 32768, 16384⟩,
      ⟨2 * 2 ^ 36, 2 ^ 36, 23, 7, 49152, 8192⟩, ⟨3 * 2 ^ 36, 2 ^ 36, 24, 7, 57344, 4096⟩,
      ⟨4 * 2 ^ 36, 2 ^ 36, 25, 7, 61440, 2048⟩, ⟨5 * 2 ^ 36, 2 ^ 36, 26, 7, 63488, 1024⟩]
    chunkSizeSearchSentinels := [2 ^ 21, 2 ^ 22, 2 ^ 23, 2 ^ 24, 2 ^ 25, 2 ^ 26]
    regionSearchSentinels := [2 ^ 36, 2 * 2 ^ 36, 3 * 2 ^ 36, 4 * 2 ^ 36, 5 * 2 ^ 36, 6 * 2 ^ 36]
    totalRegionsSize := 6 * 2 ^ 36
    regionAlignment := 2 ^ 21, regionSize := 2 ^ 36, regionSizeLog2 := 36, numRegions := 6
    totalHandlesSize := 64512 * 128, handleAlignment := 64, handleSize := 128, handleSizeLog2 := 7
    numHandles := 64512 }

def cuw3Process : Process :=
  { sampleProcess with
    alloc := { sampleProcess.alloc with
      rca := {
        specs := cuw3Specs, pools := .build cuw3Specs 16, regions := 2 ^ 40, handles := 2 ^ 21
        poolHandles := fun _ => regionChunkPoolNullLink } } }

theorem cuw3Process_configured :
    cuw3Process.alloc.rca.ConfiguredBy (cuw3CreateRcaAllocSpecsConfig (2 ^ 21)) := by
  refine ⟨rfl, ?_, ?_⟩ <;> decide

theorem cuw3Process_init : Init cuw3Process where
  fresh := {
    specs := ⟨_, cuw3Process_configured.specs⟩
    pools := ⟨16, rfl⟩
    fits := ⟨by decide, by decide⟩
    mapped := ⟨⟨by decide, by decide, by decide⟩, by decide⟩
    threads_nodup := by decide
    address := by decide
    tlas := fun _ h => nomatch h }
  reserved _ := rfl
  graveyard := rfl
  tlas := rfl
  released := rfl
  live := rfl
  foreign := rfl

/-- A new thread gets no block for an alignment below the least one: the process is aborted. -/
theorem exists_new : ∃ p, Reachable (Configured (2 ^ 21)) p ∧ p.Running 64 ∧
    1 ≤ p.alloc.toAllocator.maxAllocSize 64 ∧
    ∀ alignment ∈ [1, 2, 4, 8], p.alloc.toAllocator.allocate true 64 1 alignment =
      .error ⟨"failed to construct small arena"⟩ := by
  have hrun : (cuw3Process.exec 1 (.start cuw3CreateTlaConfig 64)).map (fun p =>
      decide (p.Running 64 ∧ 1 ≤ p.alloc.toAllocator.maxAllocSize 64) &&
        [1, 2, 4, 8].all fun alignment => match p.alloc.toAllocator.allocate true 64 1
        alignment with
          | .ok _ => false
          | .error e => e == ⟨"failed to construct small arena"⟩) = some true := by
    decide +kernel
  obtain ⟨p, hexec, hp⟩ := Option.map_eq_some_iff.mp hrun
  obtain ⟨hp, habort⟩ := Bool.and_eq_true_iff.mp hp
  obtain ⟨ht, hmax⟩ := of_decide_eq_true hp
  have hmeets : Configured (2 ^ 21) cuw3Process (.start cuw3CreateTlaConfig 64) :=
    ⟨cuw3Process_configured, rfl, by decide⟩
  refine ⟨p, (Reachable.init cuw3Process_init).step hmeets (step_of_exec hexec), ht, hmax,
    fun alignment hmem => ?_⟩
  have habort := List.all_eq_true.mp habort alignment hmem
  split at habort
  · cases habort
  · next e heq => rw [heq, eq_of_beq habort]

/-- **A request is answered in every state of a run if its alignment is not below the least one**,
and it fails then for an alignment above the largest one only.  For an alignment below the least
one, a new thread aborts. -/
theorem answers_iff (halign : isAlignment alignment = true) :
    (∀ vmemHugePageSize p t commitOk size, Reachable (Configured vmemHugePageSize) p → p.Running t →
      size ≤ p.alloc.toAllocator.maxAllocSize t →
      ∃ r alloc', p.alloc.toAllocator.allocate commitOk t size alignment = .ok (r, alloc') ∧
        (r = .failed ↔ 2 ^ confFastArenaMaxAlignmentLog2 < alignment)) ↔
      2 ^ confFastArenaMinAlignmentLog2 ≤ alignment := by
  constructor
  · intro h
    obtain ⟨p, hreach, ht, hmax, habort⟩ := exists_new
    obtain ⟨r, alloc', hok, -⟩ := h _ p 64 true 1 hreach ht hmax
    by_contra hlt
    have hmem : alignment ∈ [1, 2, 4, 8] := by
      obtain ⟨k, -, rfl⟩ := isAlignment_iff.mp halign
      have hk : k < 4 := (Nat.pow_lt_pow_iff_right (by decide)).mp (not_le.mp hlt)
      have hall : ∀ k < 4, 2 ^ k ∈ [1, 2, 4, 8] := by decide
      exact hall k hk
    rw [habort alignment hmem] at hok
    cases hok
  · intro hmin vmemHugePageSize p t commitOk size hreach ht hsize
    exact hreach.inv.world.allocate_exists ht.mem (reachable_ready hreach ht.mem) halign hmin hsize
      commitOk

/-- A new thread gets an answer for the alignment of 16 bytes, and it is not a failure. -/
theorem answers_iff_sample : ∃ p, Reachable (Configured (2 ^ 21)) p ∧ p.Running 64 ∧
    ∃ r alloc', p.alloc.toAllocator.allocate true 64 1 16 = .ok (r, alloc') ∧ r ≠ .failed := by
  obtain ⟨p, hreach, ht, hmax, -⟩ := exists_new
  obtain ⟨r, alloc', hok, hfailed⟩ := (answers_iff (show isAlignment 16 = true by decide)).mpr
    (by decide) _ p 64 true 1 hreach ht hmax
  exact ⟨p, hreach, ht, r, alloc', hok, fun hr => absurd (hfailed.mp hr) (by decide)⟩

/-- **An alignment below the least one aborts a new thread.** -/
theorem not_answers : ¬ ∀ vmemHugePageSize p t commitOk size alignment,
    Reachable (Configured vmemHugePageSize) p → p.Running t →
    size ≤ p.alloc.toAllocator.maxAllocSize t → isAlignment alignment = true →
    ∃ r alloc', p.alloc.toAllocator.allocate commitOk t size alignment = .ok (r, alloc') := by
  intro h
  obtain ⟨p, hreach, ht, hmax, habort⟩ := exists_new
  obtain ⟨r, alloc', hok⟩ := h _ p 64 true 1 8 hreach ht hmax (by decide)
  rw [habort 8 (by decide)] at hok
  cases hok

end Process

end Cuw3
