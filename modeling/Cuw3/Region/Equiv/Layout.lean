/-
  The layout that `RegionChunkAllocatorSpecs::create` builds, and the lookups that invert it.

  `RegionChunkAllocatorSpecs.WellFormed` collects what `create` establishes when byte offsets fit 64
  bits and there are at most `2^31` handles (`create_wellFormed`): byte ranges and handle ranges of
  the regions tile their spaces, the chunks of a region fit it, the sentinels are the range ends.
  From it:

  * `searchHostingRegion_eq`, `shiftRegion_eq`: both region lookups find the region of an offset;
  * `locateChunk_eq`: an offset into chunk `c` of region `r` is located as chunk `c` of region `r`;
  * `searchPoolSplit_eq`: the split search finds the split whose handle range holds the handle;
  * `ptrToAllocation_layout`: all of it together, from the pointer.
-/
import Cuw3.Region.Specs
import Cuw3.Base.Equiv.Funcs
import Cuw3.Lib.Tiling

namespace Cuw3

open Lib

namespace RegionSpec

/-- The byte offsets of a region. -/
def byteRange (spec : RegionSpec) : Nat × Nat :=
  (spec.regionOffset, spec.regionOffset + spec.regionSize)

/-- The handles of a region. -/
def handleRange (spec : RegionSpec) : Nat × Nat :=
  (spec.handleOffset, spec.handleOffset + spec.numHandles)

end RegionSpec

/-! ### Rounding a region size -/

/-- The larger of two powers of two is a multiple of both. -/
theorem alignUp_two_pow (s k : Nat) : alignUp (2 ^ s) (2 ^ k) = 2 ^ max s k := by
  rcases Nat.le_total k s with h | h
  · rw [Nat.max_eq_left h]
    exact alignUp_of_dvd (Nat.two_pow_pos k) (Nat.pow_dvd_pow 2 h)
  · rw [Nat.max_eq_right h]
    refine le_antisymm
      (alignUp_le_of_dvd (Nat.two_pow_pos k) dvd_rfl (Nat.pow_le_pow_right (by omega) h)) ?_
    exact Nat.le_of_dvd (alignUp_pos (Nat.two_pow_pos k) (Nat.two_pow_pos s)) (alignUp_dvd _ _)

theorem align_two_pow {s k : Nat} (hs : s < 64) (hk : k < 64) :
    align (2 ^ s) (2 ^ k) = .ok (2 ^ max s k) := by
  have h1 : 2 ^ s ≤ 2 ^ 63 := Nat.pow_le_pow_right (by omega) (by omega)
  have h2 : 2 ^ k ≤ 2 ^ 63 := Nat.pow_le_pow_right (by omega) (by omega)
  have h3 : 0 < 2 ^ k := Nat.two_pow_pos k
  rw [align_of_le (isAlignment_two_pow hk) (by omega), alignUp_two_pow]

theorem allEqual_iff : ∀ {l : List Nat}, allEqual l = true ↔ ∀ s ∈ l, s = l.getD 0 0
  | [] => by simp [allEqual]
  | [a] => by simp [allEqual]
  | a :: b :: rest => by
    rw [allEqual, Bool.and_eq_true, allEqual_iff]
    simp only [beq_iff_eq, List.mem_cons, List.getD_cons_zero, forall_eq_or_imp, true_and]
    constructor
    · rintro ⟨rfl, h⟩
      exact ⟨rfl, h⟩
    · rintro ⟨rfl, h⟩
      exact ⟨rfl, h⟩

/-! ### The loop of `create` -/

/-- What one region's spec satisfies: its chunks fit it, and its size is the rounded power of two.
-/
structure RegionSpec.FromSizes (regionAlignmentLog2 : Nat) (spec : RegionSpec) (sizes : Nat × Nat) :
    Prop where
  region_lt : sizes.1 < 64
  chunk_lt : spec.chunkSizeLog2 < 64
  chunk_eq : spec.chunkSizeLog2 = sizes.2
  size_eq : spec.regionSize = 2 ^ max sizes.1 regionAlignmentLog2
  num_eq : spec.numHandles = u32 (spec.regionSize / 2 ^ spec.chunkSizeLog2)

theorem createRegions_spec {k hl : Nat} (hk : k < 64) :
    ∀ {l : List (Nat × Nat)} {ho ro : Nat} {specs : List RegionSpec} {cs rs : List Nat}
      {hoEnd roEnd : Nat},
      RegionChunkAllocatorSpecs.createRegions (2 ^ k) hl l ho ro =
        .ok (specs, cs, rs, hoEnd, roEnd) →
      ro + (specs.map RegionSpec.regionSize).sum < 2 ^ 64 →
      ho + (specs.map RegionSpec.numHandles).sum < 2 ^ 32 →
      Tiles ro roEnd (specs.map RegionSpec.byteRange) ∧
      Tiles ho hoEnd (specs.map RegionSpec.handleRange) ∧
      rs = specs.map (fun spec => spec.byteRange.2) ∧
      cs = specs.map (fun spec => 2 ^ spec.chunkSizeLog2) ∧
      roEnd = ro + (specs.map RegionSpec.regionSize).sum ∧
      hoEnd = ho + (specs.map RegionSpec.numHandles).sum ∧
      specs.length = l.length ∧ ∀ spec ∈ specs, ∃ sizes ∈ l, spec.FromSizes k sizes := by
  intro l
  induction l with
  | nil =>
    intro ho ro specs cs rs hoEnd roEnd h _ _
    simp only [RegionChunkAllocatorSpecs.createRegions, pure_eq_ok, Prod.mk.injEq] at h
    obtain ⟨rfl, rfl, rfl, rfl, rfl⟩ := h
    simp [Tiles]
  | cons sizes rest ih =>
    obtain ⟨s, c⟩ := sizes
    intro ho ro specs cs rs hoEnd roEnd h hro hho
    simp only [RegionChunkAllocatorSpecs.createRegions, bind_eq_ok, pure_eq_ok, intpow2_eq_ok,
      Prod.mk.injEq, divpow2_eq] at h
    obtain ⟨_, ⟨hs, rfl⟩, size, hsize, _, ⟨hc, rfl⟩, ⟨specs', cs', rs', hoEnd', roEnd'⟩, hrest,
      rfl, rfl, rfl, rfl, rfl⟩ := h
    rw [align_two_pow hs hk] at hsize
    obtain rfl : 2 ^ max s k = size := by simpa using hsize
    simp only [List.map_cons, List.sum_cons] at hro hho
    have hro' : u64 (ro + 2 ^ max s k) = ro + 2 ^ max s k := u64_of_lt (by omega)
    have hho' : u32 (ho + u32 (2 ^ max s k / 2 ^ c)) = ho + u32 (2 ^ max s k / 2 ^ c) :=
      u32_of_lt (by omega)
    rw [hro', hho'] at hrest
    obtain ⟨hbytes, hhandles, hrs, hcs, hroEnd, hhoEnd, hlen, hfrom⟩ :=
      ih hrest (by omega) (by omega)
    refine ⟨⟨rfl, Nat.le_add_right _ _, hbytes⟩, ⟨rfl, Nat.le_add_right _ _, hhandles⟩, ?_, ?_, ?_,
      ?_,
      by rw [List.length_cons, List.length_cons, hlen], ?_⟩
    · rw [hro', hrs]
      rfl
    · rw [hcs]
      rfl
    · rw [hroEnd, List.map_cons, List.sum_cons, Nat.add_assoc]
    · rw [hhoEnd, List.map_cons, List.sum_cons, Nat.add_assoc]
    · intro spec hspec
      rcases List.mem_cons.mp hspec with rfl | hspec
      · exact ⟨(s, c), List.mem_cons_self, hs, hc, rfl, rfl, rfl⟩
      · obtain ⟨sizes, hmem, hf⟩ := hfrom spec hspec
        exact ⟨sizes, List.mem_cons_of_mem _ hmem, hf⟩

/-! ### Well-formed specs -/

namespace RegionChunkAllocatorSpecs

/-- The sizes of all regions add up to less than `2^64` and there are at most `2^31` handles. -/
structure Fits (specs : RegionChunkAllocatorSpecs) : Prop where
  bytes : (specs.regionSpecs.map RegionSpec.regionSize).sum < 2 ^ 64
  handles : (specs.regionSpecs.map RegionSpec.numHandles).sum ≤ 2 ^ 31

/-- What `create` establishes. -/
structure WellFormed (specs : RegionChunkAllocatorSpecs) : Prop where
  numRegions_pos : 0 < specs.numRegions
  numRegions_le : specs.numRegions ≤ confMaxRegionSizes
  length : specs.regionSpecs.length = specs.numRegions
  bytes : Tiles 0 specs.totalRegionsSize (specs.regionSpecs.map RegionSpec.byteRange)
  bytes_lt : specs.totalRegionsSize < 2 ^ 64
  handles : Tiles 0 specs.numHandles (specs.regionSpecs.map RegionSpec.handleRange)
  handles_le : specs.numHandles ≤ 2 ^ 31
  chunks : ∀ spec ∈ specs.regionSpecs, spec.chunkSizeLog2 < 64 ∧
    spec.numHandles * 2 ^ spec.chunkSizeLog2 ≤ spec.regionSize
  regionSentinels : specs.regionSearchSentinels =
    specs.regionSpecs.map (fun spec => spec.byteRange.2)
  chunkSentinels : specs.chunkSizeSearchSentinels =
    specs.regionSpecs.map (fun spec => 2 ^ spec.chunkSizeLog2)
  equal : specs.regionSize ≠ 0 → specs.regionSize = 2 ^ specs.regionSizeLog2 ∧
    ∀ spec ∈ specs.regionSpecs, spec.regionSize = specs.regionSize
  handleSize : specs.handleSize = 2 ^ specs.handleSizeLog2
  /-- The equal-size lookup is chosen on the sizes of the configuration; equal sizes stay equal
  when rounded. -/
  regionAlignment : isAlignment specs.regionAlignment = true

/-- `equalRegionSize` is `0` exactly when the configured sizes differ. -/
theorem equalRegionSize_spec {config : RegionChunkAllocatorSpecsConfig} {k size : Nat} (hk : k < 64)
    (hreg : config.regionAlignment = 2 ^ k) (h : equalRegionSize config = .ok size) :
    if allEqual config.regionSizes then size = 2 ^ max (config.regionSizes.getD 0 0) k
    else size = 0 := by
  unfold equalRegionSize at h
  split_ifs at h ⊢ with heq
  · simp only [bind_eq_ok, intpow2_eq_ok] at h
    obtain ⟨_, ⟨hs, rfl⟩, h⟩ := h
    rw [hreg, align_two_pow hs hk] at h
    simpa using h.symm
  · exact (pure_eq_ok.mp h).symm

theorem create_wellFormed {config : RegionChunkAllocatorSpecsConfig}
    {specs : RegionChunkAllocatorSpecs} (h : (create config).Creates specs) (hfits : specs.Fits) :
    specs.WellFormed := by
  simp only [create, creates_bind, creates_checkReturnVal, creates_lift, creates_pure] at h
  obtain ⟨_, ⟨hpos, hmax⟩, _, hlen, _, hhandle, _, hregion, _, -, _, -, _, -, regionSize,
    hregionSize,
    ⟨regionSpecs, cs, rs, handleOffset, regionOffset⟩, hloop, total, -, rfl⟩ := h
  obtain ⟨k, hk, hreg⟩ := isAlignment_iff.mp hregion
  obtain ⟨hl, -, hhs⟩ := isAlignment_iff.mp hhandle
  obtain ⟨hbytes, hhandles⟩ := hfits
  simp only at hbytes hhandles
  have hequal := equalRegionSize_spec hk hreg hregionSize
  rw [hreg] at hloop
  obtain ⟨htb, hth, hrs, hcs, hro, hho, hlength, hfrom⟩ :=
    createRegions_spec hk hloop (by omega) (by omega)
  rw [List.length_zip, ← hlen, Nat.min_self] at hlength
  refine ⟨hpos, hmax, hlength, htb, by simp only; omega, hth, by simp only; omega, ?_, hrs, hcs, ?_,
    by simp only [hhs, pow2log2_two_pow], hregion⟩
  · intro spec hspec
    obtain ⟨sizes, -, hf⟩ := hfrom spec hspec
    refine ⟨hf.chunk_lt, ?_⟩
    rw [hf.num_eq]
    exact le_trans (Nat.mul_le_mul_right _ (u32_le _)) (Nat.div_mul_le_self _ _)
  · intro hne
    split_ifs at hequal with heq
    · refine ⟨by simp only [heq, ↓reduceIte, hequal, pow2log2_two_pow], fun spec hspec => ?_⟩
      obtain ⟨sizes, hmem, hf⟩ := hfrom spec hspec
      rw [hf.size_eq, hequal, ← allEqual_iff.mp heq sizes.1 (List.of_mem_zip hmem).1]
    · exact absurd hequal hne

/-- The chunk sizes are the configured ones, and the regions start at multiples of the alignment. -/
theorem createRegions_shape {a hl : Nat} (ha : isAlignment a = true) :
    ∀ {l : List (Nat × Nat)} {ho ro : Nat} {specs : List RegionSpec} {cs rs : List Nat}
      {hoEnd roEnd : Nat},
      createRegions a hl l ho ro = .ok (specs, cs, rs, hoEnd, roEnd) → a ∣ ro →
        specs.map RegionSpec.chunkSizeLog2 = l.map Prod.snd ∧ ∀ spec ∈ specs,
          a ∣ spec.regionOffset := by
  have h64 : a ∣ 2 ^ 64 := by
    obtain ⟨k, hk, rfl⟩ := isAlignment_iff.mp ha
    exact Nat.pow_dvd_pow 2 hk.le
  intro l
  induction l with
  | nil =>
    intro ho ro specs cs rs hoEnd roEnd h hro
    simp only [createRegions, pure_eq_ok, Prod.mk.injEq] at h
    obtain ⟨rfl, -⟩ := h
    simp
  | cons sizes rest ih =>
    obtain ⟨s, c⟩ := sizes
    intro ho ro specs cs rs hoEnd roEnd h hro
    simp only [createRegions, bind_eq_ok, pure_eq_ok, Prod.mk.injEq, align_eq ha,
      Except.ok.injEq] at h
    obtain ⟨bytes, -, size, rfl, _, -, ⟨specs', cs', rs', hoEnd', roEnd'⟩, hrest, rfl, -⟩ := h
    have hnext : a ∣ u64 (ro + u64 (bytes + a - 1) / a * a) :=
      (Nat.dvd_mod_iff h64).mpr (Nat.dvd_add hro (Dvd.intro_left _ rfl))
    obtain ⟨hchunks, hoffsets⟩ := ih hrest hnext
    refine ⟨?_, ?_⟩
    · rw [List.map_cons, List.map_cons, hchunks]
    · intro spec hspec
      rcases List.mem_cons.mp hspec with rfl | hspec
      · exact hro
      · exact hoffsets spec hspec

/-- What `create` took over from the configuration. -/
structure ConfiguredBy (config : RegionChunkAllocatorSpecsConfig)
    (specs : RegionChunkAllocatorSpecs) :
    Prop where
  numRegions : specs.numRegions = config.regionChunkSizes.length
  chunkSizes : specs.regionSpecs.map RegionSpec.chunkSizeLog2 = config.regionChunkSizes
  alignment : specs.regionAlignment = config.regionAlignment
  offsets : ∀ spec ∈ specs.regionSpecs, config.regionAlignment ∣ spec.regionOffset
  handleSize : specs.handleSize = config.handleSize
  handleAlignment : specs.handleAlignment = config.handleAlignment

theorem create_configuredBy {config : RegionChunkAllocatorSpecsConfig}
    {specs : RegionChunkAllocatorSpecs}
    (h : (create config).Creates specs) : ConfiguredBy config specs := by
  simp only [create, creates_bind, creates_lift, creates_checkReturnVal, creates_pure,
    exists_const] at h
  obtain ⟨_, hlen, _, hregion, _, _, _, _, _, _, ⟨specs', cs, rs, ho, ro⟩, hloop, _, _, rfl⟩ := h
  obtain ⟨hchunks, hoffsets⟩ := createRegions_shape hregion hloop (Nat.dvd_zero _)
  rw [List.map_snd_zip hlen.ge] at hchunks
  exact ⟨hlen, hchunks, rfl, hoffsets, rfl, rfl⟩

/-! ### Locating an offset -/

variable {specs : RegionChunkAllocatorSpecs}

theorem WellFormed.getElem? (hw : specs.WellFormed) {r : Nat} (hr : r < specs.numRegions) :
    specs.regionSpecs[r]? = some (specs.regionSpec r) := by
  rw [regionSpec, List.getD_eq_getElem?_getD, List.getElem?_eq_getElem
    (by rw [hw.length]; exact hr)]
  rfl

theorem WellFormed.mem (hw : specs.WellFormed) {r : Nat} (hr : r < specs.numRegions) :
    specs.regionSpec r ∈ specs.regionSpecs :=
  List.mem_of_getElem? (hw.getElem? hr)

theorem WellFormed.byteRange_getElem? (hw : specs.WellFormed) {r : Nat}
    (hr : r < specs.numRegions) :
    (specs.regionSpecs.map RegionSpec.byteRange)[r]? = some (specs.regionSpec r).byteRange := by
  rw [List.getElem?_map, hw.getElem? hr]
  rfl

theorem WellFormed.handleRange_getElem? (hw : specs.WellFormed) {r : Nat}
    (hr : r < specs.numRegions) :
    (specs.regionSpecs.map RegionSpec.handleRange)[r]? = some (specs.regionSpec r).handleRange := by
  rw [List.getElem?_map, hw.getElem? hr]
  rfl

/-- A region ends within the region space. -/
theorem WellFormed.region_le (hw : specs.WellFormed) {r : Nat} (hr : r < specs.numRegions) :
    (specs.regionSpec r).regionOffset + (specs.regionSpec r).regionSize ≤ specs.totalRegionsSize :=
  (hw.bytes.bounds (hw.byteRange_getElem? hr)).2.2

theorem WellFormed.handle_le (hw : specs.WellFormed) {r : Nat} (hr : r < specs.numRegions) :
    (specs.regionSpec r).handleOffset + (specs.regionSpec r).numHandles ≤ specs.numHandles :=
  (hw.handles.bounds (hw.handleRange_getElem? hr)).2.2

/-- **The sentinel search** returns the region whose byte range holds the offset. -/
theorem searchHostingRegion_eq (hw : specs.WellFormed) {r x : Nat} (hr : r < specs.numRegions)
    (hlo : (specs.regionSpec r).regionOffset ≤ x)
    (hhi : x < (specs.regionSpec r).regionOffset + (specs.regionSpec r).regionSize) :
    specs.searchHostingRegion x = r := by
  have hsentinel : ∀ i < specs.numRegions, specs.regionSearchSentinels.getD i 0 =
      (specs.regionSpec i).byteRange.2 := fun i hi => by
    rw [hw.regionSentinels, List.getD_eq_getElem?_getD, List.getElem?_map, hw.getElem? hi]
    rfl
  have hfind : findFirst specs.numRegions
      (fun i => decide (x < specs.regionSearchSentinels.getD i 0)) = some r := by
    refine findFirst_eq_some.mpr ⟨hr, ?_, fun j hj => ?_⟩
    · rw [hsentinel r hr]
      exact decide_eq_true hhi
    · rw [hsentinel j (by omega)]
      have := hw.bytes.le_of_lt_index (hw.byteRange_getElem? (by omega : j < _))
        (hw.byteRange_getElem? hr) hj
      exact decide_eq_false (by have : _ ≤ (specs.regionSpec r).regionOffset := this; omega)
  rw [searchHostingRegion, hfind]
  rfl

/-- **The shift lookup** returns the region whose byte range holds the offset. -/
theorem shiftRegion_eq (hw : specs.WellFormed) (hne : specs.regionSize ≠ 0) {r x : Nat}
    (hr : r < specs.numRegions) (hlo : (specs.regionSpec r).regionOffset ≤ x)
    (hhi : x < (specs.regionSpec r).regionOffset + (specs.regionSpec r).regionSize) :
    specs.shiftRegion x = r := by
  obtain ⟨hpow, hall⟩ := hw.equal hne
  have hwidth : ∀ s ∈ specs.regionSpecs.map RegionSpec.byteRange, s.2 = s.1 + specs.regionSize := by
    intro s hs
    obtain ⟨spec, hspec, rfl⟩ := List.mem_map.mp hs
    exact congrArg _ (hall spec hspec)
  have hstart := hw.bytes.start_of_width hwidth (hw.byteRange_getElem? hr)
  rw [Nat.zero_add] at hstart
  have hstart' : (specs.regionSpec r).regionOffset = r * specs.regionSize := hstart
  rw [hstart'] at hlo hhi
  rw [hall _ (hw.mem hr)] at hhi
  have hdiv : x / 2 ^ specs.regionSizeLog2 = r := by
    rw [← hpow, Nat.div_eq_iff (by omega)]
    omega
  rw [shiftRegion, divpow2_eq, hdiv, u32_of_lt]
  have := hw.numRegions_le
  simp only [confMaxRegionSizes] at this
  omega

/-- The offset of byte `o` of chunk `c` lies in its region. -/
theorem WellFormed.chunk_lt (hw : specs.WellFormed) {r c o : Nat} (hr : r < specs.numRegions)
    (hc : c < (specs.regionSpec r).numHandles) (ho : o < 2 ^ (specs.regionSpec r).chunkSizeLog2) :
    c * 2 ^ (specs.regionSpec r).chunkSizeLog2 + o < (specs.regionSpec r).regionSize := by
  have h := (hw.chunks _ (hw.mem hr)).2
  have hmul : (c + 1) * 2 ^ (specs.regionSpec r).chunkSizeLog2 ≤
      (specs.regionSpec r).numHandles * 2 ^ (specs.regionSpec r).chunkSizeLog2 :=
    Nat.mul_le_mul_right _ hc
  rw [Nat.add_one_mul] at hmul
  omega

theorem locateChunkCommon_eq (hw : specs.WellFormed) {r c o : Nat} (hr : r < specs.numRegions)
    (hc : c < (specs.regionSpec r).numHandles) (ho : o < 2 ^ (specs.regionSpec r).chunkSizeLog2) :
    specs.locateChunkCommon ((specs.regionSpec r).regionOffset +
      c * 2 ^ (specs.regionSpec r).chunkSizeLog2 + o) r =
        .ok ⟨r, c, (specs.regionSpec r).handleOffset + c⟩ := by
  have hlt := hw.chunk_lt hr hc ho
  have hle := hw.region_le hr
  have htotal := hw.bytes_lt
  have hh := hw.handle_le hr
  have hn := hw.handles_le
  have hsub : sub64 ((specs.regionSpec r).regionOffset +
      c * 2 ^ (specs.regionSpec r).chunkSizeLog2 + o) (specs.regionSpec r).regionOffset =
        c * 2 ^ (specs.regionSpec r).chunkSizeLog2 + o := by
    rw [sub64_of_le (by omega) (by omega)]
    omega
  have hdiv : (c * 2 ^ (specs.regionSpec r).chunkSizeLog2 + o) /
      2 ^ (specs.regionSpec r).chunkSizeLog2 = c := by
    rw [Nat.mul_comm, Nat.mul_add_div (Nat.two_pow_pos _), Nat.div_eq_of_lt ho, Nat.add_zero]
  simp only [locateChunkCommon, check_of (show (specs.regionSpec r).numHandles ≠ 0 by omega),
    ok_bind,
    hsub, divpow2_eq, hdiv]
  rw [u32_of_lt (by omega), u32_of_lt (by omega)]
  rfl

/-- **Chunk lookup**: an offset into chunk `c` of region `r` is located there. -/
theorem locateChunk_eq (hw : specs.WellFormed) {r c o : Nat} (hr : r < specs.numRegions)
    (hc : c < (specs.regionSpec r).numHandles) (ho : o < 2 ^ (specs.regionSpec r).chunkSizeLog2) :
    specs.locateChunk ((specs.regionSpec r).regionOffset +
      c * 2 ^ (specs.regionSpec r).chunkSizeLog2 + o) =
        .ok ⟨r, c, (specs.regionSpec r).handleOffset + c⟩ := by
  have hlt := hw.chunk_lt hr hc ho
  have hle := hw.numRegions_le
  simp only [confMaxRegionSizes] at hle
  unfold locateChunk
  split_ifs with hne
  · rw [locateChunkAllRegionsEqual, check_of hne, ok_bind,
      shiftRegion_eq hw hne hr (by omega) (by omega), locateChunkCommon_eq hw hr hc ho]
  · rw [locateChunkAllRegionsDiffer, assert_of (not_not.mp hne), ok_bind,
      searchHostingRegion_eq hw hr (by omega) (by omega)]
    simp only [check_of (show r ≠ regionChunkAllocatorNullValue by
      rw [regionChunkAllocatorNullValue]; omega), ok_bind, locateChunkCommon_eq hw hr hc ho]

end RegionChunkAllocatorSpecs

/-! ### Splits -/

namespace RegionChunkAllocatorPools

/-- Before wrapping, `splitBound` is the smaller of `split` full splits and the region's end. -/
theorem splitBound_eq {spec : RegionSpec} {n split : Nat} (hn : 0 < n)
    (hle : spec.handleOffset + spec.numHandles ≤ 2 ^ 31) (hn16 : n ≤ 16) (hs : split ≤ n) :
    splitBound spec n split =
      spec.handleOffset + min ((spec.numHandles + n - 1) / n * split) spec.numHandles := by
  have hper : (spec.numHandles + n - 1) / n * n ≤ spec.numHandles + n - 1 := Nat.div_mul_le_self _ _
  have hle1 : (spec.numHandles + n - 1) / n ≤ spec.numHandles + n - 1 := Nat.div_le_self _ _
  have hmul : (spec.numHandles + n - 1) / n * split ≤ spec.numHandles + n - 1 :=
    le_trans (Nat.mul_le_mul_left _ hs) hper
  simp only [splitBound]
  rw [u32_of_lt (v := (spec.numHandles + n - 1) / n) (by omega), u64_of_lt (by omega),
    u32_of_lt (v := (spec.numHandles + n - 1) / n * split) (by omega), u32_of_lt (by omega)]

/-- What `create` establishes, for specs that are well formed: in every region the splits tile the
region's handles. -/
structure WellFormed (specs : RegionChunkAllocatorSpecs) (pools : RegionChunkAllocatorPools) :
    Prop where
  numRegions : pools.numRegions = specs.numRegions
  numSplits_pos : 0 < pools.numSplits
  numSplits_le : pools.numSplits ≤ confMaxContentionSplit
  numSplits_pow2 : isAlignment pools.numSplits = true
  splits : ∀ r < specs.numRegions,
    Tiles (specs.regionSpec r).handleOffset
      ((specs.regionSpec r).handleOffset + (specs.regionSpec r).numHandles)
      ((List.range pools.numSplits).map fun s =>
        ((pools.poolEntries r s).firstHandle, (pools.poolEntries r s).lastHandle))
  sentinels : ∀ r < specs.numRegions, ∀ s < pools.numSplits,
    pools.splitSearchSentinels r s = (pools.poolEntries r s).lastHandle

theorem create_wellFormed {specs : RegionChunkAllocatorSpecs} {contentionSplit : Nat}
    {pools : RegionChunkAllocatorPools} (hw : specs.WellFormed)
    (h : (create specs contentionSplit).Creates pools) : pools.WellFormed specs := by
  simp only [create, creates_bind, creates_checkReturnVal, creates_pure] at h
  obtain ⟨_, hmax, _, hpow, rfl⟩ := h
  have hpos := isAlignment_pos hpow
  simp only [confMaxContentionSplit] at hmax
  have hne : contentionSplit ≠ 0 := by omega
  have hentry : ∀ r < specs.numRegions, ∀ s < contentionSplit, r < confMaxRegionSizes ∧
      s < confMaxContentionSplit := fun r hr s hs =>
    ⟨lt_of_lt_of_le hr hw.numRegions_le, by rw [confMaxContentionSplit]; omega⟩
  simp only [hne, ne_eq, not_false_eq_true, ↓reduceIte, build]
  refine ⟨rfl, hpos, hmax, hpow, fun r hr => ?_, fun r hr s hs => ?_⟩
  · have hle := le_trans (hw.handle_le hr) hw.handles_le
    have hbound : ∀ s ≤ contentionSplit, splitBound (specs.regionSpec r) contentionSplit s = _ :=
      fun s hs => splitBound_eq hpos hle hmax hs
    have hmono : ∀ i < contentionSplit, splitBound (specs.regionSpec r) contentionSplit (0 + i) ≤
        splitBound (specs.regionSpec r) contentionSplit (0 + i + 1) := by
      intro i hi
      rw [Nat.zero_add, hbound i (by omega), hbound (i + 1) (by omega)]
      have := Nat.mul_le_mul_left (((specs.regionSpec r).numHandles + contentionSplit - 1) /
        contentionSplit) (Nat.le_succ i)
      simp only [Nat.succ_eq_add_one] at this
      omega
    have htiles := Tiles.of_bound contentionSplit 0 hmono
    rw [← List.range_eq_range', Nat.zero_add, hbound 0 (by omega), hbound contentionSplit le_rfl,
      Nat.mul_zero, Nat.zero_min, Nat.add_zero, Nat.min_eq_right] at htiles
    · rw [List.map_congr_left (g := fun s => (splitBound (specs.regionSpec r) contentionSplit s,
        splitBound (specs.regionSpec r) contentionSplit (s + 1))) fun s hs => by
          simp only [hentry r hr s (List.mem_range.mp hs), and_self, ↓reduceIte, createEntry]]
      exact htiles
    · exact le_alignUp hpos
  · simp only [hentry r hr s hs, and_self, ↓reduceIte]

variable {specs : RegionChunkAllocatorSpecs} {pools : RegionChunkAllocatorPools}

theorem split_getElem? {r s : Nat} (hs : s < pools.numSplits) :
    ((List.range pools.numSplits).map fun s =>
      ((pools.poolEntries r s).firstHandle, (pools.poolEntries r s).lastHandle))[s]? =
        some ((pools.poolEntries r s).firstHandle, (pools.poolEntries r s).lastHandle) := by
  rw [List.getElem?_map, List.getElem?_range hs]
  rfl

/-- Every handle of a region belongs to one split of the region, and to no other. -/
theorem WellFormed.exists_split (hp : pools.WellFormed specs) {r handle : Nat}
    (hr : r < specs.numRegions) (hlo : (specs.regionSpec r).handleOffset ≤ handle)
    (hhi : handle < (specs.regionSpec r).handleOffset + (specs.regionSpec r).numHandles) :
    ∃ split < pools.numSplits, (pools.poolEntries r split).firstHandle ≤ handle ∧
      handle < (pools.poolEntries r split).lastHandle := by
  obtain ⟨split, range, hget, h1, h2⟩ := (hp.splits r hr).exists_mem hlo hhi
  have hsplit : split < pools.numSplits := by
    have := (List.getElem?_eq_some_iff.mp hget).1
    simpa using this
  rw [split_getElem? hsplit] at hget
  obtain rfl := Option.some.inj hget
  exact ⟨split, hsplit, h1, h2⟩

theorem WellFormed.split_unique (hp : pools.WellFormed specs) {r handle s t : Nat}
    (hr : r < specs.numRegions) (hs : s < pools.numSplits) (ht : t < pools.numSplits)
    (hs1 : (pools.poolEntries r s).firstHandle ≤ handle)
    (hs2 : handle < (pools.poolEntries r s).lastHandle)
    (ht1 : (pools.poolEntries r t).firstHandle ≤ handle)
    (ht2 : handle < (pools.poolEntries r t).lastHandle) : s = t :=
  (hp.splits r hr).unique (split_getElem? hs) (split_getElem? ht) hs1 hs2 ht1 ht2

/-- **The split search** returns the split whose handle range holds the handle. -/
theorem searchPoolSplit_eq (hp : pools.WellFormed specs) (hw : specs.WellFormed)
    {r split handle : Nat}
    (hr : r < specs.numRegions) (hs : split < pools.numSplits)
    (hlo : (pools.poolEntries r split).firstHandle ≤ handle)
    (hhi : handle < (pools.poolEntries r split).lastHandle) :
    pools.searchPoolSplit r handle = .ok split := by
  have hfind : findFirst pools.numSplits
      (fun split => decide (handle < pools.splitSearchSentinels r split)) = some split := by
    refine findFirst_eq_some.mpr ⟨hs, ?_, fun j hj => ?_⟩
    · rw [hp.sentinels r hr split hs]
      exact decide_eq_true hhi
    · have hle := (hp.splits r hr).le_of_lt_index (split_getElem? (by omega : j < _))
        (split_getElem? hs) hj
      rw [hp.sentinels r hr j (by omega)]
      exact decide_eq_false (Nat.not_lt.mpr (le_trans hle hlo))
  rw [searchPoolSplit, check_of (lt_of_lt_of_le hr hw.numRegions_le), ok_bind, hfind]
  rfl

end RegionChunkAllocatorPools

/-! ### Lookups from pointers -/

namespace RegionChunkAllocator

/-- The region memory is a block of `total_regions_size` bytes, the handle memory is not null. -/
structure Mapped (alloc : RegionChunkAllocator) : Prop where
  regions_pos : 0 < alloc.regions
  regions_end : alloc.regions + alloc.specs.totalRegionsSize < 2 ^ 64
  handles_pos : 0 < alloc.handles

variable {alloc : RegionChunkAllocator}

/-- The address of byte `o` of chunk `c` of region `r`. -/
def address (alloc : RegionChunkAllocator) (r c o : Nat) : Nat :=
  alloc.regions + (alloc.specs.regionSpec r).regionOffset +
    c * 2 ^ (alloc.specs.regionSpec r).chunkSizeLog2 + o

theorem ptrToLocation_eq (hw : alloc.specs.WellFormed) (hm : alloc.Mapped) {r c o : Nat}
    (hr : r < alloc.specs.numRegions) (hc : c < (alloc.specs.regionSpec r).numHandles)
    (ho : o < 2 ^ (alloc.specs.regionSpec r).chunkSizeLog2) :
    alloc.ptrToLocation (alloc.address r c o) =
      .ok ⟨r, c, (alloc.specs.regionSpec r).handleOffset + c⟩ := by
  have hlt := hw.chunk_lt hr hc ho
  have hle := hw.region_le hr
  have hend := hm.regions_end
  have hbelongs : alloc.belongsAnyRegion (alloc.address r c o) = .ok true := by
    rw [belongsAnyRegion, advancePtr_eq hm.regions_pos.ne', ok_bind, u64_of_lt hend]
    simp only [pure_eq_ok, Bool.and_eq_true, decide_eq_true_eq]
    unfold address
    omega
  have hsub : subptr (alloc.address r c o) alloc.regions =
      (alloc.specs.regionSpec r).regionOffset +
        c * 2 ^ (alloc.specs.regionSpec r).chunkSizeLog2 + o := by
    rw [subptr, address, sub64_of_le (by omega) (by omega)]
    omega
  rw [ptrToLocation, hbelongs, ok_bind, hsub]
  exact RegionChunkAllocatorSpecs.locateChunk_eq hw hr hc ho

theorem ptrToAllocation_eq (hw : alloc.specs.WellFormed) (hp : alloc.pools.WellFormed alloc.specs)
    (hm : alloc.Mapped) {r c o split : Nat} (hr : r < alloc.specs.numRegions)
    (hc : c < (alloc.specs.regionSpec r).numHandles)
    (ho : o < 2 ^ (alloc.specs.regionSpec r).chunkSizeLog2) (hs : split < alloc.pools.numSplits)
    (hlo : (alloc.pools.poolEntries r split).firstHandle ≤
      (alloc.specs.regionSpec r).handleOffset + c)
    (hhi : (alloc.specs.regionSpec r).handleOffset + c <
      (alloc.pools.poolEntries r split).lastHandle) :
    alloc.ptrToAllocation (alloc.address r c o) =
      .ok ⟨r, c, (alloc.specs.regionSpec r).handleOffset + c, split⟩ := by
  have hr8 := hw.numRegions_le
  have hs16 := hp.numSplits_le
  simp only [confMaxRegionSizes, confMaxContentionSplit] at hr8 hs16
  have hrn : r ≠ regionChunkAllocatorNullValue := by rw [regionChunkAllocatorNullValue]; omega
  have hsn : split ≠ regionChunkAllocatorNullValue := by rw [regionChunkAllocatorNullValue]; omega
  rw [ptrToAllocation, ptrToLocation_eq hw hm hr hc ho, ok_bind]
  simp only [hrn, ↓reduceIte]
  rw [RegionChunkAllocatorPools.searchPoolSplit_eq hp hw hr hs hlo hhi, ok_bind, check_of hsn,
    ok_bind]
  rfl

/-- `region_data_to_memory` of a chunk of the layout: its base, its size and its handle. -/
theorem regionDataToMemory_eq (hw : alloc.specs.WellFormed) (hm : alloc.Mapped) {r c : Nat}
    (hr : r < alloc.specs.numRegions) (hc : c < (alloc.specs.regionSpec r).numHandles) :
    alloc.regionDataToMemory r c ((alloc.specs.regionSpec r).handleOffset + c) =
      .ok ⟨alloc.address r c 0, 2 ^ (alloc.specs.regionSpec r).chunkSizeLog2,
        u64 (alloc.handles + mulpow2 ((alloc.specs.regionSpec r).handleOffset + c)
          alloc.specs.handleSizeLog2), alloc.specs.handleSize⟩ := by
  have hlt := hw.chunk_lt hr hc (Nat.two_pow_pos _)
  have hle := hw.region_le hr
  have hend := hm.regions_end
  have hh := hw.handle_le hr
  have hn := hw.handles_le
  have hchunk := (hw.chunks _ (hw.mem hr)).1
  have hcheck : (alloc.specs.regionSpec r).checkHandle
      ((alloc.specs.regionSpec r).handleOffset + c) = true := by
    rw [RegionSpec.checkHandle, u32_of_lt (by omega)]
    simp [hc]
  have hrel : (alloc.specs.regionSpec r).getRelchunk c =
      (alloc.specs.regionSpec r).regionOffset +
        c * 2 ^ (alloc.specs.regionSpec r).chunkSizeLog2 := by
    rw [RegionSpec.getRelchunk, mulpow2_of_lt (by omega), u64_of_lt (by omega)]
  have hempty : (alloc.specs.regionSpec r).isEmpty = false := by
    simp only [RegionSpec.isEmpty, beq_eq_false_iff_ne]
    omega
  have hcc : (alloc.specs.regionSpec r).checkChunk c = true := decide_eq_true hc
  have hhandle : (alloc.specs.regionSpec r).handleOffset + c < alloc.specs.numHandles := by omega
  simp only [regionDataToMemory, hr, hhandle, hempty, hcc, hcheck, Bool.not_false, and_self,
    ↓reduceIte, regionDataToMemoryNoCheck, RegionSpec.getChunk, check_of, ok_bind, hrel,
    advancePtr_eq hm.regions_pos.ne', RegionChunkAllocatorSpecs.getHandle,
    advanceArrLog2_eq hm.handles_pos.ne', RegionSpec.getChunkSize, intpow2_of_lt hchunk]
  rw [← Nat.add_assoc, u64_of_lt (by omega)]
  rfl

/-- **Pointer lookup inverts the layout.**  For every configuration the two `create` functions
accept: the byte ranges of the regions tile the region memory and their handle ranges tile the
handles; a pointer to byte `o` of chunk `c` of region `r` is looked up as that region, that chunk,
the chunk's handle and the one split that holds the handle, and the record gives the chunk's base
and size back; the shift lookup and the sentinel search agree wherever the first applies. -/
theorem ptrToAllocation_layout {config : RegionChunkAllocatorSpecsConfig} {contentionSplit : Nat}
    {alloc : RegionChunkAllocator}
    (hspecs : (RegionChunkAllocatorSpecs.create config).Creates alloc.specs)
    (hpools : (RegionChunkAllocatorPools.create alloc.specs contentionSplit).Creates alloc.pools)
    (hfits : alloc.specs.Fits) (hm : alloc.Mapped) :
    Tiles 0 alloc.specs.totalRegionsSize (alloc.specs.regionSpecs.map RegionSpec.byteRange) ∧
    Tiles 0 alloc.specs.numHandles (alloc.specs.regionSpecs.map RegionSpec.handleRange) ∧
    (∀ r < alloc.specs.numRegions, ∀ c < (alloc.specs.regionSpec r).numHandles,
      ∀ o < 2 ^ (alloc.specs.regionSpec r).chunkSizeLog2, ∃ split < alloc.pools.numSplits,
        alloc.ptrToAllocation (alloc.address r c o) =
          .ok ⟨r, c, (alloc.specs.regionSpec r).handleOffset + c, split⟩ ∧
        (∀ s < alloc.pools.numSplits,
          ((alloc.pools.poolEntries r s).firstHandle ≤
              (alloc.specs.regionSpec r).handleOffset + c ∧
            (alloc.specs.regionSpec r).handleOffset + c <
              (alloc.pools.poolEntries r s).lastHandle) ↔ s = split) ∧
        ∃ handle, alloc.regionDataToMemory r c ((alloc.specs.regionSpec r).handleOffset + c) =
          .ok ⟨alloc.address r c 0, 2 ^ (alloc.specs.regionSpec r).chunkSizeLog2, handle,
            alloc.specs.handleSize⟩) ∧
    (alloc.specs.regionSize ≠ 0 → ∀ x < alloc.specs.totalRegionsSize,
      alloc.specs.shiftRegion x = alloc.specs.searchHostingRegion x) := by
  have hw := RegionChunkAllocatorSpecs.create_wellFormed hspecs hfits
  have hp := RegionChunkAllocatorPools.create_wellFormed hw hpools
  refine ⟨hw.bytes, hw.handles, fun r hr c hc o ho => ?_, fun hne x hx => ?_⟩
  · obtain ⟨split, hs, h1, h2⟩ := hp.exists_split hr (Nat.le_add_right _ c) (by omega)
    refine ⟨split, hs, ptrToAllocation_eq hw hp hm hr hc ho hs h1 h2, fun s hs' => ⟨?_, ?_⟩, _,
      regionDataToMemory_eq hw hm hr hc⟩
    · rintro ⟨h3, h4⟩
      exact hp.split_unique hr hs' hs h3 h4 h1 h2
    · rintro rfl
      exact ⟨h1, h2⟩
  · obtain ⟨r, range, hget, h1, h2⟩ := hw.bytes.exists_mem (Nat.zero_le x) hx
    have hr : r < alloc.specs.numRegions := by
      have := (List.getElem?_eq_some_iff.mp hget).1
      rwa [List.length_map, hw.length] at this
    rw [hw.byteRange_getElem? hr] at hget
    obtain rfl := Option.some.inj hget
    rw [RegionChunkAllocatorSpecs.shiftRegion_eq hw hne hr h1 h2,
      RegionChunkAllocatorSpecs.searchHostingRegion_eq hw hr h1 h2]

/-- Three regions of different sizes, the last one smaller than its chunk size. -/
def mixedConfig : RegionChunkAllocatorSpecsConfig :=
  { regionSizes := [5, 6, 3], regionChunkSizes := [2, 3, 4], handleSize := 128
    regionAlignment := 8, handleAlignment := 8 }

/-- The layout of `mixedConfig`. -/
def mixedSpecs : RegionChunkAllocatorSpecs :=
  { regionSpecs := [⟨0, 32, 2, 7, 0, 8⟩, ⟨32, 64, 3, 7, 8, 8⟩, ⟨96, 8, 4, 7, 16, 0⟩]
    chunkSizeSearchSentinels := [4, 8, 16], regionSearchSentinels := [32, 96, 104]
    totalRegionsSize := 104, regionAlignment := 8, regionSize := 0, regionSizeLog2 := 0
    numRegions := 3, totalHandlesSize := 2048, handleAlignment := 8, handleSize := 128
    handleSizeLog2 := 7, numHandles := 16 }

/-- An allocator over it with two splits. -/
def mixedAllocator : RegionChunkAllocator :=
  { specs := mixedSpecs, pools := .build mixedSpecs 2, regions := 4096, handles := 8192
    poolHandles := fun _ => regionChunkPoolNullLink }

theorem ptrToAllocation_layout_mixed : ∃ split < 2,
    mixedAllocator.ptrToAllocation (mixedAllocator.address 1 2 3) = .ok ⟨1, 2, 10, split⟩ := by
  have hspecs : (RegionChunkAllocatorSpecs.create mixedConfig).Creates mixedAllocator.specs := rfl
  have hpools : (RegionChunkAllocatorPools.create mixedAllocator.specs 2).Creates
      mixedAllocator.pools := rfl
  obtain ⟨-, -, h, -⟩ := ptrToAllocation_layout hspecs hpools ⟨by decide, by decide⟩
    ⟨by decide, by decide, by decide⟩
  obtain ⟨split, hs, hptr, -⟩ := h 1 (by decide) 2 (by decide) 3 (by decide)
  exact ⟨split, hs, hptr⟩

end RegionChunkAllocator

end Cuw3
