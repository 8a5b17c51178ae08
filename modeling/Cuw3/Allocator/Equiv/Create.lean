/-
  The allocator is made whole or not at all.

  Each of the allocations of `AllocatorMemoryBundle::from` maps a range or undoes the ones before it
  (`fromSpecs_cases`), and so do `Allocator::create` (`create_cases`) and `cuw3_create_allocator`.
  When mappings are not refused, there is an allocator with which programs can start
  (`cuw3CreateAllocator_cases`), and `Allocator::destroy` leaves nothing of its memory.
-/
import Cuw3.Allocator.Create
import Cuw3.Allocator.Equiv.Api
import Cuw3.Base.Equiv.Mappings

namespace Cuw3

open Lib Cuw3.System

variable {system : System} {space space' : AddressSpace} {base : Nat → Option Protection}
  {live : List Block} {limit : Nat} {specs : RegionChunkAllocatorSpecs}

/-! ### The memory of the chunks -/

namespace AllocatorMemoryBundle

/-- The ranges of a bundle. -/
def ranges (bundle : AllocatorMemoryBundle) (specs : RegionChunkAllocatorSpecs) : List Block :=
  [⟨bundle.regions, specs.totalRegionsSize⟩, ⟨bundle.handles, specs.totalHandlesSize⟩,
    ⟨bundle.poolHandles, specs.totalPoolHandlesSize⟩]

/-- The sizes and alignments of the ranges can be asked for. -/
structure Requestable (specs : RegionChunkAllocatorSpecs) : Prop where
  regions : 1 ≤ specs.totalRegionsSize ∧ isAlignment specs.regionAlignment = true ∧
    alignUp specs.totalRegionsSize specs.regionAlignment + specs.regionAlignment < 2 ^ 64
  handles : 1 ≤ specs.totalHandlesSize ∧ isAlignment specs.handleAlignment = true ∧
    alignUp specs.totalHandlesSize specs.handleAlignment + specs.handleAlignment < 2 ^ 64
  poolHandles : 1 ≤ specs.totalPoolHandlesSize ∧
    alignUp specs.totalPoolHandlesSize RegionChunkAllocatorSpecs.poolHandlesAlignment +
      RegionChunkAllocatorSpecs.poolHandlesAlignment < 2 ^ 64

/-- The ranges are not null, aligned, and below the limit. -/
structure Backs (bundle : AllocatorMemoryBundle) (system : System) (limit : Nat)
    (specs : RegionChunkAllocatorSpecs) : Prop where
  complete : bundle.complete = true
  regions_dvd : specs.regionAlignment ∣ bundle.regions
  regions_end : bundle.regions + specs.totalRegionsSize ≤ limit
  handles_dvd : specs.handleAlignment ∣ bundle.handles
  handles_end : bundle.handles + specs.totalHandlesSize ≤ limit

/-- The lengths that are mapped for a bundle. -/
def lengths (system : System) (specs : RegionChunkAllocatorSpecs) : List Nat :=
  [system.mapLength specs.totalRegionsSize specs.regionAlignment,
    system.mapLength specs.totalHandlesSize specs.handleAlignment,
    system.mapLength specs.totalPoolHandlesSize RegionChunkAllocatorSpecs.poolHandlesAlignment]

theorem dvd_max {a b : Nat} (ha : isAlignment a = true) (hb : isAlignment b = true) :
    b ∣ max a b := by
  rcases le_or_gt a b with hle | hlt
  · rw [Nat.max_eq_right hle]
  · rw [Nat.max_eq_left hlt.le]
    exact dvd_of_lt hb ha hlt

variable {bundle : AllocatorMemoryBundle}

/-- **All three ranges are mapped, or none is.** -/
theorem fromSpecs_cases (huser : system.UserSpace limit) (hreq : Requestable specs)
    (hmapped : Mapped system base ⟨space, live⟩) :
    ∃ result space', fromSpecs system space specs = .ok (result, space') ∧
      ((∃ e, result = .error e ∧ Mapped system base ⟨space', live⟩ ∧
          ∃ s, ∃ length ∈ lengths system specs, system.place s length = none) ∨
        ∃ bundle, result = .ok bundle ∧ Backs bundle system limit specs ∧
          Mapped system base ⟨space', bundle.ranges specs ++ live⟩) := by
  have hsound := huser.toSound
  obtain ⟨hsize₁, halign₁, hfit₁⟩ := hreq.regions
  obtain ⟨hsize₂, halign₂, hfit₂⟩ := hreq.handles
  obtain ⟨hsize₃, hfit₃⟩ := hreq.poolHandles
  have halign₃ : isAlignment RegionChunkAllocatorSpecs.poolHandlesAlignment = true := by decide
  obtain ⟨regions, space₁, hok₁, hcases₁⟩ := vmemAllocAligned_cases huser space vMemReserve
    hsize₁ halign₁ hfit₁
  unfold fromSpecs
  rw [hok₁, ok_bind]
  dsimp only
  rcases hcases₁ with ⟨rfl, rfl, hrefused⟩ | hregions
  · rw [if_pos rfl]
    refine ⟨_, _, rfl, .inl ⟨_, rfl, hmapped, _, _, ?_, hrefused rfl⟩⟩
    simp [lengths]
  rw [if_neg hregions.pos.ne']
  have hmapped₁ := hmapped.obtain hsound hsize₁ hregions
  obtain ⟨handles, space₂, hok₂, hcases₂⟩ := vmemAllocAligned_cases huser space₁
    vMemReserveCommit hsize₂ halign₂ hfit₂
  rw [hok₂, ok_bind]
  dsimp only
  rcases hcases₂ with ⟨rfl, rfl, hrefused⟩ | hhandles
  · -- the regions are freed again
    rw [if_pos rfl]
    refine ⟨_, _, rfl, .inl ⟨_, rfl, hmapped₁.release hsound, _, _, ?_, hrefused rfl⟩⟩
    simp [lengths]
  rw [if_neg hhandles.pos.ne']
  have hmapped₂ := hmapped₁.obtain hsound hsize₂ hhandles
  obtain ⟨poolHandles, space₃, hok₃, hcases₃⟩ := vmemAllocAligned_cases huser space₂
    vMemReserveCommit hsize₃ halign₃ hfit₃
  rw [hok₃, ok_bind]
  dsimp only
  rcases hcases₃ with ⟨rfl, rfl, hrefused⟩ | hpool
  · -- the handles and the regions are freed again
    rw [if_pos rfl]
    refine ⟨_, _, rfl,
      .inl ⟨_, rfl, (hmapped₂.release hsound).release hsound, _, _, ?_, hrefused rfl⟩⟩
    simp [lengths]
  rw [if_neg hpool.pos.ne']
  have hmapped₃ := hmapped₂.obtain hsound hsize₃ hpool
  refine ⟨_, _, rfl, .inr ⟨_, rfl, ?_, hmapped₃.perm ?_⟩⟩
  · constructor
    case complete => simp [complete, hregions.pos.ne', hhandles.pos.ne', hpool.pos.ne']
    case regions_dvd => exact (dvd_max hsound.pageSize halign₁).trans hregions.aligned
    case regions_end => exact hregions.end_le
    case handles_dvd => exact (dvd_max hsound.pageSize halign₂).trans hhandles.aligned
    case handles_end => exact hhandles.end_le
  · exact (List.reverse_perm (ranges ⟨regions, handles, poolHandles⟩ specs)).append_right live

/-- `AllocatorMemoryBundle::release` frees the ranges. -/
theorem release_mapped (hsound : system.Sound) (hcomplete : bundle.complete = true)
    (hmapped : Mapped system base ⟨space, bundle.ranges specs ++ live⟩) :
    Mapped system base ⟨bundle.release system space specs, live⟩ := by
  unfold release
  rw [hcomplete]
  exact ((hmapped.release hsound).release hsound).release hsound

end AllocatorMemoryBundle

/-! ### The allocator -/

namespace NewAllocator

open AllocatorMemoryBundle (Requestable Backs lengths fromSpecs_cases release_mapped)

variable {config : AllocatorConfig} {pools : RegionChunkAllocatorPools}

/-- What `Allocator::create` makes. -/
structure Made (new : NewAllocator) (specs : RegionChunkAllocatorSpecs)
    (pools : RegionChunkAllocatorPools) : Prop where
  specs : new.alloc.rca.specs = specs
  pools : new.alloc.rca.pools = pools
  regions : new.alloc.rca.regions = new.bundle.regions
  handles : new.alloc.rca.handles = new.bundle.handles
  committed : ∀ x, new.alloc.committed x = false
  graveyard : new.alloc.tlaGraveyard.deadQueue = []

/-- **The allocator is made, or its memory is freed.** -/
theorem create_cases (huser : system.UserSpace limit) (hreq : Requestable specs)
    (hspecs : (RegionChunkAllocatorSpecs.create config.rcaSpecsConfig).Creates specs)
    (hpools : (RegionChunkAllocatorPools.create specs config.contentionSplit).Creates pools)
    (contents : Contents) (hmapped : Mapped system base ⟨space, live⟩) :
    ∃ result space', create system space contents config = .ok (result, space') ∧
      ((∃ e, result = .error e ∧ Mapped system base ⟨space', live⟩ ∧
          ((ThreadGraveyard.create config.numGraveEntries).Creates ⟨[]⟩ →
            ∃ s, ∃ length ∈ lengths system specs, system.place s length = none)) ∨
        ∃ new, result = .ok new ∧ new.Made specs pools ∧ Backs new.bundle system limit specs ∧
          Mapped system base ⟨space', new.bundle.ranges specs ++ live⟩) := by
  obtain ⟨memory, space₁, hok, hcases⟩ := fromSpecs_cases huser hreq hmapped
  unfold Created.Creates at hspecs hpools
  unfold create
  rw [hspecs, ok_bind]
  dsimp only
  rw [hpools, ok_bind]
  dsimp only
  rw [hok, ok_bind]
  dsimp only
  rcases hcases with ⟨e, rfl, hfreed, hrefused⟩ | ⟨bundle, rfl, hbacks, hmapped₁⟩
  · exact ⟨_, _, rfl, .inl ⟨_, rfl, hfreed, fun _ => hrefused⟩⟩
  dsimp only
  by_cases hgrave : isAlignment config.numGraveEntries = true ∧
      config.numGraveEntries ≤ confGraveyardSlotCount
  · have hgraveyard : (ThreadGraveyard.create config.numGraveEntries).run = .ok (.ok ⟨[]⟩) := by
      unfold ThreadGraveyard.create checkReturnVal
      rw [if_pos hgrave.1, if_pos hgrave.2]
      rfl
    rw [hgraveyard, ok_bind]
    exact ⟨_, _, rfl, .inr ⟨_, rfl, ⟨rfl, rfl, rfl, rfl, fun _ => rfl, rfl⟩, hbacks, hmapped₁⟩⟩
  · obtain ⟨e, hgraveyard⟩ : ∃ e, (ThreadGraveyard.create config.numGraveEntries).run =
        .ok (.error e) := by
      unfold ThreadGraveyard.create checkReturnVal
      by_cases hpow : isAlignment config.numGraveEntries = true
      · rw [if_pos hpow, if_neg fun hle => hgrave ⟨hpow, hle⟩]
        exact ⟨_, rfl⟩
      · rw [if_neg hpow]
        exact ⟨_, rfl⟩
    rw [hgraveyard, ok_bind]
    refine ⟨_, _, rfl, .inl ⟨_, rfl, release_mapped huser.toSound hbacks.complete hmapped₁, ?_⟩⟩
    intro hcreates
    unfold Created.Creates at hcreates
    rw [hgraveyard] at hcreates
    cases hcreates

/-! ### `cuw3.cpp` -/

open Process (cuw3Specs)

/-- The process before the first call. -/
def api (new : NewAllocator) : Api := ⟨new.alloc, fun _ => none, []⟩

theorem requestable_cuw3Specs : Requestable cuw3Specs where
  regions := by decide
  handles := by decide
  poolHandles := by decide

theorem creates_cuw3Specs :
    (RegionChunkAllocatorSpecs.create cuw3CreateAllocatorConfig.rcaSpecsConfig).Creates cuw3Specs :=
  rfl

variable {new : NewAllocator}

/-- Programs can start with an allocator that was made as `cuw3.cpp` asks for. -/
theorem Made.start (h : new.Made cuw3Specs (.build cuw3Specs 16))
    (hbacks : Backs new.bundle system limit cuw3Specs) (hlimit : limit < 2 ^ 64) :
    Program.Start vmemHugePageSize ⟨some new.api, []⟩ := by
  have hcomplete := hbacks.complete
  simp only [AllocatorMemoryBundle.complete, ne_eq, Bool.and_eq_true, decide_eq_true_eq]
    at hcomplete
  have hregions := hbacks.regions_end
  have hhandles := hbacks.handles_end
  have hspecs := h.specs
  refine ⟨rfl, fun api hapi => ?_⟩
  obtain rfl := Option.mem_some_iff.mp hapi
  refine ⟨?_, ?_, fun _ => rfl⟩
  · constructor
    case fresh =>
      constructor
      case specs =>
        refine ⟨cuw3CreateAllocatorConfig.rcaSpecsConfig, ?_⟩
        show (RegionChunkAllocatorSpecs.create _).Creates new.alloc.rca.specs
        rw [hspecs]
        exact creates_cuw3Specs
      case pools =>
        refine ⟨16, ?_⟩
        show (RegionChunkAllocatorPools.create new.alloc.rca.specs 16).Creates new.alloc.rca.pools
        rw [hspecs, h.pools]
        rfl
      case fits =>
        show new.alloc.rca.specs.Fits
        rw [hspecs]
        exact ⟨by decide, by decide⟩
      case mapped =>
        show new.alloc.rca.MappedHandles
        refine ⟨⟨?_, ?_, ?_⟩, ?_⟩
        · rw [h.regions]
          exact Nat.pos_of_ne_zero hcomplete.1.1
        · rw [h.regions, hspecs]
          exact lt_of_le_of_lt hregions hlimit
        · rw [h.handles]
          exact Nat.pos_of_ne_zero hcomplete.1.2
        · rw [h.handles, hspecs]
          exact lt_of_le_of_lt hhandles hlimit
      case threads_nodup => exact .nil
      case address => exact fun t ht => absurd ht List.not_mem_nil
      case tlas => exact fun t ht => absurd ht List.not_mem_nil
    case reserved => exact h.committed
    case graveyard => exact h.graveyard
    case tlas => rfl
    case released => rfl
    case live => rfl
    case foreign => rfl
  · constructor
    case specs =>
      show (RegionChunkAllocatorSpecs.create _).Creates new.alloc.rca.specs
      rw [hspecs]
      exact creates_cuw3Specs
    case regions =>
      show new.alloc.rca.specs.regionAlignment ∣ new.alloc.rca.regions
      rw [hspecs, h.regions]
      exact hbacks.regions_dvd
    case handles =>
      show new.alloc.rca.specs.handleAlignment ∣ new.alloc.rca.handles
      rw [hspecs, h.handles]
      exact hbacks.handles_dvd

/-- The ranges of an allocator, with the one of the object. -/
def ranges (new : NewAllocator) (allocMem allocSize : Nat) : List Block :=
  new.bundle.ranges new.alloc.rca.specs ++ [⟨allocMem, allocSize⟩]

/-- The lengths that are mapped for an allocator. -/
def mapLengths (system : System) (allocSize : Nat) : List Nat :=
  allocSize :: lengths system cuw3Specs

/-- **`cuw3_create_allocator` makes an allocator, or leaves nothing behind.**  It fails only if a
mapping is refused.  Otherwise programs can start with the allocator, exactly its four ranges are
mapped in addition, and freeing them restores the address space. -/
theorem cuw3CreateAllocator_cases {allocSize : Nat} (huser : system.UserSpace limit)
    (hlimit : limit < 2 ^ 64) (hsize : 1 ≤ allocSize) (space : AddressSpace)
    (contents : Contents) :
    ∃ result space', cuw3CreateAllocator system space contents allocSize = .ok (result, space') ∧
      ((result = none ∧ space'.pages = space.pages ∧
          ∃ s, ∃ length ∈ mapLengths system allocSize, system.place s length = none) ∨
        ∃ allocMem new, result = some (allocMem, new) ∧ new.Made cuw3Specs (.build cuw3Specs 16) ∧
          Program.Start vmemHugePageSize ⟨some new.api, []⟩ ∧
          Mapped system space.pages ⟨space', new.ranges allocMem allocSize⟩ ∧
          (system.vmemFree (new.destroy system space') allocMem allocSize).2.pages =
            space.pages) := by
  have hsound := huser.toSound
  have hstart : Mapped system space.pages ⟨space, []⟩ :=
    ⟨.nil _, fun b hb => absurd hb List.not_mem_nil⟩
  unfold cuw3CreateAllocator
  obtain ⟨allocMem, space₁, hok₁⟩ : ∃ allocMem space₁,
      system.vmemAlloc space allocSize vMemReserveCommit = (allocMem, space₁) := ⟨_, _, rfl⟩
  rw [hok₁]
  dsimp only
  rcases vmemAlloc_cases huser hok₁ with ⟨rfl, rfl, hrefused⟩ | hobtains
  · rw [if_pos rfl]
    exact ⟨_, _, rfl, .inl ⟨rfl, rfl, _, _, List.mem_cons_self, hrefused rfl⟩⟩
  rw [if_neg hobtains.pos.ne']
  have hmapped₁ := hstart.obtain hsound hsize hobtains
  have hpools : (RegionChunkAllocatorPools.create cuw3Specs
      cuw3CreateAllocatorConfig.contentionSplit).Creates (.build cuw3Specs 16) := rfl
  obtain ⟨result, space₂, hok₂, hcases⟩ :=
    create_cases huser requestable_cuw3Specs creates_cuw3Specs hpools contents hmapped₁
  rw [hok₂, ok_bind]
  dsimp only
  rcases hcases with ⟨e, rfl, hmapped₂, hrefused⟩ | ⟨new, rfl, hmade, hbacks, hmapped₂⟩
  · obtain ⟨s, length, hmem, hplace⟩ := hrefused rfl
    have hrestored := (hmapped₂.release hsound).overlay.eq_base
    exact ⟨_, _, rfl, .inl ⟨rfl, hrestored, s, length, List.mem_cons_of_mem _ hmem, hplace⟩⟩
  · have hranges : Mapped system space.pages ⟨space₂, new.ranges allocMem allocSize⟩ := by
      unfold ranges
      rw [hmade.specs]
      exact hmapped₂
    have hdestroyed := release_mapped hsound hbacks.complete hranges
    refine ⟨_, _, rfl, .inr ⟨_, new, rfl, hmade, hmade.start hbacks hlimit, hranges, ?_⟩⟩
    exact (hdestroyed.release hsound).overlay.eq_base

end NewAllocator

/-! ### A system -/

/-- Pages of 1 GiB, and mappings of up to 512 of them at the first free place from page 1 on. -/
def oneGiB : System where
  pageSize := 2 ^ 30
  place space size :=
    let pages := (size + 2 ^ 30 - 1) / 2 ^ 30
    if pages ≤ 512 then
      ((List.range' 1 1024).find? fun start =>
        (List.range' start pages).all fun page => (space.pages page).isNone).map (· * 2 ^ 30)
    else none
  protects _ _ _ := true

theorem oneGiB_place {size mem : Nat} (h : oneGiB.place space size = some mem) :
    ∃ start pages, mem = start * 2 ^ 30 ∧ size ≤ pages * 2 ^ 30 ∧ pages * 2 ^ 30 < size + 2 ^ 30 ∧
      1 ≤ start ∧ start < 1025 ∧ pages ≤ 512 ∧
      ∀ page, start ≤ page → page < start + pages → space.pages page = none := by
  unfold oneGiB at h
  dsimp only at h
  split_ifs at h with hpages
  obtain ⟨start, hfind, rfl⟩ := Option.map_eq_some_iff.mp h
  have hmem := List.mem_range'_1.mp (List.mem_of_find?_eq_some hfind)
  have hall := List.find?_some hfind
  rw [List.all_eq_true] at hall
  refine ⟨start, _, rfl, ?_, ?_, hmem.1, by omega, hpages, fun page hle hlt => ?_⟩
  · omega
  · omega
  · exact Option.isNone_iff_eq_none.mp (hall page (List.mem_range'_1.mpr ⟨hle, hlt⟩))

theorem oneGiB_userSpace : oneGiB.UserSpace (2 ^ 41) where
  pageSize := by decide
  dvd h := by
    obtain ⟨start, pages, rfl, -⟩ := oneGiB_place h
    exact Nat.dvd_mul_left _ _
  ne_zero h := by
    obtain ⟨start, pages, rfl, -, -, hpos, -⟩ := oneGiB_place h
    omega
  le h := by
    obtain ⟨start, pages, rfl, hsize, -, -, hlt, hpages, -⟩ := oneGiB_place h
    omega
  free {space size mem page} h htouches := by
    obtain ⟨start, pages, rfl, hsize, -, -, -, -, hfree⟩ := oneGiB_place h
    have hpage := (touches_iff (show 0 < oneGiB.pageSize by decide)
      (Nat.dvd_mul_left _ _)).mp htouches
    have hpageSize : oneGiB.pageSize = 2 ^ 30 := rfl
    rw [hpageSize] at hpage
    exact hfree page (by omega) (by omega)
  end_le h := by
    obtain ⟨start, pages, rfl, hsize, -, -, hlt, hpages, -⟩ := oneGiB_place h
    omega

/-- The memory of a new process. -/
def sampleContents : Contents :=
  { heap := fun _ => default
    tlas := Process.sampleProcess.alloc.tlas
    cleanups := fun _ => ⟨0, 0, 0⟩
    poolHandles := fun _ => 0 }

/-- In an empty address space the allocator is made, and leaves nothing when it is destroyed. -/
theorem cuw3CreateAllocator_cases_oneGiB : ∃ allocMem new space',
    cuw3CreateAllocator oneGiB ⟨fun _ => none, []⟩ sampleContents 4096 =
      .ok (some (allocMem, new), space') ∧
    Program.Start vmemHugePageSize ⟨some new.api, []⟩ ∧
    ∀ page, (oneGiB.vmemFree (new.destroy oneGiB space') allocMem 4096).2.pages page = none := by
  have hsome : (cuw3CreateAllocator oneGiB ⟨fun _ => none, []⟩ sampleContents 4096).toOption.map
      (fun result => result.1.isSome) = some true := by
    decide +kernel
  obtain ⟨result, space', hok, ⟨rfl, -⟩ | ⟨allocMem, new, rfl, -, hstart, -, hfreed⟩⟩ :=
    NewAllocator.cuw3CreateAllocator_cases oneGiB_userSpace (by decide) (show 1 ≤ 4096 by decide)
      ⟨fun _ => none, []⟩ sampleContents
  · rw [hok] at hsome
    cases hsome
  · exact ⟨allocMem, new, space', hok, hstart, fun page => congrFun hfreed page⟩

end Cuw3
