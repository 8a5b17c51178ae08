/-
  An aligned reservation is trimmed to what was asked for.

  `vmem_alloc_aligned` maps an alignment more than it needs and unmaps what lies before and behind
  the aligned range.  For every address that `mmap` may answer, the head, the kept range and the
  tail are whole pages and tile the mapping (`Trimmed.tiles`), so that only the kept range stays
  mapped, and `vmem_free` leaves the address space as it was (`vmemAllocAligned_trims`).
-/
import Cuw3.Base.Vmem
import Cuw3.Base.Equiv.Funcs
import Cuw3.Lib.Tiling

namespace Cuw3.System

open Lib (Tiles)

variable {system : System} {space later : AddressSpace} {mem size page keep a b c : Nat}

/-! ### Ranges of whole pages -/

theorem touches_iff (hpos : 0 < system.pageSize) (hmem : system.pageSize ∣ mem) :
    system.touches mem size page = true ↔
      mem ≤ page * system.pageSize ∧ page * system.pageSize < mem + size := by
  obtain ⟨k, rfl⟩ := hmem
  unfold touches
  rw [Bool.and_eq_true, decide_eq_true_eq, decide_eq_true_eq, Nat.mul_comm system.pageSize k,
    Nat.mul_lt_mul_right hpos, Nat.mul_le_mul_right_iff hpos, Nat.lt_succ_iff]

/-- A page is touched as soon as the range reaches it: only the rounded size matters. -/
theorem touches_alignUp (hpos : 0 < system.pageSize) (hmem : system.pageSize ∣ mem) :
    system.touches mem (alignUp size system.pageSize) page = system.touches mem size page := by
  rw [Bool.eq_iff_iff, touches_iff hpos hmem, touches_iff hpos hmem]
  obtain ⟨k, rfl⟩ := hmem
  refine and_congr_right fun hge => ?_
  constructor
  · intro hlt
    by_contra hnot
    have hle : size ≤ system.pageSize * (page - k) := by
      rw [Nat.mul_sub, Nat.mul_comm system.pageSize page]
      omega
    have hround := alignUp_le_of_dvd hpos (Dvd.intro _ rfl) hle
    rw [Nat.mul_sub, Nat.mul_comm system.pageSize page] at hround
    omega
  · intro hlt
    have hle := le_alignUp (v := size) hpos
    omega

/-- `munmap` of whole pages. -/
theorem munmap_eq (hmem : system.pageSize ∣ mem) (hsize : 0 < size) :
    system.munmap space mem size = (true, {
      pages := fun page => if system.touches mem size page then none else space.pages page
      unmaps := (mem, size) :: space.unmaps }) := by
  unfold munmap
  rw [if_pos ⟨Nat.mod_eq_zero_of_dvd hmem, hsize⟩]

/-! ### The system -/

/-- What the system promises: pages have a power of two as their size, and a new mapping consists of
pages that were not mapped. -/
structure Sound (system : System) : Prop where
  pageSize : isAlignment system.pageSize = true
  dvd : ∀ {space size mem}, system.place space size = some mem → system.pageSize ∣ mem
  ne_zero : ∀ {space size mem}, system.place space size = some mem → mem ≠ 0
  le : ∀ {space size mem}, system.place space size = some mem → mem + size ≤ 2 ^ 64
  free : ∀ {space size mem page}, system.place space size = some mem →
    system.touches mem size page = true → space.pages page = none

/-- The page sizes and the alignments are powers of two. -/
theorem dvd_of_lt (ha : isAlignment a = true) (hb : isAlignment b = true) (h : a < b) : a ∣ b := by
  obtain ⟨i, -, rfl⟩ := isAlignment_iff.mp ha
  obtain ⟨j, -, rfl⟩ := isAlignment_iff.mp hb
  exact Nat.pow_dvd_pow 2 (Nat.pow_lt_pow_iff_right (by decide) |>.mp h).le

/-! ### Trimming -/

/-- Of the mapping `[rawMem, rawMem + total)` only `[mem, mem + keep)` is left in `space'`. -/
structure Trimmed (system : System) (alignment size allocType rawMem total keep mem : Nat)
    (space space' : AddressSpace) : Prop where
  /-- The result is aligned. -/
  aligned : alignment ∣ mem
  /-- The head, the kept range and the tail are disjoint and make up the mapping. -/
  tiles : Tiles rawMem (rawMem + total)
    [(rawMem, mem), (mem, mem + keep), (mem + keep, rawMem + total)]
  /-- They consist of whole pages. -/
  whole : ∀ r ∈ [(rawMem, mem), (mem, mem + keep), (mem + keep, rawMem + total)],
    system.pageSize ∣ r.1 ∧ system.pageSize ∣ r.2
  tail : mem + keep < rawMem + total
  /-- The tail was unmapped, and the head where there is one. -/
  unmaps : space'.unmaps = (mem + keep, rawMem + total - (mem + keep)) ::
    ((if rawMem < mem then [(rawMem, mem - rawMem)] else []) ++ space.unmaps)
  /-- What is mapped now is what was mapped before, and the kept range. -/
  pages : ∃ protection, (allocType &&& vMemCommit = 0 → protection = .none) ∧
    ∀ page, space'.pages page =
      if system.touches mem keep page then some protection else space.pages page
  /-- Freeing unmaps the kept range, whatever else happened in between. -/
  free : ∀ later, system.vmemFree later mem size = (true, {
    pages := fun page => if system.touches mem keep page then none else later.pages page
    unmaps := (mem, size) :: later.unmaps })
  /-- Freeing leaves nothing of the mapping. -/
  restores : (system.vmemFree space' mem size).2.pages = space.pages

section

variable {alignment allocType rawMem total : Nat}

/-- The address space after the mapping. -/
def mapped (system : System) (space : AddressSpace) (rawMem total : Nat) : AddressSpace :=
  { space with pages := fun page =>
      if system.touches rawMem total page then some .none else space.pages page }

/-- The address space after the unmapping of the head and the tail. -/
def trim (system : System) (space : AddressSpace) (rawMem total mem keep : Nat) : AddressSpace where
  pages page := if system.touches mem keep page then some .none else space.pages page
  unmaps := (mem + keep, rawMem + total - (mem + keep)) ::
    ((if rawMem < mem then [(rawMem, mem - rawMem)] else []) ++ space.unmaps)

theorem vmemAlloc_reserve (hplace : system.place space total = some rawMem) :
    system.vmemAlloc space total vMemReserve = (rawMem, system.mapped space rawMem total) := by
  unfold vmemAlloc mmap
  rw [hplace]
  rfl

theorem vmemAlloc_reserve_failed (hplace : system.place space total = none) :
    system.vmemAlloc space total vMemReserve = (0, space) := by
  unfold vmemAlloc mmap
  rw [hplace]
  rfl

/-- The kept range of a mapping of whole pages. -/
structure Keeps (system : System) (rawMem total mem keep : Nat) : Prop where
  raw_dvd : system.pageSize ∣ rawMem
  total_dvd : system.pageSize ∣ total
  mem_dvd : system.pageSize ∣ mem
  keep_dvd : system.pageSize ∣ keep
  le : rawMem ≤ mem
  lt : mem + keep < rawMem + total

/-- A page of the mapping is one of the head, of the kept range or of the tail. -/
theorem Keeps.pages (h : system.Keeps rawMem total mem keep) (hpos : 0 < system.pageSize)
    (hfree : system.touches rawMem total page = true → space.pages page = none) :
    (if system.touches (mem + keep) (rawMem + total - (mem + keep)) page then none
      else if system.touches rawMem (mem - rawMem) page then none
      else (system.mapped space rawMem total).pages page) =
        (system.trim space rawMem total mem keep).pages page := by
  have htail : system.pageSize ∣ mem + keep := Nat.dvd_add h.mem_dvd h.keep_dvd
  have hle := h.le
  have hlt := h.lt
  simp only [mapped, trim, touches_iff hpos htail, touches_iff hpos h.raw_dvd,
    touches_iff hpos h.mem_dvd] at hfree ⊢
  generalize page * system.pageSize = q at hfree ⊢
  by_cases hin : rawMem ≤ q ∧ q < rawMem + total
  · rw [hfree hin]
    by_cases hkeep : mem ≤ q ∧ q < mem + keep
    · have hnotTail : ¬(mem + keep ≤ q ∧ q < mem + keep + (rawMem + total - (mem + keep))) := by
        omega
      have hnotHead : ¬(rawMem ≤ q ∧ q < rawMem + (mem - rawMem)) := by omega
      rw [if_neg hnotTail, if_neg hnotHead, if_pos hin, if_pos hkeep]
    · rw [if_neg hkeep]
      by_cases hhigh : mem + keep ≤ q
      · rw [if_pos ⟨hhigh, by omega⟩]
      · have hhead : rawMem ≤ q ∧ q < rawMem + (mem - rawMem) := by omega
        rw [if_pos hhead, ite_self]
  · have hnotTail : ¬(mem + keep ≤ q ∧ q < mem + keep + (rawMem + total - (mem + keep))) := by
      omega
    have hnotHead : ¬(rawMem ≤ q ∧ q < rawMem + (mem - rawMem)) := by omega
    have hnotKeep : ¬(mem ≤ q ∧ q < mem + keep) := by omega
    rw [if_neg hnotTail, if_neg hnotHead, if_neg hin, if_neg hnotKeep]

theorem touches_zero (hpos : 0 < system.pageSize) (hmem : system.pageSize ∣ mem) :
    system.touches mem 0 page = false := by
  rw [← Bool.not_eq_true, touches_iff hpos hmem]
  omega

/-- The calls of `munmap` leave the kept range. -/
theorem Keeps.trim_eq (h : system.Keeps rawMem total mem keep) (hpos : 0 < system.pageSize)
    (hfree : ∀ page, system.touches rawMem total page = true → space.pages page = none) :
    (system.vmemFree (if mem - rawMem > 0
        then (system.vmemFree (system.mapped space rawMem total) rawMem (mem - rawMem)).2
        else system.mapped space rawMem total)
      (mem + keep) (rawMem + total - (mem + keep))).2 = system.trim space rawMem total mem
        keep := by
  have hlt := h.lt
  have htail : system.pageSize ∣ mem + keep := Nat.dvd_add h.mem_dvd h.keep_dvd
  have hpages := fun page => h.pages hpos (hfree page)
  unfold vmemFree
  rw [munmap_eq htail (by omega)]
  by_cases hhead : mem - rawMem > 0
  · rw [if_pos hhead, munmap_eq h.raw_dvd hhead]
    unfold trim
    rw [if_pos (show rawMem < mem by omega)]
    exact congrArg₂ AddressSpace.mk (funext hpages) rfl
  · rw [if_neg hhead]
    unfold trim
    rw [if_neg (show ¬rawMem < mem by omega)]
    refine congrArg₂ AddressSpace.mk (funext fun page => ?_) rfl
    have hpage := hpages page
    rw [show mem - rawMem = 0 by omega, touches_zero hpos h.raw_dvd] at hpage
    exact hpage

theorem keeps_alignUp (hsound : system.Sound) (halign : isAlignment alignment = true)
    (hlarge : system.pageSize < alignment)
    (hplace : system.place space (alignUp size alignment + alignment) = some rawMem) :
    system.Keeps rawMem (alignUp size alignment + alignment) (alignUp rawMem alignment)
      (alignUp size system.pageSize) := by
  have hpos : 0 < alignment := isAlignment_pos halign
  have hpagePos : 0 < system.pageSize := isAlignment_pos hsound.pageSize
  have hdvd : system.pageSize ∣ alignment := dvd_of_lt hsound.pageSize halign hlarge
  have hkeep : alignUp size system.pageSize ≤ alignUp size alignment :=
    alignUp_le_of_dvd hpagePos (hdvd.trans (alignUp_dvd _ _)) (le_alignUp hpos)
  have hmem : alignUp rawMem alignment < rawMem + alignment := alignUp_lt hpos
  constructor
  · exact hsound.dvd hplace
  · exact Nat.dvd_add (hdvd.trans (alignUp_dvd _ _)) hdvd
  · exact hdvd.trans (alignUp_dvd _ _)
  · exact alignUp_dvd _ _
  · exact le_alignUp hpos
  · omega

/-- The address space after the kept range was committed, if that was asked for. -/
def commitKept (system : System) (allocType mem keep : Nat) (space : AddressSpace) : AddressSpace :=
  if allocType &&& vMemCommit ≠ 0 then (system.vmemCommit space mem keep).2 else space

/-- Committing changes only the rights of the kept pages. -/
theorem commitKept_pages : ∃ protection, (allocType &&& vMemCommit = 0 → protection = .none) ∧
    ∀ page, (system.commitKept allocType mem keep
      (system.trim space rawMem total mem keep)).pages page =
        if system.touches mem keep page then some protection else space.pages page := by
  unfold commitKept
  split
  case isTrue hcommit =>
    unfold vmemCommit mprotect
    split
    · refine ⟨.readWrite, fun hzero => absurd hzero hcommit, fun page => ?_⟩
      unfold trim
      by_cases htouches : system.touches mem keep page = true
      · simp only [if_pos htouches, Option.map_some]
      · simp only [if_neg htouches]
    · exact ⟨.none, fun _ => rfl, fun page => rfl⟩
  case isFalse => exact ⟨.none, fun _ => rfl, fun page => rfl⟩

theorem commitKept_unmaps : (system.commitKept allocType mem keep space).unmaps = space.unmaps := by
  unfold commitKept vmemCommit mprotect
  split
  · split
    · rfl
    · rfl
  · rfl

/-- What `vmem_alloc_aligned` computes when `mmap` answers an address. -/
theorem vmemAllocAligned_eq (hsound : system.Sound) (halign : isAlignment alignment = true)
    (hlarge : system.pageSize < alignment) (htype : reserveOrReserveCommit allocType = true)
    (hfit : alignUp size alignment + alignment < 2 ^ 64)
    (hplace : system.place space (alignUp size alignment + alignment) = some rawMem) :
    system.vmemAllocAligned space size allocType alignment = .ok (alignUp rawMem alignment,
      system.commitKept allocType (alignUp rawMem alignment) (alignUp size system.pageSize)
        (system.trim space rawMem (alignUp size alignment + alignment) (alignUp rawMem alignment)
          (alignUp size system.pageSize))) := by
  have hpos : 0 < alignment := isAlignment_pos halign
  have hkeeps := keeps_alignUp hsound halign hlarge hplace
  have hraw : rawMem + (alignUp size alignment + alignment) ≤ 2 ^ 64 := hsound.le hplace
  have hrawPos : rawMem ≠ 0 := hsound.ne_zero hplace
  have hle : size ≤ alignUp size alignment := le_alignUp hpos
  have hmem := hkeeps.le
  have hlt := hkeeps.lt
  -- no step of the computation wraps around
  have halignedSize : align size alignment = .ok (alignUp size alignment) :=
    align_of_le halign (by omega)
  have halignedMem : align rawMem alignment = .ok (alignUp rawMem alignment) :=
    align_of_le halign (by omega)
  have hpageSize : align size system.pageSize = .ok (alignUp size system.pageSize) :=
    align_of_le hsound.pageSize (by omega)
  have hhead : subptr (alignUp rawMem alignment) rawMem = alignUp rawMem alignment - rawMem :=
    sub64_of_le (by omega) hmem
  have htail : sub64 (sub64 (alignUp size alignment + alignment) (alignUp size system.pageSize))
      (alignUp rawMem alignment - rawMem) =
        rawMem + (alignUp size alignment + alignment) -
          (alignUp rawMem alignment + alignUp size system.pageSize) := by
    rw [sub64_of_le hfit (by omega), sub64_of_le (by omega) (by omega)]
    omega
  have hadvance : advancePtr (alignUp rawMem alignment) (alignUp size system.pageSize) =
      .ok (alignUp rawMem alignment + alignUp size system.pageSize) := by
    rw [advancePtr_eq (by omega), u64_of_lt (by omega)]
  have htrim := hkeeps.trim_eq (isAlignment_pos hsound.pageSize) fun page => hsound.free hplace
  unfold vmemAllocAligned
  simp only [htype, Bool.not_true, if_false, vmemPageSize, Nat.max_eq_right hlarge.le, hlarge.ne',
    halignedSize, u64_of_lt hfit, ok_bind, vmemAlloc_reserve hplace, hrawPos, halignedMem, hhead,
    hpageSize, htail, hadvance, htrim]
  rfl

theorem vmemAllocAligned_failed (halign : isAlignment alignment = true)
    (hlarge : system.pageSize < alignment) (htype : reserveOrReserveCommit allocType = true)
    (hfit : alignUp size alignment + alignment < 2 ^ 64)
    (hplace : system.place space (alignUp size alignment + alignment) = none) :
    system.vmemAllocAligned space size allocType alignment = .ok (0, space) := by
  have hle : size ≤ alignUp size alignment := le_alignUp (isAlignment_pos halign)
  have halignedSize : align size alignment = .ok (alignUp size alignment) :=
    align_of_le halign (by omega)
  unfold vmemAllocAligned
  simp only [htype, Bool.not_true, if_false, vmemPageSize, Nat.max_eq_right hlarge.le, hlarge.ne',
    halignedSize, u64_of_lt hfit, ok_bind, vmemAlloc_reserve_failed hplace]
  rfl

theorem vmemFree_eq (hpos : 0 < system.pageSize) (hmem : system.pageSize ∣ mem) (hsize : 1 ≤ size) :
    system.vmemFree space mem size = (true, {
      pages := fun page =>
        if system.touches mem (alignUp size system.pageSize) page then none else space.pages page
      unmaps := (mem, size) :: space.unmaps }) := by
  unfold vmemFree
  rw [munmap_eq hmem hsize]
  congr 2
  funext page
  rw [touches_alignUp hpos hmem]

/-- **An aligned reservation is trimmed to the pages it needs, whatever address `mmap` answers.** -/
theorem vmemAllocAligned_trims (system : System) (space : AddressSpace)
    (size allocType alignment : Nat) (hsound : system.Sound) (hsize : 1 ≤ size)
    (halign : isAlignment alignment = true) (hlarge : system.pageSize < alignment)
    (htype : reserveOrReserveCommit allocType = true)
    (hfit : alignUp size alignment + alignment < 2 ^ 64) :
    (system.place space (alignUp size alignment + alignment) = none →
      system.vmemAllocAligned space size allocType alignment = .ok (0, space)) ∧
    ∀ rawMem, system.place space (alignUp size alignment + alignment) = some rawMem →
      ∃ mem space', system.vmemAllocAligned space size allocType alignment = .ok (mem, space') ∧
        system.Trimmed alignment size allocType rawMem (alignUp size alignment + alignment)
          (alignUp size system.pageSize) mem space space' := by
  refine ⟨vmemAllocAligned_failed halign hlarge htype hfit, fun rawMem hplace => ?_⟩
  have hpagePos : 0 < system.pageSize := isAlignment_pos hsound.pageSize
  have hkeeps := keeps_alignUp hsound halign hlarge hplace
  have hmemDvd := hkeeps.mem_dvd
  have htailDvd : system.pageSize ∣ alignUp rawMem alignment + alignUp size system.pageSize :=
    Nat.dvd_add hmemDvd hkeeps.keep_dvd
  refine ⟨_, _, vmemAllocAligned_eq hsound halign hlarge htype hfit hplace, ?_⟩
  obtain ⟨protection, hnone, hpages⟩ := system.commitKept_pages
  constructor
  case aligned => exact alignUp_dvd _ _
  case tiles => exact ⟨rfl, hkeeps.le, rfl, Nat.le_add_right _ _, rfl, hkeeps.lt.le, rfl⟩
  case whole =>
    have htotalDvd := Nat.dvd_add hkeeps.raw_dvd hkeeps.total_dvd
    simp only [List.mem_cons, List.not_mem_nil, or_false]
    rintro r (rfl | rfl | rfl)
    · exact ⟨hkeeps.raw_dvd, hmemDvd⟩
    · exact ⟨hmemDvd, htailDvd⟩
    · exact ⟨htailDvd, htotalDvd⟩
  case tail => exact hkeeps.lt
  case unmaps => exact commitKept_unmaps
  case pages => exact ⟨protection, hnone, hpages⟩
  case free => exact fun later => vmemFree_eq hpagePos hmemDvd hsize
  case restores =>
    rw [vmemFree_eq hpagePos hmemDvd hsize]
    funext page
    show (if _ then none else _) = _
    rw [hpages]
    by_cases htouches : system.touches (alignUp rawMem alignment)
        (alignUp size system.pageSize) page = true
    · -- a kept page is one of the mapping, which was not mapped before
      have hraw : system.touches rawMem (alignUp size alignment + alignment) page = true := by
        have hle := hkeeps.le
        have hlt := hkeeps.lt
        rw [touches_iff hpagePos hmemDvd] at htouches
        rw [touches_iff hpagePos hkeeps.raw_dvd]
        omega
      rw [if_pos htouches, hsound.free hplace hraw]
    · rw [if_neg htouches, if_neg htouches]

/-- Pages of 4 KiB, and mappings of up to 64 KiB that are put at page 5 where nothing is mapped yet.
-/
def fourKiB : System where
  pageSize := 4096
  place space size :=
    if size ≤ 2 ^ 16 ∧ ∀ page < 32, space.pages page = none then some 20480 else none
  protects _ _ _ := true

theorem fourKiB_place (h : fourKiB.place space size = some mem) :
    mem = 20480 ∧ size ≤ 2 ^ 16 ∧ ∀ page < 32, space.pages page = none := by
  unfold fourKiB at h
  dsimp only at h
  split at h
  case isTrue hfits =>
    cases h
    exact ⟨rfl, hfits⟩
  case isFalse => cases h

theorem fourKiB_sound : fourKiB.Sound where
  pageSize := by decide
  dvd h := by
    rw [(fourKiB_place h).1]
    decide
  ne_zero h := by
    rw [(fourKiB_place h).1]
    decide
  le h := by
    obtain ⟨rfl, hsize, -⟩ := fourKiB_place h
    omega
  free {space size mem page} h htouches := by
    obtain ⟨rfl, hsize, hfree⟩ := fourKiB_place h
    apply hfree
    have hpage := (touches_iff (show 0 < fourKiB.pageSize by decide) (by decide)).mp htouches
    have hpageSize : fourKiB.pageSize = 4096 := rfl
    rw [hpageSize] at hpage
    omega

/-- 10000 bytes at an alignment of 16 KiB: of the 32 KiB that are mapped at page 5, pages 8, 9 and
10 are kept. -/
theorem vmemAllocAligned_trims_fourKiB : ∃ mem space',
    fourKiB.vmemAllocAligned ⟨fun _ => none, []⟩ 10000 vMemReserveCommit 16384 = .ok (mem, space') ∧
      fourKiB.Trimmed 16384 10000 vMemReserveCommit 20480 32768 12288 mem ⟨fun _ => none, []⟩
        space' :=
  (vmemAllocAligned_trims fourKiB ⟨fun _ => none, []⟩ 10000 vMemReserveCommit 16384 fourKiB_sound
    (by decide) (by decide) (by decide) (by decide) (by decide)).2 20480 (by decide)

end

end Cuw3.System
