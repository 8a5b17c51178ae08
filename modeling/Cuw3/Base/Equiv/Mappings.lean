/-
  What programs map with `vmem.hpp`.

  A range that is allocated lies on pages that were not mapped, and only these become mapped
  (`vmemAlloc_cases`, `vmemAllocAligned_cases`); freeing it unmaps them.  So after any calls the
  mapped pages are those that were mapped before the first one and those of the ranges that are
  allocated and not freed, and the ranges are what a store of blocks shows (`reaches_mappings`).
-/
import Cuw3.Base.Equiv.Vmem
import Cuw3.Lib.BlockStore
import Cuw3.Lib.Overlay

namespace Cuw3.System

open Lib

variable {system : System} {space space' : AddressSpace} {base : Nat → Option Protection}
  {mem size page alignment allocType limit : Nat} {b : Block} {bs : List Block}

/-- Mappings end below a limit, as on systems that keep the upper addresses for themselves. -/
structure UserSpace (system : System) (limit : Nat) : Prop extends Sound system where
  end_le : ∀ {space size mem}, system.place space size = some mem → mem + size ≤ limit

/-! ### Pages -/

/-- The pages of a range. -/
def pageBlock (system : System) (mem size : Nat) : Block :=
  ⟨mem / system.pageSize, alignUp size system.pageSize / system.pageSize⟩

theorem has_pageBlock (hsound : system.Sound) (hmem : system.pageSize ∣ mem) :
    (system.pageBlock mem size).Has page ↔ system.touches mem size page = true := by
  have hpos : 0 < system.pageSize := isAlignment_pos hsound.pageSize
  rw [← touches_alignUp hpos hmem, touches_iff hpos hmem]
  have hdvd : system.pageSize ∣ alignUp size system.pageSize := alignUp_dvd _ _
  obtain ⟨k, rfl⟩ := hmem
  obtain ⟨j, hj⟩ := hdvd
  unfold pageBlock Block.Has
  rw [hj, Nat.mul_div_cancel_left _ hpos, Nat.mul_div_cancel_left _ hpos, ← Nat.mul_add,
    Nat.mul_comm page, Nat.mul_le_mul_left_iff hpos, Nat.mul_lt_mul_left hpos]

/-- A range inside of another one touches no other pages. -/
theorem touches_mono {mem' size' : Nat} (hle : mem ≤ mem') (hend : mem' + size' ≤ mem + size)
    (h : system.touches mem' size' page = true) : system.touches mem size page = true := by
  unfold touches at h ⊢
  rw [Bool.and_eq_true, decide_eq_true_eq, decide_eq_true_eq] at h ⊢
  omega

/-! ### Allocations -/

/-- The range was mapped, on pages that were not mapped before. -/
structure Obtains (system : System) (limit alignment mem size : Nat) (space space' : AddressSpace) :
    Prop where
  aligned : alignment ∣ mem
  whole : system.pageSize ∣ mem
  pos : 0 < mem
  end_le : mem + size ≤ limit
  free : ∀ page, system.touches mem size page = true → space.pages page = none
  mapped : ∀ page, system.touches mem size page = true → space'.pages page ≠ none
  frame : ∀ page, system.touches mem size page = false → space'.pages page = space.pages page

/-- `mmap`. -/
theorem obtains_mmap {protection : Protection} (huser : system.UserSpace limit)
    (hok : system.mmap space size protection = some (mem, space')) :
    system.Obtains limit system.pageSize mem size space space' := by
  unfold mmap at hok
  rw [Option.bind_eq_bind, Option.bind_eq_some_iff] at hok
  obtain ⟨raw, hplace, hok⟩ := hok
  obtain ⟨rfl, rfl⟩ := Prod.mk.inj (Option.some.inj hok)
  constructor
  case aligned => exact huser.dvd hplace
  case whole => exact huser.dvd hplace
  case pos => exact Nat.pos_of_ne_zero (huser.ne_zero hplace)
  case end_le => exact huser.end_le hplace
  case free => exact fun page => huser.free hplace
  case mapped =>
    intro page hpage
    show (if _ then _ else _) ≠ _
    rw [if_pos hpage]
    exact Option.some_ne_none _
  case frame =>
    intro page hpage
    show (if _ then _ else _) = _
    rw [hpage]
    rfl

/-- Nothing was changed, as a mapping of this length was refused. -/
structure Refuses (system : System) (allocType length mem : Nat) (space space' : AddressSpace) :
    Prop where
  null : mem = 0
  unchanged : space' = space
  refused : reserveOrReserveCommit allocType = true → system.place space length = none

/-- `vmem_alloc` fails and changes nothing, or maps the range. -/
theorem vmemAlloc_cases (huser : system.UserSpace limit)
    (hok : system.vmemAlloc space size allocType = (mem, space')) :
    system.Refuses allocType size mem space space' ∨
      system.Obtains limit system.pageSize mem size space space' := by
  have hmapped : ∀ {protection : Protection},
      (system.mmap space size protection).getD (0, space) = (mem, space') →
        system.Refuses allocType size mem space space' ∨
          system.Obtains limit system.pageSize mem size space space' := by
    intro protection hok
    cases hmmap : system.mmap space size protection with
    | none =>
      rw [hmmap] at hok
      obtain ⟨rfl, rfl⟩ := Prod.mk.inj hok
      refine .inl ⟨rfl, rfl, fun _ => ?_⟩
      unfold mmap at hmmap
      rw [Option.bind_eq_bind, Option.bind_eq_none_iff] at hmmap
      exact Option.eq_none_iff_forall_ne_some.mpr fun raw hraw =>
        Option.some_ne_none _ (hmmap raw hraw)
    | some result =>
      rw [hmmap] at hok
      obtain rfl : result = (mem, space') := hok
      exact .inr (obtains_mmap huser hmmap)
  unfold vmemAlloc at hok
  dsimp only at hok
  split_ifs at hok with hreserve hcommit
  · exact hmapped hok
  · exact hmapped hok
  · obtain ⟨rfl, rfl⟩ := Prod.mk.inj hok
    refine .inl ⟨rfl, rfl, fun htype => ?_⟩
    unfold reserveOrReserveCommit at htype
    rw [Bool.or_eq_true, beq_iff_eq, beq_iff_eq] at htype
    exact absurd htype (not_or.mpr ⟨hreserve, hcommit⟩)

/-- What a trimmed mapping leaves. -/
theorem Trimmed.obtains {rawMem : Nat} (huser : system.UserSpace limit)
    (hplace : system.place space (alignUp size alignment + alignment) = some rawMem)
    (h : system.Trimmed alignment size allocType rawMem (alignUp size alignment + alignment)
      (alignUp size system.pageSize) mem space space') :
    system.Obtains limit alignment mem size space space' := by
  have hpos : 0 < system.pageSize := isAlignment_pos huser.pageSize
  have hwhole : system.pageSize ∣ mem := (h.whole (rawMem, mem) List.mem_cons_self).2
  have hraw : system.pageSize ∣ rawMem := huser.dvd hplace
  have hend := huser.end_le hplace
  have htail := h.tail
  have hle : rawMem ≤ mem := h.tiles.2.1
  have hsize : size ≤ alignUp size system.pageSize := le_alignUp hpos
  obtain ⟨protection, -, hpages⟩ := h.pages
  have hkept : ∀ page, system.touches mem (alignUp size system.pageSize) page =
      system.touches mem size page := fun page => touches_alignUp hpos hwhole
  constructor
  case aligned => exact h.aligned
  case whole => exact hwhole
  case pos => exact lt_of_lt_of_le (Nat.pos_of_ne_zero (huser.ne_zero hplace)) hle
  case end_le => omega
  case free =>
    intro page hpage
    apply huser.free hplace
    refine touches_mono hle ?_ hpage
    omega
  case mapped =>
    intro page hpage
    rw [hpages, hkept, if_pos hpage]
    exact Option.some_ne_none _
  case frame =>
    intro page hpage
    rw [hpages, hkept, hpage]
    rfl

/-- The length of the mapping from which an aligned range is cut. -/
def mapLength (system : System) (size alignment : Nat) : Nat :=
  if system.pageSize < alignment then alignUp size alignment + alignment else size

/-- `vmem_alloc_aligned` fails and changes nothing, or maps the range. -/
theorem vmemAllocAligned_cases (huser : system.UserSpace limit) (space : AddressSpace)
    (allocType : Nat) (hsize : 1 ≤ size) (halign : isAlignment alignment = true)
    (hfit : alignUp size alignment + alignment < 2 ^ 64) :
    ∃ mem space', system.vmemAllocAligned space size allocType alignment = .ok (mem, space') ∧
      (system.Refuses allocType (system.mapLength size alignment) mem space space' ∨
        system.Obtains limit (max system.pageSize alignment) mem size space space') := by
  by_cases htype : reserveOrReserveCommit allocType = true
  swap
  · refine ⟨0, space, ?_, .inl ⟨rfl, rfl, fun htype' => absurd htype' htype⟩⟩
    rw [Bool.not_eq_true] at htype
    unfold vmemAllocAligned
    rw [htype]
    rfl
  unfold mapLength
  by_cases hlarge : system.pageSize < alignment
  · rw [Nat.max_eq_right hlarge.le, if_pos hlarge]
    obtain ⟨hfailed, htrims⟩ := vmemAllocAligned_trims system space size allocType alignment
      huser.toSound hsize halign hlarge htype hfit
    cases hplace : system.place space (alignUp size alignment + alignment) with
    | none => exact ⟨0, space, hfailed hplace, .inl ⟨rfl, rfl, fun _ => hplace⟩⟩
    | some rawMem =>
      obtain ⟨mem, space', hok, htrimmed⟩ := htrims rawMem hplace
      exact ⟨mem, space', hok, .inr (htrimmed.obtains huser hplace)⟩
  · rw [Nat.max_eq_left (not_lt.mp hlarge), if_neg hlarge]
    have hok : system.vmemAllocAligned space size allocType alignment =
        .ok (system.vmemAlloc space size allocType) := by
      unfold vmemAllocAligned vmemPageSize
      simp only [htype, Bool.not_true, Bool.false_eq_true, if_false,
        Nat.max_eq_left (not_lt.mp hlarge), if_true]
      rfl
    exact ⟨_, _, hok, vmemAlloc_cases huser rfl⟩

/-! ### The mapped pages -/

theorem Obtains.overlay (h : system.Obtains limit alignment mem size space space')
    (hsound : system.Sound) (hspace : Overlay base bs space.pages) :
    Overlay base (system.pageBlock mem size :: bs) space'.pages := by
  have hpage : ∀ page, (system.pageBlock mem size).Has page ↔ system.touches mem size page = true :=
    fun page => has_pageBlock hsound h.whole
  apply hspace.add
  · intro page hin
    exact h.free page ((hpage page).mp hin)
  · intro page hin
    exact h.mapped page ((hpage page).mp hin)
  · intro page hout
    rw [hpage, Bool.not_eq_true] at hout
    exact h.frame page hout

theorem vmemFree_overlay (hsound : system.Sound) (hmem : system.pageSize ∣ mem) (hsize : 1 ≤ size)
    (hspace : Overlay base (system.pageBlock mem size :: bs) space.pages) :
    (system.vmemFree space mem size).1 = true ∧
      Overlay base bs (system.vmemFree space mem size).2.pages := by
  unfold vmemFree
  rw [munmap_eq hmem hsize]
  refine ⟨rfl, hspace.remove (fun page hin => ?_) fun page hout => ?_⟩
  · exact if_pos ((has_pageBlock hsound hmem).mp hin)
  · rw [has_pageBlock hsound hmem] at hout
    exact if_neg hout

/-- Changes of rights inside of a range. -/
theorem mprotect_overlay {protection : Protection} {mem' size' : Nat} (hsound : system.Sound)
    (hmem : system.pageSize ∣ mem) (hb : system.pageBlock mem size ∈ bs) (hle : mem ≤ mem')
    (hend : mem' + size' ≤ mem + size) (hspace : Overlay base bs space.pages) :
    Overlay base bs (system.mprotect space mem' size' protection).2.pages := by
  unfold mprotect
  split
  case isFalse => exact hspace
  case isTrue =>
    apply hspace.keep
    · intro page
      dsimp only
      split_ifs
      · exact Option.map_eq_none_iff
      · exact Iff.rfl
    · intro page hout
      refine if_neg fun hpage => hout _ hb ?_
      exact (has_pageBlock hsound hmem).mpr (touches_mono hle hend hpage)

/-! ### Runs -/

/-- The address space, and the ranges that are allocated. -/
structure Mappings where
  space : AddressSpace
  live : List Block

/-- The calls, with the address that an allocation returned. -/
inductive VmemCall where
  | alloc (size allocType mem : Nat)
  | allocAligned (size allocType alignment mem : Nat)
  | free (mem size : Nat)
  | commit (mem size : Nat)
  | decommit (mem size : Nat)

/-- What the call means for a store of blocks. -/
def VmemCall.label (system : System) : VmemCall → Option BlockStore.Label
  | .alloc size _ mem => some (.alloc size system.pageSize mem)
  | .allocAligned size _ alignment mem => some (.alloc size (max system.pageSize alignment) mem)
  | .free mem size => some (.free mem size)
  | _ => none

/-- The ranges that are allocated after a request. -/
def liveAfter (live : List Block) (mem size : Nat) : List Block :=
  if mem = 0 then live else ⟨mem, size⟩ :: live

/-- A call.  Programs ask for ranges that are not empty, for alignments with which the rounding up
does not wrap, free what they were given, and change the rights of parts of it. -/
inductive MappingStep (system : System) (s : Mappings) : VmemCall → Mappings → Prop
  | alloc {size allocType mem : Nat} {space' : AddressSpace} (hsize : 1 ≤ size)
      (hok : system.vmemAlloc s.space size allocType = (mem, space')) :
      MappingStep system s (.alloc size allocType mem) ⟨space', liveAfter s.live mem size⟩
  | allocAligned {size allocType alignment mem : Nat} {space' : AddressSpace} (hsize : 1 ≤ size)
      (halign : isAlignment alignment = true) (hfit : alignUp size alignment + alignment < 2 ^ 64)
      (hok : system.vmemAllocAligned s.space size allocType alignment = .ok (mem, space')) :
      MappingStep system s (.allocAligned size allocType alignment mem)
        ⟨space', liveAfter s.live mem size⟩
  | free {b : Block} (hb : b ∈ s.live) :
      MappingStep system s (.free b.start b.size)
        ⟨(system.vmemFree s.space b.start b.size).2, s.live.erase b⟩
  | commit {b : Block} {mem size : Nat} (hb : b ∈ s.live) (hle : b.start ≤ mem)
      (hend : mem + size ≤ b.start + b.size) :
      MappingStep system s (.commit mem size) ⟨(system.vmemCommit s.space mem size).2, s.live⟩
  | decommit {b : Block} {mem size : Nat} {advises : Bool} (hb : b ∈ s.live) (hle : b.start ≤ mem)
      (hend : mem + size ≤ b.start + b.size) :
      MappingStep system s (.decommit mem size)
        ⟨(system.vmemDecommit s.space advises mem size).2, s.live⟩

/-- Programs that start in an address space. -/
def mappings (system : System) (space : AddressSpace) : TransitionSystem Mappings VmemCall :=
  ⟨fun s => s = ⟨space, []⟩, MappingStep system⟩

/-- The pages of the ranges. -/
def pageBlocks (system : System) (live : List Block) : List Block :=
  live.map fun b => system.pageBlock b.start b.size

/-- The mapped pages are those of `base` and those of the allocated ranges. -/
structure Mapped (system : System) (base : Nat → Option Protection) (s : Mappings) : Prop where
  overlay : Overlay base (system.pageBlocks s.live) s.space.pages
  live : ∀ b ∈ s.live, system.pageSize ∣ b.start ∧ 1 ≤ b.size

variable {s s' : Mappings} {call : VmemCall} {calls : List VmemCall}

/-- A range is mapped. -/
theorem Mapped.obtain (h : Mapped system base s) (hsound : system.Sound) (hsize : 1 ≤ size)
    (hobtains : system.Obtains limit alignment mem size s.space space') :
    Mapped system base ⟨space', ⟨mem, size⟩ :: s.live⟩ where
  overlay := hobtains.overlay hsound h.overlay
  live := by
    rw [List.forall_mem_cons]
    exact ⟨⟨hobtains.whole, hsize⟩, h.live⟩

/-- A request keeps it, and answers a block that may be handed out. -/
theorem Mapped.allocate (h : Mapped system base s) (hsound : system.Sound) (hsize : 1 ≤ size)
    {length : Nat} (hcases : system.Refuses allocType length mem s.space space' ∨
      system.Obtains limit alignment mem size s.space space') :
    Mapped system base ⟨space', liveAfter s.live mem size⟩ ∧
      BlockStore.Step limit s.live (.alloc size alignment mem) (liveAfter s.live mem size) := by
  rcases hcases with ⟨rfl, rfl, -⟩ | hobtains
  · exact ⟨h, .refuse⟩
  have hblock : BlockStore.block mem size = ⟨mem, size⟩ := by
    rw [BlockStore.block, Nat.max_eq_left hsize]
  have hlive : liveAfter s.live mem size = ⟨mem, size⟩ :: s.live := if_neg hobtains.pos.ne'
  rw [hlive]
  have hmapped := h.obtain hsound hsize hobtains
  refine ⟨hmapped, ?_⟩
  rw [← hblock]
  apply BlockStore.Step.serve
  rw [hblock]
  refine ⟨hobtains.aligned, hobtains.pos, hobtains.end_le, fun b hb x hx hxb => ?_⟩
  -- the page of an address in both would be mapped twice
  have hpages := (List.pairwise_cons.mp hmapped.overlay.apart).1 (system.pageBlock b.start b.size)
    (List.mem_map_of_mem hb) (x / system.pageSize)
  have htouches : ∀ {mem size : Nat}, mem ≤ x → x < mem + size →
      system.touches mem size (x / system.pageSize) = true := by
    intro mem size hle hlt
    have hpos : 0 < system.pageSize := isAlignment_pos hsound.pageSize
    have hfloor := Nat.div_mul_le_self x system.pageSize
    have hceil := Nat.lt_div_mul_add hpos (a := x)
    unfold touches
    rw [Bool.and_eq_true, decide_eq_true_eq, decide_eq_true_eq, Nat.add_mul]
    omega
  apply hpages
  · exact (has_pageBlock hsound hobtains.whole).mpr (htouches hx.1 hx.2)
  · exact (has_pageBlock hsound (h.live b hb).1).mpr (htouches hxb.1 hxb.2)

/-- A range is freed. -/
theorem Mapped.free (h : Mapped system base s) (hsound : system.Sound) (hb : b ∈ s.live) :
    (system.vmemFree s.space b.start b.size).1 = true ∧
      Mapped system base ⟨(system.vmemFree s.space b.start b.size).2, s.live.erase b⟩ := by
  obtain ⟨hwhole, hsize⟩ := h.live b hb
  have hperm : (system.pageBlocks s.live).Perm
      (system.pageBlock b.start b.size :: system.pageBlocks (s.live.erase b)) :=
    (List.perm_cons_erase hb).map _
  obtain ⟨hfreed, hoverlay⟩ := vmemFree_overlay hsound hwhole hsize (h.overlay.perm hperm)
  exact ⟨hfreed, hoverlay, fun c hc => h.live c (List.mem_of_mem_erase hc)⟩

/-- The last range that was allocated is freed. -/
theorem Mapped.release {live : List Block} (h : Mapped system base ⟨space, ⟨mem, size⟩ :: live⟩)
    (hsound : system.Sound) : Mapped system base ⟨(system.vmemFree space mem size).2, live⟩ := by
  have hfree := (h.free hsound List.mem_cons_self).2
  rwa [List.erase_cons_head] at hfree

theorem Mapped.perm {live live' : List Block} (h : Mapped system base ⟨space, live⟩)
    (hperm : live.Perm live') : Mapped system base ⟨space, live'⟩ :=
  ⟨h.overlay.perm (hperm.map _), fun b hb => h.live b (hperm.mem_iff.mpr hb)⟩

/-- The rights of a part of a range are changed. -/
theorem Mapped.protect {protection : Protection} (h : Mapped system base s) (hsound : system.Sound)
    (hb : b ∈ s.live) (hle : b.start ≤ mem) (hend : mem + size ≤ b.start + b.size) :
    Mapped system base ⟨(system.mprotect s.space mem size protection).2, s.live⟩ :=
  ⟨mprotect_overlay hsound (h.live b hb).1 (List.mem_map_of_mem hb) hle hend h.overlay, h.live⟩

/-- The calls are followed by a store of blocks. -/
theorem simulation (huser : system.UserSpace limit) (space : AddressSpace) :
    TransitionSystem.Simulation (system.mappings space) (BlockStore.machine limit)
      (VmemCall.label system) fun s live => live = s.live ∧ Mapped system space.pages s where
  init h := by
    obtain rfl := h
    exact ⟨[], rfl, rfl, .nil _, fun b hb => absurd hb List.not_mem_nil⟩
  follow {s call s' live k} h hstep hlabel := by
    obtain ⟨rfl, h⟩ := h
    cases hstep with
    | alloc hsize hok =>
      obtain rfl := Option.some.inj hlabel
      obtain ⟨hmapped, hserves⟩ := h.allocate huser.toSound hsize (vmemAlloc_cases huser hok)
      exact ⟨_, hserves, rfl, hmapped⟩
    | allocAligned hsize halign hfit hok =>
      obtain rfl := Option.some.inj hlabel
      obtain ⟨mem', space'', hok', hcases⟩ := vmemAllocAligned_cases huser _ _ hsize halign hfit
      obtain ⟨rfl, rfl⟩ := Prod.mk.inj (Except.ok.inj (hok.symm.trans hok'))
      obtain ⟨hmapped, hserves⟩ := h.allocate huser.toSound hsize hcases
      exact ⟨_, hserves, rfl, hmapped⟩
    | @free b hb =>
      obtain rfl := Option.some.inj hlabel
      have hblock : BlockStore.block b.start b.size = b := by
        rw [BlockStore.block, Nat.max_eq_left (h.live b hb).2]
      have hmem : BlockStore.block b.start b.size ∈ s.live := by rwa [hblock]
      have hfree : BlockStore.Step limit _ _ _ := .free hmem
      rw [hblock] at hfree
      exact ⟨_, hfree, rfl, (h.free huser.toSound hb).2⟩
    | commit => cases hlabel
    | decommit => cases hlabel
  wait {s call s' live} h hstep hlabel := by
    obtain ⟨rfl, h⟩ := h
    cases hstep with
    | alloc => cases hlabel
    | allocAligned => cases hlabel
    | free => cases hlabel
    | commit hb hle hend => exact ⟨rfl, h.protect huser.toSound hb hle hend⟩
    | decommit hb hle hend => exact ⟨rfl, h.protect huser.toSound hb hle hend⟩

/-- **Exactly what was allocated and not freed is mapped.**  After any calls the mapped pages are
those that were mapped before and those of the allocated ranges, which are apart; the answers are
those of a store of blocks; and each allocated range can be freed. -/
theorem reaches_mappings (huser : system.UserSpace limit)
    (h : (system.mappings space).Reaches calls s) :
    (∀ page, s.space.pages page ≠ none ↔ space.pages page ≠ none ∨
      ∃ b ∈ s.live, system.touches b.start b.size page = true) ∧
    (∀ page, (∀ b ∈ s.live, system.touches b.start b.size page = false) →
      s.space.pages page = space.pages page) ∧
    (BlockStore.machine limit).Reaches (calls.filterMap (VmemCall.label system)) s.live ∧
    ∀ b ∈ s.live, (system.vmemFree s.space b.start b.size).1 = true := by
  obtain ⟨_, hstore, rfl, hmapped⟩ := (simulation huser space).reaches h
  have hpage : ∀ page, (∃ c ∈ system.pageBlocks s.live, c.Has page) ↔
      ∃ b ∈ s.live, system.touches b.start b.size page = true := by
    intro page
    simp only [pageBlocks, List.mem_map, exists_exists_and_eq_and]
    refine exists_congr fun b => and_congr_right fun hb => ?_
    exact has_pageBlock huser.toSound (hmapped.live b hb).1
  refine ⟨fun page => ?_, fun page hout => ?_, hstore,
    fun b hb => (hmapped.free huser.toSound hb).1⟩
  · rw [hmapped.overlay.ne_none_iff, hpage]
  · apply hmapped.overlay.outside
    intro c hc hin
    obtain ⟨b, hb, htouches⟩ := (hpage page).mp ⟨c, hc, hin⟩
    rw [hout b hb] at htouches
    cases htouches

theorem fourKiB_userSpace : fourKiB.UserSpace (2 ^ 17) where
  toSound := fourKiB_sound
  end_le h := by
    obtain ⟨rfl, hsize, -⟩ := fourKiB_place h
    omega

/-- 10000 bytes at an alignment of 16 KiB take three pages of 4 KiB, the first of them page 8. -/
theorem reaches_mappings_fourKiB : ∃ s : Mappings,
    (fourKiB.mappings ⟨fun _ => none, []⟩).Reaches
      [.allocAligned 10000 vMemReserveCommit 16384 32768] s ∧
    ∀ page, s.space.pages page ≠ none ↔ 8 ≤ page ∧ page < 11 := by
  have hplace : fourKiB.place ⟨fun _ => none, []⟩ (alignUp 10000 16384 + 16384) = some 20480 := by
    decide
  have htype : reserveOrReserveCommit vMemReserveCommit = true := by decide
  have hok := vmemAllocAligned_eq fourKiB_sound (by decide) (by decide) htype (by decide) hplace
  have hmem : alignUp 20480 16384 = 32768 := by decide
  rw [hmem] at hok
  have hreach : (fourKiB.mappings ⟨fun _ => none, []⟩).Reaches
      [.allocAligned 10000 vMemReserveCommit 16384 32768] _ :=
    ⟨_, rfl, .cons (.allocAligned (by decide) (by decide) (by decide) hok) (.nil _)⟩
  refine ⟨_, hreach, fun page => ?_⟩
  rw [(reaches_mappings fourKiB_userSpace hreach).1]
  show _ ≠ _ ∨ (∃ b ∈ [(⟨32768, 10000⟩ : Block)], _) ↔ _
  have hpageSize : fourKiB.pageSize = 4096 := rfl
  simp only [ne_eq, not_true_eq_false, false_or, List.mem_singleton, exists_eq_left, touches,
    Bool.and_eq_true, decide_eq_true_eq, hpageSize]
  omega

end Cuw3.System
