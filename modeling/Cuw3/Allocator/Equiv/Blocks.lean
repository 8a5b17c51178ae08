/-
  The blocks of arenas.

  An arena whose record is at the handle of a chunk has the chunk's memory as its block (`Backed`).
  A pointer into the block is looked up as that arena (`Backed.arenaOf_eq`), so two arenas have no
  byte in common (`Backed.unique`).  `liveIn` are the live allocations of a block, `Packed` says
  that they lie below the top.
-/
import Cuw3.Allocator.Equiv.Chunks
import Cuw3.Lib.Blocks

namespace Cuw3

open Lib

/-! ### The allocations of a block -/

namespace FastArena

variable {arena arena' : FastArena} {live : List Allocation} {l : Allocation}

/-- The address lies in the arena's block. -/
def Owns (arena : FastArena) (x : Nat) : Prop :=
  arena.arenaMemory ≤ x ∧ x < arena.arenaMemory + arena.arenaMemorySize

instance (arena : FastArena) (x : Nat) : Decidable (arena.Owns x) :=
  inferInstanceAs (Decidable (_ ∧ _))

/-- The live allocations in the arena's block. -/
def liveIn (arena : FastArena) (live : List Allocation) : List Allocation :=
  live.filter fun l => arena.Owns l.memory

/-- The live allocations in the block lie below the arena's top, and rounding their sizes up does
not wrap. -/
def Packed (arena : FastArena) (live : List Allocation) : Prop :=
  ∀ l ∈ live, arena.Owns l.memory → l.memory + l.size ≤ arena.arenaMemory + arena.top ∧
    l.size + arena.arenaAlignment - 1 < 2 ^ 64

@[simp] theorem mem_liveIn : l ∈ arena.liveIn live ↔ l ∈ live ∧ arena.Owns l.memory := by
  simp [liveIn]

theorem SameBlock.owns (h : SameBlock arena arena') (x : Nat) : arena'.Owns x ↔ arena.Owns x := by
  rw [Owns, Owns, h.memory, h.size]

theorem SameBlock.liveIn (h : SameBlock arena arena') (live : List Allocation) :
    arena'.liveIn live = arena.liveIn live :=
  List.filter_congr fun l _ => by rw [decide_eq_decide, h.owns]

theorem liveIn_cons_of_owns (h : arena.Owns l.memory) :
    arena.liveIn (l :: live) = l :: arena.liveIn live := by
  simp [liveIn, h]

theorem liveIn_cons_of_not_owns (h : ¬arena.Owns l.memory) :
    arena.liveIn (l :: live) = arena.liveIn live := by
  simp [liveIn, h]

theorem liveIn_erase (l : Allocation) (live : List Allocation) :
    arena.liveIn (live.erase l) = (arena.liveIn live).erase l := by
  induction live with
  | nil => rfl
  | cons a as ih =>
    by_cases hal : a = l
    · subst hal
      rw [List.erase_cons_head]
      by_cases ha : arena.Owns a.memory
      · rw [liveIn_cons_of_owns ha, List.erase_cons_head]
      · rw [liveIn_cons_of_not_owns ha, List.erase_of_not_mem]
        exact fun hmem => ha (mem_liveIn.mp hmem).2
    · rw [List.erase_cons_tail (by simpa using hal)]
      by_cases ha : arena.Owns a.memory
      · rw [liveIn_cons_of_owns ha, liveIn_cons_of_owns ha, List.erase_cons_tail
          (by simpa using hal), ih]
      · rw [liveIn_cons_of_not_owns ha, liveIn_cons_of_not_owns ha, ih]

theorem liveIn_erase_of_not_owns (h : ¬arena.Owns l.memory) :
    arena.liveIn (live.erase l) = arena.liveIn live := by
  rw [liveIn_erase, List.erase_of_not_mem fun hmem => h (mem_liveIn.mp hmem).2]

theorem Packed.erase (h : arena.Packed live) (l : Allocation) : arena.Packed (live.erase l) :=
  fun a ha => h a (List.mem_of_mem_erase ha)

/-- The block of the arena moved its top up or kept it. -/
theorem Packed.mono (h : arena.Packed live) (hblock : SameBlock arena arena')
    (htop : arena.top ≤ arena'.top) : arena'.Packed live := by
  intro l hl hown
  obtain ⟨hle, hfits⟩ := h l hl ((hblock.owns _).mp hown)
  rw [hblock.memory, hblock.alignment]
  exact ⟨by omega, hfits⟩

/-- An arena without live bytes has no live allocation. -/
theorem Packed.liveIn_eq_nil (h : arena.Packed live) {live' : List Allocation}
    (hlaw : arena.Law (arena.liveIn live)) (hsub : ∀ l ∈ live', l ∈ arena.liveIn live)
    (hzero : arena.liveBytes live' = 0) : live' = [] := by
  cases live' with
  | nil => rfl
  | cons l rest =>
    have hl := hsub l List.mem_cons_self
    obtain ⟨hmem, hown⟩ := mem_liveIn.mp hl
    have hpos := (hlaw.size_pos l hl).1
    have hle := le_requiredSpace hlaw.alignment_pos (h l hmem hown).2
    rw [liveBytes_cons] at hzero
    omega

end FastArena

/-! ### Blocks and chunks -/

namespace RegionChunkAllocator

variable {rca rca' : RegionChunkAllocator} {c c' : RegionChunkAllocation} {x : Nat}

/-- The memory of a chunk. -/
def chunkBlock (rca : RegionChunkAllocator) (c : RegionChunkAllocation) : Block :=
  ⟨rca.address c.region c.chunk 0, rca.specs.chunkSize c.region⟩

theorem SameLayout.chunkBlock (h : SameLayout rca rca') (c : RegionChunkAllocation) :
    rca'.chunkBlock c = rca.chunkBlock c := by
  simp only [RegionChunkAllocator.chunkBlock, RegionChunkAllocator.address, h.regions, h.specs]

/-- A pointer into the memory of a chunk is looked up as the chunk. -/
theorem Placed.ptrToAllocation_eq (h : rca.Placed c) (hl : rca.Layout) (hm : rca.MappedHandles)
    (hx : (rca.chunkBlock c).Has x) : rca.ptrToAllocation x = .ok c := by
  obtain ⟨hlo, hhi⟩ := hx
  unfold RegionChunkAllocator.chunkBlock RegionChunkAllocatorSpecs.chunkSize at hlo hhi
  dsimp only at hlo hhi
  have hadd : x = rca.address c.region c.chunk (x - rca.address c.region c.chunk 0) := by
    rw [RegionChunkAllocator.address] at hlo ⊢
    rw [RegionChunkAllocator.address]
    omega
  have hfirst := h.first_le
  have hlast := h.lt_last
  rw [h.handle_eq] at hfirst hlast
  have heq := RegionChunkAllocator.ptrToAllocation_eq hl.specs hl.pools hm.toMapped h.region_lt
    h.chunk_lt (show x - rca.address c.region c.chunk 0 < _ by omega) h.split_lt hfirst hlast
  rw [← hadd, ← h.handle_eq] at heq
  exact heq

/-- Chunks share no byte. -/
theorem Placed.apart (h : rca.Placed c) (h' : rca.Placed c') (hl : rca.Layout)
    (hm : rca.MappedHandles) (hne : c ≠ c') : (rca.chunkBlock c).Apart (rca.chunkBlock c') := by
  intro x hx hx'
  have heq := (h.ptrToAllocation_eq hl hm hx).symm.trans (h'.ptrToAllocation_eq hl hm hx')
  exact hne (Except.ok.inj heq)

/-- The memory of a chunk starts above `0` and does not reach `2 ^ 64`. -/
theorem Placed.block_bounds (hc : rca.Placed c) (hl : rca.Layout) (hm : rca.MappedHandles) :
    1 ≤ (rca.chunkBlock c).start ∧
      (rca.chunkBlock c).start + (rca.chunkBlock c).size ≤ 2 ^ 64 - 1 := by
  have hpos := Nat.two_pow_pos (rca.specs.regionSpec c.region).chunkSizeLog2
  have hlt := hl.specs.chunk_lt hc.region_lt hc.chunk_lt
    (show 2 ^ (rca.specs.regionSpec c.region).chunkSizeLog2 - 1 < _ by omega)
  have hle := hl.specs.region_le hc.region_lt
  have hend := hm.regions_end
  have hstart := hm.regions_pos
  unfold RegionChunkAllocator.chunkBlock RegionChunkAllocator.address
    RegionChunkAllocatorSpecs.chunkSize
  dsimp only
  omega

end RegionChunkAllocator

/-- The memory of an arena. -/
def FastArena.block (arena : FastArena) : Block := ⟨arena.arenaMemory, arena.arenaMemorySize⟩

/-- The arena at `p` has the memory of the chunk `c` and is owned by `t`. -/
structure Backed (rca : RegionChunkAllocator) (heap : Heap) (t p : Nat)
    (c : RegionChunkAllocation) :
    Prop where
  placed : rca.Placed c
  address : p = rca.handleAddress c.handle
  memory : (heap p).arenaMemory = rca.address c.region c.chunk 0
  size : (heap p).arenaMemorySize = 2 ^ (rca.specs.regionSpec c.region).chunkSizeLog2
  owner : (heap p).owner = t

namespace Backed

variable {alloc : Allocator} {rca rca' : RegionChunkAllocator} {heap heap' : Heap}
    {t t' p q x : Nat}
  {c c' : RegionChunkAllocation}

theorem congr (h : Backed rca heap t p c) (hrca : rca.SameLayout rca')
    (hblock : (heap p).SameBlock (heap' p)) : Backed rca' heap' t p c where
  placed := hrca.placed.mpr h.placed
  address := h.address.trans (hrca.handleAddress c.handle).symm
  memory := by
    rw [hblock.memory, h.memory, hrca.address]
  size := by rw [hblock.size, h.size, hrca.specs]
  owner := by rw [FastArena.owner, hblock.header, ← FastArena.owner, h.owner]

theorem block_eq (h : Backed rca heap t p c) : (heap p).block = rca.chunkBlock c := by
  rw [FastArena.block, h.memory, h.size]
  rfl

/-- A pointer into the block is looked up as the chunk. -/
theorem ptrToAllocation_eq (h : Backed rca heap t p c) (hl : rca.Layout) (hm : rca.MappedHandles)
    (hx : (heap p).Owns x) : rca.ptrToAllocation x = .ok c := by
  refine h.placed.ptrToAllocation_eq hl hm ?_
  rw [← h.block_eq]
  exact hx

/-- A pointer into the block is looked up as the arena. -/
theorem arenaOf_eq (h : Backed alloc.rca alloc.heap t p c) (hl : alloc.rca.Layout)
    (hm : alloc.rca.MappedHandles) (hx : (alloc.heap p).Owns x) : alloc.arenaOf x = .ok p := by
  have hmem := RegionChunkAllocator.chunkAllocationToMemory_eq hl hm h.placed
  rw [RegionChunkAllocator.chunkAllocationToMemory] at hmem
  rw [Allocator.arenaOf, h.ptrToAllocation_eq hl hm hx, ok_bind, check_of (h.placed.valid hl),
    ok_bind,
    hmem, ok_bind, h.address]
  rfl

/-- A byte is in one block only. -/
theorem unique (h : Backed rca heap t p c) (h' : Backed rca heap t' q c') (hl : rca.Layout)
    (hm : rca.MappedHandles) (hx : (heap p).Owns x) (hx' : (heap q).Owns x) : p = q := by
  have heq := (h.ptrToAllocation_eq hl hm hx).symm.trans (h'.ptrToAllocation_eq hl hm hx')
  rw [h.address, h'.address, Except.ok.inj heq]

/-- Ranges of two blocks do not meet. -/
theorem disjoint (h : Backed rca heap t p c) (h' : Backed rca heap t' q c') (hl : rca.Layout)
    (hm : rca.MappedHandles) (hne : p ≠ q) {a b n k : Nat} (hn : 0 < n) (hk : 0 < k)
    (ha : (heap p).arenaMemory ≤ a) (han : a + n ≤ (heap p).arenaMemory + (heap p).arenaMemorySize)
    (hb : (heap q).arenaMemory ≤ b)
    (hbk : b + k ≤ (heap q).arenaMemory + (heap q).arenaMemorySize) :
    a + n ≤ b ∨ b + k ≤ a := by
  by_contra hmeet
  refine hne (h.unique h' hl hm (x := max a b) ⟨?_, ?_⟩ ⟨?_, ?_⟩) <;> omega

end Backed

/-! ### New arenas -/

/-- The header gives the owner and the type back. -/
theorem RegionChunkHandleHeader.pack_eq_ok {owner data header : Nat} (howner : owner < 2 ^ 64)
    (hdata : data < 2 ^ 6) (hok : pack owner data = .ok header) :
    RegionChunkHandleHeader.owner header = owner ∧ RegionChunkHandleHeader.data header = data := by
  have hmask : not64 (AlignmentPackedInt.valueMask regionChunkHandleHeaderDataBits) =
    2 ^ 6 - 1 := by
    decide
  simp only [pack, AlignmentPackedInt.packed, hmask, and_two_pow_sub_one, bind_eq_ok, assert_eq_ok,
    pure_eq_ok, exists_const] at hok
  obtain ⟨hmod, -, rfl⟩ := hok
  obtain ⟨k, rfl⟩ := Nat.dvd_of_mod_eq_zero hmod
  have hor : 2 ^ 6 * k ||| data = 2 ^ 6 * k + data := (Nat.two_pow_add_eq_or_of_lt hdata k).symm
  rw [hor]
  constructor
  · rw [RegionChunkHandleHeader.owner, AlignmentPackedInt.value, AlignmentPackedInt.valueMask,
      AlignmentPackedInt.alignmentMask, regionChunkHandleHeaderDataBits,
      and_not64_two_pow (by omega) (by omega)]
    omega
  · rw [RegionChunkHandleHeader.data, AlignmentPackedInt.alignment,
      AlignmentPackedInt.alignmentMask,
      regionChunkHandleHeaderDataBits, and_two_pow_sub_one]
    omega

/-- A new arena over a block, for the thread `tla`: its retired flag is set. -/
structure Constructed (arena : FastArena) (tla : Nat) (memory : RegionChunkMemory) (alignment : Nat)
    (type : RegionChunkType) : Prop where
  law : arena.Law []
  owner : arena.owner = tla
  type : arena.type = type.val
  chunk : arena.arenaMemory = memory.chunk
  size : arena.arenaMemorySize = memory.chunkSize
  alignment : arena.arenaAlignment = alignment
  linked : arena.linked = false
  top : arena.top = 0
  head : arena.retireReclaimEntry.head = 1

theorem constructArena_spec {arena : FastArena} {tla alignment : Nat} {memory : RegionChunkMemory}
    {type : RegionChunkType} (htla : tla < 2 ^ 64)
    (hbound : memory.chunk + memory.chunkSize < 2 ^ 64)
    (hcreate : (Allocator.constructArena tla memory alignment type.val).Creates arena) :
    Constructed arena tla memory alignment type := by
  have hlaw := (FastArena.law_of_create hcreate hbound (show 1 < 2 ^ 64 by decide)).1
  simp only [Allocator.constructArena, FastArena.create, creates_bind, creates_lift,
    creates_checkReturnVal, creates_pure, exists_const] at hcreate
  obtain ⟨_, -, -, -, -, -, _, -, -, _, -, -, header, hpack, entry, hentry, rfl⟩ := hcreate
  obtain ⟨howner, htype⟩ := RegionChunkHandleHeader.pack_eq_ok htla (by cases type <;> decide) hpack
  obtain rfl : (⟨1, 0, 0⟩ : RetireReclaimEntry) = entry := Except.ok.inj hentry
  exact ⟨hlaw, howner, htype, rfl, rfl, rfl, rfl, rfl, rfl⟩

end Cuw3
