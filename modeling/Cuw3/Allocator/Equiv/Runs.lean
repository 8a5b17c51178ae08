/-
  Runs of the assembled allocator.

  The threads `allocate`, `deallocate` and `reclaim` in any order (`Allocator.Step`).  `Inv` is the
  invariant over all layers: the chunks are in their places, the bins of each thread hold, each
  arena in them has the block of its own chunk and the live allocations in the block lie below its
  top, and each live allocation is in the block of an arena in some bins.  Between taking an arena
  out of the bins, or a chunk out of the pool, and putting it back, the invariant holds with that
  arena in hand (`InHand`).  From it, a block that `allocate` returns is apart from all live
  allocations (`allocate_freshBlock`).
-/
import Cuw3.Allocator.Equiv.Blocks

namespace Cuw3

open Lib

namespace Allocator

/-! ### States and steps -/

/-- The allocator; the allocations that the clients hold, where a size of 0 counts as 1; and whether
a thread has freed an allocation of another thread's arena. -/
structure World where
  alloc : Allocator
  live : List Allocation
  foreign : Bool

/-- The owner of the arena that a pointer is looked up as. -/
def ownerOf (alloc : Allocator) (ptr : Nat) : Checked Nat := do
  pure (alloc.heap (← alloc.arenaOf ptr)).owner

/-- The allocations after `allocate` returned `r`. -/
def liveAfter (live : List Allocation) (size : Nat) : AcquiredResource → List Allocation
  | .acquired ptr => ⟨ptr, max size 1⟩ :: live
  | _ => live

/-- One operation that returns, by one of the threads. -/
inductive Step (threads : List Nat) : World → World → Prop
  | allocate {w : World} {t commitOk size alignment r alloc'} (ht : t ∈ threads)
      (hsize : size + alignment - 1 < 2 ^ 64)
      (hok : w.alloc.allocate commitOk t size alignment = .ok (r, alloc')) :
      Step threads w ⟨alloc', liveAfter w.live size r, w.foreign⟩
  | deallocate {w : World} {t ptr size owner alloc'} (ht : t ∈ threads)
      (hl : ⟨ptr, max size 1⟩ ∈ w.live) (howner : w.alloc.ownerOf ptr = .ok owner)
      (hok : w.alloc.deallocate t ptr size = .ok alloc') :
      Step threads w ⟨alloc', w.live.erase ⟨ptr, max size 1⟩, w.foreign || owner != t⟩
  | reclaim {w : World} {t fuel empty alloc'} (ht : t ∈ threads)
      (hok : w.alloc.reclaim fuel t = .ok (some (empty, alloc'))) :
      Step threads w ⟨alloc', w.live, w.foreign⟩

/-- A new allocator and the new thread-local allocators of the threads, whose least alignments are
those of `cuw3.cpp`. -/
structure Fresh (threads : List Nat) (alloc : Allocator) : Prop where
  specs : ∃ config, (RegionChunkAllocatorSpecs.create config).Creates alloc.rca.specs
  pools : ∃ contentionSplit,
    (RegionChunkAllocatorPools.create alloc.rca.specs contentionSplit).Creates alloc.rca.pools
  fits : alloc.rca.specs.Fits
  mapped : alloc.rca.MappedHandles
  threads_nodup : threads.Nodup
  address : ∀ t ∈ threads, t < 2 ^ 64
  tlas : ∀ t ∈ threads, ∃ config, (ThreadLocalAllocator.create config).Creates (alloc.tlas t) ∧
    config.stepSplitAllocConfig.minArenaAlignmentLog2 = confFastArenaMinAlignmentLog2 ∧
    config.smallAllocConfig.minArenaAlignmentLog2 = confFastArenaMinAlignmentLog2

/-- The states that runs of the threads reach. -/
inductive Reachable (threads : List Nat) : World → Prop
  | init {alloc} (h : Fresh threads alloc) : Reachable threads ⟨alloc, [], false⟩
  | step {w w'} (h : Reachable threads w) (hstep : Step threads w w') : Reachable threads w'

/-! ### The invariant -/

/-- The arena is in the bins of some thread. -/
def HeldBy (threads : List Nat) (alloc : Allocator) (p : Nat) : Prop :=
  ∃ t ∈ threads, ∃ type, p ∈ (alloc.tlas t).held type

/-- One kind of arenas of one thread: the bins hold; each arena in them has the block of its chunk,
with the live allocations in it below the top; and none of them is retired into a list, as their
flags are set from the start. -/
structure KindHolds (alloc : Allocator) (live : List Allocation) (t : Nat)
    (type : RegionChunkType) :
    Prop where
  holds : type.law.Holds alloc.heap ((alloc.tlas t).allocator type).bins
    fun p => (alloc.heap p).liveIn live
  takes : ∃ a, type.law.Suitable ((alloc.tlas t).allocator type).bins a ∧
    a.arenaAlignment ≤ confMinAllocAlignment
  backed : ∀ p ∈ (alloc.tlas t).held type, ∃ c, Backed alloc.rca alloc.heap t p c
  packed : ∀ p ∈ (alloc.tlas t).held type, (alloc.heap p).Packed live
  flagged : ∀ p ∈ (alloc.tlas t).held type, (alloc.heap p).flagged
  retired : ((alloc.tlas t).allocator type).retiredArenas = ⟨1, 0, 0⟩

structure Inv (threads : List Nat) (w : World) : Prop where
  address : ∀ t ∈ threads, t < 2 ^ 64
  chunks : w.alloc.ChunksHold threads
  kind : ∀ t ∈ threads, ∀ type, w.alloc.KindHolds w.live t type
  live_held : ∀ l ∈ w.live, ∃ p, w.alloc.HeldBy threads p ∧ (w.alloc.heap p).Owns l.memory
  quiet : w.foreign = false → ∀ p, w.alloc.HeldBy threads p → (w.alloc.heap p).pending = 0
  lost : w.foreign = true → ∃ p, w.alloc.HeldBy threads p ∧ (w.alloc.heap p).pending ≠ 0

/-- The invariant, with the arena at `p` over the chunk `c` in the hands of `t`. -/
structure InHand (threads : List Nat) (w : World) (t p : Nat) (c : RegionChunkAllocation) : Prop
    where
  address : ∀ t ∈ threads, t < 2 ^ 64
  chunks : w.alloc.ChunksHold threads
  kind : ∀ t ∈ threads, ∀ type, w.alloc.KindHolds w.live t type
  flight : w.alloc.InFlight threads c
  backed : Backed w.alloc.rca w.alloc.heap t p c
  live_held : ∀ l ∈ w.live, (w.alloc.heap p).Owns l.memory ∨
    ∃ q, w.alloc.HeldBy threads q ∧ (w.alloc.heap q).Owns l.memory
  quiet : w.foreign = false → (w.alloc.heap p).pending = 0 ∧
    ∀ q, w.alloc.HeldBy threads q → (w.alloc.heap q).pending = 0
  lost : w.foreign = true → (w.alloc.heap p).pending ≠ 0 ∨
    ∃ q, w.alloc.HeldBy threads q ∧ (w.alloc.heap q).pending ≠ 0

/-- The block is aligned, inside of one chunk, and apart from the live allocations. -/
structure FreshBlock (rca : RegionChunkAllocator) (live : List Allocation)
    (ptr size alignment : Nat) :
    Prop where
  aligned : alignment ∣ ptr
  chunk : ∃ c, rca.Placed c ∧ rca.address c.region c.chunk 0 ≤ ptr ∧
    ptr + size ≤ rca.address c.region c.chunk 0 + 2 ^ (rca.specs.regionSpec c.region).chunkSizeLog2
  disjoint : ∀ l ∈ live, ptr + size ≤ l.memory ∨ l.memory + l.size ≤ ptr

section

variable {threads : List Nat} {alloc alloc' : Allocator} {live live' : List Allocation}
  {t p m size alignment : Nat} {type : RegionChunkType} {c : RegionChunkAllocation} {w : World}
  {heap : Heap} {allocator : ArenaAllocator type.Bins}

/-- Only the arenas in the bins, and the live allocations in their blocks, matter. -/
theorem KindHolds.congr (h : alloc.KindHolds live t type) (hrca : alloc.rca.SameLayout alloc'.rca)
    (hallocator : (alloc'.tlas t).allocator type = (alloc.tlas t).allocator type)
    (hheap : ∀ p ∈ (alloc.tlas t).held type, alloc'.heap p = alloc.heap p ∧
      (alloc.heap p).liveIn live' = (alloc.heap p).liveIn live) : alloc'.KindHolds live' t
        type := by
  have hheld : (alloc'.tlas t).held type = (alloc.tlas t).held type := by
    rw [ThreadLocalAllocator.held, hallocator, ThreadLocalAllocator.held]
  refine ⟨?_, hallocator ▸ h.takes, fun p hp => ?_, fun p hp l hl hown => ?_, fun p hp => ?_,
    hallocator ▸ h.retired⟩
  · rw [hallocator]
    refine h.holds.congr fun q hq => ⟨(hheap q hq).1, ?_⟩
    rw [(hheap q hq).1, (hheap q hq).2]
  · obtain ⟨c, hc⟩ := h.backed p (hheld ▸ hp)
    refine ⟨c, hc.congr hrca ?_⟩
    rw [(hheap p (hheld ▸ hp)).1]
    exact .refl _
  · obtain ⟨heq, hlive⟩ := hheap p (hheld ▸ hp)
    rw [heq] at hown ⊢
    have hmem : l ∈ (alloc.heap p).liveIn live := hlive ▸ FastArena.mem_liveIn.mpr ⟨hl, hown⟩
    exact h.packed p (hheld ▸ hp) l (FastArena.mem_liveIn.mp hmem).1 hown
  · rw [(hheap p (hheld ▸ hp)).1]
    exact h.flagged p (hheld ▸ hp)

/-! ### Changing one allocator of one thread -/

@[simp] theorem withAllocator_heap : (alloc.withAllocator t type heap allocator).heap = heap := rfl

@[simp] theorem allocator_withAllocator_self :
    ((alloc.withAllocator t type heap allocator).tlas t).allocator type = allocator := by
  simp [withAllocator]

/-- The later change counts. -/
@[simp] theorem withAllocator_withAllocator {heap' : Heap} {allocator' : ArenaAllocator type.Bins} :
    (alloc.withAllocator t type heap allocator).withAllocator t type heap' allocator' =
      alloc.withAllocator t type heap' allocator' := by
  simp [withAllocator]

theorem allocator_withAllocator_of_ne {u : Nat} {type' : RegionChunkType}
    (h : ¬(u = t ∧ type' = type)) :
    ((alloc.withAllocator t type heap allocator).tlas u).allocator type' =
      (alloc.tlas u).allocator type' := by
  by_cases hu : u = t
  · subst hu
    have htype : type' ≠ type := fun htype => h ⟨rfl, htype⟩
    simp [withAllocator, ThreadLocalAllocator.allocator_withAllocator_of_ne htype]
  · simp [withAllocator, hu]

@[simp] theorem held_withAllocator_self :
    ((alloc.withAllocator t type heap allocator).tlas t).held type =
    type.law.held allocator.bins := by
  rw [ThreadLocalAllocator.held, allocator_withAllocator_self]

theorem held_withAllocator_of_ne {u : Nat} {type' : RegionChunkType} (h : ¬(u = t ∧ type' = type)) :
    ((alloc.withAllocator t type heap allocator).tlas u).held type' =
    (alloc.tlas u).held type' := by
  rw [ThreadLocalAllocator.held, allocator_withAllocator_of_ne h, ThreadLocalAllocator.held]

/-- The arenas of the changed bins, and those of the others. -/
theorem heldBy_withAllocator (ht : t ∈ threads) {q : Nat} :
    (alloc.withAllocator t type heap allocator).HeldBy threads q ↔
    q ∈ type.law.held allocator.bins ∨
      ∃ u ∈ threads, ∃ type', ¬(u = t ∧ type' = type) ∧ q ∈ (alloc.tlas u).held type' := by
  constructor
  · rintro ⟨u, hu, type', hq⟩
    by_cases h : u = t ∧ type' = type
    · obtain ⟨rfl, rfl⟩ := h
      rw [held_withAllocator_self] at hq
      exact .inl hq
    · rw [held_withAllocator_of_ne h] at hq
      exact .inr ⟨u, hu, type', h, hq⟩
  · rintro (hq | ⟨u, hu, type', h, hq⟩)
    · exact ⟨t, ht, type, by rwa [held_withAllocator_self]⟩
    · exact ⟨u, hu, type', by rwa [held_withAllocator_of_ne h]⟩

theorem heldBy_iff (ht : t ∈ threads) (type : RegionChunkType) {q : Nat} :
    alloc.HeldBy threads q ↔ q ∈ (alloc.tlas t).held type ∨
      ∃ u ∈ threads, ∃ type', ¬(u = t ∧ type' = type) ∧ q ∈ (alloc.tlas u).held type' := by
  constructor
  · rintro ⟨u, hu, type', hq⟩
    by_cases h : u = t ∧ type' = type
    · exact .inl (h.1 ▸ h.2 ▸ hq)
    · exact .inr ⟨u, hu, type', h, hq⟩
  · rintro (hq | ⟨u, hu, type', -, hq⟩)
    · exact ⟨t, ht, type, hq⟩
    · exact ⟨u, hu, type', hq⟩

/-- The bins of one allocator hold the same arenas as before. -/
theorem heldBy_keep (ht : t ∈ threads)
    (hperm : (type.law.held allocator.bins).Perm ((alloc.tlas t).held type)) {q : Nat} :
    (alloc.withAllocator t type heap allocator).HeldBy threads q ↔ alloc.HeldBy threads q := by
  rw [heldBy_withAllocator ht, heldBy_iff ht type, hperm.mem_iff]

/-- An arena went into the bins of one allocator. -/
theorem heldBy_put (ht : t ∈ threads)
    (hperm : (type.law.held allocator.bins).Perm (p :: (alloc.tlas t).held type)) {q : Nat} :
    (alloc.withAllocator t type heap allocator).HeldBy threads q ↔
      q = p ∨ alloc.HeldBy threads q := by
  rw [heldBy_withAllocator ht, heldBy_iff ht type, hperm.mem_iff, List.mem_cons, or_assoc]

/-- An arena was taken out of the bins of one allocator. -/
theorem heldBy_take (ht : t ∈ threads)
    (hperm : (p :: type.law.held allocator.bins).Perm ((alloc.tlas t).held type)) {q : Nat} :
    alloc.HeldBy threads q ↔
      q = p ∨ (alloc.withAllocator t type heap allocator).HeldBy threads q := by
  rw [heldBy_withAllocator ht, heldBy_iff ht type, ← hperm.mem_iff, List.mem_cons, or_assoc]

/-- The bins of one allocator were changed, and it holds again. -/
theorem kind_withAllocator (hkind : ∀ u ∈ threads, ∀ type', alloc.KindHolds live u type')
    (hself : (alloc.withAllocator t type heap allocator).KindHolds live' t type)
    (hothers : ∀ u ∈ threads, ∀ type', ¬(u = t ∧ type' = type) → ∀ q ∈ (alloc.tlas u).held type',
      heap q = alloc.heap q ∧ (alloc.heap q).liveIn live' = (alloc.heap q).liveIn live) :
    ∀ u ∈ threads, ∀ type', (alloc.withAllocator t type heap allocator).KindHolds live' u
      type' := by
  intro u hu type'
  by_cases h : u = t ∧ type' = type
  · obtain ⟨rfl, rfl⟩ := h
    exact hself
  · exact (hkind u hu type').congr (.refl _) (allocator_withAllocator_of_ne h)
      (hothers u hu type' h)

/-- An address is in the block of one arena in the bins. -/
theorem owner_unique (hchunks : alloc.ChunksHold threads)
    (hkind : ∀ u ∈ threads, ∀ type', alloc.KindHolds live u type') {q x : Nat}
    (hp : alloc.HeldBy threads p) (hq : alloc.HeldBy threads q) (hown : (alloc.heap p).Owns x)
    (hown' : (alloc.heap q).Owns x) : p = q := by
  obtain ⟨t, ht, type, hp⟩ := hp
  obtain ⟨u, hu, type', hq⟩ := hq
  obtain ⟨c, hc⟩ := (hkind t ht type).backed p hp
  obtain ⟨c', hc'⟩ := (hkind u hu type').backed q hq
  exact hc.unique hc' hchunks.pools.toLayout hchunks.mapped hown hown'

/-! ### The arena in hand -/

theorem InFlight.not_held (h : alloc.InFlight threads c) {q : Nat} (hq : alloc.HeldBy threads q) :
    q ≠ alloc.rca.handleAddress c.handle := by
  rintro rfl
  obtain ⟨t, ht, type, hq⟩ := hq
  exact h.notTaken (mem_taken_of_held ht hq)

theorem InHand.not_held (h : InHand threads w t p c) {q : Nat} (hq : w.alloc.HeldBy threads q) :
    q ≠ p := by
  rw [h.backed.address]
  exact h.flight.not_held hq

/-- The arena after it served a request. -/
def served (arena : FastArena) (size : Nat) : FastArena :=
  { arena with top := arena.top + arena.requiredSpace size }

/-- The block at `m` is the free space of the arena's block from its top on. -/
structure TopBlock (arena : FastArena) (m size : Nat) : Prop where
  eq : m = arena.arenaMemory + arena.top
  fits : arena.top + arena.requiredSpace size ≤ arena.arenaMemorySize
  le_space : size ≤ arena.requiredSpace size

/-- The arena at `p` served a request with the block at `m` and went into the bins. -/
structure Put (alloc : Allocator) (t : Nat) (type : RegionChunkType) (p m size : Nat) (heap : Heap)
    (allocator : ArenaAllocator type.Bins) : Prop where
  held : (type.law.held allocator.bins).Perm (p :: (alloc.tlas t).held type)
  heap : OnlyLinks (Function.update alloc.heap p (served (alloc.heap p) size)) heap
  block : TopBlock (alloc.heap p) m size

/-- An arena that serves a request returns a block apart from the live allocations. -/
theorem InHand.freshBlock (h : InHand threads w t p c)
    (hlaw : (w.alloc.heap p).Law ((w.alloc.heap p).liveIn w.live))
    (hpacked : (w.alloc.heap p).Packed w.live) (hserves : (w.alloc.heap p).Serves size alignment)
    (hpos : 0 < size) {view : FastArena} (hacquire : (w.alloc.heap p).acquire size = .ok (m, view))
    (hm : m ≠ 0) : FreshBlock w.alloc.rca w.live m size alignment := by
  obtain ⟨rfl, hfit, -⟩ := hlaw.acquire_eq_some hacquire hm
  have hle := FastArena.le_requiredSpace hlaw.alignment_pos hserves.fits
  refine ⟨?_, ⟨c, h.backed.placed, ?_, ?_⟩, fun l hl => ?_⟩
  · exact hserves.dvd.trans (Nat.dvd_add hlaw.memory_dvd hlaw.top_dvd)
  · rw [← h.backed.memory]
    exact Nat.le_add_right _ _
  · rw [← h.backed.memory, ← h.backed.size]
    omega
  · rcases h.live_held l hl with hown | ⟨q, hq, hown⟩
    · exact .inr (hpacked l hl hown).1
    · obtain ⟨u, hu, type', hq'⟩ := hq
      have hkind := h.kind u hu type'
      obtain ⟨c', hc'⟩ := hkind.backed q hq'
      have hlaw' := hkind.holds.arena q hq'
      have hbelow := (hkind.packed q hq' l hl hown).1
      have htop := hlaw'.top_le
      refine h.backed.disjoint hc' h.chunks.pools.toLayout h.chunks.mapped
        (h.not_held ⟨u, hu, type', hq'⟩).symm
        hpos (hlaw'.size_pos l (FastArena.mem_liveIn.mpr ⟨hl, hown⟩)).1 ?_ ?_ hown.1 ?_
      · exact Nat.le_add_right _ _
      · omega
      · omega

/-- The arena in hand serves a request and goes into the bins. -/
theorem InHand.serve (h : InHand threads w t p c) (ht : t ∈ threads)
    (hlaw : (w.alloc.heap p).Law ((w.alloc.heap p).liveIn w.live))
    (hpacked : (w.alloc.heap p).Packed w.live) (hflag : (w.alloc.heap p).flagged)
    (hlinked : (w.alloc.heap p).linked = false)
    (hsuit : type.law.Suitable ((w.alloc.tlas t).allocator type).bins (w.alloc.heap p))
    (hbusy : (w.alloc.heap p).freed ≠ (w.alloc.heap p).top ∨ 0 <
      (w.alloc.heap p).requiredSpace size)
    (hserves : (w.alloc.heap p).Serves size alignment) (hpos : 0 < size)
    (hok : type.ops.allocate w.alloc.heap ((w.alloc.tlas t).allocator type) p size =
      .ok (m, heap, allocator)) (hm : m ≠ 0) :
    FreshBlock w.alloc.rca w.live m size alignment ∧
      Inv threads ⟨w.alloc.withAllocator t type heap allocator, ⟨m, size⟩ :: w.live, w.foreign⟩ ∧
      Put w.alloc t type p m size heap allocator := by
  obtain ⟨-, -, ⟨h0, -⟩ | ⟨fmt, hfrom⟩⟩ := type.law.allocate_cases hok
  · exact absurd h0 hm
  have hkind := h.kind t ht type
  have hnot : p ∉ (w.alloc.tlas t).held type := fun hp => h.not_held ⟨t, ht, type, hp⟩ rfl
  have haddress := RegionChunkAllocator.handleAddress_bounds h.chunks.mapped
    (h.flight.placed.toInSplit.lt_numHandles h.chunks.pools.toLayout)
  rw [← h.backed.address] at haddress
  have hfits := hserves.fits
  have halpos := hlaw.alignment_pos
  obtain ⟨hretired, hserved, hlinks⟩ := hkind.holds.allocateFrom hnot haddress.1 haddress.2 hsuit
    hlaw
    hlinked hpos (by omega) hbusy hfrom
  obtain ⟨view, hacquire⟩ := hserved.acquire
  obtain ⟨hmem, hfit, -⟩ := hlaw.acquire_eq_some hacquire hm
  have hle := FastArena.le_requiredSpace halpos hfits
  refine ⟨h.freshBlock hlaw hpacked hserves hpos hacquire hm, ?_,
    ⟨hserved.perm, hlinks, ⟨hmem, hfit, hle⟩⟩⟩
  -- the new block is in the block of the arena, and in no other
  have hown : (w.alloc.heap p).Owns m := ⟨by omega, by omega⟩
  have hnotOwn : ∀ q, w.alloc.HeldBy threads q → ¬(w.alloc.heap q).Owns m := by
    rintro q ⟨u, hu, type', hq⟩ howns
    obtain ⟨c', hc'⟩ := (h.kind u hu type').backed q hq
    exact h.not_held ⟨u, hu, type', hq⟩
      (hc'.unique h.backed h.chunks.pools.toLayout h.chunks.mapped howns hown)
  have hlive : ∀ q, w.alloc.HeldBy threads q → (w.alloc.heap q).liveIn (⟨m, size⟩ :: w.live) =
      (w.alloc.heap q).liveIn w.live := fun q hq => FastArena.liveIn_cons_of_not_owns (hnotOwn q hq)
  have hmemHeld : ∀ {q}, q ∈ type.law.held allocator.bins → q = p ∨
    q ∈ (w.alloc.tlas t).held type :=
    fun hq => List.mem_cons.mp (hserved.perm.subset hq)
  have hself : (w.alloc.withAllocator t type heap allocator).KindHolds (⟨m, size⟩ :: w.live) t
    type := by
    refine ⟨?_, ?_, fun q hq => ?_, fun q hq => ?_, fun q hq => ?_, ?_⟩
    · rw [allocator_withAllocator_self]
      refine hserved.holds.congr fun q hq => ⟨rfl, ?_⟩
      rw [withAllocator_heap]
      rw [(hserved.block q).liveIn]
      rcases hmemHeld hq with rfl | hq
      · rw [Function.update_self, FastArena.liveIn_cons_of_owns hown]
      · rw [Function.update_of_ne (ne_of_mem_of_not_mem hq hnot), hlive q ⟨t, ht, type, hq⟩]
    · rw [allocator_withAllocator_self, hserved.suitable]
      exact hkind.takes
    · rw [held_withAllocator_self] at hq
      rcases hmemHeld hq with rfl | hq
      · exact ⟨c, h.backed.congr (.refl _) (hserved.block _)⟩
      · obtain ⟨c', hc'⟩ := hkind.backed q hq
        exact ⟨c', hc'.congr (.refl _) (hserved.block _)⟩
    · rw [held_withAllocator_self] at hq
      intro l hl howns
      have howns' := ((hserved.block q).owns _).mp howns
      have hblock := hserved.block q
      rcases hmemHeld hq with rfl | hq
      · have htop := hserved.top
        rcases List.mem_cons.mp hl with rfl | hl
        · rw [withAllocator_heap, hblock.memory, hblock.alignment]
          exact ⟨by dsimp only; omega, hfits⟩
        · exact hpacked.mono hblock (by omega) l hl howns
      · rcases List.mem_cons.mp hl with rfl | hl
        · exact absurd howns' (hnotOwn q ⟨t, ht, type, hq⟩)
        · refine (hkind.packed q hq).mono hblock ?_ l hl howns
          rw [hserved.others q (ne_of_mem_of_not_mem hq hnot)]
    · rw [held_withAllocator_self] at hq
      rw [FastArena.flagged]
      rw [withAllocator_heap]
      rw [hserved.entry q]
      rcases hmemHeld hq with rfl | hq
      · exact hflag
      · exact hkind.flagged q hq
    · rw [allocator_withAllocator_self, hretired]
      exact hkind.retired
  -- the arenas in the bins are those of before and the one in hand
  have hheldBy : ∀ {q}, (w.alloc.withAllocator t type heap allocator).HeldBy threads q ↔
      q = p ∨ w.alloc.HeldBy threads q := heldBy_put ht hserved.perm
  refine ⟨h.address, h.chunks.hold ht h.flight (h.backed.address ▸ hserved.perm),
    kind_withAllocator h.kind hself fun u hu type' hne q hq => ⟨?_, hlive q ⟨u, hu, type', hq⟩⟩,
    fun l hl => ?_, fun hf q hq => ?_, fun hf => ?_⟩
  · refine hserved.outside q (fun hq' => hne ?_) (h.not_held ⟨u, hu, type', hq⟩)
    exact h.chunks.held_unique hu ht hq hq'
  · rcases List.mem_cons.mp hl with rfl | hl
    · exact ⟨p, hheldBy.mpr (.inl rfl), ((hserved.block p).owns _).mpr hown⟩
    · rcases h.live_held l hl with howns | ⟨q, hq, howns⟩
      · exact ⟨p, hheldBy.mpr (.inl rfl), ((hserved.block p).owns _).mpr howns⟩
      · exact ⟨q, hheldBy.mpr (.inr hq), ((hserved.block q).owns _).mpr howns⟩
  · obtain ⟨hp, hothers⟩ := h.quiet hf
    rw [FastArena.pending]
    rw [withAllocator_heap]
    rw [hserved.entry q]
    rcases hheldBy.mp hq with rfl | hq
    · exact hp
    · exact hothers q hq
  · have hpending : ∀ q, (heap q).pending = (w.alloc.heap q).pending := fun q => by
      rw [FastArena.pending, hserved.entry q, FastArena.pending]
    rcases h.lost hf with hp | ⟨q, hq, hne⟩
    · exact ⟨p, hheldBy.mpr (.inl rfl), (hpending p).symm ▸ hp⟩
    · exact ⟨q, hheldBy.mpr (.inr hq), (hpending q).symm ▸ hne⟩

/-! ### Taking an arena out of the bins -/

section Frame

variable {bins : type.Bins} (hframe : BinsFrame type.law.held type.law.Suitable alloc.heap heap
  ((alloc.tlas t).allocator type).bins bins)

include hframe

/-- The bins have no more arenas than before. -/
theorem KindHolds.frame (h : alloc.KindHolds live t type) (hwf : type.law.WellFormed heap bins)
    (hsub : ∀ q ∈ type.law.held bins, q ∈ (alloc.tlas t).held type) :
    (alloc.withAllocator t type heap
      { (alloc.tlas t).allocator type with bins }).KindHolds live t type := by
  have hblock := hframe.links.sameBlock
  refine ⟨?_, ?_, fun q hq => ?_, fun q hq => ?_, fun q hq => ?_, ?_⟩
  · rw [allocator_withAllocator_self]
    refine (h.holds.frame hframe hwf hsub).congr fun q _ => ⟨rfl, ?_⟩
    exact (hblock q).liveIn live
  · rw [allocator_withAllocator_self, hframe.suitable]
    exact h.takes
  all_goals try rw [held_withAllocator_self] at hq
  · obtain ⟨c, hc⟩ := h.backed q (hsub q hq)
    exact ⟨c, hc.congr (.refl _) (hblock q)⟩
  · refine (h.packed q (hsub q hq)).mono (hblock q) ?_
    rw [withAllocator_heap, hframe.links q]
  · rw [FastArena.flagged, withAllocator_heap, hframe.links q]
    exact h.flagged q (hsub q hq)
  · rw [allocator_withAllocator_self]
    exact h.retired

theorem frame_others (hchunks : alloc.ChunksHold threads) (ht : t ∈ threads)
    (hsub : ∀ q ∈ type.law.held bins, q ∈ (alloc.tlas t).held type) :
    ∀ u ∈ threads, ∀ type', ¬(u = t ∧ type' = type) → ∀ q ∈ (alloc.tlas u).held type',
      heap q = alloc.heap q ∧ (alloc.heap q).liveIn live = (alloc.heap q).liveIn live := by
  intro u hu type' hne q hq
  have hnot : q ∉ (alloc.tlas t).held type := fun hq' => hne (hchunks.held_unique hu ht hq hq')
  exact ⟨hframe.outside q hnot fun hq' => hnot (hsub q hq'), rfl⟩

end Frame

/-- The bins had nothing for the request. -/
theorem Inv.acquireNone (h : Inv threads w) (ht : t ∈ threads) {bins : type.Bins}
    (hframe : BinsFrame type.law.held type.law.Suitable w.alloc.heap heap
      ((w.alloc.tlas t).allocator type).bins bins) (hwf : type.law.WellFormed heap bins)
    (hperm : (type.law.held bins).Perm ((w.alloc.tlas t).held type)) :
    Inv threads ⟨w.alloc.withAllocator t type heap
      { (w.alloc.tlas t).allocator type with bins }, w.live, w.foreign⟩ := by
  have hsub : ∀ q ∈ type.law.held bins, q ∈ (w.alloc.tlas t).held type := fun q hq =>
    hperm.subset hq
  have hheldBy : ∀ {q}, (w.alloc.withAllocator t type heap
      { (w.alloc.tlas t).allocator type with bins }).HeldBy threads q ↔
        w.alloc.HeldBy threads q := heldBy_keep ht hperm
  have hpending : ∀ q, (heap q).pending = (w.alloc.heap q).pending := fun q => by
    rw [hframe.links q]
    rfl
  refine ⟨h.address, h.chunks.keep ht hperm,
    kind_withAllocator h.kind ((h.kind t ht type).frame hframe hwf hsub)
      (frame_others hframe h.chunks ht hsub), fun l hl => ?_, fun hf q hq => ?_, fun hf => ?_⟩
  · obtain ⟨q, hq, hown⟩ := h.live_held l hl
    exact ⟨q, hheldBy.mpr hq, ((hframe.links.sameBlock q).owns _).mpr hown⟩
  · exact (hpending q).trans (h.quiet hf q (hheldBy.mp hq))
  · obtain ⟨q, hq, hne⟩ := h.lost hf
    exact ⟨q, hheldBy.mpr hq, (hpending q).symm ▸ hne⟩

/-- An arena was taken out of the bins. -/
theorem Inv.takeArena (h : Inv threads w) (ht : t ∈ threads) {bins : type.Bins}
    (hframe : BinsFrame type.law.held type.law.Suitable w.alloc.heap heap
      ((w.alloc.tlas t).allocator type).bins bins) (hwf : type.law.WellFormed heap bins)
    (hperm : (p :: type.law.held bins).Perm ((w.alloc.tlas t).held type)) :
    ∃ c, InHand threads ⟨w.alloc.withAllocator t type heap
      { (w.alloc.tlas t).allocator type with bins }, w.live, w.foreign⟩ t p c := by
  have hsub : ∀ q ∈ type.law.held bins, q ∈ (w.alloc.tlas t).held type :=
    fun q hq => hperm.subset (List.mem_cons_of_mem _ hq)
  have hp : p ∈ (w.alloc.tlas t).held type := hperm.subset List.mem_cons_self
  have hheldBy : ∀ {q}, w.alloc.HeldBy threads q ↔ q = p ∨ (w.alloc.withAllocator t type heap
      { (w.alloc.tlas t).allocator type with bins }).HeldBy threads q := heldBy_take ht hperm
  have hpending : ∀ q, (heap q).pending = (w.alloc.heap q).pending := fun q => by
    rw [hframe.links q]
    rfl
  obtain ⟨c, hc⟩ := (h.kind t ht type).backed p hp
  have hdrop : (w.alloc.rca.handleAddress c.handle :: type.law.held ({
      (w.alloc.tlas t).allocator type with bins } : ArenaAllocator type.Bins).bins).Perm
        ((w.alloc.tlas t).held type) := hc.address ▸ hperm
  obtain ⟨hchunks, hflight, -⟩ := h.chunks.drop ht hc.placed hdrop
  refine ⟨c, h.address, hchunks, kind_withAllocator h.kind
      ((h.kind t ht type).frame hframe hwf hsub)
      (frame_others hframe h.chunks ht hsub), hflight, hc.congr (.refl _)
      (hframe.links.sameBlock p),
    fun l hl => ?_, fun hf => ⟨?_, fun q hq => ?_⟩, fun hf => ?_⟩
  · obtain ⟨q, hq, hown⟩ := h.live_held l hl
    have hown' := ((hframe.links.sameBlock q).owns _).mpr hown
    rcases hheldBy.mp hq with rfl | hq
    · exact .inl hown'
    · exact .inr ⟨q, hq, hown'⟩
  · exact (hpending p).trans (h.quiet hf p (hheldBy.mpr (.inl rfl)))
  · exact (hpending q).trans (h.quiet hf q (hheldBy.mpr (.inr hq)))
  · obtain ⟨q, hq, hne⟩ := h.lost hf
    rw [← hpending q] at hne
    rcases hheldBy.mp hq with rfl | hq
    · exact .inl hne
    · exact .inr ⟨q, hq, hne⟩

/-! ### New arenas -/

theorem ChunkFrame.held (h : ChunkFrame alloc alloc') (t : Nat) (type : RegionChunkType) :
    (alloc'.tlas t).held type = (alloc.tlas t).held type := by
  rw [ThreadLocalAllocator.held, h.allocators, ThreadLocalAllocator.held]

theorem ChunkFrame.heldBy (h : ChunkFrame alloc alloc') {q : Nat} :
    alloc'.HeldBy threads q ↔ alloc.HeldBy threads q := by
  simp only [HeldBy, h.held]

/-- The chunks were moved. -/
theorem Inv.moveChunks (h : Inv threads w) (hframe : ChunkFrame w.alloc alloc')
    (hchunks : alloc'.ChunksHold threads) : Inv threads ⟨alloc', w.live, w.foreign⟩ := by
  refine ⟨h.address, hchunks, fun u hu type' => (h.kind u hu type').congr hframe.rca
    (hframe.allocators u type') fun q _ => ⟨congrFun hframe.heap q, rfl⟩, fun l hl => ?_,
    fun hf q hq => ?_, fun hf => ?_⟩
  all_goals dsimp only
  · obtain ⟨q, hq, hown⟩ := h.live_held l hl
    exact ⟨q, hframe.heldBy.mpr hq, hframe.heap ▸ hown⟩
  · rw [hframe.heap]
    exact h.quiet hf q (hframe.heldBy.mp hq)
  · rw [hframe.heap]
    obtain ⟨q, hq, hne⟩ := h.lost hf
    exact ⟨q, hframe.heldBy.mpr hq, hne⟩

/-- A chunk's memory does not wrap around the address space. -/
theorem address_add_lt (hl : alloc.rca.Layout) (hm : alloc.rca.MappedHandles)
    (hc : alloc.rca.Placed c) : alloc.rca.address c.region c.chunk 0 +
      2 ^ (alloc.rca.specs.regionSpec c.region).chunkSizeLog2 < 2 ^ 64 :=
  Nat.lt_of_le_of_lt (hc.block_bounds hl hm).2 (by decide)

/-- A fresh arena is made over a chunk in flight. -/
theorem Inv.construct (h : Inv threads w) {arena : FastArena} {memory : RegionChunkMemory}
    (hflight : w.alloc.InFlight threads c) (hp : p = w.alloc.rca.handleAddress c.handle)
    (hchunk : memory.chunk = w.alloc.rca.address c.region c.chunk 0)
    (hsize : memory.chunkSize = 2 ^ (w.alloc.rca.specs.regionSpec c.region).chunkSizeLog2)
    (hnew : Constructed arena t memory alignment type) :
    InHand threads ⟨{ w.alloc with heap := Function.update w.alloc.heap p arena }, w.live,
      w.foreign⟩
      t p c ∧ arena.liveIn w.live = [] := by
  have hl := h.chunks.pools.toLayout
  have hm := h.chunks.mapped
  have hne : ∀ {q}, w.alloc.HeldBy threads q → Function.update w.alloc.heap p arena q =
    w.alloc.heap q :=
    fun hq => Function.update_of_ne (hp ▸ hflight.not_held hq) _ _
  have hbacked : Backed w.alloc.rca (Function.update w.alloc.heap p arena) t p c := by
    refine ⟨hflight.placed, hp, ?_, ?_, ?_⟩ <;> rw [Function.update_self]
    exacts [hnew.chunk.trans hchunk, hnew.size.trans hsize, hnew.owner]
  have hpending : arena.pending = 0 := by
    rw [FastArena.pending, hnew.head]
  refine ⟨⟨h.address, ⟨h.chunks.threads_nodup, h.chunks.pools, hm, h.chunks.cached, h.chunks.nodup,
    h.chunks.notPooled⟩, fun u hu type' => ?_,
      ⟨hflight.placed, hflight.notTaken, hflight.notPooled⟩,
    hbacked, fun l hl => .inr ?_, fun hf => ⟨?_, fun q hq => ?_⟩, fun hf => .inr ?_⟩, ?_⟩
  · exact (h.kind u hu type').congr (.refl _) rfl fun q hq => ⟨hne ⟨u, hu, type', hq⟩, rfl⟩
  · obtain ⟨q, hq, hown⟩ := h.live_held l hl
    refine ⟨q, hq, ?_⟩
    dsimp only
    rwa [hne hq]
  · dsimp only
    rwa [Function.update_self]
  · dsimp only
    rw [hne hq]
    exact h.quiet hf q hq
  · obtain ⟨q, hq, hpend⟩ := h.lost hf
    refine ⟨q, hq, ?_⟩
    dsimp only
    rwa [hne hq]
  · -- a live allocation in the chunk would be in the block of another arena
    refine List.eq_nil_iff_forall_not_mem.mpr fun l hl' => ?_
    obtain ⟨hlive, hown⟩ := FastArena.mem_liveIn.mp hl'
    obtain ⟨q, hq, hownq⟩ := h.live_held l hlive
    obtain ⟨u, hu, type', hq'⟩ := hq
    obtain ⟨c', hc'⟩ := (h.kind u hu type').backed q hq'
    have hq₂ : Backed w.alloc.rca (Function.update w.alloc.heap p arena) u q c' := by
      refine hc'.congr (.refl _) ?_
      rw [hne ⟨u, hu, type', hq'⟩]
      exact .refl _
    refine (hp ▸ hflight.not_held ⟨u, hu, type', hq'⟩ : q ≠ p)
      (hq₂.unique hbacked hl hm (x := l.memory) ?_ ?_)
    · rw [hne ⟨u, hu, type', hq'⟩]
      exact hownq
    · rwa [Function.update_self]

/-- A fresh arena over a chunk that was not in use is in hand. -/
structure NewArena (threads : List Nat) (w : World) (alloc' : Allocator) (t p alignment : Nat)
    (type : RegionChunkType) : Prop where
  allocators : ∀ u type, (alloc'.tlas u).allocator type = (w.alloc.tlas u).allocator type
  same : w.alloc.rca.SameLayout alloc'.rca
  heap : alloc'.heap = Function.update w.alloc.heap p (alloc'.heap p)
  constructed : ∃ memory, Constructed (alloc'.heap p) t memory alignment type
  empty : (alloc'.heap p).liveIn w.live = []
  hand : ∃ c, InHand threads ⟨alloc', w.live, w.foreign⟩ t p c

/-- The fresh arena at `p` is made over the chunk `c`, which was not in use. -/
structure ArenaOver (threads : List Nat) (w : World) (alloc : Allocator) (t p alignment : Nat)
    (type : RegionChunkType) (c : RegionChunkAllocation) (arena : FastArena) : Prop where
  placed : alloc.rca.Placed c
  address : p = alloc.rca.handleAddress c.handle
  size : arena.arenaMemorySize = alloc.rca.specs.chunkSize c.region
  constructed : ∃ memory, Constructed arena t memory alignment type
  empty : arena.liveIn w.live = []
  notHeld : ¬w.alloc.HeldBy threads p

/-- `acquire_new_arena_` returns no arena, or a fresh one. -/
theorem Inv.acquireNewArena (h : Inv threads w) (ht : t ∈ threads) {commitOk : Bool}
    (hok : w.alloc.acquireNewArena commitOk t size alignment type.val = .ok (p, alloc')) :
    ∃ c alloc₁, ChunkOut w.alloc t commitOk c alloc₁ ∧
      ((p = 0 ∧ c.valid = false ∧ alloc' = alloc₁ ∧ Inv threads ⟨alloc', w.live, w.foreign⟩) ∨
        (p ≠ 0 ∧ NewArena threads w alloc' t p alignment type ∧
          ArenaOver threads w alloc₁ t p alignment type c (alloc'.heap p) ∧
          alloc' = { alloc₁ with heap := Function.update alloc₁.heap p (alloc'.heap p) })) := by
  simp only [Allocator.acquireNewArena, bind_eq_ok, Prod.exists] at hok
  obtain ⟨c, alloc₁, hchunk, hok⟩ := hok
  obtain ⟨hholds, hframe, hresult⟩ := h.chunks.allocateChunk ht hchunk
  have hinv := h.moveChunks hframe hholds
  refine ⟨c, alloc₁, allocateChunk_cases h.chunks.pools h.chunks.mapped hchunk, ?_⟩
  rcases hresult with ⟨hinvalid, -⟩ | ⟨hflight, -⟩
  · simp only [hinvalid, Bool.not_false, if_true, pure_eq_ok, Prod.mk.injEq] at hok
    obtain ⟨rfl, rfl⟩ := hok
    exact .inl ⟨rfl, hinvalid, rfl, hinv⟩
  have hl := hholds.pools.toLayout
  have hm := hholds.mapped
  have hmemory := RegionChunkAllocator.chunkAllocationToMemory_eq hl hm hflight.placed
  have hbounds := RegionChunkAllocator.handleAddress_bounds hm
    (hflight.placed.toInSplit.lt_numHandles hl)
  simp only [hflight.placed.valid hl, Bool.not_true, Bool.false_eq_true, if_false, hmemory, ok_bind,
    bind_eq_ok] at hok
  obtain ⟨created, hcreate, hok⟩ := hok
  cases created with
  | error => cases hok
  | ok arena =>
    simp only [pure_eq_ok, Prod.mk.injEq] at hok
    obtain ⟨rfl, rfl⟩ := hok
    have hnew := constructArena_spec (h.address t ht) (address_add_lt hl hm hflight.placed) hcreate
    obtain ⟨hhand, hnil⟩ := hinv.construct hflight rfl rfl rfl hnew
    have hself : Function.update alloc₁.heap (alloc₁.rca.handleAddress c.handle) arena
        (alloc₁.rca.handleAddress c.handle) = arena := Function.update_self ..
    refine .inr ⟨hbounds.1.ne', ⟨hframe.allocators, hframe.rca, ?_, ⟨_, hself.symm ▸ hnew⟩, ?_,
      ⟨c, hhand⟩⟩, ⟨hflight.placed, rfl, ?_, ⟨_, hself.symm ▸ hnew⟩, ?_, ?_⟩, ?_⟩
    · dsimp only
      rw [hself, hframe.heap]
    · dsimp only
      rw [hself]
      exact hnil
    · dsimp only
      rw [hself]
      exact hnew.size
    · dsimp only
      rw [hself]
      exact hnil
    · intro hheld
      exact hflight.not_held (hframe.heldBy.mpr hheld) rfl
    · dsimp only
      rw [hself]

/-! ### Allocation -/

theorem FreshBlock.congr {rca rca' : RegionChunkAllocator} (hrca : rca.SameLayout rca')
    (h : FreshBlock rca' live m size alignment) : FreshBlock rca live m size alignment := by
  obtain ⟨c, hc, hlo, hhi⟩ := h.chunk
  rw [hrca.address] at hlo hhi
  rw [hrca.specs] at hhi
  exact ⟨h.aligned, ⟨c, hrca.placed.mp hc, hlo, hhi⟩, h.disjoint⟩

/-- What `allocate` did: it returned no block, and at most a chunk was counted that could not be
committed; or an arena of the bins served the request; or a fresh arena did. -/
inductive Allocates (threads : List Nat) (w : World) (t size alignment : Nat) (commitOk : Bool)
    (type : RegionChunkType) : AcquiredResource → Allocator → Prop where
  | none {r : AcquiredResource} {heap : Heap} {bins : type.Bins} {c : RegionChunkAllocation}
      {alloc' : Allocator} (hr : ∀ m, r ≠ .acquired m) (hlinks : OnlyLinks w.alloc.heap heap)
      (hheld : (type.law.held bins).Perm ((w.alloc.tlas t).held type))
      (hout : ChunkOut (w.alloc.withAllocator t type heap
        { (w.alloc.tlas t).allocator type with bins }) t commitOk c alloc') (hc : c.valid = false) :
      Allocates threads w t size alignment commitOk type r alloc'
  | held {p m : Nat} {heap : Heap} {allocator : ArenaAllocator type.Bins}
      (hp : p ∈ (w.alloc.tlas t).held type)
      (hheld : (type.law.held allocator.bins).Perm ((w.alloc.tlas t).held type))
      (hheap : OnlyLinks (Function.update w.alloc.heap p (served (w.alloc.heap p) size)) heap)
      (hblock : TopBlock (w.alloc.heap p) m size) :
      Allocates threads w t size alignment commitOk type (.acquired m)
        (w.alloc.withAllocator t type heap allocator)
  | fresh {c : RegionChunkAllocation} {alloc₁ : Allocator} {arena : FastArena} {p m : Nat}
      {heap₁ heap : Heap} {bins : type.Bins} {allocator : ArenaAllocator type.Bins}
      (hlinks : OnlyLinks w.alloc.heap heap₁)
      (hheld : (type.law.held bins).Perm ((w.alloc.tlas t).held type))
      (hout : ChunkOut (w.alloc.withAllocator t type heap₁
        { (w.alloc.tlas t).allocator type with bins }) t commitOk c alloc₁)
      (hnew : ArenaOver threads w alloc₁ t p alignment type c arena)
      (hput : Put { alloc₁ with heap := Function.update alloc₁.heap p arena } t type p m size heap
        allocator) :
      Allocates threads w t size alignment commitOk type (.acquired m)
        (alloc₁.withAllocator t type heap allocator)

/-- The arena that the bins had serves the request. -/
theorem Inv.allocateHeld (h : Inv threads w) (ht : t ∈ threads) {commitOk : Bool} {bins : type.Bins}
    {heap₁ : Heap}
    (halign : isAlignment alignment = true) (hsize : size + alignment - 1 < 2 ^ 64)
    (hpos : 0 < size)
    (hacquire : type.ops.acquire w.alloc.heap ((w.alloc.tlas t).allocator type).bins size
      alignment =
      .ok (.acquired p, heap₁, bins))
    (hok : type.ops.allocate heap₁ { (w.alloc.tlas t).allocator type with bins } p size =
      .ok (m, heap, allocator)) :
    FreshBlock w.alloc.rca w.live m size alignment ∧
      Inv threads ⟨w.alloc.withAllocator t type heap allocator, ⟨m, size⟩ :: w.live, w.foreign⟩ ∧
      Allocates threads w t size alignment commitOk type (.acquired m)
        (w.alloc.withAllocator t type heap allocator) := by
  have hkind := h.kind t ht type
  obtain ⟨hframe, hwf, hperm, hlinked, hserves⟩ := type.law.acquire hkind.holds.wf hacquire
  have hm := type.law.acquire_allocate hkind.holds.wf hacquire hok
  obtain ⟨c, hhand⟩ := h.takeArena ht hframe hwf hperm
  have hp : p ∈ (w.alloc.tlas t).held type := hperm.subset List.mem_cons_self
  have hlink := hframe.links p
  have hblock := hframe.links.sameBlock p
  have hlaw : (heap₁ p).Law ((heap₁ p).liveIn w.live) := by
    rw [hblock.liveIn]
    exact hframe.links.law (hkind.holds.arena p hp)
  have hsuit : type.law.Suitable bins (heap₁ p) := by
    rw [hframe.suitable]
    exact type.law.suitable_congr hblock (type.law.member hkind.holds.wf hp).2.1
  have hpacked : (heap₁ p).Packed w.live := (hkind.packed p hp).mono hblock (by rw [hlink])
  have hflag : (heap₁ p).flagged := by
    rw [hlink]
    exact hkind.flagged p hp
  have hbusy : (heap₁ p).freed ≠ (heap₁ p).top := by
    rw [hlink]
    exact hkind.holds.busy p hp
  obtain ⟨hfresh, hinv, hput⟩ := hhand.serve ht hlaw hpacked hflag hlinked
    (by rwa [allocator_withAllocator_self]) (.inl hbusy) (hserves halign hsize) hpos
    (by rwa [allocator_withAllocator_self]) hm
  rw [withAllocator_withAllocator] at hinv
  have hheld := hput.held
  have hheap := hput.heap
  have htop := hput.block
  dsimp only at hheld hheap htop
  rw [held_withAllocator_self] at hheld
  rw [withAllocator_heap] at hheap htop
  refine ⟨hfresh, hinv, .held hp (hheld.trans hperm) (fun q => ?_) ?_⟩
  · rw [hheap q]
    by_cases hqp : q = p
    · subst hqp
      rw [Function.update_self, Function.update_self, hlink]
      rfl
    · rw [Function.update_of_ne hqp, Function.update_of_ne hqp, hframe.links q]
  · rw [hlink] at htop
    exact ⟨htop.eq, htop.fits, htop.le_space⟩

/-- A fresh arena serves the request, for which the bins had nothing. -/
theorem Inv.allocateFresh (h : Inv threads w) (ht : t ∈ threads) {bins : type.Bins} {heap₁ : Heap}
    (hsize : size + alignment - 1 < 2 ^ 64) (hpos : 0 < size)
    (hacquire : type.ops.acquire w.alloc.heap ((w.alloc.tlas t).allocator type).bins size
      alignment =
      .ok (.noResource, heap₁, bins))
    (hnew : NewArena threads ⟨w.alloc.withAllocator t type heap₁
      { (w.alloc.tlas t).allocator type with bins }, w.live, w.foreign⟩ alloc' t p alignment type)
    (hok : type.ops.allocate alloc'.heap ((alloc'.tlas t).allocator type) p size =
      .ok (m, heap, allocator)) :
    FreshBlock w.alloc.rca w.live m size alignment ∧
      Inv threads ⟨alloc'.withAllocator t type heap allocator, ⟨m, size⟩ :: w.live, w.foreign⟩ ∧
      Put alloc' t type p m size heap allocator := by
  have hkind := h.kind t ht type
  obtain ⟨memory, hcons⟩ := hnew.constructed
  obtain ⟨c, hhand⟩ := hnew.hand
  have hallocator : (alloc'.tlas t).allocator type =
    { (w.alloc.tlas t).allocator type with bins } :=
    (hnew.allocators t type).trans allocator_withAllocator_self
  have htype : (alloc'.heap p).type = type.ops.type.val := by
    rw [hcons.type]
    cases type <;> rfl
  have hmin : ∃ a, type.law.Suitable ((w.alloc.tlas t).allocator type).bins a ∧
      a.arenaAlignment ≤ (alloc'.heap p).arenaAlignment := by
    obtain ⟨a, ha, hle⟩ := hkind.takes
    exact ⟨a, ha, hle.trans hcons.law.min_le⟩
  have hok' := hok
  rw [hnew.heap, hallocator] at hok'
  rw [← hcons.alignment] at hacquire
  obtain ⟨hsuit, hm⟩ := type.law.acquire_fresh hkind.holds.wf hacquire htype hcons.law.toStatic hmin
    hok'
  have hserves : (alloc'.heap p).Serves size alignment := by
    rw [← hcons.alignment] at hsize ⊢
    exact ⟨dvd_rfl, hsize⟩
  have hspace := FastArena.le_requiredSpace hcons.law.alignment_pos hserves.fits
  have hlaw : (alloc'.heap p).Law ((alloc'.heap p).liveIn w.live) := hnew.empty.symm ▸ hcons.law
  have hpacked : (alloc'.heap p).Packed w.live := fun l hl hown => by
    have hmem : l ∈ (alloc'.heap p).liveIn w.live := FastArena.mem_liveIn.mpr ⟨hl, hown⟩
    rw [hnew.empty] at hmem
    simp at hmem
  have hflag : (alloc'.heap p).flagged := by
    rw [FastArena.flagged, hcons.head]
  obtain ⟨hblock, hinv, hput⟩ := hhand.serve ht hlaw hpacked hflag hcons.linked
    (by rwa [hallocator])
    (.inr (lt_of_lt_of_le hpos hspace)) hserves hpos hok hm
  exact ⟨hblock.congr hnew.same, hinv, hput⟩

/-- **An acquired block is aligned, inside of one chunk and apart from the live allocations; the
invariant is kept; and this is all that the request did.** -/
theorem Inv.allocateWith (h : Inv threads w) (ht : t ∈ threads) {commitOk : Bool}
    {r : AcquiredResource} (halign : isAlignment alignment = true)
    (hsize : size + alignment - 1 < 2 ^ 64) (hpos : 0 < size)
    (hok : w.alloc.allocateWith commitOk t type size alignment = .ok (r, alloc')) :
    Inv threads ⟨alloc', liveAfter w.live size r, w.foreign⟩ ∧
      (∀ m, r = .acquired m → FreshBlock w.alloc.rca w.live m size alignment) ∧
      Allocates threads w t size alignment commitOk type r alloc' := by
  have hkind := h.kind t ht type
  simp only [Allocator.allocateWith, bind_eq_ok, Prod.exists] at hok
  obtain ⟨acquired, heap₁, bins, hacquire, hok⟩ := hok
  obtain ⟨hframe, hwf, hcase⟩ := type.law.acquire hkind.holds.wf hacquire
  have hmax : max size 1 = size := max_eq_left hpos
  cases acquired with
  | acquired p =>
    simp only [allocator_withAllocator_self, withAllocator_heap, withAllocator_withAllocator,
      bind_eq_ok,
      Prod.exists, pure_eq_ok, Prod.mk.injEq] at hok
    obtain ⟨m, heap, allocator, hallocate, rfl, rfl⟩ := hok
    obtain ⟨hblock, hinv, heffect⟩ := h.allocateHeld ht halign hsize hpos hacquire hallocate
    refine ⟨by rwa [liveAfter, hmax], fun m' hm' => ?_, heffect⟩
    obtain rfl := AcquiredResource.acquired.inj hm'
    exact hblock
  | noResource =>
    have hinv := h.acquireNone ht hframe hwf hcase
    simp only [bind_eq_ok, Prod.exists] at hok
    obtain ⟨p, alloc₁, hnew, hok⟩ := hok
    obtain ⟨c, alloc₂, hout, ⟨rfl, hinvalid, rfl, hinv⟩ | ⟨hp, hnew, hover, heq⟩⟩ :=
      hinv.acquireNewArena ht hnew
    · simp only [if_true, pure_eq_ok, Prod.mk.injEq] at hok
      obtain ⟨rfl, rfl⟩ := hok
      exact ⟨hinv, fun m hm => (by cases hm),
        .none (fun m hm => (by cases hm)) hframe.links hcase hout hinvalid⟩
    · simp only [hp, if_false, bind_eq_ok, Prod.exists, pure_eq_ok, Prod.mk.injEq] at hok
      obtain ⟨m, heap, allocator, hallocate, rfl, rfl⟩ := hok
      obtain ⟨hblock, hinv, hput⟩ := h.allocateFresh ht hsize hpos hacquire hnew hallocate
      have hheldBy : ¬w.alloc.HeldBy threads p := fun hheld =>
        hover.notHeld ((heldBy_keep ht hcase).mpr hheld)
      refine ⟨by rwa [liveAfter, hmax], fun m' hm' => ?_, ?_⟩
      · obtain rfl := AcquiredResource.acquired.inj hm'
        exact hblock
      · generalize alloc₁.heap p = arena at hover heq
        subst heq
        have heffect : Allocates threads w t size alignment commitOk type (.acquired m)
            (alloc₂.withAllocator t type heap allocator) :=
          .fresh hframe.links hcase hout { hover with notHeld := hheldBy } hput
        exact heffect
  | failed =>
    have hinv := h.acquireNone ht hframe hwf hcase
    simp only [pure_eq_ok, Prod.mk.injEq] at hok
    obtain ⟨rfl, rfl⟩ := hok
    exact ⟨hinv, fun m hm => (by cases hm),
      .none (fun m hm => (by cases hm)) hframe.links hcase .none rfl⟩

/-- Only the memory is changed. -/
theorem withAllocator_allocator (type : RegionChunkType) :
    alloc.withAllocator t type heap ((alloc.tlas t).allocator type) = { alloc with heap } := by
  have htla : (alloc.tlas t).withAllocator type ((alloc.tlas t).allocator type) = alloc.tlas t := by
    cases type <;> rfl
  rw [withAllocator, htla, Function.update_eq_self]

theorem withAllocator_self (type : RegionChunkType) :
    alloc.withAllocator t type alloc.heap ((alloc.tlas t).allocator type) = alloc :=
  withAllocator_allocator type

/-- `allocate` keeps the invariant, and what it returns is a fresh block. -/
theorem Inv.allocate (h : Inv threads w) (ht : t ∈ threads) {commitOk : Bool} {r : AcquiredResource}
    (hsize : size + alignment - 1 < 2 ^ 64)
    (hok : w.alloc.allocate commitOk t size alignment = .ok (r, alloc')) :
    Inv threads ⟨alloc', liveAfter w.live size r, w.foreign⟩ ∧
      (∀ m, r = .acquired m → FreshBlock w.alloc.rca w.live m (max size 1) alignment) ∧
      ∃ type, Allocates threads w t (max size 1) alignment commitOk type r alloc' := by
  rw [Allocator.allocate] at hok
  split_ifs at hok with halign
  · simp only [pure_eq_ok, Prod.mk.injEq] at hok
    obtain ⟨rfl, rfl⟩ := hok
    have hself : w.alloc.withAllocator t .fastArenaSmallAllocator w.alloc.heap
        ((w.alloc.tlas t).allocator .fastArenaSmallAllocator) = w.alloc := withAllocator_self _
    have hout : ChunkOut (w.alloc.withAllocator t .fastArenaSmallAllocator w.alloc.heap
        ((w.alloc.tlas t).allocator .fastArenaSmallAllocator)) t commitOk nullRegionChunkAllocation
          w.alloc := by
      rw [hself]
      exact .none
    exact ⟨h, fun m hm => (by cases hm), .fastArenaSmallAllocator,
      .none (fun m hm => (by cases hm)) (.refl _) (.refl _) hout rfl⟩
  have halign' : isAlignment alignment = true := by simpa using halign
  have hpos : 0 < max size 1 := by omega
  have hsize' : max size 1 + alignment - 1 < 2 ^ 64 := by
    obtain ⟨k, hk, rfl⟩ := isAlignment_iff.mp halign'
    have hle : 2 ^ k ≤ 2 ^ 63 := Nat.pow_le_pow_right (by decide) (by omega)
    omega
  have hlive : liveAfter w.live (max size 1) r = liveAfter w.live size r := by
    cases r <;> simp [liveAfter]
  rw [← hlive]
  dsimp only at hok
  split_ifs at hok
  · obtain ⟨hinv, hblock, heffect⟩ := h.allocateWith ht halign' hsize' hpos hok
    exact ⟨hinv, hblock, _, heffect⟩
  · obtain ⟨hinv, hblock, heffect⟩ := h.allocateWith ht halign' hsize' hpos hok
    exact ⟨hinv, hblock, _, heffect⟩

/-! ### Deallocation by the owner -/

section Settled

variable {l : Allocation} {r : Nat} (hsettled : BinsLaw.Settled type.law w.alloc.heap heap
  ((w.alloc.tlas t).allocator type).bins allocator.bins
  (Function.update (fun q => (w.alloc.heap q).liveIn w.live) p
    (((w.alloc.heap p).liveIn w.live).erase l)) p r (w.alloc.heap p).retireReclaimEntry)

include hsettled

theorem settled_block (q : Nat) : (w.alloc.heap q).SameBlock (heap q) := by
  by_cases hq : q = p
  · subst hq
    exact hsettled.block
  · rw [hsettled.others q hq]
    exact ⟨rfl, rfl, rfl, rfl⟩

theorem settled_entry (q : Nat) :
    (heap q).retireReclaimEntry = (w.alloc.heap q).retireReclaimEntry := by
  by_cases hq : q = p
  · subst hq
    exact hsettled.entry
  · rw [hsettled.others q hq]

theorem settled_pending (q : Nat) : (heap q).pending = (w.alloc.heap q).pending := by
  rw [FastArena.pending, settled_entry hsettled, FastArena.pending]

/-- The allocator whose arena was freed into. -/
theorem KindHolds.settled (h : w.alloc.KindHolds w.live t type)
    (hothers : ∀ q ∈ (w.alloc.tlas t).held type, q ≠ p → ¬(w.alloc.heap q).Owns l.memory)
    (hretired : allocator.retiredArenas = ((w.alloc.tlas t).allocator type).retiredArenas) :
    (w.alloc.withAllocator t type heap allocator).KindHolds (w.live.erase l) t type := by
  have hblock := settled_block hsettled
  have hsub : ∀ q ∈ type.law.held allocator.bins, q ∈ (w.alloc.tlas t).held type ∧
      (w.alloc.heap q).top ≤ (heap q).top := by
    intro q hq
    have htop : q ≠ p → (w.alloc.heap q).top ≤ (heap q).top := fun hqp => by
      rw [hsettled.others q hqp]
    rcases hsettled.result with ⟨-, hperm, hp⟩ | ⟨-, hperm, -⟩
    · refine ⟨hperm.subset hq, ?_⟩
      by_cases hqp : q = p
      · subst hqp
        exact hp.ge
      · exact htop hqp
    · have hnodup := hperm.nodup_iff.mpr (type.law.nodup h.holds.wf)
      exact ⟨hperm.subset (List.mem_cons_of_mem _ hq),
        htop (ne_of_mem_of_not_mem hq (List.nodup_cons.mp hnodup).1)⟩
  refine ⟨?_, ?_, fun q hq => ?_, fun q hq => ?_, fun q hq => ?_, ?_⟩
  · rw [allocator_withAllocator_self]
    refine hsettled.holds.congr fun q hq => ⟨rfl, ?_⟩
    rw [withAllocator_heap, (hblock q).liveIn]
    by_cases hqp : q = p
    · subst hqp
      rw [Function.update_self, FastArena.liveIn_erase]
    · rw [Function.update_of_ne hqp]
      exact FastArena.liveIn_erase_of_not_owns (hothers q (hsub q hq).1 hqp)
  · rw [allocator_withAllocator_self, hsettled.suitable]
    exact h.takes
  all_goals try rw [held_withAllocator_self] at hq
  · obtain ⟨c, hc⟩ := h.backed q (hsub q hq).1
    exact ⟨c, hc.congr (.refl _) (hblock q)⟩
  · exact ((h.packed q (hsub q hq).1).erase l).mono (hblock q) (hsub q hq).2
  · rw [FastArena.flagged, withAllocator_heap, settled_entry hsettled]
    exact h.flagged q (hsub q hq).1
  · rw [allocator_withAllocator_self, hretired]
    exact h.retired

end Settled

/-- The chunk of an arena without live allocations and retired bytes is given back. -/
theorem InHand.giveBack (h : InHand threads w t p c) (ht : t ∈ threads)
    (hnone : (w.alloc.heap p).liveIn w.live = []) (hpending : (w.alloc.heap p).pending = 0)
    (hok : w.alloc.deallocateChunk t c = .ok alloc') : Inv threads ⟨alloc', w.live, w.foreign⟩ := by
  obtain ⟨alloc₁, hok', hchunks, hframe, -⟩ := h.chunks.deallocateChunk ht h.flight
  obtain rfl : alloc' = alloc₁ := Except.ok.inj (hok.symm.trans hok')
  refine ⟨h.address, hchunks, fun u hu type' => (h.kind u hu type').congr hframe.rca
    (hframe.allocators u type') fun q _ => ⟨congrFun hframe.heap q, rfl⟩, fun l hl => ?_,
    fun hf q hq => ?_, fun hf => ?_⟩
  all_goals dsimp only
  · rcases h.live_held l hl with hown | ⟨q, hq, hown⟩
    · have hmem := FastArena.mem_liveIn.mpr ⟨hl, hown⟩
      rw [hnone] at hmem
      cases hmem
    · exact ⟨q, hframe.heldBy.mpr hq, hframe.heap ▸ hown⟩
  · rw [hframe.heap]
    exact (h.quiet hf).2 q (hframe.heldBy.mp hq)
  · rw [hframe.heap]
    obtain ⟨q, hq, hne⟩ := (h.lost hf).resolve_left fun hne => hne hpending
    exact ⟨q, hframe.heldBy.mpr hq, hne⟩

/-- What `deallocate_owner_` did with an allocation of `size` bytes in the arena at `p`: its freed
bytes were counted; or it was drained, taken out of the bins, and its chunk was given back. -/
inductive FreesOwn (alloc : Allocator) (t : Nat) (type : RegionChunkType) (p size : Nat) :
    Allocator → Prop where
  | kept {allocator : ArenaAllocator type.Bins}
      (hheld : (type.law.held allocator.bins).Perm ((alloc.tlas t).held type)) :
      FreesOwn alloc t type p size (alloc.withAllocator t type (Function.update alloc.heap p
        { alloc.heap p with freed := (alloc.heap p).freed + (alloc.heap p).requiredSpace size })
        allocator)
  | drained {c : RegionChunkAllocation} {heap : Heap} {allocator : ArenaAllocator type.Bins}
      {alloc' : Allocator}
      (hheld : (p :: type.law.held allocator.bins).Perm ((alloc.tlas t).held type))
      (hothers : ∀ q, q ≠ p → heap q = { alloc.heap q with linked := (heap q).linked })
      (hblock : ∀ q, (alloc.heap q).SameBlock (heap q))
      (hbacked : Backed alloc.rca alloc.heap t p c)
      (hin : ChunkIn (alloc.withAllocator t type heap allocator) t c alloc') :
      FreesOwn alloc t type p size alloc'

/-- `deallocate_owner_` keeps the invariant; a drained arena's chunk is given back. -/
theorem Inv.deallocateOwnerWith (h : Inv threads w) (ht : t ∈ threads) {l : Allocation}
    (hp : p ∈ (w.alloc.tlas t).held type) (hl : l ∈ w.live) (hown : (w.alloc.heap p).Owns l.memory)
    (hok : w.alloc.deallocateOwnerWith t type p l.memory l.size = .ok alloc') :
    Inv threads ⟨alloc', w.live.erase l, w.foreign⟩ ∧ FreesOwn w.alloc t type p l.size alloc' := by
  have hkind := h.kind t ht type
  obtain ⟨c, hc⟩ := hkind.backed p hp
  have hl' : l ∈ (w.alloc.heap p).liveIn w.live := FastArena.mem_liveIn.mpr ⟨hl, hown⟩
  simp only [Allocator.deallocateOwnerWith, bind_eq_ok, Prod.exists] at hok
  obtain ⟨r, heap, allocator, hdeallocate, hok⟩ := hok
  obtain ⟨fmt, hfrom⟩ := type.law.deallocate_cases hdeallocate
  obtain ⟨r', heap', allocator', heq, hretired, hsettled⟩ := hkind.holds.deallocateFrom hp hl' fmt
  rw [hfrom, Except.ok.injEq, Prod.mk.injEq, Prod.mk.injEq] at heq
  obtain ⟨rfl, rfl, rfl⟩ := heq
  -- the allocation is in no other block
  have hother : ∀ q, w.alloc.HeldBy threads q → q ≠ p → ¬(w.alloc.heap q).Owns l.memory :=
    fun q hq hqp howns => hqp (owner_unique h.chunks h.kind hq ⟨t, ht, type, hp⟩ howns hown)
  have hblock := settled_block hsettled
  have hpending := settled_pending hsettled
  have hkinds : ∀ u ∈ threads, ∀ type', (w.alloc.withAllocator t type heap allocator).KindHolds
      (w.live.erase l) u type' := by
    refine kind_withAllocator h.kind (hkind.settled hsettled
      (fun q hq => hother q ⟨t, ht, type, hq⟩) hretired) fun u hu type' hne q hq => ⟨?_, ?_⟩
    · exact hsettled.outside q fun hq' => hne (h.chunks.held_unique hu ht hq hq')
    · refine FastArena.liveIn_erase_of_not_owns (hother q ⟨u, hu, type', hq⟩ ?_)
      rintro rfl
      exact hne (h.chunks.held_unique hu ht hq hp)
  rcases hsettled.result with ⟨rfl, hperm, -⟩ | ⟨rfl, hperm, -, -, -, hzero, hdrained⟩
  · -- the arena stays in the bins
    simp only [if_true, pure_eq_ok] at hok
    subst hok
    have hheldBy : ∀ {q}, (w.alloc.withAllocator t type heap allocator).HeldBy threads q ↔
        w.alloc.HeldBy threads q := heldBy_keep ht hperm
    refine ⟨⟨h.address, h.chunks.keep ht hperm, hkinds, fun a ha => ?_, fun hf q hq => ?_,
      fun hf => ?_⟩, ?_⟩
    · obtain ⟨q, hq, howns⟩ := h.live_held a (List.mem_of_mem_erase ha)
      exact ⟨q, hheldBy.mpr hq, ((hblock q).owns _).mpr howns⟩
    · exact (hpending q).trans (h.quiet hf q (hheldBy.mp hq))
    · obtain ⟨q, hq, hne⟩ := h.lost hf
      exact ⟨q, hheldBy.mpr hq, (hpending q).symm ▸ hne⟩
    · rw [hkind.holds.deallocateFrom_kept hp hl' hfrom]
      exact .kept hperm
  · -- the arena was drained
    have hr0 : r ≠ 0 := Nat.pos_iff_ne_zero.mp (type.law.member hkind.holds.wf hp).1.1
    have hheldBy : ∀ {q}, w.alloc.HeldBy threads q ↔
        q = r ∨ (w.alloc.withAllocator t type heap allocator).HeldBy threads q :=
      heldBy_take ht hperm
    obtain ⟨hchunks, hflight, -⟩ : (w.alloc.withAllocator t type heap allocator).ChunksHold
        threads ∧
        (w.alloc.withAllocator t type heap allocator).InFlight threads c ∧ _ :=
      h.chunks.drop ht hc.placed (hc.address ▸ hperm)
    have hbacked : Backed w.alloc.rca heap t r c := hc.congr (.refl _) (hblock r)
    have hhand : InHand threads ⟨w.alloc.withAllocator t type heap allocator, w.live.erase l,
        w.foreign⟩ t r c := by
      refine ⟨h.address, hchunks, hkinds, hflight, hbacked, fun a ha => ?_,
        fun hf => ⟨hzero, fun q hq => ?_⟩, fun hf => ?_⟩
      · obtain ⟨q, hq, howns⟩ := h.live_held a (List.mem_of_mem_erase ha)
        have howns' := ((hblock q).owns _).mpr howns
        rcases hheldBy.mp hq with rfl | hq
        · exact .inl howns'
        · exact .inr ⟨q, hq, howns'⟩
      · exact (hpending q).trans (h.quiet hf q (hheldBy.mpr (.inr hq)))
      · obtain ⟨q, hq, hne⟩ := h.lost hf
        rw [← hpending q] at hne
        rcases hheldBy.mp hq with rfl | hq
        · exact .inl hne
        · exact .inr ⟨q, hq, hne⟩
    have hnone : (heap r).liveIn (w.live.erase l) = [] := by
      rw [(hblock r).liveIn, FastArena.liveIn_erase]
      rw [Function.update_self] at hdrained
      exact (hkind.packed r hp).liveIn_eq_nil (hkind.holds.arena r hp)
        (fun a ha => List.mem_of_mem_erase ha) hdrained
    have hptr := hbacked.ptrToAllocation_eq h.chunks.pools.toLayout h.chunks.mapped
      (x := (heap r).arenaMemory) ⟨le_rfl, by
        rw [hbacked.size]
        exact Nat.lt_add_of_pos_right (Nat.two_pow_pos _)⟩
    simp only [hr0, if_false, destroyArena, withAllocator_heap, bind_eq_ok, check_eq_ok,
      exists_const] at hok
    obtain ⟨c', hc', -, hok⟩ := hok
    obtain rfl : c' = c := Except.ok.inj (hc'.symm.trans hptr)
    exact ⟨hhand.giveBack ht hnone hzero hok, .drained hperm hsettled.others hblock hc
      (deallocateChunk_cases h.chunks.pools.toLayout h.chunks.mapped hc.placed hok)⟩

/-! ### Deallocation by another thread -/

/-- `deallocate_non_owner_` keeps the invariant: the bytes are counted in the retire word, and as
the arena's flag was set, it goes into no list. -/
theorem Inv.deallocateNonOwnerWith (h : Inv threads w) (ht : t ∈ threads) {l : Allocation}
    (hp : p ∈ (w.alloc.tlas t).held type) (hl : l ∈ w.live) (hown : (w.alloc.heap p).Owns l.memory)
    (hok : w.alloc.deallocateNonOwnerWith t type p l.memory l.size = .ok alloc') :
    Inv threads ⟨alloc', w.live.erase l, true⟩ ∧
      ∃ heap, (∀ q, (w.alloc.heap q).SameBlock (heap q)) ∧ alloc' = { w.alloc with heap } := by
  have hkind := h.kind t ht type
  have hlaw := hkind.holds.arena p hp
  obtain ⟨c, hc⟩ := hkind.backed p hp
  have hl' : l ∈ (w.alloc.heap p).liveIn w.live := FastArena.mem_liveIn.mpr ⟨hl, hown⟩
  simp only [Allocator.deallocateNonOwnerWith, bind_eq_ok, Prod.exists, pure_eq_ok] at hok
  obtain ⟨old, heap, allocator, hretire, rfl⟩ := hok
  obtain ⟨-, hholds⟩ := hkind.holds.retire hp hl' hretire
  obtain ⟨-, ⟨-, rfl, rfl⟩ | ⟨hnot, -⟩⟩ := hkind.holds.retire_cases hp hl' hretire
  swap
  · exact absurd (hkind.flagged p hp) hnot
  -- the count does not wrap
  have hsum : u64 ((w.alloc.heap p).pending + l.size) = (w.alloc.heap p).pending + l.size := by
    have hle := FastArena.le_requiredSpace hlaw.alignment_pos (hkind.packed p hp l hl hown).2
    have hacc := hlaw.accounted
    rw [(w.alloc.heap p).liveBytes_erase hl'] at hacc
    have htop := hlaw.top_le
    have hbound := hlaw.bound
    exact u64_of_lt (by omega)
  have hpos := (hlaw.size_pos l hl').1
  have hother : ∀ q, w.alloc.HeldBy threads q → q ≠ p → ¬(w.alloc.heap q).Owns l.memory :=
    fun q hq hqp howns => hqp (owner_unique h.chunks h.kind hq ⟨t, ht, type, hp⟩ howns hown)
  rw [hsum] at hretire hholds ⊢
  generalize hview : (w.alloc.heap p).withHead (2 * ((w.alloc.heap p).pending + l.size) + 1) = view
    at hholds ⊢
  have hblock : ∀ q, (w.alloc.heap q).SameBlock (Function.update w.alloc.heap p view q) :=
    fun q => by
    by_cases hqp : q = p
    · subst hqp
      rw [Function.update_self, ← hview]
      exact ⟨rfl, rfl, rfl, rfl⟩
    · rw [Function.update_of_ne hqp]
      exact .refl _
  have hself : (w.alloc.withAllocator t type (Function.update w.alloc.heap p view)
      ((w.alloc.tlas t).allocator type)).KindHolds (w.live.erase l) t type := by
    refine ⟨?_, ?_, fun q hq => ?_, fun q hq => ?_, fun q hq => ?_, ?_⟩
    · rw [allocator_withAllocator_self]
      refine hholds.congr fun q hq => ⟨rfl, ?_⟩
      rw [withAllocator_heap, (hblock q).liveIn]
      by_cases hqp : q = p
      · subst hqp
        rw [Function.update_self, FastArena.liveIn_erase]
      · rw [Function.update_of_ne hqp]
        exact FastArena.liveIn_erase_of_not_owns (hother q ⟨t, ht, type, hq⟩ hqp)
    · rw [allocator_withAllocator_self]
      exact hkind.takes
    all_goals try rw [held_withAllocator_self] at hq
    · obtain ⟨c', hc'⟩ := hkind.backed q hq
      exact ⟨c', hc'.congr (.refl _) (hblock q)⟩
    · refine ((hkind.packed q hq).erase l).mono (hblock q) ?_
      rw [withAllocator_heap]
      by_cases hqp : q = p
      · subst hqp
        rw [Function.update_self, ← hview]
        exact le_rfl
      · rw [Function.update_of_ne hqp]
    · rw [withAllocator_heap]
      by_cases hqp : q = p
      · subst hqp
        rw [Function.update_self, ← hview, FastArena.flagged, FastArena.withHead_head]
        omega
      · rw [Function.update_of_ne hqp]
        exact hkind.flagged q hq
    · rw [allocator_withAllocator_self]
      exact hkind.retired
  have hheldBy : ∀ {q}, (w.alloc.withAllocator t type (Function.update w.alloc.heap p view)
      ((w.alloc.tlas t).allocator type)).HeldBy threads q ↔ w.alloc.HeldBy threads q :=
    heldBy_keep ht (.refl _)
  refine ⟨⟨h.address, h.chunks.keep ht (.refl _), kind_withAllocator h.kind hself
    fun u hu type' hne q hq => ?_, fun a ha => ?_, fun hf => (by cases hf), fun _ => ⟨p, ?_, ?_⟩⟩,
    _, hblock, withAllocator_allocator type⟩
  · have hqp : q ≠ p := by
      rintro rfl
      exact hne (h.chunks.held_unique hu ht hq hp)
    exact ⟨Function.update_of_ne hqp _ _,
      FastArena.liveIn_erase_of_not_owns (hother q ⟨u, hu, type', hq⟩ hqp)⟩
  · obtain ⟨q, hq, howns⟩ := h.live_held a (List.mem_of_mem_erase ha)
    exact ⟨q, hheldBy.mpr hq, ((hblock q).owns _).mpr howns⟩
  · exact hheldBy.mpr ⟨t, ht, type, hp⟩
  · rw [withAllocator_heap, Function.update_self, ← hview, FastArena.withHead_pending]
    omega

/-- The arena of a live allocation: where it is, and what its header says. -/
theorem Inv.arena (h : Inv threads w) {l : Allocation} (hl : l ∈ w.live) :
    ∃ t ∈ threads, ∃ type, ∃ p ∈ (w.alloc.tlas t).held type, (w.alloc.heap p).Owns l.memory ∧
      w.alloc.arenaOf l.memory = .ok p ∧ (w.alloc.heap p).owner = t ∧
      (w.alloc.heap p).type = type.val := by
  obtain ⟨p, ⟨t, ht, type, hp⟩, hown⟩ := h.live_held l hl
  have hkind := h.kind t ht type
  obtain ⟨c, hc⟩ := hkind.backed p hp
  refine ⟨t, ht, type, p, hp, hown, hc.arenaOf_eq h.chunks.pools.toLayout h.chunks.mapped hown,
    hc.owner,
    ?_⟩
  have htype := type.law.type (type.law.member hkind.holds.wf hp).2.1
  cases type <;> exact htype

/-- What `deallocate` did: the owner freed, or only a retire word was written. -/
inductive Deallocates (threads : List Nat) (alloc : Allocator) (t : Nat) (l : Allocation) :
    Nat → Allocator → Prop where
  | own {type : RegionChunkType} {p : Nat} {alloc' : Allocator} (ht : t ∈ threads)
      (hp : p ∈ (alloc.tlas t).held type) (hown : (alloc.heap p).Owns l.memory)
      (hfrees : FreesOwn alloc t type p l.size alloc') : Deallocates threads alloc t l t alloc'
  | other {u : Nat} {heap : Heap} (hne : u ≠ t) (hblock : ∀ q, (alloc.heap q).SameBlock (heap q)) :
      Deallocates threads alloc t l u { alloc with heap }

theorem Inv.deallocate (h : Inv threads w) {ptr owner : Nat} (hl : ⟨ptr, max size 1⟩ ∈ w.live)
    (howner : w.alloc.ownerOf ptr = .ok owner) (hok : w.alloc.deallocate t ptr size = .ok alloc') :
    Inv threads ⟨alloc', w.live.erase ⟨ptr, max size 1⟩, w.foreign || owner != t⟩ ∧
      Deallocates threads w.alloc t ⟨ptr, max size 1⟩ owner alloc' := by
  obtain ⟨u, hu, type, p, hp, hown, harena, hu', htype⟩ := h.arena hl
  dsimp only at hown harena
  simp only [ownerOf, harena, ok_bind, hu', pure_eq_ok] at howner
  subst howner
  simp only [Allocator.deallocate, harena, ok_bind, hu'] at hok
  by_cases hut : t = u
  · subst hut
    simp only [if_true, deallocateOwner, htype] at hok
    have hforeign : (w.foreign || t != t) = w.foreign := by simp
    rw [hforeign]
    have hboth : Inv threads ⟨alloc', w.live.erase ⟨ptr, max size 1⟩, w.foreign⟩ ∧
        FreesOwn w.alloc t type p (max size 1) alloc' := by
      cases type <;> exact h.deallocateOwnerWith hu hp hl hown hok
    exact ⟨hboth.1, .own hu hp hown hboth.2⟩
  · simp only [hut, if_false, deallocateNonOwner, htype] at hok
    have hforeign : (w.foreign || u != t) = true := by simp [Ne.symm hut]
    rw [hforeign]
    have hboth : Inv threads ⟨alloc', w.live.erase ⟨ptr, max size 1⟩, true⟩ ∧
        ∃ heap, (∀ q, (w.alloc.heap q).SameBlock (heap q)) ∧ alloc' = { w.alloc with heap } := by
      cases type <;> exact h.deallocateNonOwnerWith hu hp hl hown hok
    obtain ⟨hinv, heap, hblock, rfl⟩ := hboth
    exact ⟨hinv, .other (Ne.symm hut) hblock⟩

/-! ### Reclamation -/

/-- There is nothing to walk: no arena was ever retired into a list. -/
theorem KindHolds.reclaimWith_eq (h : alloc.KindHolds live t type) (fuel : Nat) :
    alloc.reclaimWith fuel t type = .ok (some alloc) := by
  have hreclaim : ArenaAllocator.reclaimArenas ((alloc.tlas t).allocator type) =
      .ok (0, (alloc.tlas t).allocator type) := by
    have hword : RetireReclaimPtrView.reclaim 1 = .ok (1, 1) :=
      RetireReclaimPtrView.reclaim_eq_ok.mpr ⟨rfl, rfl, rfl⟩
    have hptr : RetireReclaimPtr.ptr 1 = 0 := RetireReclaimPtr.ptr_eq (by decide)
    have hretired := h.retired
    generalize (alloc.tlas t).allocator type = allocator at hretired ⊢
    obtain ⟨entry, bins⟩ := allocator
    subst hretired
    simp only [ArenaAllocator.reclaimArenas, ne_eq, not_true_eq_false, if_false, hword, ok_bind,
      hptr]
    rfl
  simp only [reclaimWith, hreclaim, ok_bind, withAllocator_self]
  cases fuel <;> rfl

theorem Inv.reclaim_eq (h : Inv threads w) (ht : t ∈ threads) (fuel : Nat) :
    w.alloc.reclaim fuel t = .ok (some ((w.alloc.tlas t).smallAllocator.empty &&
      (w.alloc.tlas t).stepSplitAllocator.empty, w.alloc)) := by
  simp only [Allocator.reclaim, (h.kind t ht .fastArenaSmallAllocator).reclaimWith_eq, ok_bind,
    (h.kind t ht .fastArenaStepSplitAllocator).reclaimWith_eq]
  rfl

/-! ### Runs -/

/-- An allocator that holds no arena. -/
theorem KindHolds.of_empty (hretired : ((alloc.tlas t).allocator type).retiredArenas = ⟨1, 0, 0⟩)
    (hwf : type.law.WellFormed alloc.heap ((alloc.tlas t).allocator type).bins)
    (hnil : (alloc.tlas t).held type = [])
    (htakes : ∃ a, type.law.Suitable ((alloc.tlas t).allocator type).bins a ∧
      a.arenaAlignment ≤ confMinAllocAlignment) : alloc.KindHolds live t type := by
  have hnone : ∀ {p}, p ∉ (alloc.tlas t).held type := fun {p} hp => by
    rw [hnil] at hp
    cases hp
  exact ⟨⟨hwf, fun p hp => absurd hp hnone, fun p hp => absurd hp hnone⟩, htakes,
    fun p hp => absurd hp hnone, fun p hp => absurd hp hnone, fun p hp => absurd hp hnone, hretired⟩

/-- A new thread-local allocator holds no arena. -/
theorem kind_of_create {config : ThreadLocalAllocatorConfig}
    (hcreate : (ThreadLocalAllocator.create config).Creates (alloc.tlas t))
    (hstepMin : config.stepSplitAllocConfig.minArenaAlignmentLog2 = confFastArenaMinAlignmentLog2)
    (hsmallMin : config.smallAllocConfig.minArenaAlignmentLog2 = confFastArenaMinAlignmentLog2)
    (type : RegionChunkType) : alloc.KindHolds live t type ∧ (alloc.tlas t).held type = [] := by
  simp only [ThreadLocalAllocator.create, creates_bind, creates_pure] at hcreate
  obtain ⟨stepSplit, hstepSplit, small, hsmall, heq⟩ := hcreate
  cases type with
  | fastArenaStepSplitAllocator =>
    obtain rfl : (alloc.tlas t).allocator .fastArenaStepSplitAllocator = stepSplit := by
      rw [← heq]
      rfl
    have hnil := FastArenaStepSplitAllocator.create_held hstepSplit
    obtain ⟨a, ha, hmin⟩ := FastArenaStepSplitAllocator.create_suitable hstepSplit
    refine ⟨.of_empty (FastArenaStepSplitAllocator.create_retiredArenas hstepSplit)
      (FastArenaStepSplitAllocator.create_inv hstepSplit alloc.heap).holds.wf hnil ⟨a, ha, ?_⟩,
      hnil⟩
    rw [hmin, hstepMin]
    decide
  | fastArenaSmallAllocator =>
    obtain rfl : (alloc.tlas t).allocator .fastArenaSmallAllocator = small := by
      rw [← heq]
      rfl
    have hinv := FastArenaSmallAllocator.create_inv hsmall alloc.heap
    have hnil := hinv.given.eq_nil
    obtain ⟨a, ha, hmin⟩ := FastArenaSmallAllocator.create_suitable hsmall
    refine ⟨.of_empty (FastArenaSmallAllocator.create_retiredArenas hsmall) hinv.holds.wf hnil
      ⟨a, ha, ?_⟩, hnil⟩
    rw [hmin, hsmallMin]
    decide

/-- A new thread-local allocator has no cached chunk. -/
theorem cachedChunks_of_create {config : ThreadLocalAllocatorConfig} {tla : ThreadLocalAllocator}
    (hcreate : (ThreadLocalAllocator.create config).Creates tla) :
    tla.cachedChunks = fun _ => nullRegionChunkAllocation := by
  simp only [ThreadLocalAllocator.create, creates_bind, creates_pure] at hcreate
  obtain ⟨_, -, _, -, heq⟩ := hcreate
  rw [← heq]

/-- A thread-local allocator without cached chunks has no cached chunk's address. -/
theorem cachedAddresses_eq_nil {rca : RegionChunkAllocator} {tla : ThreadLocalAllocator}
    (h : tla.cachedChunks = fun _ => nullRegionChunkAllocation) : tla.cachedAddresses rca = [] :=
  slots_eq_nil fun r _ => by
    rw [h]
    rfl

theorem Fresh.kind (h : Fresh threads alloc) (ht : t ∈ threads) (type : RegionChunkType) :
    alloc.KindHolds [] t type ∧ (alloc.tlas t).held type = [] := by
  obtain ⟨config, hcreate, hstepMin, hsmallMin⟩ := h.tlas t ht
  exact kind_of_create hcreate hstepMin hsmallMin type

/-- Fewer threads. -/
theorem Fresh.mono (h : Fresh threads alloc) {threads' : List Nat}
    (hsub : ∀ u ∈ threads', u ∈ threads)
    (hnodup : threads'.Nodup) : Fresh threads' alloc :=
  ⟨h.specs, h.pools, h.fits, h.mapped, hnodup, fun u hu => h.address u (hsub u hu),
    fun u hu => h.tlas u (hsub u hu)⟩

theorem Fresh.cachedChunks (h : Fresh threads alloc) (ht : t ∈ threads) :
    (alloc.tlas t).cachedChunks = fun _ => nullRegionChunkAllocation := by
  obtain ⟨config, hcreate, -⟩ := h.tlas t ht
  exact cachedChunks_of_create hcreate

theorem Fresh.inv (h : Fresh threads alloc) : Inv threads ⟨alloc, [], false⟩ := by
  obtain ⟨specsConfig, hspecs⟩ := h.specs
  obtain ⟨contentionSplit, hpools⟩ := h.pools
  have hw := RegionChunkAllocatorSpecs.create_wellFormed hspecs h.fits
  have htaken : alloc.taken threads = [] := slots_eq_nil fun t ht => by
    rw [ThreadLocalAllocator.addresses, cachedAddresses_eq_nil (h.cachedChunks ht), (h.kind ht _).2,
      (h.kind ht _).2]
    rfl
  have hnone : ∀ {p}, ¬alloc.HeldBy threads p := by
    rintro p ⟨t, ht, type, hp⟩
    rw [(h.kind ht type).2] at hp
    cases hp
  refine ⟨h.address, ⟨h.threads_nodup, (RegionChunkAllocator.poolsHold_of_create hw hpools).1,
    h.mapped,
    fun t ht r hr => ?_, ?_, ?_⟩, fun t ht type => (h.kind ht type).1, fun l hl => (by cases hl),
    fun _ p hp => absurd hp hnone, fun hf => (by cases hf)⟩
  · rw [h.cachedChunks ht] at hr
    change nullRegionChunkAllocation.valid = true at hr
    exact absurd hr (by decide)
  · rw [htaken]
    exact List.nodup_nil
  · rw [htaken]
    simp

theorem Inv.step {w' : World} (h : Inv threads w) (hstep : Step threads w w') : Inv threads w' := by
  cases hstep with
  | allocate ht hsize hok => exact (h.allocate ht hsize hok).1
  | deallocate ht hl howner hok => exact (h.deallocate hl howner hok).1
  | reclaim ht hok =>
    rw [h.reclaim_eq ht] at hok
    obtain ⟨-, rfl⟩ := Prod.mk.inj (Option.some.inj (Except.ok.inj hok))
    exact h

/-- **The invariant holds of every state that runs of any threads reach.** -/
theorem Reachable.inv (h : Reachable threads w) : Inv threads w := by
  induction h with
  | init h => exact h.inv
  | step _ hstep ih => exact ih.step hstep

end

/-! ### Two threads and two chunks -/

/-- One region of two chunks of 4096 bytes. -/
def sampleSpecs : RegionChunkAllocatorSpecs :=
  { regionSpecs := [⟨0, 8192, 12, 7, 0, 2⟩]
    chunkSizeSearchSentinels := [4096], regionSearchSentinels := [8192]
    totalRegionsSize := 8192, regionAlignment := 4096, regionSize := 8192, regionSizeLog2 := 13
    numRegions := 1, totalHandlesSize := 256, handleAlignment := 64, handleSize := 128
    handleSizeLog2 := 7, numHandles := 2 }

/-- An allocator over them, with new thread-local allocators. -/
def sampleAllocator : Allocator :=
  { rca := {
      specs := sampleSpecs, pools := .build sampleSpecs 1, regions := 65536, handles := 8192
      poolHandles := fun _ => regionChunkPoolNullLink }
    heap := fun _ => default
    tlas := fun _ => {
      cachedChunks := fun _ => nullRegionChunkAllocation
      totalChunkStorageSize := 0
      lastChunkPoolSplitId := fun _ => 0
      stepSplitAllocator := FastArenaStepSplitAllocator.sampleAlloc
      smallAllocator := FastArenaSmallAllocator.sampleAlloc }
    committed := fun _ => false }

theorem sampleAllocator_fresh : Fresh [64, 128] sampleAllocator where
  specs := ⟨{
    regionSizes := [13], regionChunkSizes := [12], handleSize := 128
    regionAlignment := 4096, handleAlignment := 64 }, rfl⟩
  pools := ⟨1, rfl⟩
  fits := ⟨by decide, by decide⟩
  mapped := ⟨⟨by decide, by decide, by decide⟩, by decide⟩
  threads_nodup := by decide
  address := by decide
  tlas _ _ := ⟨⟨⟨0, 12, 12, 4, 4⟩, ⟨4, 12, 4096⟩⟩, rfl, rfl, rfl⟩

end Allocator

end Cuw3
