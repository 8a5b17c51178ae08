/-
  Sizes that do not wrap.

  A request is rounded up modulo `2 ^ 64` in the demand, the limit, the cached-arena test and the
  arena. As long as rounding up does not wrap, the arena that serves a request has room for all of
  it (`Took`), and a request above the maximal size is refused (`Process.reachable_sizes`).  A size
  that wraps is rounded up to `0`, and served by any arena of its alignment (`Process.not_sizes`).
-/
import Cuw3.Allocator.Equiv.Processes
import Cuw3.StepSplit.Equiv.Acquire

namespace Cuw3

namespace Allocator

variable {threads : List Nat} {w : World} {alloc alloc' : Allocator} {t m p size alignment : Nat}
  {type : RegionChunkType} {arena : FastArena}

/-- The block of `size` bytes at `m` was taken from the arena at `p`, one that `t` had in its bins
or one that was made for the request. -/
structure Took (alloc alloc' : Allocator) (t m size : Nat) (type : RegionChunkType) (p : Nat)
    (arena : FastArena) : Prop where
  source : p ∈ (alloc.tlas t).held type ∧ arena = alloc.heap p ∨
    p ∉ (alloc.tlas t).held type ∧ arena.top = 0
  held : p ∈ (alloc'.tlas t).held type
  block : arena.SameBlock (alloc'.heap p)
  room : size ≤ arena.room
  top : arena.top + size ≤ (alloc'.heap p).top
  low : arena.arenaMemory ≤ m
  high : m + size ≤ arena.arenaMemory + arena.arenaMemorySize

/-- The arena of a block has room for the block, and its top goes past it. -/
theorem TopBlock.took {linked : Bool} (h : TopBlock arena m size)
    (hsource : p ∈ (alloc.tlas t).held type ∧ arena = alloc.heap p ∨
      p ∉ (alloc.tlas t).held type ∧ arena.top = 0)
    (hheld : p ∈ (alloc'.tlas t).held type)
    (hserved : alloc'.heap p = { served arena size with linked }) :
    Took alloc alloc' t m size type p arena := by
  have heq := h.eq
  have hfits := h.fits
  have hspace := h.le_space
  refine ⟨hsource, hheld, ?_, ?_, ?_, ?_, ?_⟩
  · rw [hserved]
    exact ⟨rfl, rfl, rfl, rfl⟩
  · rw [FastArena.room]
    omega
  · rw [hserved]
    exact Nat.add_le_add_left hspace _
  · omega
  · omega

/-- **A block is taken from an arena that has room for it.** -/
theorem Allocates.took {commitOk : Bool} (ht : t ∈ threads)
    (h : Allocates threads w t size alignment commitOk type (.acquired m) alloc') :
    ∃ p arena, Took w.alloc alloc' t m size type p arena := by
  cases h with
  | none hr _ _ _ _ => exact absurd rfl (hr m)
  | @held p _ heap allocator hp hheld hheap hblock =>
    have hlink := hheap p
    rw [Function.update_self] at hlink
    refine ⟨p, _, hblock.took (.inl ⟨hp, rfl⟩) ?_ hlink⟩
    rw [held_withAllocator_self]
    exact hheld.symm.subset hp
  | @fresh c alloc₁ arena p _ heap₁ heap bins allocator hlinks hheld hout hnew hput =>
    have hlink := hput.heap p
    have hblock := hput.block
    dsimp only at hlink hblock
    rw [Function.update_self] at hblock
    rw [Function.update_self, Function.update_self] at hlink
    obtain ⟨memory, hconstructed⟩ := hnew.constructed
    refine ⟨p, arena, hblock.took
      (.inr ⟨fun hp => hnew.notHeld ⟨t, ht, type, hp⟩, hconstructed.top⟩)
      ?_ hlink⟩
    rw [held_withAllocator_self]
    exact hput.held.symm.subset List.mem_cons_self

/-- The largest size that a thread serves. -/
def maxAllocSize (alloc : Allocator) (t : Nat) : Nat :=
  max (alloc.tlas t).smallAllocator.getSizeCutoff
    (alloc.tlas t).stepSplitAllocator.bins.binsInfo.globalMaxAllocSize

/-- A request above the largest size fails, and changes nothing. -/
theorem Inv.allocate_failed (h : Inv threads w) (ht : t ∈ threads) (commitOk : Bool)
    (halign : isAlignment alignment = true)
    (hmin : 2 ^ (w.alloc.tlas t).stepSplitAllocator.bins.binsInfo.minArenaAlignmentLog2 ≤ alignment)
    (hwrap : size + alignment - 1 < 2 ^ 64) (hsize : w.alloc.maxAllocSize t < size) :
    w.alloc.allocate commitOk t size alignment = .ok (.failed, w.alloc) := by
  obtain ⟨hcutoff, hmax⟩ := max_lt_iff.mp hsize
  have hwf : (w.alloc.tlas t).stepSplitAllocator.bins.WellFormed w.alloc.heap :=
    (h.kind t ht .fastArenaStepSplitAllocator).holds.wf
  have hone : max size 1 = size := by omega
  have hacquire := hwf.acquireArena_failed halign hmin hwrap hmax
  unfold Allocator.allocate
  simp only [halign, Bool.not_true, Bool.false_eq_true, if_false, hone, if_neg (not_le.mpr hcutoff)]
  have hops : RegionChunkType.fastArenaStepSplitAllocator.ops.acquire w.alloc.heap
      ((w.alloc.tlas t).allocator .fastArenaStepSplitAllocator).bins size alignment =
        .ok (.failed, w.alloc.heap,
          ((w.alloc.tlas t).allocator .fastArenaStepSplitAllocator).bins) :=
    hacquire
  unfold Allocator.allocateStepSplitAllocator Allocator.allocateWith
  simp only [hops, ok_bind, pure_eq_ok, Prod.mk.injEq, true_and]
  exact withAllocator_self _

end Allocator

namespace Process

open Allocator

variable {p : Process} {t size alignment : Nat}

/-- **Sizes that do not wrap are served in full.**  In every state of a run, a request whose
rounding up stays below `2 ^ 64` gets its bytes from one arena, which had room for them; one above
the largest size fails and changes nothing. -/
theorem reachable_sizes (hreach : Reachable (fun _ _ => True) p) (ht : p.Running t)
    (commitOk : Bool)
    (halign : isAlignment alignment = true)
    (hmin : 2 ^ (p.alloc.tlas t).stepSplitAllocator.bins.binsInfo.minArenaAlignmentLog2 ≤ alignment)
    (hwrap : size + alignment - 1 < 2 ^ 64) :
    (∀ m alloc', p.alloc.toAllocator.allocate commitOk t size alignment =
      .ok (.acquired m, alloc') →
      ∃ type q arena, Took p.alloc.toAllocator alloc' t m (max size 1) type q arena) ∧
    (p.alloc.toAllocator.maxAllocSize t < size →
      p.alloc.toAllocator.allocate commitOk t size alignment =
        .ok (.failed, p.alloc.toAllocator)) := by
  have hinv := hreach.inv.world
  constructor
  · intro m alloc' hok
    obtain ⟨-, -, type, hallocates⟩ := hinv.allocate ht.mem hwrap hok
    obtain ⟨q, arena, htook⟩ := hallocates.took ht.mem
    exact ⟨type, q, arena, htook⟩
  · intro hsize
    exact hinv.allocate_failed ht.mem commitOk halign hmin hwrap hsize

/-- A process whose one thread has an arena for alignment 16 with 2048 bytes left. -/
theorem exists_half_full : ∃ p, Reachable (fun _ _ => True) p ∧ p.Running 64 ∧
    ((p.alloc.tlas 64).stepSplitAllocator.bins.binsInfo.minArenaAlignmentLog2 = 4 ∧
      (p.alloc.tlas 64).stepSplitAllocator.bins.binsInfo.maxArenaAlignmentLog2 = 12) ∧
    (∃ alloc', p.alloc.toAllocator.allocate true 64 1500 16 = .ok (.acquired 67584, alloc')) ∧
    ∃ alloc', p.alloc.toAllocator.allocate true 64 (2 ^ 64 - 1) 16 = .ok (.acquired 67584, alloc') ∧
      ∀ type, ∀ q ∈ (alloc'.tlas 64).held type, (alloc'.heap q).arenaMemorySize < 2 ^ 64 - 1 := by
  have hrun : ((sampleProcess.execAll 1 [.start ⟨⟨0, 12, 12, 4, 12⟩, ⟨4, 4, 1024⟩⟩ 64,
      .allocate true 64 2048 16]).bind fun p =>
        (p.alloc.toAllocator.allocate true 64 (2 ^ 64 - 1) 16).toOption.bind fun a =>
        (p.alloc.toAllocator.allocate true 64 1500 16).toOption.map fun b => decide (
          p.Running 64 ∧ ((p.alloc.tlas 64).stepSplitAllocator.bins.binsInfo.minArenaAlignmentLog2 =
            4 ∧
            (p.alloc.tlas 64).stepSplitAllocator.bins.binsInfo.maxArenaAlignmentLog2 = 12) ∧
          (a.1 = .acquired 67584 ∧ b.1 = .acquired 67584) ∧
          (∀ q ∈ (a.2.tlas 64).held .fastArenaStepSplitAllocator,
            (a.2.heap q).arenaMemorySize < 2 ^ 64 - 1) ∧
          ∀ q ∈ (a.2.tlas 64).held .fastArenaSmallAllocator,
            (a.2.heap q).arenaMemorySize < 2 ^ 64 - 1)) = some true := by decide +kernel
  obtain ⟨p, hexec, hrun⟩ := Option.bind_eq_some_iff.mp hrun
  obtain ⟨⟨r, alloc'⟩, hlarge, hrun⟩ := Option.bind_eq_some_iff.mp hrun
  obtain ⟨⟨r', alloc''⟩, hfits, hp⟩ := Option.map_eq_some_iff.mp hrun
  obtain ⟨ht, hrange, ⟨hr, hr'⟩, hstep, hsmall⟩ := of_decide_eq_true hp
  dsimp only at hr hr' hstep hsmall
  subst hr hr'
  refine ⟨p, Reachable.execAll (.init sampleProcess_init) (fun _ _ _ => trivial) hexec, ht, hrange,
    ⟨alloc'', toOption_eq_some.mp hfits⟩, alloc', toOption_eq_some.mp hlarge, fun type => ?_⟩
  cases type with
  | fastArenaStepSplitAllocator => exact hstep
  | fastArenaSmallAllocator => exact hsmall

/-- A request of 1500 bytes fits. -/
theorem reachable_sizes_sample : ∃ p, Reachable (fun _ _ => True) p ∧
    ∃ alloc' type q arena, p.alloc.toAllocator.allocate true 64 1500 16 =
      .ok (.acquired 67584, alloc') ∧
      Took p.alloc.toAllocator alloc' 64 67584 1500 type q arena := by
  obtain ⟨p, hreach, ht, ⟨hmin, -⟩, ⟨alloc', hok⟩, -⟩ := exists_half_full
  obtain ⟨type, q, arena, htook⟩ :=
    (reachable_sizes hreach ht true (show isAlignment 16 = true by decide) (by rw [hmin]; decide)
      (show 1500 + 16 - 1 < 2 ^ 64 by decide)).1 67584 alloc' hok
  exact ⟨p, hreach, alloc', type, q, arena, hok, htook⟩

/-- **A size that wraps is served by any arena**: a request of `2 ^ 64 - 1` bytes gets the top of an
arena with 2048 bytes left, and takes none of them. -/
theorem not_sizes : ¬ ∀ p t commitOk size alignment, Reachable (fun _ _ => True) p → p.Running t →
    size < 2 ^ 64 → isAlignment alignment = true →
    2 ^ (p.alloc.tlas t).stepSplitAllocator.bins.binsInfo.minArenaAlignmentLog2 ≤ alignment →
    alignment ≤ 2 ^ (p.alloc.tlas t).stepSplitAllocator.bins.binsInfo.maxArenaAlignmentLog2 →
    ∀ m alloc', p.alloc.toAllocator.allocate commitOk t size alignment = .ok (.acquired m, alloc') →
      ∃ type q arena, Took p.alloc.toAllocator alloc' t m (max size 1) type q arena := by
  intro h
  obtain ⟨p, hreach, ht, ⟨hmin, hmax⟩, -, alloc', hok, hsmall⟩ := exists_half_full
  obtain ⟨type, q, arena, htook⟩ := h p 64 true (2 ^ 64 - 1) 16 hreach ht (by decide) (by decide)
    (by rw [hmin]; decide) (by rw [hmax]; decide) 67584 alloc' hok
  -- no arena is so large
  have hroom : max (2 ^ 64 - 1) 1 ≤ arena.arenaMemorySize - arena.top := htook.room
  have hsize := hsmall type q htook.held
  rw [htook.block.size] at hsize
  omega

end Process

end Cuw3
