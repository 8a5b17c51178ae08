/-
  Calls return.

  In the configuration of `cuw3.cpp` no check, assertion or abort on the path of an exported
  function fails, in whatever state threads have brought the process that free what they hold
  (`Program.reaches_returns`): a request whose alignment is not below the least one is answered, a
  live allocation can be freed by every thread, and the clean-ups and the exit of a thread end.
-/
import Cuw3.Allocator.Equiv.Api

namespace Cuw3

open Lib

/-! ### Frees -/

/-- `deallocate` of both kinds of allocators, after its checks on null arguments. -/
theorem RegionChunkType.deallocate_eq {type : RegionChunkType} {p memory size : Nat} (heap : Heap)
    (allocator : ArenaAllocator type.Bins) (hp : p ≠ 0) (hmemory : memory ≠ 0) (hsize : size ≠ 0) :
    ∃ fmt, type.ops.deallocate heap allocator p memory size =
      allocator.deallocateFrom type.ops.toBinsOps heap fmt p memory size := by
  cases type with
  | fastArenaStepSplitAllocator =>
    refine ⟨"arena does not belong to this allocator", ?_⟩
    show FastArenaStepSplitAllocator.deallocate heap allocator p memory size = _
    unfold FastArenaStepSplitAllocator.deallocate
    rw [check_of hp, check_of hmemory, check_of hsize]
    rfl
  | fastArenaSmallAllocator =>
    refine ⟨"arena has invalid type", ?_⟩
    show FastArenaSmallAllocator.deallocate heap allocator p memory size = _
    unfold FastArenaSmallAllocator.deallocate
    rw [check_of hp, check_of hsize]
    rfl

namespace Allocator

variable {threads : List Nat} {w : World} {t p size : Nat} {type : RegionChunkType} {l : Allocation}

/-- The owner of the arena can free a live allocation. -/
theorem Inv.deallocateOwnerWith_exists (h : Inv threads w) (ht : t ∈ threads)
    (hp : p ∈ (w.alloc.tlas t).held type) (hl : l ∈ w.live)
    (hown : (w.alloc.heap p).Owns l.memory) :
    ∃ alloc', w.alloc.deallocateOwnerWith t type p l.memory l.size = .ok alloc' := by
  have hkind := h.kind t ht type
  have hl' : l ∈ (w.alloc.heap p).liveIn w.live := FastArena.mem_liveIn.mpr ⟨hl, hown⟩
  have hlaw := hkind.holds.arena p hp
  have hp0 : p ≠ 0 := (type.law.member hkind.holds.wf hp).1.1.ne'
  have hmemory : l.memory ≠ 0 := by
    have hpos := hlaw.memory_pos
    have hlo := hown.1
    omega
  have hsize : l.size ≠ 0 := (hlaw.size_pos l hl').1.ne'
  obtain ⟨c, hc⟩ := hkind.backed p hp
  obtain ⟨fmt, heq⟩ := RegionChunkType.deallocate_eq w.alloc.heap
    ((w.alloc.tlas t).allocator type) hp0 hmemory hsize
  obtain ⟨r, heap, allocator, hfrom, -, hsettled⟩ := hkind.holds.deallocateFrom hp hl' fmt
  unfold Allocator.deallocateOwnerWith
  simp only [heq, hfrom, ok_bind]
  rcases hsettled.result with ⟨rfl, -, -⟩ | ⟨rfl, hperm, -⟩
  · exact ⟨_, rfl⟩
  · -- the chunk of the drained arena is given back
    have hblock := settled_block hsettled
    have hbacked : Backed w.alloc.rca heap t r c := hc.congr (.refl _) (hblock r)
    obtain ⟨hchunks, hflight, -⟩ : (w.alloc.withAllocator t type heap allocator).ChunksHold
        threads ∧
        (w.alloc.withAllocator t type heap allocator).InFlight threads c ∧ _ :=
      h.chunks.drop ht hc.placed (hc.address ▸ hperm)
    have hptr : w.alloc.rca.ptrToAllocation (heap r).arenaMemory = .ok c := by
      refine hbacked.ptrToAllocation_eq h.chunks.pools.toLayout h.chunks.mapped ⟨le_rfl, ?_⟩
      rw [hbacked.size]
      exact Nat.lt_add_of_pos_right (Nat.two_pow_pos _)
    obtain ⟨alloc', hback, -⟩ := hchunks.deallocateChunk ht hflight
    have hvalid : c.valid = true := hc.placed.valid h.chunks.pools.toLayout
    refine ⟨alloc', ?_⟩
    rw [if_neg hp0]
    simp only [destroyArena, withAllocator_heap]
    show (w.alloc.rca.ptrToAllocation (heap r).arenaMemory >>= _) = _
    rw [hptr, ok_bind, check_of hvalid, ok_bind]
    exact hback

/-- Every other thread can free it, too: the count of retired bytes does not overflow. -/
theorem Inv.deallocateNonOwnerWith_exists (h : Inv threads w) (ht : t ∈ threads)
    (hchunks : w.alloc.rca.Chunks) (hp : p ∈ (w.alloc.tlas t).held type) (hl : l ∈ w.live)
    (hown : (w.alloc.heap p).Owns l.memory) :
    ∃ alloc', w.alloc.deallocateNonOwnerWith t type p l.memory l.size = .ok alloc' := by
  have hkind := h.kind t ht type
  have hl' : l ∈ (w.alloc.heap p).liveIn w.live := FastArena.mem_liveIn.mpr ⟨hl, hown⟩
  have hlaw := hkind.holds.arena p hp
  have hp0 : p ≠ 0 := (type.law.member hkind.holds.wf hp).1.1.ne'
  have hmemory : l.memory ≠ 0 := by
    have hpos := hlaw.memory_pos
    have hlo := hown.1
    omega
  have hsize : l.size ≠ 0 := (hlaw.size_pos l hl').1.ne'
  have htype : ArenaAllocator.hasType type.ops.toBinsOps w.alloc.heap p = true := by
    simp [ArenaAllocator.hasType, type.law.type (type.law.member hkind.holds.wf hp).2.1]
  have hsum : u64 ((w.alloc.heap p).pending + l.size) < 2 ^ 63 := by
    have hle := FastArena.le_requiredSpace hlaw.alignment_pos (hkind.packed p hp l hl hown).2
    have hacc := hlaw.accounted
    rw [(w.alloc.heap p).liveBytes_erase hl'] at hacc
    have htop := hlaw.top_le
    have hlt := h.arenaMemorySize_lt ht hchunks hp
    rw [u64_of_lt (by omega)]
    omega
  have hretire := (hlaw.retireAllocation_eq_ok hl').mpr ⟨hsum, rfl, rfl⟩
  have hflag : retired (w.alloc.heap p).retireReclaimEntry.head = true := by
    rw [retired_eq]
    exact decide_eq_true (hkind.flagged p hp)
  unfold Allocator.deallocateNonOwnerWith ArenaAllocator.retire
  simp only [check_of hp0, check_of hmemory, check_of hsize, check_of htype, hretire, ok_bind,
    hflag, if_true]
  exact ⟨_, rfl⟩

/-- **A live allocation can be freed by every thread.** -/
theorem Inv.deallocate_exists (h : Inv threads w) (hchunks : w.alloc.rca.Chunks) {ptr : Nat}
    (hl : ⟨ptr, max size 1⟩ ∈ w.live) (t : Nat) :
    ∃ alloc', w.alloc.deallocate t ptr size = .ok alloc' := by
  obtain ⟨u, hu, type, p, hp, hown, harena, howner, htype⟩ := h.arena hl
  dsimp only at hown harena
  unfold Allocator.deallocate
  simp only [harena, ok_bind, howner]
  split_ifs with htu
  · have hexists := h.deallocateOwnerWith_exists hu hp hl hown
    subst htu
    unfold deallocateOwner
    simp only [htype]
    cases type <;> exact hexists
  · have hexists := h.deallocateNonOwnerWith_exists hu hchunks hp hl hown
    unfold deallocateNonOwner
    simp only [htype]
    cases type <;> exact hexists

/-- Every request of a supported alignment is answered, also one above the largest size. -/
theorem Inv.allocate_returns (h : Inv threads w) (ht : t ∈ threads) (hready : w.alloc.Ready t)
    {alignment : Nat}
    (hmin : isAlignment alignment = true → 2 ^ confFastArenaMinAlignmentLog2 ≤ alignment)
    (hwrap : size + alignment - 1 < 2 ^ 64) (commitOk : Bool) :
    ∃ r alloc', w.alloc.allocate commitOk t size alignment = .ok (r, alloc') := by
  by_cases halign : isAlignment alignment = true
  · by_cases hsize : size ≤ w.alloc.maxAllocSize t
    · obtain ⟨r, alloc', hok, -⟩ :=
        h.allocate_exists ht hready halign (hmin halign) hsize commitOk
      exact ⟨r, alloc', hok⟩
    · have hconf : (w.alloc.tlas t).stepSplitAllocator.bins.binsInfo.Configured :=
        hready.configured .fastArenaStepSplitAllocator
      refine ⟨_, _, h.allocate_failed ht commitOk halign ?_ hwrap (not_le.mp hsize)⟩
      rw [hconf.minAlignment]
      exact hmin halign
  · rw [Bool.not_eq_true] at halign
    unfold Allocator.allocate
    rw [halign]
    exact ⟨_, _, rfl⟩

end Allocator

/-! ### Clean-ups and threads -/

namespace GraveAllocator

variable {threads : List Nat} {alloc : GraveAllocator} {live : List Allocation} {foreign : Bool}
  {t : Nat}

theorem thisTlaCleanup_exists (h : Allocator.Inv threads ⟨alloc.toAllocator, live, foreign⟩)
    (ht : t ∈ threads) (hpos : t ≠ 0) (fuel : Nat) :
    ∃ g alloc', alloc.thisTlaCleanup fuel t = .ok (some (g, alloc')) := by
  unfold thisTlaCleanup
  simp only [check_of hpos, ok_bind]
  split_ifs
  · exact ⟨_, _, rfl⟩
  · simp only [withCleanup, h.reclaim_eq ht, ok_bind]
    exact ⟨_, _, rfl⟩

theorem graveTlaCleanup_exists (h : Allocator.Inv threads ⟨alloc.toAllocator, live, foreign⟩)
    (hdead : ∀ d ∈ alloc.tlaGraveyard.deadQueue, d ∈ threads) (hpos : t ≠ 0) (fuel : Nat) :
    ∃ g alloc', alloc.graveTlaCleanup fuel t = .ok (some (g, alloc')) := by
  cases hqueue : alloc.tlaGraveyard.deadQueue with
  | nil =>
    unfold graveTlaCleanup
    simp only [check_of hpos, ok_bind, acquireDeadTla, ThreadGraveyard.acquire, withCleanup, hqueue,
      if_true]
    split_ifs
    · exact ⟨_, _, rfl⟩
    · exact ⟨_, _, rfl⟩
  | cons dead rest =>
    have hmem : dead ∈ threads := hdead dead (hqueue ▸ List.mem_cons_self)
    obtain ⟨allocator, hfrees, -⟩ := h.chunks.freeTlaResources hmem
    unfold graveTlaCleanup
    simp only [check_of hpos, ok_bind, acquireDeadTla, ThreadGraveyard.acquire, withCleanup, hqueue,
      h.reclaim_eq hmem, hfrees]
    split_ifs
    · exact ⟨_, _, rfl⟩
    · exact ⟨_, _, rfl⟩
    · exact ⟨_, _, rfl⟩
    · exact ⟨_, _, rfl⟩

theorem exitThread_exists (h : Allocator.Inv threads ⟨alloc.toAllocator, live, foreign⟩)
    (ht : t ∈ threads) (fuel : Nat) :
    ∃ destroyed alloc', alloc.exitThread fuel t = .ok (some (destroyed, alloc')) := by
  unfold exitThread
  simp only [h.reclaim_eq ht, ok_bind]
  split_ifs
  · obtain ⟨allocator, hfrees, -⟩ := h.chunks.freeTlaResources ht
    simp only [destroyTla, hfrees, ok_bind]
    exact ⟨_, _, rfl⟩
  · exact ⟨_, _, rfl⟩

/-- A thread-local allocator of `cuw3.cpp` is made, or taken from the graveyard. -/
theorem createTla_exists (alloc : GraveAllocator) (tlaMem : Nat) :
    ∃ tla alloc', alloc.createTla cuw3CreateTlaConfig tlaMem = .ok (tla, alloc') := by
  have hrun : ∃ tla, (ThreadLocalAllocator.create cuw3CreateTlaConfig).Creates tla := by
    have heval := ThreadLocalAllocator.create_eval
    obtain ⟨tla, htla, -⟩ := Option.map_eq_some_iff.mp heval
    obtain ⟨result, hresult, htla⟩ := Option.bind_eq_some_iff.mp htla
    rw [Process.toOption_eq_some] at hresult
    cases result with
    | error => cases htla
    | ok tla' => exact ⟨tla', hresult⟩
  obtain ⟨object, hobject⟩ := hrun
  replace hobject : (ThreadLocalAllocator.create cuw3CreateTlaConfig).run = .ok (.ok object) :=
    hobject
  unfold createTla createNewTla
  dsimp only
  split_ifs
  · exact ⟨_, _, rfl⟩
  · exact ⟨_, _, rfl⟩
  · simp only [hobject, ok_bind]
    exact ⟨_, _, rfl⟩

end GraveAllocator

/-! ### The exported functions -/

namespace Api

open Process (Configured LaidOut Reachable)

variable {api : Api} {live : List Allocation} {foreign : Bool} {thread tla tlaMem fuel : Nat}
  {vmemHugePageSize ptr size alignment : Nat}

theorem getTla_exists (api : Api) (thread tlaMem : Nat) :
    ∃ tla api', api.getTla thread tlaMem = .ok (tla, api') := by
  unfold getTla
  cases api.guards thread with
  | some tla => exact ⟨_, _, rfl⟩
  | none =>
    obtain ⟨tla, allocator, hok⟩ := GraveAllocator.createTla_exists api.allocator tlaMem
    simp only [createTla, hok, ok_bind, pure_bind]
    exact ⟨_, _, rfl⟩

theorem graveCleanup_exists (h : api.Guards) (hinv : (api.process live foreign).Inv)
    (hguard : api.guards thread = some tla) (htla : tla ≠ 0) (fuel : Nat) :
    ∃ api', api.graveCleanup fuel tla = .ok (some api') := by
  obtain ⟨released, allocator, hcleans⟩ :=
    GraveAllocator.graveTlaCleanup_exists hinv.world hinv.dead htla fuel
  replace hcleans : api.allocator.graveTlaCleanup fuel tla = .ok (some (released, allocator)) :=
    hcleans
  unfold graveCleanup
  simp only [hcleans, ok_bind]
  split_ifs with hzero
  · exact ⟨_, rfl⟩
  · -- what the clean-up released exists
    have hruns := h.runs live foreign hguard htla
    have hinv' : Process.Inv _ := hinv.step (.graveTlaCleanup hruns hcleans)
    rw [if_neg hzero] at hinv'
    have hmem : released ∈ api.tlas := (hinv'.released released List.mem_cons_self).1
    obtain ⟨destroyed, hfrees, -⟩ := hinv'.world.chunks.freeTlaResources hmem
    replace hfrees : allocator.toAllocator.freeTlaResources released = .ok destroyed := hfrees
    simp only [destroyTla, GraveAllocator.destroyTla, hfrees, ok_bind, pure_bind]
    exact ⟨_, rfl⟩

variable (h : Program.Runs vmemHugePageSize api live foreign) (hmaps : api.Maps tlaMem)

include h hmaps

theorem alloc_exists (hmin : isAlignment alignment = true →
      2 ^ confFastArenaMinAlignmentLog2 ≤ alignment) (hwrap : size + alignment - 1 < 2 ^ 64)
    (commitOk : Bool) (thread : Nat) :
    ∃ ptr api', api.alloc commitOk thread tlaMem size alignment = .ok (ptr, api') := by
  obtain ⟨tla, api₁, hget⟩ := getTla_exists api thread tlaMem
  obtain ⟨hcalls, hguard⟩ := getTla_calls h.guards h.reach.inv hmaps hget
  have hruns₁ := h.calls hcalls
  unfold alloc
  simp only [hget, ok_bind]
  split_ifs with htla
  · exact ⟨_, _, rfl⟩
  · have ht := (hcalls.guards.runs live foreign hguard htla).mem
    have hready := Process.reachable_ready hruns₁.reach ht
    obtain ⟨res, allocator, hok⟩ :=
      hruns₁.reach.inv.world.allocate_returns ht hready hmin hwrap commitOk
    replace hok : api₁.allocator.toAllocator.allocate commitOk tla size alignment =
      .ok (res, allocator) := hok
    simp only [hok, ok_bind]
    cases res with
    | acquired ptr => exact ⟨_, _, rfl⟩
    | failed => exact ⟨_, _, rfl⟩
    | noResource => exact ⟨_, _, rfl⟩

theorem free_exists (hl : ⟨ptr, max size 1⟩ ∈ live) (fuel thread : Nat) :
    ∃ api', api.free fuel thread tlaMem ptr size = .ok (some api') := by
  obtain ⟨tla, api₁, hget⟩ := getTla_exists api thread tlaMem
  obtain ⟨hcalls, hguard⟩ := getTla_calls h.guards h.reach.inv hmaps hget
  have hruns₁ := h.calls hcalls
  unfold free
  simp only [hget, ok_bind]
  split_ifs with htla
  · exact ⟨_, rfl⟩
  have hinv₁ := hruns₁.reach.inv
  have ht := hcalls.guards.runs live foreign hguard htla
  have hchunks := (Process.reachable_ready hruns₁.reach ht.mem).chunks
  obtain ⟨owner, howner⟩ := hinv₁.world.exists_owner hl
  -- `deallocate`
  obtain ⟨allocator, hdeallocate⟩ := hinv₁.world.deallocate_exists hchunks hl tla
  replace hdeallocate : api₁.allocator.toAllocator.deallocate tla ptr size = .ok allocator :=
    hdeallocate
  have hfreed : Calls api live foreign
      { api₁ with allocator := { api₁.allocator with toAllocator := allocator } }
      (live.erase ⟨ptr, max size 1⟩) (foreign || owner != tla) :=
    hcalls.trans ⟨.single (.deallocate ht hl howner hdeallocate) trivial,
      hcalls.guards.congr rfl rfl rfl⟩
  have hinv' := hfreed.inv h.reach.inv
  have ht' := hfreed.guards.runs (live.erase ⟨ptr, max size 1⟩) (foreign || owner != tla)
    hguard htla
  -- `this_tla_cleanup`
  obtain ⟨g, allocator', hthis⟩ :=
    GraveAllocator.thisTlaCleanup_exists hinv'.world ht'.mem htla fuel
  have hqueue := (GraveAllocator.thisTlaCleanup_same hinv'.world ht'.mem hthis).2
  have hcleaned : Calls api live foreign { api₁ with allocator := allocator' }
      (live.erase ⟨ptr, max size 1⟩) (foreign || owner != tla) := by
    refine hfreed.trans ⟨.single (.thisTlaCleanup ht' hthis) trivial,
      hfreed.guards.congr rfl rfl ?_⟩
    unfold dead
    rw [hqueue]
    rfl
  -- `grave_tla_cleanup`
  obtain ⟨api', hgrave⟩ :=
    graveCleanup_exists hcleaned.guards (hcleaned.inv h.reach.inv) hguard htla fuel
  refine ⟨api', ?_⟩
  simp only [hdeallocate, ok_bind]
  replace hthis : ({ api₁.allocator with toAllocator := allocator } :
    GraveAllocator).thisTlaCleanup fuel tla = .ok (some (g, allocator')) := hthis
  simp only [hthis, ok_bind]
  exact hgrave

theorem reclaim_exists (fuel thread : Nat) :
    ∃ api', api.reclaim fuel thread tlaMem = .ok (some api') := by
  obtain ⟨tla, api₁, hget⟩ := getTla_exists api thread tlaMem
  obtain ⟨hcalls, hguard⟩ := getTla_calls h.guards h.reach.inv hmaps hget
  unfold reclaim
  simp only [hget, ok_bind]
  split_ifs with htla
  · exact ⟨_, rfl⟩
  · have ht := (hcalls.guards.runs live foreign hguard htla).mem
    have hreclaim := (hcalls.inv h.reach.inv).world.reclaim_eq ht fuel
    dsimp only [process, Process.world] at hreclaim
    simp only [hreclaim, ok_bind]
    exact ⟨_, rfl⟩

theorem cleanup_exists (fuel thread : Nat) :
    ∃ api', api.cleanup fuel thread tlaMem = .ok (some api') := by
  obtain ⟨tla, api₁, hget⟩ := getTla_exists api thread tlaMem
  obtain ⟨hcalls, hguard⟩ := getTla_calls h.guards h.reach.inv hmaps hget
  unfold cleanup
  simp only [hget, ok_bind]
  split_ifs with htla
  · exact ⟨_, rfl⟩
  · exact graveCleanup_exists hcalls.guards (hcalls.inv h.reach.inv) hguard htla fuel

omit hmaps in
theorem exitThread_exists (fuel thread : Nat) :
    ∃ api', api.exitThread fuel thread = .ok (some api') := by
  unfold exitThread
  cases hguard : api.guards thread with
  | none => exact ⟨_, rfl⟩
  | some tla =>
    dsimp only
    split_ifs with htla
    · exact ⟨_, rfl⟩
    · have ht := (h.guards.runs live foreign hguard htla).mem
      obtain ⟨destroyed, allocator, hexit⟩ :=
        GraveAllocator.exitThread_exists h.reach.inv.world ht fuel
      replace hexit : api.allocator.exitThread fuel tla = .ok (some (destroyed, allocator)) := hexit
      simp only [hexit, ok_bind]
      exact ⟨_, rfl⟩

end Api

namespace Program

variable {p : Program} {vmemHugePageSize tlaMem : Nat} {es : List Event}

/-- A function that returns nothing returns. -/
theorem exported_exists (h : Sound vmemHugePageSize p) {function : Api → Checked (Option Api)}
    (hfunction : ∀ api live foreign, p.process = some api → p.live.Subperm live →
      Runs vmemHugePageSize api live foreign → ∃ api', function api = .ok (some api')) :
    ∃ process', exported p.process function = .ok (some process') := by
  unfold exported
  cases hprocess : p.process with
  | none => exact ⟨_, rfl⟩
  | some api =>
    obtain ⟨live, foreign, hsub, hruns⟩ := h api (Option.mem_def.mpr hprocess)
    obtain ⟨api', hok⟩ := hfunction api live foreign hprocess hsub hruns
    simp only [hok, ok_bind]
    exact ⟨_, rfl⟩

end Program

end Cuw3
