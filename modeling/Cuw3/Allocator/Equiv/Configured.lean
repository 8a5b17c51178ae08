/-
  What the configuration fixes stays as it is.

  No operation changes what `create` computed from the configuration of the bins
  (`RegionChunkType.Same`). So in every state of a run whose threads all start with one
  configuration, each thread-local allocator is configured like a new one
  (`Process.reachable_configured`).
-/
import Cuw3.Allocator.Equiv.Processes

namespace Cuw3

/-! ### The bins of a kind -/

namespace FastArenaBins

variable {heap heap' : Heap} {bins bins' : FastArenaBins} {size alignment i p : Nat}
    {r : AcquiredResource}

theorem binsInfo_decTotal {fmt : String} (hok : bins.decTotal fmt = .ok bins') :
    bins'.binsInfo = bins.binsInfo := by
  simp only [decTotal, bind_eq_ok, check_eq_ok, exists_const, pure_eq_ok] at hok
  obtain ⟨-, rfl⟩ := hok
  rfl

theorem binsInfo_acquireArenaFrom
    (hok : bins.acquireArenaFrom heap size i = .ok (r, heap', bins')) :
    bins'.binsInfo = bins.binsInfo := by
  simp only [acquireArenaFrom, bind_eq_ok, assert_eq_ok, exists_const, Prod.exists] at hok
  obtain ⟨-, r₁, entry, -, hok⟩ := hok
  split_ifs at hok
  · simp only [pure_eq_ok, Prod.mk.injEq] at hok
    obtain ⟨-, -, rfl⟩ := hok
    rfl
  · simp only [bind_eq_ok, Prod.exists, pure_eq_ok, Prod.mk.injEq] at hok
    obtain ⟨_, -, _, _, _, -, -, -, rfl⟩ := hok
    rfl

theorem binsInfo_acquireArena
    (hok : bins.acquireArena heap size alignment = .ok (r, heap', bins')) :
    bins'.binsInfo = bins.binsInfo := by
  unfold acquireArena at hok
  dsimp only at hok
  split_ifs at hok
  · simp only [pure_eq_ok, Prod.mk.injEq] at hok
    obtain ⟨-, -, rfl⟩ := hok
    rfl
  simp only [bind_eq_ok] at hok
  obtain ⟨_, -, _, -, hok⟩ := hok
  split_ifs at hok
  · simp only [pure_eq_ok, Prod.mk.injEq] at hok
    obtain ⟨-, -, rfl⟩ := hok
    rfl
  simp only [bind_eq_ok, Prod.exists] at hok
  obtain ⟨r₁, heap₁, bins₁, hfrom, hok⟩ := hok
  have hsame := binsInfo_acquireArenaFrom hfrom
  cases r₁ with
  | acquired arena =>
    simp only [bind_eq_ok, pure_eq_ok, Prod.mk.injEq] at hok
    obtain ⟨bins₂, hdec, -, -, rfl⟩ := hok
    exact (binsInfo_decTotal hdec).trans hsame
  | noResource =>
    simp only [pure_eq_ok, Prod.mk.injEq] at hok
    obtain ⟨-, -, rfl⟩ := hok
    exact hsame
  | failed =>
    simp only [pure_eq_ok, Prod.mk.injEq] at hok
    obtain ⟨-, -, rfl⟩ := hok
    exact hsame

theorem binsInfo_releaseArena (hok : bins.releaseArena heap p = .ok (heap', bins')) :
    bins'.binsInfo = bins.binsInfo := by
  simp only [releaseArena, releaseArenaTo, putArena, bind_eq_ok, check_eq_ok, assert_eq_ok,
    exists_const,
    Prod.exists, pure_eq_ok, Prod.mk.injEq] at hok
  obtain ⟨-, -, -, -, -, heap₁, bins₁, ⟨-, q, entry, -, hput⟩, rfl, rfl⟩ := hok
  split_ifs at hput
  · simp only [pure_eq_ok, Prod.mk.injEq] at hput
    obtain ⟨-, rfl⟩ := hput
    rfl
  · simp only [bind_eq_ok, assert_eq_ok, exists_const, Prod.exists, pure_eq_ok,
      Prod.mk.injEq] at hput
    obtain ⟨-, -, _, -, _, -, _, _, -, -, rfl⟩ := hput
    rfl

theorem binsInfo_extractArena (hok : bins.extractArena heap p = .ok (heap', bins')) :
    bins'.binsInfo = bins.binsInfo := by
  simp only [extractArena, bind_eq_ok, check_eq_ok, exists_const, Prod.exists] at hok
  obtain ⟨-, -, cached, entry, -, hok⟩ := hok
  split_ifs at hok
  · simp only [bind_eq_ok, pure_eq_ok, Prod.mk.injEq] at hok
    obtain ⟨_, hdec, -, rfl⟩ := hok
    exact (binsInfo_decTotal hdec).trans rfl
  simp only [bind_eq_ok, Prod.exists] at hok
  obtain ⟨_, -, _, -, _, _, _, -, hok⟩ := hok
  split_ifs at hok
  · simp only [bind_eq_ok, pure_eq_ok, Prod.mk.injEq] at hok
    obtain ⟨_, hdec, -, rfl⟩ := hok
    exact (binsInfo_decTotal hdec).trans rfl
  · exact absurd hok abortCritical_ne_ok

end FastArenaBins

namespace FastArenaSmallBins

variable {heap : Heap} {bins bins' : FastArenaSmallBins} {size alignment i p : Nat}
    {r : AcquiredResource}

theorem SameConfig.trans {bins'' : FastArenaSmallBins} (h : SameConfig bins bins')
    (h' : SameConfig bins' bins'') : SameConfig bins bins'' := by
  unfold SameConfig at h h' ⊢
  rw [h', h]

theorem sameConfig_withBin (bin : FastArenaSmallBin) : SameConfig bins (bins.withBin i bin) := rfl

theorem sameConfig_decTotal (hok : bins.decTotal = .ok bins') : SameConfig bins bins' := by
  simp only [decTotal, bind_eq_ok, check_eq_ok, exists_const, pure_eq_ok] at hok
  obtain ⟨-, rfl⟩ := hok
  rfl

theorem sameConfig_acquireFor (hok : bins.acquireFor heap size alignment = .ok (r, bins')) :
    SameConfig bins bins' := by
  rcases acquireFor_cases hok with ⟨-, rfl⟩ | ⟨-, hacquire⟩
  · rfl
  simp only [acquire, bind_eq_ok, check_eq_ok, exists_const, Prod.exists] at hacquire
  obtain ⟨-, r₁, bin, -, hacquire⟩ := hacquire
  cases r₁ with
  | acquired arena =>
    simp only [bind_eq_ok, pure_eq_ok, Prod.mk.injEq] at hacquire
    obtain ⟨bins₁, hdec, -, rfl⟩ := hacquire
    exact (sameConfig_withBin bin).trans (sameConfig_decTotal hdec)
  | noResource =>
    simp only [pure_eq_ok, Prod.mk.injEq] at hacquire
    obtain ⟨-, rfl⟩ := hacquire
    rfl
  | failed =>
    simp only [pure_eq_ok, Prod.mk.injEq] at hacquire
    obtain ⟨-, rfl⟩ := hacquire
    rfl

theorem sameConfig_release (hok : bins.release heap p i = .ok bins') : SameConfig bins bins' := by
  simp only [release, bind_eq_ok, check_eq_ok, exists_const, pure_eq_ok] at hok
  obtain ⟨-, bin, -, rfl⟩ := hok
  rfl

theorem sameConfig_extract (hok : bins.extract heap p i = .ok bins') : SameConfig bins bins' := by
  simp only [extract, bind_eq_ok, check_eq_ok, exists_const] at hok
  obtain ⟨-, bin, -, hdec⟩ := hok
  exact (sameConfig_withBin bin).trans (sameConfig_decTotal hdec)

end FastArenaSmallBins

/-! ### The operations of an allocator -/

namespace RegionChunkType

variable {type : RegionChunkType} {heap heap' : Heap} {bins bins' bins'' : type.Bins}
  {alloc alloc' : ArenaAllocator type.Bins} {size alignment p p' m : Nat} {r : AcquiredResource}

/-- The bins have the same configuration. -/
def Same : (type : RegionChunkType) → type.Bins → type.Bins → Prop
  | fastArenaStepSplitAllocator, bins, bins' => bins'.binsInfo = bins.binsInfo
  | fastArenaSmallAllocator, bins, bins' => FastArenaSmallBins.SameConfig bins bins'

theorem Same.refl (bins : type.Bins) : type.Same bins bins := by
  cases type <;> rfl

theorem Same.trans (h : type.Same bins bins') (h' : type.Same bins' bins'') : type.Same bins
    bins'' := by
  cases type with
  | fastArenaStepSplitAllocator => exact Eq.trans h' h
  | fastArenaSmallAllocator => exact FastArenaSmallBins.SameConfig.trans h h'

theorem acquire_same (hok : type.ops.acquire heap bins size alignment = .ok (r, heap', bins')) :
    type.Same bins bins' := by
  cases type with
  | fastArenaStepSplitAllocator => exact FastArenaBins.binsInfo_acquireArena hok
  | fastArenaSmallAllocator =>
    simp only [ops, FastArenaSmallAllocator.ops, FastArenaSmallBins.ops, bind_eq_ok, Prod.exists,
      pure_eq_ok, Prod.mk.injEq] at hok
    obtain ⟨_, _, hok, rfl, rfl, rfl⟩ := hok
    exact FastArenaSmallBins.sameConfig_acquireFor hok

theorem release_same (hok : type.ops.release heap bins p = .ok (heap', bins')) :
    type.Same bins bins' := by
  cases type with
  | fastArenaStepSplitAllocator => exact FastArenaBins.binsInfo_releaseArena hok
  | fastArenaSmallAllocator =>
    simp only [ops, FastArenaSmallAllocator.ops, FastArenaSmallBins.ops, bind_eq_ok, pure_eq_ok,
      Prod.mk.injEq] at hok
    obtain ⟨_, hok, rfl, rfl⟩ := hok
    exact FastArenaSmallBins.sameConfig_release hok

theorem extract_same (hok : type.ops.extract heap bins p = .ok (heap', bins')) :
    type.Same bins bins' := by
  cases type with
  | fastArenaStepSplitAllocator => exact FastArenaBins.binsInfo_extractArena hok
  | fastArenaSmallAllocator =>
    simp only [ops, FastArenaSmallAllocator.ops, FastArenaSmallBins.ops, bind_eq_ok, pure_eq_ok,
      Prod.mk.injEq] at hok
    obtain ⟨_, hok, rfl, rfl⟩ := hok
    exact FastArenaSmallBins.sameConfig_extract hok

theorem allocate_same (hok : type.ops.allocate heap alloc p size = .ok (m, heap', alloc')) :
    type.Same alloc.bins alloc'.bins := by
  obtain ⟨-, -, ⟨-, -, rfl⟩ | ⟨fmt, hfrom⟩⟩ := type.law.allocate_cases hok
  · exact .refl _
  · simp only [ArenaAllocator.allocateFrom, bind_eq_ok, Prod.exists, check_eq_ok, exists_const,
      pure_eq_ok, Prod.mk.injEq] at hfrom
    obtain ⟨_, _, -, -, heap₁, bins₁, hrelease, -, -, rfl⟩ := hfrom
    exact release_same hrelease

theorem deallocate_same
    (hok : type.ops.deallocate heap alloc p m size = .ok (p', heap', alloc')) :
    type.Same alloc.bins alloc'.bins := by
  obtain ⟨fmt, hfrom⟩ := type.law.deallocate_cases hok
  simp only [ArenaAllocator.deallocateFrom, bind_eq_ok, check_eq_ok, exists_const] at hfrom
  obtain ⟨-, view, -, hfrom⟩ := hfrom
  split_ifs at hfrom
  · simp only [pure_eq_ok, Prod.mk.injEq] at hfrom
    obtain ⟨-, -, rfl⟩ := hfrom
    exact .refl _
  · simp only [bind_eq_ok, Prod.exists, pure_eq_ok, Prod.mk.injEq] at hfrom
    obtain ⟨heap₁, bins₁, hextract, _, -, -, -, rfl⟩ := hfrom
    exact extract_same hextract

theorem retire_same
    (hok : ArenaAllocator.retire type.ops.toBinsOps heap alloc p m size = .ok (p', heap', alloc')) :
    alloc'.bins = alloc.bins := by
  simp only [ArenaAllocator.retire, bind_eq_ok, check_eq_ok, exists_const, Prod.exists] at hok
  obtain ⟨-, -, -, -, old, view, -, hok⟩ := hok
  split_ifs at hok
  · simp only [pure_eq_ok, Prod.mk.injEq] at hok
    obtain ⟨-, -, rfl⟩ := hok
    rfl
  · simp only [bind_eq_ok, Prod.exists, pure_eq_ok, Prod.mk.injEq] at hok
    obtain ⟨_, _, -, -, -, rfl⟩ := hok
    rfl

end RegionChunkType

/-! ### The operations of the assembled allocator -/

namespace Allocator

variable {threads : List Nat} {w : World} {alloc alloc' alloc'' : Allocator}
    {t u size alignment p m : Nat}
  {type : RegionChunkType} {c : RegionChunkAllocation} {heap : Heap}
  {allocator : ArenaAllocator type.Bins}

/-- The bins of all thread-local allocators have the same configuration. -/
def Same (alloc alloc' : Allocator) : Prop :=
  ∀ u (type : RegionChunkType), type.Same ((alloc.tlas u).allocator type).bins
    ((alloc'.tlas u).allocator type).bins

theorem Same.refl (alloc : Allocator) : Same alloc alloc := fun _ _ => .refl _

theorem Same.trans (h : Same alloc alloc') (h' : Same alloc' alloc'') : Same alloc alloc'' :=
  fun u type => (h u type).trans (h' u type)

/-- No allocator of a thread was written. -/
theorem same_of_allocators
    (h : ∀ u type, (alloc'.tlas u).allocator type = (alloc.tlas u).allocator type) :
    Same alloc alloc' := by
  intro u type
  rw [h]
  exact .refl _

/-- One allocator of a thread was written. -/
theorem same_withAllocator
    (h : type.Same ((alloc.tlas t).allocator type).bins allocator.bins) :
    Same alloc (alloc.withAllocator t type heap allocator) := by
  intro u type'
  by_cases hut : u = t ∧ type' = type
  · obtain ⟨rfl, rfl⟩ := hut
    rw [allocator_withAllocator_self]
    exact h
  · rw [allocator_withAllocator_of_ne hut]
    exact .refl _

theorem Inv.allocateWith_same (h : Inv threads w) (ht : t ∈ threads) {commitOk : Bool}
    {r : AcquiredResource}
    (hok : w.alloc.allocateWith commitOk t type size alignment = .ok (r, alloc')) :
    Same w.alloc alloc' := by
  have hkind := h.kind t ht type
  simp only [Allocator.allocateWith, bind_eq_ok, Prod.exists] at hok
  obtain ⟨acquired, heap₁, bins, hacquire, hok⟩ := hok
  obtain ⟨hframe, hwf, hcase⟩ := type.law.acquire hkind.holds.wf hacquire
  have hsame : Same w.alloc (w.alloc.withAllocator t type heap₁
      { (w.alloc.tlas t).allocator type with bins }) :=
    same_withAllocator (RegionChunkType.acquire_same hacquire)
  refine hsame.trans ?_
  cases acquired with
  | acquired p =>
    simp only [bind_eq_ok, Prod.exists, pure_eq_ok, Prod.mk.injEq] at hok
    obtain ⟨m, heap, allocator, hallocate, -, rfl⟩ := hok
    exact same_withAllocator (RegionChunkType.allocate_same hallocate)
  | noResource =>
    have hinv := h.acquireNone ht hframe hwf hcase
    simp only [bind_eq_ok, Prod.exists] at hok
    obtain ⟨p, alloc₁, hnew, hok⟩ := hok
    obtain ⟨c, alloc₂, hout, ⟨rfl, -, rfl, -⟩ | ⟨hp, hnew, -, -⟩⟩ := hinv.acquireNewArena ht hnew
    · simp only [if_true, pure_eq_ok, Prod.mk.injEq] at hok
      obtain ⟨-, rfl⟩ := hok
      exact same_of_allocators hout.frame.allocators
    · simp only [hp, if_false, bind_eq_ok, Prod.exists, pure_eq_ok, Prod.mk.injEq] at hok
      obtain ⟨m, heap, allocator, hallocate, -, rfl⟩ := hok
      exact (same_of_allocators hnew.allocators).trans
        (same_withAllocator (RegionChunkType.allocate_same hallocate))
  | failed =>
    simp only [pure_eq_ok, Prod.mk.injEq] at hok
    obtain ⟨-, rfl⟩ := hok
    exact .refl _

theorem Inv.allocate_same (h : Inv threads w) (ht : t ∈ threads) {commitOk : Bool}
    {r : AcquiredResource}
    (hok : w.alloc.allocate commitOk t size alignment = .ok (r, alloc')) : Same w.alloc alloc' := by
  rw [Allocator.allocate] at hok
  split_ifs at hok with halign
  · simp only [pure_eq_ok, Prod.mk.injEq] at hok
    obtain ⟨-, rfl⟩ := hok
    exact .refl _
  dsimp only at hok
  split_ifs at hok
  · exact h.allocateWith_same ht hok
  · exact h.allocateWith_same ht hok

/-- One thread-local allocator was written, not the allocators in it. -/
theorem same_withTla {object : ThreadLocalAllocator}
    (h : ∀ type, object.allocator type = (alloc.tlas t).allocator type) :
    Same alloc (alloc.withTla t object) := by
  have hframe : ChunkFrame alloc (alloc.withTla t object) := chunkFrame_of_update rfl
    (.refl _) rfl h
  exact same_of_allocators hframe.allocators

/-- `deallocate_chunk_` writes no allocator of a thread. -/
theorem deallocateChunk_same (hok : alloc.deallocateChunk t c = .ok alloc') : Same alloc
    alloc' := by
  unfold Allocator.deallocateChunk at hok
  dsimp only at hok
  split_ifs at hok
  · obtain rfl := pure_eq_ok.mp hok
    exact same_withTla fun type => ThreadLocalAllocator.withCachedChunk_allocator
  · simp only [bind_eq_ok, pure_eq_ok] at hok
    obtain ⟨memory, -, rca, -, rfl⟩ := hok
    have hsame : Same alloc (alloc.withTla t { alloc.tlas t with
        totalChunkStorageSize := sub64 (alloc.tlas t).totalChunkStorageSize memory.chunkSize }) :=
      same_withTla fun type => by cases type <;> rfl
    exact hsame

theorem deallocateOwnerWith_same (hok : alloc.deallocateOwnerWith t type p m size = .ok alloc') :
    Same alloc alloc' := by
  simp only [Allocator.deallocateOwnerWith, bind_eq_ok, Prod.exists] at hok
  obtain ⟨released, heap, allocator, hdeallocate, hok⟩ := hok
  have hsame : Same alloc (alloc.withAllocator t type heap allocator) :=
    same_withAllocator (RegionChunkType.deallocate_same hdeallocate)
  split_ifs at hok
  · obtain rfl := pure_eq_ok.mp hok
    exact hsame
  · simp only [bind_eq_ok, check_eq_ok, exists_const] at hok
    obtain ⟨chunk, -, -, hchunk⟩ := hok
    exact hsame.trans (deallocateChunk_same hchunk)

theorem deallocateNonOwnerWith_same
    (hok : alloc.deallocateNonOwnerWith u type p m size = .ok alloc') : Same alloc alloc' := by
  simp only [Allocator.deallocateNonOwnerWith, bind_eq_ok, Prod.exists, pure_eq_ok] at hok
  obtain ⟨old, heap, allocator, hretire, rfl⟩ := hok
  refine same_withAllocator ?_
  rw [RegionChunkType.retire_same hretire]
  exact .refl _

theorem deallocate_same (hok : alloc.deallocate t p size = .ok alloc') : Same alloc alloc' := by
  simp only [Allocator.deallocate, bind_eq_ok] at hok
  obtain ⟨arena, -, hok⟩ := hok
  split_ifs at hok
  · unfold Allocator.deallocateOwner at hok
    dsimp only at hok
    split_ifs at hok
    · exact deallocateOwnerWith_same hok
    · exact deallocateOwnerWith_same hok
    · exact absurd hok abortCritical_ne_ok
  · unfold Allocator.deallocateNonOwner at hok
    dsimp only at hok
    split_ifs at hok
    · exact deallocateNonOwnerWith_same hok
    · exact deallocateNonOwnerWith_same hok
    · exact absurd hok abortCritical_ne_ok

end Allocator

/-! ### Runs of a process -/

/-- `region_owner_alignment`, to which thread-local allocators are allocated. -/
def regionOwnerAlignment : Nat := 2 ^ regionChunkHandleHeaderDataBits

namespace Process

open Allocator

variable {config : ThreadLocalAllocatorConfig} {p p' : Process} {t : Nat}

/-- Threads start with one configuration, in aligned memory. -/
def StartsWith (config : ThreadLocalAllocatorConfig) (_p : Process) : Action → Prop
  | .start config' tlaMem => config' = config ∧ regionOwnerAlignment ∣ tlaMem
  | _ => True

/-- The thread-local allocator at `t` is aligned, and configured like a new one. -/
def ConfiguredAt (config : ThreadLocalAllocatorConfig) (alloc : Allocator) (t : Nat) : Prop :=
  regionOwnerAlignment ∣ t ∧ ∃ tla, (ThreadLocalAllocator.create config).Creates tla ∧
    ∀ type : RegionChunkType, type.Same (tla.allocator type).bins
      ((alloc.tlas t).allocator type).bins

theorem ConfiguredAt.same {alloc alloc' : Allocator} (h : ConfiguredAt config alloc t)
    (hsame : alloc.Same alloc') : ConfiguredAt config alloc' t := by
  obtain ⟨haligned, tla, hcreate, hnew⟩ := h
  exact ⟨haligned, tla, hcreate, fun type => (hnew type).trans (hsame t type)⟩

theorem configured_step {a : Action} (hinv : p.Inv)
    (h : ∀ t ∈ p.tlas, ConfiguredAt config p.alloc.toAllocator t) (hmeets : StartsWith config p a)
    (hstep : Step p a p') : ∀ t ∈ p'.tlas, ConfiguredAt config p'.alloc.toAllocator t := by
  cases hstep with
  | allocate ht hsize hok =>
    exact fun t ht' => (h t ht').same (hinv.world.allocate_same ht.mem hok)
  | deallocate ht hl howner hok => exact fun t ht' => (h t ht').same (deallocate_same hok)
  | reclaim ht hok =>
    have hsame := hinv.world.reclaim_eq ht.mem
    dsimp only [Process.world] at hsame
    rw [hsame] at hok
    obtain ⟨-, rfl⟩ := Prod.mk.inj (Option.some.inj (Except.ok.inj hok))
    exact h
  | thisTlaCleanup ht hok =>
    obtain ⟨hsame, -⟩ := GraveAllocator.thisTlaCleanup_same hinv.world ht.mem hok
    intro t ht'
    dsimp only
    rw [hsame]
    exact h t ht'
  | graveTlaCleanup ht hok =>
    intro t ht'
    cases GraveAllocator.graveTlaCleanup_cases hinv.world hinv.dead_pos hok with
    | none hsame hqueue =>
      dsimp only
      rw [hsame]
      exact h t ht'
    | emptied hvisits hqueue hempty hfrees hqueue' =>
      have hdead := hinv.dead _ (hqueue ▸ List.mem_cons_self)
      obtain ⟨-, hcache⟩ := hinv.freeTlaResources hdead hfrees
      exact (h t ht').same (same_of_allocators hcache.frame.allocators)
    | kept hvisits hfrees hqueue =>
      have hdead := GraveAllocator.mem_of_visits hvisits
      obtain ⟨-, hcache⟩ := hinv.freeTlaResources (hinv.dead _ hdead) hfrees
      exact (h t ht').same (same_of_allocators hcache.frame.allocators)
  | freeTlaResources ht hok =>
    obtain ⟨-, hcache⟩ := hinv.freeTlaResources ht.mem hok
    exact fun t ht' => (h t ht').same (same_of_allocators hcache.frame.allocators)
  | destroyTla ht hok =>
    simp only [GraveAllocator.destroyTla, bind_eq_ok, pure_eq_ok] at hok
    obtain ⟨allocator, hfrees, rfl⟩ := hok
    obtain ⟨-, hcache⟩ := hinv.freeTlaResources (hinv.released _ ht).1 hfrees
    exact fun t ht' =>
      (h t (List.mem_of_mem_erase ht')).same (same_of_allocators hcache.frame.allocators)
  | @start config' tlaMem t alloc' hmem hlt hstepMin hsmallMin hok =>
    cases GraveAllocator.createTla_cases (fun d hd => (hinv.dead_pos d hd).2) hok with
    | none => exact h
    | snatched hqueue hsame hqueue' =>
      rw [if_pos (.inr (hinv.dead _ (hqueue ▸ List.mem_cons_self)))]
      intro u hu
      dsimp only
      rw [hsame]
      exact h u hu
    | @created tla alloc' hpos hcreate hnew hqueue =>
      obtain ⟨rfl, haligned⟩ := hmeets
      intro u hu
      dsimp only at hu ⊢
      rw [hnew]
      by_cases hut : u = tlaMem
      · -- the new one
        subst hut
        refine ⟨haligned, tla, hcreate, fun type => ?_⟩
        have hself : (p.alloc.toAllocator.withTla u tla).tlas u = tla := Function.update_self ..
        rw [hself]
        exact .refl _
      · rw [if_neg (by rintro (rfl | hin); exacts [absurd hpos (lt_irrefl 0), hmem hin])] at hu
        obtain ⟨haligned', old, hcreate', hold⟩ := h u ((List.mem_cons.mp hu).resolve_left hut)
        refine ⟨haligned', old, hcreate', fun type => ?_⟩
        have hother : (p.alloc.toAllocator.withTla tlaMem tla).tlas u = p.alloc.tlas u :=
          Function.update_of_ne hut ..
        rw [hother]
        exact hold type
  | @exit fuel t destroyed alloc' ht hok =>
    intro u hu
    cases GraveAllocator.exitThread_cases hinv.world ht.mem hok with
    | destroyed hempty hfrees hqueue =>
      obtain ⟨-, hcache⟩ := hinv.freeTlaResources ht.mem hfrees
      exact (h u (List.mem_of_mem_erase hu)).same (same_of_allocators hcache.frame.allocators)
    | buried => exact h u hu

/-- **The configuration of the threads holds in every state that a run reaches.** -/
theorem reachable_configured (hreach : Reachable (StartsWith config) p) :
    ∀ t ∈ p.tlas, ConfiguredAt config p.alloc.toAllocator t := by
  induction hreach with
  | init h =>
    intro t ht
    rw [h.tlas] at ht
    cases ht
  | step hprev hmeets hstep ih => exact configured_step hprev.inv ih hmeets hstep

end Process

end Cuw3
