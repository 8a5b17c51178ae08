/-
  The memory of the chunks: committed where a thread has the chunk, decommitted in the pool.

  `allocate_chunk_` commits a chunk of the pool before it hands it out, `deallocate_chunk_`
  decommits one before it gives it back, and a chunk whose commit failed was not committed; cached
  chunks stay committed.  So `CommitsHold` holds in every state of every run (`reachable_commits`)
  in which `free_tla_resources` finds no cached chunk: it gives cached chunks back without
  decommitting them.
-/
import Cuw3.Allocator.Equiv.Processes

namespace Cuw3

open Lib

namespace RegionChunkAllocator

variable {rca : RegionChunkAllocator} {c c' : RegionChunkAllocation}

/-- The memory of different chunks starts at different addresses. -/
theorem Placed.start_ne (h : rca.Placed c) (h' : rca.Placed c') (hl : rca.Layout)
    (hm : rca.MappedHandles) (hne : c ≠ c') : (rca.chunkBlock c).start ≠
    (rca.chunkBlock c').start := by
  intro heq
  have hhas : ∀ c, (rca.chunkBlock c).Has (rca.chunkBlock c).start := by
    intro c
    have hpos : 0 < (rca.chunkBlock c).size := Nat.two_pow_pos _
    exact ⟨le_refl _, by omega⟩
  exact h.apart h' hl hm hne _ (hhas c) (heq ▸ hhas c')

end RegionChunkAllocator

namespace Allocator

variable {threads threads' : List Nat} {w : World} {alloc alloc' : Allocator} {t u p : Nat}
  {type : RegionChunkType} {c : RegionChunkAllocation} {heap : Heap}
  {allocator : ArenaAllocator type.Bins}

/-- The memory of a chunk is committed. -/
def Committed (alloc : Allocator) (c : RegionChunkAllocation) : Prop :=
  alloc.committed (alloc.rca.chunkBlock c).start = true

instance (alloc : Allocator) (c : RegionChunkAllocation) : Decidable (alloc.Committed c) :=
  inferInstanceAs (Decidable (_ = true))

/-- The chunks of the pool are decommitted, and those that a thread has are committed. -/
structure CommitsHold (threads : List Nat) (alloc : Allocator) : Prop where
  pooled : ∀ c, alloc.rca.Placed c → alloc.rca.Pooled c.handle → ¬alloc.Committed c
  taken : ∀ c, alloc.rca.Placed c → alloc.rca.handleAddress c.handle ∈ alloc.taken threads →
    alloc.Committed c

theorem committed_congr (hrca : alloc.rca.SameLayout alloc'.rca)
    (hcommitted : alloc'.committed = alloc.committed) (c : RegionChunkAllocation) :
    alloc'.Committed c ↔ alloc.Committed c := by
  rw [Committed, Committed, hcommitted, hrca.chunkBlock]

/-- The memory of one chunk was committed or decommitted. -/
theorem committed_update (hl : alloc.rca.Layout) (hm : alloc.rca.MappedHandles)
    (hc : alloc.rca.Placed c) (hrca : alloc.rca.SameLayout alloc'.rca) {b : Bool}
    (hcommitted : alloc'.committed =
      Function.update alloc.committed (alloc.rca.address c.region c.chunk 0) b) :
    (alloc'.Committed c ↔ b = true) ∧
      ∀ c', alloc.rca.Placed c' → c' ≠ c → (alloc'.Committed c' ↔ alloc.Committed c') := by
  have hblock : alloc.rca.address c.region c.chunk 0 = (alloc.rca.chunkBlock c).start := rfl
  rw [hblock] at hcommitted
  constructor
  · rw [Committed, hcommitted, hrca.chunkBlock, Function.update_self]
  · intro c' hc' hne
    have hstart := hc'.start_ne hc hl hm hne
    rw [Committed, Committed, hcommitted, hrca.chunkBlock, Function.update_of_ne hstart]

/-- Nothing was committed or decommitted, and no chunk came to the pool or to a thread. -/
theorem CommitsHold.congr (h : alloc.CommitsHold threads) (hrca : alloc.rca.SameLayout alloc'.rca)
    (hcommitted : alloc'.committed = alloc.committed)
    (hpooled : ∀ q, alloc'.rca.Pooled q → alloc.rca.Pooled q)
    (htaken : ∀ a ∈ alloc'.taken threads', a ∈ alloc.taken threads) : alloc'.CommitsHold
    threads' := by
  constructor
  · intro c hc hp
    rw [committed_congr hrca hcommitted]
    exact h.pooled c (hrca.placed.mp hc) (hpooled _ hp)
  · intro c hc ht
    rw [committed_congr hrca hcommitted]
    refine h.taken c (hrca.placed.mp hc) ?_
    rw [← hrca.handleAddress]
    exact htaken _ ht

/-- The bins of a thread hold the same arenas. -/
theorem CommitsHold.keep (h : alloc.CommitsHold threads) (hnodup : threads.Nodup) (ht : t ∈ threads)
    (hperm : (type.law.held allocator.bins).Perm ((alloc.tlas t).held type)) :
    (alloc.withAllocator t type heap allocator).CommitsHold threads := by
  have htaken : ((alloc.withAllocator t type heap allocator).taken threads).Perm
      (alloc.taken threads) := taken_withAllocator [] [] hnodup ht hperm
  exact h.congr (.refl _) rfl (fun _ => id) fun a ha => htaken.subset ha

/-- The bins of a thread no longer hold the arena of a chunk, which is still committed. -/
theorem CommitsHold.drop (h : alloc.CommitsHold threads) (hnodup : threads.Nodup) (ht : t ∈ threads)
    (hc : alloc.rca.Placed c)
    (hperm : (alloc.rca.handleAddress c.handle :: type.law.held allocator.bins).Perm
      ((alloc.tlas t).held type)) :
    (alloc.withAllocator t type heap allocator).CommitsHold threads ∧
      (alloc.withAllocator t type heap allocator).Committed c := by
  have htaken : (alloc.rca.handleAddress c.handle ::
      (alloc.withAllocator t type heap allocator).taken threads).Perm (alloc.taken threads) :=
    taken_withAllocator [_] [] hnodup ht hperm
  refine ⟨h.congr (.refl _) rfl (fun _ => id) fun a ha => ?_, ?_⟩
  · exact htaken.subset (List.mem_cons_of_mem _ ha)
  · exact h.taken c hc (htaken.subset List.mem_cons_self)

/-- A committed chunk comes to a thread. -/
theorem CommitsHold.gain (h : alloc.CommitsHold threads) (hl : alloc.rca.Layout)
    (hc : alloc.rca.Placed c) (hcommitted : alloc.Committed c) (hrca : alloc'.rca = alloc.rca)
    (hsame : alloc'.committed = alloc.committed)
    (htaken : (alloc'.taken threads).Perm
      (alloc.rca.handleAddress c.handle :: alloc.taken threads)) : alloc'.CommitsHold threads := by
  have hiff : ∀ c, alloc'.Committed c ↔ alloc.Committed c :=
    committed_congr (hrca ▸ .refl _) hsame
  constructor
  · intro c' hc' hp
    rw [hrca] at hc' hp
    rw [hiff]
    exact h.pooled c' hc' hp
  · intro c' hc' ht
    rw [hrca] at hc' ht
    rw [hiff]
    rcases List.mem_cons.mp (htaken.subset ht) with heq | ht
    · have hhandle : c'.handle = c.handle := RegionChunkAllocator.handleAddress_inj hl heq
      rwa [hc'.unique hc hl hhandle]
    · exact h.taken c' hc' ht

section Update

variable {object : ThreadLocalAllocator} (hframe : ChunkFrame alloc alloc')
  (htlas : alloc'.tlas = Function.update alloc.tlas t object)
  (hcached : object.cachedChunks = (alloc.tlas t).cachedChunks)

include hframe htlas hcached

/-- What the thread counts was changed, and no chunk came to the pool. -/
theorem CommitsHold.repool (h : alloc.CommitsHold threads)
    (hcommitted : alloc'.committed = alloc.committed)
    (hpooled : ∀ q, alloc'.rca.Pooled q → alloc.rca.Pooled q) : alloc'.CommitsHold threads := by
  have htakenEq : alloc'.taken threads = alloc.taken threads :=
    taken_congr hframe.rca (cachedChunks_of_update htlas hcached) hframe.allocators
  exact h.congr hframe.rca hcommitted hpooled fun a ha => htakenEq ▸ ha

/-- A chunk left the pool and was committed. -/
theorem CommitsHold.commit (h : alloc.CommitsHold threads) (hchunks : alloc.ChunksHold threads)
    (hplaced : alloc.rca.Placed c) (htaken : alloc.rca.Taken alloc'.rca c.region c.split c.handle)
    (hcommitted : alloc'.committed =
      Function.update alloc.committed (alloc.rca.address c.region c.chunk 0) true) :
    alloc'.CommitsHold threads ∧ alloc'.Committed c := by
  obtain ⟨hself, hother⟩ := committed_update hchunks.pools.toLayout hchunks.mapped hplaced
    hframe.rca hcommitted
  have htakenEq : alloc'.taken threads = alloc.taken threads :=
    taken_congr hframe.rca (cachedChunks_of_update htlas hcached) hframe.allocators
  refine ⟨⟨fun c' hc' hp => ?_, fun c' hc' hp => ?_⟩, hself.mpr rfl⟩
  · rw [hframe.rca.placed] at hc'
    obtain ⟨hp, hne⟩ := (htaken.rest _).mp hp
    rw [hother c' hc' (by rintro rfl; exact hne rfl)]
    exact h.pooled c' hc' hp
  · rw [hframe.rca.placed] at hc'
    rw [htakenEq, hframe.rca.handleAddress] at hp
    by_cases hcc : c' = c
    · exact hcc ▸ hself.mpr rfl
    · rw [hother c' hc' hcc]
      exact h.taken c' hc' hp

/-- A chunk in flight was decommitted and went back to the pool. -/
theorem CommitsHold.decommit (h : alloc.CommitsHold threads) (hchunks : alloc.ChunksHold threads)
    (hc : alloc.InFlight threads c) (hback : alloc.rca.deallocateChunk c = .ok alloc'.rca)
    (hcommitted : alloc'.committed =
      Function.update alloc.committed (alloc.rca.address c.region c.chunk 0) false) :
    alloc'.CommitsHold threads := by
  have hl := hchunks.pools.toLayout
  obtain ⟨rca, hback', -, -, hpooled⟩ := hchunks.pools.deallocateChunk hc.placed hc.notPooled
  obtain rfl : alloc'.rca = rca := Except.ok.inj (hback.symm.trans hback')
  obtain ⟨hself, hother⟩ := committed_update hl hchunks.mapped hc.placed hframe.rca hcommitted
  have htakenEq : alloc'.taken threads = alloc.taken threads :=
    taken_congr hframe.rca (cachedChunks_of_update htlas hcached) hframe.allocators
  constructor
  · intro c' hc' hp
    rw [hframe.rca.placed] at hc'
    by_cases hcc : c' = c
    · subst hcc
      rw [hself]
      exact Bool.false_ne_true
    · rw [hother c' hc' hcc]
      refine h.pooled c' hc' ?_
      rw [hpooled] at hp
      exact hp.resolve_right fun heq => hcc (hc'.unique hc.placed hl heq)
  · intro c' hc' hp
    rw [hframe.rca.placed] at hc'
    rw [htakenEq, hframe.rca.handleAddress] at hp
    rw [hother c' hc' (by rintro rfl; exact hc.notTaken hp)]
    exact h.taken c' hc' hp

end Update

/-- `allocate_chunk_` returns a committed chunk. -/
theorem CommitsHold.chunkOut {commitOk : Bool} (h : alloc.CommitsHold threads)
    (hchunks : alloc.ChunksHold threads) (ht : t ∈ threads)
    (hout : ChunkOut alloc t commitOk c alloc') :
    alloc'.CommitsHold threads ∧ (c.valid = true → alloc'.Committed c) := by
  have hframe := hout.frame
  cases hout with
  | none => exact ⟨h, fun hvalid => absurd hvalid (by decide)⟩
  | cached r hr hvalid =>
    -- the chunk was committed when the thread had it
    have hplaced := (hchunks.cached t ht r hvalid).1
    have htaken : (alloc.rca.handleAddress ((alloc.tlas t).cachedChunks r).handle ::
        (alloc.withTla t ((alloc.tlas t).withCachedChunk r
          nullRegionChunkAllocation)).taken threads).Perm (alloc.taken threads) := by
      refine taken_withCachedChunk [_] [] hchunks.threads_nodup ht hr ?_
      rw [if_pos hvalid]
      exact .refl _
    refine ⟨h.congr (.refl _) rfl (fun _ => id) fun a ha => ?_, fun _ => ?_⟩
    · exact htaken.subset (List.mem_cons_of_mem _ ha)
    · exact h.taken _ hplaced (htaken.subset List.mem_cons_self)
  | pooled c rca split hplaced htaken =>
    obtain ⟨hholds, hcommitted⟩ := h.commit hframe rfl rfl hchunks hplaced htaken rfl
    exact ⟨hholds, fun _ => hcommitted⟩
  | failed c rca split hcommit hplaced hpools hsame hpooled =>
    refine ⟨?_, fun hvalid => absurd hvalid (by decide)⟩
    exact h.repool hframe rfl rfl rfl fun q hq => (hpooled q).mp hq

/-- `deallocate_chunk_` keeps a chunk committed in the cache, and decommits it for the pool. -/
theorem CommitsHold.chunkIn (h : alloc.CommitsHold threads) (hchunks : alloc.ChunksHold threads)
    (ht : t ∈ threads) (hc : alloc.InFlight threads c) (hcommitted : alloc.Committed c)
    (hin : ChunkIn alloc t c alloc') : alloc'.CommitsHold threads := by
  have hl := hchunks.pools.toLayout
  have hframe := (hchunks.chunkIn ht hc hin).2.1
  cases hin with
  | cached hregion hempty =>
    have hr : c.region < confMaxRegionSizes :=
      lt_of_lt_of_le hc.placed.region_lt hchunks.pools.specs.numRegions_le
    refine h.gain hl hc.placed hcommitted rfl rfl ?_
    refine taken_withCachedChunk [] [_] hchunks.threads_nodup ht hr ?_
    rw [if_pos (hc.placed.valid hl), hempty]
    exact .refl _
  | pooled rca hback => exact h.decommit hframe rfl rfl hchunks hc hback rfl

/-! ### Operations -/

/-- A request keeps the chunks' memory committed, whether or not a commit fails. -/
theorem CommitsHold.allocate {size alignment : Nat} {commitOk : Bool} {res : AcquiredResource}
    (h : w.alloc.CommitsHold threads) (hinv : Inv threads w) (ht : t ∈ threads)
    (heffect : Allocates threads w t size alignment commitOk type res alloc') :
    alloc'.CommitsHold threads := by
  have hchunks := hinv.chunks
  have hnodup := hchunks.threads_nodup
  cases heffect with
  | none hr hlinks hheld hout hc =>
    exact ((h.keep hnodup ht hheld).chunkOut (hchunks.keep ht hheld) ht hout).1
  | held hp hheld hheap hblock => exact h.keep hnodup ht hheld
  | @fresh c alloc₁ arena p m heap₁ heap bins allocator hlinks hheld hout hnew hput =>
    have hchunks₁ : (w.alloc.withAllocator t type heap₁
        { (w.alloc.tlas t).allocator type with bins }).ChunksHold threads := hchunks.keep ht hheld
    have hframe := hout.frame
    have hl := hframe.rca.layout hchunks₁.pools.toLayout
    obtain ⟨hholds, hcommitted⟩ := (h.keep hnodup ht hheld).chunkOut hchunks₁ ht hout
    refine hholds.gain hl hnew.placed (hcommitted (hnew.placed.valid hl)) rfl rfl ?_
    refine taken_withAllocator [] [_] hnodup ht ?_
    rw [← hnew.address]
    exact hput.held

/-- A free keeps the chunks' memory committed as it should be. -/
theorem CommitsHold.deallocate {l : Allocation} {owner : Nat} (h : w.alloc.CommitsHold threads)
    (hinv : Inv threads w) (heffect : Deallocates threads w.alloc t l owner alloc') :
    alloc'.CommitsHold threads := by
  have hchunks := hinv.chunks
  have hnodup := hchunks.threads_nodup
  cases heffect with
  | other hne hblock => exact h.congr (.refl _) rfl (fun _ => id) fun _ => id
  | own ht hp hown hfrees =>
    cases hfrees with
    | kept hheld => exact h.keep hnodup ht hheld
    | drained hheld hothers hblock hbacked hin =>
      rw [hbacked.address] at hheld
      obtain ⟨hholds, hflight, -⟩ := hchunks.drop ht hbacked.placed hheld
      obtain ⟨hkeep, hcommitted⟩ := h.drop hnodup ht hbacked.placed hheld
      exact hkeep.chunkIn hholds ht hflight hcommitted hin

end Allocator

/-! ### Runs -/

namespace Process

open Allocator

variable {p p' : Process} {t : Nat}

/-- The operations that give no cached chunk back: where `free_tla_resources` is called, directly,
by a clean-up or before a thread-local allocator is destroyed, it finds none. -/
def Decommits (p : Process) : Action → Prop
  | .graveTlaCleanup t => ∀ dead ∈ p.alloc.visits t, p.alloc.CachesNothing dead
  | .freeTlaResources t => p.alloc.CachesNothing t
  | .destroyTla t => p.alloc.CachesNothing t
  | .exit t => (p.alloc.tlas t).empty = true → p.alloc.CachesNothing t
  | _ => True

/-- The memory of the chunks is committed as it should be. -/
def Commits (p : Process) : Prop := p.alloc.toAllocator.CommitsHold p.tlas

/-- A thread-local allocator without cached chunks was destroyed. -/
theorem Commits.destroyed (h : p.Commits) (hcache : p.alloc.CachesNothing t) {alloc' : Allocator}
    (hfrees : p.alloc.toAllocator.freeTlaResources t = .ok alloc') :
    alloc'.CommitsHold (p.tlas.erase t) := by
  rw [freeTlaResources_eq hcache] at hfrees
  obtain rfl := Except.ok.inj hfrees
  have hsub : (p.alloc.taken (p.tlas.erase t)).Sublist (p.alloc.taken p.tlas) :=
    List.erase_sublist.flatMap _
  exact CommitsHold.congr h (.refl _) rfl (fun _ => id) fun a ha => hsub.subset ha

/-- A thread-local allocator was made. -/
theorem Commits.created (h : p.Commits) {config : ThreadLocalAllocatorConfig}
    {tlaMem : Nat} {tla : ThreadLocalAllocator} (hmem : tlaMem ∉ p.tlas)
    (hcreate : (ThreadLocalAllocator.create config).Creates tla)
    (hstepMin : config.stepSplitAllocConfig.minArenaAlignmentLog2 = confFastArenaMinAlignmentLog2)
    (hsmallMin : config.smallAllocConfig.minArenaAlignmentLog2 = confFastArenaMinAlignmentLog2) :
    (p.alloc.toAllocator.withTla tlaMem tla).CommitsHold (tlaMem :: p.tlas) := by
  generalize hnew : p.alloc.toAllocator.withTla tlaMem tla = alloc'
  have hself : alloc'.tlas tlaMem = tla := by
    rw [← hnew]
    exact Function.update_self ..
  have hrca : alloc'.rca = p.alloc.rca := hnew ▸ rfl
  rw [← hself] at hcreate
  have hkind : ∀ type, alloc'.KindHolds [] tlaMem type ∧ (alloc'.tlas tlaMem).held type = [] :=
    kind_of_create hcreate hstepMin hsmallMin
  have hcached := cachedChunks_of_create hcreate
  have hnone : (alloc'.tlas tlaMem).addresses alloc'.rca = [] := by
    rw [ThreadLocalAllocator.addresses, cachedAddresses_eq_nil hcached, (hkind _).2, (hkind _).2]
    rfl
  -- the new one has no chunk
  refine CommitsHold.congr h (hrca ▸ .refl _) (hnew ▸ rfl) (fun q hq => hrca ▸ hq) fun a ha => ?_
  obtain ⟨u, hu, hau⟩ := mem_taken.mp ha
  rcases List.mem_cons.mp hu with rfl | hu
  · rw [hnone] at hau
    cases hau
  · refine mem_taken.mpr ⟨u, hu, ?_⟩
    have hother : alloc'.tlas u = p.alloc.tlas u := by
      rw [← hnew]
      exact Function.update_of_ne (ne_of_mem_of_not_mem hu hmem) ..
    rwa [hother, hrca] at hau

theorem Commits.step {a : Action} (h : p.Commits) (hinv : p.Inv) (hmeets : Decommits p a)
    (hstep : Step p a p') : p'.Commits := by
  have hcommits : p.world.alloc.CommitsHold p.tlas := h
  unfold Commits at h ⊢
  cases hstep with
  | allocate ht hsize hok =>
    obtain ⟨-, -, type, heffect⟩ := hinv.world.allocate ht.mem hsize hok
    exact hcommits.allocate hinv.world ht.mem heffect
  | deallocate ht hl howner hok =>
    obtain ⟨-, heffect⟩ := hinv.world.deallocate hl howner hok
    exact hcommits.deallocate hinv.world heffect
  | reclaim ht hok =>
    have hsame := hinv.world.reclaim_eq ht.mem
    dsimp only [Process.world] at hsame
    rw [hsame] at hok
    obtain ⟨-, rfl⟩ := Prod.mk.inj (Option.some.inj (Except.ok.inj hok))
    exact h
  | thisTlaCleanup ht hok =>
    obtain ⟨hsame, -⟩ := GraveAllocator.thisTlaCleanup_same hinv.world ht.mem hok
    dsimp only
    rw [hsame]
    exact h
  | graveTlaCleanup ht hok =>
    dsimp only
    cases GraveAllocator.graveTlaCleanup_cases hinv.world hinv.dead_pos hok with
    | none hsame _ =>
      rw [hsame]
      exact h
    | emptied hvisits _ _ hfrees _ =>
      rw [freeTlaResources_eq (hmeets _ hvisits)] at hfrees
      rw [← Except.ok.inj hfrees]
      exact h
    | kept hvisits hfrees _ =>
      rw [freeTlaResources_eq (hmeets _ hvisits)] at hfrees
      rw [← Except.ok.inj hfrees]
      exact h
  | freeTlaResources ht hok =>
    rw [freeTlaResources_eq hmeets] at hok
    rw [← Except.ok.inj hok]
    exact h
  | destroyTla ht hok =>
    simp only [GraveAllocator.destroyTla, bind_eq_ok, pure_eq_ok] at hok
    obtain ⟨allocator, hfrees, rfl⟩ := hok
    exact Commits.destroyed h hmeets hfrees
  | @start config tlaMem t alloc' hmem hlt hstepMin hsmallMin hok =>
    dsimp only
    cases GraveAllocator.createTla_cases (fun d hd => (hinv.dead_pos d hd).2) hok with
    | none => exact h
    | snatched hqueue hsame hqueue' =>
      rw [if_pos (.inr (hinv.dead _ (hqueue ▸ List.mem_cons_self))), hsame]
      exact h
    | created hpos hcreate hnew hqueue =>
      have hif : ¬(tlaMem = 0 ∨ tlaMem ∈ p.tlas) := fun hor => hor.elim hpos.ne' hmem
      rw [if_neg hif, hnew]
      exact Commits.created h hmem hcreate hstepMin hsmallMin
  | exit ht hok =>
    cases GraveAllocator.exitThread_cases hinv.world ht.mem hok with
    | destroyed hempty hfrees hqueue => exact Commits.destroyed h (hmeets hempty) hfrees
    | buried => exact h

theorem Init.commits (h : Init p) : p.Commits := by
  constructor
  · intro c _ _ hcommitted
    rw [Committed, h.reserved] at hcommitted
    cases hcommitted
  · intro c _ ht
    rw [h.tlas] at ht
    cases ht

theorem Reachable.commits (h : Reachable Decommits p) : p.Commits := by
  induction h with
  | init h => exact h.commits
  | step hreach hmeets hstep ih => exact ih.step hreach.inv hmeets hstep

/-- **Pooled chunks are decommitted, and cached chunks and those of the arenas in the bins are
committed**, in every state of every run in which `free_tla_resources` finds no cached chunk;
commits may fail. -/
theorem reachable_commits (h : Reachable Decommits p) :
    (∀ c, p.alloc.rca.Placed c → p.alloc.rca.Pooled c.handle → ¬p.alloc.Committed c) ∧
      ∀ t ∈ p.tlas,
        (∀ r, ((p.alloc.tlas t).cachedChunks r).valid = true →
          p.alloc.Committed ((p.alloc.tlas t).cachedChunks r)) ∧
        ∀ type, ∀ q ∈ (p.alloc.tlas t).held type, ∃ c, Backed p.alloc.rca p.alloc.heap t q c ∧
          p.alloc.Committed c := by
  have hholds : p.alloc.CommitsHold p.tlas := h.commits
  have hinv := h.inv.world
  refine ⟨hholds.pooled, fun t ht => ⟨fun r hvalid => ?_, fun type q hq => ?_⟩⟩
  · obtain ⟨hplaced, hregion⟩ := hinv.chunks.cached t ht r hvalid
    have hr : r < confMaxRegionSizes := by
      rw [← hregion]
      exact lt_of_lt_of_le hplaced.region_lt hinv.chunks.pools.specs.numRegions_le
    refine hholds.taken _ hplaced (mem_taken.mpr ⟨t, ht, ?_⟩)
    refine ThreadLocalAllocator.mem_addresses.mpr
      (.inl (mem_slots.mpr ⟨r, List.mem_range.mpr hr, ?_⟩))
    rw [if_pos hvalid]
    exact List.mem_cons_self
  · obtain ⟨c, hbacked⟩ := (hinv.kind t ht type).backed q hq
    refine ⟨c, hbacked, hholds.taken c hbacked.placed ?_⟩
    have hmem := mem_taken_of_held ht hq
    rw [hbacked.address] at hmem
    exact hmem

/-- A thread that freed what it allocated keeps the chunk in its cache, committed. -/
theorem reachable_commits_sample : ∃ p, Reachable Decommits p ∧ 64 ∈ p.tlas ∧
    ((p.alloc.tlas 64).cachedChunks 0).valid = true ∧
    p.alloc.Committed ((p.alloc.tlas 64).cachedChunks 0) := by
  have hrun : (sampleProcess.execAll 1 [.start sampleConfig 64, .allocate true 64 16 16,
      .deallocate 64 65536 16]).map (fun p => decide (64 ∈ p.tlas ∧
        ((p.alloc.tlas 64).cachedChunks 0).valid = true)) = some true := by decide +kernel
  obtain ⟨p, hexec, hp⟩ := Option.map_eq_some_iff.mp hrun
  obtain ⟨hmem, hvalid⟩ := of_decide_eq_true hp
  have hreach : Reachable Decommits p := by
    refine Reachable.execAll (.init sampleProcess_init) (fun p a ha => ?_) hexec
    simp only [List.mem_cons, List.not_mem_nil, or_false] at ha
    rcases ha with rfl | rfl | rfl <;> trivial
  exact ⟨p, hreach, hmem, hvalid, ((reachable_commits hreach).2 64 hmem).1 0 hvalid⟩

/-- **A pooled chunk stays committed**: the thread exits, and its cached chunk goes back to the pool
as it is. -/
theorem not_commits : ¬ ∀ p,
    Reachable (fun _ a => ∀ t size alignment, a ≠ .allocate false t size alignment) p →
    ∀ c, p.alloc.rca.Placed c → p.alloc.rca.Pooled c.handle → ¬p.alloc.Committed c := by
  intro h
  have hrun : (sampleProcess.execAll 1 [.start sampleConfig 64, .allocate true 64 16 16,
      .deallocate 64 65536 16, .exit 64]).map (fun p => decide (
        (0 < p.alloc.rca.specs.numRegions ∧ 0 < p.alloc.rca.pools.numSplits ∧
          (p.alloc.rca.pools.poolEntries 0 0).firstHandle = 0 ∧
          0 < (p.alloc.rca.pools.poolEntries 0 0).lastHandle ∧
          0 < (p.alloc.rca.specs.regionSpec 0).numHandles ∧
          (p.alloc.rca.specs.regionSpec 0).handleOffset = 0) ∧
        ((p.alloc.rca.pools.poolEntries 0 0).freeList.next = 0 ∧
          p.alloc.rca.poolHandles 0 = regionChunkPoolNullLink) ∧
        p.alloc.Committed ⟨0, 0, 0, 0⟩)) = some true := by decide +kernel
  obtain ⟨p, hexec, hp⟩ := Option.map_eq_some_iff.mp hrun
  obtain ⟨⟨hregion, hsplit, hfirst, hlast, hchunk, hoffset⟩, ⟨hhead, hnext⟩, hcommitted⟩ :=
    of_decide_eq_true hp
  have hreach : Reachable (fun _ a => ∀ t size alignment, a ≠ .allocate false t size alignment)
    p := by
    refine Reachable.execAll (.init sampleProcess_init) (fun p a ha => ?_) hexec
    simp only [List.mem_cons, List.not_mem_nil, or_false] at ha
    rcases ha with rfl | rfl | rfl | rfl <;> simp
  have hplaced : p.alloc.rca.Placed ⟨0, 0, 0, 0⟩ :=
    ⟨⟨hregion, hsplit, hfirst.le, hlast⟩, hchunk, by dsimp only; rw [hoffset]⟩
  -- the chunk is the one handle of the free list
  have hpooled : p.alloc.rca.Pooled 0 := by
    refine ⟨0, hregion, 0, hsplit, .inl ⟨[0], ?_, List.mem_cons_self⟩⟩
    exact ⟨hhead, by decide, hnext⟩
  exact h p hreach _ hplaced hpooled hcommitted

end Process

end Cuw3
