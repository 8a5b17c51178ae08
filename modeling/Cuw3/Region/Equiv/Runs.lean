/-
  Runs of the region chunk allocator, used by one thread at a time.

  `RunHolds`: a handle is pooled exactly when no chunk that the client holds has it.  Each step
  keeps it (`RunHolds.step`).  An allocation with an odd split step therefore fails only where the
  client holds every chunk of the region, and a freed chunk is the head of the free list of its
  split (`reachable_drain_reuse`).
-/
import Cuw3.Region.Equiv.AtomicSteps

namespace Cuw3.RegionChunkAllocator

open Lib RegionChunkAllocatorPools

/-! ### States and steps -/

/-- The allocator, and the chunks that it gave out and did not get back. -/
structure Lent where
  alloc : RegionChunkAllocator
  held : List RegionChunkAllocation

/-- The parameters leave a turn, an attempt and an odd step. -/
structure RegionChunkAllocParams.Thorough (params : RegionChunkAllocParams) : Prop where
  rounds : 1 ≤ params.rounds
  attempts : params.attempts ≠ 0
  splitStep : params.splitStep % 2 = 1

/-- One call that returns: a chunk is freed by its record, or by a pointer into its memory. -/
inductive Lent.Step (σ : Lent) : Lent → Prop where
  | allocate (region : Nat) (params : RegionChunkAllocParams) (c : RegionChunkAllocation)
      (alloc' : RegionChunkAllocator) (hparams : RegionChunkAllocParams.Thorough params)
      (hok : σ.alloc.allocateChunk region params = .ok (c, alloc')) :
      Step σ ⟨alloc', if c.valid then c :: σ.held else σ.held⟩
  | deallocate (c : RegionChunkAllocation) (alloc' : RegionChunkAllocator) (hheld : c ∈ σ.held)
      (hok : σ.alloc.deallocateChunk c = .ok alloc') :
      Step σ ⟨alloc', σ.held.erase c⟩
  | deallocatePtr (c : RegionChunkAllocation) (ptr : Nat) (alloc' : RegionChunkAllocator)
      (hheld : c ∈ σ.held) (hptr : PointsInto σ.alloc ptr c)
      (hok : σ.alloc.deallocateChunkPtr ptr = .ok alloc') :
      Step σ ⟨alloc', σ.held.erase c⟩

/-- The runs from new pools. -/
inductive Lent.Reachable (alloc : RegionChunkAllocator) : Lent → Prop where
  | start : Reachable alloc ⟨alloc, []⟩
  | step {σ σ' : Lent} : Reachable alloc σ → σ.Step σ' → Reachable alloc σ'

/-- Nobody holds the chunk. -/
def Lent.Free (σ : Lent) (region chunk : Nat) : Prop :=
  region < σ.alloc.specs.numRegions ∧ chunk < (σ.alloc.specs.regionSpec region).numHandles ∧
    ∀ c ∈ σ.held, ¬(c.region = region ∧ c.chunk = chunk)

/-! ### The invariant -/

structure RunHolds (σ : Lent) : Prop extends PoolsHold σ.alloc where
  mapped : σ.alloc.Mapped
  placed : ∀ c ∈ σ.held, σ.alloc.Placed c
  nodup : (σ.held.map RegionChunkAllocation.handle).Nodup
  pooled : ∀ h < σ.alloc.specs.numHandles,
    σ.alloc.Pooled h ↔ h ∉ σ.held.map RegionChunkAllocation.handle

variable {alloc alloc' : RegionChunkAllocator} {σ σ' : Lent} {c : RegionChunkAllocation}
  {r s handle : Nat}

/-- A held chunk is not pooled. -/
theorem RunHolds.not_pooled (h : RunHolds σ) (hc : c ∈ σ.held) : ¬σ.alloc.Pooled c.handle := by
  intro hpooled
  have hlt := (h.placed c hc).toInSplit.lt_numHandles h.toLayout
  exact (h.pooled _ hlt).mp hpooled (List.mem_map_of_mem hc)

/-- A chunk that nobody holds is pooled. -/
theorem RunHolds.pooled_of_free (h : RunHolds σ) {chunk : Nat} (hfree : σ.Free r chunk) :
    σ.alloc.Pooled ((σ.alloc.specs.regionSpec r).handleOffset + chunk) := by
  obtain ⟨hr, hchunk, hfree⟩ := hfree
  have hle := h.specs.handle_le hr
  refine (h.pooled _ (by omega)).mpr fun hmem => ?_
  obtain ⟨c, hc, hhandle⟩ := List.mem_map.mp hmem
  have hplaced := h.placed c hc
  -- the handle tells the region and the chunk
  obtain ⟨split, hs, hlo, hhi⟩ := h.pools.exists_split hr (Nat.le_add_right _ chunk) (by omega)
  have hin : σ.alloc.InSplit r split c.handle := by
    rw [hhandle]
    exact ⟨hr, hs, hlo, hhi⟩
  obtain ⟨hregion, -⟩ := hplaced.toInSplit.unique hin h.toLayout
  have heq := hplaced.handle_eq
  rw [hregion] at heq
  exact hfree c hc ⟨hregion, by omega⟩

theorem RunHolds.take (h : RunHolds σ) (hc : σ.alloc.Placed c)
    (ht : Taken σ.alloc alloc' c.region c.split c.handle) : RunHolds ⟨alloc', c :: σ.held⟩ := by
  have hlt := hc.toInSplit.lt_numHandles h.toLayout
  have hnew := (h.pooled _ hlt).mp ht.pooled
  refine ⟨ht.holds, ht.same.regionsMapped h.mapped, ?_, List.nodup_cons.mpr ⟨hnew, h.nodup⟩, ?_⟩
  · intro d hd
    refine ht.same.placed.mpr ?_
    rcases List.mem_cons.mp hd with rfl | hd
    · exact hc
    · exact h.placed d hd
  · intro q hq
    rw [ht.same.specs] at hq
    rw [ht.rest, h.pooled q hq, List.map_cons, List.mem_cons, not_or, and_comm]

theorem RunHolds.allocate (h : RunHolds σ) {params : RegionChunkAllocParams}
    (hparams : RegionChunkAllocParams.Thorough params)
    (hok : σ.alloc.allocateChunk r params = .ok (c, alloc')) :
    RunHolds ⟨alloc', if c.valid then c :: σ.held else σ.held⟩ := by
  obtain ⟨c', alloc'', hok', hallocated⟩ :=
    h.toPoolsHold.allocateChunk hparams.attempts (.inr hparams.splitStep) r
  rw [hok] at hok'
  cases hok'
  rcases hallocated with ⟨rfl, rfl⟩ | ⟨-, hplaced, htaken⟩
  · exact h
  · rw [if_pos (hplaced.valid h.toLayout)]
    exact h.take hplaced htaken

theorem RunHolds.deallocate (h : RunHolds σ) (hc : c ∈ σ.held)
    (hok : σ.alloc.deallocateChunk c = .ok alloc') : RunHolds ⟨alloc', σ.held.erase c⟩ := by
  obtain ⟨alloc'', hok', hholds, hsame, hiff⟩ :=
    h.toPoolsHold.deallocateChunk (h.placed c hc) (h.not_pooled hc)
  rw [hok] at hok'
  cases hok'
  have hperm := (List.perm_cons_erase hc).map RegionChunkAllocation.handle
  have hnodup := hperm.nodup_iff.mp h.nodup
  rw [List.map_cons, List.nodup_cons] at hnodup
  refine ⟨hholds, hsame.regionsMapped h.mapped, ?_, hnodup.2, ?_⟩
  · intro d hd
    exact hsame.placed.mpr (h.placed d (List.mem_of_mem_erase hd))
  · intro q hq
    rw [hsame.specs] at hq
    rw [hiff, h.pooled q hq, hperm.mem_iff, List.map_cons, List.mem_cons]
    constructor
    · rintro (hnot | rfl)
      · exact fun hmem => hnot (.inr hmem)
      · exact hnodup.1
    · intro hnot
      by_cases heq : q = c.handle
      · exact .inr heq
      · exact .inl fun hmem => hmem.elim heq hnot

/-- A pointer into a held chunk frees the chunk. -/
theorem RunHolds.deallocateChunkPtr_eq (h : RunHolds σ) (hc : c ∈ σ.held) {ptr : Nat}
    (hptr : PointsInto σ.alloc ptr c) :
    σ.alloc.deallocateChunkPtr ptr = σ.alloc.deallocateChunk c := by
  have hplaced := h.placed c hc
  unfold deallocateChunkPtr
  rw [ptrToAllocation_of_pointsInto h.toLayout h.mapped hplaced hptr, ok_bind,
    check_of (hplaced.valid h.toLayout), ok_bind]

theorem RunHolds.step (h : RunHolds σ) (hstep : σ.Step σ') : RunHolds σ' := by
  cases hstep with
  | allocate region params c alloc' hparams hok => exact h.allocate hparams hok
  | deallocate c alloc' hheld hok => exact h.deallocate hheld hok
  | deallocatePtr c ptr alloc' hheld hptr hok =>
    rw [h.deallocateChunkPtr_eq hheld hptr] at hok
    exact h.deallocate hheld hok

theorem Lent.Reachable.runHolds {contentionSplit : Nat} (hw : alloc.specs.WellFormed)
    (hpools : (RegionChunkAllocatorPools.create alloc.specs contentionSplit).Creates alloc.pools)
    (hm : alloc.Mapped) (h : Reachable alloc σ) : RunHolds σ := by
  induction h with
  | start =>
    obtain ⟨hholds, hpooled⟩ := poolsHold_of_create hw hpools
    exact ⟨hholds, hm, by simp, List.nodup_nil, fun q hq => by simpa using hpooled q hq⟩
  | step _ hstep ih => exact ih.step hstep

/-! ### Draining a region -/

/-- A valid result is a chunk of the region that nobody holds; there is one unless everything is
held. -/
theorem RunHolds.allocate_valid_iff (h : RunHolds σ) {params : RegionChunkAllocParams}
    (hparams : RegionChunkAllocParams.Thorough params)
    (hok : σ.alloc.allocateChunk r params = .ok (c, alloc')) :
    (c.valid = true ↔ ∃ chunk, σ.Free r chunk) ∧
      (c.valid = true → c.region = r ∧ σ.alloc.Placed c ∧ σ.Free r c.chunk) := by
  obtain ⟨c', alloc'', hok', hallocated⟩ :=
    h.toPoolsHold.allocateChunk hparams.attempts (.inr hparams.splitStep) r
  rw [hok] at hok'
  cases hok'
  have hsound : c.valid = true → c.region = r ∧ σ.alloc.Placed c ∧ σ.Free r c.chunk := by
    intro hvalid
    rcases hallocated with ⟨rfl, -⟩ | ⟨rfl, hplaced, htaken⟩
    · exact absurd hvalid (by decide)
    · refine ⟨rfl, hplaced, hplaced.region_lt, hplaced.chunk_lt, ?_⟩
      rintro d hd ⟨hregion, hchunk⟩
      have heq : d.handle = c.handle := by
        rw [(h.placed d hd).handle_eq, hplaced.handle_eq, hregion, hchunk]
      exact h.not_pooled hd (heq ▸ htaken.pooled)
  refine ⟨⟨fun hvalid => ⟨c.chunk, (hsound hvalid).2.2⟩, ?_⟩, hsound⟩
  rintro ⟨chunk, hfree⟩
  by_contra hinvalid
  have hdrained := h.toPoolsHold.drained_of_allocateChunk hparams.rounds hparams.attempts
    hparams.splitStep hfree.1 hok (Bool.not_eq_true _ ▸ hinvalid)
  -- the free chunk is pooled in a split of this region
  obtain ⟨hr, hchunk, -⟩ := id hfree
  obtain ⟨split, hs, hlo, hhi⟩ := h.pools.exists_split hr (Nat.le_add_right _ chunk) (by omega)
  have hin : σ.alloc.InSplit r split ((σ.alloc.specs.regionSpec r).handleOffset + chunk) :=
    ⟨hr, hs, hlo, hhi⟩
  exact hdrained split hs _ (h.toPoolsHold.pooledIn hin (h.pooled_of_free hfree))

/-! ### Reusing a chunk -/

/-- A freed chunk is the head of the free list of the split, before what was there. -/
theorem freeList_of_deallocateChunk (hok : alloc.deallocateChunk c = .ok alloc') :
    (alloc'.pools.poolEntries c.region c.split).freeList.next = c.handle ∧
      alloc'.poolHandles = Function.update alloc.poolHandles c.handle
        (alloc.pools.poolEntries c.region c.split).freeList.next := by
  simp only [RegionChunkAllocator.deallocateChunk, RegionChunkAllocatorPools.deallocate,
    RegionChunkPoolListView.push, bind_eq_ok, check_eq_ok, pure_eq_ok] at hok
  obtain ⟨-, -, -, -, -, -, -, -, ⟨links, pools⟩,
    ⟨-, -, -, -, ⟨links', freeList⟩, ⟨-, -, -, -, hlist⟩,
    hpools⟩, rfl⟩ := hok
  cases hlist
  cases hpools
  simp [withEntry]

/-- **A region can be drained and its chunks reused in any order**: in every run of a client that
allocates with an odd split step and frees what it holds, `allocate_chunk` returns a chunk exactly
when there is one that the client does not hold, and this is one; and freeing a chunk, by its record
or by a pointer into it, puts it at the head of the free list of the one split whose handles it is
among. -/
theorem reachable_drain_reuse {config : RegionChunkAllocatorSpecsConfig} {contentionSplit : Nat}
    (hspecs : (RegionChunkAllocatorSpecs.create config).Creates alloc.specs)
    (hpools : (RegionChunkAllocatorPools.create alloc.specs contentionSplit).Creates alloc.pools)
    (hfits : alloc.specs.Fits) (hm : alloc.Mapped) (h : Lent.Reachable alloc σ) :
    (∀ region params, RegionChunkAllocParams.Thorough params →
      ∃ c alloc', σ.alloc.allocateChunk region params = .ok (c, alloc') ∧
        (c.valid = true ↔ ∃ chunk, σ.Free region chunk) ∧
        (c.valid = true → c.region = region ∧ σ.alloc.Placed c ∧ σ.Free region c.chunk)) ∧
    ∀ c ∈ σ.held, ∃ alloc', σ.alloc.deallocateChunk c = .ok alloc' ∧
      (∀ ptr, PointsInto σ.alloc ptr c → σ.alloc.deallocateChunkPtr ptr = .ok alloc') ∧
      (∀ split < σ.alloc.pools.numSplits,
        ((σ.alloc.pools.poolEntries c.region split).firstHandle ≤ c.handle ∧
          c.handle < (σ.alloc.pools.poolEntries c.region split).lastHandle) ↔ split = c.split) ∧
      ∃ ps, Linked regionChunkPoolNullLink σ.alloc.poolHandles
          (σ.alloc.pools.poolEntries c.region c.split).freeList.next ps ∧
        Linked regionChunkPoolNullLink alloc'.poolHandles
          (alloc'.pools.poolEntries c.region c.split).freeList.next (c.handle :: ps) := by
  have hw := RegionChunkAllocatorSpecs.create_wellFormed hspecs hfits
  have hσ : RunHolds σ := h.runHolds hw hpools hm
  constructor
  · intro region params hparams
    obtain ⟨c, alloc', hok, -⟩ :=
      hσ.toPoolsHold.allocateChunk hparams.attempts (.inr hparams.splitStep) region
    exact ⟨c, alloc', hok, hσ.allocate_valid_iff hparams hok⟩
  · intro c hc
    have hplaced := hσ.placed c hc
    obtain ⟨alloc', hok, hholds, hsame, -⟩ :=
      hσ.toPoolsHold.deallocateChunk hplaced (hσ.not_pooled hc)
    refine ⟨alloc', hok, ?_, ?_, ?_⟩
    · intro ptr hptr
      rw [hσ.deallocateChunkPtr_eq hc hptr, hok]
    · intro split hsplit
      constructor
      · rintro ⟨hlo, hhi⟩
        exact hσ.pools.split_unique hplaced.region_lt hsplit hplaced.split_lt hlo hhi
          hplaced.first_le hplaced.lt_last
      · rintro rfl
        exact ⟨hplaced.first_le, hplaced.lt_last⟩
    · obtain ⟨ps, hlinked, -, -⟩ :=
        (hσ.split c.region hplaced.region_lt c.split hplaced.split_lt).list
      obtain ⟨hnext, hlinks⟩ := freeList_of_deallocateChunk hok
      have hnot : c.handle ∉ ps := fun hmem => hσ.not_pooled hc
        ⟨c.region, hplaced.region_lt, c.split, hplaced.split_lt, .inl ⟨ps, hlinked, hmem⟩⟩
      refine ⟨ps, hlinked, ?_⟩
      rw [hnext, hlinks]
      exact hlinked.push (hplaced.toInSplit.ne_null hσ.toLayout) hnot

/-- A chunk of the second split of `mixedAllocator` is taken and goes back there. -/
theorem reachable_drain_reuse_mixed :
    ∃ alloc', mixedAllocator.allocateChunk 1 ⟨1, 1, 1, 3⟩ = .ok (⟨1, 4, 12, 1⟩, alloc') ∧
      ∃ alloc'', alloc'.deallocateChunk ⟨1, 4, 12, 1⟩ = .ok alloc'' ∧
        ∃ ps, Linked regionChunkPoolNullLink alloc''.poolHandles
          (alloc''.pools.poolEntries 1 1).freeList.next (12 :: ps) := by
  refine ⟨_, rfl, ?_⟩
  have hspecs : (RegionChunkAllocatorSpecs.create mixedConfig).Creates mixedAllocator.specs := rfl
  have hpools : (RegionChunkAllocatorPools.create mixedAllocator.specs 2).Creates
      mixedAllocator.pools := rfl
  obtain ⟨-, hfree⟩ := reachable_drain_reuse hspecs hpools ⟨by decide, by decide⟩
    ⟨by decide, by decide, by decide⟩
    (.step .start (.allocate 1 ⟨1, 1, 1, 3⟩ ⟨1, 4, 12, 1⟩ _ ⟨by decide, by decide, by decide⟩ rfl))
  obtain ⟨alloc'', hok, -, -, ps, -, hlinked⟩ := hfree ⟨1, 4, 12, 1⟩ List.mem_cons_self
  exact ⟨alloc'', hok, ps, hlinked⟩

end Cuw3.RegionChunkAllocator
