/-
  What a thread keeps.

  As long as every allocation is freed by the owner of its arena, the bytes of each arena in the
  bins are freed or live (`BooksBalance`), and an arena with no live byte left is drained.  Every
  chunk stays in the pool, in a cache or under an arena (`Whole`).  So each arena in the bins has a
  live allocation, and once the last one is freed there is no arena, and the chunks are in the cache
  or the pool (`reachable_noLeak`).
-/
import Cuw3.Allocator.Equiv.Frees

namespace Cuw3

open Lib

/-! ### One arena -/

namespace FastArena

variable {arena arena' : FastArena} {live : List Allocation} {l : Allocation}

/-- The bytes below the top are freed, or those of live allocations. -/
def BooksBalance (arena : FastArena) (live : List Allocation) : Prop :=
  arena.freed + arena.liveBytes (arena.liveIn live) = arena.top

/-- List entries do not matter. -/
theorem BooksBalance.withLinked (h : arena.BooksBalance live) 
    (hlink : arena' = { arena with linked := arena'.linked }) : arena'.BooksBalance live := by
  rw [hlink]
  exact h

theorem BooksBalance.cons_of_not_owns (h : arena.BooksBalance live) (hnot : ¬arena.Owns l.memory) :
    arena.BooksBalance (l :: live) := by
  unfold BooksBalance
  rw [liveIn_cons_of_not_owns hnot]
  exact h

theorem BooksBalance.erase_of_not_owns (h : arena.BooksBalance live) (hnot : ¬arena.Owns l.memory) :
    arena.BooksBalance (live.erase l) := by
  unfold BooksBalance
  rw [liveIn_erase_of_not_owns hnot]
  exact h

theorem BooksBalance.serve (h : arena.BooksBalance live) (hown : arena.Owns l.memory) :
    (Allocator.served arena l.size).BooksBalance (l :: live) := by
  unfold BooksBalance at h ⊢
  change arena.freed + arena.liveBytes (arena.liveIn (l :: live)) =
    arena.top + arena.requiredSpace l.size
  rw [liveIn_cons_of_owns hown, liveBytes_cons]
  omega

theorem BooksBalance.release (h : arena.BooksBalance live) (hl : l ∈ arena.liveIn live) :
    ({ arena with freed := arena.freed + arena.requiredSpace l.size } : FastArena).BooksBalance
      (live.erase l) := by
  unfold BooksBalance at h ⊢
  change arena.freed + arena.requiredSpace l.size + arena.liveBytes (arena.liveIn (live.erase l)) =
    arena.top
  rw [liveIn_erase, ← h, liveBytes_erase _ hl]
  omega

/-- A fresh arena without live allocations. -/
theorem BooksBalance.of_constructed {t alignment : Nat} {memory : RegionChunkMemory}
    {type : RegionChunkType}
    (h : Constructed arena t memory alignment type) (hempty : arena.liveIn live = []) :
    arena.BooksBalance live := by
  have hacc := h.law.accounted
  have htop := h.top
  unfold BooksBalance
  rw [hempty, liveBytes_nil]
  omega

end FastArena

namespace Allocator

open FastArena

variable {threads : List Nat} {w w' : World} {alloc alloc' : Allocator} {t p q x : Nat}
  {type : RegionChunkType}

/-! ### The arenas in the bins -/

/-- The arenas in the bins are balanced. -/
def BooksHold (threads : List Nat) (w : World) : Prop :=
  ∀ p, w.alloc.HeldBy threads p → (w.alloc.heap p).BooksBalance w.live

theorem TopBlock.owns {arena : FastArena} {m size : Nat} (h : TopBlock arena m size)
    (hpos : 0 < size) :
    arena.Owns m := by
  have heq := h.eq
  have hfits := h.fits
  have hle := h.le_space
  exact ⟨by omega, by omega⟩

/-- A request keeps the arenas balanced. -/
theorem BooksHold.allocate (h : BooksHold threads w) (hinv : Inv threads w) (ht : t ∈ threads)
    {size alignment : Nat} {commitOk : Bool} {r : AcquiredResource} (hpos : 0 < size)
    (heffect : Allocates threads w t size alignment commitOk type r alloc')
    (hinv' : Inv threads ⟨alloc', liveAfter w.live size r, w.foreign⟩) :
    BooksHold threads ⟨alloc', liveAfter w.live size r, w.foreign⟩ := by
  have hmax : max size 1 = size := max_eq_left hpos
  intro q hq
  cases heffect with
  | none hr hlinks hheld hout hc =>
    have hlive : liveAfter w.live size r = w.live := by
      cases r with
      | acquired m => exact absurd rfl (hr m)
      | failed => rfl
      | noResource => rfl
    have hframe := hout.frame
    have hq' : w.alloc.HeldBy threads q := (heldBy_keep ht hheld).mp (hframe.heldBy.mp hq)
    rw [hlive]
    refine (h q hq').withLinked ?_
    dsimp only
    rw [hframe.heap]
    exact hlinks q
  | @held p m heap allocator hp hheld hheap hblock =>
    have hown := hblock.owns hpos
    rw [liveAfter, hmax] at hinv' ⊢
    have hq' : w.alloc.HeldBy threads q := (heldBy_keep ht hheld).mp hq
    by_cases hqp : q = p
    · subst hqp
      have hlink := hheap q
      rw [Function.update_self] at hlink
      exact ((h q hq').serve hown).withLinked hlink
    · have hlink := hheap q
      rw [Function.update_of_ne hqp] at hlink
      refine BooksBalance.withLinked ((h q hq').cons_of_not_owns fun hown' => hqp ?_) hlink
      exact owner_unique hinv.chunks hinv.kind hq' ⟨t, ht, type, hp⟩ hown' hown
  | @fresh c alloc₁ arena p m heap₁ heap bins allocator hlinks hheld hout hnew hput =>
    obtain ⟨memory, hcons⟩ := hnew.constructed
    have hframe := hout.frame
    rw [liveAfter, hmax] at hinv' ⊢
    have hblock := hput.block
    have hheap := hput.heap
    dsimp only at hblock hheap
    rw [Function.update_self] at hblock
    rw [Function.update_self, Function.update_idem] at hheap
    have hown := hblock.owns hpos
    by_cases hqp : q = p
    · subst hqp
      have hlink := hheap q
      rw [Function.update_self] at hlink
      exact ((BooksBalance.of_constructed hcons hnew.empty).serve hown).withLinked hlink
    · have hlink := hheap q
      rw [Function.update_of_ne hqp, hframe.heap] at hlink
      have hq' : w.alloc.HeldBy threads q := by
        have hq₁ := ((heldBy_put ht hput.held).mp hq).resolve_left hqp
        exact (heldBy_keep ht hheld).mp (hframe.heldBy.mp hq₁)
      have hlink' : heap q = { w.alloc.heap q with linked := (heap q).linked } := by
        rw [withAllocator_heap, hlinks q] at hlink
        exact hlink
      refine BooksBalance.withLinked ((h q hq').cons_of_not_owns fun hown' => hqp ?_) hlink'
      -- both arenas are in the bins now, and both blocks have the new allocation
      have hp' : (alloc₁.withAllocator t type heap allocator).HeldBy threads p :=
        (heldBy_put ht hput.held).mpr (.inl rfl)
      refine owner_unique hinv'.chunks hinv'.kind hq hp' (x := m) ?_ ?_
      · dsimp only
        rw [withAllocator_heap, hlink']
        exact hown'
      · have hlinkp := hheap p
        rw [Function.update_self] at hlinkp
        dsimp only
        rw [withAllocator_heap, hlinkp]
        exact hown

/-- A free by the owner keeps the arenas balanced. -/
theorem BooksHold.deallocate (h : BooksHold threads w) (hinv : Inv threads w) (ht : t ∈ threads)
    {l : Allocation} (hl : l ∈ w.live) (hp : p ∈ (w.alloc.tlas t).held type)
    (hown : (w.alloc.heap p).Owns l.memory) (heffect : FreesOwn w.alloc t type p l.size alloc') :
    BooksHold threads ⟨alloc', w.live.erase l, w.foreign⟩ := by
  have hother : ∀ q, w.alloc.HeldBy threads q → q ≠ p → ¬(w.alloc.heap q).Owns l.memory :=
    fun q hq hqp hown' =>
      hqp (owner_unique hinv.chunks hinv.kind hq ⟨t, ht, type, hp⟩ hown' hown)
  intro q hq
  cases heffect with
  | kept hheld =>
    have hq' : w.alloc.HeldBy threads q := (heldBy_keep ht hheld).mp hq
    dsimp only
    rw [withAllocator_heap]
    by_cases hqp : q = p
    · subst hqp
      rw [Function.update_self]
      exact (h q hq').release (mem_liveIn.mpr ⟨hl, hown⟩)
    · rw [Function.update_of_ne hqp]
      exact (h q hq').erase_of_not_owns (hother q hq' hqp)
  | @drained c heap allocator alloc' hheld hothers hblock hbacked hin =>
    obtain ⟨hchunks, hflight, -⟩ : (w.alloc.withAllocator t type heap allocator).ChunksHold
        threads ∧
        (w.alloc.withAllocator t type heap allocator).InFlight threads c ∧ _ :=
      hinv.chunks.drop ht hbacked.placed (hbacked.address ▸ hheld)
    have hframe := (hchunks.chunkIn ht hflight hin).2.1
    have hq₁ := hframe.heldBy.mp hq
    have hqp : q ≠ p := by
      rw [hbacked.address]
      exact hflight.not_held hq₁
    have hq' : w.alloc.HeldBy threads q := (heldBy_take ht hheld).mpr (.inr hq₁)
    refine ((h q hq').erase_of_not_owns (hother q hq' hqp)).withLinked ?_
    dsimp only
    rw [hframe.heap]
    exact hothers q hqp

/-! ### The chunks -/

/-- No chunk is lost. -/
def Whole (threads : List Nat) (alloc : Allocator) : Prop :=
  ∀ handle < alloc.rca.specs.numHandles, alloc.Accounted threads handle

/-- The bins of one allocator hold the same arenas as before. -/
theorem accounted_keep {heap : Heap} {allocator : ArenaAllocator type.Bins}
    (hchunks : alloc.ChunksHold threads) (ht : t ∈ threads)
    (hperm : (type.law.held allocator.bins).Perm ((alloc.tlas t).held type)) :
    (alloc.withAllocator t type heap allocator).Accounted threads q ↔
    alloc.Accounted threads q := by
  have htaken : ((alloc.withAllocator t type heap allocator).taken threads).Perm
      (alloc.taken threads) := taken_withAllocator [] [] hchunks.threads_nodup ht hperm
  exact or_congr_right htaken.mem_iff

/-- A request loses no chunk. -/
theorem Whole.allocate (h : Whole threads w.alloc) (hinv : Inv threads w) (ht : t ∈ threads)
    {size alignment : Nat} {commitOk : Bool} {r : AcquiredResource}
    (heffect : Allocates threads w t size alignment commitOk type r alloc') :
    Whole threads alloc' := by
  have hchunks := hinv.chunks
  cases heffect with
  | @none r heap bins c alloc' hr hlinks hheld hout hc =>
    have hchunks₁ : (w.alloc.withAllocator t type heap
        { (w.alloc.tlas t).allocator type with bins }).ChunksHold threads := hchunks.keep ht hheld
    obtain ⟨-, hframe, hresult⟩ := hchunks₁.chunkOut ht hout
    intro q hq
    have hq₁ : (w.alloc.withAllocator t type heap
        { (w.alloc.tlas t).allocator type with bins }).Accounted threads q :=
      (accounted_keep hchunks ht hheld).mpr (h q (hframe.rca.specs ▸ hq))
    rcases hresult with ⟨-, hiff⟩ | ⟨hflight, -⟩
    · exact (hiff q).mp hq₁
    · rw [hflight.placed.valid (hframe.rca.layout hchunks.pools.toLayout)] at hc
      exact Bool.noConfusion hc
  | held hp hheld hheap hblock =>
    exact fun q hq => (accounted_keep hchunks ht hheld).mpr (h q hq)
  | @fresh c alloc₁ arena p m heap₁ heap bins allocator hlinks hheld hout hnew hput =>
    have hchunks₁ : (w.alloc.withAllocator t type heap₁
        { (w.alloc.tlas t).allocator type with bins }).ChunksHold threads := hchunks.keep ht hheld
    obtain ⟨hchunks₂, hframe, hresult⟩ := hchunks₁.chunkOut ht hout
    have htaken : ((alloc₁.withAllocator t type heap allocator).taken threads).Perm
        (p :: alloc₁.taken threads) :=
      taken_withAllocator [] [p] hchunks.threads_nodup ht hput.held
    intro q hq
    have hq₁ : (w.alloc.withAllocator t type heap₁
        { (w.alloc.tlas t).allocator type with bins }).Accounted threads q :=
      (accounted_keep hchunks ht hheld).mpr (h q (hframe.rca.specs ▸ hq))
    -- the chunk that was taken is the one under the new arena
    have hcases : alloc₁.Accounted threads q ∨ q = c.handle := by
      rcases hresult with ⟨-, hiff⟩ | ⟨-, hiff⟩
      · exact .inl ((hiff q).mp hq₁)
      · exact (hiff q).mp hq₁
    rcases hcases with (hpooled | hmem) | rfl
    · exact .inl hpooled
    · exact .inr (htaken.mem_iff.mpr (List.mem_cons_of_mem _ hmem))
    · exact .inr (htaken.mem_iff.mpr (hnew.address ▸ List.mem_cons_self))

/-- A free by the owner loses no chunk. -/
theorem Whole.deallocate (h : Whole threads w.alloc) (hinv : Inv threads w) (ht : t ∈ threads)
    {size : Nat} (heffect : FreesOwn w.alloc t type p size alloc') : Whole threads alloc' := by
  have hchunks := hinv.chunks
  cases heffect with
  | kept hheld => exact fun q hq => (accounted_keep hchunks ht hheld).mpr (h q hq)
  | @drained c heap allocator alloc' hheld hothers hblock hbacked hin =>
    obtain ⟨hchunks₁, hflight, hiff⟩ : (w.alloc.withAllocator t type heap allocator).ChunksHold
        threads ∧
        (w.alloc.withAllocator t type heap allocator).InFlight threads c ∧ _ :=
      hchunks.drop ht hbacked.placed (hbacked.address ▸ hheld)
    obtain ⟨-, hframe, hiff'⟩ := hchunks₁.chunkIn ht hflight hin
    intro q hq
    rw [hiff', ← hiff]
    exact h q (hframe.rca.specs ▸ hq)

/-! ### Runs -/

/-- In the runs of one thread, nothing is freed by another one. -/
theorem Reachable.not_foreign (h : Reachable [t] w) : w.foreign = false := by
  induction h with
  | init => rfl
  | @step w w' hreach hstep ih =>
    cases hstep with
    | allocate => exact ih
    | @deallocate u ptr size owner alloc' hu hl howner hok =>
      obtain ⟨v, hv, type, p, hp, hown, harena, hv', -⟩ := hreach.inv.arena hl
      dsimp only at harena
      simp only [ownerOf, harena, ok_bind, hv', pure_eq_ok] at howner
      rw [List.mem_singleton] at hu hv
      subst howner hu hv
      simp [ih]
    | reclaim => exact ih

/-- As long as only owners free, the arenas stay balanced. -/
theorem Reachable.books (h : Reachable threads w) (hforeign : w.foreign = false) :
    BooksHold threads w ∧ Whole threads w.alloc := by
  induction h with
  | @init alloc hfresh =>
    have hinv := hfresh.inv
    constructor
    · rintro p ⟨u, hu, type, hp⟩
      rw [(hfresh.kind hu type).2] at hp
      cases hp
    · obtain ⟨config, hspecs⟩ := hfresh.specs
      obtain ⟨contentionSplit, hpools⟩ := hfresh.pools
      have hw := RegionChunkAllocatorSpecs.create_wellFormed hspecs hfresh.fits
      exact fun q hq => .inl ((RegionChunkAllocator.poolsHold_of_create hw hpools).2 q hq)
  | @step w w' hreach hstep ih =>
    have hinv := hreach.inv
    cases hstep with
    | @allocate u commitOk size alignment r alloc' hu hsize hok =>
      obtain ⟨hbooks, hwhole⟩ := ih hforeign
      obtain ⟨hinv', -, type, heffect⟩ := hinv.allocate hu hsize hok
      have hlive : liveAfter w.live (max size 1) r = liveAfter w.live size r := by
        cases r <;> simp [liveAfter]
      rw [← hlive] at hinv' ⊢
      exact ⟨hbooks.allocate hinv hu (by omega) heffect hinv', hwhole.allocate hinv hu heffect⟩
    | @deallocate u ptr size owner alloc' hu hl howner hok =>
      rw [Bool.or_eq_false_iff] at hforeign
      obtain ⟨hbooks, hwhole⟩ := ih hforeign.1
      obtain rfl : owner = u := by simpa using hforeign.2
      obtain ⟨-, heffect⟩ := hinv.deallocate hl howner hok
      cases heffect with
      | @own type p alloc' hu hp hown hfrees =>
        have hsame : (w.foreign || owner != owner) = w.foreign := by simp
        rw [hsame]
        exact ⟨hbooks.deallocate hinv hu hl hp hown hfrees, hwhole.deallocate hinv hu hfrees⟩
      | other hne => exact absurd rfl hne
    | reclaim hu hok =>
      rw [hinv.reclaim_eq hu] at hok
      obtain ⟨-, rfl⟩ := Prod.mk.inj (Option.some.inj (Except.ok.inj hok))
      exact ih hforeign

/-- An arena in the bins has a live allocation. -/
theorem Inv.exists_live (h : Inv threads w) (hbooks : BooksHold threads w)
    (hp : w.alloc.HeldBy threads p) : ∃ l ∈ w.live, (w.alloc.heap p).Owns l.memory := by
  have hbalanced := hbooks p hp
  obtain ⟨t, ht, type, hp⟩ := hp
  have hbusy := (h.kind t ht type).holds.busy p hp
  cases hlive : (w.alloc.heap p).liveIn w.live with
  | nil =>
    unfold BooksBalance at hbalanced
    rw [hlive, liveBytes_nil] at hbalanced
    exact absurd hbalanced hbusy
  | cons l rest =>
    have hl : l ∈ (w.alloc.heap p).liveIn w.live := by
      rw [hlive]
      exact List.mem_cons_self
    exact ⟨l, (mem_liveIn.mp hl).1, (mem_liveIn.mp hl).2⟩

/-- Without live allocations the bins hold nothing. -/
theorem Inv.held_eq_nil (h : Inv threads w) (hbooks : BooksHold threads w) (hlive : w.live = [])
    (ht : t ∈ threads) (type : RegionChunkType) : (w.alloc.tlas t).held type = [] := by
  refine List.eq_nil_iff_forall_not_mem.mpr fun p hp => ?_
  obtain ⟨l, hl, -⟩ := h.exists_live hbooks ⟨t, ht, type, hp⟩
  rw [hlive] at hl
  exact List.not_mem_nil hl

end Allocator

end Cuw3
