/-
  `allocate_chunk` and `deallocate_chunk` of any number of threads keep every handle in one place.

  A `pop` that swaps the head has the head it loaded: the versions agree modulo `2^32` and fewer
  than `2^32` updates came since, so none did; the node stayed in the list, and nobody but the owner
  of a node writes its link (`PoolsPlaced.current_of_swap`).  Each access keeps the invariant of
  `Cuw3.Region.Equiv.Custody` (`Guarded.next`), so it holds in every run (`reachable_exclusive`).

  The stack is different.  `bump` adds to a 32-bit top before it looks, so with `2^32` threads over
  the top it wraps around and gives a chunk out again (`not_exclusive_overshoot`).
-/
import Cuw3.Region.Equiv.Custody

namespace Cuw3.RegionChunkAllocator

open Lib RegionChunkAllocatorPools SharedPools

variable {T : Type} [DecidableEq T] {alloc : RegionChunkAllocator} {g g' : Custody T}
  {pools pools' : SharedPools} {r s r' s' h handle : Nat} {t u : T} {worker worker' : Worker}
  {σ : Machine T} {call : AllocateCall} {held : List RegionChunkAllocation} {head : LoadedHead}
  {attempts : Int}

/-! ### Steps -/

/-- A thread changes its own state only. -/
theorem Guarded.locally (hp : PoolsPlaced alloc g σ.shared)
    (hw : ∀ u, WorkerHolds g σ.shared u (σ.locals u)) (ht : WorkerHolds g σ.shared t worker) :
    Guarded alloc (σ.set t σ.shared worker) :=
  Threads.Holds.step hw hp ht fun _ _ h => h

/-- A thread writes to the shared state. -/
theorem Guarded.write (hp : PoolsPlaced alloc g σ.shared)
    (hw : ∀ u, WorkerHolds g σ.shared u (σ.locals u)) (hp' : PoolsPlaced alloc g' pools)
    (ht : WorkerHolds g' pools t worker) (hu : Undisturbed σ.shared pools)
    (hplace : ∀ h, ∀ u, u ≠ t → (g'.place h = .thread u ↔ g.place h = .thread u))
    (hover : ∀ u, u ≠ t → ∀ r s, u ∈ g'.overTop r s ↔ u ∈ g.overTop r s)
    (hlinks : ∀ h, g.place h ≠ .thread t →
      pools.alloc.poolHandles h = σ.shared.alloc.poolHandles h) :
    Guarded alloc (σ.set t pools worker) := by
  refine Threads.Holds.step hw hp' ht fun u hne hwu => ?_
  refine hwu.undisturbed hp hu (fun h => hplace h u hne) (hover u hne) fun h hh => hlinks h ?_
  rintro heq
  rcases hh with hh | hh
  · rw [hh] at heq
    cases heq
  · rw [hh] at heq
    exact hne (Place.thread.inj heq)

/-- The `pop` of a thread goes on after a load of the head. -/
theorem Guarded.popTurn (hp : PoolsPlaced alloc g σ.shared)
    (hw : ∀ u, WorkerHolds g σ.shared u (σ.locals u)) (hin : InCall σ.shared.alloc call)
    (howned : (σ.locals t).owned = held) (hover : ∀ r s, ¬(σ.locals t).Overshoots r s)
    (hok : RegionChunkAllocator.popTurn σ.shared.alloc call held
      (σ.shared.loadHead call.region call.split) attempts = .ok worker) :
    Guarded alloc (σ.set t σ.shared worker) := by
  refine Guarded.locally hp hw ?_
  rcases popTurn_spec hp.layout hin.region_lt hok with hc | ⟨hne, rfl⟩
  · exact (hw t).continues howned hover hc
  · exact (hw t).move (.of_eq howned.symm)
      (fun r s => iff_of_false (Worker.not_overshoots (by simp) r s) (hover r s))
      ⟨hin, hp.loaded hin.region_lt hin.split_lt, hne⟩

/-- `pop` takes the first node. -/
theorem Guarded.popSwap (hp : PoolsPlaced alloc g σ.shared)
    (hw : ∀ u, WorkerHolds g σ.shared u (σ.locals u)) {next : Nat}
    (hlocal : σ.locals t = ⟨.popSwap call head attempts next, held⟩)
    (hpaced : (σ.locals t).Paced σ.shared)
    (hswap : (σ.shared.entry call.region call.split).freeList = head.toRegionChunkPoolListHead)
    (hok : finishList σ.shared.alloc call held head.next = .ok worker) :
    Guarded alloc (σ.set t
      (σ.shared.updateHead call.region call.split ⟨u32 (head.version + 1), next⟩) worker) := by
  have ht := hw t
  rw [hlocal] at ht hpaced
  have hpc := ht.pc
  obtain ⟨hversion, rfl⟩ := hp.current_of_swap hpc hpaced hswap
  obtain ⟨hin, -, hne, -⟩ := hpc
  have hnext : head.next = (σ.shared.entry call.region call.split).freeList.next := by rw [hswap]
  rw [hversion, hnext]
  rw [hnext] at hne hok
  obtain ⟨hinSplit, hlisted⟩ := hp.listed hin.region_lt hin.split_lt hne
  have hnot : ∀ u, g.place (σ.shared.entry call.region call.split).freeList.next ≠ .thread u := by
    intro u hu
    rw [hlisted] at hu
    cases hu
  have hreturns := finishList_returns hp.layout hinSplit hok
  refine Guarded.write hp hw (hp.pop hin.region_lt hin.split_lt hne t)
    (ht.receive rfl (Worker.not_overshoots (by simp)) (hnot t) hreturns
      undisturbed_updateHead.same) undisturbed_updateHead (fun h u hu => ?_)
        (fun _ _ _ _ => Iff.rfl)
    fun _ _ => rfl
  exact Custody.move_iff (hnot u) (fun heq => hu (Place.thread.inj heq).symm) h

/-- `bump` takes the top of the stack, or goes over it. -/
theorem Guarded.bumpAdd (hp : PoolsPlaced alloc g σ.shared)
    (hw : ∀ u, WorkerHolds g σ.shared u (σ.locals u))
    (hlocal : σ.locals t = ⟨.bumpAdd call, held⟩)
    (hfew : FewOvershoot (σ.set t pools worker))
    (hok : Worker.next σ.shared ⟨.bumpAdd call, held⟩ = .ok (pools, worker)) :
    Guarded alloc (σ.set t pools worker) := by
  have ht := hw t
  rw [hlocal] at ht
  have hin : InCall σ.shared.alloc call := ht.pc
  simp only [Worker.next] at hok
  split at hok
  · rename_i hlt
    simp only [bind_eq_ok, pure_eq_ok, Prod.mk.injEq] at hok
    obtain ⟨worker, hok, rfl, rfl⟩ := hok
    obtain ⟨hinSplit, hstack, hbump⟩ := hp.bump hin.region_lt hin.split_lt hlt t
    have hnot : ∀ u, g.place (σ.shared.entry call.region call.split).freeStack ≠ .thread u := by
      intro u hu
      rw [hstack] at hu
      cases hu
    have hreturns := finishStack_returns hp.layout hinSplit hok
    refine Guarded.write hp hw hbump (ht.receive rfl (Worker.not_overshoots (by simp)) (hnot t)
      hreturns undisturbed_storeTop.same) undisturbed_storeTop (fun h u hu => ?_)
      (fun _ _ _ _ => Iff.rfl) fun _ _ => rfl
    exact Custody.move_iff (hnot u) (fun heq => hu (Place.thread.inj heq).symm) h
  · rename_i hle
    simp only [pure_eq_ok, Prod.mk.injEq] at hok
    obtain ⟨rfl, rfl⟩ := hok
    have hnot : t ∉ g.overTop call.region call.split := fun hmem =>
      Worker.not_overshoots (by simp) _ _ ((ht.overTop _ _).mp hmem)
    -- the threads over the top of this stack, with the one that joins them
    have hset : ∀ u, ((σ.set t (σ.shared.storeTop call.region call.split
        (u32 ((σ.shared.entry call.region call.split).freeStack + 1)))
        ⟨.bumpSub call, held⟩).locals u).Overshoots call.region call.split ↔
          u ∈ insert t (g.overTop call.region call.split) := by
      intro u
      by_cases hu : u = t
      · subst hu
        simp only [Threads.set_locals_self, Finset.mem_insert_self, iff_true]
        exact ⟨call, rfl, rfl, rfl⟩
      · rw [Threads.set_locals_of_ne hu, Finset.mem_insert, or_iff_right hu, (hw u).overTop]
    have hcard := hfew call.region call.split
    simp only [hset, Finset.setOfPred_mem, Set.encard_coe_eq_coe_finsetCard] at hcard
    have hu : Undisturbed σ.shared (σ.shared.storeTop call.region call.split
      (u32 ((σ.shared.entry call.region call.split).freeStack + 1))) := undisturbed_storeTop
    refine Guarded.write hp hw (hp.overshoot hin.region_lt hin.split_lt (not_lt.mp hle) hnot
      (by exact_mod_cast hcard))
        ⟨ht.place, ht.nodup, fun c hc => hu.same.placed.mpr (ht.placed c hc),
        fun r s => ?_, hu.same.inCall hin⟩ hu (fun _ _ _ => Iff.rfl) (fun u hu r s => ?_) fun _ _ =>
          rfl
    · by_cases heq : r = call.region ∧ s = call.split
      · obtain ⟨rfl, rfl⟩ := heq
        rw [Custody.withOverTop_self]
        exact iff_of_true (Finset.mem_insert_self _ _) ⟨call, rfl, rfl, rfl⟩
      · rw [Custody.withOverTop_of_ne heq, ht.overTop]
        refine iff_of_false (Worker.not_overshoots (by simp) r s) ?_
        rintro ⟨call', hcall, rfl, rfl⟩
        cases hcall
        exact heq ⟨rfl, rfl⟩
    · by_cases heq : r = call.region ∧ s = call.split
      · obtain ⟨rfl, rfl⟩ := heq
        rw [Custody.withOverTop_self, Finset.mem_insert, or_iff_right hu]
      · rw [Custody.withOverTop_of_ne heq]

/-- `bump` takes its step over the top back. -/
theorem Guarded.bumpSub (hp : PoolsPlaced alloc g σ.shared)
    (hw : ∀ u, WorkerHolds g σ.shared u (σ.locals u))
    (hlocal : σ.locals t = ⟨.bumpSub call, held⟩)
    (hok : finishStack σ.shared.alloc call held regionChunkPoolNullLink = .ok worker) :
    Guarded alloc (σ.set t (σ.shared.storeTop call.region call.split
      (u32 ((σ.shared.entry call.region call.split).freeStack + (2 ^ 32 - 1)))) worker) := by
  have ht := hw t
  rw [hlocal] at ht
  have hin : InCall σ.shared.alloc call := ht.pc
  have hmem : t ∈ g.overTop call.region call.split := (ht.overTop _ _).mpr ⟨call, rfl, rfl, rfl⟩
  have hu : Undisturbed σ.shared (σ.shared.storeTop call.region call.split
    (u32 ((σ.shared.entry call.region call.split).freeStack + (2 ^ 32 - 1)))) :=
      undisturbed_storeTop
  have hc := (finishStack_null hp.layout hin.region_lt hok).same hu.same
  obtain ⟨howned, hover, hpc⟩ := hc.spec
  have howned : worker.owned = held := howned
  refine Guarded.write hp hw (hp.settle hin.region_lt hin.split_lt hmem) ⟨fun h => ?_, ?_,
    fun c hcm => hu.same.placed.mpr (ht.placed c ?_), fun r s => ?_, hpc⟩ hu (fun _ _ _ => Iff.rfl)
    (fun u hne r s => ?_) fun _ _ => rfl
  · rw [Worker.handles, howned]
    exact ht.place h
  · rw [Worker.handles, howned]
    exact ht.nodup
  · rw [howned] at hcm
    exact hcm
  · refine iff_of_false (fun hmem' => ?_) (hover r s)
    by_cases heq : r = call.region ∧ s = call.split
    · obtain ⟨rfl, rfl⟩ := heq
      rw [Custody.withOverTop_self] at hmem'
      exact Finset.notMem_erase t _ hmem'
    · rw [Custody.withOverTop_of_ne heq, ht.overTop] at hmem'
      obtain ⟨call', hcall, rfl, rfl⟩ := hmem'
      cases hcall
      exact heq ⟨rfl, rfl⟩
  · by_cases heq : r = call.region ∧ s = call.split
    · obtain ⟨rfl, rfl⟩ := heq
      rw [Custody.withOverTop_self, Finset.mem_erase, and_iff_right hne]
    · rw [Custody.withOverTop_of_ne heq]

/-- `push` sets the link of the thread's node. -/
theorem Guarded.pushNext (hp : PoolsPlaced alloc g σ.shared)
    (hw : ∀ u, WorkerHolds g σ.shared u (σ.locals u)) {chunk : RegionChunkAllocation}
    (hlocal : σ.locals t = ⟨.pushNext chunk head, held⟩)
    (hok : σ.shared.setNext chunk.handle head.next = .ok pools) :
    Guarded alloc (σ.set t pools ⟨.pushSwap chunk head, held⟩) := by
  have ht := hw t
  rw [hlocal] at ht
  have hown : g.place chunk.handle = .thread t := (ht.place _).mpr List.mem_cons_self
  have hu := undisturbed_setNext hok
  have hlinks := setNext_spec hok
  refine Guarded.write hp hw (hp.setNext (fun hlist => ?_) hok) ⟨ht.place, ht.nodup,
    fun c hc => hu.same.placed.mpr (ht.placed c hc),
    fun r s => (ht.overTop r s).trans (iff_of_false (Worker.not_overshoots (by simp) r s)
      (Worker.not_overshoots (by simp) r s)), hu.loaded ht.pc, ?_⟩ hu (fun _ _ _ => Iff.rfl)
    (fun _ _ _ _ => Iff.rfl) fun h hne => ?_
  · rw [hown] at hlist
    cases hlist
  · rw [hlinks]
    exact Function.update_self ..
  · rw [hlinks]
    refine Function.update_of_ne ?_ _ _
    rintro rfl
    exact hne hown

/-- `push` makes the thread's node the first one. -/
theorem Guarded.pushSwap (hp : PoolsPlaced alloc g σ.shared)
    (hw : ∀ u, WorkerHolds g σ.shared u (σ.locals u)) {chunk : RegionChunkAllocation}
    (hlocal : σ.locals t = ⟨.pushSwap chunk head, held⟩)
    (hswap : (σ.shared.entry chunk.region chunk.split).freeList = head.toRegionChunkPoolListHead) :
    Guarded alloc (σ.set t
      (σ.shared.updateHead chunk.region chunk.split ⟨u32 (head.version + 1), chunk.handle⟩)
      ⟨.idle, held⟩) := by
  have ht := hw t
  rw [hlocal] at ht
  obtain ⟨hloaded, hnext⟩ := ht.pc
  have hin := (ht.placed chunk List.mem_cons_self).toInSplit
  have hown : g.place chunk.handle = .thread t := (ht.place _).mpr List.mem_cons_self
  have hsplit := hp.split _ hin.region_lt _ hin.split_lt
  have hversion : u32 (head.version + 1) =
      u32 (σ.shared.updates chunk.region chunk.split + 1) := by
    have hversion := hsplit.version
    rw [hswap] at hversion
    rw [hversion, u32_succ_u32]
  rw [hversion]
  refine Guarded.write hp hw (hp.push hin hown (by rw [hnext, hswap]))
    (ht.give (.refl _) (by simp) undisturbed_updateHead.same (fun r s => iff_of_false
      (Worker.not_overshoots (by simp) r s) (Worker.not_overshoots (by simp) r s)) trivial)
    undisturbed_updateHead (fun h u hne => ?_) (fun _ _ _ _ => Iff.rfl) fun _ _ => rfl
  refine Custody.move_iff (fun heq => ?_) (by simp) h
  rw [hown] at heq
  exact hne (Place.thread.inj heq).symm

/-- **Every access of a thread keeps the invariant.** -/
theorem Guarded.next (hp : PoolsPlaced alloc g σ.shared)
    (hw : ∀ u, WorkerHolds g σ.shared u (σ.locals u)) (hpaced : (σ.locals t).Paced σ.shared)
    (hfew : FewOvershoot (σ.set t pools worker))
    (hok : (σ.locals t).next σ.shared = .ok (pools, worker)) :
    Guarded alloc (σ.set t pools worker) := by
  rcases hlocal : σ.locals t with ⟨pc, held⟩
  have ht := hw t
  rw [hlocal] at ht hok
  have hpc := ht.pc
  have hmove : ∀ {pc' : Pc}, (⟨pc', held⟩ : Worker).owned.Perm (⟨pc, held⟩ : Worker).owned →
      (∀ call, pc ≠ .bumpSub call) → (∀ call, pc' ≠ .bumpSub call) → PcHolds σ.shared pc' →
      Guarded alloc (σ.set t σ.shared ⟨pc', held⟩) := fun hperm hover hover' hpc' =>
    Guarded.locally hp hw (ht.move hperm (fun r s => iff_of_false
      (Worker.not_overshoots hover' r s) (Worker.not_overshoots hover r s)) hpc')
  cases pc with
  | idle =>
    simp only [Worker.next, pure_eq_ok, Prod.mk.injEq] at hok
    obtain ⟨rfl, rfl⟩ := hok
    exact Guarded.locally hp hw ht
  | round call =>
    simp only [Worker.next, bind_eq_ok, pure_eq_ok, Prod.mk.injEq] at hok
    obtain ⟨worker, hok, rfl, rfl⟩ := hok
    exact Guarded.locally hp hw
      (ht.continues rfl (Worker.not_overshoots (by simp)) (startRound_continues hpc hok))
  | popLoad call =>
    simp only [Worker.next, bind_eq_ok, pure_eq_ok, Prod.mk.injEq] at hok
    obtain ⟨worker, hok, rfl, rfl⟩ := hok
    exact Guarded.popTurn hp hw hpc (by rw [hlocal]; rfl)
      (by rw [hlocal]; exact Worker.not_overshoots (by simp)) hok
  | popNext call head attempts =>
    simp only [Worker.next, SharedPools.getNext, bind_eq_ok, check_eq_ok, pure_eq_ok,
      Prod.mk.injEq] at hok
    obtain ⟨next, ⟨-, -, hnext⟩, rfl, rfl⟩ := hok
    obtain ⟨hin, hloaded, hne⟩ := hpc
    exact hmove (.refl _) (by simp) (by simp) ⟨hin, hloaded, hne, fun _ => hnext⟩
  | popSwap call head attempts next =>
    simp only [Worker.next] at hok
    split at hok
    · rename_i hswap
      simp only [bind_eq_ok, pure_eq_ok, Prod.mk.injEq] at hok
      obtain ⟨worker, hok, rfl, rfl⟩ := hok
      exact Guarded.popSwap hp hw hlocal hpaced hswap hok
    · simp only [bind_eq_ok, pure_eq_ok, Prod.mk.injEq] at hok
      obtain ⟨worker, hok, rfl, rfl⟩ := hok
      exact Guarded.popTurn hp hw hpc.1 (by rw [hlocal]; rfl)
        (by rw [hlocal]; exact Worker.not_overshoots (by simp)) hok
  | bumpLoad call =>
    simp only [Worker.next] at hok
    split at hok
    · simp only [bind_eq_ok, pure_eq_ok, Prod.mk.injEq] at hok
      obtain ⟨worker, hok, rfl, rfl⟩ := hok
      exact Guarded.locally hp hw (ht.continues rfl (Worker.not_overshoots (by simp))
        (finishStack_null hp.layout hpc.region_lt hok))
    · simp only [pure_eq_ok, Prod.mk.injEq] at hok
      obtain ⟨rfl, rfl⟩ := hok
      exact hmove (.refl _) (by simp) (by simp) hpc
  | bumpAdd call => exact Guarded.bumpAdd hp hw hlocal hfew hok
  | bumpSub call =>
    simp only [Worker.next, bind_eq_ok, pure_eq_ok, Prod.mk.injEq] at hok
    obtain ⟨worker, hok, rfl, rfl⟩ := hok
    exact Guarded.bumpSub hp hw hlocal hok
  | pushLoad chunk =>
    simp only [Worker.next, pure_eq_ok, Prod.mk.injEq] at hok
    obtain ⟨rfl, rfl⟩ := hok
    have hin := (ht.placed chunk List.mem_cons_self).toInSplit
    exact hmove (.refl _) (by simp) (by simp) (hp.loaded hin.region_lt hin.split_lt)
  | pushNext chunk head =>
    simp only [Worker.next, bind_eq_ok, pure_eq_ok, Prod.mk.injEq] at hok
    obtain ⟨pools, hok, rfl, rfl⟩ := hok
    exact Guarded.pushNext hp hw hlocal hok
  | pushSwap chunk head =>
    simp only [Worker.next] at hok
    split at hok
    · rename_i hswap
      simp only [pure_eq_ok, Prod.mk.injEq] at hok
      obtain ⟨rfl, rfl⟩ := hok
      exact Guarded.pushSwap hp hw hlocal hswap
    · simp only [pure_eq_ok, Prod.mk.injEq] at hok
      obtain ⟨rfl, rfl⟩ := hok
      have hin := (ht.placed chunk List.mem_cons_self).toInSplit
      exact hmove (.refl _) (by simp) (by simp) (hp.loaded hin.region_lt hin.split_lt)

/-! ### Runs -/

theorem startDeallocate_eq {chunk : RegionChunkAllocation}
    (hok : startDeallocate alloc held chunk = .ok worker) : worker = ⟨.pushLoad chunk, held⟩ := by
  simp only [startDeallocate, bind_eq_ok, check_eq_ok, pure_eq_ok] at hok
  obtain ⟨-, -, -, -, -, -, -, -, -, -, rfl⟩ := hok
  rfl

/-- A pointer into the memory of a chunk is looked up as the chunk. -/
theorem ptrToAllocation_of_pointsInto (hl : alloc.Layout) (hm : alloc.Mapped) {ptr : Nat}
    {chunk : RegionChunkAllocation} (hc : alloc.Placed chunk) (hptr : PointsInto alloc ptr chunk) :
    alloc.ptrToAllocation ptr = .ok chunk := by
  obtain ⟨base, size, handle, handleSize, hmemory, hlo, hhi⟩ := hptr
  rw [chunkAllocationToMemory, hc.handle_eq, regionDataToMemory_eq hl.specs hm hc.region_lt
    hc.chunk_lt] at hmemory
  cases hmemory
  have hfirst := hc.first_le
  have hlast := hc.lt_last
  rw [hc.handle_eq] at hfirst hlast
  have hadd : alloc.address chunk.region chunk.chunk
      (ptr - alloc.address chunk.region chunk.chunk 0) = ptr := by
    rw [address] at hlo ⊢
    rw [address]
    omega
  have heq := ptrToAllocation_eq hl.specs hl.pools hm hc.region_lt hc.chunk_lt
    (show ptr - alloc.address chunk.region chunk.chunk 0 < _ by omega) hc.split_lt hfirst hlast
  rw [hadd, ← hc.handle_eq] at heq
  exact heq

/-- A thread starts to free a chunk it holds. -/
theorem Guarded.deallocate (hp : PoolsPlaced alloc g σ.shared)
    (hw : ∀ u, WorkerHolds g σ.shared u (σ.locals u)) {chunk : RegionChunkAllocation}
    (hidle : (σ.locals t).pc = .idle) (hheld : chunk ∈ (σ.locals t).held)
    (hok : startDeallocate σ.shared.alloc ((σ.locals t).held.erase chunk) chunk = .ok worker) :
    Guarded alloc (σ.set t σ.shared worker) := by
  obtain rfl := startDeallocate_eq hok
  have hperm : (⟨.pushLoad chunk, (σ.locals t).held.erase chunk⟩ : Worker).owned.Perm
      (σ.locals t).owned := by
    rw [Worker.owned, Worker.owned, hidle]
    exact (List.perm_cons_erase hheld).symm
  refine Guarded.locally hp hw ((hw t).move hperm (fun r s => iff_of_false
    (Worker.not_overshoots (by simp) r s) (Worker.not_overshoots (by simp [hidle]) r s)) trivial)

/-- A thread passes a chunk it holds on to another thread. -/
theorem Guarded.pass (hp : PoolsPlaced alloc g σ.shared)
    (hw : ∀ v, WorkerHolds g σ.shared v (σ.locals v)) (hne : t ≠ u) {chunk : RegionChunkAllocation}
    (hheld : chunk ∈ (σ.locals t).held) :
    Guarded alloc ((σ.set t σ.shared ⟨(σ.locals t).pc, (σ.locals t).held.erase chunk⟩).set u
      σ.shared
      ⟨(σ.locals u).pc, chunk :: (σ.locals u).held⟩) := by
  have hgive : (σ.locals t).owned.Perm
      (chunk :: (⟨(σ.locals t).pc, (σ.locals t).held.erase chunk⟩ : Worker).owned) :=
    ((List.perm_cons_erase hheld).append_left _).trans List.perm_middle
  have hown : g.place chunk.handle = .thread t :=
    ((hw t).place _).mpr ((hgive.map _).mem_iff.mpr List.mem_cons_self)
  have hother : ∀ v, v ≠ t → g.place chunk.handle ≠ .thread v := by
    intro v hv heq
    rw [hown] at heq
    exact hv (Place.thread.inj heq).symm
  have hin := ((hw t).placed chunk (hgive.mem_iff.mpr List.mem_cons_self)).toInSplit
  refine ⟨g.move chunk.handle (.thread u), ?_, fun v => ?_⟩
  · -- the handle is neither in the stack nor in the list, before and after
    have hiff : ∀ place : Place T, (∀ v, place ≠ .thread v) →
        ∀ h, (g.move chunk.handle (.thread u)).place h = place ↔ g.place h = place := by
      intro place hplace h
      by_cases heq : h = chunk.handle
      · subst heq
        rw [Custody.move_self, hown]
        exact iff_of_false (hplace u).symm (hplace t).symm
      · rw [Custody.move_of_ne heq]
    refine hp.change (.refl _) (r := chunk.region) (s := chunk.split) ?_
      (fun _ _ _ => ⟨rfl, rfl, rfl⟩) (fun h hnotIn => Custody.move_of_ne ?_) (fun _ _ => rfl)
    · exact (hp.split _ hin.region_lt _ hin.split_lt).undisturbed (.refl _) rfl rfl rfl
        (fun h _ => hiff .list (by simp) h) (fun h _ => hiff .stack (by simp) h) (fun _ _ _ => rfl)
    · rintro rfl
      exact hnotIn hin
  · by_cases hvu : v = u
    · subst hvu
      rw [Threads.set_locals_self]
      exact (hw v).take List.perm_middle (hother v hne.symm)
        ((hw t).placed chunk (hgive.mem_iff.mpr List.mem_cons_self)) (.refl _)
        (fun _ _ => Iff.rfl) (hw v).pc
    · rw [Threads.set_locals_of_ne hvu]
      by_cases hvt : v = t
      · subst hvt
        rw [Threads.set_locals_self]
        exact (hw v).give hgive (fun heq => hvu (Place.thread.inj heq).symm) (.refl _)
          (fun _ _ => Iff.rfl) (hw v).pc
      · rw [Threads.set_locals_of_ne hvt]
        exact (hw v).undisturbed hp (.refl _)
          (Custody.move_iff (hother v hvt) fun heq => hvu (Place.thread.inj heq).symm)
          (fun _ _ => Iff.rfl) (fun _ _ => rfl)

/-- Every step keeps the invariant. -/
theorem Guarded.step {σ' : Machine T} (hσ : Guarded alloc σ) (hstep : Step σ σ')
    (hfew : FewOvershoot σ') : Guarded alloc σ' := by
  obtain ⟨g, hp, hw⟩ := hσ
  cases hstep with
  | allocate t region params hidle =>
    have hover : ∀ r s, ¬(σ.locals t).Overshoots r s := Worker.not_overshoots (by simp [hidle])
    have howned : (σ.locals t).owned = (σ.locals t).held := by
      rw [Worker.owned, hidle]
      rfl
    refine Guarded.locally hp hw ((hw t).continues howned hover ?_)
    rw [startAllocate]
    split
    · exact ⟨rfl, trivial⟩
    · rename_i hlt
      exact ⟨rfl, not_le.mp hlt⟩
  | deallocate t chunk worker hidle hheld hok => exact Guarded.deallocate hp hw hidle hheld hok
  | deallocatePtr t chunk ptr worker hidle hheld hptr hok =>
    have hplaced := (hw t).placed chunk (List.mem_append_right _ hheld)
    simp only [startDeallocatePtr, ptrToAllocation_of_pointsInto hp.layout hp.mapped hplaced hptr,
      bind_eq_ok, Except.ok.injEq, check_eq_ok] at hok
    obtain ⟨chunk', rfl, -, -, hok⟩ := hok
    exact Guarded.deallocate hp hw hidle hheld hok
  | next t pools worker hpaced hok => exact Guarded.next hp hw hpaced hfew hok
  | pass t u chunk hne hheld => exact Guarded.pass hp hw hne hheld

omit [DecidableEq T] in
/-- New pools: every handle is on its stack, and no thread has one. -/
theorem guarded_start {contentionSplit : Nat} (hw : alloc.specs.WellFormed) (hm : alloc.Mapped)
    (hcreate : (RegionChunkAllocatorPools.create alloc.specs contentionSplit).Creates alloc.pools) :
    Guarded alloc (⟨⟨alloc, fun _ _ => 0⟩, fun _ => ⟨.idle, []⟩⟩ : Machine T) := by
  obtain ⟨hholds, -⟩ := poolsHold_of_create hw hcreate
  refine ⟨⟨fun _ => .stack, fun _ _ => ∅⟩, ⟨hholds.toLayout, hm, .refl _, fun r hr s hs => ?_⟩,
    fun t => ⟨by simp [Worker.handles, Worker.owned, Pc.pushed], List.nodup_nil,
      by simp [Worker.owned, Pc.pushed], fun r s => ?_, trivial⟩⟩
  · obtain ⟨hlist, hstack⟩ := poolEntries_of_create hw hcreate hr hs
    have hsplit := hholds.split r hr s hs
    refine ⟨⟨[], ?_, List.nodup_nil, by simp⟩, ?_,
      ⟨(alloc.pools.poolEntries r s).firstHandle, le_rfl,
      ?_, hstack, by simp, fun h hin => ?_⟩, by simp⟩
    · rw [FreeList, SharedPools.entry, hlist]
      rfl
    · rw [SharedPools.entry, hlist]
      rfl
    · exact hsplit.first_le.trans hsplit.le_last
    · simp [hin.first_le]
  · exact iff_of_false (by simp) (Worker.not_overshoots (by simp) r s)

/-- A thread makes its next access. -/
theorem Reachable.next {P : Machine T → Prop} (h : Reachable alloc P σ)
    (hlocal : σ.locals t = worker) (hpaced : worker.Paced σ.shared)
    (hok : worker.next σ.shared = .ok (pools, worker')) (hP : P (σ.set t pools worker')) :
    Reachable alloc P (σ.set t pools worker') := by
  subst hlocal
  exact h.step (.next t pools worker' hpaced hok) hP

/-- The thread that made the last step makes another one. -/
theorem Reachable.again {P : Machine T → Prop} (h : Reachable alloc P (σ.set t pools worker))
    (hpaced : worker.Paced pools) (hok : worker.next pools = .ok (pools', worker'))
    (hP : P (σ.set t pools' worker')) : Reachable alloc P (σ.set t pools' worker') := by
  rw [← Threads.set_set (σ := σ) (s := pools) (l := worker)] at hP ⊢
  exact h.next Threads.set_locals_self hpaced hok hP

/-! ### One chunk -/

/-- One region of one chunk. -/
def loneConfig : RegionChunkAllocatorSpecsConfig :=
  { regionSizes := [4], regionChunkSizes := [4], handleSize := 128, regionAlignment := 8
    handleAlignment := 8 }

/-- The layout of `loneConfig`. -/
def loneSpecs : RegionChunkAllocatorSpecs :=
  { regionSpecs := [⟨0, 16, 4, 7, 0, 1⟩], chunkSizeSearchSentinels := [16]
    regionSearchSentinels := [16], totalRegionsSize := 16, regionAlignment := 8, regionSize := 16
    regionSizeLog2 := 4, numRegions := 1, totalHandlesSize := 128, handleAlignment := 8
    handleSize := 128, handleSizeLog2 := 7, numHandles := 1 }

/-- An allocator over it with one split. -/
def loneAllocator : RegionChunkAllocator :=
  { specs := loneSpecs, pools := .build loneSpecs 1, regions := 4096, handles := 8192
    poolHandles := fun _ => regionChunkPoolNullLink }

/-- The pools of `loneAllocator` with another top of the stack. -/
def lonePools (top : Nat) : SharedPools := SharedPools.storeTop ⟨loneAllocator, fun _ _ => 0⟩ 0 0
    top

def loneParams : RegionChunkAllocParams := ⟨4, -1, 0, 1⟩

def loneCall : AllocateCall := ⟨0, loneParams, 4, 0, 0, false⟩

theorem lonePools_zero : lonePools 0 = ⟨loneAllocator, fun _ _ => 0⟩ := by
  have hself : (SharedPools.mk loneAllocator fun _ _ => 0).alloc.pools.withEntry 0 0
      { (SharedPools.mk loneAllocator fun _ _ => 0).entry 0 0 with freeStack := 0 } =
        loneAllocator.pools := by
    have hentry : ({ (SharedPools.mk loneAllocator fun _ _ => 0).entry 0 0 with freeStack := 0 } :
      RegionPoolEntry) = loneAllocator.pools.poolEntries 0 0 := rfl
    rw [hentry]
    simp [RegionChunkAllocatorPools.withEntry]
  rw [lonePools, storeTop, SharedPools.withEntry, hself]

theorem lonePools_storeTop (top top' : Nat) : (lonePools top).storeTop 0 0 top' =
    lonePools top' := by
  simp [lonePools, storeTop, SharedPools.withEntry, SharedPools.entry,
    RegionChunkAllocatorPools.withEntry]

theorem lone_entry (top : Nat) : (lonePools top).entry 0 0 =
    ⟨⟨0, regionChunkPoolNullLink⟩, top, 0, 1⟩ := by
  rw [lonePools, entry_storeTop_self]
  rfl

theorem lone_specs (top : Nat) : (lonePools top).alloc.specs = loneSpecs := rfl
theorem lone_numRegions (top : Nat) : (lonePools top).alloc.pools.numRegions = 1 := rfl
theorem lone_numSplits (top : Nat) : (lonePools top).alloc.pools.numSplits = 1 := rfl

theorem lone_round (top : Nat) : Worker.next (lonePools top) ⟨.round loneCall, []⟩ =
    .ok (lonePools top, ⟨.popLoad loneCall, []⟩) := by
  simp [Worker.next, startRound, trySplit, nextSplit, lone_specs, lone_numRegions, lone_numSplits,
    loneSpecs, loneCall, loneParams, check_of, assert_of]

theorem lone_popLoad (top : Nat) : Worker.next (lonePools top) ⟨.popLoad loneCall, []⟩ =
    .ok (lonePools top, ⟨.bumpLoad loneCall, []⟩) := by
  have hhead : ((lonePools top).loadHead loneCall.region loneCall.split).next =
    regionChunkPoolNullLink := congrArg (·.freeList.next) (lone_entry top)
  have hturn : popTurn (lonePools top).alloc loneCall []
      ((lonePools top).loadHead loneCall.region loneCall.split) loneCall.params.attempts =
        .ok ⟨.bumpLoad loneCall, []⟩ := by
    rw [popTurn, if_neg (by decide), if_pos hhead]
    rfl
  simp only [Worker.next, hturn]
  rfl

theorem lone_bumpLoad : Worker.next (lonePools 0) ⟨.bumpLoad loneCall, []⟩ =
    .ok (lonePools 0, ⟨.bumpAdd loneCall, []⟩) := by
  simp only [Worker.next]
  rw [show (lonePools 0).entry loneCall.region loneCall.split = _ from lone_entry 0]
  rfl

theorem lone_take : Worker.next (lonePools 0) ⟨.bumpAdd loneCall, []⟩ =
    .ok (lonePools 1, ⟨.idle, [⟨0, 0, 0, 0⟩]⟩) := by
  simp only [Worker.next]
  rw [show (lonePools 0).entry loneCall.region loneCall.split = _ from lone_entry 0]
  rw [if_pos (by decide), show (lonePools 0).storeTop loneCall.region loneCall.split _ =
    _ from lonePools_storeTop 0 _]
  rfl

theorem lone_overshoot {top : Nat} (h : 1 ≤ top) : Worker.next (lonePools top)
    ⟨.bumpAdd loneCall, []⟩ =
    .ok (lonePools (u32 (top + 1)), ⟨.bumpSub loneCall, []⟩) := by
  simp only [Worker.next]
  rw [show (lonePools top).entry loneCall.region loneCall.split = _ from lone_entry top]
  rw [if_neg (not_lt.mpr h), show (lonePools top).storeTop loneCall.region loneCall.split _ =
    _ from lonePools_storeTop top _]
  rfl

/-- `n` threads have found the chunk of the new pools on its stack. -/
def loneLoaded (n : Nat) : Machine Nat :=
  ⟨lonePools 0, fun t => if t < n then ⟨.bumpAdd loneCall, []⟩ else ⟨.idle, []⟩⟩

/-- Then `k` of these have added to the top: the thread `0` got the chunk, the others are over the
top. -/
def loneAdded (n k : Nat) : Machine Nat :=
  ⟨lonePools (u32 k), fun t => if t = 0 then ⟨.idle, [⟨0, 0, 0, 0⟩]⟩
    else if t < k then ⟨.bumpSub loneCall, []⟩ else if t < n then ⟨.bumpAdd loneCall, []⟩
    else ⟨.idle, []⟩⟩

theorem loneLoaded_succ (n : Nat) :
    (loneLoaded n).set n (lonePools 0) ⟨.bumpAdd loneCall, []⟩ = loneLoaded (n + 1) := by
  ext1
  · rfl
  · funext t
    by_cases heq : t = n
    · subst heq
      simp [loneLoaded]
    · rw [Threads.set_locals_of_ne heq]
      simp only [loneLoaded]
      have : t < n ↔ t < n + 1 := by omega
      simp only [this]

theorem reachable_loneLoaded {P : Machine Nat → Prop}
    (hP : ∀ σ : Machine Nat, (∀ t call, (σ.locals t).pc ≠ .bumpSub call) → P σ) (n : Nat) :
    Reachable loneAllocator P (loneLoaded n) := by
  induction n with
  | zero =>
    have hstart : Reachable loneAllocator P _ := .start
    rw [← lonePools_zero] at hstart
    exact hstart
  | succ n ih =>
    have hcalm : ∀ pools worker, (∀ call, worker.pc ≠ .bumpSub call) →
        P ((loneLoaded n).set n pools worker) := by
      refine fun pools worker hworker => hP _ fun t call => ?_
      by_cases heq : t = n
      · subst heq
        rw [Threads.set_locals_self]
        exact hworker call
      · rw [Threads.set_locals_of_ne heq]
        simp only [loneLoaded]
        split <;> simp
    have hround := ih.step (.allocate n 0 loneParams (by simp [loneLoaded]))
      (hcalm _ _ (by simp [startAllocate]; split <;> simp))
    have hstart : startAllocate (loneLoaded n).shared.alloc ((loneLoaded n).locals n).held 0
        loneParams = ⟨.round loneCall, []⟩ := by
      simp [loneLoaded]
      rfl
    rw [hstart] at hround
    have hload := hround.again trivial (lone_round 0) (hcalm _ _ (by simp))
    have hbump := hload.again trivial (lone_popLoad 0) (hcalm _ _ (by simp))
    have hadd := hbump.again trivial lone_bumpLoad (hcalm _ _ (by simp))
    rwa [loneLoaded_succ] at hadd

theorem loneAdded_one {n : Nat} :
    (loneLoaded n).set 0 (lonePools 1) ⟨.idle, [⟨0, 0, 0, 0⟩]⟩ = loneAdded n 1 := by
  ext1
  · rfl
  · funext t
    by_cases heq : t = 0
    · subst heq
      simp [loneAdded]
    · rw [Threads.set_locals_of_ne heq]
      have hlt : ¬t < 1 := by omega
      simp only [loneLoaded, loneAdded, if_neg heq, if_neg hlt]

theorem loneAdded_succ {n k : Nat} (hk : 1 ≤ k) :
    (loneAdded n k).set k (lonePools (u32 (k + 1))) ⟨.bumpSub loneCall, []⟩ =
    loneAdded n (k + 1) := by
  ext1
  · rfl
  · funext t
    by_cases heq : t = k
    · subst heq
      have hne : t ≠ 0 := by omega
      simp [loneAdded, hne]
    · rw [Threads.set_locals_of_ne heq]
      have hlt : t < k ↔ t < k + 1 := by omega
      simp only [loneAdded, hlt]

/-- The thread that adds first gets the chunk. -/
theorem reachable_loneAdded_one {P : Machine Nat → Prop}
    (hP : ∀ σ : Machine Nat, (∀ t call, (σ.locals t).pc ≠ .bumpSub call) → P σ) {n : Nat}
    (hn : 0 < n) :
    Reachable loneAllocator P (loneAdded n 1) := by
  rw [← loneAdded_one]
  refine (reachable_loneLoaded hP n).next (if_pos hn) trivial lone_take (hP _ fun t call => ?_)
  rw [loneAdded_one]
  simp only [loneAdded]
  have hlt : t = 0 ∨ ¬t < 1 := by omega
  rcases hlt with rfl | hlt
  · simp
  · simp only [if_neg hlt]
    split
    · simp
    · split <;> simp

/-- The others go over the top, one after the other. -/
theorem reachable_loneAdded {n : Nat} : ∀ {k : Nat}, 1 ≤ k → k ≤ 2 ^ 32 → k ≤ n →
    Reachable loneAllocator (fun _ => True) (loneAdded n k) := by
  intro k hk
  induction k, hk using Nat.le_induction with
  | base => exact fun _ hn => reachable_loneAdded_one (fun _ _ => trivial) hn
  | succ k hk ih =>
    intro hlt hn
    rw [← loneAdded_succ hk]
    have hlocal : (loneAdded n k).locals k = ⟨.bumpAdd loneCall, []⟩ := by
      have hne : k ≠ 0 := by omega
      have hkn : k < n := hn
      simp [loneAdded, hne, hkn]
    have htop : u32 k = k := u32_of_lt (by omega)
    have hover := lone_overshoot hk
    refine (ih (by omega) (by omega)).next hlocal trivial ?_ trivial
    change Worker.next (lonePools (u32 k)) _ = _
    rw [htop]
    exact hover

/-! ### Exclusivity in every run -/

/-- **No chunk is handed to two threads, and none is lost**: from new pools, in any interleaving of
the accesses of any number of threads in which fewer than `2^32` updates hit a list head between a
load and its compare-exchange, and fewer than `2^31` threads overshoot a stack at a time, every
handle is in exactly one place, and every chunk a thread was given is a chunk of the layout. -/
theorem reachable_exclusive {config : RegionChunkAllocatorSpecsConfig} {contentionSplit : Nat}
    (hspecs : (RegionChunkAllocatorSpecs.create config).Creates alloc.specs)
    (hpools : (RegionChunkAllocatorPools.create alloc.specs contentionSplit).Creates alloc.pools)
    (hfits : alloc.specs.Fits) (hm : alloc.Mapped) (h : Reachable alloc FewOvershoot σ) :
    Exclusive σ := by
  have hw := RegionChunkAllocatorSpecs.create_wellFormed hspecs hfits
  have hguarded : Guarded alloc σ := by
    induction h with
    | start => exact guarded_start hw hm hpools
    | step _ hstep hfew ih => exact ih.step hstep hfew
  exact hguarded.exclusive

theorem reachable_exclusive_lone : Exclusive (loneAdded 1 1) := by
  have hspecs : (RegionChunkAllocatorSpecs.create loneConfig).Creates loneAllocator.specs := rfl
  have hpools : (RegionChunkAllocatorPools.create loneAllocator.specs 1).Creates
      loneAllocator.pools := rfl
  refine reachable_exclusive hspecs hpools ⟨by decide, by decide⟩ ⟨by decide, by decide, by decide⟩
    (reachable_loneAdded_one (fun σ hσ r s => ?_) one_pos)
  have hnone : { t | (σ.locals t).Overshoots r s } = ∅ :=
    Set.eq_empty_of_forall_notMem fun t ⟨call, hcall, _⟩ => hσ t call hcall
  rw [hnone, Set.encard_empty]
  exact_mod_cast Nat.two_pow_pos 31

/-- **With `2^32` threads over the top, the stack starts again**: the thread that comes next gets
the chunk that the thread `0` has. -/
theorem not_exclusive_overshoot :
    ¬∀ (config : RegionChunkAllocatorSpecsConfig) (contentionSplit : Nat)
      (alloc : RegionChunkAllocator) (σ : Machine Nat),
      (RegionChunkAllocatorSpecs.create config).Creates alloc.specs →
      (RegionChunkAllocatorPools.create alloc.specs contentionSplit).Creates alloc.pools →
      alloc.specs.Fits → alloc.Mapped → Reachable alloc (fun _ => True) σ → Exclusive σ := by
  intro h
  have hreach := reachable_loneAdded (n := 2 ^ 32 + 1) (k := 2 ^ 32) (by omega) le_rfl
    (Nat.le_succ _)
  have hlocal : (loneAdded (2 ^ 32 + 1) (2 ^ 32)).locals (2 ^ 32) = ⟨.bumpAdd loneCall, []⟩ := by
    simp [loneAdded]
  have hok : Worker.next (loneAdded (2 ^ 32 + 1) (2 ^ 32)).shared ⟨.bumpAdd loneCall, []⟩ =
      .ok (lonePools 1, ⟨.idle, [⟨0, 0, 0, 0⟩]⟩) := by
    change Worker.next (lonePools (u32 (2 ^ 32))) _ = _
    rw [show u32 (2 ^ 32) = 0 from Nat.mod_self _]
    exact lone_take
  have hex := h loneConfig 1 loneAllocator _ rfl rfl ⟨by decide, by decide⟩
    ⟨by decide, by decide, by decide⟩ (hreach.next hlocal trivial hok trivial)
  obtain ⟨place, -, hunique⟩ := hex.place 0 (by decide)
  -- both threads hold the handle 0
  have hzero := hunique (.thread 0) (by
    simp only [At]
    rw [Threads.set_locals_of_ne (by norm_num)]
    simp [loneAdded, Worker.handles, Worker.owned, Pc.pushed])
  have hlast := hunique (.thread (2 ^ 32)) (by
    simp only [At]
    rw [Threads.set_locals_self]
    simp [Worker.handles, Worker.owned, Pc.pushed])
  rw [← hlast] at hzero
  exact absurd (Place.thread.inj hzero) (by norm_num)

end Cuw3.RegionChunkAllocator
