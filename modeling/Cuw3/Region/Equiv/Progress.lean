/-
  The pools of chunks stop no thread.

  In every reachable state the next access of every thread returns, and a thread can free each chunk
  it holds, by its record or by a pointer into its memory (`reachable_proceeds`).

  `allocate_chunk` does not count a round in which a `pop` was lost to another thread.  It ends all
  the same: a head that is out of date costs a call one round at most, and whoever updates a head
  returns with it.  So of the threads that are in a call, one returns after a bounded number of
  accesses (`reachable_accesses_return`); `Pc.rank` counts them.
-/
import Cuw3.Region.Equiv.AtomicSteps
import Cuw3.Lib.Rank

namespace Cuw3.RegionChunkAllocator

open Lib SharedPools

/-- The call of `allocate_chunk` a thread is in. -/
def Pc.call : Pc → Option AllocateCall
  | .round call => some call
  | .popLoad call => some call
  | .popNext call _ _ => some call
  | .popSwap call _ _ _ => some call
  | .bumpLoad call => some call
  | .bumpAdd call => some call
  | .bumpSub call => some call
  | _ => none

/-! ### What the checks need -/

variable {T : Type} {alloc : RegionChunkAllocator} {pools pools' : SharedPools} {g : Custody T}
  {call : AllocateCall} {held : List RegionChunkAllocation} {handle : Nat} {head : LoadedHead}
  {attempts : Int} {t : T} {worker worker' : Worker} {σ σ' : Machine T}

/-- The step between two splits is one that `next_split` accepts. -/
def AllocateCall.Strides (call : AllocateCall) : Prop :=
  call.params.splitStep = 0 ∨ call.params.splitStep % 2 = 1

/-- The computation does not abort. -/
def Ends {α : Type} (x : Checked α) : Prop := ∃ a, x = .ok a

theorem trySplit_ends (hl : alloc.Layout) (hr : call.region < alloc.specs.numRegions)
    (hs : call.split < alloc.pools.numSplits) : Ends (trySplit alloc call held) := by
  unfold trySplit
  by_cases hk : call.k < alloc.pools.numSplits
  · rw [if_pos hk]
    have hregion : call.region < alloc.pools.numRegions := hl.pools.numRegions.symm ▸ hr
    rw [check_of hregion, ok_bind, check_of hs]
    exact ⟨_, rfl⟩
  · rw [if_neg hk]
    exact ⟨_, rfl⟩

theorem tryNextSplit_ends (hl : alloc.Layout) (hr : call.region < alloc.specs.numRegions)
    (hstep : call.Strides) : Ends (tryNextSplit alloc call held) := by
  rw [tryNextSplit, hl.nextSplit_eq call.split hstep, ok_bind]
  apply trySplit_ends hl
  · exact hr
  · exact visit_lt hl.pools.numSplits_pos _ _ _

theorem startRound_ends (hl : alloc.Layout) (hr : call.region < alloc.specs.numRegions) :
    Ends (startRound alloc call held) := by
  unfold startRound
  split_ifs
  · exact ⟨_, rfl⟩
  · rw [assert_of hr, ok_bind, hl.nextSplit_eq call.params.splitStart (.inl rfl)]
    apply trySplit_ends hl
    · exact hr
    · exact visit_lt hl.pools.numSplits_pos _ _ _

theorem returnChunk_ends (hl : alloc.Layout) (hin : alloc.InSplit call.region call.split handle) :
    Ends (returnChunk alloc call held handle) := by
  rw [returnChunk, regionHandleToChunk_eq hl hin]
  exact ⟨_, rfl⟩

/-- `allocate_from_stack` gave a handle of the split, or none. -/
theorem finishStack_ends (hl : alloc.Layout) (hr : call.region < alloc.specs.numRegions)
    (hstep : call.Strides)
    (hhandle : handle < alloc.specs.numHandles → alloc.InSplit call.region call.split handle) :
    Ends (finishStack alloc call held handle) := by
  unfold finishStack
  split_ifs with hlt
  · exact returnChunk_ends hl (hhandle hlt)
  · exact tryNextSplit_ends hl hr hstep

/-- `allocate_from_list` gave a handle of the split, or none. -/
theorem finishList_ends (hl : alloc.Layout) (hin : InCall alloc call) (hstep : call.Strides)
    (hhandle : handle < alloc.specs.numHandles → alloc.InSplit call.region call.split handle) :
    Ends (finishList alloc call held handle) := by
  have hregion : call.region < alloc.pools.numRegions := hl.pools.numRegions.symm ▸ hin.region_lt
  unfold finishList
  split_ifs with hlt
  · exact returnChunk_ends hl (hhandle hlt)
  · apply tryNextSplit_ends hl
    · exact hin.region_lt
    · exact hstep
  · rw [check_of hregion, ok_bind, check_of hin.split_lt]
    exact ⟨_, rfl⟩
  · exact tryNextSplit_ends hl hin.region_lt hstep

theorem popTurn_ends (hl : alloc.Layout) (hin : InCall alloc call) (hstep : call.Strides) :
    Ends (popTurn alloc call held head attempts) := by
  have hmax := hl.specs.handles_le
  unfold popTurn
  split_ifs
  · apply finishList_ends hl hin hstep
    intro hlt
    rw [regionChunkPoolFailedAlloc] at hlt
    omega
  · exact finishList_ends hl hin hstep fun hlt => absurd hlt (not_lt_of_null hl)
  · exact ⟨_, rfl⟩

/-- The link of a loaded head is a handle, or null. -/
theorem Loaded.next_lt {r s : Nat} (h : Loaded pools r s head) (hl : pools.alloc.Layout) :
    head.next < pools.alloc.specs.numHandles ∨ head.next = regionChunkPoolNullLink := by
  rcases h.next with hnull | hin
  · exact .inr hnull
  · exact .inl (hin.lt_numHandles hl)

/-- **The next access of a thread returns.** -/
theorem WorkerHolds.next_ends (hw : WorkerHolds g pools t worker) (hp : PoolsPlaced alloc g pools)
    (hstep : ∀ call, worker.pc.call = some call → call.Strides) : Ends (worker.next pools) := by
  have hl := hp.layout
  obtain ⟨pc, held⟩ := worker
  have hpc := hw.pc
  cases pc with
  | idle => exact ⟨_, rfl⟩
  | round call =>
    have hends : Ends (startRound pools.alloc call held) := startRound_ends hl hpc
    obtain ⟨worker, hok⟩ := hends
    exact ⟨(pools, worker), by simp only [Worker.next, hok]; rfl⟩
  | popLoad call =>
    have hends : Ends (popTurn pools.alloc call held (pools.loadHead call.region call.split)
        call.params.attempts) := popTurn_ends hl hpc (hstep call rfl)
    obtain ⟨worker, hok⟩ := hends
    exact ⟨(pools, worker), by simp only [Worker.next, hok]; rfl⟩
  | popNext call head attempts =>
    obtain ⟨-, hloaded, hne⟩ := hpc
    have hlt := (hloaded.next_lt hl).resolve_right hne
    have hok : pools.getNext head.next = .ok (pools.alloc.poolHandles head.next) := by
      rw [SharedPools.getNext, check_of hlt]
      rfl
    exact ⟨_, by simp only [Worker.next, hok]; rfl⟩
  | popSwap call head attempts next =>
    obtain ⟨hin, hloaded, hne, -⟩ := hpc
    simp only [Worker.next]
    split_ifs
    · have hends : Ends (finishList pools.alloc call held head.next) :=
        finishList_ends hl hin (hstep call rfl) fun _ => hloaded.next.resolve_left hne
      obtain ⟨worker, hok⟩ := hends
      exact ⟨_, by rw [hok]; rfl⟩
    · have hends : Ends (popTurn pools.alloc call held (pools.loadHead call.region call.split)
          (countDown attempts)) := popTurn_ends hl hin (hstep call rfl)
      obtain ⟨worker, hok⟩ := hends
      exact ⟨_, by rw [hok]; rfl⟩
  | bumpLoad call =>
    simp only [Worker.next]
    split_ifs
    · have hends : Ends (finishStack pools.alloc call held regionChunkPoolNullLink) :=
        finishStack_ends hl hpc.region_lt (hstep call rfl)
          fun hlt => absurd hlt (not_lt_of_null hl)
      obtain ⟨worker, hok⟩ := hends
      exact ⟨_, by rw [hok]; rfl⟩
    · exact ⟨_, rfl⟩
  | bumpAdd call =>
    simp only [Worker.next]
    split_ifs with htop
    · obtain ⟨hin, -, -⟩ := hp.bump hpc.region_lt hpc.split_lt htop t
      have hends : Ends (finishStack pools.alloc call held
          (pools.entry call.region call.split).freeStack) :=
        finishStack_ends hl hpc.region_lt (hstep call rfl) fun _ => hin
      obtain ⟨worker, hok⟩ := hends
      exact ⟨_, by rw [hok]; rfl⟩
    · exact ⟨_, rfl⟩
  | bumpSub call =>
    have hends : Ends (finishStack pools.alloc call held regionChunkPoolNullLink) :=
      finishStack_ends hl hpc.region_lt (hstep call rfl) fun hlt => absurd hlt (not_lt_of_null hl)
    obtain ⟨worker, hok⟩ := hends
    exact ⟨_, by simp only [Worker.next, hok]; rfl⟩
  | pushLoad chunk => exact ⟨_, rfl⟩
  | pushNext chunk head =>
    have hchunk := (hw.placed chunk List.mem_cons_self).toInSplit.lt_numHandles hl
    have hok : Ends (pools.setNext chunk.handle head.next) := by
      rw [SharedPools.setNext, check_of hchunk, ok_bind, check_of (hpc.next_lt hl)]
      exact ⟨_, rfl⟩
    obtain ⟨pools', hok⟩ := hok
    exact ⟨_, by simp only [Worker.next, hok]; rfl⟩
  | pushSwap chunk head =>
    simp only [Worker.next]
    split_ifs
    · exact ⟨_, rfl⟩
    · exact ⟨_, rfl⟩

/-- A chunk of the layout passes the checks of `deallocate_chunk`. -/
theorem startDeallocate_of_placed (hl : alloc.Layout) {chunk : RegionChunkAllocation}
    (hc : alloc.Placed chunk) :
    startDeallocate alloc held chunk = .ok ⟨.pushLoad chunk, held⟩ := by
  obtain ⟨hlo, hhi⟩ := hc.toInSplit.region hl
  have hmax := hl.specs.handles_le
  have hle := hl.specs.handle_le hc.region_lt
  have hregion : chunk.region < alloc.pools.numRegions := hl.pools.numRegions.symm ▸ hc.region_lt
  have hchunk : (alloc.specs.regionSpec chunk.region).checkChunk chunk.chunk = true :=
    decide_eq_true hc.chunk_lt
  have hhandle : (alloc.specs.regionSpec chunk.region).checkHandle chunk.handle = true := by
    rw [RegionSpec.checkHandle, u32_of_lt (by omega)]
    simp [hlo, hhi]
  rw [startDeallocate, check_of hc.region_lt, ok_bind, check_of hc.split_lt, ok_bind]
  simp only [check_of hchunk, check_of hhandle, check_of hregion, ok_bind]
  rfl

/-- No thread is stopped by a check. -/
structure Proceeds (σ : Machine T) : Prop where
  next : ∀ t, Ends ((σ.locals t).next σ.shared)
  deallocate : ∀ t, ∀ chunk ∈ (σ.locals t).held,
    Ends (startDeallocate σ.shared.alloc ((σ.locals t).held.erase chunk) chunk)
  deallocatePtr : ∀ t, ∀ chunk ∈ (σ.locals t).held, ∀ ptr, PointsInto σ.shared.alloc ptr chunk →
    Ends (startDeallocatePtr σ.shared.alloc ((σ.locals t).held.erase chunk) ptr)

theorem Guarded.proceeds (hσ : Guarded alloc σ)
    (hstep : ∀ t call, (σ.locals t).pc.call = some call → call.Strides) : Proceeds σ := by
  obtain ⟨g, hp, hw⟩ := hσ
  have hl := hp.layout
  have hplaced : ∀ t, ∀ chunk ∈ (σ.locals t).held, σ.shared.alloc.Placed chunk :=
    fun t chunk hheld => (hw t).placed chunk (List.mem_append_right _ hheld)
  refine ⟨fun t => (hw t).next_ends hp (hstep t), fun t chunk hheld => ?_,
    fun t chunk hheld ptr hptr => ?_⟩
  · exact ⟨_, startDeallocate_of_placed hl (hplaced t chunk hheld)⟩
  · have hc := hplaced t chunk hheld
    rw [startDeallocatePtr, ptrToAllocation_of_pointsInto hl hp.mapped hc hptr, ok_bind,
      check_of (hc.valid hl), ok_bind]
    exact ⟨_, startDeallocate_of_placed hl hc⟩

variable [DecidableEq T]

theorem Reachable.mono {P Q : Machine T → Prop} (h : Reachable alloc P σ)
    (hPQ : ∀ σ, P σ → Q σ) : Reachable alloc Q σ := by
  induction h with
  | start => exact .start
  | step _ hstep hP ih => exact ih.step hstep (hPQ _ hP)

theorem Reachable.guarded {P : Machine T → Prop} {contentionSplit : Nat}
    (h : Reachable alloc P σ) (hP : ∀ σ, P σ → FewOvershoot σ) (hw : alloc.specs.WellFormed)
    (hm : alloc.Mapped)
    (hpools : (RegionChunkAllocatorPools.create alloc.specs contentionSplit).Creates alloc.pools) :
    Guarded alloc σ := by
  induction h with
  | start => exact guarded_start hw hm hpools
  | step _ hstep hfew ih => exact ih.step hstep (hP _ hfew)

/-- Fewer than `2^31` threads overshoot a stack, and each call steps through the splits in a way
that `next_split` accepts. -/
def Admissible (σ : Machine T) : Prop :=
  FewOvershoot σ ∧ ∀ t call, (σ.locals t).pc.call = some call → call.Strides

/-- **No check stops a thread**: in every state that threads can reach from new pools, the next
access of each returns, and each can free the chunks it holds. -/
theorem reachable_proceeds {config : RegionChunkAllocatorSpecsConfig} {contentionSplit : Nat}
    (hspecs : (RegionChunkAllocatorSpecs.create config).Creates alloc.specs)
    (hpools : (RegionChunkAllocatorPools.create alloc.specs contentionSplit).Creates alloc.pools)
    (hfits : alloc.specs.Fits) (hm : alloc.Mapped) (h : Reachable alloc Admissible σ) :
    Proceeds σ := by
  have hw := RegionChunkAllocatorSpecs.create_wellFormed hspecs hfits
  have hguarded := h.guarded (fun _ hP => hP.1) hw hm hpools
  refine hguarded.proceeds fun t call hcall => ?_
  cases h with
  | start => cases hcall
  | step _ _ hP => exact hP.2 t call hcall

/-- The thread `0` alone over the pools of one chunk. -/
def loneMachine (top : Nat) (worker : Worker) : Machine Nat :=
  Threads.set ⟨lonePools top, fun _ => ⟨.idle, []⟩⟩ 0 (lonePools top) worker

theorem loneMachine_set (top top' : Nat) (worker worker' : Worker) :
    (loneMachine top worker).set 0 (lonePools top') worker' = loneMachine top' worker' :=
  Threads.set_set

theorem fewOvershoot_lone {top : Nat} (hover : ∀ call, worker.pc ≠ .bumpSub call) :
    FewOvershoot (loneMachine top worker) := by
  intro r s
  have hnone : { t | ((loneMachine top worker).locals t).Overshoots r s } = ∅ := by
    refine Set.eq_empty_of_forall_notMem fun t ht => ?_
    by_cases heq : t = 0
    · subst heq
      exact Worker.not_overshoots hover r s ht
    · rw [Set.mem_ofPred_eq, loneMachine, Threads.set_locals_of_ne heq] at ht
      exact Worker.not_overshoots (by simp) r s ht
  rw [hnone, Set.encard_empty]
  exact_mod_cast Nat.two_pow_pos 31

theorem admissible_lone {top : Nat} (hover : ∀ call, worker.pc ≠ .bumpSub call)
    (hstep : ∀ call, worker.pc.call = some call → call.Strides) :
    Admissible (loneMachine top worker) := by
  refine ⟨fewOvershoot_lone hover, fun t call hcall => ?_⟩
  by_cases heq : t = 0
  · subst heq
    exact hstep call hcall
  · rw [loneMachine, Threads.set_locals_of_ne heq] at hcall
    cases hcall

theorem strides_loneCall : loneCall.Strides := .inr rfl

/-- The thread has taken the chunk. -/
theorem reachable_loneMachine :
    Reachable loneAllocator Admissible (loneMachine 1 ⟨.idle, [⟨0, 0, 0, 0⟩]⟩) := by
  have hstrides : ∀ call, some loneCall = some call → call.Strides := by
    intro call hcall
    cases hcall
    exact strides_loneCall
  have hstart : Reachable loneAllocator Admissible
      (⟨⟨loneAllocator, fun _ _ => 0⟩, fun _ => ⟨.idle, []⟩⟩ : Machine Nat) := .start
  rw [← lonePools_zero] at hstart
  have hround : Reachable loneAllocator Admissible (loneMachine 0 ⟨.round loneCall, []⟩) :=
    hstart.step (.allocate 0 0 loneParams rfl) (admissible_lone (by simp) hstrides)
  have hload : Reachable loneAllocator Admissible (loneMachine 0 ⟨.popLoad loneCall, []⟩) :=
    hround.again trivial (lone_round 0) (admissible_lone (by simp) hstrides)
  have hbump : Reachable loneAllocator Admissible (loneMachine 0 ⟨.bumpLoad loneCall, []⟩) :=
    hload.again trivial (lone_popLoad 0) (admissible_lone (by simp) hstrides)
  have hadd : Reachable loneAllocator Admissible (loneMachine 0 ⟨.bumpAdd loneCall, []⟩) :=
    hbump.again trivial lone_bumpLoad (admissible_lone (by simp) hstrides)
  refine hadd.again trivial lone_take (admissible_lone (by simp) ?_)
  intro call hcall
  cases hcall

theorem reachable_proceeds_lone : Proceeds (loneMachine 1 ⟨.idle, [⟨0, 0, 0, 0⟩]⟩) := by
  have hspecs : (RegionChunkAllocatorSpecs.create loneConfig).Creates loneAllocator.specs := rfl
  have hpools : (RegionChunkAllocatorPools.create loneAllocator.specs 1).Creates
      loneAllocator.pools := rfl
  exact reachable_proceeds hspecs hpools ⟨by decide, by decide⟩
    ⟨by decide, by decide, by decide⟩ reachable_loneMachine

/-! ### Accesses between two returns -/

/-- The call is allowed at most so many rounds, and tries the lists. -/
structure AllocateCall.Bounded (rounds : Nat) (call : AllocateCall) : Prop where
  nonneg : 0 ≤ call.rounds
  le : call.rounds ≤ rounds
  attempts : call.params.attempts ≠ 0

/-- The accesses of a round, and its start. -/
def SharedPools.cost (pools : SharedPools) : Nat := 4 * pools.alloc.pools.numSplits + 1

/-- What is left of the call after this round. -/
def AllocateCall.left (pools : SharedPools) (call : AllocateCall) : Nat :=
  (if call.chunkSeen then call.rounds.toNat else call.rounds.toNat - 1) * pools.cost + 1

/-- What is left of the call after this split, where a `pop` has been lost. -/
def AllocateCall.leftSeen (pools : SharedPools) (call : AllocateCall) : Nat :=
  call.rounds.toNat * pools.cost + 1 + 4 * (pools.alloc.pools.numSplits - (call.k + 1))

/-- What is left of the call after this split. -/
def AllocateCall.rest (pools : SharedPools) (call : AllocateCall) : Nat :=
  call.left pools + 4 * (pools.alloc.pools.numSplits - (call.k + 1))

/-- How many accesses a thread makes at most while nobody updates a head, if its calls are allowed
so many rounds. -/
def SharedPools.accesses (pools : SharedPools) (rounds : Nat) : Nat :=
  (rounds + 1) * pools.cost + 5

/-- How many of them are left to the thread. -/
def Pc.rank (rounds : Nat) (pools : SharedPools) : Pc → Nat
  | .idle => pools.accesses rounds
  | .round call => call.rounds.toNat * pools.cost + 1
  | .popLoad call => call.rest pools + 4
  | .popNext call head _ =>
    if (pools.entry call.region call.split).freeList = head.toRegionChunkPoolListHead then 1
    else call.leftSeen pools + 5
  | .popSwap call head _ _ =>
    if (pools.entry call.region call.split).freeList = head.toRegionChunkPoolListHead then 0
    else call.leftSeen pools + 4
  | .bumpLoad call => call.rest pools + 3
  | .bumpAdd call => call.rest pools + 2
  | .bumpSub call => call.rest pools + 1
  | .pushLoad _ => 2
  | .pushNext chunk head =>
    if (pools.entry chunk.region chunk.split).freeList = head.toRegionChunkPoolListHead then 1
    else 3
  | .pushSwap chunk head =>
    if (pools.entry chunk.region chunk.split).freeList = head.toRegionChunkPoolListHead then 0
    else 2

/-- The heads of the lists are as they were. -/
structure SameHeads (pools pools' : SharedPools) : Prop where
  head : ∀ r s, (pools'.entry r s).freeList = (pools.entry r s).freeList
  numSplits : pools'.alloc.pools.numSplits = pools.alloc.pools.numSplits

/-- The call of a thread goes on, and comes closer to its end. -/
structure Nears (pools : SharedPools) (rounds bound : Nat) (pc : Pc) : Prop where
  bounded : ∀ call, pc.call = some call → call.Bounded rounds
  rank_lt : pc.rank rounds pools < bound

variable {rounds bound bound' : Nat} {pc : Pc}

theorem Nears.mono (h : Nears pools rounds bound pc) (hle : bound ≤ bound') :
    Nears pools rounds bound' pc :=
  ⟨h.bounded, h.rank_lt.trans_le hle⟩

omit [DecidableEq T] in
theorem AllocateCall.rest_le (pools : SharedPools) (call : AllocateCall) :
    call.rest pools ≤ call.leftSeen pools := by
  have hle : (if call.chunkSeen then call.rounds.toNat else call.rounds.toNat - 1) ≤
      call.rounds.toNat := by
    split_ifs
    · exact le_rfl
    · exact Nat.sub_le _ _
  have hcost := Nat.mul_le_mul_right pools.cost hle
  unfold rest left leftSeen
  omega

/-- The rank looks at the heads only. -/
theorem SameHeads.rank_eq (h : SameHeads pools pools') (pc : Pc) :
    pc.rank rounds pools' = pc.rank rounds pools := by
  have hcost : pools'.cost = pools.cost := by rw [cost, cost, h.numSplits]
  cases pc <;> simp only [Pc.rank, SharedPools.accesses, AllocateCall.rest, AllocateCall.left,
    AllocateCall.leftSeen, hcost, h.head, h.numSplits]

/-- The head of the loop of `allocate_chunk_`. -/
theorem trySplit_nears (hb : call.Bounded rounds)
    (hok : trySplit pools.alloc call held = .ok worker) :
    Nears pools rounds (call.left pools + 4 * (pools.alloc.pools.numSplits - call.k) + 1)
      worker.pc := by
  unfold trySplit at hok
  by_cases hk : call.k < pools.alloc.pools.numSplits
  · simp only [if_pos hk, bind_eq_ok, check_eq_ok, pure_eq_ok] at hok
    obtain ⟨-, -, -, -, rfl⟩ := hok
    refine ⟨fun call' hcall => ?_, ?_⟩
    · cases hcall
      exact hb
    · show call.rest pools + 4 < _
      unfold AllocateCall.rest
      omega
  · rw [if_neg hk] at hok
    cases hok
    cases hseen : call.chunkSeen with
    | true =>
      refine ⟨fun call' hcall => ?_, ?_⟩
      · cases hcall
        exact hb
      · show call.rounds.toNat * pools.cost + 1 < _
        rw [AllocateCall.left, hseen, if_pos rfl]
        omega
    | false =>
      have hnonneg := hb.nonneg
      have hle := hb.le
      -- the round is counted
      have hcount : 0 ≤ countDown call.rounds ∧ countDown call.rounds ≤ rounds ∧
          (countDown call.rounds).toNat = call.rounds.toNat - 1 := by
        unfold countDown
        split_ifs <;> omega
      obtain ⟨hnonneg', hle', heq⟩ := hcount
      refine ⟨fun call' hcall => ?_, ?_⟩
      · cases hcall
        exact ⟨hnonneg', hle', hb.attempts⟩
      · show (countDown call.rounds).toNat * pools.cost + 1 < _
        rw [AllocateCall.left, hseen, heq, if_neg Bool.false_ne_true]
        omega

theorem tryNextSplit_nears (hb : call.Bounded rounds)
    (hok : tryNextSplit pools.alloc call held = .ok worker) :
    Nears pools rounds (call.rest pools + 1) worker.pc := by
  simp only [tryNextSplit, bind_eq_ok] at hok
  obtain ⟨split, -, hok⟩ := hok
  have hbounded : AllocateCall.Bounded rounds { call with k := call.k + 1, split } :=
    ⟨hb.nonneg, hb.le, hb.attempts⟩
  exact trySplit_nears hbounded hok

theorem startRound_nears (hb : call.Bounded rounds)
    (hok : startRound pools.alloc call held = .ok worker) :
    worker.pc = .idle ∨ Nears pools rounds (call.rounds.toNat * pools.cost + 1) worker.pc := by
  unfold startRound at hok
  split_ifs at hok with hrounds
  · cases hok
    exact .inl rfl
  · simp only [bind_eq_ok] at hok
    obtain ⟨-, -, split, -, hok⟩ := hok
    have hbounded : AllocateCall.Bounded rounds { call with k := 0, split, chunkSeen := false } :=
      ⟨hb.nonneg, hb.le, hb.attempts⟩
    refine .inr ((trySplit_nears hbounded hok).mono ?_)
    -- this round costs a start and four accesses for each split
    obtain ⟨n, hn⟩ : ∃ n, call.rounds.toNat = n + 1 := by
      have hnonneg := hb.nonneg
      exact ⟨call.rounds.toNat - 1, by omega⟩
    show (call.rounds.toNat - 1) * pools.cost + 1 + 4 * pools.alloc.pools.numSplits + 1 ≤ _
    rw [hn, Nat.add_sub_cancel, Nat.succ_mul n, cost]
    omega

theorem finishStack_nears (hl : pools.alloc.Layout) (hb : call.Bounded rounds)
    (hok : finishStack pools.alloc call held regionChunkPoolNullLink = .ok worker) :
    Nears pools rounds (call.rest pools + 1) worker.pc := by
  rw [finishStack, if_neg (not_lt_of_null hl)] at hok
  exact tryNextSplit_nears hb hok

/-- The head of the loop of `pop`, with a head that is current. -/
theorem popTurn_nears (hl : pools.alloc.Layout) (hb : call.Bounded rounds)
    (hfailed : attempts = 0 → call.leftSeen pools + 1 ≤ bound)
    (hbound : call.rest pools + 4 ≤ bound)
    (hok : popTurn pools.alloc call held (pools.loadHead call.region call.split) attempts =
      .ok worker) : Nears pools rounds bound worker.pc := by
  have hmax := hl.specs.handles_le
  unfold popTurn at hok
  split_ifs at hok with hattempts hnull
  · -- the attempts are used up: the round will not count
    have hlt : ¬regionChunkPoolFailedAlloc < pools.alloc.specs.numHandles := by
      rw [regionChunkPoolFailedAlloc]
      omega
    rw [finishList, if_neg hlt,
      if_pos (show regionChunkPoolFailedAlloc = regionChunkAllocatorFailedValue from rfl)] at hok
    have hbounded : AllocateCall.Bounded rounds { call with chunkSeen := true } :=
      ⟨hb.nonneg, hb.le, hb.attempts⟩
    exact (tryNextSplit_nears hbounded hok).mono (hfailed hattempts)
  · rw [finishList, if_neg (not_lt_of_null hl), if_neg (by decide),
      if_pos (show regionChunkPoolNullLink = regionChunkAllocatorNullValue from rfl)] at hok
    simp only [bind_eq_ok, check_eq_ok, pure_eq_ok] at hok
    obtain ⟨-, -, -, -, rfl⟩ := hok
    refine ⟨fun call' hcall => ?_, ?_⟩
    · cases hcall
      exact hb
    · show call.rest pools + 3 < bound
      omega
  · cases hok
    refine ⟨fun call' hcall => ?_, ?_⟩
    · cases hcall
      exact hb
    · have hcurrent : (pools.entry call.region call.split).freeList =
          (pools.loadHead call.region call.split).toRegionChunkPoolListHead := rfl
      show (if _ then 1 else _) < bound
      rw [if_pos hcurrent]
      omega

omit [DecidableEq T] in
/-- **Where no call returns, no head is updated, and the call comes closer to its end.** -/
theorem WorkerHolds.next_nears (hw : WorkerHolds g pools t worker) (hp : PoolsPlaced alloc g pools)
    (hbusy : worker.pc ≠ .idle) (hb : ∀ call, worker.pc.call = some call → call.Bounded rounds)
    (hok : worker.next pools = .ok (pools', worker')) :
    worker'.pc = .idle ∨
      (SameHeads pools pools' ∧ Nears pools' rounds (worker.pc.rank rounds pools) worker'.pc) := by
  have hl := hp.layout
  have hsame : SameHeads pools pools := ⟨fun _ _ => rfl, rfl⟩
  have hstore : ∀ r s top, SameHeads pools (pools.storeTop r s top) := by
    refine fun r s top => ⟨fun r' s' => ?_, undisturbed_storeTop.same.numSplits⟩
    by_cases heq : r' = r ∧ s' = s
    · rw [heq.1, heq.2, entry_storeTop_self]
    · rw [entry_storeTop_of_ne heq]
  obtain ⟨pc, held⟩ := worker
  have hpc := hw.pc
  cases pc with
  | idle => exact absurd rfl hbusy
  | round call =>
    simp only [Worker.next, bind_eq_ok, pure_eq_ok, Prod.mk.injEq] at hok
    obtain ⟨worker, hok, rfl, rfl⟩ := hok
    exact (startRound_nears (hb call rfl) hok).imp_right fun h => ⟨hsame, h⟩
  | popLoad call =>
    simp only [Worker.next, bind_eq_ok, pure_eq_ok, Prod.mk.injEq] at hok
    obtain ⟨worker, hok, rfl, rfl⟩ := hok
    have hb := hb call rfl
    exact .inr ⟨hsame, popTurn_nears hl hb (fun h => absurd h hb.attempts) le_rfl hok⟩
  | popNext call head attempts =>
    simp only [Worker.next, bind_eq_ok, pure_eq_ok, Prod.mk.injEq] at hok
    obtain ⟨next, -, rfl, rfl⟩ := hok
    refine .inr ⟨hsame, hb, ?_⟩
    show (if _ then 0 else call.leftSeen pools + 4) < if _ then 1 else call.leftSeen pools + 5
    split_ifs
    · exact Nat.one_pos
    · exact Nat.lt_succ_self _
  | popSwap call head attempts next =>
    have hb := hb call rfl
    simp only [Worker.next] at hok
    split_ifs at hok with hswap
    · -- the node goes to the call
      simp only [bind_eq_ok, pure_eq_ok, Prod.mk.injEq] at hok
      obtain ⟨worker, hok, rfl, rfl⟩ := hok
      obtain ⟨hin, -, hne, -⟩ := hpc
      have hnext : head.next = (pools.entry call.region call.split).freeList.next := by rw [hswap]
      rw [hnext] at hne hok
      obtain ⟨chunk, -, -, rfl⟩ :=
        finishList_returns hl (hp.listed hin.region_lt hin.split_lt hne).1 hok
      exact .inl rfl
    · simp only [bind_eq_ok, pure_eq_ok, Prod.mk.injEq] at hok
      obtain ⟨worker, hok, rfl, rfl⟩ := hok
      have hrank : (Pc.popSwap call head attempts next).rank rounds pools =
          call.leftSeen pools + 4 :=
        if_neg hswap
      have hle := call.rest_le pools
      rw [hrank]
      exact .inr ⟨hsame, popTurn_nears hl hb (fun _ => by omega) (by omega) hok⟩
  | bumpLoad call =>
    simp only [Worker.next] at hok
    split_ifs at hok
    · simp only [bind_eq_ok, pure_eq_ok, Prod.mk.injEq] at hok
      obtain ⟨worker, hok, rfl, rfl⟩ := hok
      have hnears := finishStack_nears hl (hb call rfl) hok
      exact .inr ⟨hsame, hnears.mono (show _ ≤ call.rest pools + 3 by omega)⟩
    · simp only [pure_eq_ok, Prod.mk.injEq] at hok
      obtain ⟨rfl, rfl⟩ := hok
      exact .inr ⟨hsame, hb, show call.rest pools + 2 < call.rest pools + 3 by omega⟩
  | bumpAdd call =>
    simp only [Worker.next] at hok
    split_ifs at hok with htop
    · -- the top of the stack goes to the call
      simp only [bind_eq_ok, pure_eq_ok, Prod.mk.injEq] at hok
      obtain ⟨worker, hok, rfl, rfl⟩ := hok
      obtain ⟨hin, -, -⟩ := hp.bump hpc.region_lt hpc.split_lt htop t
      obtain ⟨chunk, -, -, rfl⟩ := finishStack_returns hl hin hok
      exact .inl rfl
    · simp only [pure_eq_ok, Prod.mk.injEq] at hok
      obtain ⟨rfl, rfl⟩ := hok
      refine .inr ⟨hstore _ _ _, hb, ?_⟩
      rw [(hstore _ _ _).rank_eq]
      show call.rest pools + 1 < call.rest pools + 2
      omega
  | bumpSub call =>
    simp only [Worker.next, bind_eq_ok, pure_eq_ok, Prod.mk.injEq] at hok
    obtain ⟨worker, hok, rfl, rfl⟩ := hok
    have hnears := finishStack_nears hl (hb call rfl) hok
    refine .inr ⟨hstore _ _ _, hnears.bounded, ?_⟩
    rw [(hstore _ _ _).rank_eq]
    exact hnears.rank_lt
  | pushLoad chunk =>
    simp only [Worker.next, pure_eq_ok, Prod.mk.injEq] at hok
    obtain ⟨rfl, rfl⟩ := hok
    have hcurrent : (pools.entry chunk.region chunk.split).freeList =
        (pools.loadHead chunk.region chunk.split).toRegionChunkPoolListHead := rfl
    refine .inr ⟨hsame, hb, ?_⟩
    show (if _ then 1 else 3) < 2
    rw [if_pos hcurrent]
    decide
  | pushNext chunk head =>
    simp only [Worker.next, bind_eq_ok, pure_eq_ok, Prod.mk.injEq] at hok
    obtain ⟨pools', hok, rfl, rfl⟩ := hok
    obtain rfl := setNext_spec hok
    have hsame : SameHeads pools { pools with alloc := { pools.alloc with
        poolHandles := Function.update pools.alloc.poolHandles chunk.handle head.next } } :=
      ⟨fun _ _ => rfl, rfl⟩
    refine .inr ⟨hsame, hb, ?_⟩
    rw [hsame.rank_eq]
    show (if _ then 0 else 2) < if _ then 1 else 3
    split_ifs <;> decide
  | pushSwap chunk head =>
    simp only [Worker.next] at hok
    split_ifs at hok with hswap
    · simp only [pure_eq_ok, Prod.mk.injEq] at hok
      obtain ⟨rfl, rfl⟩ := hok
      exact .inl rfl
    · simp only [pure_eq_ok, Prod.mk.injEq] at hok
      obtain ⟨rfl, rfl⟩ := hok
      have hcurrent : (pools.entry chunk.region chunk.split).freeList =
          (pools.loadHead chunk.region chunk.split).toRegionChunkPoolListHead := rfl
      refine .inr ⟨hsame, hb, ?_⟩
      show (if _ then 1 else 3) < if _ then 0 else 2
      rw [if_pos hcurrent, if_neg hswap]
      decide

/-! ### Lock-freedom -/

/-- A step that is no access: a call is started, with at most so many rounds, or a chunk is passed
on. -/
inductive Begins (rounds : Nat) (σ : Machine T) : Machine T → Prop where
  | allocate (t : T) (region : Nat) (params : RegionChunkAllocParams)
      (hidle : (σ.locals t).pc = .idle) (hnonneg : 0 ≤ params.rounds) (hle : params.rounds ≤ rounds)
      (hattempts : params.attempts ≠ 0) :
      Begins rounds σ
        (σ.set t σ.shared (startAllocate σ.shared.alloc (σ.locals t).held region params))
  | deallocate (t : T) (chunk : RegionChunkAllocation) (worker : Worker)
      (hidle : (σ.locals t).pc = .idle) (hheld : chunk ∈ (σ.locals t).held)
      (hok : startDeallocate σ.shared.alloc ((σ.locals t).held.erase chunk) chunk = .ok worker) :
      Begins rounds σ (σ.set t σ.shared worker)
  | deallocatePtr (t : T) (chunk : RegionChunkAllocation) (ptr : Nat) (worker : Worker)
      (hidle : (σ.locals t).pc = .idle) (hheld : chunk ∈ (σ.locals t).held)
      (hptr : PointsInto σ.shared.alloc ptr chunk)
      (hok : startDeallocatePtr σ.shared.alloc ((σ.locals t).held.erase chunk) ptr = .ok worker) :
      Begins rounds σ (σ.set t σ.shared worker)
  | pass (t u : T) (chunk : RegionChunkAllocation) (hne : t ≠ u)
      (hheld : chunk ∈ (σ.locals t).held) :
      Begins rounds σ
        ((σ.set t σ.shared ⟨(σ.locals t).pc, (σ.locals t).held.erase chunk⟩).set u σ.shared
          ⟨(σ.locals u).pc, chunk :: (σ.locals u).held⟩)

theorem Begins.step (h : Begins rounds σ σ') : Step σ σ' := by
  cases h with
  | allocate t region params hidle => exact .allocate t region params hidle
  | deallocate t chunk worker hidle hheld hok => exact .deallocate t chunk worker hidle hheld hok
  | deallocatePtr t chunk ptr worker hidle hheld hptr hok =>
    exact .deallocatePtr t chunk ptr worker hidle hheld hptr hok
  | pass t u chunk hne hheld => exact .pass t u chunk hne hheld

/-- A run, and the accesses in it of threads that are in a call, each with the state it leaves its
thread in. -/
inductive Accesses (rounds : Nat) (σ : Machine T) : List (T × Worker) → Machine T → Prop where
  | start : Accesses rounds σ [] σ
  | begins {accesses : List (T × Worker)} {σ' σ'' : Machine T} (h : Accesses rounds σ accesses σ')
      (hstep : Begins rounds σ' σ'') (hfew : FewOvershoot σ'') : Accesses rounds σ accesses σ''
  | access {accesses : List (T × Worker)} {σ' : Machine T} {t : T} {pools : SharedPools}
      {worker : Worker} (h : Accesses rounds σ accesses σ') (hbusy : (σ'.locals t).pc ≠ .idle)
      (hpaced : (σ'.locals t).Paced σ'.shared)
      (hok : (σ'.locals t).next σ'.shared = .ok (pools, worker))
      (hfew : FewOvershoot (σ'.set t pools worker)) :
      Accesses rounds σ (accesses ++ [(t, worker)]) (σ'.set t pools worker)

omit [DecidableEq T] in
theorem AllocateCall.Bounded.leftSeen_le (h : call.Bounded rounds) (pools : SharedPools) :
    call.leftSeen pools ≤ (rounds + 1) * pools.cost := by
  have hle : call.rounds.toNat ≤ rounds := by
    have hle := h.le
    omega
  have hcost := Nat.mul_le_mul_right pools.cost hle
  rw [leftSeen, Nat.succ_mul rounds]
  unfold cost at hcost ⊢
  omega

omit [DecidableEq T] in
theorem Pc.rank_le (hb : ∀ call, pc.call = some call → call.Bounded rounds) :
    pc.rank rounds pools ≤ pools.accesses rounds := by
  unfold SharedPools.accesses
  have hcall : ∀ call, pc.call = some call → call.leftSeen pools ≤ (rounds + 1) * pools.cost :=
    fun call hcall => (hb call hcall).leftSeen_le pools
  have hrest := AllocateCall.rest_le pools
  cases pc with
  | idle => exact le_rfl
  | round call =>
    have hle := hcall call rfl
    unfold AllocateCall.leftSeen at hle
    show call.rounds.toNat * pools.cost + 1 ≤ _
    omega
  | popLoad call => exact Nat.add_le_add ((hrest call).trans (hcall call rfl)) (by decide)
  | popNext call head attempts =>
    show (if _ then 1 else _) ≤ _
    split_ifs
    · omega
    · exact Nat.add_le_add_right (hcall call rfl) 5
  | popSwap call head attempts next =>
    show (if _ then 0 else _) ≤ _
    split_ifs
    · exact Nat.zero_le _
    · exact Nat.add_le_add (hcall call rfl) (by decide)
  | bumpLoad call => exact Nat.add_le_add ((hrest call).trans (hcall call rfl)) (by decide)
  | bumpAdd call => exact Nat.add_le_add ((hrest call).trans (hcall call rfl)) (by decide)
  | bumpSub call => exact Nat.add_le_add ((hrest call).trans (hcall call rfl)) (by decide)
  | pushLoad chunk => exact (by decide : 2 ≤ 5).trans (Nat.le_add_left _ _)
  | pushNext chunk head =>
    show (if _ then 1 else 3) ≤ _
    split_ifs <;> omega
  | pushSwap chunk head =>
    show (if _ then 0 else 2) ≤ _
    split_ifs <;> omega

/-- The calls under way are allowed at most so many rounds. -/
def AllBounded (rounds : Nat) (σ : Machine T) : Prop :=
  ∀ t call, (σ.locals t).pc.call = some call → call.Bounded rounds

theorem startDeallocatePtr_eq {ptr : Nat}
    (hok : startDeallocatePtr alloc held ptr = .ok worker) :
    ∃ chunk, worker = ⟨.pushLoad chunk, held⟩ := by
  simp only [startDeallocatePtr, bind_eq_ok, check_eq_ok] at hok
  obtain ⟨chunk, -, -, -, hok⟩ := hok
  exact ⟨chunk, startDeallocate_eq hok⟩

theorem Begins.shared (h : Begins rounds σ σ') : σ'.shared = σ.shared := by
  cases h <;> rfl

/-- A thread is where it was, or it was idle and its call is bounded. -/
theorem Begins.pc_cases (h : Begins rounds σ σ') (u : T) :
    (σ'.locals u).pc = (σ.locals u).pc ∨ ((σ.locals u).pc = .idle ∧
      ∀ call, (σ'.locals u).pc.call = some call → call.Bounded rounds) := by
  have hset : ∀ {t : T} {worker : Worker}, (σ.locals t).pc = .idle →
      (∀ call, worker.pc.call = some call → call.Bounded rounds) →
      ((σ.set t σ.shared worker).locals u).pc = (σ.locals u).pc ∨ ((σ.locals u).pc = .idle ∧
        ∀ call, ((σ.set t σ.shared worker).locals u).pc.call = some call →
          call.Bounded rounds) := by
    intro t worker hidle hb
    by_cases hu : u = t
    · subst hu
      rw [Threads.set_locals_self]
      exact .inr ⟨hidle, hb⟩
    · rw [Threads.set_locals_of_ne hu]
      exact .inl rfl
  cases h with
  | allocate t region params hidle hnonneg hle hattempts =>
    refine hset hidle fun call hcall => ?_
    unfold startAllocate at hcall
    split_ifs at hcall
    · cases hcall
    · cases hcall
      exact ⟨hnonneg, hle, hattempts⟩
  | deallocate t chunk worker hidle hheld hok =>
    obtain rfl := startDeallocate_eq hok
    exact hset hidle fun call hcall => by cases hcall
  | deallocatePtr t chunk ptr worker hidle hheld hptr hok =>
    obtain ⟨chunk', rfl⟩ := startDeallocatePtr_eq hok
    exact hset hidle fun call hcall => by cases hcall
  | pass t v chunk hne hheld =>
    refine .inl ?_
    by_cases hv : u = v
    · subst hv
      rw [Threads.set_locals_self]
    · rw [Threads.set_locals_of_ne hv]
      by_cases ht : u = t
      · subst ht
        rw [Threads.set_locals_self]
      · rw [Threads.set_locals_of_ne ht]

theorem Begins.allBounded (h : Begins rounds σ σ') (hb : AllBounded rounds σ) :
    AllBounded rounds σ' := by
  intro u call hcall
  rcases h.pc_cases u with heq | ⟨-, hb'⟩
  · rw [heq] at hcall
    exact hb u call hcall
  · exact hb' call hcall

/-- An access that does not return. -/
def Silent (alloc : RegionChunkAllocator) (rounds : Nat) (t : T) (σ σ' : Machine T) : Prop :=
  Guarded alloc σ ∧ AllBounded rounds σ ∧ (σ.locals t).pc ≠ .idle ∧ ∃ pools worker,
    (σ.locals t).next σ.shared = .ok (pools, worker) ∧ worker.pc ≠ .idle ∧
      σ' = σ.set t pools worker

theorem silent_lowers :
    Lowers (Silent (T := T) alloc rounds) (Begins rounds)
      fun σ t => (σ.locals t).pc.rank rounds σ.shared where
  self := by
    rintro t σ - ⟨⟨g, hp, hw⟩, hb, hbusy, pools, worker, hok, hpc, rfl⟩
    obtain ⟨-, hnears⟩ := ((hw t).next_nears hp hbusy (hb t) hok).resolve_left hpc
    rw [Threads.set_shared, Threads.set_locals_self]
    exact hnears.rank_lt
  other := by
    rintro t u σ - ⟨⟨g, hp, hw⟩, hb, hbusy, pools, worker, hok, hpc, rfl⟩ hu
    obtain ⟨hsame, -⟩ := ((hw t).next_nears hp hbusy (hb t) hok).resolve_left hpc
    rw [Threads.set_shared, Threads.set_locals_of_ne hu]
    exact (hsame.rank_eq _).le
  free := by
    intro u σ σ' hstep
    rw [hstep.shared]
    rcases hstep.pc_cases u with heq | ⟨hidle, hb⟩
    · rw [heq]
    · rw [hidle]
      exact Pc.rank_le hb

/-- Where no call returns, the invariant and the bounds stay. -/
theorem Accesses.moves {accesses : List (T × Worker)} (h : Accesses rounds σ accesses σ')
    (hσ : Guarded alloc σ) (hb : AllBounded rounds σ) (hnone : ∀ x ∈ accesses, x.2.pc ≠ .idle) :
    Moves (Silent alloc rounds) (Begins rounds) σ (accesses.map Prod.fst) σ' ∧
      Guarded alloc σ' ∧ AllBounded rounds σ' := by
  induction h with
  | start => exact ⟨.start, hσ, hb⟩
  | begins _ hstep hfew ih =>
    obtain ⟨hmoves, hguarded, hbounded⟩ := ih hnone
    exact ⟨hmoves.free hstep, hguarded.step hstep.step hfew, hstep.allBounded hbounded⟩
  | @access accesses σ' t pools worker _ hbusy hpaced hok hfew ih =>
    obtain ⟨hmoves, hguarded, hbounded⟩ := ih fun x hx => hnone x (List.mem_append_left _ hx)
    have hpc : worker.pc ≠ .idle :=
      hnone (t, worker) (List.mem_append_right _ List.mem_cons_self)
    obtain ⟨g, hp, hw⟩ := hguarded
    obtain ⟨-, hnears⟩ := ((hw t).next_nears hp hbusy (hbounded t) hok).resolve_left hpc
    refine ⟨?_, Guarded.next hp hw hpaced hfew hok, fun u => ?_⟩
    · rw [List.map_append]
      exact hmoves.step ⟨⟨g, hp, hw⟩, hbounded, hbusy, pools, worker, hok, hpc, rfl⟩
    · by_cases hu : u = t
      · subst hu
        rw [Threads.set_locals_self]
        exact hnears.bounded
      · rw [Threads.set_locals_of_ne hu]
        exact hbounded u

/-- **The pools are lock-free**: in every run, whatever calls begin in it with at most so many
rounds and however the accesses of the threads interleave, among so many accesses for each of the
threads there is one with which a call returns. -/
theorem reachable_accesses_return {config : RegionChunkAllocatorSpecsConfig}
    {contentionSplit : Nat}
    (hspecs : (RegionChunkAllocatorSpecs.create config).Creates alloc.specs)
    (hpools : (RegionChunkAllocatorPools.create alloc.specs contentionSplit).Creates alloc.pools)
    (hfits : alloc.specs.Fits) (hm : alloc.Mapped) (h : Reachable alloc FewOvershoot σ)
    (hcalls : ∀ t call, (σ.locals t).pc.call = some call →
      0 ≤ call.rounds ∧ call.rounds ≤ rounds ∧ call.params.attempts ≠ 0)
    {ts : List T} {accesses : List (T × Worker)} (haccesses : Accesses rounds σ accesses σ')
    (hts : ∀ x ∈ accesses, x.1 ∈ ts)
    (hlong : σ.shared.accesses rounds * ts.length < accesses.length) :
    ∃ x ∈ accesses, x.2.pc = .idle := by
  have hw := RegionChunkAllocatorSpecs.create_wellFormed hspecs hfits
  have hguarded := h.guarded (fun _ hP => hP) hw hm hpools
  have hbounded : AllBounded rounds σ := by
    intro t call hcall
    obtain ⟨hnonneg, hle, hattempts⟩ := hcalls t call hcall
    exact ⟨hnonneg, hle, hattempts⟩
  by_contra hnone
  obtain ⟨hmoves, -, -⟩ := haccesses.moves hguarded hbounded fun x hx hpc => hnone ⟨x, hx, hpc⟩
  have hle := hmoves.labels_length_le silent_lowers hts fun t _ => Pc.rank_le (hbounded t)
  omega

/-- A call with one round. -/
def missCall : AllocateCall := ⟨0, ⟨1, 1, 0, 1⟩, 1, 0, 0, false⟩

/-- The call after its round. -/
def missedCall : AllocateCall := { missCall with k := 1, rounds := 0 }

theorem miss_round : Worker.next (lonePools 1) ⟨.round missCall, held⟩ =
    .ok (lonePools 1, ⟨.popLoad missCall, held⟩) := by
  simp [Worker.next, startRound, trySplit, RegionChunkAllocatorPools.nextSplit, lone_specs,
    lone_numRegions, lone_numSplits, loneSpecs, missCall, check_of, assert_of]

theorem miss_popLoad : Worker.next (lonePools 1) ⟨.popLoad missCall, held⟩ =
    .ok (lonePools 1, ⟨.bumpLoad missCall, held⟩) := by
  have hhead : ((lonePools 1).loadHead missCall.region missCall.split).next =
    regionChunkPoolNullLink := congrArg (·.freeList.next) (lone_entry 1)
  have hturn : popTurn (lonePools 1).alloc missCall held
      ((lonePools 1).loadHead missCall.region missCall.split) missCall.params.attempts =
        .ok ⟨.bumpLoad missCall, held⟩ := by
    rw [popTurn, if_neg (by decide), if_pos hhead]
    rfl
  simp only [Worker.next, hturn]
  rfl

theorem miss_bumpLoad : Worker.next (lonePools 1) ⟨.bumpLoad missCall, held⟩ =
    .ok (lonePools 1, ⟨.round missedCall, held⟩) := by
  simp only [Worker.next]
  rw [show (lonePools 1).entry missCall.region missCall.split = _ from lone_entry 1]
  rfl

theorem miss_end : Worker.next (lonePools 1) ⟨.round missedCall, held⟩ =
    .ok (lonePools 1, ⟨.idle, held⟩) := rfl

/-- A call that finds no chunk. -/
def missAccesses (held : List RegionChunkAllocation) : List (Nat × Worker) :=
  [(0, ⟨.popLoad missCall, held⟩), (0, ⟨.bumpLoad missCall, held⟩), (0, ⟨.round missedCall, held⟩),
    (0, ⟨.idle, held⟩)]

theorem Accesses.again {accesses : List (Nat × Worker)} {σ : Machine Nat} {rounds top top' : Nat}
    (h : Accesses rounds σ accesses (loneMachine top worker)) (hbusy : worker.pc ≠ .idle)
    (hpaced : worker.Paced (lonePools top))
    (hok : worker.next (lonePools top) = .ok (lonePools top', worker'))
    (hover : ∀ call, worker'.pc ≠ .bumpSub call) :
    Accesses rounds σ (accesses ++ [(0, worker')]) (loneMachine top' worker') := by
  have hfew : FewOvershoot (loneMachine top' worker') := fewOvershoot_lone hover
  have hlocal : (loneMachine top worker).locals 0 = worker := Threads.set_locals_self
  rw [← loneMachine_set top top' worker worker'] at hfew ⊢
  refine h.access ?_ ?_ ?_ hfew
  · rw [hlocal]
    exact hbusy
  · rw [hlocal]
    exact hpaced
  · rw [hlocal]
    exact hok

/-- A call that finds no chunk. -/
theorem Accesses.miss {accesses : List (Nat × Worker)} {σ : Machine Nat}
    (h : Accesses 1 σ accesses (loneMachine 1 ⟨.idle, held⟩)) :
    Accesses 1 σ (accesses ++ missAccesses held) (loneMachine 1 ⟨.idle, held⟩) := by
  have hstart : startAllocate (lonePools 1).alloc held 0 missCall.params =
      ⟨.round missCall, held⟩ := rfl
  have hround : Accesses 1 σ accesses (loneMachine 1 ⟨.round missCall, held⟩) := by
    have hfew : FewOvershoot (loneMachine 1 ⟨.round missCall, held⟩) :=
      fewOvershoot_lone (by simp)
    rw [← hstart, ← loneMachine_set 1 1 ⟨.idle, held⟩] at hfew ⊢
    exact h.begins (.allocate 0 0 missCall.params rfl (by decide)
      (show (1 : Int) ≤ (1 : Nat) by decide) (by decide)) hfew
  have hload := hround.again (by simp) trivial miss_round (by simp)
  have hbump := hload.again (by simp) trivial miss_popLoad (by simp)
  have hmissed := hbump.again (by simp) trivial miss_bumpLoad (by simp)
  have hend := hmissed.again (by simp) trivial miss_end (by simp)
  rw [List.append_assoc, List.append_assoc, List.append_assoc] at hend
  exact hend

/-- The thread tries four times to get a second chunk. -/
theorem reachable_accesses_return_lone : ∃ accesses : List (Nat × Worker),
    Accesses 1 (loneMachine 1 ⟨.idle, [⟨0, 0, 0, 0⟩]⟩) accesses
      (loneMachine 1 ⟨.idle, [⟨0, 0, 0, 0⟩]⟩) ∧ ∃ x ∈ accesses, x.2.pc = .idle := by
  have hspecs : (RegionChunkAllocatorSpecs.create loneConfig).Creates loneAllocator.specs := rfl
  have hpools : (RegionChunkAllocatorPools.create loneAllocator.specs 1).Creates
      loneAllocator.pools := rfl
  have hstart : Accesses 1 (loneMachine 1 ⟨.idle, [⟨0, 0, 0, 0⟩]⟩) [] _ := .start
  have haccesses := hstart.miss.miss.miss.miss
  have hreach := reachable_loneMachine.mono fun _ h => h.1
  refine ⟨_, haccesses, reachable_accesses_return hspecs hpools ⟨by decide, by decide⟩
    ⟨by decide, by decide, by decide⟩ hreach (fun t call hcall => ?_) haccesses ?_
    (show _ * [0].length < _ from ?_)⟩
  · by_cases ht : t = 0
    · subst ht
      cases hcall
    · rw [loneMachine, Threads.set_locals_of_ne ht] at hcall
      cases hcall
  · simp [missAccesses]
  · decide

end Cuw3.RegionChunkAllocator
