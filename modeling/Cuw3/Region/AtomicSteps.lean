/-
  `atomic.hpp` and `region_chunk_allocator.hpp`: `allocate_chunk` and `deallocate_chunk` of any
  number of threads, one atomic access of a list head, a link or a stack top at a time.

  What a call computes between two accesses belongs to the step of the access before it.  The loop
  of `allocate_chunk` starts each turn with a step of its own (`Pc.round`).
-/
import Cuw3.Region.Pools
import Cuw3.Lib.Threads
import Mathlib.Data.Set.Card

namespace Cuw3.RegionChunkAllocator

open Lib

/-! ### Shared state -/

/-- The allocator, and how often each list head was updated, by region and split.  The counters are
not in the source, and no step depends on them. -/
structure SharedPools where
  alloc : RegionChunkAllocator
  updates : Nat → Nat → Nat

/-- A list head as some thread loaded it, and the updates it had then. -/
structure LoadedHead extends RegionChunkPoolListHead where
  seen : Nat

namespace SharedPools

variable (pools : SharedPools) (region split : Nat)

def entry : RegionPoolEntry := pools.alloc.pools.poolEntries region split

/-- `head_ref.load`. -/
def loadHead : LoadedHead := ⟨(pools.entry region split).freeList, pools.updates region split⟩

def withEntry (entry : RegionPoolEntry) : SharedPools :=
  { pools with alloc := { pools.alloc with pools := pools.alloc.pools.withEntry region split entry }
    }

/-- `compare_exchange_strong` of the list head, where it succeeds. -/
def updateHead (freeList : RegionChunkPoolListHead) : SharedPools :=
  { pools.withEntry region split { pools.entry region split with freeList } with
    updates := Function.update pools.updates region
      (Function.update (pools.updates region) split (pools.updates region split + 1)) }

/-- `fetch_add`, `fetch_sub` of the stack top. -/
def storeTop (freeStack : Nat) : SharedPools :=
  pools.withEntry region split { pools.entry region split with freeStack }

/-- `set_next`. -/
def setNext (node next : Nat) : Checked SharedPools := do
  check (node < pools.alloc.specs.numHandles) "invalid link value 'node' passed"
  check (next < pools.alloc.specs.numHandles ∨ next = regionChunkPoolNullLink)
    "invalid link value 'next' passed"
  pure { pools with
    alloc := { pools.alloc with poolHandles := Function.update pools.alloc.poolHandles node next } }

/-- `get_next`. -/
def getNext (node : Nat) : Checked Nat := do
  check (node < pools.alloc.specs.numHandles) "invalid node handle passed"
  pure (pools.alloc.poolHandles node)

end SharedPools

/-! ### Threads -/

/-- The arguments of a call of `allocate_chunk`, and the variables of its loops: `k` is the number
of splits tried in this turn, `split` the one to try. -/
structure AllocateCall where
  region : Nat
  params : RegionChunkAllocParams
  rounds : Int
  k : Nat
  split : Nat
  chunkSeen : Bool

/-- The access a thread is about to make. -/
inductive Pc where
  /-- Between two calls. -/
  | idle
  /-- The head of the loop of `allocate_chunk`; no access. -/
  | round (call : AllocateCall)
  /-- `pop`: the load of the head, `get_next`, the compare-exchange. -/
  | popLoad (call : AllocateCall)
  | popNext (call : AllocateCall) (head : LoadedHead) (attempts : Int)
  | popSwap (call : AllocateCall) (head : LoadedHead) (attempts : Int) (next : Nat)
  /-- `bump`: the load of the top, `fetch_add`, `fetch_sub`. -/
  | bumpLoad (call : AllocateCall)
  | bumpAdd (call : AllocateCall)
  | bumpSub (call : AllocateCall)
  /-- `push`: the load of the head, `set_next`, the compare-exchange. -/
  | pushLoad (chunk : RegionChunkAllocation)
  | pushNext (chunk : RegionChunkAllocation) (head : LoadedHead)
  | pushSwap (chunk : RegionChunkAllocation) (head : LoadedHead)

/-- A thread: its program counter, and the chunks it was given and has not passed on or freed. -/
structure Worker where
  pc : Pc
  held : List RegionChunkAllocation

/-- `curr -= curr > 0`. -/
def countDown (curr : Int) : Int := curr - if 0 < curr then 1 else 0

variable (alloc : RegionChunkAllocator) (pools : SharedPools) (call : AllocateCall)
  (held : List RegionChunkAllocation)

/-- The rest of the turn of `allocate_chunk` once `allocate_chunk_` has returned. -/
def finishRound (allocation : RegionChunkAllocation) : Worker :=
  if allocation.valid then ⟨.idle, allocation :: held⟩
  else if allocation.null then ⟨.round { call with rounds := countDown call.rounds }, held⟩
  else ⟨.round call, held⟩

/-- The head of the loop of `allocate_chunk_`, and the checks of `allocate_from_list`. -/
def trySplit : Checked Worker := do
  if call.k < alloc.pools.numSplits then
    check (call.region < alloc.pools.numRegions) "invalid region"
    check (call.split < alloc.pools.numSplits) "invalid split"
    pure ⟨.popLoad call, held⟩
  else
    pure (finishRound call held
      (if call.chunkSeen then failedRegionChunkAllocation else nullRegionChunkAllocation))

/-- `k++, split = pools->next_split(split, alloc_params.split_step)`. -/
def tryNextSplit : Checked Worker := do
  let split ← alloc.pools.nextSplit call.split call.params.splitStep
  trySplit alloc { call with k := call.k + 1, split } held

/-- `allocate_chunk_` returns the chunk of the handle. -/
def returnChunk (handle : Nat) : Checked Worker := do
  let chunk ← alloc.regionHandleToChunk call.region handle
  pure (finishRound call held ⟨call.region, chunk, handle, call.split⟩)

/-- The rest of the turn of `allocate_chunk_` once `allocate_from_stack` has returned. -/
def finishStack (handle : Nat) : Checked Worker :=
  if handle < alloc.specs.numHandles then returnChunk alloc call held handle
  else tryNextSplit alloc call held

/-- The rest of the turn of `allocate_chunk_` once `allocate_from_list` has returned. -/
def finishList (handle : Nat) : Checked Worker :=
  if handle < alloc.specs.numHandles then returnChunk alloc call held handle
  else if handle = regionChunkAllocatorFailedValue then
    tryNextSplit alloc { call with chunkSeen := true } held
  else if handle = regionChunkAllocatorNullValue then do
    check (call.region < alloc.pools.numRegions) "invalid region"
    check (call.split < alloc.pools.numSplits) "invalid split"
    pure ⟨.bumpLoad call, held⟩
  else tryNextSplit alloc call held

/-- The head of the loop of `pop`. -/
def popTurn (head : LoadedHead) (attempts : Int) : Checked Worker :=
  if attempts = 0 then finishList alloc call held regionChunkPoolFailedAlloc
  else if head.next = regionChunkPoolNullLink then finishList alloc call held
    regionChunkPoolNullLink
  else pure ⟨.popNext call head attempts, held⟩

/-- A turn of the loop of `allocate_chunk`, up to the first access. -/
def startRound : Checked Worker := do
  if call.rounds = 0 then
    return ⟨.idle, held⟩
  assert (call.region < alloc.specs.numRegions) "invalid region value"
  let split ← alloc.pools.nextSplit call.params.splitStart 0
  trySplit alloc { call with k := 0, split, chunkSeen := false } held

/-! ### Steps -/

/-- One access of a thread. -/
def Worker.next (worker : Worker) : Checked (SharedPools × Worker) :=
  let held := worker.held
  match worker.pc with
  | .idle => pure (pools, worker)
  | .round call => do
    pure (pools, ← startRound pools.alloc call held)
  | .popLoad call => do
    pure (pools, ← popTurn pools.alloc call held (pools.loadHead call.region call.split)
      call.params.attempts)
  | .popNext call head attempts => do
    pure (pools, ⟨.popSwap call head attempts (← pools.getNext head.next), held⟩)
  | .popSwap call head attempts next => do
    if (pools.entry call.region call.split).freeList = head.toRegionChunkPoolListHead then
      pure (pools.updateHead call.region call.split ⟨u32 (head.version + 1), next⟩,
        ← finishList pools.alloc call held head.next)
    else
      pure (pools, ← popTurn pools.alloc call held (pools.loadHead call.region call.split)
        (countDown attempts))
  | .bumpLoad call => do
    let entry := pools.entry call.region call.split
    if entry.lastHandle ≤ entry.freeStack then
      pure (pools, ← finishStack pools.alloc call held regionChunkPoolNullLink)
    else
      pure (pools, ⟨.bumpAdd call, held⟩)
  | .bumpAdd call => do
    let entry := pools.entry call.region call.split
    let pools' := pools.storeTop call.region call.split (u32 (entry.freeStack + 1))
    if entry.freeStack < entry.lastHandle then
      pure (pools', ← finishStack pools.alloc call held entry.freeStack)
    else
      pure (pools', ⟨.bumpSub call, held⟩)
  | .bumpSub call => do
    let entry := pools.entry call.region call.split
    pure (pools.storeTop call.region call.split (u32 (entry.freeStack + (2 ^ 32 - 1))),
      ← finishStack pools.alloc call held regionChunkPoolNullLink)
  | .pushLoad chunk =>
    pure (pools, ⟨.pushNext chunk (pools.loadHead chunk.region chunk.split), held⟩)
  | .pushNext chunk head => do
    pure (← pools.setNext chunk.handle head.next, ⟨.pushSwap chunk head, held⟩)
  | .pushSwap chunk head =>
    if (pools.entry chunk.region chunk.split).freeList = head.toRegionChunkPoolListHead then
      pure (pools.updateHead chunk.region chunk.split ⟨u32 (head.version + 1), chunk.handle⟩,
        ⟨.idle, held⟩)
    else
      pure (pools, ⟨.pushNext chunk (pools.loadHead chunk.region chunk.split), held⟩)

/-- `allocate_chunk`, up to its loop. -/
def startAllocate (region : Nat) (params : RegionChunkAllocParams) : Worker :=
  if alloc.specs.numRegions ≤ region then ⟨.idle, held⟩
  else ⟨.round ⟨region, params, params.rounds, 0, 0, false⟩, held⟩

/-- `deallocate_chunk` of a chunk record, up to the first access. -/
def startDeallocate (location : RegionChunkAllocation) : Checked Worker := do
  check (location.region < alloc.specs.numRegions) "invalid region value"
  check (location.split < alloc.pools.numSplits) "invalid split value"
  let spec := alloc.specs.regionSpec location.region
  check (spec.checkChunk location.chunk) "invalid chunk value"
  check (spec.checkHandle location.handle) "invalid handle value"
  check (location.region < alloc.pools.numRegions) "invalid region"
  pure ⟨.pushLoad location, held⟩

/-- `deallocate_chunk` of a pointer, up to the first access. -/
def startDeallocatePtr (ptr : Nat) : Checked Worker := do
  let allocation ← alloc.ptrToAllocation ptr
  check allocation.valid "invalid chunk"
  startDeallocate alloc held allocation

/-! ### Runs -/

/-- The pools and the threads. -/
abbrev Machine (T : Type) : Type := Threads SharedPools T Worker

/-- Fewer than `2^32` updates hit the list head between the load of a thread and its
compare-exchange, which is next. -/
def Worker.Paced (pools : SharedPools) (worker : Worker) : Prop :=
  match worker.pc with
  | .popSwap call head _ _ => pools.updates call.region call.split < head.seen + 2 ^ 32
  | .pushSwap chunk head => pools.updates chunk.region chunk.split < head.seen + 2 ^ 32
  | _ => True

/-- A pointer into the memory of the chunk. -/
def PointsInto (ptr : Nat) (chunk : RegionChunkAllocation) : Prop :=
  ∃ base size handle handleSize,
    alloc.chunkAllocationToMemory chunk = .ok ⟨base, size, handle, handleSize⟩ ∧
      base ≤ ptr ∧ ptr < base + size

/-- One step: a call is started, a thread makes its next access, or a thread passes a chunk it holds
on to another one.  A thread frees only chunks it holds, by their record or by a pointer. -/
inductive Step {T : Type} [DecidableEq T] (σ : Machine T) : Machine T → Prop where
  | allocate (t : T) (region : Nat) (params : RegionChunkAllocParams)
      (hidle : (σ.locals t).pc = .idle) :
      Step σ (σ.set t σ.shared (startAllocate σ.shared.alloc (σ.locals t).held region params))
  | deallocate (t : T) (chunk : RegionChunkAllocation) (worker : Worker)
      (hidle : (σ.locals t).pc = .idle) (hheld : chunk ∈ (σ.locals t).held)
      (hok : startDeallocate σ.shared.alloc ((σ.locals t).held.erase chunk) chunk = .ok worker) :
      Step σ (σ.set t σ.shared worker)
  | deallocatePtr (t : T) (chunk : RegionChunkAllocation) (ptr : Nat) (worker : Worker)
      (hidle : (σ.locals t).pc = .idle) (hheld : chunk ∈ (σ.locals t).held)
      (hptr : PointsInto σ.shared.alloc ptr chunk)
      (hok : startDeallocatePtr σ.shared.alloc ((σ.locals t).held.erase chunk) ptr = .ok worker) :
      Step σ (σ.set t σ.shared worker)
  | next (t : T) (pools : SharedPools) (worker : Worker)
      (hpaced : (σ.locals t).Paced σ.shared)
      (hok : (σ.locals t).next σ.shared = .ok (pools, worker)) :
      Step σ (σ.set t pools worker)
  | pass (t u : T) (chunk : RegionChunkAllocation) (hne : t ≠ u)
      (hheld : chunk ∈ (σ.locals t).held) :
      Step σ ((σ.set t σ.shared ⟨(σ.locals t).pc, (σ.locals t).held.erase chunk⟩).set u σ.shared
        ⟨(σ.locals u).pc, chunk :: (σ.locals u).held⟩)

/-- The thread is between a `fetch_add` that found the stack of the split used up and its
`fetch_sub`. -/
def Worker.Overshoots (worker : Worker) (region split : Nat) : Prop :=
  ∃ call, worker.pc = .bumpSub call ∧ call.region = region ∧ call.split = split

/-- Fewer than `2^31` threads overshoot a stack at the same time. -/
def FewOvershoot {T : Type} (σ : Machine T) : Prop :=
  ∀ region split, { t | (σ.locals t).Overshoots region split }.encard < 2 ^ 31

/-- The runs from new pools whose states all meet `P`. -/
inductive Reachable {T : Type} [DecidableEq T] (alloc : RegionChunkAllocator)
    (P : Machine T → Prop) :
    Machine T → Prop where
  | start : Reachable alloc P ⟨⟨alloc, fun _ _ => 0⟩, fun _ => ⟨.idle, []⟩⟩
  | step {σ σ' : Machine T} : Reachable alloc P σ → Step σ σ' → P σ' → Reachable alloc P σ'

end Cuw3.RegionChunkAllocator
