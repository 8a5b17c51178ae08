/-
  The pools of chunks under any number of threads, one atomic access at a time.

  `Custody` is the ghost state: the place of each handle, and the threads that overshoot each stack.
  `PoolsPlaced` says how the shared state follows it, `WorkerHolds` how each thread does.  A handle
  has one place by the type of `Custody.place`; these two carry that over to the program's own data
  (`Guarded.exclusive`).

  Then what one access does: to the acting thread (`WorkerHolds.move`, `take`, `give`), to the
  shared state (`PoolsPlaced.pop`, `push`, `bump`, `overshoot`, `settle`, `setNext`), and that no
  other thread is disturbed (`WorkerHolds.undisturbed`).
-/
import Cuw3.Region.AtomicSteps
import Cuw3.Region.Equiv.Pools

namespace Cuw3.RegionChunkAllocator

open Lib RegionChunkAllocatorPools

variable {T : Type}

/-! ### Places -/

/-- Where a handle can be: not yet bumped, in the free list of its split, with a thread. -/
inductive Place (T : Type) where
  | stack
  | list
  | thread (t : T)

/-- The chunk a thread is pushing. -/
def Pc.pushed : Pc → List RegionChunkAllocation
  | .pushLoad chunk => [chunk]
  | .pushNext chunk _ => [chunk]
  | .pushSwap chunk _ => [chunk]
  | _ => []

/-- The chunks of a thread: the one it is pushing and those it holds. -/
def Worker.owned (worker : Worker) : List RegionChunkAllocation := worker.pc.pushed ++ worker.held

def Worker.handles (worker : Worker) : List Nat := worker.owned.map RegionChunkAllocation.handle

/-- The nodes of the free list of the split. -/
def FreeList (pools : SharedPools) (r s : Nat) (ps : List Nat) : Prop :=
  Linked regionChunkPoolNullLink pools.alloc.poolHandles (pools.entry r s).freeList.next ps

/-- The handle is at the place, in the program's own data. -/
def At (σ : Machine T) (handle : Nat) : Place T → Prop
  | .stack => ∃ r s, σ.shared.alloc.InSplit r s handle ∧ (σ.shared.entry r s).freeStack ≤ handle
  | .list => ∃ r s, σ.shared.alloc.InSplit r s handle ∧ ∃ ps, FreeList σ.shared r s ps ∧ handle ∈ ps
  | .thread t => handle ∈ (σ.locals t).handles

/-- Every handle is in exactly one place, once, and the chunks of the threads are chunks of the
layout. -/
structure Exclusive (σ : Machine T) : Prop where
  place : ∀ handle < σ.shared.alloc.specs.numHandles, ∃! place, At σ handle place
  list : ∀ r < σ.shared.alloc.specs.numRegions, ∀ s < σ.shared.alloc.pools.numSplits,
    ∃ ps, FreeList σ.shared r s ps ∧ ps.Nodup ∧ ∀ handle ∈ ps, σ.shared.alloc.InSplit r s handle
  thread : ∀ t, (σ.locals t).handles.Nodup
  placed : ∀ t, ∀ chunk ∈ (σ.locals t).owned, σ.shared.alloc.Placed chunk

/-! ### The invariant -/

/-- The place of each handle, and the threads over the top of each stack. -/
structure Custody (T : Type) where
  place : Nat → Place T
  overTop : Nat → Nat → Finset T

def Custody.move (g : Custody T) (handle : Nat) (place : Place T) : Custody T :=
  { g with place := Function.update g.place handle place }

def Custody.withOverTop (g : Custody T) (r s : Nat) (overTop : Finset T) : Custody T :=
  { g with overTop := Function.update g.overTop r (Function.update (g.overTop r) s overTop) }

/-- The free list and the stack of one split. -/
structure SplitPlaced (g : Custody T) (pools : SharedPools) (r s : Nat) : Prop where
  list : ∃ ps, FreeList pools r s ps ∧ ps.Nodup ∧
    ∀ h, h ∈ ps ↔ pools.alloc.InSplit r s h ∧ g.place h = .list
  version : (pools.entry r s).freeList.version = u32 (pools.updates r s)
  stack : ∃ bumped, (pools.entry r s).firstHandle ≤ bumped ∧
    bumped ≤ (pools.entry r s).lastHandle ∧
    (pools.entry r s).freeStack = bumped + (g.overTop r s).card ∧
    ((g.overTop r s).card ≠ 0 → bumped = (pools.entry r s).lastHandle) ∧
    ∀ h, pools.alloc.InSplit r s h → (g.place h = .stack ↔ bumped ≤ h)
  overTop_lt : (g.overTop r s).card < 2 ^ 31

/-- The shared state follows the ghost state. -/
structure PoolsPlaced (alloc : RegionChunkAllocator) (g : Custody T) (pools : SharedPools) :
    Prop where
  layout : pools.alloc.Layout
  mapped : pools.alloc.Mapped
  same : SameLayout alloc pools.alloc
  split : ∀ r < pools.alloc.specs.numRegions, ∀ s < pools.alloc.pools.numSplits,
    SplitPlaced g pools r s

/-- The call is at a split of a region. -/
structure InCall (alloc : RegionChunkAllocator) (call : AllocateCall) : Prop where
  region_lt : call.region < alloc.specs.numRegions
  split_lt : call.split < alloc.pools.numSplits

/-- The head was loaded from the split, and is current if there was no update since. -/
structure Loaded (pools : SharedPools) (r s : Nat) (head : LoadedHead) : Prop where
  seen_le : head.seen ≤ pools.updates r s
  version : head.version = u32 head.seen
  next : head.next = regionChunkPoolNullLink ∨ pools.alloc.InSplit r s head.next
  current : pools.updates r s = head.seen →
    (pools.entry r s).freeList = head.toRegionChunkPoolListHead

def PcHolds (pools : SharedPools) : Pc → Prop
  | .idle => True
  | .round call => call.region < pools.alloc.specs.numRegions
  | .popLoad call => InCall pools.alloc call
  | .popNext call head _ => InCall pools.alloc call ∧ Loaded pools call.region call.split head ∧
      head.next ≠ regionChunkPoolNullLink
  | .popSwap call head _ next => InCall pools.alloc call ∧
      Loaded pools call.region call.split head ∧ head.next ≠ regionChunkPoolNullLink ∧
      (pools.updates call.region call.split = head.seen → pools.alloc.poolHandles head.next = next)
  | .bumpLoad call => InCall pools.alloc call
  | .bumpAdd call => InCall pools.alloc call
  | .bumpSub call => InCall pools.alloc call
  | .pushLoad _ => True
  | .pushNext chunk head => Loaded pools chunk.region chunk.split head
  | .pushSwap chunk head => Loaded pools chunk.region chunk.split head ∧
      pools.alloc.poolHandles chunk.handle = head.next

/-- A thread follows the ghost state. -/
structure WorkerHolds (g : Custody T) (pools : SharedPools) (t : T) (worker : Worker) : Prop where
  place : ∀ h, g.place h = .thread t ↔ h ∈ worker.handles
  nodup : worker.handles.Nodup
  placed : ∀ chunk ∈ worker.owned, pools.alloc.Placed chunk
  overTop : ∀ r s, t ∈ g.overTop r s ↔ worker.Overshoots r s
  pc : PcHolds pools worker.pc

/-- The invariant. -/
abbrev Guarded (alloc : RegionChunkAllocator) (σ : Machine T) : Prop :=
  σ.Holds (PoolsPlaced alloc) WorkerHolds

variable {alloc : RegionChunkAllocator} {g g' : Custody T} {pools pools' : SharedPools}
  {r s r' s' h : Nat} {t u : T} {worker worker' : Worker} {σ : Machine T}

@[simp] theorem Custody.move_self {place : Place T} : (g.move h place).place h = place :=
  Function.update_self ..

theorem Custody.move_of_ne {handle : Nat} {place : Place T} (hne : h ≠ handle) :
    (g.move handle place).place h = g.place h := Function.update_of_ne hne ..

@[simp] theorem Custody.withOverTop_self {overTop : Finset T} : (g.withOverTop r s overTop).overTop
  r s = overTop := by
  simp [withOverTop]

theorem Custody.withOverTop_of_ne {overTop : Finset T} (hne : ¬(r' = r ∧ s' = s)) :
    (g.withOverTop r s overTop).overTop r' s' = g.overTop r' s' := by
  by_cases hr : r' = r
  · subst hr
    have hs : s' ≠ s := fun hs => hne ⟨rfl, hs⟩
    simp [withOverTop, hs]
  · simp [withOverTop, hr]

/-- The place of a handle that was not another thread's, and is not now. -/
theorem Custody.move_iff {place : Place T} (hold : g.place handle ≠ .thread u)
    (hnew : place ≠ .thread u) (h : Nat) :
    (g.move handle place).place h = .thread u ↔ g.place h = .thread u := by
  by_cases heq : h = handle
  · subst heq
    rw [Custody.move_self]
    exact iff_of_false hnew hold
  · rw [Custody.move_of_ne heq]

/-! ### Exclusivity from the invariant -/

theorem FreeList.unique {ps qs : List Nat} (h : FreeList pools r s ps)
    (h' : FreeList pools r s qs) :
    ps = qs := Linked.unique h h'

/-- The program's data says of the stack and the list what the ghost state says. -/
theorem PoolsPlaced.at_list (hp : PoolsPlaced alloc g σ.shared)
    (hin : σ.shared.alloc.InSplit r s h) :
    At σ h .list ↔ g.place h = .list := by
  obtain ⟨ps, hps, -, hmem⟩ := (hp.split r hin.region_lt s hin.split_lt).list
  constructor
  · rintro ⟨r', s', hin', qs, hqs, hq⟩
    obtain ⟨rfl, rfl⟩ := hin'.unique hin hp.layout
    obtain rfl := hqs.unique hps
    exact ((hmem h).mp hq).2
  · exact fun hplace => ⟨r, s, hin, ps, hps, (hmem h).mpr ⟨hin, hplace⟩⟩

theorem PoolsPlaced.at_stack (hp : PoolsPlaced alloc g σ.shared)
    (hin : σ.shared.alloc.InSplit r s h) :
    At σ h .stack ↔ g.place h = .stack := by
  obtain ⟨bumped, -, -, htop, hover, hplace⟩ := (hp.split r hin.region_lt s hin.split_lt).stack
  have hlast : h < (σ.shared.entry r s).lastHandle := hin.lt_last
  -- over the limit, nothing is left on the stack
  have hiff : (σ.shared.entry r s).freeStack ≤ h ↔ bumped ≤ h := by
    by_cases hcard : (g.overTop r s).card = 0
    · omega
    · have := hover hcard
      omega
  rw [hplace h hin, ← hiff]
  constructor
  · rintro ⟨r', s', hin', hle⟩
    obtain ⟨rfl, rfl⟩ := hin'.unique hin hp.layout
    exact hle
  · exact fun hle => ⟨r, s, hin, hle⟩

/-- **Under the invariant, every handle is in exactly one place.** -/
theorem Guarded.exclusive (hσ : Guarded alloc σ) : Exclusive σ := by
  obtain ⟨g, hp, hw⟩ := hσ
  refine ⟨fun h hh => ?_, fun r hr s hs => ?_, fun t => (hw t).nodup, fun t => (hw t).placed⟩
  · obtain ⟨r, s, hin⟩ := hp.layout.exists_inSplit hh
    have hat : ∀ place, At σ h place ↔ g.place h = place := by
      rintro (_ | _ | t)
      · exact hp.at_stack hin
      · exact hp.at_list hin
      · exact ((hw t).place h).symm
    exact ⟨g.place h, (hat _).mpr rfl, fun place hplace => ((hat _).mp hplace).symm⟩
  · obtain ⟨ps, hps, hnodup, hmem⟩ := (hp.split r hr s hs).list
    exact ⟨ps, hps, hnodup, fun h hh => ((hmem h).mp hh).1⟩

/-! ### What a step leaves alone -/

/-- What the splits and threads a step does not touch see of it. -/
structure Undisturbed (pools pools' : SharedPools) : Prop where
  same : SameLayout pools.alloc pools'.alloc
  updates_le : ∀ r s, pools.updates r s ≤ pools'.updates r s
  head : ∀ r s, pools'.updates r s = pools.updates r s →
    (pools'.entry r s).freeList = (pools.entry r s).freeList

theorem Undisturbed.refl (pools : SharedPools) : Undisturbed pools pools :=
  ⟨.refl _, fun _ _ => le_rfl, fun _ _ _ => rfl⟩

theorem Undisturbed.loaded (hu : Undisturbed pools pools') {head : LoadedHead}
    (h : Loaded pools r s head) : Loaded pools' r s head where
  seen_le := h.seen_le.trans (hu.updates_le r s)
  version := h.version
  next := h.next.imp_right hu.same.inSplit.mpr
  current := by
    intro heq
    have hle := hu.updates_le r s
    have hseen := h.seen_le
    rw [hu.head r s (by omega)]
    exact h.current (by omega)

theorem SameLayout.inCall {alloc' : RegionChunkAllocator} (hsame : SameLayout alloc alloc')
    {call : AllocateCall} (h : InCall alloc call) : InCall alloc' call :=
  ⟨hsame.specs ▸ h.region_lt, hsame.numSplits.symm ▸ h.split_lt⟩

/-- The node a current head points to is in the free list. -/
theorem PoolsPlaced.listed (hp : PoolsPlaced alloc g pools) (hr : r < pools.alloc.specs.numRegions)
    (hs : s < pools.alloc.pools.numSplits)
    (hne : (pools.entry r s).freeList.next ≠ regionChunkPoolNullLink) :
    pools.alloc.InSplit r s (pools.entry r s).freeList.next ∧
      g.place (pools.entry r s).freeList.next = .list := by
  obtain ⟨ps, hps, -, hmem⟩ := (hp.split r hr s hs).list
  obtain ⟨qs, rfl, -⟩ := Linked.of_ne_null hps hne
  exact (hmem _).mp List.mem_cons_self

/-- A loaded head that is current is loaded. -/
theorem PoolsPlaced.loaded (hp : PoolsPlaced alloc g pools) (hr : r < pools.alloc.specs.numRegions)
    (hs : s < pools.alloc.pools.numSplits) : Loaded pools r s (pools.loadHead r s) where
  seen_le := le_rfl
  version := (hp.split r hr s hs).version
  next := by
    by_cases hne : (pools.entry r s).freeList.next = regionChunkPoolNullLink
    · exact .inl hne
    · exact .inr (hp.listed hr hs hne).1
  current _ := rfl

/-- The swap of a paced `pop` meets the head it loaded, and the link it read. -/
theorem PoolsPlaced.current_of_swap (hp : PoolsPlaced alloc g pools) {next : Nat}
    (hpc : PcHolds pools (.popSwap call head attempts next))
    (hpaced : pools.updates call.region call.split < head.seen + 2 ^ 32)
    (hswap : (pools.entry call.region call.split).freeList = head.toRegionChunkPoolListHead) :
    u32 (head.version + 1) = u32 (pools.updates call.region call.split + 1) ∧
      next = pools.alloc.poolHandles head.next := by
  obtain ⟨hin, hloaded, -, hnext⟩ := hpc
  have hversion := (hp.split _ hin.region_lt _ hin.split_lt).version
  rw [hswap, hloaded.version] at hversion
  have heq := u32_eq_of_lt hversion.symm hloaded.seen_le hpaced
  refine ⟨?_, (hnext heq).symm⟩
  rw [hloaded.version, u32_succ_u32, heq]

/-- A thread goes on after a step of another one that keeps the links of the lists and of its own
nodes, and the thread's part of the ghost state. -/
theorem WorkerHolds.undisturbed (hw : WorkerHolds g pools t worker) (hp : PoolsPlaced alloc g pools)
    (hu : Undisturbed pools pools') (hplace : ∀ h, g'.place h = .thread t ↔ g.place h = .thread t)
    (hover : ∀ r s, t ∈ g'.overTop r s ↔ t ∈ g.overTop r s)
    (hlinks : ∀ h, g.place h = .list ∨ g.place h = .thread t →
      pools'.alloc.poolHandles h = pools.alloc.poolHandles h) :
    WorkerHolds g' pools' t worker where
  place h := (hplace h).trans (hw.place h)
  nodup := hw.nodup
  placed chunk hc := hu.same.placed.mpr (hw.placed chunk hc)
  overTop r s := (hover r s).trans (hw.overTop r s)
  pc := by
    have hpc := hw.pc
    have hown := fun h => (hw.place h).mpr
    rcases worker with ⟨pc, held⟩
    cases pc with
    | idle => trivial
    | round call =>
      rw [PcHolds, hu.same.specs]
      exact hpc
    | popLoad call => exact hu.same.inCall hpc
    | popNext call head attempts => exact ⟨hu.same.inCall hpc.1, hu.loaded hpc.2.1, hpc.2.2⟩
    | popSwap call head attempts next =>
      obtain ⟨hin, hloaded, hne, hnext⟩ := hpc
      refine ⟨hu.same.inCall hin, hu.loaded hloaded, hne, fun heq => ?_⟩
      -- no update since the load: the node is in the list
      have hle := hu.updates_le call.region call.split
      have hseen := hloaded.seen_le
      have hupdates : pools.updates call.region call.split = head.seen := by omega
      have hcurrent := hloaded.current hupdates
      have hlisted := hp.listed hin.region_lt hin.split_lt (by rwa [hcurrent])
      rw [hcurrent] at hlisted
      rw [hlinks _ (.inl hlisted.2)]
      exact hnext hupdates
    | bumpLoad call => exact hu.same.inCall hpc
    | bumpAdd call => exact hu.same.inCall hpc
    | bumpSub call => exact hu.same.inCall hpc
    | pushLoad chunk => trivial
    | pushNext chunk head => exact hu.loaded hpc
    | pushSwap chunk head =>
      refine ⟨hu.loaded hpc.1, ?_⟩
      rw [hlinks _ (.inr (hown _ List.mem_cons_self))]
      exact hpc.2

/-- A split is as it was after a step that does not touch its entry, the places of its handles and
the links of its free list. -/
theorem SplitPlaced.undisturbed (hsp : SplitPlaced g pools r s) (hu : Undisturbed pools pools')
    (hentry : pools'.entry r s = pools.entry r s)
    (hupdates : pools'.updates r s = pools.updates r s) (hover : g'.overTop r s = g.overTop r s)
    (hlist : ∀ h, pools.alloc.InSplit r s h → (g'.place h = .list ↔ g.place h = .list))
    (hstack : ∀ h, pools.alloc.InSplit r s h → (g'.place h = .stack ↔ g.place h = .stack))
    (hlinks : ∀ h, pools.alloc.InSplit r s h → g.place h = .list →
      pools'.alloc.poolHandles h = pools.alloc.poolHandles h) :
    SplitPlaced g' pools' r s := by
  obtain ⟨ps, hps, hnodup, hmem⟩ := hsp.list
  obtain ⟨bumped, hfirst, hlast, htop, hcard, hplace⟩ := hsp.stack
  refine ⟨⟨ps, ?_, hnodup, fun h => ?_⟩, ?_, ⟨bumped, ?_⟩, ?_⟩
  · rw [FreeList, hentry]
    exact Linked.congr hps fun q hq => hlinks q ((hmem q).mp hq).1 ((hmem q).mp hq).2
  · rw [hmem, hu.same.inSplit]
    exact and_congr_right fun hin => (hlist h hin).symm
  · rw [hentry, hupdates]
    exact hsp.version
  · rw [hentry, hover]
    refine ⟨hfirst, hlast, htop, hcard, fun h hin => ?_⟩
    have hin := hu.same.inSplit.mp hin
    rw [hstack h hin, hplace h hin]
  · rw [hover]
    exact hsp.overTop_lt

/-! ### The computations between two accesses -/

/-- Where `allocate_chunk` stands when neither a list nor a stack is being used. -/
def Pc.Waits (alloc : RegionChunkAllocator) : Pc → Prop
  | .idle => True
  | .round call => call.region < alloc.specs.numRegions
  | .popLoad call => InCall alloc call
  | .bumpLoad call => InCall alloc call
  | _ => False

/-- The call goes on without a chunk. -/
structure Continues (alloc : RegionChunkAllocator) (held : List RegionChunkAllocation)
    (worker : Worker) : Prop where
  held : worker.held = held
  waits : worker.pc.Waits alloc

/-- The call returns the chunk of the handle. -/
def Returns (alloc : RegionChunkAllocator) (held : List RegionChunkAllocation) (handle : Nat)
    (worker : Worker) : Prop :=
  ∃ chunk, alloc.Placed chunk ∧ chunk.handle = handle ∧ worker = ⟨.idle, chunk :: held⟩

variable {call : AllocateCall} {held : List RegionChunkAllocation} {handle : Nat}
  {head : LoadedHead} {attempts : Int}

theorem finishRound_continues (hr : call.region < alloc.specs.numRegions)
    {allocation : RegionChunkAllocation} (hinvalid : allocation.valid = false) :
    Continues alloc held (finishRound call held allocation) := by
  rw [finishRound, hinvalid, if_neg Bool.false_ne_true]
  split
  · exact ⟨rfl, hr⟩
  · exact ⟨rfl, hr⟩

theorem trySplit_continues (hr : call.region < alloc.specs.numRegions)
    (hok : trySplit alloc call held = .ok worker) : Continues alloc held worker := by
  rw [trySplit] at hok
  split at hok
  · simp only [bind_eq_ok, check_eq_ok, pure_eq_ok] at hok
    obtain ⟨-, -, -, hsplit, rfl⟩ := hok
    exact ⟨rfl, hr, hsplit⟩
  · cases hok
    cases hseen : call.chunkSeen
    · exact finishRound_continues hr (by simp only [Bool.false_eq_true, if_false]; decide)
    · exact finishRound_continues hr (by simp only [if_true]; decide)

theorem tryNextSplit_continues (hr : call.region < alloc.specs.numRegions)
    (hok : tryNextSplit alloc call held = .ok worker) : Continues alloc held worker := by
  simp only [tryNextSplit, bind_eq_ok] at hok
  obtain ⟨split, -, hok⟩ := hok
  exact trySplit_continues (by exact hr) hok

theorem startRound_continues (hr : call.region < alloc.specs.numRegions)
    (hok : startRound alloc call held = .ok worker) : Continues alloc held worker := by
  rw [startRound] at hok
  split at hok
  · cases hok
    exact ⟨rfl, trivial⟩
  · simp only [bind_eq_ok] at hok
    obtain ⟨-, -, split, -, hok⟩ := hok
    exact trySplit_continues (by exact hr) hok

theorem returnChunk_returns (hl : alloc.Layout) (hin : alloc.InSplit call.region call.split handle)
    (hok : returnChunk alloc call held handle = .ok worker) :
    Returns alloc held handle worker := by
  rw [returnChunk, regionHandleToChunk_eq hl hin, ok_bind] at hok
  cases hok
  have hplaced := hin.placed hl
  refine ⟨_, hplaced, rfl, ?_⟩
  rw [finishRound, if_pos (hplaced.valid hl)]

theorem not_lt_of_null (hl : alloc.Layout) : ¬regionChunkPoolNullLink < alloc.specs.numHandles := by
  have hmax := hl.specs.handles_le
  rw [regionChunkPoolNullLink]
  omega

theorem finishStack_null (hl : alloc.Layout) (hr : call.region < alloc.specs.numRegions)
    (hok : finishStack alloc call held regionChunkPoolNullLink = .ok worker) :
    Continues alloc held worker := by
  rw [finishStack, if_neg (not_lt_of_null hl)] at hok
  exact tryNextSplit_continues hr hok

theorem finishStack_returns (hl : alloc.Layout)
    (hin : alloc.InSplit call.region call.split handle)
    (hok : finishStack alloc call held handle = .ok worker) : Returns alloc held handle worker := by
  rw [finishStack, if_pos (hin.lt_numHandles hl)] at hok
  exact returnChunk_returns hl hin hok

theorem finishList_returns (hl : alloc.Layout)
    (hin : alloc.InSplit call.region call.split handle)
    (hok : finishList alloc call held handle = .ok worker) : Returns alloc held handle worker := by
  rw [finishList, if_pos (hin.lt_numHandles hl)] at hok
  exact returnChunk_returns hl hin hok

theorem finishList_null (hl : alloc.Layout) (hr : call.region < alloc.specs.numRegions)
    (hok : finishList alloc call held regionChunkPoolNullLink = .ok worker) :
    Continues alloc held worker := by
  rw [finishList, if_neg (not_lt_of_null hl), if_neg (by decide),
    if_pos (show regionChunkPoolNullLink = regionChunkAllocatorNullValue from rfl)] at hok
  simp only [bind_eq_ok, check_eq_ok, pure_eq_ok] at hok
  obtain ⟨-, -, -, hsplit, rfl⟩ := hok
  exact ⟨rfl, hr, hsplit⟩

theorem finishList_failed (hl : alloc.Layout) (hr : call.region < alloc.specs.numRegions)
    (hok : finishList alloc call held regionChunkPoolFailedAlloc = .ok worker) :
    Continues alloc held worker := by
  have hmax := hl.specs.handles_le
  have hlt : ¬regionChunkPoolFailedAlloc < alloc.specs.numHandles := by
    rw [regionChunkPoolFailedAlloc]
    omega
  rw [finishList, if_neg hlt,
    if_pos (show regionChunkPoolFailedAlloc = regionChunkAllocatorFailedValue from rfl)] at hok
  exact tryNextSplit_continues (by exact hr) hok

/-- The loop of `pop` ends without a node, or goes on to the link of the head. -/
theorem popTurn_spec (hl : alloc.Layout) (hr : call.region < alloc.specs.numRegions)
    (hok : popTurn alloc call held head attempts = .ok worker) :
    Continues alloc held worker ∨
      (head.next ≠ regionChunkPoolNullLink ∧ worker = ⟨.popNext call head attempts, held⟩) := by
  rw [popTurn] at hok
  split at hok
  · exact .inl (finishList_failed hl hr hok)
  · split at hok
    · exact .inl (finishList_null hl hr hok)
    · rename_i hne
      cases hok
      exact .inr ⟨hne, rfl⟩

theorem Continues.same {alloc' : RegionChunkAllocator} (hc : Continues alloc held worker)
    (hsame : SameLayout alloc alloc') : Continues alloc' held worker := by
  obtain ⟨rfl, hwaits⟩ := hc
  refine ⟨rfl, ?_⟩
  cases hpc : worker.pc <;> rw [hpc] at hwaits
  case idle => trivial
  case round call =>
    rw [Pc.Waits, hsame.specs]
    exact hwaits
  case popLoad call => exact hsame.inCall hwaits
  case bumpLoad call => exact hsame.inCall hwaits
  all_goals exact hwaits.elim

/-! ### What a thread does to itself -/

/-- The thread moves on, with the same chunks. -/
theorem WorkerHolds.move (hw : WorkerHolds g pools t worker)
    (howned : worker'.owned.Perm worker.owned)
    (hover : ∀ r s, worker'.Overshoots r s ↔ worker.Overshoots r s)
    (hpc : PcHolds pools worker'.pc) : WorkerHolds g pools t worker' where
  place h := (hw.place h).trans (howned.map _).mem_iff.symm
  nodup := (howned.map _).nodup_iff.mpr hw.nodup
  placed chunk hc := hw.placed chunk (howned.mem_iff.mp hc)
  overTop r s := (hw.overTop r s).trans (hover r s).symm
  pc := hpc

theorem Worker.not_overshoots (h : ∀ call, worker.pc ≠ .bumpSub call) (r s : Nat) :
    ¬worker.Overshoots r s := fun ⟨call, hcall, _⟩ => h call hcall

/-- What the thread's program counter says once it waits. -/
theorem Continues.spec (hc : Continues pools.alloc held worker) :
    worker.owned = held ∧ (∀ r s, ¬worker.Overshoots r s) ∧ PcHolds pools worker.pc := by
  obtain ⟨rfl, hwaits⟩ := hc
  rcases worker with ⟨pc, held⟩
  cases pc <;> first
    | exact ⟨rfl, Worker.not_overshoots (by simp), hwaits⟩
    | exact hwaits.elim

/-- The call of a thread goes on without a chunk. -/
theorem WorkerHolds.continues (hw : WorkerHolds g pools t worker) (howned : worker.owned = held)
    (hover : ∀ r s, ¬worker.Overshoots r s) (hc : Continues pools.alloc held worker') :
    WorkerHolds g pools t worker' := by
  obtain ⟨howned', hover', hpc⟩ := hc.spec
  exact hw.move (.of_eq (howned'.trans howned.symm))
    (fun r s => iff_of_false (hover' r s) (hover r s)) hpc

/-- A chunk comes to the thread. -/
theorem WorkerHolds.take (hw : WorkerHolds g pools t worker) {chunk : RegionChunkAllocation}
    (howned : worker'.owned.Perm (chunk :: worker.owned)) (hnot : g.place chunk.handle ≠ .thread t)
    (hplaced : pools.alloc.Placed chunk) (hsame : SameLayout pools.alloc pools'.alloc)
    (hover : ∀ r s, worker'.Overshoots r s ↔ worker.Overshoots r s)
    (hpc : PcHolds pools' worker'.pc) :
    WorkerHolds (g.move chunk.handle (.thread t)) pools' t worker' := by
  have hhandles : worker'.handles.Perm (chunk.handle :: worker.handles) := howned.map _
  have hmem : chunk.handle ∉ worker.handles := fun hmem => hnot ((hw.place _).mpr hmem)
  refine ⟨fun h => ?_, hhandles.nodup_iff.mpr (List.nodup_cons.mpr ⟨hmem, hw.nodup⟩),
    fun c hc => hsame.placed.mpr ?_, fun r s => (hw.overTop r s).trans (hover r s).symm, hpc⟩
  · rw [hhandles.mem_iff]
    by_cases heq : h = chunk.handle
    · subst heq
      simp
    · rw [Custody.move_of_ne heq, hw.place, List.mem_cons, or_iff_right heq]
  · exact List.forall_mem_cons.mpr ⟨hplaced, hw.placed⟩ c (howned.mem_iff.mp hc)

/-- A chunk leaves the thread. -/
theorem WorkerHolds.give (hw : WorkerHolds g pools t worker) {chunk : RegionChunkAllocation}
    (howned : worker.owned.Perm (chunk :: worker'.owned)) {place : Place T}
    (hne : place ≠ .thread t)
    (hsame : SameLayout pools.alloc pools'.alloc)
    (hover : ∀ r s, worker'.Overshoots r s ↔ worker.Overshoots r s)
    (hpc : PcHolds pools' worker'.pc) :
    WorkerHolds (g.move chunk.handle place) pools' t worker' := by
  have hhandles : worker.handles.Perm (chunk.handle :: worker'.handles) := howned.map _
  obtain ⟨hmem, hnodup⟩ := List.nodup_cons.mp (hhandles.nodup_iff.mp hw.nodup)
  refine ⟨fun h => ?_, hnodup, fun c hc => hsame.placed.mpr (hw.placed c ?_),
    fun r s => (hw.overTop r s).trans (hover r s).symm, hpc⟩
  · by_cases heq : h = chunk.handle
    · subst heq
      rw [Custody.move_self]
      exact iff_of_false hne hmem
    · rw [Custody.move_of_ne heq, hw.place, hhandles.mem_iff, List.mem_cons, or_iff_right heq]
  · exact howned.mem_iff.mpr (List.mem_cons_of_mem _ hc)

/-- The call of a thread returns a chunk. -/
theorem WorkerHolds.receive (hw : WorkerHolds g pools t worker) (howned : worker.owned = held)
    (hover : ∀ r s, ¬worker.Overshoots r s) (hnot : g.place handle ≠ .thread t)
    (hret : Returns pools.alloc held handle worker') (hsame : SameLayout pools.alloc pools'.alloc) :
    WorkerHolds (g.move handle (.thread t)) pools' t worker' := by
  obtain ⟨chunk, hplaced, rfl, rfl⟩ := hret
  subst howned
  exact hw.take (.refl _) hnot hplaced hsame
    (fun r s => iff_of_false (Worker.not_overshoots (by simp) r s) (hover r s)) trivial

/-! ### What the accesses write -/

namespace SharedPools

variable {entry : RegionPoolEntry} {freeList : RegionChunkPoolListHead} {top node next : Nat}

theorem entry_withEntry_self : (pools.withEntry r s entry).entry r s = entry := by
  simp [withEntry, SharedPools.entry, RegionChunkAllocatorPools.withEntry]

theorem entry_withEntry_of_ne (hne : ¬(r' = r ∧ s' = s)) :
    (pools.withEntry r s entry).entry r' s' = pools.entry r' s' := by
  by_cases hr : r' = r
  · subst hr
    have hs : s' ≠ s := fun hs => hne ⟨rfl, hs⟩
    simp [withEntry, SharedPools.entry, RegionChunkAllocatorPools.withEntry, hs]
  · simp [withEntry, SharedPools.entry, RegionChunkAllocatorPools.withEntry, hr]

@[simp] theorem entry_updateHead_self :
    (pools.updateHead r s freeList).entry r s = { pools.entry r s with freeList } :=
  entry_withEntry_self

theorem entry_updateHead_of_ne (hne : ¬(r' = r ∧ s' = s)) :
    (pools.updateHead r s freeList).entry r' s' = pools.entry r' s' :=
  entry_withEntry_of_ne hne

@[simp] theorem updates_updateHead_self :
    (pools.updateHead r s freeList).updates r s = pools.updates r s + 1 := by
  simp [updateHead]

theorem updates_updateHead_of_ne (hne : ¬(r' = r ∧ s' = s)) :
    (pools.updateHead r s freeList).updates r' s' = pools.updates r' s' := by
  by_cases hr : r' = r
  · subst hr
    have hs : s' ≠ s := fun hs => hne ⟨rfl, hs⟩
    simp [updateHead, hs]
  · simp [updateHead, hr]

@[simp] theorem entry_storeTop_self :
    (pools.storeTop r s top).entry r s = { pools.entry r s with freeStack := top } :=
  entry_withEntry_self

theorem entry_storeTop_of_ne (hne : ¬(r' = r ∧ s' = s)) :
    (pools.storeTop r s top).entry r' s' = pools.entry r' s' :=
  entry_withEntry_of_ne hne

theorem undisturbed_updateHead : Undisturbed pools (pools.updateHead r s freeList) where
  same := sameLayout_withSplit rfl rfl
  updates_le r' s' := by
    by_cases heq : r' = r ∧ s' = s
    · rw [heq.1, heq.2, updates_updateHead_self]
      exact Nat.le_succ _
    · rw [updates_updateHead_of_ne heq]
  head r' s' hupdates := by
    by_cases heq : r' = r ∧ s' = s
    · rw [heq.1, heq.2, updates_updateHead_self] at hupdates
      omega
    · rw [entry_updateHead_of_ne heq]

theorem undisturbed_storeTop : Undisturbed pools (pools.storeTop r s top) where
  same := sameLayout_withSplit rfl rfl
  updates_le _ _ := le_rfl
  head r' s' _ := by
    by_cases heq : r' = r ∧ s' = s
    · rw [heq.1, heq.2, entry_storeTop_self]
    · rw [entry_storeTop_of_ne heq]

theorem setNext_spec (hok : pools.setNext node next = .ok pools') :
    pools' = { pools with alloc := { pools.alloc with
      poolHandles := Function.update pools.alloc.poolHandles node next } } := by
  simp only [setNext, bind_eq_ok, check_eq_ok, pure_eq_ok] at hok
  obtain ⟨-, -, -, -, rfl⟩ := hok
  rfl

theorem undisturbed_setNext (hok : pools.setNext node next = .ok pools') :
    Undisturbed pools pools' := by
  obtain rfl := setNext_spec hok
  exact ⟨⟨rfl, rfl, rfl, rfl, rfl, rfl, fun _ _ => rfl, fun _ _ => rfl⟩, fun _ _ => le_rfl,
    fun _ _ _ => rfl⟩

end SharedPools

open SharedPools

/-! ### The shared state after a step -/

theorem SameLayout.regionsMapped {alloc' : RegionChunkAllocator} (h : SameLayout alloc alloc')
    (hm : alloc.Mapped) : alloc'.Mapped := by
  refine ⟨?_, ?_, ?_⟩
  · rw [h.regions]
    exact hm.regions_pos
  · rw [h.regions, h.specs]
    exact hm.regions_end
  · rw [h.handles]
    exact hm.handles_pos

/-- A step that touches one split, and the links of nodes outside of the free lists. -/
theorem PoolsPlaced.change (hp : PoolsPlaced alloc g pools) (hu : Undisturbed pools pools')
    (hself : SplitPlaced g' pools' r s)
    (hentry : ∀ r' s', ¬(r' = r ∧ s' = s) → pools'.entry r' s' = pools.entry r' s' ∧
      pools'.updates r' s' = pools.updates r' s' ∧ g'.overTop r' s' = g.overTop r' s')
    (hplace : ∀ h, ¬pools.alloc.InSplit r s h → g'.place h = g.place h)
    (hlinks : ∀ h, g.place h = .list → pools'.alloc.poolHandles h = pools.alloc.poolHandles h) :
    PoolsPlaced alloc g' pools' := by
  refine ⟨hu.same.layout hp.layout, hu.same.regionsMapped hp.mapped, hp.same.trans hu.same,
    fun r' hr' s' hs' => ?_⟩
  by_cases heq : r' = r ∧ s' = s
  · rw [heq.1, heq.2]
    exact hself
  · obtain ⟨hentry, hupdates, hover⟩ := hentry r' s' heq
    have hout : ∀ h, pools.alloc.InSplit r' s' h → g'.place h = g.place h := fun h hin =>
      hplace h fun hin' => heq (hin.unique hin' hp.layout)
    refine (hp.split r' (hu.same.specs ▸ hr') s' (hu.same.numSplits ▸ hs')).undisturbed hu hentry
      hupdates hover (fun h hin => ?_) (fun h hin => ?_) (fun h _ => hlinks h)
    · rw [hout h hin]
    · rw [hout h hin]

/-- The links of a node outside of the free lists can be written. -/
theorem PoolsPlaced.setNext (hp : PoolsPlaced alloc g pools) {node next : Nat}
    (hnode : g.place node ≠ .list) (hok : pools.setNext node next = .ok pools') :
    PoolsPlaced alloc g pools' := by
  have hu := undisturbed_setNext hok
  obtain rfl := setNext_spec hok
  refine ⟨hu.same.layout hp.layout, hu.same.regionsMapped hp.mapped, hp.same.trans hu.same,
    fun r' hr' s' hs' => ?_⟩
  refine (hp.split r' hr' s' hs').undisturbed hu rfl rfl rfl (fun _ _ => Iff.rfl)
    (fun _ _ => Iff.rfl) fun h _ hlist => ?_
  refine Function.update_of_ne (fun heq => hnode ?_) _ _
  rw [← heq]
  exact hlist

variable [DecidableEq T]

omit [DecidableEq T] in
/-- The first node of a free list goes to a thread. -/
theorem PoolsPlaced.pop (hp : PoolsPlaced alloc g pools) (hr : r < pools.alloc.specs.numRegions)
    (hs : s < pools.alloc.pools.numSplits)
    (hne : (pools.entry r s).freeList.next ≠ regionChunkPoolNullLink) (t : T) :
    PoolsPlaced alloc (g.move (pools.entry r s).freeList.next (.thread t))
      (pools.updateHead r s ⟨u32 (pools.updates r s + 1),
        pools.alloc.poolHandles (pools.entry r s).freeList.next⟩) := by
  obtain ⟨hin, hlisted⟩ := hp.listed hr hs hne
  have hsp := hp.split r hr s hs
  obtain ⟨ps, hps, hnodup, hmem⟩ := hsp.list
  obtain ⟨rest, rfl, hrest⟩ := Linked.of_ne_null hps hne
  obtain ⟨hnot, hnodup⟩ := List.nodup_cons.mp hnodup
  obtain ⟨bumped, hfirst, hlast, htop, hcard, hstack⟩ := hsp.stack
  have hout : ∀ h, ¬pools.alloc.InSplit r s h → h ≠ (pools.entry r s).freeList.next := by
    rintro h hnotIn rfl
    exact hnotIn hin
  refine hp.change undisturbed_updateHead (r := r) (s := s) ⟨⟨rest, ?_, hnodup, fun h => ?_⟩, ?_,
    ⟨bumped, ?_⟩, hsp.overTop_lt⟩
    (fun r' s' hne => ⟨entry_updateHead_of_ne hne, updates_updateHead_of_ne hne, rfl⟩)
    (fun h hnotIn => Custody.move_of_ne (hout h hnotIn)) (fun _ _ => rfl)
  · rw [FreeList, entry_updateHead_self]
    exact hrest
  · rw [undisturbed_updateHead.same.inSplit]
    by_cases heq : h = (pools.entry r s).freeList.next
    · subst heq
      simp [hnot]
    · have hcons := hmem h
      rw [List.mem_cons, or_iff_right heq] at hcons
      rw [Custody.move_of_ne heq]
      exact hcons
  · rw [entry_updateHead_self, updates_updateHead_self]
  · rw [entry_updateHead_self]
    refine ⟨hfirst, hlast, htop, hcard, fun h hin' => ?_⟩
    rw [undisturbed_updateHead.same.inSplit] at hin'
    by_cases heq : h = (pools.entry r s).freeList.next
    · subst heq
      have hnotStack := hstack _ hin
      rw [hlisted] at hnotStack
      simpa using hnotStack
    · rw [Custody.move_of_ne heq]
      exact hstack h hin'

omit [DecidableEq T] in
/-- A thread pushes its node on the free list of its split. -/
theorem PoolsPlaced.push (hp : PoolsPlaced alloc g pools) {node : Nat}
    (hin : pools.alloc.InSplit r s node) (hown : g.place node = .thread t)
    (hnext : pools.alloc.poolHandles node = (pools.entry r s).freeList.next) :
    PoolsPlaced alloc (g.move node .list)
      (pools.updateHead r s ⟨u32 (pools.updates r s + 1), node⟩) := by
  have hsp := hp.split r hin.region_lt s hin.split_lt
  obtain ⟨ps, hps, hnodup, hmem⟩ := hsp.list
  obtain ⟨bumped, hfirst, hlast, htop, hcard, hstack⟩ := hsp.stack
  have hnot : node ∉ ps := by
    intro hmem'
    rw [((hmem node).mp hmem').2] at hown
    cases hown
  have hout : ∀ h, ¬pools.alloc.InSplit r s h → h ≠ node := by
    rintro h hnotIn rfl
    exact hnotIn hin
  refine hp.change undisturbed_updateHead (r := r) (s := s)
    ⟨⟨node :: ps, ?_, List.nodup_cons.mpr ⟨hnot, hnodup⟩, fun h => ?_⟩, ?_,
      ⟨bumped, ?_⟩, hsp.overTop_lt⟩
    (fun r' s' hne => ⟨entry_updateHead_of_ne hne, updates_updateHead_of_ne hne, rfl⟩)
    (fun h hnotIn => Custody.move_of_ne (hout h hnotIn)) (fun _ _ => rfl)
  · rw [FreeList, entry_updateHead_self]
    refine ⟨rfl, hin.ne_null hp.layout, ?_⟩
    change Linked _ pools.alloc.poolHandles (pools.alloc.poolHandles node) ps
    rw [hnext]
    exact hps
  · rw [undisturbed_updateHead.same.inSplit, List.mem_cons]
    by_cases heq : h = node
    · subst heq
      simp [hin]
    · rw [or_iff_right heq, hmem]
      rw [Custody.move_of_ne heq]
  · rw [entry_updateHead_self, updates_updateHead_self]
  · rw [entry_updateHead_self]
    refine ⟨hfirst, hlast, htop, hcard, fun h hin' => ?_⟩
    rw [undisturbed_updateHead.same.inSplit] at hin'
    by_cases heq : h = node
    · subst heq
      have hnotStack := hstack _ hin
      rw [hown] at hnotStack
      simpa using hnotStack
    · rw [Custody.move_of_ne heq]
      exact hstack h hin'

omit [DecidableEq T] in
/-- A step that changes the top of a stack, not the free list. -/
theorem PoolsPlaced.storeTop (hp : PoolsPlaced alloc g pools)
    (hr : r < pools.alloc.specs.numRegions) (hs : s < pools.alloc.pools.numSplits) {top : Nat}
    (hout : ∀ h, ¬pools.alloc.InSplit r s h → g'.place h = g.place h)
    (hover : ∀ r' s', ¬(r' = r ∧ s' = s) → g'.overTop r' s' = g.overTop r' s')
    (hlist : ∀ h, g'.place h = .list ↔ g.place h = .list)
    (hstack : ∃ bumped, (pools.entry r s).firstHandle ≤ bumped ∧
      bumped ≤ (pools.entry r s).lastHandle ∧ top = bumped + (g'.overTop r s).card ∧
      ((g'.overTop r s).card ≠ 0 → bumped = (pools.entry r s).lastHandle) ∧
      ∀ h, pools.alloc.InSplit r s h → (g'.place h = .stack ↔ bumped ≤ h))
    (hlt : (g'.overTop r s).card < 2 ^ 31) : PoolsPlaced alloc g' (pools.storeTop r s top) := by
  have hsp := hp.split r hr s hs
  obtain ⟨ps, hps, hnodup, hmem⟩ := hsp.list
  obtain ⟨bumped, hfirst, hlast, htop, hcard, hplace⟩ := hstack
  refine hp.change undisturbed_storeTop (r := r) (s := s) ⟨⟨ps, ?_, hnodup, fun h => ?_⟩, ?_,
    ⟨bumped, ?_⟩, hlt⟩ (fun r' s' hne => ⟨entry_storeTop_of_ne hne, rfl, hover r' s' hne⟩) hout
    (fun _ _ => rfl)
  · rw [FreeList, entry_storeTop_self]
    exact hps
  · rw [undisturbed_storeTop.same.inSplit, hlist, hmem]
  · rw [entry_storeTop_self]
    exact hsp.version
  · rw [entry_storeTop_self]
    refine ⟨hfirst, hlast, htop, hcard, fun h hin => ?_⟩
    rw [undisturbed_storeTop.same.inSplit] at hin
    exact hplace h hin

theorem Layout.last_le (hl : alloc.Layout) (hr : r < alloc.specs.numRegions)
    (hs : s < alloc.pools.numSplits) :
    (alloc.pools.poolEntries r s).lastHandle ≤ 2 ^ 31 := by
  have hbounds := (hl.pools.splits r hr).bounds (split_getElem? hs)
  have hle := hl.specs.handle_le hr
  have hmax := hl.specs.handles_le
  dsimp only at hbounds
  omega

omit [DecidableEq T] in
/-- A stack with handles left gives its first one to a thread. -/
theorem PoolsPlaced.bump (hp : PoolsPlaced alloc g pools) (hr : r < pools.alloc.specs.numRegions)
    (hs : s < pools.alloc.pools.numSplits)
    (hlt : (pools.entry r s).freeStack < (pools.entry r s).lastHandle) (t : T) :
    pools.alloc.InSplit r s (pools.entry r s).freeStack ∧
      g.place (pools.entry r s).freeStack = .stack ∧
      PoolsPlaced alloc (g.move (pools.entry r s).freeStack (.thread t))
        (pools.storeTop r s (u32 ((pools.entry r s).freeStack + 1))) := by
  have hsp := hp.split r hr s hs
  obtain ⟨bumped, hfirst, hlast, htop, hcard, hstack⟩ := hsp.stack
  have hmax : (pools.entry r s).lastHandle ≤ 2 ^ 31 := hp.layout.last_le hr hs
  have hzero : (g.overTop r s).card = 0 := by
    by_contra hne
    have := hcard hne
    omega
  have hin : pools.alloc.InSplit r s (pools.entry r s).freeStack :=
    ⟨hr, hs, by rw [htop]; exact Nat.le_add_right_of_le hfirst, hlt⟩
  have hplace : g.place (pools.entry r s).freeStack = .stack := (hstack _ hin).mpr (by omega)
  refine ⟨hin, hplace, ?_⟩
  rw [u32_of_lt (by omega)]
  refine hp.storeTop hr hs (fun h hnotIn => Custody.move_of_ne ?_) (fun _ _ _ => rfl)
    (fun h => ?_) ⟨bumped + 1, by omega, by omega, ?_, fun hne => absurd hzero hne, fun h hin' =>
      ?_⟩
    hsp.overTop_lt
  · rintro rfl
    exact hnotIn hin
  · by_cases heq : h = (pools.entry r s).freeStack
    · subst heq
      simp [hplace]
    · rw [Custody.move_of_ne heq]
  · change _ = bumped + 1 + (g.overTop r s).card
    omega
  · by_cases heq : h = (pools.entry r s).freeStack
    · subst heq
      simp only [Custody.move_self, reduceCtorEq, false_iff]
      omega
    · rw [Custody.move_of_ne heq]
      rw [hstack h hin']
      omega

/-- A thread goes over the top of a stack that is used up. -/
theorem PoolsPlaced.overshoot (hp : PoolsPlaced alloc g pools)
    (hr : r < pools.alloc.specs.numRegions) (hs : s < pools.alloc.pools.numSplits)
    (hle : (pools.entry r s).lastHandle ≤ (pools.entry r s).freeStack) (ht : t ∉ g.overTop r s)
    (hfew : (insert t (g.overTop r s)).card < 2 ^ 31) :
    PoolsPlaced alloc (g.withOverTop r s (insert t (g.overTop r s)))
      (pools.storeTop r s (u32 ((pools.entry r s).freeStack + 1))) := by
  have hsp := hp.split r hr s hs
  obtain ⟨bumped, hfirst, hlast, htop, hcard, hstack⟩ := hsp.stack
  have hmax : (pools.entry r s).lastHandle ≤ 2 ^ 31 := hp.layout.last_le hr hs
  rw [Finset.card_insert_of_notMem ht] at hfew
  have hbumped : bumped = (pools.entry r s).lastHandle := by
    by_cases hzero : (g.overTop r s).card = 0
    · omega
    · exact hcard hzero
  rw [u32_of_lt (by omega)]
  refine hp.storeTop hr hs (fun _ _ => rfl) (fun r' s' hne => Custody.withOverTop_of_ne hne)
    (fun _ => Iff.rfl) ⟨bumped, hfirst, hlast, ?_, fun _ => hbumped, hstack⟩ ?_
  · rw [Custody.withOverTop_self, Finset.card_insert_of_notMem ht]
    omega
  · rw [Custody.withOverTop_self, Finset.card_insert_of_notMem ht]
    exact hfew

/-- A thread takes its step over the top back. -/
theorem PoolsPlaced.settle (hp : PoolsPlaced alloc g pools) (hr : r < pools.alloc.specs.numRegions)
    (hs : s < pools.alloc.pools.numSplits) (ht : t ∈ g.overTop r s) :
    PoolsPlaced alloc (g.withOverTop r s ((g.overTop r s).erase t))
      (pools.storeTop r s (u32 ((pools.entry r s).freeStack + (2 ^ 32 - 1)))) := by
  have hsp := hp.split r hr s hs
  obtain ⟨bumped, hfirst, hlast, htop, hcard, hstack⟩ := hsp.stack
  have hmax : (pools.entry r s).lastHandle ≤ 2 ^ 31 := hp.layout.last_le hr hs
  have hpos : 0 < (g.overTop r s).card := Finset.card_pos.mpr ⟨t, ht⟩
  have hlt := hsp.overTop_lt
  have hback : u32 ((pools.entry r s).freeStack + (2 ^ 32 - 1)) =
    (pools.entry r s).freeStack - 1 := by
    rw [u32]
    omega
  rw [hback]
  refine hp.storeTop hr hs (fun _ _ => rfl) (fun r' s' hne => Custody.withOverTop_of_ne hne)
    (fun _ => Iff.rfl) ⟨bumped, hfirst, hlast, ?_, fun _ => hcard hpos.ne', hstack⟩ ?_
  · rw [Custody.withOverTop_self, Finset.card_erase_of_mem ht]
    omega
  · rw [Custody.withOverTop_self, Finset.card_erase_of_mem ht]
    omega

end Cuw3.RegionChunkAllocator
