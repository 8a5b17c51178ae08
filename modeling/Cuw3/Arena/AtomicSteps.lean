/-
  `retire_reclaim.hpp` and `fast_arena.hpp` with one owner and any number of retiring threads:
  `retire`, `reclaim_arenas`, `FastArenaReclaimList::pop` and `reclaim_arena`, one access of a
  retire word or of a `next` link at a time.

  What a retiring thread computes between two accesses belongs to the step of the access before it.
  The owner's own data, which no other thread touches (the bins, `top`, `freed`, `list_entry`),
  changes with the last access of a call.  `allocate` and `deallocate` of the owner access no retire
  word, and are one step each.
-/
import Cuw3.Arena.Allocator
import Cuw3.Arena.Equiv.Runs
import Cuw3.Lib.Threads

namespace Cuw3

open Lib

namespace RetiringArenas

/-! ### Shared state -/

/-- The access the owner is about to make. -/
inductive OwnerPc where
  /-- Between two calls. -/
  | idle
  /-- `reclaim` of the root: the exchange. -/
  | rootSwap (new : Nat)
  /-- `reclaim_reset` of the arena that was popped: the exchange. -/
  | arenaSwap (new : Nat)

end RetiringArenas

/-- The memory and the allocator; the owner, the list that it walks and the arena that it popped and
has not reclaimed from (or null); by arena, the allocations that nobody has begun to free.  The last
two count, by arena, the bytes that were retired and reclaimed so far: they are not in the source,
and no step depends on them. -/
structure RetiringArenas (B : Type) where
  heap : Heap
  alloc : ArenaAllocator B
  owner : RetiringArenas.OwnerPc
  walking : Nat
  popped : Nat
  live : Nat → List Allocation
  retiredBytes : Nat → Nat
  reclaimedBytes : Nat → Nat

namespace RetiringArenas

variable {B : Type} (ops : AllocatorOps B) (s : RetiringArenas B)

/-- The retire word of the root. -/
def root : Nat := s.alloc.retiredArenas.head

def withRoot (head : Nat) : RetiringArenas B :=
  { s with alloc := { s.alloc with retiredArenas := { s.alloc.retiredArenas with head } } }

/-- The retire word of an arena. -/
def word (arena : Nat) : Nat := (s.heap arena).retireReclaimEntry.head

/-! ### The owner -/

/-- `reclaim_arenas`: the postponed list, or the load of the root. -/
def startReclaimArenas : Checked (RetiringArenas B) := do
  if s.alloc.retiredArenas.nextPostponed ≠ 0 then
    return { s with
      walking := s.alloc.retiredArenas.nextPostponed
      alloc := { s.alloc with retiredArenas := { s.alloc.retiredArenas with nextPostponed := 0 } } }
  let (_, new) ← RetireReclaimPtrView.reclaim s.root
  pure { s with owner := .rootSwap new }

/-- `FastArenaReclaimList::pop`. -/
def pop : Checked (RetiringArenas B) := do
  let (arena, head, heap) ← FastArenaReclaimList.pop s.heap s.walking
  pure { s with heap, walking := head, popped := arena }

/-- `reclaim_arena`, up to the load of the word. -/
def startReclaimArena : Checked (RetiringArenas B) := do
  check (ArenaAllocator.hasType ops.toBinsOps s.heap s.popped)
    "arena does not belong to this allocator"
  let (_, new) ← RetireReclaimPtrView.reclaimReset (s.word s.popped)
  pure { s with owner := .arenaSwap new }

/-- The exchange of `reclaim_reset`, and all else that `reclaim_arena` does. -/
def finishReclaimArena (new : Nat) : Checked (RetiringArenas B) := do
  let arena := s.popped
  let (heap, bins) ← ops.extract s.heap s.alloc.bins arena
  let reclaimed := RetireReclaimPtr.valueShifted (heap arena).retireReclaimEntry.head
  let view ← ((heap arena).withHead new).releaseReclaimed reclaimed
  let s := { s with
    owner := .idle
    popped := 0
    reclaimedBytes := Function.update s.reclaimedBytes arena (s.reclaimedBytes arena + reclaimed) }
  if view.resettable then
    let view ← view.reset
    return { s with
      heap := Function.update heap arena view
      alloc := { s.alloc with bins }
      live := Function.update s.live arena [] }
  let (heap, bins) ← ops.release (Function.update heap arena view) bins arena
  pure { s with heap, alloc := { s.alloc with bins } }

/-- One access of the owner in a call. -/
def ownerNext : Checked (RetiringArenas B) :=
  match s.owner with
  | .idle => pure s
  | .rootSwap new =>
    pure { s.withRoot new with owner := .idle, walking := RetireReclaimPtr.ptr s.root }
  | .arenaSwap new => s.finishReclaimArena ops new

/-! ### Retiring threads -/

/-- The access a retiring thread is about to make. -/
inductive Pc where
  /-- Between two calls. -/
  | idle
  /-- `retire_data` on the arena: the load of the word, the compare-exchange. -/
  | dataLoad (arena : Nat) (l : Allocation)
  | dataSwap (arena : Nat) (l : Allocation) (old new : Nat)
  /-- `retire_ptr` on the root: the load of the word, `set_next`, the compare-exchange. -/
  | ptrLoad (arena : Nat)
  | ptrNext (arena old new : Nat)
  | ptrSwap (arena old new : Nat)

/-- `retire`, up to the first access. -/
def startRetire (arena : Nat) (l : Allocation) : Checked Pc := do
  check (arena ≠ 0) "arena was null"
  check (l.memory ≠ 0) "memory was null"
  check (l.size ≠ 0) "size was zero"
  check (ArenaAllocator.hasType ops.toBinsOps s.heap arena)
    "arena does not belong to this allocator"
  let sizeAligned ← align l.size (s.heap arena).arenaAlignment
  check ((s.heap arena).hasMemoryRange l.memory sizeAligned) "invalid memory range to retire"
  pure (.dataLoad arena l)

/-- The head of the loop of `retire_data`, with the word as loaded. -/
def dataTurn (arena : Nat) (l : Allocation) (old : Nat) : Checked Pc := do
  let (_, new) ← RetireReclaimPtrView.retireData old l.size
  pure (.dataSwap arena l old new)

/-- The head of the loop of `retire_ptr`, with the word as loaded. -/
def ptrTurn (arena old : Nat) : Checked Pc := do
  let (_, new) ← RetireReclaimPtrView.retirePtr old arena
  pure (.ptrNext arena old new)

/-- One access of a retiring thread. -/
def Pc.next (pc : Pc) : Checked (RetiringArenas B × Pc) :=
  match pc with
  | .idle => pure (s, pc)
  | .dataLoad arena l => do
    pure (s, ← dataTurn arena l (s.word arena))
  | .dataSwap arena l old new => do
    if s.word arena = old then
      pure ({ s with
          heap := Function.update s.heap arena ((s.heap arena).withHead new)
          retiredBytes := Function.update s.retiredBytes arena (s.retiredBytes arena + l.size) },
        if retired old then .idle else .ptrLoad arena)
    else
      pure (s, ← dataTurn arena l (s.word arena))
  | .ptrLoad arena => do
    pure (s, ← ptrTurn arena s.root)
  | .ptrNext arena old new =>
    pure ({ s with
        heap := Function.update s.heap arena ((s.heap arena).withNext (RetireReclaimPtr.ptr old)) },
      .ptrSwap arena old new)
  | .ptrSwap arena old new => do
    if s.root = old then
      pure (s.withRoot new, .idle)
    else
      pure (s, ← ptrTurn arena s.root)

/-! ### Runs -/

/-- The arenas, and the retiring threads. -/
abbrev Machine (B T : Type) : Type := Threads (RetiringArenas B) T Pc

/-- The owner has made a step of its own. -/
def Machine.withShared {T : Type} (σ : Machine B T) (s : RetiringArenas B) : Machine B T :=
  ⟨s, σ.locals⟩

/-- What the owner does between two accesses of retire words.  `held` are the arenas in the bins,
`Suitable` the arenas that they take. -/
inductive OwnerStep (held : B → List Nat) (Suitable : B → FastArena → Prop) (s : RetiringArenas B) :
    RetiringArenas B → Prop
  /-- The bins have an arena for the request, and it serves the request. -/
  | allocate {size alignment p heap₁ bins₁ m heap alloc} (hidle : s.owner = .idle)
      (hsize : size < 2 ^ 64)
      (hacquire : ops.acquire s.heap s.alloc.bins size alignment = .ok (.acquired p, heap₁, bins₁))
      (hok : ops.allocate heap₁ { s.alloc with bins := bins₁ } p size = .ok (m, heap, alloc)) :
      OwnerStep held Suitable s
        { s with heap, alloc, live := Function.update s.live p (⟨m, size⟩ :: s.live p) }
  /-- The bins have no arena for the request. -/
  | acquireNone {size alignment r heap bins} (hidle : s.owner = .idle)
      (hok : ops.acquire s.heap s.alloc.bins size alignment = .ok (r, heap, bins))
      (hr : ∀ p, r ≠ .acquired p) :
      OwnerStep held Suitable s { s with heap, alloc := { s.alloc with bins } }
  /-- A fresh arena with room for the request serves it, or null is returned. -/
  | allocateFresh {p arena size m heap alloc} (hidle : s.owner = .idle) (hp : p ∉ held s.alloc.bins)
      (hlt : p < 2 ^ 64) (hfresh : arena.Fresh) (hsuit : Suitable s.alloc.bins arena)
      (hroom : size ≤ arena.arenaMemorySize)
      (hok : ops.allocate (Function.update s.heap p arena) s.alloc p size = .ok (m, heap, alloc)) :
      OwnerStep held Suitable s
        { s with
          heap, alloc
          live := if m = 0 then s.live else Function.update s.live p [⟨m, size⟩] }
  /-- The owner frees a live allocation.  A drained arena is handed back. -/
  | deallocate {p l r heap alloc} (hidle : s.owner = .idle) (hl : l ∈ s.live p)
      (hok : ops.deallocate s.heap s.alloc p l.memory l.size = .ok (r, heap, alloc)) :
      OwnerStep held Suitable s { s with
        heap, alloc
        live := Function.update s.live p (if r = 0 then (s.live p).erase l else []) }
  /-- The owner puts the rest of its walk off. -/
  | postpone {alloc} (hidle : s.owner = .idle) (hok : s.alloc.postpone s.walking = .ok alloc) :
      OwnerStep held Suitable s { s with alloc, walking := 0 }

/-- One step.  The owner calls `reclaim_arenas` at the end of a walk, and reclaims from one arena at
a time; a thread retires live allocations, whose sizes are multiples of the alignment. -/
inductive Step {T : Type} [DecidableEq T] (held : B → List Nat) (Suitable : B → FastArena → Prop)
    (σ : Machine B T) : Machine B T → Prop
  | owner {s' : RetiringArenas B} (hstep : OwnerStep ops held Suitable σ.shared s') :
      Step held Suitable σ (σ.withShared s')
  | reclaimArenas {s' : RetiringArenas B} (hidle : σ.shared.owner = .idle)
      (hwalk : σ.shared.walking = 0)
      (hok : σ.shared.startReclaimArenas = .ok s') :
      Step held Suitable σ (σ.withShared s')
  | pop {s' : RetiringArenas B} (hidle : σ.shared.owner = .idle) (hpopped : σ.shared.popped = 0)
      (hok : σ.shared.pop = .ok s') :
      Step held Suitable σ (σ.withShared s')
  | reclaimArena {s' : RetiringArenas B} (hidle : σ.shared.owner = .idle)
      (hpopped : σ.shared.popped ≠ 0)
      (hok : σ.shared.startReclaimArena ops = .ok s') :
      Step held Suitable σ (σ.withShared s')
  | ownerNext {s' : RetiringArenas B} (hok : σ.shared.ownerNext ops = .ok s') :
      Step held Suitable σ (σ.withShared s')
  | retire (t : T) {p : Nat} {l : Allocation} {pc : Pc} (hidle : σ.locals t = .idle)
      (hl : l ∈ σ.shared.live p)
      (hdvd : (σ.shared.heap p).arenaAlignment ∣ l.size)
      (hok : startRetire ops σ.shared p l = .ok pc) :
      Step held Suitable σ (σ.set t
        { σ.shared with live := Function.update σ.shared.live p ((σ.shared.live p).erase l) } pc)
  | next (t : T) {s' : RetiringArenas B} {pc : Pc}
      (hok : (σ.locals t).next σ.shared = .ok (s', pc)) : Step held Suitable σ (σ.set t s' pc)

/-- The states that runs reach from an allocator that has just been created. -/
inductive Reachable {T : Type} [DecidableEq T] (held : B → List Nat)
    (Suitable : B → FastArena → Prop)
    (init : ArenaAllocator B) : Machine B T → Prop
  | start (heap : Heap) : Reachable held Suitable init
      ⟨⟨heap, init, .idle, 0, 0, fun _ => [], fun _ => 0, fun _ => 0⟩, fun _ => .idle⟩
  | step {σ σ' : Machine B T} (h : Reachable held Suitable init σ)
      (hstep : Step ops held Suitable σ σ') : Reachable held Suitable init σ'

end RetiringArenas

end Cuw3
