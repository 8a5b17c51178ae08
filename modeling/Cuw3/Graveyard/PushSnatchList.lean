/-
  `atomic.hpp`, `AtomicPushSnatchList`, and the graveyard of `thread_graveyard.hpp` on top of it:
  `push`, `snatch`, `snatch_part`, `acquire`, `put_thread` and `release_thread` of any number of
  threads, one access of the list head or of a link at a time.

  Links are pointers, null is zero.  What a call computes between two accesses belongs to the step
  of the access before it.  The graveyard is the simplified one (`CUW3_SIMPLIFY_GRAVEYARD`) with
  `DefaultThreadGraveyardOps`.  `push` has no limit of attempts; `backoff` does nothing to the list.
-/
import Cuw3.Lib.Threads

namespace Cuw3

open Lib

/-- `null_link`. -/
abbrev nullLink : Nat := 0

/-! ### Shared state -/

/-- The head of the list, and the links of all nodes. -/
structure AtomicPushSnatchList where
  head : Nat
  next : Nat → Nat
  skip : Nat → Nat

namespace AtomicPushSnatchList

/-- `set_next`. -/
def setNext (s : AtomicPushSnatchList) (node next : Nat) : AtomicPushSnatchList :=
  { s with next := Function.update s.next node next }

/-- `set_skip`. -/
def setSkip (s : AtomicPushSnatchList) (node skip : Nat) : AtomicPushSnatchList :=
  { s with skip := Function.update s.skip node skip }

/-- `reset_next`. -/
def resetNext (s : AtomicPushSnatchList) (node : Nat) : AtomicPushSnatchList :=
  s.setNext node nullLink

/-- `reset_skip`. -/
def resetSkip (s : AtomicPushSnatchList) (node : Nat) : AtomicPushSnatchList :=
  s.setSkip node node

/-! ### Threads -/

/-- The function that called `snatch`; `snatch` itself where the client did. -/
inductive Caller where
  | snatch
  | snatchPart (amount : Nat)
  | acquire

/-- The access a thread is about to make. -/
inductive Pc where
  /-- Between two calls. -/
  | idle
  /-- `push`: the load of the head. -/
  | pushLoad (list : Nat)
  /-- `get_skip` of `node` in `get_tail`: `get_next`, then `get_skip` of the node ops.  `first` is
  the call before the loop. -/
  | tailNext (list headOld node : Nat) (first : Bool)
  | tailSkip (list headOld node next : Nat) (first : Bool)
  /-- `push`: the short-circuit, `set_next` of the tail, the compare-exchange. -/
  | pushSkip (list headOld tail : Nat)
  | pushNext (list headOld tail : Nat)
  | pushSwap (list headOld tail : Nat)
  /-- `snatch`: the load of the head, the exchange. -/
  | snatchLoad (caller : Caller)
  | snatchSwap (caller : Caller)
  /-- `bite`: `get_next` in the first loop, `get_next` and `set_next` of the tail, `set_skip` and
  `get_next` in the second loop. -/
  | biteNext (part1 tail i amount : Nat)
  | biteRest (part1 tail : Nat)
  | biteCut (part1 part2 tail : Nat)
  | biteSkip (part1 part2 tail curr : Nat)
  | biteCurr (part1 part2 tail curr : Nat)
  /-- `acquire_distribute_`: `get_next` of the first node. -/
  | acquireNext (snatched : Nat)
  /-- `enqueue_thread_`: `reset_next`, `reset_skip`. -/
  | resetNext (thread : Nat)
  | resetSkip (thread : Nat)

/-- A thread: its program counter, the lists it holds, by their heads, and the graveyard entries it
holds.  The first part of a list that was bitten and an entry that was acquired are held from then
on, also while the rest is pushed back. -/
structure Worker where
  pc : Pc
  held : List Nat
  entries : List Nat

variable (list headOld : Nat) (held entries : List Nat)

/-- `push`, up to the first access. -/
def startPush : Worker :=
  if list = nullLink then ⟨.idle, held, entries⟩ else ⟨.pushLoad list, held, entries⟩

/-- The rest of a turn of `get_tail` once `get_skip` of the node has returned. -/
def tailTurn (node skip : Nat) (first : Bool) : Pc :=
  if !first ∧ node = skip then .pushSkip list headOld node
  else .tailNext list headOld skip false

/-- The head of the first loop of `bite`. -/
def biteTurn (part1 tail i amount : Nat) : Pc :=
  if i < amount then .biteNext part1 tail i amount else .biteRest part1 tail

/-- What the caller of `snatch` does with the list, up to its first access. -/
def snatched (caller : Caller) : Worker :=
  if list = nullLink then ⟨.idle, held, entries⟩
  else match caller with
    | .snatch => ⟨.idle, list :: held, entries⟩
    | .snatchPart amount => ⟨biteTurn list list 1 amount, held, entries⟩
    | .acquire => ⟨.acquireNext list, held, entries⟩

/-- The head of the second loop of `bite`; after it, `snatch_part` pushes the second part back. -/
def biteSkips (part1 part2 tail curr : Nat) : Worker :=
  if curr ≠ nullLink then ⟨.biteSkip part1 part2 tail curr, held, entries⟩
  else startPush part2 (part1 :: held) entries

/-! ### Steps -/

/-- One access of a thread. -/
def Worker.next (s : AtomicPushSnatchList) (worker : Worker) : AtomicPushSnatchList × Worker :=
  let held := worker.held
  let entries := worker.entries
  match worker.pc with
  | .idle => (s, worker)
  | .pushLoad list => (s, ⟨.tailNext list s.head list true, held, entries⟩)
  | .tailNext list headOld node first =>
    if s.next node ≠ nullLink then
      (s, ⟨.tailSkip list headOld node (s.next node) first, held, entries⟩)
    else (s, ⟨tailTurn list headOld node node first, held, entries⟩)
  | .tailSkip list headOld node next first =>
    let skip := s.skip node
    (s, ⟨tailTurn list headOld node (if skip ≠ node then skip else next) first, held, entries⟩)
  | .pushSkip list headOld tail =>
    (s.setSkip list tail, ⟨.pushNext list headOld tail, held, entries⟩)
  | .pushNext list headOld tail =>
    (s.setNext tail headOld, ⟨.pushSwap list headOld tail, held, entries⟩)
  | .pushSwap list headOld tail =>
    if s.head = headOld then ({ s with head := list }, ⟨.idle, held, entries⟩)
    else (s, ⟨.pushNext list s.head tail, held, entries⟩)
  | .snatchLoad caller =>
    if s.head = nullLink then (s, snatched nullLink held entries caller)
    else (s, ⟨.snatchSwap caller, held, entries⟩)
  | .snatchSwap caller => ({ s with head := nullLink }, snatched s.head held entries caller)
  | .biteNext part1 tail i amount =>
    let next := s.next tail
    if next = nullLink then (s, ⟨.biteRest part1 tail, held, entries⟩)
    else (s, ⟨biteTurn part1 next (i + 1) amount, held, entries⟩)
  | .biteRest part1 tail => (s, ⟨.biteCut part1 (s.next tail) tail, held, entries⟩)
  | .biteCut part1 part2 tail =>
    (s.setNext tail nullLink, biteSkips held entries part1 part2 tail part1)
  | .biteSkip part1 part2 tail curr =>
    (s.setSkip curr tail, ⟨.biteCurr part1 part2 tail curr, held, entries⟩)
  | .biteCurr part1 part2 tail curr => (s, biteSkips held entries part1 part2 tail (s.next curr))
  | .acquireNext snatched => (s, startPush (s.next snatched) held (snatched :: entries))
  | .resetNext thread => (s.resetNext thread, ⟨.resetSkip thread, held, entries⟩)
  | .resetSkip thread => (s.resetSkip thread, startPush thread held entries)

/-! ### Runs -/

/-- The list and the threads. -/
abbrev Machine (T : Type) : Type := Threads AtomicPushSnatchList T Worker

/-- One step: a thread starts a call, or makes its next access.  A thread pushes only lists that it
holds, and the empty one, and puts or releases only entries that it holds; `release_thread` is
`put_thread` of the entry. -/
inductive Step {T : Type} [DecidableEq T] (σ : Machine T) : Machine T → Prop where
  | push (t : T) (list : Nat) (hidle : (σ.locals t).pc = .idle)
      (hheld : list = nullLink ∨ list ∈ (σ.locals t).held) :
      Step σ (σ.set t σ.shared
        (startPush list ((σ.locals t).held.erase list) (σ.locals t).entries))
  | snatch (t : T) (caller : Caller) (hidle : (σ.locals t).pc = .idle) :
      Step σ (σ.set t σ.shared ⟨.snatchLoad caller, (σ.locals t).held, (σ.locals t).entries⟩)
  | putThread (t : T) (thread : Nat) (hidle : (σ.locals t).pc = .idle)
      (hheld : thread ∈ (σ.locals t).entries) :
      Step σ (σ.set t σ.shared
        ⟨.resetNext thread, (σ.locals t).held, (σ.locals t).entries.erase thread⟩)
  | next (t : T) :
      Step σ (σ.set t ((σ.locals t).next σ.shared).1 ((σ.locals t).next σ.shared).2)

/-- The runs from a state. -/
inductive Reachable {T : Type} [DecidableEq T] (σ₀ : Machine T) : Machine T → Prop where
  | start : Reachable σ₀ σ₀
  | step {σ σ' : Machine T} : Reachable σ₀ σ → Step σ σ' → Reachable σ₀ σ'

end AtomicPushSnatchList

end Cuw3
