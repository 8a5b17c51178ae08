/-
  `atomic.hpp`: the functions of `AtomicPushSnatchList`, called by one thread.

  A loop of the source takes fuel and returns `none` when that runs out.  `push` is given what the
  other threads do to the list before each of its accesses to the head; a thread that runs alone is
  given `alone`.
-/
import Cuw3.Base.Funcs
import Cuw3.Graveyard.PushSnatchList
import Cuw3.Lib.Fuel
import Mathlib.Data.Finset.Basic

namespace Cuw3.AtomicPushSnatchList

open Lib

variable (s : AtomicPushSnatchList)

/-! ### The way to the tail -/

def getSkip (node : Nat) : Nat :=
  let next := s.next node
  if next ≠ nullLink then
    let skip := s.skip node
    if skip ≠ node then skip else next
  else node

/-- The loop of `get_tail`. -/
def getTailFrom (skip : Nat) : Nat → Option Nat
  | 0 => none
  | fuel + 1 =>
    let nextSkip := s.getSkip skip
    if skip = nextSkip then some skip else getTailFrom nextSkip fuel

def getTail (listHead : Nat) (fuel : Nat) : Option Nat := s.getTailFrom (s.getSkip listHead) fuel

/-! ### `bite` -/

/-- The first loop of `bite`, of at most so many turns: the tail of the first part. -/
def biteTail : Nat → Nat → Nat
  | 0, tail => tail
  | turns + 1, tail =>
    let next := s.next tail
    if next = nullLink then tail else biteTail turns next

/-- The second loop of `bite`. -/
def biteSetSkips (tail : Nat) : AtomicPushSnatchList → Nat → Nat → Option AtomicPushSnatchList
  | _, _, 0 => none
  | s, curr, fuel + 1 =>
    if curr ≠ nullLink then
      let s' := s.setSkip curr tail
      biteSetSkips tail s' (s'.next curr) fuel
    else some s

/-- The list after it, and the two parts. -/
def bite (listHead amount : Nat) (fuel : Nat) : Option (AtomicPushSnatchList × Nat × Nat) :=
  if listHead = nullLink then some (s, nullLink, nullLink)
  else do
    -- the loop runs from `1` to `amount`
    let tail := s.biteTail (amount - 1) listHead
    let part2 := s.next tail
    let s' ← biteSetSkips tail (s.setNext tail nullLink) listHead fuel
    pure (s', listHead, part2)

/-! ### `push` and `snatch` -/

/-- What the other threads do to the list before the accesses to the head, by the number of the
access. -/
abbrev Others : Type := Nat → AtomicPushSnatchList → AtomicPushSnatchList

/-- There are no other threads. -/
def alone : Others := fun _ s => s

/-- The loop of `push`, from its access to the head number `access` on. -/
def pushAttempts (others : Others) (listHead listTail : Nat) :
    AtomicPushSnatchList → Nat → Int → Nat → Nat → Option (AtomicPushSnatchList × Bool)
  | _, _, _, _, 0 => none
  | s, headOld, attempt, access, fuel + 1 =>
    if attempt ≠ 0 then
      let s' := others access (s.setNext listTail headOld)
      if s'.head = headOld then some ({ s' with head := listHead }, true)
      else pushAttempts others listHead listTail s' s'.head (countDown attempt) (access + 1) fuel
    else some (s, false)

/-- The list after it, and what it returns. -/
def push (others : Others) (attempts : Int) (listHead : Nat) (fuel : Nat) :
    Option (AtomicPushSnatchList × Bool) :=
  if listHead = nullLink then some (s, true)
  else do
    let s' := others 0 s
    let listTail ← s'.getTail listHead fuel
    -- short-circuit
    pushAttempts others listHead listTail (s'.setSkip listHead listTail) s'.head attempts 1 fuel

/-- The list after it, and what it returns. -/
def snatch : AtomicPushSnatchList × Nat :=
  if s.head = nullLink then (s, nullLink) else ({ s with head := nullLink }, s.head)

/-- The list after it, and what it returns. -/
def snatchPart (amount : Nat) (fuel : Nat) : Option (AtomicPushSnatchList × Nat) := do
  let (s', snatched) := s.snatch
  let (s', part1, part2) ← s'.bite snatched amount fuel
  let (s', _) ← s'.push alone (-1) part2 fuel
  pure (s', part1)

/-! ### Sequences of calls -/

/-- A list, and the heads of the lists that the thread holds. -/
structure Lists where
  list : AtomicPushSnatchList
  held : Finset Nat

/-- `node` is the head of a list that the thread holds now, if it is one. -/
def hold (held : Finset Nat) (node : Nat) : Finset Nat :=
  if node = nullLink then held else insert node held

/-- One call.  The thread pushes and bites lists that it holds, and the empty one. -/
inductive Lists.Step (σ : Lists) : Lists → Prop where
  | push {listHead : Nat} {attempts : Int} {list : AtomicPushSnatchList} {pushed : Bool}
      (hheld : listHead = nullLink ∨ listHead ∈ σ.held)
      (hok : Returns (σ.list.push alone attempts listHead) (list, pushed)) :
      Step σ ⟨list, if pushed then σ.held.erase listHead else σ.held⟩
  | snatch : Step σ ⟨σ.list.snatch.1, hold σ.held σ.list.snatch.2⟩
  | bite {listHead amount part1 part2 : Nat} {list : AtomicPushSnatchList}
      (hheld : listHead = nullLink ∨ listHead ∈ σ.held)
      (hok : Returns (σ.list.bite listHead amount) (list, part1, part2)) :
      Step σ ⟨list, hold (hold (σ.held.erase listHead) part1) part2⟩
  | snatchPart {amount part1 : Nat} {list : AtomicPushSnatchList}
      (hok : Returns (σ.list.snatchPart amount) (list, part1)) : Step σ ⟨list, hold σ.held part1⟩

/-- The calls of a thread that starts with single nodes and an empty shared list. -/
inductive Lists.Reachable : Lists → Prop where
  | start {σ : Lists} (hnull : nullLink ∉ σ.held) (hhead : σ.list.head = nullLink)
      (hsingle : ∀ node ∈ σ.held, σ.list.next node = nullLink ∧ σ.list.skip node = node) :
      Reachable σ
  | step {σ σ' : Lists} (h : Reachable σ) (hstep : Step σ σ') : Reachable σ'

end Cuw3.AtomicPushSnatchList
