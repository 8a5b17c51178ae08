/-
  `atomic.hpp`: `AtomicListView::push` and `pop` of any number of threads, one atomic access of the
  list head or of a link at a time.

  A link is a number, `nullLink` is `null_link`.  A node's link stays readable whoever has the node,
  so that a `pop` may read the link of a node that another thread has taken and is writing to.  What
  a call computes between two accesses belongs to the step of the access before it.
-/
import Cuw3.Base.Funcs
import Cuw3.Lib.Threads

namespace Cuw3.AtomicListView

open Lib

/-! ### Shared state -/

structure ListHead where
  version : Nat
  next : Nat
  deriving DecidableEq

/-- The list, and what the source does not store: how often the head was updated, and which thread
holds a node exclusively.  No access depends on these two. -/
structure SharedList (T : Type) where
  head : ListHead
  links : Nat → Nat
  updates : Nat
  holder : Nat → Option T

/-- A list head as some thread loaded it, and the updates it had then. -/
structure LoadedHead extends ListHead where
  seen : Nat

variable {T : Type}

/-- `head_ref.load`. -/
def SharedList.loadHead (list : SharedList T) : LoadedHead := ⟨list.head, list.updates⟩

/-- `set_next`. -/
def SharedList.setNext (list : SharedList T) (node next : Nat) : SharedList T :=
  { list with links := Function.update list.links node next }

/-- `compare_exchange_strong` of the list head, where it succeeds; `node` passes to `holder`. -/
def SharedList.updateHead (list : SharedList T) (head : ListHead) (node : Nat)
    (holder : Option T) : SharedList T :=
  { list with
    head, updates := list.updates + 1, holder := Function.update list.holder node holder }

/-! ### Threads -/

/-- The access a thread is about to make.  `curr` counts the attempts that are left; it is negative
when there is no limit. -/
inductive Pc where
  /-- Between two calls. -/
  | idle
  /-- `push`: the load of the head, `set_next`, the compare-exchange. -/
  | pushLoad (node : Nat) (curr : Int)
  | pushNext (node : Nat) (loaded : LoadedHead) (curr : Int)
  | pushSwap (node : Nat) (loaded : LoadedHead) (curr : Int)
  /-- `pop`: the load of the head, `get_next`, the compare-exchange. -/
  | popLoad (curr : Int)
  | popNext (loaded : LoadedHead) (curr : Int)
  | popSwap (loaded : LoadedHead) (curr : Int) (next : Nat)

/-- What a step shows of a call: that it returns, and what. -/
inductive Event where
  /-- No call returns. -/
  | silent
  /-- `push(node)` returns true, or false. -/
  | pushed (node : Nat)
  | pushFailed
  /-- `pop` returns a node, `null_link`, or `op_failed`. -/
  | popped (node : Nat)
  | popNull
  | popFailed

/-- The head of the loop of `push`. -/
def pushTurn (node : Nat) (loaded : LoadedHead) (curr : Int) : Pc × Event :=
  if curr = 0 then (.idle, .pushFailed) else (.pushNext node loaded curr, .silent)

/-- The head of the loop of `pop`. -/
def popTurn (nullLink : Nat) (loaded : LoadedHead) (curr : Int) : Pc × Event :=
  if curr = 0 then (.idle, .popFailed)
  else if loaded.next = nullLink then (.idle, .popNull)
  else (.popNext loaded curr, .silent)

/-- One access of the thread `t`. -/
def Pc.next (nullLink : Nat) (t : T) (list : SharedList T) : Pc → SharedList T × Pc × Event
  | .idle => (list, .idle, .silent)
  | .pushLoad node curr => (list, pushTurn node list.loadHead curr)
  | .pushNext node loaded curr =>
    (list.setNext node loaded.next, .pushSwap node loaded curr, .silent)
  | .pushSwap node loaded curr =>
    if list.head = loaded.toListHead then
      (list.updateHead ⟨u32 (loaded.version + 1), node⟩ node none, .idle, .pushed node)
    else (list, pushTurn node list.loadHead (countDown curr))
  | .popLoad curr => (list, popTurn nullLink list.loadHead curr)
  | .popNext loaded curr => (list, .popSwap loaded curr (list.links loaded.next), .silent)
  | .popSwap loaded curr next =>
    if list.head = loaded.toListHead then
      (list.updateHead ⟨u32 (loaded.version + 1), next⟩ loaded.next (some t), .idle,
        .popped loaded.next)
    else (list, popTurn nullLink list.loadHead (countDown curr))

/-! ### Runs -/

/-- The list and the threads. -/
abbrev Machine (T : Type) : Type := Threads (SharedList T) T Pc

/-- Fewer than `2^32` updates hit the list head between the load of a thread and its
compare-exchange, which is next. -/
def Pc.Paced (list : SharedList T) : Pc → Prop
  | .pushSwap _ loaded _ => list.updates < loaded.seen + 2 ^ 32
  | .popSwap loaded _ _ => list.updates < loaded.seen + 2 ^ 32
  | _ => True

variable [DecidableEq T] (nullLink : Nat)

/-- One step, with what it shows.  A thread pushes only a node it holds; between its calls it may
write anything to the link of a node it holds, or pass the node on. -/
inductive Step (σ : Machine T) : T → Event → Machine T → Prop where
  | push (t : T) (node : Nat) (attempts : Int) (hidle : σ.locals t = .idle)
      (hheld : σ.shared.holder node = some t) (hnode : node ≠ nullLink) :
      Step σ t .silent (σ.set t σ.shared (.pushLoad node attempts))
  | pop (t : T) (attempts : Int) (hidle : σ.locals t = .idle) :
      Step σ t .silent (σ.set t σ.shared (.popLoad attempts))
  | next (t : T) (list : SharedList T) (pc : Pc) (event : Event)
      (hpaced : (σ.locals t).Paced σ.shared)
      (hnext : (σ.locals t).next nullLink t σ.shared = (list, pc, event)) :
      Step σ t event (σ.set t list pc)
  | write (t : T) (node link : Nat) (hidle : σ.locals t = .idle)
      (hheld : σ.shared.holder node = some t) :
      Step σ t .silent (σ.set t (σ.shared.setNext node link) .idle)
  | pass (t u : T) (node : Nat) (hidle : σ.locals t = .idle)
      (hheld : σ.shared.holder node = some t) :
      Step σ t .silent (σ.set t
        { σ.shared with holder := Function.update σ.shared.holder node (some u) } .idle)

/-- Steps in sequence, with what each shows. -/
inductive Run (σ : Machine T) : List (T × Event) → Machine T → Prop where
  | start : Run σ [] σ
  | step {events σ' σ''} {t : T} {event : Event} (h : Run σ events σ')
      (hstep : Step nullLink σ' t event σ'') : Run σ (events ++ [(t, event)]) σ''

end Cuw3.AtomicListView
