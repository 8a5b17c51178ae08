/-
  `list.hpp`: intrusive lists, rings of entries with a terminator-node.

  The functions take the operations on entries as a parameter, as the templates do (`ListOps`); `σ`
  is the memory they work on and `ν` a reference to a node.
-/
import Mathlib.Logic.Function.Basic

namespace Cuw3

/-- The description of the abstraction `ListOps` in `list.hpp`. -/
structure ListOps (σ ν : Type) where
  getPrev : σ → ν → ν
  setPrev : σ → ν → ν → σ
  getNext : σ → ν → ν
  setNext : σ → ν → ν → σ
  refEquals : σ → ν → ν → Bool
  selfEquals : σ → ν → Bool

section

variable {σ ν : Type} (ops : ListOps σ ν) (memory : σ)

def listInit (node : ν) : σ :=
  let memory := ops.setPrev memory node node
  ops.setNext memory node node

def listReset (node : ν) : σ := listInit ops memory node

def listPrev (node : ν) : ν := ops.getPrev memory node

def listNext (node : ν) : ν := ops.getNext memory node

def listEmpty (node : ν) : Bool := ops.selfEquals memory node

def listInsertAfter (after node : ν) : σ :=
  let afterNext := ops.getNext memory after
  let memory := ops.setPrev memory node after
  let memory := ops.setNext memory node afterNext
  let memory := ops.setPrev memory afterNext node
  ops.setNext memory after node

def listInsertBefore (before node : ν) : σ :=
  listInsertAfter ops memory (ops.getPrev memory before) node

def listErase (node : ν) : σ :=
  let prev := ops.getPrev memory node
  let next := ops.getNext memory node
  let memory := ops.setNext memory prev next
  ops.setPrev memory next prev

def listPushHead (list node : ν) : σ := listInsertAfter ops memory list node

def listPushTail (list node : ν) : σ := listInsertBefore ops memory list node

def listPopHead (list : ν) : σ × ν :=
  let popped := ops.getNext memory list
  (listErase ops memory popped, popped)

def listPopTail (list : ν) : σ × ν :=
  let popped := ops.getPrev memory list
  (listErase ops memory popped, popped)

def listInsertChainAfter (node chain : ν) : σ :=
  if listEmpty ops memory chain then
    memory
  else
    let chainHead := ops.getNext memory chain
    let chainTail := ops.getPrev memory chain
    let nodeNext := ops.getNext memory node
    let memory := ops.setNext memory node chainHead
    let memory := ops.setPrev memory chainHead node
    let memory := ops.setNext memory chainTail nodeNext
    let memory := ops.setPrev memory nodeNext chainTail
    listReset ops memory chain

def listInsertChainBefore (node chain : ν) : σ :=
  listInsertChainAfter ops memory (listPrev ops memory node) chain

end

/-- `DefaultListEntry`: the links of all nodes. -/
structure DefaultListEntries (ν : Type) where
  prev : ν → ν
  next : ν → ν

/-- `DefaultListOps`. -/
def defaultListOps (ν : Type) [DecidableEq ν] : ListOps (DefaultListEntries ν) ν where
  getPrev entries node := entries.prev node
  setPrev entries node prev := { entries with prev := Function.update entries.prev node prev }
  getNext entries node := entries.next node
  setNext entries node next := { entries with next := Function.update entries.next node next }
  refEquals _ node1 node2 := node1 == node2
  selfEquals entries node := entries.prev node == node && entries.next node == node

/-! ### Sequences of calls -/

/-- A call of a list function.  The first argument of a call that gets a node of a list is the list
that the node is in, which is no argument of the function. -/
inductive ListCall (ν : Type) where
  | insertAfter (list after node : ν)
  | insertBefore (list before node : ν)
  | pushHead (list node : ν)
  | pushTail (list node : ν)
  | erase (list node : ν)
  | popHead (list : ν)
  | popTail (list : ν)
  | insertChainAfter (list node chain : ν)
  | insertChainBefore (list node chain : ν)
  deriving DecidableEq, Repr

/-- The memory after the call, and the node it returns. -/
def ListCall.exec {σ ν : Type} (ops : ListOps σ ν) (memory : σ) : ListCall ν → σ × Option ν
  | insertAfter _ after node => (listInsertAfter ops memory after node, none)
  | insertBefore _ before node => (listInsertBefore ops memory before node, none)
  | pushHead list node => (listPushHead ops memory list node, none)
  | pushTail list node => (listPushTail ops memory list node, none)
  | erase _ node => (listErase ops memory node, none)
  | popHead list => (listPopHead ops memory list).map id some
  | popTail list => (listPopTail ops memory list).map id some
  | insertChainAfter _ node chain => (listInsertChainAfter ops memory node chain, none)
  | insertChainBefore _ node chain => (listInsertChainBefore ops memory node chain, none)

/-- One call after the other. -/
def execCalls {σ ν : Type} (ops : ListOps σ ν) : σ → List (ListCall ν) → σ × List (Option ν)
  | memory, [] => (memory, [])
  | memory, call :: calls =>
    let (memory, result) := call.exec ops memory
    (execCalls ops memory calls).map id (result :: ·)

end Cuw3
