/-
  `atomic.hpp`: `AtomicBumpStackView::bump` of any number of threads, one atomic access of the stack
  top at a time.

  The link type has `w` bits; `null_link`, which is not an index, is `none`.  What a call computes
  between two accesses belongs to the step of the access before it.
-/
import Cuw3.Lib.Threads
import Mathlib.Algebra.Group.Nat.Defs
import Mathlib.Logic.Relation

namespace Cuw3.AtomicBumpStackView

open Lib

/-- The stack, and what the calls of `bump` have returned so far, in order.  The source does not
store the answers, and no step depends on them. -/
structure BumpStack where
  top : Nat
  limit : Nat
  answers : List (Option Nat)

/-- The indices that were handed out, in order. -/
def BumpStack.indices (stack : BumpStack) : List Nat := stack.answers.filterMap id

/-- `bump` returns `link`. -/
def BumpStack.answer (stack : BumpStack) (link : Option Nat) : BumpStack :=
  { stack with answers := stack.answers ++ [link] }

/-- The access a thread is about to make. -/
inductive Pc where
  /-- Between two calls. -/
  | idle
  | load
  | fetchAdd
  | fetchSub
  deriving DecidableEq

/-- One access of a thread. -/
def Pc.next (w : Nat) (stack : BumpStack) : Pc → BumpStack × Pc
  | .idle => (stack, .idle)
  | .load => if stack.limit ≤ stack.top then (stack.answer none, .idle) else (stack, .fetchAdd)
  | .fetchAdd =>
    let stack' := { stack with top := (stack.top + 1) % 2 ^ w }
    if stack.top < stack.limit then (stack'.answer (some stack.top), .idle) else (stack', .fetchSub)
  | .fetchSub =>
    -- `fetch_sub(1)` adds `2^w - 1`
    ({ stack with top := (stack.top + (2 ^ w - 1)) % 2 ^ w }.answer none, .idle)

/-- The stack and the threads. -/
abbrev Machine (T : Type) : Type := Threads BumpStack T Pc

variable {T : Type} [DecidableEq T] (w : Nat)

/-- One step: a thread calls `bump`, or makes its next access. -/
inductive Step (σ : Machine T) : Machine T → Prop where
  | bump (t : T) (hidle : σ.locals t = .idle) : Step σ (σ.set t σ.shared .load)
  | next (t : T) : Step σ
      (σ.set t ((σ.locals t).next w σ.shared).1 ((σ.locals t).next w σ.shared).2)

/-- Any number of steps. -/
def Runs : Machine T → Machine T → Prop := Relation.ReflTransGen (Step w)

/-- A stack whose indices are `[first, limit)`, before the first call. -/
def start (T : Type) (first limit : Nat) : Machine T := ⟨⟨first, limit, []⟩, fun _ => .idle⟩

end Cuw3.AtomicBumpStackView
