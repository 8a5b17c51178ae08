/-
  `cuw3.cpp`: the exported functions.

  Each thread has a guard with its thread-local allocator, made by the first function that the
  thread calls and destroyed when it exits.  As in `Allocator`, one call runs at a time; whether
  `vmem_commit` succeeds (`commitOk`) and the answer of `vmem_alloc_aligned` for a new thread-local
  allocator (`tlaMem`) are arguments.  `none` for the process says that its allocator could not be
  created; then every function returns at once.
-/
import Cuw3.Allocator.Config
import Cuw3.Allocator.Graveyard

namespace Cuw3

structure Api where
  allocator : GraveAllocator
  /-- The pointer in `guard`, by thread; none before the guard is made. -/
  guards : Nat → Option Nat
  /-- The thread-local allocators whose memory is mapped. -/
  tlas : List Nat

namespace Api

variable (api : Api)

/-! ### Thread-local allocators -/

/-- `cuw3_create_tla`. -/
def createTla (tlaMem : Nat) : Checked (Nat × Api) := do
  let (tla, allocator) ← api.allocator.createTla cuw3CreateTlaConfig tlaMem
  let tlas := if tla = 0 ∨ tla ∈ api.tlas then api.tlas else tla :: api.tlas
  pure (tla, { api with allocator, tlas })

/-- `cuw3_get_tla`. -/
def getTla (thread tlaMem : Nat) : Checked (Nat × Api) :=
  match api.guards thread with
  | some tla => pure (tla, api)
  | none => do
    let (tla, api) ← api.createTla tlaMem
    pure (tla, { api with guards := Function.update api.guards thread (some tla) })

/-- `cuw3_destroy_tla`. -/
def destroyTla (tla : Nat) : Checked Api := do
  let allocator ← api.allocator.destroyTla tla
  pure { api with allocator, tlas := api.tlas.erase tla }

/-- The destructor of the `guard` of a thread. -/
def exitThread (fuel thread : Nat) : Checked (Option Api) :=
  match api.guards thread with
  | none => pure (some api)
  | some tla => do
    if tla = 0 then
      return some api
    let some (destroyed, allocator) ← api.allocator.exitThread fuel tla | return none
    let tlas := if destroyed then api.tlas.erase tla else api.tlas
    pure (some { allocator, tlas, guards := Function.update api.guards thread (some 0) })

/-! ### The exported functions, once there is an allocator -/

def alloc (commitOk : Bool) (thread tlaMem size alignment : Nat) : Checked (Nat × Api) := do
  let (tla, api) ← api.getTla thread tlaMem
  if tla = 0 then
    return (0, api)
  let (res, allocator) ← api.allocator.toAllocator.allocate commitOk tla size alignment
  let api := { api with allocator := { api.allocator with toAllocator := allocator } }
  match res with
  | .acquired ptr => pure (ptr, api)
  | _ => pure (0, api)

/-- The end of `cuw3_free` and of `cuw3_cleanup`. -/
def graveCleanup (fuel tla : Nat) : Checked (Option Api) := do
  let some (released, allocator) ← api.allocator.graveTlaCleanup fuel tla | return none
  let api := { api with allocator }
  if released = 0 then
    return some api
  return some (← api.destroyTla released)

def free (fuel thread tlaMem ptr size : Nat) : Checked (Option Api) := do
  let (tla, api) ← api.getTla thread tlaMem
  if tla = 0 then
    return some api
  let allocator ← api.allocator.toAllocator.deallocate tla ptr size
  let alloc := { api.allocator with toAllocator := allocator }
  let some (_, allocator) ← alloc.thisTlaCleanup fuel tla | return none
  graveCleanup { api with allocator } fuel tla

def reclaim (fuel thread tlaMem : Nat) : Checked (Option Api) := do
  let (tla, api) ← api.getTla thread tlaMem
  if tla = 0 then
    return some api
  let some (_, allocator) ← api.allocator.toAllocator.reclaim fuel tla | return none
  pure (some { api with allocator := { api.allocator with toAllocator := allocator } })

def cleanup (fuel thread tlaMem : Nat) : Checked (Option Api) := do
  let (tla, api) ← api.getTla thread tlaMem
  if tla = 0 then
    return some api
  api.graveCleanup fuel tla

end Api

/-! ### The exported functions -/

/-- `cuw3_alloc`. -/
def cuw3Alloc (process : Option Api) (commitOk : Bool) (thread tlaMem size alignment : Nat) :
    Checked (Nat × Option Api) :=
  match process with
  | none => pure (0, none)
  | some api => do
    let (ptr, api) ← api.alloc commitOk thread tlaMem size alignment
    pure (ptr, some api)

/-- A function that returns nothing. -/
def exported (process : Option Api) (function : Api → Checked (Option Api)) :
    Checked (Option (Option Api)) :=
  match process with
  | none => pure (some none)
  | some api => do
    let some api ← function api | return none
    pure (some (some api))

def cuw3Free (process : Option Api) (fuel thread tlaMem ptr size : Nat) :
    Checked (Option (Option Api)) :=
  exported process fun api => api.free fuel thread tlaMem ptr size

def cuw3Reclaim (process : Option Api) (fuel thread tlaMem : Nat) :
    Checked (Option (Option Api)) :=
  exported process fun api => api.reclaim fuel thread tlaMem

def cuw3Cleanup (process : Option Api) (fuel thread tlaMem : Nat) :
    Checked (Option (Option Api)) :=
  exported process fun api => api.cleanup fuel thread tlaMem

/-- A thread exits. -/
def exitGuard (process : Option Api) (fuel thread : Nat) : Checked (Option (Option Api)) :=
  exported process fun api => api.exitThread fuel thread

end Cuw3
