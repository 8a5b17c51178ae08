/-
  `vmem.cpp` on Linux: address space is reserved, committed and freed in whole pages.

  The address space is the set of the mapped pages, with their rights.  The answers of the system
  are a parameter (`System`): the page size, where `mmap` puts a mapping, and whether `mprotect`
  succeeds. The ranges that `munmap` is called with are recorded.
-/
import Cuw3.Base.Funcs

namespace Cuw3

/-- The rights of a mapped page: `PROT_NONE`, or `PROT_READ | PROT_WRITE`. -/
inductive Protection where
  | none
  | readWrite
  deriving DecidableEq, Repr

structure AddressSpace where
  /-- The rights of the mapped pages. -/
  pages : Nat → Option Protection
  /-- The address and the size of every call of `munmap`, the last one first. -/
  unmaps : List (Nat × Nat)

structure System where
  /-- `getpagesize`. -/
  pageSize : Nat
  /-- The address of a new mapping of this length; none is `MAP_FAILED`. -/
  place : AddressSpace → Nat → Option Nat
  /-- Whether the rights of this range can be changed. -/
  protects : AddressSpace → Nat → Nat → Bool

namespace System

variable (system : System) (space : AddressSpace)

/-! ### System calls -/

/-- The page holds a part of `[mem, mem + size)`. -/
def touches (mem size page : Nat) : Bool :=
  mem < (page + 1) * system.pageSize && page * system.pageSize < mem + size

def mmap (size : Nat) (protection : Protection) : Option (Nat × AddressSpace) := do
  let mem ← system.place space size
  some (mem, { space with
    pages := fun page => if system.touches mem size page then some protection else space.pages page
      })

/-- The result says whether the call succeeded: `munmap(mem, size) == 0`. -/
def munmap (mem size : Nat) : Bool × AddressSpace :=
  let space := { space with unmaps := (mem, size) :: space.unmaps }
  if mem % system.pageSize = 0 ∧ 0 < size then
    (true, { space with
      pages := fun page => if system.touches mem size page then none else space.pages page })
  else
    (false, space)

def mprotect (mem size : Nat) (protection : Protection) : Bool × AddressSpace :=
  if system.protects space mem size then
    (true, { space with
      pages := fun page => if system.touches mem size page then
        (space.pages page).map fun _ => protection else space.pages page })
  else
    (false, space)

/-! ### `vmem.hpp` -/

def vMemReserve : Nat := 1
def vMemCommit : Nat := 2
def vMemReserveCommit : Nat := vMemReserve ||| vMemCommit

def vmemPageSize : Nat := system.pageSize

/-- `vmem_huge_page_size`, which is `conf_hugepage_size`. -/
def vmemHugePageSize : Nat := 2 ^ 21

def vmemAlloc (size allocType : Nat) : Nat × AddressSpace :=
  let mapped (protection : Protection) := (system.mmap space size protection).getD (0, space)
  if allocType &&& vMemReserveCommit = vMemReserve then
    mapped .none
  else if allocType &&& vMemReserveCommit = vMemReserveCommit then
    mapped .readWrite
  else
    (0, space)

def vmemFree (mem size : Nat) : Bool × AddressSpace := system.munmap space mem size

def vmemCommit (mem size : Nat) : Bool × AddressSpace := system.mprotect space mem size .readWrite

/-- `advises` says whether `madvise` succeeds, which changes no rights. -/
def vmemDecommit (advises : Bool) (mem size : Nat) : Bool × AddressSpace :=
  let (prot, space) := system.mprotect space mem size .none
  (prot && advises, space)

/-- The local `reserve_or_reserve_commit` of `vmem_alloc_aligned`. -/
def reserveOrReserveCommit (allocType : Nat) : Bool :=
  allocType &&& vMemReserveCommit == vMemReserve || allocType &&& vMemReserveCommit ==
    vMemReserveCommit

def vmemAllocAligned (size allocType addressAlignment : Nat) : Checked (Nat × AddressSpace) := do
  if !reserveOrReserveCommit allocType then
    return (0, space)
  let pageSize := system.vmemPageSize
  let addressAlignment := max pageSize addressAlignment
  if addressAlignment = pageSize then
    return system.vmemAlloc space size allocType
  let addressAlignedSize ← align size addressAlignment
  let (rawMem, space) := system.vmemAlloc space (u64 (addressAlignedSize + addressAlignment))
    vMemReserve
  if rawMem = 0 then
    return (0, space)
  let alignedMem ← align rawMem addressAlignment
  let headSize := subptr alignedMem rawMem
  let space := if headSize > 0 then (system.vmemFree space rawMem headSize).2 else space
  let pageAlignedSize ← align size pageSize
  let tailSize := sub64 (sub64 (u64 (addressAlignedSize + addressAlignment)) pageAlignedSize)
    headSize
  let (_, space) := system.vmemFree space (← advancePtr alignedMem pageAlignedSize) tailSize
  let space := if allocType &&& vMemCommit ≠ 0 then
    (system.vmemCommit space alignedMem pageAlignedSize).2 else space
  return (alignedMem, space)

end System

end Cuw3
