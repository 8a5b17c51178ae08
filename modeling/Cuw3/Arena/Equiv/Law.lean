/-
  The law of one arena: how its bytes are accounted.

  `Static` collects what `create` checks about the fields that never change.  `Law arena live` adds
  the accounting for the allocations `live` that were made and not yet freed: the freed bytes, the
  bytes of the live allocations and the count in the retire word together never exceed `top`
  (`Law.accounted`).  Each operation comes with an equation for what it returns
  (`Static.acquire_eq`, `Static.release_eq`, `Static.retireAllocation_eq_ok`,
  `Static.reclaimAllocations_eq_ok`, `reset_eq_ok`) and a lemma that it keeps the law.
-/
import Cuw3.Arena.Equiv.RetireWord
import Mathlib.Algebra.BigOperators.Ring.List
import Mathlib.Algebra.Order.BigOperators.Group.List
import Mathlib.Data.List.Perm.Subperm

namespace Cuw3

/-- An allocation: its address and the size the client asked for. -/
structure Allocation where
  memory : Nat
  size : Nat
  deriving DecidableEq, Repr

namespace FastArena

variable (arena : FastArena)

/-- The count of retired bytes in the retire word. -/
def pending : Nat := arena.retireReclaimEntry.head / 2

/-- The retired flag of the retire word is set. -/
def flagged : Prop := arena.retireReclaimEntry.head % 2 = 1

instance : Decidable arena.flagged := inferInstanceAs (Decidable (_ = _))

/-- What `align(size, arena_alignment)` computes: the bytes that an allocation of `size` takes.  It
is `0` when rounding `size` up leaves the 64-bit range. -/
def requiredSpace (size : Nat) : Nat :=
  u64 (size + arena.arenaAlignment - 1) / arena.arenaAlignment * arena.arenaAlignment

/-- The bytes that the allocations `live` take. -/
def liveBytes (live : List Allocation) : Nat := (live.map fun l => arena.requiredSpace l.size).sum

/-- What `create` has checked about the fields that do not change.  The block of memory does not
wrap around the address space. -/
structure Static : Prop where
  isAlignment : isAlignment arena.arenaAlignment = true
  min_le : confMinAllocAlignment ≤ arena.arenaAlignment
  size_dvd : arena.arenaAlignment ∣ arena.arenaMemorySize
  memory_dvd : arena.arenaAlignment ∣ arena.arenaMemory
  memory_pos : 0 < arena.arenaMemory
  bound : arena.arenaMemory + arena.arenaMemorySize < 2 ^ 64

variable {arena} in
theorem Static.withHead (h : arena.Static) (head : Nat) : (arena.withHead head).Static :=
  ⟨h.isAlignment, h.min_le, h.size_dvd, h.memory_dvd, h.memory_pos, h.bound⟩

/-- The law of an arena whose live allocations are `live`. -/
structure Law (live : List Allocation) : Prop extends Static arena where
  top_dvd : arena.arenaAlignment ∣ arena.top
  freed_dvd : arena.arenaAlignment ∣ arena.freed
  top_le : arena.top ≤ arena.arenaMemorySize
  range : ∀ l ∈ live, arena.arenaMemory ≤ l.memory ∧
    l.memory + arena.requiredSpace l.size ≤ arena.arenaMemory + arena.arenaMemorySize
  size_pos : ∀ l ∈ live, 0 < l.size ∧ l.size < 2 ^ 64
  accounted : arena.freed + arena.liveBytes live + arena.pending ≤ arena.top

@[simp] theorem withHead_head (head : Nat) : (arena.withHead head).retireReclaimEntry.head = head :=
  rfl

@[simp] theorem withHead_pending (head : Nat) : (arena.withHead head).pending = head / 2 := rfl

@[simp] theorem liveBytes_nil : arena.liveBytes [] = 0 := rfl

@[simp] theorem liveBytes_cons (l : Allocation) (live : List Allocation) :
    arena.liveBytes (l :: live) = arena.requiredSpace l.size + arena.liveBytes live := by
  simp [liveBytes]

theorem liveBytes_erase {l : Allocation} {live : List Allocation} (h : l ∈ live) :
    arena.liveBytes live = arena.requiredSpace l.size + arena.liveBytes (live.erase l) := by
  rw [← liveBytes_cons]
  exact ((List.perm_cons_erase h).map _).sum_eq

theorem liveBytes_perm {xs ys : List Allocation} (h : xs.Perm ys) :
    arena.liveBytes xs = arena.liveBytes ys := (h.map _).sum_eq

theorem liveBytes_le {xs ys : List Allocation} (h : xs.Subperm ys) :
    arena.liveBytes xs ≤ arena.liveBytes ys := by
  obtain ⟨zs, hperm, hsub⟩ := h
  rw [← arena.liveBytes_perm hperm]
  exact (hsub.map _).sum_le_sum (by simp)

/-! ### Rounding at 64 bits -/

section Rounding

variable {arena} {size : Nat}

theorem requiredSpace_dvd (size : Nat) : arena.arenaAlignment ∣ arena.requiredSpace size :=
  Dvd.intro_left _ rfl

theorem liveBytes_dvd (live : List Allocation) : arena.arenaAlignment ∣ arena.liveBytes live :=
  List.dvd_sum fun x hx => by
    obtain ⟨l, -, rfl⟩ := List.mem_map.mp hx
    exact requiredSpace_dvd l.size

theorem requiredSpace_lt (size : Nat) : arena.requiredSpace size < 2 ^ 64 :=
  lt_of_le_of_lt (Nat.div_mul_le_self _ _) (u64_lt _)

theorem requiredSpace_of_le (h : size + arena.arenaAlignment - 1 < 2 ^ 64) :
    arena.requiredSpace size = alignUp size arena.arenaAlignment := by
  rw [requiredSpace, u64_of_lt h, alignUp]

theorem requiredSpace_of_wrap (hs : size < 2 ^ 64) (ha : 0 < arena.arenaAlignment)
    (h : 2 ^ 64 ≤ size + arena.arenaAlignment - 1) : arena.requiredSpace size = 0 := by
  have hu : u64 (size + arena.arenaAlignment - 1) ≤ size + arena.arenaAlignment - 1 - 2 ^ 64 := by
    rw [u64, Nat.mod_eq_sub_mod h]
    exact Nat.mod_le _ _
  rw [requiredSpace, Nat.div_eq_of_lt (by omega), Nat.zero_mul]

/-- A multiple of the alignment takes its own size. -/
theorem requiredSpace_of_dvd (hs : size < 2 ^ 64) (ha : isAlignment arena.arenaAlignment = true)
    (h : arena.arenaAlignment ∣ size) : arena.requiredSpace size = size := by
  have hpos := isAlignment_pos ha
  have hmul : arena.arenaAlignment ∣ 2 ^ 64 := by
    obtain ⟨k, hk, hk'⟩ := isAlignment_iff.mp ha
    exact hk' ▸ Nat.pow_dvd_pow 2 (by omega)
  have hle : size + arena.arenaAlignment ≤ 2 ^ 64 := by
    have hdiff : arena.arenaAlignment ≤ 2 ^ 64 - size :=
      Nat.le_of_dvd (by omega) (Nat.dvd_sub hmul h)
    omega
  rw [requiredSpace_of_le (by omega), alignUp_of_dvd hpos h]

theorem le_requiredSpace (ha : 0 < arena.arenaAlignment)
    (h : size + arena.arenaAlignment - 1 < 2 ^ 64) : size ≤ arena.requiredSpace size := by
  rw [requiredSpace_of_le h]
  exact le_alignUp ha

end Rounding

/-! ### What the operations return -/

section Equations

variable {arena} {size memory : Nat} {arena' : FastArena}

theorem Static.align_eq (h : arena.Static) (size : Nat) :
    align size arena.arenaAlignment = .ok (arena.requiredSpace size) := Cuw3.align_eq h.isAlignment

theorem Static.alignment_pos (h : arena.Static) : 0 < arena.arenaAlignment :=
  isAlignment_pos h.isAlignment

/-- `acquire` returns null when the rounded size does not fit, and otherwise the block at the old
top. -/
theorem Static.acquire_eq (h : arena.Static) (htop : arena.top ≤ arena.arenaMemorySize) :
    arena.acquire size = .ok (if arena.arenaMemorySize - arena.top < arena.requiredSpace size then
      (0, arena) else (arena.arenaMemory + arena.top,
        { arena with top := arena.top + arena.requiredSpace size })) := by
  have hb := h.bound
  have hp := h.memory_pos
  simp only [acquire, check_of htop, h.align_eq, ok_bind]
  split_ifs with hlt
  · rfl
  · rw [advancePtr_eq (by omega), u64_of_lt (by omega), u64_of_lt (by omega)]
    rfl

/-- The range check on the free side passes for a block inside the arena. -/
theorem Static.hasMemoryRange (h : arena.Static) (hlo : arena.arenaMemory ≤ memory)
    (hhi : memory + size ≤ arena.arenaMemory + arena.arenaMemorySize) :
    arena.hasMemoryRange memory size = true := by
  have hb := h.bound
  simp only [FastArena.hasMemoryRange, u64_of_lt hb,
    u64_of_lt (show memory + size < 2 ^ 64 by omega),
    Bool.and_eq_true, decide_eq_true_eq]
  exact ⟨hlo, hhi⟩

theorem Static.release_eq (h : arena.Static) (hlo : arena.arenaMemory ≤ memory)
    (hhi : memory + arena.requiredSpace size ≤ arena.arenaMemory + arena.arenaMemorySize)
    (htop : arena.top ≤ arena.arenaMemorySize)
    (hfreed : arena.freed + arena.requiredSpace size ≤ arena.top) :
    arena.release memory size =
      .ok { arena with freed := arena.freed + arena.requiredSpace size } := by
  have hb := h.bound
  have hu : u64 (arena.freed + arena.requiredSpace size) = arena.freed + arena.requiredSpace size :=
    u64_of_lt (by omega)
  simp only [release, releaseAligned, h.align_eq, ok_bind, isAligned_eq h.isAlignment,
    requiredSpace_dvd, decide_true, check_of, h.hasMemoryRange hlo hhi, hu, hfreed]
  rfl

theorem Static.retireAllocation_eq_ok (h : arena.Static) {old : Nat}
    (hlo : arena.arenaMemory ≤ memory)
    (hhi : memory + arena.requiredSpace size ≤ arena.arenaMemory + arena.arenaMemorySize) :
    arena.retireAllocation memory size = .ok (old, arena') ↔
      u64 (arena.pending + size) < 2 ^ 63 ∧ old = arena.retireReclaimEntry.head ∧
        arena' = arena.withHead (2 * u64 (arena.pending + size) + 1) := by
  simp only [retireAllocation, h.align_eq, ok_bind, check_of (h.hasMemoryRange hlo hhi), bind_eq_ok,
    pure_eq_ok, Prod.mk.injEq, Prod.exists, RetireReclaimPtrView.retireData_eq_ok, pending]
  constructor
  · rintro ⟨a, b, ⟨h1, rfl, rfl⟩, rfl, rfl⟩
    exact ⟨h1, rfl, rfl⟩
  · rintro ⟨h1, rfl, rfl⟩
    exact ⟨_, _, ⟨h1, rfl, rfl⟩, rfl, rfl⟩

theorem Static.reclaimAllocations_eq_ok (h : arena.Static)
    (hle : arena.freed + arena.pending ≤ arena.top) (htop : arena.top ≤ arena.arenaMemorySize) :
    arena.reclaimAllocations = .ok arena' ↔ arena.flagged ∧ arena.arenaAlignment ∣ arena.pending ∧
      arena' = { arena.withHead 0 with freed := arena.freed + arena.pending } := by
  have hb := h.bound
  have hrelease : (arena.withHead 0).releaseReclaimed arena.pending = .ok arena' ↔
      arena.arenaAlignment ∣ arena.pending ∧
        arena' = { arena.withHead 0 with freed := arena.freed + arena.pending } := by
    change (do
      check (← isAligned arena.pending arena.arenaAlignment) _
      check (u64 (arena.freed + arena.pending) ≤ arena.top) _
      pure { arena.withHead 0 with freed := u64 (arena.freed + arena.pending) }) = _ ↔ _
    simp only [isAligned_eq h.isAlignment, u64_of_lt (show arena.freed + arena.pending < 2 ^ 64 by
      omega), ok_bind, bind_eq_ok, check_eq_ok, decide_eq_true_eq, exists_const, hle, true_and,
      pure_eq_ok]
    exact and_congr_right fun _ => eq_comm
  simp only [reclaimAllocations, bind_eq_ok, Prod.exists, RetireReclaimPtrView.reclaimReset_eq_ok]
  constructor
  · rintro ⟨w, new, ⟨hf, rfl, rfl⟩, hok⟩
    rw [RetireReclaimPtr.valueShifted_eq] at hok
    exact ⟨hf, hrelease.mp hok⟩
  · rintro ⟨hf, hok⟩
    refine ⟨_, _, ⟨hf, rfl, rfl⟩, ?_⟩
    rw [RetireReclaimPtr.valueShifted_eq]
    exact hrelease.mpr hok

@[simp] theorem resettable_eq_true : arena.resettable = true ↔ arena.freed = arena.top := by
  simp [resettable]

theorem reset_eq_ok : arena.reset = .ok arena' ↔
    arena.freed = arena.top ∧ arena' = { arena with top := 0, freed := 0 } := by
  simp only [reset, bind_eq_ok, check_eq_ok, resettable_eq_true, exists_const, pure_eq_ok]
  exact and_congr_right fun _ => eq_comm

end Equations

/-! ### The law is kept -/

section Law

variable {arena arena' : FastArena} {live : List Allocation} {l : Allocation}

/-- What `create` accepts obeys the law, when the block does not wrap around the address space. -/
theorem law_of_create {memory : Memory} {config : FastArenaConfig}
    (hcreate : (create memory config).Creates arena)
    (hbound : config.arenaMemory + config.arenaMemorySize < 2 ^ 64)
    (hflags : config.retireReclaimFlags < 2 ^ 64) : arena.Law [] ∧ arena.pending = 0 := by
  simp only [create, creates_bind, creates_lift, creates_checkReturnVal, creates_pure,
    exists_const] at hcreate
  obtain ⟨_, -, -, -, hmem, ⟨hal, hmin⟩, _, hsize, hsizeAligned, _, hmemory, hmemoryAligned, header,
    -, entry, hentry, rfl⟩ := hcreate
  rw [isAligned_eq hal, Except.ok.injEq] at hsize hmemory
  subst hsize hmemory
  simp only [decide_eq_true_eq] at hsizeAligned hmemoryAligned
  have hhead : entry.head < 2 := by
    simp only [RetireReclaimEntry.create, RetireReclaimPtr.packed, AlignmentPackedInt.packed,
      bind_eq_ok, assert_eq_ok, pure_eq_ok, exists_const] at hentry
    obtain ⟨head, ⟨-, hflag, rfl⟩, rfl⟩ := hentry
    have hmask : not64 (AlignmentPackedInt.alignmentMask retireReclaimFlagBits) =
      not64 (2 ^ 1 - 1) :=
      rfl
    rw [hmask, and_not64_two_pow (by omega) hflags] at hflag
    simp only [Nat.zero_or]
    omega
  refine ⟨⟨⟨hal, hmin, hsizeAligned, hmemoryAligned, Nat.pos_of_ne_zero hmem, hbound⟩,
    Nat.dvd_zero _, Nat.dvd_zero _, Nat.zero_le _, by simp, by simp, ?_⟩, ?_⟩
  · simp only [pending, liveBytes_nil]
    omega
  · simp only [pending]
    omega

/-- A successful `acquire` hands out the block at the old top. -/
theorem Law.acquire_eq_some (h : arena.Law live) {size mem : Nat}
    (hok : arena.acquire size = .ok (mem, arena')) (hmem : mem ≠ 0) :
    mem = arena.arenaMemory + arena.top ∧
      arena.top + arena.requiredSpace size ≤ arena.arenaMemorySize ∧
      arena' = { arena with top := arena.top + arena.requiredSpace size } := by
  rw [h.acquire_eq h.top_le, Except.ok.injEq] at hok
  have htop := h.top_le
  split_ifs at hok with hfit
  · exact absurd (congrArg Prod.fst hok).symm hmem
  · obtain ⟨rfl, rfl⟩ := Prod.mk.inj hok
    exact ⟨rfl, by omega, rfl⟩

theorem Law.acquire (h : arena.Law live) {size mem : Nat} (hpos : 0 < size) (hlt : size < 2 ^ 64)
    (hok : arena.acquire size = .ok (mem, arena')) (hmem : mem ≠ 0) :
    arena'.Law (⟨mem, size⟩ :: live) := by
  obtain ⟨rfl, hfit, rfl⟩ := h.acquire_eq_some hok hmem
  refine ⟨⟨h.isAlignment, h.min_le, h.size_dvd, h.memory_dvd, h.memory_pos, h.bound⟩,
    Nat.dvd_add h.top_dvd (requiredSpace_dvd size), h.freed_dvd, hfit, ?_, ?_, ?_⟩
  · rintro l (_ | ⟨_, hl⟩)
    · constructor
      · dsimp only
        omega
      · change _ + arena.requiredSpace size ≤ _
        dsimp only
        omega
    · exact h.range l hl
  · rintro l (_ | ⟨_, hl⟩)
    · exact ⟨hpos, hlt⟩
    · exact h.size_pos l hl
  · change arena.freed + arena.liveBytes (_ :: live) + arena.pending ≤ _
    have hacc := h.accounted
    rw [liveBytes_cons]
    dsimp only
    omega

/-- Freeing a live allocation passes every check. -/
theorem Law.release_eq (h : arena.Law live) (hl : l ∈ live) : arena.release l.memory l.size =
    .ok { arena with freed := arena.freed + arena.requiredSpace l.size } := by
  obtain ⟨hlo, hhi⟩ := h.range l hl
  have hacc := h.accounted
  rw [arena.liveBytes_erase hl] at hacc
  exact h.toStatic.release_eq hlo hhi h.top_le (by omega)

theorem Law.release (h : arena.Law live) (hl : l ∈ live)
    (hok : arena.release l.memory l.size = .ok arena') : arena'.Law (live.erase l) := by
  rw [h.release_eq hl, Except.ok.injEq] at hok
  subst hok
  refine ⟨⟨h.isAlignment, h.min_le, h.size_dvd, h.memory_dvd, h.memory_pos, h.bound⟩, h.top_dvd,
    Nat.dvd_add h.freed_dvd (requiredSpace_dvd _), h.top_le,
    fun x hx => h.range x (List.mem_of_mem_erase hx),
    fun x hx => h.size_pos x (List.mem_of_mem_erase hx), ?_⟩
  have hacc := h.accounted
  rw [arena.liveBytes_erase hl] at hacc
  change arena.freed + arena.requiredSpace l.size + arena.liveBytes _ + arena.pending ≤ arena.top
  omega

/-- The retire word never counts more than the bytes the allocation takes, and exactly these only
for a multiple of the alignment. -/
theorem Static.retired_le (h : arena.Static) {count size : Nat} (hs : size < 2 ^ 64)
    (hcount : u64 (count + size) < 2 ^ 63) : u64 (count + size) ≤ count + arena.requiredSpace size ∧
      (u64 (count + size) = count + arena.requiredSpace size → arena.arenaAlignment ∣ size) := by
  have hpos := h.alignment_pos
  have hmax : arena.arenaAlignment ≤ 2 ^ 63 := by
    obtain ⟨k, hk, hk'⟩ := isAlignment_iff.mp h.isAlignment
    exact hk' ▸ Nat.pow_le_pow_right (by omega) (by omega)
  by_cases hwrap : size + arena.arenaAlignment - 1 < 2 ^ 64
  · have hle := le_requiredSpace hpos hwrap
    have hmod : u64 (count + size) ≤ count + size := Nat.mod_le _ _
    refine ⟨by omega, fun heq => ?_⟩
    rw [requiredSpace_of_le hwrap] at hle heq
    exact (alignUp_eq_self_iff hpos).mp (by omega)
  · rw [requiredSpace_of_wrap hs hpos (by omega)]
    by_cases hsum : count + size < 2 ^ 64
    · rw [u64_of_lt hsum] at hcount
      omega
    · have hmod : u64 (count + size) ≤ count + size - 2 ^ 64 := by
        rw [u64, Nat.mod_eq_sub_mod (by omega)]
        exact Nat.mod_le _ _
      omega

/-- A live allocation whose size is a multiple of the alignment is counted without wrap-around. -/
theorem Law.u64_pending (h : arena.Law live) (hl : l ∈ live)
    (hdvd : arena.arenaAlignment ∣ l.size) :
    u64 (arena.pending + l.size) = arena.pending + l.size := by
  have hreq := requiredSpace_of_dvd (h.size_pos l hl).2 h.isAlignment hdvd
  have hacc := h.accounted
  rw [arena.liveBytes_erase hl, hreq] at hacc
  have htop := h.top_le
  have hbound := h.bound
  exact u64_of_lt (by omega)

theorem Law.retireAllocation_eq_ok (h : arena.Law live) (hl : l ∈ live) {old : Nat} :
    arena.retireAllocation l.memory l.size = .ok (old, arena') ↔
      u64 (arena.pending + l.size) < 2 ^ 63 ∧ old = arena.retireReclaimEntry.head ∧
        arena' = arena.withHead (2 * u64 (arena.pending + l.size) + 1) :=
  h.toStatic.retireAllocation_eq_ok (h.range l hl).1 (h.range l hl).2

theorem Law.retireAllocation (h : arena.Law live) (hl : l ∈ live) {old : Nat}
    (hok : arena.retireAllocation l.memory l.size = .ok (old, arena')) :
    arena'.Law (live.erase l) := by
  obtain ⟨hcount, -, rfl⟩ := (h.retireAllocation_eq_ok hl).mp hok
  obtain ⟨hle, -⟩ := h.toStatic.retired_le (h.size_pos l hl).2 hcount
  refine ⟨⟨h.isAlignment, h.min_le, h.size_dvd, h.memory_dvd, h.memory_pos, h.bound⟩, h.top_dvd,
    h.freed_dvd, h.top_le, fun x hx => h.range x (List.mem_of_mem_erase hx),
    fun x hx => h.size_pos x (List.mem_of_mem_erase hx), ?_⟩
  have hacc := h.accounted
  rw [arena.liveBytes_erase hl] at hacc
  rw [withHead_pending]
  change arena.freed + arena.liveBytes _ + _ ≤ arena.top
  omega

theorem Law.reclaimAllocations_eq_ok (h : arena.Law live) :
    arena.reclaimAllocations = .ok arena' ↔ arena.flagged ∧ arena.arenaAlignment ∣ arena.pending ∧
      arena' = { arena.withHead 0 with freed := arena.freed + arena.pending } := by
  have hacc := h.accounted
  exact h.toStatic.reclaimAllocations_eq_ok (by omega) h.top_le

theorem Law.reclaimAllocations (h : arena.Law live) (hok : arena.reclaimAllocations = .ok arena') :
    arena'.Law live := by
  obtain ⟨-, hdvd, rfl⟩ := h.reclaimAllocations_eq_ok.mp hok
  refine ⟨⟨h.isAlignment, h.min_le, h.size_dvd, h.memory_dvd, h.memory_pos, h.bound⟩, h.top_dvd,
    Nat.dvd_add h.freed_dvd hdvd, h.top_le, h.range, h.size_pos, ?_⟩
  have hacc := h.accounted
  change arena.freed + arena.pending + arena.liveBytes live + 0 / 2 ≤ arena.top
  omega

theorem Law.reset (h : arena.Law live) (hok : arena.reset = .ok arena') : arena'.Law live := by
  obtain ⟨heq, rfl⟩ := reset_eq_ok.mp hok
  refine ⟨⟨h.isAlignment, h.min_le, h.size_dvd, h.memory_dvd, h.memory_pos, h.bound⟩,
    Nat.dvd_zero _, Nat.dvd_zero _, Nat.zero_le _, h.range, h.size_pos, ?_⟩
  have hacc := h.accounted
  change 0 + arena.liveBytes live + arena.pending ≤ 0
  omega

end Law

end FastArena

end Cuw3
