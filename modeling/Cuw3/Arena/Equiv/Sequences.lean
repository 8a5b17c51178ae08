/-
  The law of an arena over whole sequences of operations by its owner.

  A `Session` is an arena with what the arena itself does not record: the allocations made since the
  last reset, in the order they were made, and those of them that are live.  `Session.Step` is one
  `acquire`, `release` or `reset`.  In every session that starts with `create` the two counters say
  all there is to know (`Session.Reachable.arenaLaw`): the allocations made lie one after another
  from the start of the block to `top`, the live ones take `top - freed` bytes, an arena can be
  reset exactly when none is live, and no check ever fails.
-/
import Cuw3.Arena.Equiv.RetireReclaim
import Cuw3.Lib.Blocks
import Cuw3.Lib.Tiling

namespace Cuw3.FastArena

/-- An arena and the history of its block. -/
structure Session where
  arena : FastArena
  made : List Allocation
  live : List Allocation

/-- The bytes set aside for an allocation, its size rounded up to the arena's alignment. -/
def blockOf (arena : FastArena) (l : Allocation) : Lib.Block :=
  ⟨l.memory, alignUp l.size arena.arenaAlignment⟩

/-- The range of addresses of `blockOf`. -/
def rangeOf (arena : FastArena) (l : Allocation) : Nat × Nat :=
  (l.memory, l.memory + alignUp l.size arena.arenaAlignment)

namespace Session

/-- One operation of the owner: it asks for at most the size of the block, frees live allocations
with the size it asked for, and resets when that is allowed. -/
inductive Step : Session → Session → Prop
  | acquire {s : Session} {size mem : Nat} {arena'} (hpos : 1 ≤ size)
      (hle : size ≤ s.arena.arenaMemorySize) (hok : s.arena.acquire size = .ok (mem, arena'))
      (hmem : mem ≠ 0) : Step s ⟨arena', s.made ++ [⟨mem, size⟩], ⟨mem, size⟩ :: s.live⟩
  | acquireFails {s : Session} {size : Nat} {arena'} (hpos : 1 ≤ size)
      (hle : size ≤ s.arena.arenaMemorySize) (hok : s.arena.acquire size = .ok (0, arena')) :
      Step s ⟨arena', s.made, s.live⟩
  | release {s : Session} {l arena'} (hl : l ∈ s.live)
      (hok : s.arena.release l.memory l.size = .ok arena') :
      Step s ⟨arena', s.made, s.live.erase l⟩
  | reset {s : Session} {arena'} (hres : s.arena.resettable = true)
      (hok : s.arena.reset = .ok arena') : Step s ⟨arena', [], s.live⟩

/-- The sessions that start with an arena made by `create`, whose block ends below `2^64`. -/
inductive Reachable : Session → Prop
  | create {memory config arena} (hbound : config.arenaMemory + config.arenaMemorySize < 2 ^ 64)
      (hflags : config.retireReclaimFlags < 2 ^ 64)
      (hcreate : (create memory config).Creates arena) : Reachable ⟨arena, [], []⟩
  | step {s s'} (h : Reachable s) (hstep : Step s s') : Reachable s'

/-- What the counters of an arena say about its history, and what its operations return. -/
structure ArenaLaw (s : Session) : Prop where
  freed_le : s.arena.freed ≤ s.arena.top
  top_le : s.arena.top ≤ s.arena.arenaMemorySize
  freed_dvd : s.arena.arenaAlignment ∣ s.arena.freed
  top_dvd : s.arena.arenaAlignment ∣ s.arena.top
  size_dvd : s.arena.arenaAlignment ∣ s.arena.arenaMemorySize
  /-- `remaining` passes its check. -/
  remaining : s.arena.remaining = .ok (s.arena.arenaMemorySize - s.arena.top)
  /-- `acquire` fails iff the aligned size exceeds what remains. -/
  acquires : ∀ size, 1 ≤ size → size ≤ s.arena.arenaMemorySize → ∃ mem arena',
    s.arena.acquire size = .ok (mem, arena') ∧ (mem = 0 ↔
      s.arena.arenaMemorySize - s.arena.top < alignUp size s.arena.arenaAlignment)
  /-- The allocations made lie without gaps from the start of the block to `top`. -/
  contiguous : Lib.Tiles s.arena.arenaMemory (s.arena.arenaMemory + s.arena.top)
    (s.made.map s.arena.rangeOf)
  aligned : ∀ l ∈ s.made, s.arena.arenaAlignment ∣ l.memory
  disjoint : s.made.Pairwise fun l l' => (s.arena.blockOf l).Apart (s.arena.blockOf l')
  live_made : s.live.Subperm s.made
  accounted : s.arena.top - s.arena.freed =
    (s.live.map fun l => alignUp l.size s.arena.arenaAlignment).sum
  resettable_iff : s.arena.resettable = true ↔ s.live = []
  /-- Freeing a live allocation passes every check. -/
  releases : ∀ l ∈ s.live, ∃ arena', s.arena.release l.memory l.size = .ok arena'
  resets : s.arena.resettable = true → ∃ arena', s.arena.reset = .ok arena'

end Session

/-! ### Sizes of at most the block -/

section

variable {arena : FastArena} {size : Nat}

/-- Rounding such a size up does not leave the 64-bit range: the block's address is a positive
multiple of the alignment. -/
theorem Static.requiredSpace_eq (h : arena.Static) (hle : size ≤ arena.arenaMemorySize) :
    arena.requiredSpace size = alignUp size arena.arenaAlignment := by
  have hfits := Nat.le_of_dvd h.memory_pos h.memory_dvd
  have hb := h.bound
  have hpos := h.alignment_pos
  apply requiredSpace_of_le
  omega

theorem remaining_eq (h : arena.top ≤ arena.arenaMemorySize) :
    arena.remaining = .ok (arena.arenaMemorySize - arena.top) := by
  unfold remaining
  rw [check_of h]
  rfl

end

namespace Session

/-! ### The invariant -/

/-- The invariant of a session: the law of its arena, with nothing retired by other threads. -/
structure Inv (s : Session) : Prop where
  law : s.arena.Law s.live
  exact : s.arena.top = s.arena.freed + s.arena.liveBytes s.live
  tiles : Lib.Tiles s.arena.arenaMemory (s.arena.arenaMemory + s.arena.top)
    (s.made.map s.arena.rangeOf)
  live_made : s.live.Subperm s.made
  made_le : ∀ l ∈ s.made, l.size ≤ s.arena.arenaMemorySize

variable {s s' : Session}

theorem Inv.live_le (h : s.Inv) {l : Allocation} (hl : l ∈ s.live) :
    l.size ≤ s.arena.arenaMemorySize :=
  h.made_le l (h.live_made.subset hl)

theorem Inv.liveBytes_eq (h : s.Inv) : s.arena.liveBytes s.live =
    (s.live.map fun l => alignUp l.size s.arena.arenaAlignment).sum := by
  unfold liveBytes
  congr 1
  apply List.map_congr_left
  intro l hl
  exact h.law.toStatic.requiredSpace_eq (h.live_le hl)

/-- Live allocations take at least one byte each. -/
theorem Inv.liveBytes_eq_zero (h : s.Inv) : s.arena.liveBytes s.live = 0 ↔ s.live = [] := by
  constructor
  · intro hzero
    cases hlive : s.live with
    | nil => rfl
    | cons l rest =>
      have hl : l ∈ s.live := hlive ▸ List.mem_cons_self
      have hpos := alignUp_pos h.law.toStatic.alignment_pos (h.law.size_pos l hl).1
      rw [hlive, liveBytes_cons, h.law.toStatic.requiredSpace_eq (h.live_le hl)] at hzero
      omega
  · intro hlive
    rw [hlive, liveBytes_nil]

theorem Inv.resettable_iff (h : s.Inv) : s.arena.resettable = true ↔ s.live = [] := by
  have hexact := h.exact
  rw [resettable_eq_true, ← h.liveBytes_eq_zero]
  omega

theorem inv_create {memory : Memory} {config : FastArenaConfig} {arena : FastArena}
    (hbound : config.arenaMemory + config.arenaMemorySize < 2 ^ 64)
    (hflags : config.retireReclaimFlags < 2 ^ 64)
    (hcreate : (create memory config).Creates arena) : Inv ⟨arena, [], []⟩ := by
  have hlaw := (law_of_create hcreate hbound hflags).1
  have hfresh : arena.top = 0 := by
    simp only [create, creates_bind, creates_lift, creates_checkReturnVal, creates_pure,
      exists_const] at hcreate
    obtain ⟨_, -, -, -, -, -, _, -, -, _, -, -, _, -, _, -, rfl⟩ := hcreate
    rfl
  have hfreed := hlaw.accounted
  refine ⟨hlaw, ?_, ?_, List.Subperm.refl _, by simp⟩
  · show arena.top = arena.freed + 0
    omega
  · show arena.arenaMemory = arena.arenaMemory + arena.top
    omega

/-- The new allocation starts where the last one ended. -/
theorem Inv.acquire (h : s.Inv) {size mem : Nat} {arena' : FastArena} (hpos : 1 ≤ size)
    (hle : size ≤ s.arena.arenaMemorySize) (hok : s.arena.acquire size = .ok (mem, arena'))
    (hmem : mem ≠ 0) : Inv ⟨arena', s.made ++ [⟨mem, size⟩], ⟨mem, size⟩ :: s.live⟩ := by
  have hbound := h.law.bound
  have hlaw := h.law.acquire hpos (by omega) hok hmem
  have hspace := h.law.toStatic.requiredSpace_eq hle
  obtain ⟨rfl, -, rfl⟩ := h.law.acquire_eq_some hok hmem
  have hexact := h.exact
  refine ⟨hlaw, ?_, ?_, ?_, ?_⟩
  · show s.arena.top + s.arena.requiredSpace size = s.arena.freed + s.arena.liveBytes (_ :: s.live)
    rw [liveBytes_cons]
    dsimp only
    omega
  · have htiles := h.tiles.concat (Nat.le_add_right _ (alignUp size s.arena.arenaAlignment))
    rw [hspace, List.map_append, ← Nat.add_assoc]
    exact htiles
  · have hcons := (List.subperm_cons ⟨s.arena.arenaMemory + s.arena.top, size⟩).mpr h.live_made
    exact hcons.trans (List.perm_append_singleton _ _).symm.subperm
  · intro l hl
    rcases List.mem_append.mp hl with hl | hl
    · exact h.made_le l hl
    · obtain rfl := List.mem_singleton.mp hl
      exact hle

theorem Inv.acquireFails (h : s.Inv) {size : Nat} {arena' : FastArena}
    (hok : s.arena.acquire size = .ok (0, arena')) : arena' = s.arena := by
  have hpos := h.law.memory_pos
  rw [h.law.acquire_eq h.law.top_le, Except.ok.injEq] at hok
  split_ifs at hok with hfull
  · exact (congrArg Prod.snd hok).symm
  · -- a block that fits is not at address zero
    have hzero : s.arena.arenaMemory + s.arena.top = 0 := congrArg Prod.fst hok
    omega

theorem Inv.release (h : s.Inv) {l : Allocation} {arena' : FastArena} (hl : l ∈ s.live)
    (hok : s.arena.release l.memory l.size = .ok arena') :
    Inv ⟨arena', s.made, s.live.erase l⟩ := by
  have hlaw := h.law.release hl hok
  rw [h.law.release_eq hl, Except.ok.injEq] at hok
  subst hok
  refine ⟨hlaw, ?_, h.tiles, (List.erase_subperm l s.live).trans h.live_made, h.made_le⟩
  have hexact := h.exact
  rw [s.arena.liveBytes_erase hl] at hexact
  show s.arena.top = s.arena.freed + s.arena.requiredSpace l.size +
    s.arena.liveBytes (s.live.erase l)
  omega

theorem Inv.reset (h : s.Inv) {arena' : FastArena} (hres : s.arena.resettable = true)
    (hok : s.arena.reset = .ok arena') : Inv ⟨arena', [], s.live⟩ := by
  have hlaw := h.law.reset hok
  have hlive := h.resettable_iff.mp hres
  obtain ⟨-, rfl⟩ := reset_eq_ok.mp hok
  rw [hlive] at hlaw ⊢
  exact ⟨hlaw, rfl, rfl, List.Subperm.refl _, by simp⟩

theorem Inv.step (h : s.Inv) (hstep : Step s s') : s'.Inv := by
  cases hstep with
  | acquire hpos hle hok hmem => exact h.acquire hpos hle hok hmem
  | acquireFails _ _ hok =>
    obtain rfl := h.acquireFails hok
    exact h
  | release hl hok => exact h.release hl hok
  | reset hres hok => exact h.reset hres hok

theorem Reachable.inv (h : Reachable s) : s.Inv := by
  induction h with
  | create hbound hflags hcreate => exact inv_create hbound hflags hcreate
  | step _ hstep ih => exact ih.step hstep

/-! ### What the invariant says -/

theorem Inv.acquires (h : s.Inv) {size : Nat} (hle : size ≤ s.arena.arenaMemorySize) :
    ∃ mem arena', s.arena.acquire size = .ok (mem, arena') ∧ (mem = 0 ↔
      s.arena.arenaMemorySize - s.arena.top < alignUp size s.arena.arenaAlignment) := by
  have hpos := h.law.memory_pos
  rw [h.law.acquire_eq h.law.top_le, h.law.toStatic.requiredSpace_eq hle]
  split_ifs with hfull
  · exact ⟨_, _, rfl, iff_of_true rfl hfull⟩
  · refine ⟨_, _, rfl, iff_of_false ?_ hfull⟩
    omega

theorem Inv.aligned (h : s.Inv) : ∀ l ∈ s.made, s.arena.arenaAlignment ∣ l.memory := by
  have hstarts := h.tiles.dvd_start h.law.memory_dvd (by
    intro r hr
    obtain ⟨l, -, rfl⟩ := List.mem_map.mp hr
    exact ⟨_, alignUp_dvd l.size s.arena.arenaAlignment, rfl⟩)
  intro l hl
  exact hstarts _ (List.mem_map_of_mem hl)

theorem Inv.disjoint (h : s.Inv) :
    s.made.Pairwise fun l l' => (s.arena.blockOf l).Apart (s.arena.blockOf l') := by
  apply (List.pairwise_map.mp h.tiles.pairwise).imp
  intro l l' hle x hx hx'
  have hend : x < l.memory + alignUp l.size s.arena.arenaAlignment := hx.2
  have hstart : l'.memory ≤ x := hx'.1
  have hle : l.memory + alignUp l.size s.arena.arenaAlignment ≤ l'.memory := hle
  omega

/-- **The law of the arena.** -/
theorem Reachable.arenaLaw (h : Reachable s) : s.ArenaLaw := by
  have hinv := h.inv
  have hlaw := hinv.law
  have hexact := hinv.exact
  refine {
    freed_le := by omega
    top_le := hlaw.top_le
    freed_dvd := hlaw.freed_dvd
    top_dvd := hlaw.top_dvd
    size_dvd := hlaw.size_dvd
    remaining := remaining_eq hlaw.top_le
    acquires := fun _ _ hle => hinv.acquires hle
    contiguous := hinv.tiles
    aligned := hinv.aligned
    disjoint := hinv.disjoint
    live_made := hinv.live_made
    accounted := ?_
    resettable_iff := hinv.resettable_iff
    releases := fun l hl => ⟨_, hlaw.release_eq hl⟩
    resets := fun hres => ⟨_, reset_eq_ok.mpr ⟨resettable_eq_true.mp hres, rfl⟩⟩ }
  rw [← hinv.liveBytes_eq]
  omega

/-- A block of 4096 bytes after two allocations, the first of which was freed. -/
theorem arenaLaw_block4096 : ArenaLaw ⟨{ block4096 144 with freed := 112 },
    [⟨4096, 100⟩, ⟨4208, 20⟩], [⟨4208, 20⟩]⟩ := by
  have hcreate : Reachable ⟨block4096 0, [], []⟩ := @Reachable.create ⟨64, 128⟩
    ⟨64, 2, 4096, 4096, 16, 0⟩ (block4096 0) (by decide) (by decide) rfl
  have hfirst : Step ⟨block4096 0, [], []⟩ ⟨block4096 112, [⟨4096, 100⟩], [⟨4096, 100⟩]⟩ :=
    Step.acquire (by decide) (by decide) rfl (by decide)
  have hsecond : Step ⟨block4096 112, [⟨4096, 100⟩], [⟨4096, 100⟩]⟩
      ⟨block4096 144, [⟨4096, 100⟩, ⟨4208, 20⟩], [⟨4208, 20⟩, ⟨4096, 100⟩]⟩ :=
    Step.acquire (by decide) (by decide) rfl (by decide)
  have hfree : Step ⟨block4096 144, [⟨4096, 100⟩, ⟨4208, 20⟩], [⟨4208, 20⟩, ⟨4096, 100⟩]⟩
      ⟨{ block4096 144 with freed := 112 }, [⟨4096, 100⟩, ⟨4208, 20⟩], [⟨4208, 20⟩]⟩ :=
    Step.release (l := ⟨4096, 100⟩) (by simp) rfl
  exact Reachable.arenaLaw (((hcreate.step hfirst).step hsecond).step hfree)

end Session

end Cuw3.FastArena
