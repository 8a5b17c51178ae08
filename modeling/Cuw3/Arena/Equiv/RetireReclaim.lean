/-
  Freeing by other threads against freeing by the owner.

  An allocation is freed by its owner with `release`, which adds its rounded size to `freed`, or by
  another thread with `retireAllocation`, which adds the size as given to the count in the retire
  word; `reclaimAllocations` later moves that count to `freed`.  From every reachable arena, the two
  ways end with the same `freed` and `top` if and only if every size is a multiple of the alignment
  and the sizes fit the 63 bits of the count (`sameAccounting_iff`).
-/
import Cuw3.Arena.Equiv.Law
import Mathlib.Data.List.Perm.Subperm

namespace Cuw3.FastArena

/-! ### Reachable arenas -/

/-- The arenas, with their live allocations, that the operations of `FastArenaView` reach.  The
memory block does not wrap around the address space, sizes and flags are 64-bit words. -/
inductive Reachable : FastArena → List Allocation → Prop
  | create {memory config arena} (hbound : config.arenaMemory + config.arenaMemorySize < 2 ^ 64)
      (hflags : config.retireReclaimFlags < 2 ^ 64)
      (hcreate : (create memory config).Creates arena) : Reachable arena []
  | acquire {arena live arena' size mem} (h : Reachable arena live) (hpos : 1 ≤ size)
      (hlt : size < 2 ^ 64) (hok : arena.acquire size = .ok (mem, arena')) (hmem : mem ≠ 0) :
      Reachable arena' (⟨mem, size⟩ :: live)
  | release {arena live arena' l} (h : Reachable arena live) (hl : l ∈ live)
      (hok : arena.release l.memory l.size = .ok arena') : Reachable arena' (live.erase l)
  | retire {arena live arena' old l} (h : Reachable arena live) (hl : l ∈ live)
      (hok : arena.retireAllocation l.memory l.size = .ok (old, arena')) :
      Reachable arena' (live.erase l)
  | reclaim {arena live arena'} (h : Reachable arena live)
      (hok : arena.reclaimAllocations = .ok arena') : Reachable arena' live
  | reset {arena live arena'} (h : Reachable arena live) (hok : arena.reset = .ok arena') :
      Reachable arena' live

/-- **The law holds of every reachable arena.** -/
theorem Reachable.law {arena : FastArena} {live : List Allocation} (h : Reachable arena live) :
    arena.Law live := by
  induction h with
  | create hbound hflags hcreate => exact (law_of_create hcreate hbound hflags).1
  | acquire _ hpos hlt hok hmem ih => exact ih.acquire hpos hlt hok hmem
  | release _ hl hok ih => exact ih.release hl hok
  | retire _ hl hok ih => exact ih.retireAllocation hl hok
  | reclaim _ hok ih => exact ih.reclaimAllocations hok
  | reset _ hok ih => exact ih.reset hok

/-! ### The two ways of freeing a list of allocations -/

/-- The owner frees the allocations in order. -/
def releaseAll (arena : FastArena) (allocs : List Allocation) : Checked FastArena :=
  allocs.foldlM (fun arena l => arena.release l.memory l.size) arena

/-- Other threads free the allocations in order. -/
def retireAll (arena : FastArena) (allocs : List Allocation) : Checked FastArena :=
  allocs.foldlM (fun arena l => Prod.snd <$> arena.retireAllocation l.memory l.size) arena

/-- Other threads free the allocations, then the owner reclaims. -/
def retireAllReclaim (arena : FastArena) (allocs : List Allocation) : Checked FastArena := do
  (← arena.retireAll allocs).reclaimAllocations

/-- Both ways pass every check, and they leave the same `freed` and `top`; hence the arena is
resettable after the one if and only if it is after the other. -/
def SameAccounting (arena : FastArena) (allocs : List Allocation) : Prop :=
  ∃ remote owner, arena.retireAllReclaim allocs = .ok remote ∧ arena.releaseAll allocs = .ok owner ∧
    remote.freed = owner.freed ∧ remote.top = owner.top ∧
    (remote.resettable = true ↔ owner.resettable = true)

section

variable {arena arena' : FastArena} {live allocs : List Allocation}

theorem subperm_cons_split {l : Allocation} (h : (l :: allocs).Subperm live) :
    l ∈ live ∧ allocs.Subperm (live.erase l) := by
  refine ⟨h.subset List.mem_cons_self, ?_⟩
  have herase := h.erase l
  rwa [List.erase_cons_head] at herase

/-- The owner's frees add the rounded sizes to `freed`. -/
theorem Law.releaseAll_eq (h : arena.Law live) (hsub : allocs.Subperm live) :
    arena.releaseAll allocs = .ok { arena with freed := arena.freed + arena.liveBytes allocs } := by
  induction allocs generalizing arena live with
  | nil => rfl
  | cons l rest ih =>
    obtain ⟨hl, hrest⟩ := subperm_cons_split hsub
    have hstep := h.release_eq hl
    have hih := ih (h.release hl hstep) hrest
    simp only [releaseAll, List.foldlM_cons, hstep, ok_bind] at hih ⊢
    rw [hih, liveBytes_cons, ← Nat.add_assoc]
    rfl

/-- Remote frees only change the retire word, whose count grows by at most the rounded sizes; it
grows by exactly these only when every size is a multiple of the alignment. -/
theorem Law.retireAll_le (h : arena.Law live) (hsub : allocs.Subperm live)
    (hok : arena.retireAll allocs = .ok arena') :
    ∃ head, arena' = arena.withHead head ∧ head / 2 ≤ arena.pending + arena.liveBytes allocs ∧
      (head / 2 = arena.pending + arena.liveBytes allocs →
        ∀ l ∈ allocs, arena.arenaAlignment ∣ l.size) := by
  induction allocs generalizing arena live with
  | nil =>
    obtain rfl : arena = arena' := by simpa [retireAll] using hok
    exact ⟨_, rfl, Nat.le_refl _, by simp⟩
  | cons l rest ih =>
    obtain ⟨hl, hrest⟩ := subperm_cons_split hsub
    simp only [retireAll, List.foldlM_cons, bind_eq_ok, map_eq_ok, Prod.exists] at hok
    obtain ⟨arena₁, ⟨old, _, hstep, rfl⟩, hok⟩ := hok
    obtain ⟨hcount, -, rfl⟩ := (h.retireAllocation_eq_ok hl).mp hstep
    obtain ⟨head, rfl, hle, hdvd⟩ := ih (h.retireAllocation hl hstep) hrest hok
    obtain ⟨hle₁, hdvd₁⟩ := h.toStatic.retired_le (h.size_pos l hl).2 hcount
    change _ ≤ (2 * u64 (arena.pending + l.size) + 1) / 2 + arena.liveBytes rest at hle
    change _ = (2 * u64 (arena.pending + l.size) + 1) / 2 + arena.liveBytes rest → _ at hdvd
    rw [liveBytes_cons]
    refine ⟨head, rfl, by omega, fun heq => ?_⟩
    rw [List.forall_mem_cons]
    exact ⟨hdvd₁ (by omega), hdvd (by omega)⟩

/-- Remote frees of multiples of the alignment succeed exactly as long as the count fits its bits.
-/
theorem Law.retireAll_eq_ok (h : arena.Law live) (hsub : allocs.Subperm live)
    (hdvd : ∀ l ∈ allocs, arena.arenaAlignment ∣ l.size) (hne : allocs ≠ []) :
    arena.retireAll allocs = .ok arena' ↔ arena.pending + arena.liveBytes allocs < 2 ^ 63 ∧
      arena' = arena.withHead (2 * (arena.pending + arena.liveBytes allocs) + 1) := by
  induction allocs generalizing arena live with
  | nil => exact absurd rfl hne
  | cons l rest ih =>
    obtain ⟨hl, hrest⟩ := subperm_cons_split hsub
    obtain ⟨hldvd, hrestdvd⟩ := List.forall_mem_cons.mp hdvd
    have hreq := requiredSpace_of_dvd (h.size_pos l hl).2 h.isAlignment hldvd
    have hacc := h.accounted
    rw [arena.liveBytes_erase hl, hreq] at hacc
    have htop := h.top_le
    have hbound := h.bound
    have hu : u64 (arena.pending + l.size) = arena.pending + l.size := u64_of_lt (by omega)
    have hstep : ∀ {old arena₁}, arena.retireAllocation l.memory l.size = .ok (old, arena₁) ↔
        arena.pending + l.size < 2 ^ 63 ∧ old = arena.retireReclaimEntry.head ∧
          arena₁ = arena.withHead (2 * (arena.pending + l.size) + 1) := by
      intro old arena₁
      rw [h.retireAllocation_eq_ok hl, hu]
    simp only [retireAll, List.foldlM_cons, bind_eq_ok, map_eq_ok, Prod.exists, liveBytes_cons,
      hreq]
    cases rest with
    | nil =>
      simp only [List.foldlM_nil, pure_eq_ok, liveBytes_nil, Nat.add_zero, hstep]
      constructor
      · rintro ⟨_, ⟨_, _, ⟨hlt, rfl, rfl⟩, rfl⟩, rfl⟩
        exact ⟨hlt, rfl⟩
      · rintro ⟨hlt, rfl⟩
        exact ⟨_, ⟨_, _, ⟨hlt, rfl, rfl⟩, rfl⟩, rfl⟩
    | cons l₂ rest =>
      -- the count after this free is a part of the final one, so it fits if that does
      have htail : ∀ (hlt : arena.pending + l.size < 2 ^ 63),
          (arena.withHead (2 * (arena.pending + l.size) + 1)).retireAll (l₂ :: rest) = .ok arena' ↔
            arena.pending + (l.size + arena.liveBytes (l₂ :: rest)) < 2 ^ 63 ∧
              arena' = arena.withHead
                (2 * (arena.pending + (l.size + arena.liveBytes (l₂ :: rest))) + 1) := by
        intro hlt
        have hhalf : (2 * (arena.pending + l.size) + 1) / 2 = arena.pending + l.size := by omega
        have hlaw := h.retireAllocation hl (hstep.mpr ⟨hlt, rfl, rfl⟩)
        rw [ih hlaw hrest hrestdvd (by simp), withHead_pending, hhalf, Nat.add_assoc]
        rfl
      constructor
      · rintro ⟨_, ⟨_, _, hfirst, rfl⟩, hok⟩
        obtain ⟨hlt, -, rfl⟩ := hstep.mp hfirst
        exact (htail hlt).mp hok
      · rintro ⟨hlt, harena⟩
        have hlt₁ : arena.pending + l.size < 2 ^ 63 := by omega
        exact ⟨_, ⟨_, _, hstep.mpr ⟨hlt₁, rfl, rfl⟩, rfl⟩, (htail hlt₁).mpr ⟨hlt, harena⟩⟩

theorem Law.liveBytes_of_dvd (h : arena.Law live) (hsub : allocs.Subperm live)
    (hdvd : ∀ l ∈ allocs, arena.arenaAlignment ∣ l.size) :
    arena.liveBytes allocs = (allocs.map Allocation.size).sum := by
  rw [liveBytes]
  congr 1
  refine List.map_congr_left fun l hl => ?_
  exact requiredSpace_of_dvd (h.size_pos l (hsub.subset hl)).2 h.isAlignment (hdvd l hl)

/-- Remote frees of multiples of the alignment that fit the count, followed by a reclaim, add their
sizes to `freed` and leave an empty retire word. -/
theorem Law.retireAllReclaim_eq (h : arena.Law live) (hpending : arena.pending = 0)
    (hne : allocs ≠ []) (hsub : allocs.Subperm live)
    (hdvd : ∀ l ∈ allocs, arena.arenaAlignment ∣ l.size) (hfit : arena.liveBytes allocs < 2 ^ 63) :
    arena.retireAllReclaim allocs =
      .ok { arena.withHead 0 with freed := arena.freed + arena.liveBytes allocs } := by
  have hhalf : (2 * arena.liveBytes allocs + 1) / 2 = arena.liveBytes allocs := by omega
  have hretired : arena.retireAll allocs =
      .ok (arena.withHead (2 * arena.liveBytes allocs + 1)) := by
    rw [h.retireAll_eq_ok hsub hdvd hne, hpending, Nat.zero_add]
    exact ⟨hfit, rfl⟩
  have hroom : (arena.withHead (2 * arena.liveBytes allocs + 1)).freed +
      (arena.withHead (2 * arena.liveBytes allocs + 1)).pending ≤ arena.top := by
    have hacc := h.accounted
    have hle := arena.liveBytes_le hsub
    rw [withHead_pending, hhalf]
    change arena.freed + arena.liveBytes allocs ≤ arena.top
    omega
  rw [retireAllReclaim, hretired, ok_bind,
    (h.toStatic.withHead _).reclaimAllocations_eq_ok hroom h.top_le, withHead_pending, hhalf]
  refine ⟨?_, liveBytes_dvd allocs, rfl⟩
  change (2 * arena.liveBytes allocs + 1) % 2 = 1
  omega

/-- **Freeing by other threads and then reclaiming accounts the same bytes as freeing by the owner
if and only if every size is a multiple of the arena's alignment and the sizes fit the count of the
retire word.** -/
theorem sameAccounting_iff (h : Reachable arena live) (hpending : arena.pending = 0)
    (hne : allocs ≠ []) (hsub : allocs.Subperm live) :
    arena.SameAccounting allocs ↔ (∀ l ∈ allocs, arena.arenaAlignment ∣ l.size) ∧
      (allocs.map Allocation.size).sum < 2 ^ 63 := by
  have hlaw := h.law
  have howner := hlaw.releaseAll_eq hsub
  have hbytes := arena.liveBytes_le hsub
  have hacc := hlaw.accounted
  constructor
  · rintro ⟨remote, owner, hremote, howner', hfreed, -, -⟩
    rw [howner, Except.ok.injEq] at howner'
    subst howner'
    simp only [retireAllReclaim, bind_eq_ok] at hremote
    obtain ⟨retired, hretired, hreclaim⟩ := hremote
    obtain ⟨head, rfl, hle, hdvd⟩ := hlaw.retireAll_le hsub hretired
    have hroom : (arena.withHead head).freed + (arena.withHead head).pending ≤
        (arena.withHead head).top := by
      change arena.freed + head / 2 ≤ arena.top
      omega
    obtain ⟨-, -, rfl⟩ :=
      ((hlaw.toStatic.withHead head).reclaimAllocations_eq_ok hroom hlaw.top_le).mp hreclaim
    change arena.freed + head / 2 = arena.freed + arena.liveBytes allocs at hfreed
    -- equal accounting means that the word counted every rounded byte
    have hdvd' := hdvd (by omega)
    have hfit := ((hlaw.retireAll_eq_ok hsub hdvd' hne).mp hretired).1
    rw [← hlaw.liveBytes_of_dvd hsub hdvd']
    exact ⟨hdvd', by omega⟩
  · rintro ⟨hdvd, hsum⟩
    rw [← hlaw.liveBytes_of_dvd hsub hdvd] at hsum
    exact ⟨_, _, hlaw.retireAllReclaim_eq hpending hne hsub hdvd hsum, howner, rfl, rfl, Iff.rfl⟩

end

/-! ### A block of 4096 bytes, aligned to 16 -/

/-- An arena over the block at address 4096. -/
def block4096 (top : Nat) : FastArena :=
  { regionChunkHeader := 66, retireReclaimEntry := ⟨0, 0, 0⟩, linked := false, freed := 0, top
    arenaMemorySize := 4096, arenaAlignment := 16, arenaMemory := 4096 }

/-- One allocation of at most 16 bytes in a fresh block. -/
theorem reachable_block4096 {size : Nat}
    (hok : (block4096 0).acquire size = .ok (4096, block4096 16))
    (hpos : 1 ≤ size) (hlt : size < 2 ^ 64) : Reachable (block4096 16) [⟨4096, size⟩] :=
  have hcreate : Reachable (block4096 0) [] := @Reachable.create ⟨64, 128⟩
    ⟨64, 2, 4096, 4096, 16, 0⟩ (block4096 0) (by decide) (by decide) rfl
  .acquire hcreate hpos hlt hok (by decide)

/-- One allocation of 16 bytes is accounted alike by both ways. -/
theorem sameAccounting_iff_block : (block4096 16).SameAccounting [⟨4096, 16⟩] ↔
    (∀ l ∈ [(⟨4096, 16⟩ : Allocation)], 16 ∣ l.size) ∧ 16 < 2 ^ 63 :=
  sameAccounting_iff (reachable_block4096 rfl (by decide) (by decide)) rfl (by simp) (.refl _)

/-- **One byte freed by another thread aborts the reclaim of an arena of alignment 16.** -/
theorem not_sameAccounting_one_byte : ¬ ∀ (arena : FastArena) (live allocs : List Allocation),
    Reachable arena live → arena.pending = 0 → allocs ≠ [] → allocs.Subperm live →
      arena.SameAccounting allocs := by
  intro hall
  obtain ⟨remote, -, hremote, -⟩ := hall (block4096 16) [⟨4096, 1⟩] [⟨4096, 1⟩]
    (reachable_block4096 rfl (by decide) (by decide)) rfl (by simp) (.refl _)
  have habort : (block4096 16).retireAllReclaim [⟨4096, 1⟩] = .error ⟨"size is not aligned"⟩ := rfl
  rw [habort] at hremote
  cases hremote

end Cuw3.FastArena
