/-
  Where the bytes of an arena are, while threads retire and the owner reclaims.

  The law of an arena bounds its bytes.  Here they are counted exactly: below the top each byte is
  freed, or taken by an allocation, or in the count of the retire word (`FastArena.Balances`).  An
  arena of the bins balances when the allocations that threads have begun to retire are counted
  among those that take bytes (`Balanced`), and each step keeps that.

  So an arena without pending bytes that takes no allocation is drained
  (`FastArena.Balances.drained`), and the bins hold no such arena.
-/
import Cuw3.Arena.Equiv.AtomicSteps

namespace Cuw3

open Lib

/-! ### One arena -/

namespace FastArena

variable {arena arena' : FastArena} {live live' : List Allocation} {l : Allocation}

/-- Below the top each byte is freed, or of an allocation, or counted in the retire word. -/
def Balances (arena : FastArena) (live : List Allocation) : Prop :=
  arena.freed + arena.liveBytes live + arena.pending = arena.top

theorem Balances.perm (h : arena.Balances live) (hperm : live.Perm live') :
    arena.Balances live' := by
  unfold Balances
  rw [← arena.liveBytes_perm hperm]
  exact h

/-- List entries do not matter. -/
theorem Balances.withLinked (h : arena.Balances live)
    (hlink : arena' = { arena with linked := arena'.linked }) : arena'.Balances live := by
  rw [hlink]
  exact h

theorem Balances.withNext (h : arena.Balances live) (next : Nat) :
    (arena.withNext next).Balances live := h

/-- A block is taken at the top. -/
theorem Balances.serve (h : arena.Balances live) (m size : Nat) :
    ({ arena with top := arena.top + arena.requiredSpace size } : FastArena).Balances
      (⟨m, size⟩ :: live) := by
  unfold Balances at h ⊢
  show arena.freed + arena.liveBytes (⟨m, size⟩ :: live) + arena.pending =
    arena.top + arena.requiredSpace size
  rw [liveBytes_cons]
  dsimp only
  omega

/-- The owner frees an allocation. -/
theorem Balances.release (h : arena.Balances live) (hl : l ∈ live) :
    ({ arena with freed := arena.freed + arena.requiredSpace l.size } : FastArena).Balances
      (live.erase l) := by
  unfold Balances at h ⊢
  show arena.freed + arena.requiredSpace l.size + arena.liveBytes (live.erase l) + arena.pending =
    arena.top
  rw [arena.liveBytes_erase hl] at h
  omega

/-- An allocation is counted in the retire word. -/
theorem Balances.count (h : arena.Balances live) (hl : l ∈ live)
    (hspace : arena.requiredSpace l.size = l.size) :
    (arena.withHead (2 * (arena.pending + l.size) + 1)).Balances (live.erase l) := by
  unfold Balances at h ⊢
  rw [withHead_pending]
  show arena.freed + arena.liveBytes (live.erase l) + (2 * (arena.pending + l.size) + 1) / 2 =
    arena.top
  rw [arena.liveBytes_erase hl, hspace] at h
  omega

/-- The count of the retire word is reclaimed. -/
theorem Balances.reclaim (h : arena.Balances live) :
    ({ arena.withHead 0 with freed := arena.freed + arena.pending } : FastArena).Balances live := by
  unfold Balances at h ⊢
  show arena.freed + arena.pending + arena.liveBytes live + 0 / 2 = arena.top
  omega

/-- Nothing takes bytes of the arena: it is drained. -/
theorem Balances.drained (h : arena.Balances []) (hpending : arena.pending = 0) :
    arena.freed = arena.top := by
  unfold Balances at h
  rw [liveBytes_nil, hpending] at h
  exact h

theorem Fresh.balances (h : arena.Fresh) : arena.Balances [] := by
  unfold Balances
  rw [liveBytes_nil, pending, h.head, h.freed, h.top]

end FastArena

/-! ### The bins -/

namespace BinsLaw

variable {B : Type} {ops : AllocatorOps B} {law : BinsLaw ops} {heap heap' : Heap}
  {alloc alloc' : ArenaAllocator B} {live : Nat → List Allocation} {p : Nat}

/-- Where the arena goes back into the bins, its pending bytes are freed. -/
theorem Holds.reclaimArena_kept (h : law.Holds heap alloc.bins live)
    (hp : p ∈ law.held alloc.bins)
    (hok : alloc.reclaimArena ops.toBinsOps heap p = .ok (0, heap', alloc')) :
    heap' p = { (heap p).withHead 0 with
      freed := (heap p).freed + (heap p).pending, linked := (heap' p).linked } := by
  obtain ⟨⟨hpos, hlt⟩, hsuit, -⟩ := law.member h.wf hp
  obtain ⟨heap₁, bins₁, hext, hframe, hwf₁, hperm, hlinked⟩ := law.extract h.wf hp
  obtain ⟨hheld₁, -, hnot⟩ := h.taken hframe hwf₁ hperm
  have hview : heap₁ p = { heap p with linked := false } := by
    rw [hframe.links p, hlinked]
  have hlaw₁ : (heap₁ p).Law (live p) := hframe.links.law (h.arena p hp)
  simp only [ArenaAllocator.reclaimArena, hext, bind_eq_ok, check_eq_ok, exists_const,
    ok_bind] at hok
  obtain ⟨-, view, hreclaim, hok⟩ := hok
  have hlaw₂ := hlaw₁.reclaimAllocations hreclaim
  obtain ⟨-, -, hdef⟩ := hlaw₁.reclaimAllocations_eq_ok.mp hreclaim
  by_cases hfull : view.freed = view.top
  · rw [if_pos (FastArena.resettable_eq_true.mpr hfull)] at hok
    simp only [bind_eq_ok, pure_eq_ok, Prod.mk.injEq] at hok
    obtain ⟨_, -, hzero, -⟩ := hok
    exact absurd hzero hpos.ne'
  · rw [if_neg fun hres => hfull (FastArena.resettable_eq_true.mp hres)] at hok
    have hblock : (heap p).SameBlock view := by
      rw [hdef, hview]
      exact ⟨rfl, rfl, rfl, rfl⟩
    obtain ⟨heap₂, bins₂, hrelease, hframe₂, -⟩ := hheld₁.put hnot hpos hlt
      (by
        rw [hframe.suitable]
        exact law.suitable_congr hblock hsuit)
      hlaw₂ hfull (by rw [hdef, hview]; rfl)
    rw [hrelease, ok_bind, pure_eq_ok] at hok
    obtain ⟨-, rfl, -⟩ := Prod.mk.inj hok
    have hlinks := hframe₂.links p
    rw [Function.update_self, hdef, hview] at hlinks
    exact hlinks

end BinsLaw

/-! ### Runs -/

namespace RetiringArenas

variable {B T : Type} {ops : AllocatorOps B} {law : BinsLaw ops} {g g' : Ghost T}
  {s s' : RetiringArenas B} {p : Nat} {t : T} {l : Allocation} {σ σ' : Machine B T}

/-- The arenas of the bins balance. -/
def Balanced (law : BinsLaw ops) (g : Ghost T) (s : RetiringArenas B) : Prop :=
  ∀ p ∈ law.held s.alloc.bins, (s.heap p).Balances (g.all s.live p)

/-- The invariant of a run, with the exact count. -/
def Machine.Balanced (law : BinsLaw ops) (σ : Machine B T) : Prop :=
  ∃ g, SharedHolds law g σ.shared ∧ (∀ t, WorkerHolds g σ.shared t (σ.locals t)) ∧
    RetiringArenas.Balanced law g σ.shared

/-- The order of the allocations that are being retired does not matter, nor do the places. -/
theorem Balanced.of_perm (h : Balanced law g s)
    (hperm : ∀ p, (g.leaving p).Perm (g'.leaving p)) : Balanced law g' s := by
  intro p hp
  exact (h p hp).perm (((hperm p).map Prod.snd).append_left (s.live p))

/-- The threads determine the allocations that are being retired. -/
theorem leaving_perm (hshared : SharedHolds law g' σ'.shared)
    (hworkers : ∀ t, WorkerHolds g' σ'.shared t (σ'.locals t))
    (hnodup : ∀ p, (g.leaving p).Nodup)
    (hleaving : ∀ t p l, (t, l) ∈ g.leaving p ↔ (σ'.locals t).leaving = some (p, l)) (p : Nat) :
    (g.leaving p).Perm (g'.leaving p) := by
  rw [List.perm_ext_iff_of_nodup (hnodup p) (hshared.leaving_nodup p)]
  intro x
  rw [hleaving x.1 p x.2, ← (hworkers x.1).leaving p x.2]

/-! ### The owner -/

/-- The owner changes the bins, and only list entries of the arenas that they hold. -/
theorem Balanced.links {heap' : Heap} {alloc' : ArenaAllocator B} (h : Balanced law g s)
    (hlinks : OnlyLinks s.heap heap')
    (hsub : ∀ q ∈ law.held alloc'.bins, q ∈ law.held s.alloc.bins) :
    Balanced law g { s with heap := heap', alloc := alloc' } := by
  intro q hq
  exact (h q (hsub q hq)).withLinked (hlinks q)

/-- An arena serves a request. -/
theorem Balanced.served {heap' : Heap} {alloc' : ArenaAllocator B} {m size : Nat}
    (h : ∀ q ∈ law.held alloc'.bins, (s.heap q).Balances (g.all s.live q))
    (hlinks : OnlyLinks (Function.update s.heap p
      { s.heap p with top := (s.heap p).top + (s.heap p).requiredSpace size }) heap') :
    Balanced law g { s with
      heap := heap', alloc := alloc'
      live := Function.update s.live p (⟨m, size⟩ :: s.live p) } := by
  intro q hq
  have hlink := hlinks q
  show (heap' q).Balances (g.all (Function.update s.live p (⟨m, size⟩ :: s.live p)) q)
  rw [Ghost.all_update]
  by_cases hqp : q = p
  · subst hqp
    rw [Function.update_self] at hlink ⊢
    exact FastArena.Balances.withLinked ((h q hq).serve m size) hlink
  · rw [Function.update_of_ne hqp] at hlink ⊢
    exact (h q hq).withLinked hlink

theorem Balanced.allocate (h : Balanced law g s) (hshared : SharedHolds law g s)
    {size alignment m : Nat} {heap₁ heap' : Heap} {bins₁ : B} {alloc' : ArenaAllocator B}
    (hsize : size < 2 ^ 64)
    (hacquire : ops.acquire s.heap s.alloc.bins size alignment = .ok (.acquired p, heap₁, bins₁))
    (hok : ops.allocate heap₁ { s.alloc with bins := bins₁ } p size = .ok (m, heap', alloc')) :
    Balanced law g { s with
      heap := heap', alloc := alloc'
      live := Function.update s.live p (⟨m, size⟩ :: s.live p) } := by
  obtain ⟨hframe, hwf, hperm, hlinked, -⟩ := law.acquire hshared.holds.wf hacquire
  obtain ⟨hholds, hp, hnot⟩ := hshared.holds.taken hframe hwf hperm
  obtain ⟨-, hpos, ⟨rfl, -, -⟩ | ⟨fmt, hfrom⟩⟩ := law.allocate_cases hok
  · exact absurd rfl (law.acquire_allocate hshared.holds.wf hacquire hok)
  obtain ⟨⟨hp0, hp64⟩, hsuit, -⟩ := law.member hshared.holds.wf hp
  have hholds' : law.Holds heap₁ ({ s.alloc with bins := bins₁ } : ArenaAllocator B).bins
      (g.all s.live) := hholds
  obtain ⟨-, hserved, hlinks⟩ := hholds'.allocateFrom hnot hp0 hp64
    (by rw [hframe.suitable]; exact law.suitable_congr (hframe.links.sameBlock p) hsuit)
    (hframe.links.law (hshared.holds.arena p hp)) hlinked hpos hsize
    (.inl (by rw [hframe.links p]; exact hshared.holds.busy p hp)) hfrom
  refine Balanced.served (s := { s with heap := heap₁ }) (fun q hq => ?_) hlinks
  exact (h q ((hserved.perm.trans hperm).subset hq)).withLinked (hframe.links q)

theorem Balanced.allocateFresh (h : Balanced law g s) (hshared : SharedHolds law g s)
    {arena : FastArena} {size m : Nat} {heap' : Heap} {alloc' : ArenaAllocator B}
    (hp : p ∉ law.held s.alloc.bins) (hlt : p < 2 ^ 64) (hfresh : arena.Fresh)
    (hsuit : law.Suitable s.alloc.bins arena) (hroom : size ≤ arena.arenaMemorySize)
    (hok : ops.allocate (Function.update s.heap p arena) s.alloc p size = .ok (m, heap', alloc')) :
    Balanced law g { s with
      heap := heap', alloc := alloc'
      live := if m = 0 then s.live else Function.update s.live p [⟨m, size⟩] } := by
  have hnil : g.all s.live p = [] := by
    by_contra hne
    exact hp (hshared.all_held p hne)
  have hne : ∀ q ∈ law.held s.alloc.bins, q ≠ p := fun q hq => ne_of_mem_of_not_mem hq hp
  have hheap : ∀ q ∈ law.held s.alloc.bins, Function.update s.heap p arena q = s.heap q :=
    fun q hq => Function.update_of_ne (hne q hq) _ _
  have hholds : law.Holds (Function.update s.heap p arena) s.alloc.bins (g.all s.live) :=
    hshared.holds.congr fun q hq => ⟨hheap q hq, rfl⟩
  obtain ⟨hp0, hpos, ⟨rfl, rfl, rfl⟩ | ⟨fmt, hfrom⟩⟩ := law.allocate_cases hok
  · intro q hq
    dsimp only
    rw [if_pos rfl, hheap q hq]
    exact h q hq
  obtain ⟨-, hserved, hlinks⟩ := hholds.allocateFrom hp (Nat.pos_of_ne_zero hp0) hlt
    (by rwa [Function.update_self])
    (by rw [Function.update_self, hnil]; exact hfresh.law)
    (by rw [Function.update_self]; exact hfresh.linked) hpos
    (lt_of_le_of_lt hroom (lt_of_le_of_lt (Nat.le_add_left _ _) hfresh.bound))
    (.inr (by rw [Function.update_self]; exact hfresh.toStatic.requiredSpace_pos hpos hroom)) hfrom
  rw [if_neg hserved.nonnull]
  have hlive : s.live p = [] := (List.append_eq_nil_iff.mp hnil).1
  rw [← hlive]
  refine Balanced.served (s := { s with heap := Function.update s.heap p arena })
    (fun q hq => ?_) hlinks
  dsimp only
  rcases List.mem_cons.mp (hserved.perm.subset hq) with rfl | hq
  · rw [Function.update_self, hnil]
    exact hfresh.balances
  · rw [hheap q hq]
    exact h q hq

theorem Balanced.deallocate (h : Balanced law g s) (hshared : SharedHolds law g s) {r : Nat}
    {heap' : Heap} {alloc' : ArenaAllocator B} (hl : l ∈ s.live p)
    (hok : ops.deallocate s.heap s.alloc p l.memory l.size = .ok (r, heap', alloc')) :
    Balanced law g { s with
      heap := heap', alloc := alloc'
      live := Function.update s.live p (if r = 0 then (s.live p).erase l else []) } := by
  have hall : l ∈ g.all s.live p := List.mem_append_left _ hl
  have hp := hshared.all_held p (List.ne_nil_of_mem hall)
  have hp0 : p ≠ 0 := Nat.pos_iff_ne_zero.mp (law.member hshared.holds.wf hp).1.1
  obtain ⟨fmt, hfrom⟩ := law.deallocate_cases hok
  obtain ⟨r', heap₁, alloc₁, heq, -, hsettled⟩ := hshared.holds.deallocateFrom hp hall fmt
  rw [hfrom, Except.ok.injEq, Prod.mk.injEq, Prod.mk.injEq] at heq
  obtain ⟨rfl, rfl, rfl⟩ := heq
  intro q hq
  show (heap' q).Balances (g.all (Function.update s.live p _) q)
  rw [Ghost.all_update]
  rcases hsettled.result with ⟨rfl, hperm, -⟩ | ⟨-, hperm, -⟩
  · have hkept := hshared.holds.deallocateFrom_kept hp hall hfrom
    have hq' := hperm.subset hq
    by_cases hqp : q = p
    · subst hqp
      rw [hkept, Function.update_self, Function.update_self, if_pos rfl]
      have herase : (g.all s.live q).erase l = (s.live q).erase l ++ (g.leaving q).map Prod.snd :=
        List.erase_append_left _ hl
      rw [← herase]
      exact (h q hq').release hall
    · rw [hkept, Function.update_of_ne hqp, Function.update_of_ne hqp]
      exact h q hq'
  · -- the arena has left the bins
    have hqp : q ≠ p := by
      rintro rfl
      exact (List.nodup_cons.mp (hperm.nodup_iff.mpr (law.nodup hshared.holds.wf))).1 hq
    rw [Function.update_of_ne hqp]
    exact (h q (hperm.subset (List.mem_cons_of_mem _ hq))).withLinked (hsettled.others q hqp)

theorem Balanced.ownerStep (h : Balanced law g s) (hshared : SharedHolds law g s)
    (hstep : OwnerStep ops law.held law.Suitable s s') : Balanced law g s' := by
  cases hstep with
  | allocate _ hsize hacquire hok => exact h.allocate hshared hsize hacquire hok
  | @acquireNone size alignment r heap' bins' _ hok hr =>
    obtain ⟨hframe, -, hperm⟩ := law.acquire hshared.holds.wf hok
    have hheld : (law.held bins').Perm (law.held s.alloc.bins) := by
      cases r with
      | failed => exact hperm
      | noResource => exact hperm
      | acquired p => exact absurd rfl (hr p)
    exact h.links hframe.links fun q hq => hheld.subset hq
  | allocateFresh _ hp hlt hfresh hsuit hroom hok =>
    exact h.allocateFresh hshared hp hlt hfresh hsuit hroom hok
  | deallocate _ hl hok => exact h.deallocate hshared hl hok
  | postpone _ hok =>
    simp only [ArenaAllocator.postpone, bind_eq_ok, check_eq_ok, exists_const, pure_eq_ok] at hok
    obtain ⟨-, rfl⟩ := hok
    exact h

/-- The owner reclaims from the arena it popped. -/
theorem Balanced.arenaSwap (h : Balanced law g s) (hshared : SharedHolds law g s)
    (hpopped : s.popped ≠ 0) (hok : s.finishReclaimArena ops 0 = .ok s') : Balanced law g s' := by
  have hplace : g.place s.popped = some .popped := (hshared.popped _).mpr ⟨rfl, hpopped⟩
  obtain ⟨hp, hflag, -⟩ := hshared.placed s.popped (by simp [hplace])
  obtain ⟨r, heap', alloc', hreclaim, rfl⟩ := finishReclaimArena_eq_ok hshared.holds hp hflag hok
  obtain ⟨r', heap₁, alloc₁, heq, -, -, hsettled⟩ :=
    hshared.holds.reclaimArena hp hflag (hshared.pending_dvd _ hp)
  rw [hreclaim, Except.ok.injEq, Prod.mk.injEq, Prod.mk.injEq] at heq
  obtain ⟨rfl, rfl, rfl⟩ := heq
  intro q hq
  show (heap' q).Balances (g.all (if r = 0 then s.live else Function.update s.live s.popped []) q)
  rcases hsettled.result with ⟨rfl, hperm, -⟩ | ⟨rfl, hperm, -⟩
  · have hq' := hperm.subset hq
    rw [if_pos rfl]
    by_cases hqp : q = s.popped
    · subst hqp
      exact FastArena.Balances.withLinked (h _ hq').reclaim
        (hshared.holds.reclaimArena_kept hp hreclaim)
    · exact (h q hq').withLinked (hsettled.others q hqp)
  · -- the arena has left the bins
    have hqp : q ≠ s.popped := by
      rintro rfl
      exact (List.nodup_cons.mp (hperm.nodup_iff.mpr (law.nodup hshared.holds.wf))).1 hq
    rw [if_neg hpopped, Ghost.all_update, Function.update_of_ne hqp]
    exact (h q (hperm.subset (List.mem_cons_of_mem _ hq))).withLinked (hsettled.others q hqp)

theorem Balanced.ownerNext (h : Balanced law g s) (hshared : SharedHolds law g s)
    (hok : s.ownerNext ops = .ok s') : Balanced law g s' := by
  have howner := hshared.owner
  unfold OwnerHolds at howner
  unfold RetiringArenas.ownerNext at hok
  cases hpc : s.owner with
  | idle =>
    rw [hpc, pure_eq_ok] at hok
    exact hok ▸ h
  | rootSwap new =>
    rw [hpc, pure_eq_ok] at hok
    exact hok ▸ h
  | arenaSwap new =>
    rw [hpc] at hok howner
    obtain ⟨rfl, hpopped⟩ := howner
    exact h.arenaSwap hshared hpopped hok

theorem Balanced.startReclaimArenas (h : Balanced law g s)
    (hok : s.startReclaimArenas = .ok s') : Balanced law g s' := by
  unfold RetiringArenas.startReclaimArenas at hok
  split_ifs at hok
  · rw [pure_eq_ok] at hok
    exact hok ▸ h
  · simp only [bind_eq_ok, Prod.exists, pure_eq_ok] at hok
    obtain ⟨_, _, -, rfl⟩ := hok
    exact h

/-- The link of an arena is written. -/
theorem Balanced.link (h : Balanced law g s) (next : Nat) :
    Balanced law g { s with heap := Function.update s.heap p ((s.heap p).withNext next) } := by
  intro q hq
  dsimp only
  by_cases hqp : q = p
  · subst hqp
    rw [Function.update_self]
    exact (h q hq).withNext next
  · rw [Function.update_of_ne hqp]
    exact h q hq

theorem Balanced.pop (h : Balanced law g s) (hok : s.pop = .ok s') : Balanced law g s' := by
  simp only [RetiringArenas.pop, FastArenaReclaimList.pop, bind_eq_ok, assert_eq_ok, exists_const,
    pure_eq_ok, Prod.exists, Prod.mk.injEq] at hok
  obtain ⟨_, _, _, ⟨-, rfl, rfl, rfl⟩, rfl⟩ := hok
  exact h.link 0

theorem Balanced.startReclaimArena (h : Balanced law g s)
    (hok : s.startReclaimArena ops = .ok s') : Balanced law g s' := by
  simp only [RetiringArenas.startReclaimArena, bind_eq_ok, check_eq_ok, exists_const, Prod.exists,
    pure_eq_ok] at hok
  obtain ⟨-, _, _, -, rfl⟩ := hok
  exact h

/-! ### The threads -/

/-- A thread begins to retire a live allocation, which still takes bytes of its arena. -/
theorem Balanced.startRetire [DecidableEq T] (h : Balanced law g s) (hl : l ∈ s.live p) :
    Balanced law ⟨g.place, Function.update g.leaving p ((t, l) :: g.leaving p)⟩
      { s with live := Function.update s.live p ((s.live p).erase l) } := by
  intro q hq
  refine (h q hq).perm ?_
  unfold Ghost.all
  dsimp only
  by_cases hqp : q = p
  · subst hqp
    rw [Function.update_self, Function.update_self, List.map_cons]
    exact ((List.perm_cons_erase hl).append_right _).trans List.perm_middle.symm
  · rw [Function.update_of_ne hqp, Function.update_of_ne hqp]

/-- The allocations that are being retired, with one more. -/
theorem mem_started {u : T} {q : Nat} {m : Allocation} :
    (u, m) ∈ Function.update g.leaving p ((t, l) :: g.leaving p) q ↔
      (u, m) ∈ g.leaving q ∨ q = p ∧ u = t ∧ m = l := by
  by_cases hq : q = p
  · subst hq
    simp [or_comm]
  · simp [hq]

theorem nodup_started (hshared : SharedHolds law g s) (hfree : (t, l) ∉ g.leaving p) (q : Nat) :
    (Function.update g.leaving p ((t, l) :: g.leaving p) q).Nodup := by
  by_cases hq : q = p
  · subst hq
    rw [Function.update_self]
    exact List.nodup_cons.mpr ⟨hfree, hshared.leaving_nodup q⟩
  · rw [Function.update_of_ne hq]
    exact hshared.leaving_nodup q

/-- The compare-exchange of `retire_data` succeeds. -/
theorem Balanced.count [DecidableEq T] (h : Balanced law g s) (hshared : SharedHolds law g s)
    (hmem : (t, l) ∈ g.leaving p) :
    Balanced law ⟨g.place, Function.update g.leaving p ((g.leaving p).erase (t, l))⟩
      { s with
        heap := Function.update s.heap p
          ((s.heap p).withHead (2 * u64 ((s.heap p).pending + l.size) + 1))
        retiredBytes := Function.update s.retiredBytes p (s.retiredBytes p + l.size) } := by
  obtain ⟨hl, hp⟩ := hshared.leaving_held hmem
  have hlaw := hshared.holds.arena p hp
  have hdvd := hshared.leaving_dvd p _ hmem
  have hspace := FastArena.requiredSpace_of_dvd (hlaw.size_pos l hl).2 hlaw.isAlignment hdvd
  intro q hq
  unfold Ghost.all
  dsimp only
  by_cases hqp : q = p
  · subst hqp
    rw [Function.update_self, Function.update_self, hlaw.u64_pending hl hdvd]
    refine ((h q hq).count hl hspace).perm ?_
    -- the bytes of the allocation go from those being retired to the count
    have hcons := ((List.perm_cons_erase hmem).map Prod.snd).append_left (s.live q)
    have herase := (hcons.trans List.perm_middle).erase l
    rwa [List.erase_cons_head] at herase
  · rw [Function.update_of_ne hqp, Function.update_of_ne hqp]
    exact h q hq

/-- What is left of the allocations that are being retired. -/
theorem mem_counted [DecidableEq T] {u : T} {q : Nat} {m : Allocation}
    (hnodup : (g.leaving p).Nodup) :
    (u, m) ∈ Function.update g.leaving p ((g.leaving p).erase (t, l)) q ↔
      (u, m) ∈ g.leaving q ∧ ¬(q = p ∧ u = t ∧ m = l) := by
  by_cases hq : q = p
  · subst hq
    rw [Function.update_self, hnodup.mem_erase_iff, ne_eq, Prod.mk.injEq]
    simp [and_comm]
  · rw [Function.update_of_ne hq]
    simp [hq]

/-- The next access of a thread. -/
theorem Balanced.next [DecidableEq T] {pc pc' : Pc} (h : Balanced law g s)
    (hshared : SharedHolds law g s) (hself : WorkerHolds g s t pc)
    (hok : pc.next s = .ok (s', pc')) : ∃ g', Balanced law g' s' ∧ (∀ p, (g'.leaving p).Nodup) ∧
      (∀ p l, (t, l) ∈ g'.leaving p ↔ pc'.leaving = some (p, l)) ∧
      ∀ u, u ≠ t → ∀ p l, (u, l) ∈ g'.leaving p ↔ (u, l) ∈ g.leaving p := by
  have hkept : ∀ {s'}, Balanced law g s' → pc'.leaving = pc.leaving →
      ∃ g', Balanced law g' s' ∧ (∀ p, (g'.leaving p).Nodup) ∧
      (∀ p l, (t, l) ∈ g'.leaving p ↔ pc'.leaving = some (p, l)) ∧
      ∀ u, u ≠ t → ∀ p l, (u, l) ∈ g'.leaving p ↔ (u, l) ∈ g.leaving p := by
    intro s' hs' hleaving
    refine ⟨g, hs', hshared.leaving_nodup, fun p l => ?_, fun u _ p l => Iff.rfl⟩
    rw [hleaving]
    exact hself.leaving p l
  unfold Pc.next at hok
  cases pc with
  | idle =>
    simp only [pure_eq_ok, Prod.mk.injEq] at hok
    obtain ⟨rfl, rfl⟩ := hok
    exact hkept h rfl
  | dataLoad p l =>
    simp only [dataTurn, bind_eq_ok, Prod.exists, pure_eq_ok, Prod.mk.injEq] at hok
    obtain ⟨_, ⟨_, _, -, rfl⟩, rfl, rfl⟩ := hok
    exact hkept h rfl
  | dataSwap p l old new =>
    by_cases hold : s.word p = old
    · simp only [if_pos hold, pure_eq_ok, Prod.mk.injEq] at hok
      obtain ⟨rfl, rfl⟩ := hok
      subst hold
      obtain ⟨-, rfl⟩ := hself.pc
      have hmem : (t, l) ∈ g.leaving p := (hself.leaving p l).mpr rfl
      refine ⟨_, h.count hshared hmem, fun q => ?_, fun q m => ?_, fun u hu q m => ?_⟩
      · dsimp only
        by_cases hq : q = p
        · rw [hq, Function.update_self]
          exact (hshared.leaving_nodup p).erase _
        · rw [Function.update_of_ne hq]
          exact hshared.leaving_nodup q
      · -- the thread has nothing else to count
        have hnone :
            (if retired (s.word p) = true then Pc.idle else .ptrLoad p).leaving = none := by
          split_ifs <;> rfl
        rw [hnone, mem_counted (hshared.leaving_nodup p), hself.leaving]
        simp [Pc.leaving, eq_comm]
      · rw [mem_counted (hshared.leaving_nodup p)]
        simp [hu]
    · simp only [if_neg hold, dataTurn, bind_eq_ok, Prod.exists, pure_eq_ok, Prod.mk.injEq] at hok
      obtain ⟨_, ⟨_, _, -, rfl⟩, rfl, rfl⟩ := hok
      exact hkept h rfl
  | ptrLoad p =>
    simp only [ptrTurn, bind_eq_ok, Prod.exists, pure_eq_ok, Prod.mk.injEq] at hok
    obtain ⟨_, ⟨_, _, -, rfl⟩, rfl, rfl⟩ := hok
    exact hkept h rfl
  | ptrNext p old new =>
    simp only [pure_eq_ok, Prod.mk.injEq] at hok
    obtain ⟨rfl, rfl⟩ := hok
    exact hkept (h.link _) rfl
  | ptrSwap p old new =>
    by_cases hold : s.root = old
    · simp only [if_pos hold, pure_eq_ok, Prod.mk.injEq] at hok
      obtain ⟨rfl, rfl⟩ := hok
      have hroot : Balanced law g (s.withRoot new) := h
      exact hkept hroot rfl
    · simp only [if_neg hold, ptrTurn, bind_eq_ok, Prod.exists, pure_eq_ok, Prod.mk.injEq] at hok
      obtain ⟨_, ⟨_, _, -, rfl⟩, rfl, rfl⟩ := hok
      exact hkept h rfl

/-! ### Every step -/

/-- The owner has made a step: the threads have what they had. -/
theorem Machine.Balanced.of_owner (h : RetiringArenas.Balanced law g s')
    (hshared : SharedHolds law g σ.shared)
    (hworkers : ∀ t, WorkerHolds g σ.shared t (σ.locals t))
    (hguarded : (σ.withShared s').Guarded law) : (σ.withShared s').Balanced law := by
  obtain ⟨g', hshared', hworkers'⟩ := hguarded
  refine ⟨g', hshared', hworkers', h.of_perm fun p => ?_⟩
  exact leaving_perm hshared' hworkers' hshared.leaving_nodup
    (fun t p l => (hworkers t).leaving p l) p

/-- Every step keeps the count. -/
theorem Machine.Balanced.step [DecidableEq T] (h : σ.Balanced law)
    (hstep : Step ops law.held law.Suitable σ σ') : σ'.Balanced law := by
  obtain ⟨g, hshared, hworkers, hbalanced⟩ := h
  have hguarded : σ'.Guarded law := Guarded.step ⟨g, hshared, hworkers⟩ hstep
  cases hstep with
  | owner hstep =>
    exact .of_owner (hbalanced.ownerStep hshared hstep) hshared hworkers hguarded
  | reclaimArenas _ _ hok =>
    exact .of_owner (hbalanced.startReclaimArenas hok) hshared hworkers hguarded
  | pop _ _ hok => exact .of_owner (hbalanced.pop hok) hshared hworkers hguarded
  | reclaimArena _ _ hok =>
    exact .of_owner (hbalanced.startReclaimArena hok) hshared hworkers hguarded
  | ownerNext hok => exact .of_owner (hbalanced.ownerNext hshared hok) hshared hworkers hguarded
  | @retire t p l pc hidle hl hdvd hok =>
    obtain ⟨g', hshared', hworkers'⟩ := hguarded
    simp only [RetiringArenas.startRetire, bind_eq_ok, check_eq_ok, exists_const, pure_eq_ok] at hok
    obtain ⟨-, -, -, -, -, -, -, rfl⟩ := hok
    have hfree : ∀ q m, (t, m) ∉ g.leaving q := by
      intro q m
      rw [(hworkers t).leaving, hidle]
      simp [Pc.leaving]
    refine ⟨g', hshared', hworkers', (hbalanced.startRetire (t := t) hl).of_perm fun q => ?_⟩
    refine leaving_perm hshared' hworkers' (fun q => ?_) (fun u q m => ?_) q
    · exact nodup_started hshared (hfree p l) q
    · rw [mem_started]
      by_cases hu : u = t
      · subst hu
        rw [Threads.set_locals_self]
        simp [hfree, Pc.leaving, eq_comm]
      · rw [Threads.set_locals_of_ne hu, ← (hworkers u).leaving]
        simp [hu]
  | @next t s' pc hok =>
    obtain ⟨g', hshared', hworkers'⟩ := hguarded
    obtain ⟨g'', hbalanced', hnodup, hself, hothers⟩ :=
      hbalanced.next hshared (hworkers t) hok
    refine ⟨g', hshared', hworkers', hbalanced'.of_perm fun q => ?_⟩
    refine leaving_perm hshared' hworkers' hnodup (fun u p l => ?_) q
    by_cases hu : u = t
    · subst hu
      rw [Threads.set_locals_self]
      exact hself p l
    · rw [Threads.set_locals_of_ne hu, hothers u hu]
      exact (hworkers u).leaving p l

/-- **The bytes of the arenas are counted exactly in every reachable state.** -/
theorem reachable_balanced [DecidableEq T] {init : ArenaAllocator B}
    (hinit : ∀ heap, law.Inv ⟨heap, init, 0, fun _ => [], []⟩)
    (h : Reachable ops law.held law.Suitable init σ) : σ.Balanced law := by
  induction h with
  | start heap =>
    obtain ⟨g, hshared, hworkers⟩ : Machine.Guarded law _ := .start (hinit heap)
    refine ⟨g, hshared, hworkers, fun p hp => ?_⟩
    have hnil : law.held init.bins = [] := (hinit heap).given.eq_nil
    rw [hnil] at hp
    exact absurd hp List.not_mem_nil
  | step _ hstep ih => exact ih.step hstep

end RetiringArenas

end Cuw3
