/-
  The retire-reclaim protocol under every interleaving: no retired byte and no retired arena is
  lost.

  A step of the owner keeps what the threads rely on (`Kept`): the arenas that they owe a push stay
  theirs, and so do the links of these.  A step of a thread moves at most the arena that it retires
  to.  So the invariant holds in every reachable state (`reachable_guarded`), and with it the
  protocol: the bytes are counted, an arena with its flag set is in exactly one place, and the lists
  end (`reachable_protocol`).
-/
import Cuw3.Arena.Equiv.Queues

namespace Cuw3

open Lib

namespace RetiringArenas

open BinsLaw (nexts Settled)

variable {B T : Type} {ops : AllocatorOps B}

/-! ### The invariant -/

/-- The exchange that the owner has prepared. -/
def OwnerHolds (s : RetiringArenas B) : Prop :=
  match s.owner with
  | .idle => True
  | .rootSwap new => new = 1 ∧ s.walking = 0
  | .arenaSwap new => new = 0 ∧ s.popped ≠ 0

/-- What holds of the shared state. -/
structure SharedHolds (law : BinsLaw ops) (g : Ghost T) (s : RetiringArenas B) : Prop
    extends Accounts law g s, Queues g.place s where
  owner : OwnerHolds s

/-- The allocation that the thread has begun to retire and has not counted, with its arena. -/
def Pc.leaving : Pc → Option (Nat × Allocation)
  | .dataLoad p l => some (p, l)
  | .dataSwap p l _ _ => some (p, l)
  | _ => none

/-- The arena whose flag the thread raised and that it has not pushed. -/
def Pc.owed : Pc → Option Nat
  | .ptrLoad p => some p
  | .ptrNext p _ _ => some p
  | .ptrSwap p _ _ => some p
  | _ => none

/-- What a thread has computed from the words it has loaded. -/
def PcHolds (s : RetiringArenas B) : Pc → Prop
  | .dataSwap _ l old new => u64 (old / 2 + l.size) < 2 ^ 63 ∧ new = 2 * u64 (old / 2 + l.size) + 1
  | .ptrNext p _ new => p % 2 = 0 ∧ new = p + 1
  | .ptrSwap p old new => p % 2 = 0 ∧ new = p + 1 ∧ nexts s.heap p = RetireReclaimPtr.ptr old
  | _ => True

/-- What holds of a thread. -/
structure WorkerHolds (g : Ghost T) (s : RetiringArenas B) (t : T) (pc : Pc) : Prop where
  leaving : ∀ p l, (t, l) ∈ g.leaving p ↔ pc.leaving = some (p, l)
  owed : ∀ p, g.place p = some (.owed t) ↔ pc.owed = some p
  pc : PcHolds s pc

/-- The invariant of a run. -/
def Machine.Guarded (law : BinsLaw ops) (σ : Machine B T) : Prop :=
  Threads.Holds (SharedHolds law) WorkerHolds σ

/-- A step of the owner keeps the invariant of the shared state and what the threads have. -/
def Kept (law : BinsLaw ops) (g : Ghost T) (s s' : RetiringArenas B) : Prop :=
  ∃ place, SharedHolds law ⟨place, g.leaving⟩ s' ∧
    (∀ p t, place p = some (.owed t) ↔ g.place p = some (.owed t)) ∧
    ∀ p t, g.place p = some (.owed t) → nexts s'.heap p = nexts s.heap p

variable {law : BinsLaw ops} {g g' : Ghost T} {s s' : RetiringArenas B} {heap' : Heap}
  {alloc' : ArenaAllocator B} {live' : Nat → List Allocation} {i j : ListId} {p q : Nat} {t : T}
  {pc : Pc} {l : Allocation} {σ σ' : Machine B T}

/-- Writing a word leaves the links alone. -/
theorem nexts_withHead {heap : Heap} (head q : Nat) :
    nexts (Function.update heap p ((heap p).withHead head)) q = nexts heap q := by
  by_cases hq : q = p
  · subst hq
    rw [nexts, Function.update_self]
    rfl
  · rw [nexts, Function.update_of_ne hq, nexts]

/-- A step that keeps what a thread has, and the links of the arenas it has. -/
theorem WorkerHolds.undisturbed (h : WorkerHolds g s t pc)
    (hleaving : ∀ p l, (t, l) ∈ g'.leaving p ↔ (t, l) ∈ g.leaving p)
    (hplace : ∀ p, g'.place p = some (.owed t) ↔ g.place p = some (.owed t))
    (hnext : ∀ p, g.place p = some (.owed t) → nexts s'.heap p = nexts s.heap p) :
    WorkerHolds g' s' t pc where
  leaving p l := (hleaving p l).trans (h.leaving p l)
  owed p := (hplace p).trans (h.owed p)
  pc := by
    have hpc := h.pc
    cases pc with
    | ptrSwap p old new =>
      obtain ⟨heven, hnew, hlink⟩ := hpc
      refine ⟨heven, hnew, ?_⟩
      rw [hnext p ((h.owed p).mpr rfl), hlink]
    | _ => exact hpc

/-- The owner has made a step that takes nothing from a thread. -/
theorem Machine.Guarded.owner_step (hworkers : ∀ t, WorkerHolds g σ.shared t (σ.locals t))
    (hkept : Kept law g σ.shared s') : (σ.withShared s').Guarded law := by
  obtain ⟨place, hshared, hplace, hnext⟩ := hkept
  refine ⟨⟨place, g.leaving⟩, hshared, fun t => ?_⟩
  exact (hworkers t).undisturbed (fun _ _ => Iff.rfl) (fun p => hplace p t) fun p => hnext p t

/-! ### The owner allocates and frees -/

/-- The owner changes the bins, and no entry of an arena that they hold. -/
theorem SharedHolds.settle (h : SharedHolds law g s)
    (hretired : alloc'.retiredArenas = s.alloc.retiredArenas)
    (hentry : ∀ p ∈ law.held s.alloc.bins,
      (heap' p).retireReclaimEntry = (s.heap p).retireReclaimEntry ∧
        (heap' p).arenaAlignment = (s.heap p).arenaAlignment)
    (hholds : law.Holds heap' alloc'.bins (g.all live'))
    (hall : ∀ p, g.all live' p ≠ [] → p ∈ law.held alloc'.bins)
    (hkept : ∀ p ∈ law.held s.alloc.bins, (s.heap p).pending ≠ 0 → p ∈ law.held alloc'.bins)
    (hnew : ∀ p ∈ law.held alloc'.bins, p ∉ law.held s.alloc.bins →
      (heap' p).retireReclaimEntry.head = 0) :
    Kept law g s { s with heap := heap', alloc := alloc', live := live' } := by
  have hnext : ∀ p at', g.place p = some at' → nexts heap' p = nexts s.heap p := by
    intro p at' hp
    have hheld := (h.placed p (by simp [hp])).1
    rw [nexts, (hentry p hheld).1, nexts]
  refine ⟨g.place, ⟨?_, ?_, h.owner⟩, fun p t => Iff.rfl, fun p t => hnext p (.owed t)⟩
  · refine h.toAccounts.settle hholds hall (fun p hp => ?_) hkept hnew
    rw [(hentry p hp).1]
    exact ⟨rfl, (hentry p hp).2⟩
  · refine h.toQueues.congr ?_ ?_ rfl (fun p => ⟨fun i => Iff.rfl, Iff.rfl⟩)
      fun p i => hnext p (.list i)
    · show alloc'.retiredArenas.head = s.root
      rw [hretired]
      rfl
    · funext i
      cases i with
      | root =>
        show RetireReclaimPtr.ptr alloc'.retiredArenas.head = RetireReclaimPtr.ptr s.root
        rw [hretired]
        rfl
      | walking => rfl
      | postponed =>
        show alloc'.retiredArenas.nextPostponed = s.alloc.retiredArenas.nextPostponed
        rw [hretired]

theorem Ghost.all_update {live allocs} : g.all (Function.update live p allocs) =
    Function.update (g.all live) p (allocs ++ (g.leaving p).map Prod.snd) := by
  funext q
  by_cases hq : q = p
  · subst hq
    rw [Ghost.all, Function.update_self, Function.update_self]
  · rw [Ghost.all, Function.update_of_ne hq, Function.update_of_ne hq, Ghost.all]

theorem SharedHolds.allocate (h : SharedHolds law g s) {size alignment m : Nat} {heap₁ : Heap}
    {bins₁ : B} (hsize : size < 2 ^ 64)
    (hacquire : ops.acquire s.heap s.alloc.bins size alignment = .ok (.acquired p, heap₁, bins₁))
    (hok : ops.allocate heap₁ { s.alloc with bins := bins₁ } p size = .ok (m, heap', alloc')) :
    Kept law g s { s with
      heap := heap', alloc := alloc'
      live := Function.update s.live p (⟨m, size⟩ :: s.live p) } := by
  obtain ⟨hframe, hwf, hperm, hlinked, -⟩ := law.acquire h.holds.wf hacquire
  obtain ⟨hholds, hp, hnot⟩ := h.holds.taken hframe hwf hperm
  obtain ⟨-, hpos, ⟨rfl, -, -⟩ | ⟨fmt, hfrom⟩⟩ := law.allocate_cases hok
  · exact absurd rfl (law.acquire_allocate h.holds.wf hacquire hok)
  obtain ⟨⟨hp0, hp64⟩, hsuit, -⟩ := law.member h.holds.wf hp
  have hholds' : law.Holds heap₁ ({ s.alloc with bins := bins₁ } : ArenaAllocator B).bins
      (g.all s.live) := hholds
  obtain ⟨hretired, hserved, -⟩ := hholds'.allocateFrom hnot hp0
    hp64 (by rw [hframe.suitable]; exact law.suitable_congr (hframe.links.sameBlock p) hsuit)
    (hframe.links.law (h.holds.arena p hp)) hlinked hpos hsize
    (.inl (by rw [hframe.links p]; exact h.holds.busy p hp)) hfrom
  have hheld : (law.held alloc'.bins).Perm (law.held s.alloc.bins) := hserved.perm.trans hperm
  refine h.settle hretired (fun q _ => ?_) ?_ (fun q hq => ?_)
    (fun q hq _ => hheld.symm.subset hq) fun q hq hnew => absurd (hheld.subset hq) hnew
  · refine ⟨?_, ((hframe.links.sameBlock q).trans (hserved.block q)).alignment⟩
    rw [hserved.entry q, hframe.links q]
  · rw [Ghost.all_update]
    exact hserved.holds
  · rw [Ghost.all_update] at hq
    exact hheld.symm.subset (BinsLaw.mem_held_of_update h.all_held hp q hq)

theorem SharedHolds.acquireNone (h : SharedHolds law g s) {size alignment : Nat}
    {r : AcquiredResource} {bins' : B}
    (hok : ops.acquire s.heap s.alloc.bins size alignment = .ok (r, heap', bins'))
    (hr : ∀ p, r ≠ .acquired p) :
    Kept law g s { s with heap := heap', alloc := { s.alloc with bins := bins' } } := by
  obtain ⟨hframe, hwf, hperm⟩ := law.acquire h.holds.wf hok
  have hheld : (law.held bins').Perm (law.held s.alloc.bins) := by
    cases r with
    | failed => exact hperm
    | noResource => exact hperm
    | acquired p => exact absurd rfl (hr p)
  refine h.settle rfl (fun q _ => ?_) (h.holds.frame hframe hwf fun q hq => hheld.subset hq)
    (fun q hq => hheld.symm.subset (h.all_held q hq)) (fun q hq _ => hheld.symm.subset hq)
    fun q hq hnew => absurd (hheld.subset hq) hnew
  refine ⟨?_, (hframe.links.sameBlock q).alignment⟩
  rw [hframe.links q]

theorem SharedHolds.allocateFresh (h : SharedHolds law g s) {arena : FastArena} {size m : Nat}
    (hp : p ∉ law.held s.alloc.bins) (hlt : p < 2 ^ 64) (hfresh : arena.Fresh)
    (hsuit : law.Suitable s.alloc.bins arena) (hroom : size ≤ arena.arenaMemorySize)
    (hok : ops.allocate (Function.update s.heap p arena) s.alloc p size = .ok (m, heap', alloc')) :
    Kept law g s { s with
      heap := heap', alloc := alloc'
      live := if m = 0 then s.live else Function.update s.live p [⟨m, size⟩] } := by
  have hnil : g.all s.live p = [] := by
    by_contra hne
    exact hp (h.all_held p hne)
  have hne : ∀ q ∈ law.held s.alloc.bins, q ≠ p := fun q hq => ne_of_mem_of_not_mem hq hp
  have hholds : law.Holds (Function.update s.heap p arena) s.alloc.bins (g.all s.live) :=
    h.holds.congr fun q hq => ⟨Function.update_of_ne (hne q hq) _ _, rfl⟩
  obtain ⟨hp0, hpos, ⟨rfl, rfl, rfl⟩ | ⟨fmt, hfrom⟩⟩ := law.allocate_cases hok
  · refine h.settle rfl (fun q hq => ?_) hholds h.all_held (fun q hq _ => hq)
      fun q hq hnew => absurd hq hnew
    rw [Function.update_of_ne (hne q hq)]
    exact ⟨rfl, rfl⟩
  obtain ⟨hretired, hserved, -⟩ := hholds.allocateFrom hp (Nat.pos_of_ne_zero hp0) hlt
    (by rwa [Function.update_self])
    (by rw [Function.update_self, hnil]; exact hfresh.law)
    (by rw [Function.update_self]; exact hfresh.linked) hpos
    (lt_of_le_of_lt hroom (lt_of_le_of_lt (Nat.le_add_left _ _) hfresh.bound))
    (.inr (by rw [Function.update_self]; exact hfresh.toStatic.requiredSpace_pos hpos hroom)) hfrom
  rw [if_neg hserved.nonnull]
  -- nothing is live in the arena, and nobody retires from it
  have hlive : g.all (Function.update s.live p [⟨m, size⟩]) =
      Function.update (g.all s.live) p (⟨m, size⟩ :: g.all s.live p) := by
    rw [Ghost.all_update, hnil, (List.append_eq_nil_iff.mp hnil).2]
    rfl
  refine h.settle hretired (fun q hq => ?_) ?_ (fun q hq => ?_)
    (fun q hq _ => hserved.perm.symm.subset (List.mem_cons_of_mem _ hq)) fun q hq hnew => ?_
  · rw [hserved.entry q, (hserved.block q).alignment, Function.update_of_ne (hne q hq)]
    exact ⟨rfl, rfl⟩
  · rw [hlive]
    exact hserved.holds
  · rw [hlive] at hq
    refine hserved.perm.symm.subset
      (BinsLaw.mem_held_of_update (p := p) ?_ List.mem_cons_self q hq)
    exact fun q hq => List.mem_cons_of_mem _ (h.all_held q hq)
  · obtain rfl := (List.mem_cons.mp (hserved.perm.subset hq)).resolve_right hnew
    rw [hserved.entry q, Function.update_self]
    exact hfresh.head

/-- Nobody retires from an arena all whose bytes are freed. -/
theorem Accounts.leaving_nil (h : Accounts law g s) (hp : p ∈ law.held s.alloc.bins)
    {live : List Allocation} (hsub : ∀ x ∈ g.leaving p, x.2 ∈ live)
    (hzero : (s.heap p).liveBytes live = 0) : g.leaving p = [] := by
  rw [List.eq_nil_iff_forall_not_mem]
  intro x hx
  have hlaw := h.holds.arena p hp
  obtain ⟨hpos, hlt⟩ := hlaw.size_pos x.2 (List.mem_append_right _ (List.mem_map_of_mem hx))
  have hspace := FastArena.requiredSpace_of_dvd hlt hlaw.isAlignment (h.leaving_dvd p x hx)
  rw [(s.heap p).liveBytes_erase (hsub x hx), hspace] at hzero
  omega

theorem SharedHolds.deallocate (h : SharedHolds law g s) {r : Nat} (hl : l ∈ s.live p)
    (hok : ops.deallocate s.heap s.alloc p l.memory l.size = .ok (r, heap', alloc')) :
    Kept law g s { s with
      heap := heap', alloc := alloc'
      live := Function.update s.live p (if r = 0 then (s.live p).erase l else []) } := by
  have hall : l ∈ g.all s.live p := List.mem_append_left _ hl
  have hp := h.all_held p (List.ne_nil_of_mem hall)
  have hp0 : p ≠ 0 := Nat.pos_iff_ne_zero.mp (law.member h.holds.wf hp).1.1
  obtain ⟨fmt, hfrom⟩ := law.deallocate_cases hok
  obtain ⟨r', heap₁, alloc₁, heq, hretired, hsettled⟩ := h.holds.deallocateFrom hp hall fmt
  rw [hfrom, Except.ok.injEq, Prod.mk.injEq, Prod.mk.injEq] at heq
  obtain ⟨rfl, rfl, rfl⟩ := heq
  have herase : (g.all s.live p).erase l = (s.live p).erase l ++ (g.leaving p).map Prod.snd :=
    List.erase_append_left _ hl
  rw [herase] at hsettled
  have hlive : g.all (Function.update s.live p (if r = 0 then (s.live p).erase l else [])) =
      if r = 0 then Function.update (g.all s.live) p
        ((s.live p).erase l ++ (g.leaving p).map Prod.snd)
      else Function.update (Function.update (g.all s.live) p
        ((s.live p).erase l ++ (g.leaving p).map Prod.snd)) p [] := by
    rw [Ghost.all_update]
    rcases hsettled.result with ⟨rfl, -⟩ | ⟨rfl, -, -, -, -, -, hzero⟩
    · rfl
    · rw [Function.update_self] at hzero
      have hleft := h.toAccounts.leaving_nil hp
        (fun x hx => List.mem_append_right _ (List.mem_map_of_mem hx)) hzero
      rw [if_neg hp0, if_neg hp0, hleft, Function.update_idem]
      rfl
  refine h.settle hretired (fun q hq => ?_) ?_ ?_ (fun q hq hpending => ?_) fun q hq hnew => ?_
  · by_cases hqp : q = p
    · subst hqp
      exact ⟨hsettled.entry, hsettled.block.alignment⟩
    · rw [hsettled.others q hqp]
      exact ⟨rfl, rfl⟩
  · rw [hlive]
    exact hsettled.holds_live (law.nodup h.holds.wf) hp0
  · rw [hlive]
    exact hsettled.live_held hp0 fun q hq => BinsLaw.mem_held_of_update h.all_held hp q hq
  · rcases hsettled.result with ⟨-, hperm, -⟩ | ⟨rfl, hperm, -, -, -, hzero, -⟩
    · exact hperm.symm.subset hq
    · refine (List.mem_cons.mp (hperm.symm.subset hq)).resolve_left ?_
      rintro rfl
      rw [FastArena.pending, hsettled.entry] at hzero
      exact hpending hzero
  · refine absurd ?_ hnew
    rcases hsettled.result with ⟨-, hperm, -⟩ | ⟨-, hperm, -⟩
    · exact hperm.subset hq
    · exact hperm.subset (List.mem_cons_of_mem _ hq)

/-! ### The owner reclaims -/

/-- The owner moves a whole list, to where no arenas are. -/
theorem SharedHolds.take (h : SharedHolds law g s) (hij : i ≠ j) (hempty : s.head j = 0)
    (haccounts : ∀ g' : Ghost T, Accounts law g' s → Accounts law g' s') (hodd : s'.root % 2 = 1)
    (hlt : s'.root < 2 ^ 64) (hheap : s'.heap = s.heap) (hpopped : s'.popped = s.popped)
    (hsource : s'.head i = 0) (htarget : s'.head j = s.head i)
    (hother : ∀ k, k ≠ i → k ≠ j → s'.head k = s.head k) (howner : OwnerHolds s') :
    Kept law g s s' := by
  obtain ⟨ps, hlinked, hmem⟩ := h.lists i
  have hfrom : ∀ p ∈ ps, g.place p = some (.list i) := fun p hp => (hmem p).mp hp
  refine ⟨g.place.move ps (.list j), ⟨?_, ?_, howner⟩, fun p t => ?_, fun p t _ => ?_⟩
  · exact haccounts _ (h.toAccounts.moved fun p => Places.move_none hfrom)
  · exact h.toQueues.take hij hempty hlinked hmem hodd hlt hheap hpopped hsource htarget hother
  · exact Places.move_other hfrom (by simp) (by simp)
  · rw [hheap]

theorem SharedHolds.postpone (h : SharedHolds law g s) (hidle : s.owner = .idle)
    (hok : s.alloc.postpone s.walking = .ok alloc') :
    Kept law g s { s with alloc := alloc', walking := 0 } := by
  simp only [ArenaAllocator.postpone, bind_eq_ok, check_eq_ok, exists_const, pure_eq_ok] at hok
  obtain ⟨hempty, rfl⟩ := hok
  refine h.take (i := .walking) (j := .postponed) (by simp) hempty
    (fun _ h => h.congr rfl rfl rfl rfl rfl) h.root_odd h.root_lt rfl rfl rfl rfl
    (fun k hk hk' => ?_) ?_
  · cases k with
    | root => rfl
    | walking => exact absurd rfl hk
    | postponed => exact absurd rfl hk'
  · unfold OwnerHolds
    dsimp only
    rw [hidle]
    trivial

theorem SharedHolds.startReclaimArenas (h : SharedHolds law g s) (hwalk : s.walking = 0)
    (hidle : s.owner = .idle) (hok : s.startReclaimArenas = .ok s') : Kept law g s s' := by
  unfold RetiringArenas.startReclaimArenas at hok
  split_ifs at hok with hpost
  · rw [pure_eq_ok] at hok
    subst hok
    refine h.take (i := .postponed) (j := .walking) (by simp) hwalk
      (fun _ h => h.congr rfl rfl rfl rfl rfl) h.root_odd h.root_lt rfl rfl rfl rfl
      (fun k hk hk' => ?_) ?_
    · cases k with
      | root => rfl
      | walking => exact absurd rfl hk'
      | postponed => exact absurd rfl hk
    · unfold OwnerHolds
      dsimp only
      rw [hidle]
      trivial
  · simp only [bind_eq_ok, Prod.exists, RetireReclaimPtrView.reclaim_eq_ok, pure_eq_ok] at hok
    obtain ⟨_, _, ⟨-, rfl, rfl⟩, rfl⟩ := hok
    refine ⟨g.place, ⟨h.toAccounts.congr rfl rfl rfl rfl rfl, ?_, rfl, hwalk⟩, fun _ _ => Iff.rfl,
      fun _ _ _ => rfl⟩
    exact h.toQueues.congr rfl rfl rfl (fun p => ⟨fun i => Iff.rfl, Iff.rfl⟩) fun _ _ _ => rfl

/-- The exchange of `reclaim`. -/
theorem SharedHolds.rootSwap (h : SharedHolds law g s) (hwalk : s.walking = 0) :
    Kept law g s
      { s.withRoot 1 with owner := .idle, walking := RetireReclaimPtr.ptr s.root } := by
  have hnull : RetireReclaimPtr.ptr 1 = 0 := RetireReclaimPtr.ptr_eq (by decide)
  have hlt : 1 < 2 ^ 64 := by decide
  refine h.take (i := .root) (j := .walking) (by simp) hwalk
    (fun _ h => h.congr rfl rfl rfl rfl rfl)
    rfl hlt rfl rfl hnull rfl (fun k hk hk' => ?_) trivial
  cases k with
  | root => exact absurd rfl hk
  | walking => exact absurd rfl hk'
  | postponed => rfl

theorem SharedHolds.pop (h : SharedHolds law g s) (hpopped : s.popped = 0)
    (hidle : s.owner = .idle) (hok : s.pop = .ok s') : Kept law g s s' := by
  simp only [RetiringArenas.pop, FastArenaReclaimList.pop, bind_eq_ok, assert_eq_ok, exists_const,
    pure_eq_ok, Prod.exists, Prod.mk.injEq] at hok
  obtain ⟨_, _, _, ⟨hwalk, rfl, rfl, rfl⟩, rfl⟩ := hok
  have hlisted : Listed g.place s.heap s.walking (.list .walking) := h.lists .walking
  obtain ⟨ps, hlinked, hmem⟩ := hlisted
  obtain ⟨rest, rfl, -⟩ := hlinked.of_ne_null hwalk
  have hplace : g.place s.walking = some (.list .walking) := (hmem _).mp List.mem_cons_self
  have hheld := (h.placed s.walking (by simp [hplace])).1
  have hfrom : ∀ p ∈ [s.walking], g.place p = some (.list .walking) := by
    intro p hp
    rwa [List.mem_singleton.mp hp]
  refine ⟨g.place.move [s.walking] .popped, ⟨?_, h.toQueues.pop hpopped hwalk, ?_⟩, fun p t => ?_,
    fun p t hp => ?_⟩
  · have hnone : ∀ p, g.place.move [s.walking] .popped p = none ↔ g.place p = none :=
      fun p => Places.move_none hfrom
    exact ((h.toAccounts.moved hnone).link hheld 0).congr rfl rfl rfl rfl rfl
  · unfold OwnerHolds
    dsimp only
    rw [hidle]
    trivial
  · exact Places.move_other hfrom (by simp) (by simp)
  · have hne : p ≠ s.walking := by
      rintro rfl
      rw [hplace] at hp
      cases hp
    show (Function.update s.heap s.walking _ p).retireReclaimEntry.next = _
    rw [Function.update_of_ne hne]
    rfl

theorem SharedHolds.startReclaimArena (h : SharedHolds law g s) (hpopped : s.popped ≠ 0)
    (hok : s.startReclaimArena ops = .ok s') : Kept law g s s' := by
  simp only [RetiringArenas.startReclaimArena, bind_eq_ok, check_eq_ok, exists_const, Prod.exists,
    RetireReclaimPtrView.reclaimReset_eq_ok, pure_eq_ok] at hok
  obtain ⟨-, _, _, ⟨-, rfl, rfl⟩, rfl⟩ := hok
  refine ⟨g.place, ⟨h.toAccounts.congr rfl rfl rfl rfl rfl, ?_, rfl, hpopped⟩, fun _ _ => Iff.rfl,
    fun _ _ _ => rfl⟩
  exact h.toQueues.congr rfl rfl rfl (fun p => ⟨fun i => Iff.rfl, Iff.rfl⟩) fun _ _ _ => rfl

/-- From the exchange on, the owner does what `reclaim_arena` does when no thread interferes. -/
theorem finishReclaimArena_eq_ok (hholds : law.Holds s.heap s.alloc.bins (g.all s.live))
    (hp : s.popped ∈ law.held s.alloc.bins) (hflag : (s.heap s.popped).flagged)
    (hok : s.finishReclaimArena ops 0 = .ok s') :
    ∃ r heap' alloc', s.alloc.reclaimArena ops.toBinsOps s.heap s.popped = .ok (r, heap', alloc') ∧
      s' = { s with
        heap := heap', alloc := alloc', owner := .idle, popped := 0
        live := if r = 0 then s.live else Function.update s.live s.popped []
        reclaimedBytes := Function.update s.reclaimedBytes s.popped
          (s.reclaimedBytes s.popped + (s.heap s.popped).pending) } := by
  have hmember := law.member hholds.wf hp
  have hp0 : s.popped ≠ 0 := Nat.pos_iff_ne_zero.mp hmember.1.1
  have htype : ArenaAllocator.hasType ops.toBinsOps s.heap s.popped = true := by
    simp [ArenaAllocator.hasType, law.type hmember.2.1]
  obtain ⟨heap₁, bins₁, hextract, hframe, -⟩ := law.extract hholds.wf hp
  -- the bins have not touched the word
  have hhead : (heap₁ s.popped).retireReclaimEntry.head =
      (s.heap s.popped).retireReclaimEntry.head := by
    rw [hframe.links s.popped]
  have hreset : RetireReclaimPtrView.reclaimReset (heap₁ s.popped).retireReclaimEntry.head =
      .ok ((heap₁ s.popped).retireReclaimEntry.head, 0) := by
    rw [RetireReclaimPtrView.reclaimReset_eq_ok, hhead]
    exact ⟨hflag, rfl, rfl⟩
  simp only [RetiringArenas.finishReclaimArena, hextract, ok_bind] at hok
  rw [bind_eq_ok] at hok
  obtain ⟨view, hview, hok⟩ := hok
  have hpending : RetireReclaimPtr.valueShifted (heap₁ s.popped).retireReclaimEntry.head =
      (s.heap s.popped).pending := by
    rw [RetireReclaimPtr.valueShifted_eq, hhead]
    rfl
  simp only [ArenaAllocator.reclaimArena, check_of htype, hextract, ok_bind,
    FastArena.reclaimAllocations, hreset, hview]
  rw [hpending] at hok
  split_ifs at hok with hres
  · rw [bind_eq_ok] at hok
    obtain ⟨out, hout, hok⟩ := hok
    rw [pure_eq_ok] at hok
    subst hok
    refine ⟨s.popped, Function.update heap₁ s.popped out, { s.alloc with bins := bins₁ }, ?_, ?_⟩
    · rw [if_pos hres, hout]
      rfl
    · rw [if_neg hp0]
  · rw [bind_eq_ok] at hok
    obtain ⟨⟨heap₂, bins₂⟩, hrelease, hok⟩ := hok
    rw [pure_eq_ok] at hok
    subst hok
    refine ⟨0, heap₂, { s.alloc with bins := bins₂ }, ?_, ?_⟩
    · rw [if_neg hres, hrelease]
      rfl
    · rw [if_pos rfl]

/-- The exchange of `reclaim_reset`, with the rest of `reclaim_arena`. -/
theorem SharedHolds.arenaSwap (h : SharedHolds law g s) (hpopped : s.popped ≠ 0)
    (hok : s.finishReclaimArena ops 0 = .ok s') : Kept law g s s' := by
  have hplace : g.place s.popped = some .popped := (h.popped _).mpr ⟨rfl, hpopped⟩
  obtain ⟨hp, hflag, -⟩ := h.placed s.popped (by simp [hplace])
  obtain ⟨r, heap', alloc', hreclaim, rfl⟩ := finishReclaimArena_eq_ok h.holds hp hflag hok
  obtain ⟨r', heap₁, alloc₁, heq, hretired, -, hsettled⟩ :=
    h.holds.reclaimArena hp hflag (h.pending_dvd _ hp)
  rw [hreclaim, Except.ok.injEq, Prod.mk.injEq, Prod.mk.injEq] at heq
  obtain ⟨rfl, rfl, rfl⟩ := heq
  have hlive : g.all (if r = 0 then s.live else Function.update s.live s.popped []) =
      if r = 0 then g.all s.live else Function.update (g.all s.live) s.popped [] := by
    rcases hsettled.result with ⟨rfl, -⟩ | ⟨hr, -, -, -, -, -, hzero⟩
    · rfl
    · have hleft := h.toAccounts.leaving_nil hp
        (fun x hx => List.mem_append_right _ (List.mem_map_of_mem hx)) hzero
      rw [hr, if_neg hpopped, if_neg hpopped, Ghost.all_update, hleft]
      rfl
  have hsub : ∀ q ∈ law.held alloc'.bins, q ∈ law.held s.alloc.bins := by
    intro q hq
    rcases hsettled.result with ⟨-, hperm, -⟩ | ⟨-, hperm, -⟩
    · exact hperm.subset hq
    · exact hperm.subset (List.mem_cons_of_mem _ hq)
  have hentry : ∀ q, q ≠ s.popped →
      (heap' q).retireReclaimEntry = (s.heap q).retireReclaimEntry := by
    intro q hq
    rw [hsettled.others q hq]
  have hother : ∀ {q at'}, at' ≠ .popped → g.place q = some at' → q ≠ s.popped := by
    rintro q at' hne hq rfl
    rw [hplace] at hq
    exact hne (Option.some.inj hq).symm
  have hnext : ∀ {q at'}, at' ≠ .popped → g.place q = some at' →
      nexts heap' q = nexts s.heap q := by
    intro q at' hne hq
    rw [nexts, hentry q (hother hne hq), nexts]
  refine ⟨g.place.leave s.popped, ⟨?_, ?_, trivial⟩, fun q t => ?_, fun q t hq => ?_⟩
  · -- first the word is cleared, then the bins change
    have hclear : Accounts law ⟨g.place.leave s.popped, g.leaving⟩ _ :=
      h.toAccounts.clear hp Places.leave_self fun q hq => Places.leave_of_ne hq
    have hholds : law.Holds heap' alloc'.bins (Ghost.all ⟨g.place.leave s.popped, g.leaving⟩
        (if r = 0 then s.live else Function.update s.live s.popped [])) := by
      show law.Holds heap' alloc'.bins (g.all _)
      rw [hlive]
      exact hsettled.holds_live (law.nodup h.holds.wf) hpopped
    refine (hclear.settle hholds ?_ ?_ ?_ ?_).congr rfl rfl rfl rfl rfl
    · intro q hq
      exact hsettled.live_held hpopped h.all_held q (hlive ▸ hq)
    · intro q _
      dsimp only
      by_cases hq : q = s.popped
      · subst hq
        rw [Function.update_self, hsettled.entry]
        exact ⟨rfl, hsettled.block.alignment⟩
      · rw [Function.update_of_ne hq, hsettled.others q hq]
        exact ⟨rfl, rfl⟩
    · intro q hq hpending
      have hne : q ≠ s.popped := by
        rintro rfl
        dsimp only at hpending
        rw [Function.update_self, FastArena.withHead_pending] at hpending
        exact hpending (Nat.zero_div 2)
      rcases hsettled.result with ⟨-, hperm, -⟩ | ⟨-, hperm, -⟩
      · exact hperm.symm.subset hq
      · exact (List.mem_cons.mp (hperm.symm.subset hq)).resolve_left hne
    · intro q hq hnew
      exact absurd (hsub q hq) hnew
  · refine ⟨?_, ?_, fun i => ?_, fun q => ?_⟩
    · show alloc'.retiredArenas.head % 2 = 1
      rw [hretired]
      exact h.root_odd
    · show alloc'.retiredArenas.head < 2 ^ 64
      rw [hretired]
      exact h.root_lt
    · have hlist : Listed (g.place.leave s.popped) heap' (s.head i) (.list i) :=
        (h.lists i).congr (fun q => Places.leave_other hplace (by simp)) fun q => hnext (by simp)
      cases i with
      | root =>
        show Listed _ heap' (RetireReclaimPtr.ptr alloc'.retiredArenas.head) _
        rw [hretired]
        exact hlist
      | walking => exact hlist
      | postponed =>
        show Listed _ heap' alloc'.retiredArenas.nextPostponed _
        rw [hretired]
        exact hlist
    · show g.place.leave s.popped q = some .popped ↔ q = 0 ∧ q ≠ 0
      refine iff_of_false (fun hq => ?_) fun hq => hq.2 hq.1
      by_cases hqp : q = s.popped
      · rw [hqp, Places.leave_self] at hq
        cases hq
      · rw [Places.leave_of_ne hqp, h.popped] at hq
        exact hqp hq.1
  · exact Places.leave_other hplace (by simp)
  · have howed : (Place.owed t : Place T) ≠ .popped := (by simp)
    exact hnext howed hq

theorem SharedHolds.ownerNext (h : SharedHolds law g s) (hok : s.ownerNext ops = .ok s') :
    Kept law g s s' := by
  have howner := h.owner
  unfold OwnerHolds at howner
  unfold RetiringArenas.ownerNext at hok
  cases hpc : s.owner with
  | idle =>
    rw [hpc] at hok
    rw [pure_eq_ok] at hok
    exact hok ▸ ⟨g.place, h, fun _ _ => Iff.rfl, fun _ _ _ => rfl⟩
  | rootSwap new =>
    rw [hpc] at hok howner
    obtain ⟨rfl, hwalk⟩ := howner
    rw [pure_eq_ok] at hok
    exact hok ▸ h.rootSwap hwalk
  | arenaSwap new =>
    rw [hpc] at hok howner
    obtain ⟨rfl, hpopped⟩ := howner
    exact h.arenaSwap hpopped hok

/-- Every step of the owner between two accesses keeps the invariant. -/
theorem SharedHolds.ownerStep (h : SharedHolds law g s)
    (hstep : OwnerStep ops law.held law.Suitable s s') : Kept law g s s' := by
  cases hstep with
  | allocate _ hsize hacquire hok => exact h.allocate hsize hacquire hok
  | acquireNone _ hok hr => exact h.acquireNone hok hr
  | allocateFresh _ hp hlt hfresh hsuit hroom hok =>
    exact h.allocateFresh hp hlt hfresh hsuit hroom hok
  | deallocate _ hl hok => exact h.deallocate hl hok
  | postpone hidle hok => exact h.postpone hidle hok

/-! ### A thread retires -/

/-- A thread has computed what it writes next. -/
theorem Machine.Guarded.turn [DecidableEq T] (hshared : SharedHolds law g σ.shared)
    (hworkers : ∀ t, WorkerHolds g σ.shared t (σ.locals t))
    (hleaving : pc.leaving = (σ.locals t).leaving) (howed : pc.owed = (σ.locals t).owed)
    (hpc : PcHolds σ.shared pc) : Machine.Guarded law (σ.set t σ.shared pc) := by
  refine Threads.Holds.step hworkers hshared ⟨fun p l => ?_, fun p => ?_, hpc⟩ fun u _ hu => hu
  · rw [hleaving]
    exact (hworkers t).leaving p l
  · rw [howed]
    exact (hworkers t).owed p

theorem Machine.Guarded.retire [DecidableEq T] (hshared : SharedHolds law g σ.shared)
    (hworkers : ∀ t, WorkerHolds g σ.shared t (σ.locals t)) (hidle : σ.locals t = .idle)
    (hl : l ∈ σ.shared.live p) (hdvd : (σ.shared.heap p).arenaAlignment ∣ l.size)
    (hok : startRetire ops σ.shared p l = .ok pc) :
    Machine.Guarded law (σ.set t { σ.shared with
      live := Function.update σ.shared.live p ((σ.shared.live p).erase l) } pc) := by
  simp only [RetiringArenas.startRetire, bind_eq_ok, check_eq_ok, exists_const, pure_eq_ok] at hok
  obtain ⟨-, -, -, -, -, -, -, rfl⟩ := hok
  have hself := hworkers t
  rw [hidle] at hself
  have hfree : (t, l) ∉ g.leaving p := by
    rw [hself.leaving]
    simp [Pc.leaving]
  have hmem : ∀ u q m, (u, m) ∈ Function.update g.leaving p ((t, l) :: g.leaving p) q ↔
      (u, m) ∈ g.leaving q ∨ q = p ∧ u = t ∧ m = l := by
    intro u q m
    by_cases hq : q = p
    · subst hq
      simp [or_comm]
    · simp [hq]
  refine Threads.Holds.step hworkers
    ⟨hshared.toAccounts.startRetire hl hdvd hfree, ?_, hshared.owner⟩
    ⟨fun q m => ?_, fun q => ?_, trivial⟩
    fun u hu hother => hother.undisturbed (fun q m => ?_) (fun q => Iff.rfl) fun q _ => rfl
  · exact hshared.toQueues.congr rfl rfl rfl (fun p => ⟨fun i => Iff.rfl, Iff.rfl⟩) fun _ _ _ => rfl
  · rw [hmem, hself.leaving]
    simp [Pc.leaving, eq_comm]
  · rw [hself.owed]
    rfl
  · rw [hmem]
    simp [hu]

/-- The compare-exchange of `retire_data` succeeds. -/
theorem SharedHolds.count [DecidableEq T] {place' : Places Nat (Place T)}
    (h : SharedHolds law g s) (hmem : (t, l) ∈ g.leaving p)
    (hfits : u64 ((s.heap p).pending + l.size) < 2 ^ 63) (hplaced : place' p ≠ none)
    (hother : ∀ q, q ≠ p → place' q = g.place q)
    (hsame : ∀ q, (∀ i, place' q = some (.list i) ↔ g.place q = some (.list i)) ∧
      (place' q = some .popped ↔ g.place q = some .popped)) :
    SharedHolds law ⟨place', Function.update g.leaving p ((g.leaving p).erase (t, l))⟩
      { s with
        heap := Function.update s.heap p
          ((s.heap p).withHead (2 * u64 ((s.heap p).pending + l.size) + 1))
        retiredBytes := Function.update s.retiredBytes p (s.retiredBytes p + l.size) } := by
  refine ⟨h.toAccounts.count hmem hfits hplaced hother, ?_, h.owner⟩
  refine h.toQueues.congr rfl rfl rfl hsame fun q i _ => ?_
  exact nexts_withHead _ q

theorem Machine.Guarded.dataSwap [DecidableEq T] (hshared : SharedHolds law g σ.shared)
    (hworkers : ∀ t, WorkerHolds g σ.shared t (σ.locals t)) {new : Nat}
    (hpc : σ.locals t = .dataSwap p l (σ.shared.word p) new) :
    Machine.Guarded law (σ.set t
      { σ.shared with
        heap := Function.update σ.shared.heap p ((σ.shared.heap p).withHead new)
        retiredBytes := Function.update σ.shared.retiredBytes p (σ.shared.retiredBytes p + l.size) }
      (if retired (σ.shared.word p) then .idle else .ptrLoad p)) := by
  have hself := hworkers t
  rw [hpc] at hself
  have hmem : (t, l) ∈ g.leaving p := (hself.leaving p l).mpr rfl
  obtain ⟨hfits, rfl⟩ := hself.pc
  obtain ⟨-, hp⟩ := hshared.toAccounts.leaving_held hmem
  -- the thread has nothing else to count
  have hnothing : ∀ q m, (t, m) ∉ Function.update g.leaving p ((g.leaving p).erase (t, l)) q := by
    intro q m hm
    by_cases hq : q = p
    · subst hq
      rw [Function.update_self, (hshared.leaving_nodup q).mem_erase_iff] at hm
      have heq := (hself.leaving q m).mp hm.2
      simp only [Pc.leaving, Option.some.injEq, Prod.mk.injEq, true_and] at heq
      exact hm.1 (by rw [heq])
    · rw [Function.update_of_ne hq, hself.leaving] at hm
      simp only [Pc.leaving, Option.some.injEq, Prod.mk.injEq] at hm
      exact hq hm.1.symm
  have hothers : ∀ u, u ≠ t → ∀ q m,
      (u, m) ∈ Function.update g.leaving p ((g.leaving p).erase (t, l)) q ↔
        (u, m) ∈ g.leaving q := by
    intro u hu q m
    by_cases hq : q = p
    · subst hq
      rw [Function.update_self]
      exact List.mem_erase_of_ne fun heq => hu (Prod.mk.inj heq).1
    · rw [Function.update_of_ne hq]
  have hnext : ∀ q, nexts (Function.update σ.shared.heap p ((σ.shared.heap p).withHead
      (2 * u64 (σ.shared.word p / 2 + l.size) + 1))) q = nexts σ.shared.heap q := nexts_withHead _
  by_cases hflag : (σ.shared.heap p).flagged
  · -- the arena is where it was
    have hretired : retired (σ.shared.word p) = true := by
      rw [retired_eq, decide_eq_true_eq]
      exact hflag
    have hplaced : g.place p ≠ none := by
      intro hnone
      have hzero : (σ.shared.heap p).retireReclaimEntry.head = 0 := hshared.unplaced p hp hnone
      rw [FastArena.flagged, hzero] at hflag
      exact absurd hflag (by decide)
    rw [if_pos hretired]
    refine Threads.Holds.step hworkers
      (hshared.count hmem hfits hplaced (fun _ _ => rfl) fun q => ⟨fun i => Iff.rfl, Iff.rfl⟩)
      ⟨fun q m => iff_of_false (hnothing q m) (by simp [Pc.leaving]), hself.owed, trivial⟩
      fun u hu hother => ?_
    exact hother.undisturbed (hothers u hu) (fun q => Iff.rfl) fun q _ => hnext q
  · -- the thread has raised the flag
    have hretired : ¬retired (σ.shared.word p) = true := by
      rw [retired_eq, decide_eq_true_eq]
      exact hflag
    have hnone : g.place p = none := by
      by_contra hplaced
      exact hflag (hshared.placed p hplaced).2.1
    have hfrom : ∀ q ∈ [p], g.place q = none := by
      intro q hq
      rwa [List.mem_singleton.mp hq]
    have hmove : ∀ q at', at' ≠ .owed t →
        (g.place.move [p] (.owed t) q = some at' ↔ g.place q = some at') :=
      fun q at' hne => Places.move_fresh hfrom hne
    rw [if_neg hretired]
    refine Threads.Holds.step hworkers (hshared.count hmem hfits ?_ (fun q hq => ?_)
      fun q => ⟨fun i => hmove q _ (by simp), hmove q _ (by simp)⟩)
      ⟨fun q m => iff_of_false (hnothing q m) (by simp [Pc.leaving]), fun q => ?_, trivial⟩
      fun u hu hother => ?_
    · exact Option.ne_none_iff_exists'.mpr ⟨.owed t, Places.move_eq.mpr (.inl List.mem_cons_self)⟩
    · exact Places.move_of_not_mem fun hmem => hq (List.mem_singleton.mp hmem)
    · dsimp only
      rw [Places.move_eq, hself.owed]
      simp [Pc.owed, eq_comm]
    · refine hother.undisturbed (hothers u hu) (fun q => ?_) fun q _ => hnext q
      exact hmove q _ fun heq => hu (Place.owed.inj heq)

/-- The link of an arena that the thread has raised the flag of. -/
theorem Machine.Guarded.ptrNext [DecidableEq T] (hshared : SharedHolds law g σ.shared)
    (hworkers : ∀ t, WorkerHolds g σ.shared t (σ.locals t)) {old new : Nat}
    (hpc : σ.locals t = .ptrNext p old new) :
    Machine.Guarded law (σ.set t
      { σ.shared with
        heap := Function.update σ.shared.heap p
          ((σ.shared.heap p).withNext (RetireReclaimPtr.ptr old)) }
      (.ptrSwap p old new)) := by
  have hself := hworkers t
  rw [hpc] at hself
  have hplace : g.place p = some (.owed t) := (hself.owed p).mpr rfl
  have hp := (hshared.placed p (by simp [hplace])).1
  obtain ⟨heven, hnew⟩ := hself.pc
  -- nobody else follows the link
  have hnext : ∀ q at', at' ≠ .owed t → g.place q = some at' →
      nexts (Function.update σ.shared.heap p
        ((σ.shared.heap p).withNext (RetireReclaimPtr.ptr old))) q = nexts σ.shared.heap q := by
    intro q at' hne hq
    have hqp : q ≠ p := by
      rintro rfl
      rw [hplace] at hq
      exact hne (Option.some.inj hq).symm
    rw [nexts, Function.update_of_ne hqp, nexts]
  refine Threads.Holds.step hworkers
    ⟨hshared.toAccounts.link hp _, ?_, hshared.owner⟩
    ⟨hself.leaving, hself.owed, heven, hnew, ?_⟩ fun u hu hother => ?_
  · refine hshared.toQueues.congr rfl rfl rfl (fun q => ⟨fun i => Iff.rfl, Iff.rfl⟩)
      fun q i hq => ?_
    have hlist : (Place.list i : Place T) ≠ .owed t := (by simp)
    exact hnext q _ hlist hq
  · show (Function.update σ.shared.heap p _ p).retireReclaimEntry.next = RetireReclaimPtr.ptr old
    rw [Function.update_self]
    rfl
  · refine hother.undisturbed (fun q m => Iff.rfl) (fun q => Iff.rfl) fun q hq => ?_
    exact hnext q _ (fun heq => hu (Place.owed.inj heq)) hq

/-- The compare-exchange of `retire_ptr` succeeds. -/
theorem Machine.Guarded.ptrSwap [DecidableEq T] (hshared : SharedHolds law g σ.shared)
    (hworkers : ∀ t, WorkerHolds g σ.shared t (σ.locals t)) {new : Nat}
    (hpc : σ.locals t = .ptrSwap p σ.shared.root new) :
    Machine.Guarded law (σ.set t (σ.shared.withRoot new) .idle) := by
  have hself := hworkers t
  rw [hpc] at hself
  have hplace : g.place p = some (.owed t) := (hself.owed p).mpr rfl
  have hp := (hshared.placed p (by simp [hplace])).1
  obtain ⟨hpos, hlt⟩ := (law.member hshared.holds.wf hp).1
  obtain ⟨heven, rfl, hnext⟩ := hself.pc
  have hfrom : ∀ q ∈ [p], g.place q = some (.owed t) := by
    intro q hq
    rwa [List.mem_singleton.mp hq]
  have hnone : ∀ q, g.place.move [p] (.list .root) q = none ↔ g.place q = none :=
    fun q => Places.move_none hfrom
  refine Threads.Holds.step hworkers
    ⟨(hshared.toAccounts.moved hnone).congr rfl rfl rfl rfl rfl,
      hshared.toQueues.push hplace (Nat.pos_iff_ne_zero.mp hpos) hlt heven hnext, hshared.owner⟩
    ⟨hself.leaving, fun q => ?_, trivial⟩ fun u hu hother => ?_
  · have hleft : (Place.owed t : Place T) ≠ .list .root := (by simp)
    dsimp only
    rw [Places.move_of_ne hleft, hself.owed, List.mem_singleton]
    simp [Pc.owed, eq_comm]
  · refine hother.undisturbed (fun q m => Iff.rfl) (fun q => ?_) fun q _ => rfl
    exact Places.move_other hfrom (fun heq => hu (Place.owed.inj heq)) (by simp)

/-- The next access of a thread. -/
theorem Machine.Guarded.next [DecidableEq T] (hshared : SharedHolds law g σ.shared)
    (hworkers : ∀ t, WorkerHolds g σ.shared t (σ.locals t))
    (hok : (σ.locals t).next σ.shared = .ok (s', pc)) : Machine.Guarded law (σ.set t s' pc) := by
  have hself := hworkers t
  unfold Pc.next at hok
  have hdata : ∀ {p l}, (σ.locals t).leaving = some (p, l) → (σ.locals t).owed = none →
      dataTurn p l (σ.shared.word p) = .ok pc → Machine.Guarded law (σ.set t σ.shared pc) := by
    intro p l hleaving howed hturn
    simp only [dataTurn, bind_eq_ok, Prod.exists, RetireReclaimPtrView.retireData_eq_ok,
      pure_eq_ok] at hturn
    obtain ⟨_, _, ⟨hfits, rfl, rfl⟩, rfl⟩ := hturn
    exact turn hshared hworkers hleaving.symm howed.symm ⟨hfits, rfl⟩
  have hptr : ∀ {p}, (σ.locals t).leaving = none → (σ.locals t).owed = some p →
      ptrTurn p σ.shared.root = .ok pc → Machine.Guarded law (σ.set t σ.shared pc) := by
    intro p hleaving howed hturn
    simp only [ptrTurn, bind_eq_ok, Prod.exists, RetireReclaimPtrView.retirePtr_eq_ok,
      pure_eq_ok] at hturn
    obtain ⟨_, _, ⟨heven, rfl, rfl⟩, rfl⟩ := hturn
    exact turn hshared hworkers hleaving.symm howed.symm ⟨heven, rfl⟩
  cases hpc : σ.locals t with
  | idle =>
    simp only [hpc, pure_eq_ok, Prod.mk.injEq] at hok
    obtain ⟨rfl, rfl⟩ := hok
    exact turn hshared hworkers (by rw [hpc]) (by rw [hpc]) trivial
  | dataLoad p l =>
    simp only [hpc, bind_eq_ok, pure_eq_ok, Prod.mk.injEq] at hok
    obtain ⟨_, hturn, rfl, rfl⟩ := hok
    exact hdata (by rw [hpc]; rfl) (by rw [hpc]; rfl) hturn
  | dataSwap p l old new =>
    simp only [hpc] at hok
    by_cases hold : σ.shared.word p = old
    · simp only [if_pos hold, pure_eq_ok, Prod.mk.injEq] at hok
      obtain ⟨rfl, rfl⟩ := hok
      subst hold
      exact dataSwap hshared hworkers hpc
    · simp only [if_neg hold, bind_eq_ok, pure_eq_ok, Prod.mk.injEq] at hok
      obtain ⟨_, hturn, rfl, rfl⟩ := hok
      exact hdata (by rw [hpc]; rfl) (by rw [hpc]; rfl) hturn
  | ptrLoad p =>
    simp only [hpc, bind_eq_ok, pure_eq_ok, Prod.mk.injEq] at hok
    obtain ⟨_, hturn, rfl, rfl⟩ := hok
    exact hptr (by rw [hpc]; rfl) (by rw [hpc]; rfl) hturn
  | ptrNext p old new =>
    simp only [hpc, pure_eq_ok, Prod.mk.injEq] at hok
    obtain ⟨rfl, rfl⟩ := hok
    exact ptrNext hshared hworkers hpc
  | ptrSwap p old new =>
    simp only [hpc] at hok
    split_ifs at hok with hold
    · simp only [pure_eq_ok, Prod.mk.injEq] at hok
      obtain ⟨rfl, rfl⟩ := hok
      subst hold
      exact ptrSwap hshared hworkers hpc
    · simp only [bind_eq_ok, pure_eq_ok, Prod.mk.injEq] at hok
      obtain ⟨_, hturn, rfl, rfl⟩ := hok
      exact hptr (by rw [hpc]; rfl) (by rw [hpc]; rfl) hturn

/-- Every step keeps the invariant. -/
theorem Machine.Guarded.step [DecidableEq T] (h : σ.Guarded law)
    (hstep : Step ops law.held law.Suitable σ σ') : σ'.Guarded law := by
  obtain ⟨g, hshared, hworkers⟩ := h
  cases hstep with
  | owner hstep => exact owner_step hworkers (hshared.ownerStep hstep)
  | reclaimArenas hidle hwalk hok =>
    exact owner_step hworkers (hshared.startReclaimArenas hwalk hidle hok)
  | pop hidle hpopped hok => exact owner_step hworkers (hshared.pop hpopped hidle hok)
  | reclaimArena _ hpopped hok => exact owner_step hworkers (hshared.startReclaimArena hpopped hok)
  | ownerNext hok => exact owner_step hworkers (hshared.ownerNext hok)
  | retire t hidle hl hdvd hok => exact retire hshared hworkers hidle hl hdvd hok
  | next t hok => exact next hshared hworkers hok

/-! ### Runs -/

/-- An allocator that has just been created: the bins and the lists are empty. -/
theorem Machine.Guarded.start {init : ArenaAllocator B} {heap : Heap}
    (h : law.Inv ⟨heap, init, 0, fun _ => [], []⟩) :
    Machine.Guarded law (⟨⟨heap, init, .idle, 0, 0, fun _ => [], fun _ => 0, fun _ => 0⟩,
      fun _ => .idle⟩ : Machine B T) := by
  have hheld : law.held init.bins = [] := h.given.eq_nil
  obtain ⟨root, postponed, walk, hqueued⟩ := h.queued
  have hnil : root ++ postponed ++ walk = [] := by
    rw [List.eq_nil_iff_forall_not_mem]
    intro q hq
    have hmem : q ∈ law.held init.bins := (hqueued.queued q hq).1
    rw [hheld] at hmem
    exact List.not_mem_nil hmem
  simp only [List.append_eq_nil_iff] at hnil
  obtain ⟨⟨rfl, rfl⟩, rfl⟩ := hnil
  have hroot : RetireReclaimPtr.ptr init.retiredArenas.head = 0 := by
    rw [RetireReclaimPtr.ptr_eq hqueued.word]
    exact hqueued.rootLinked
  refine ⟨⟨fun _ => none, fun _ => []⟩,
    ⟨?_, ⟨hqueued.locked, hqueued.word, fun i => ?_, ?_⟩, trivial⟩,
    fun t => ⟨fun p l => ?_, fun p => ?_, trivial⟩⟩
  · refine ⟨h.holds, by simp [Ghost.all], (by simp), fun _ => List.nodup_nil, by simp, ?_, ?_, ?_,
      fun _ _ => rfl⟩ <;> simp [hheld]
  · have hhead : head (⟨heap, init, .idle, 0, 0, fun _ => [], fun _ => 0, fun _ => 0⟩ :
        RetiringArenas B) i = 0 := by
      cases i with
      | root => exact hroot
      | walking => rfl
      | postponed => exact hqueued.postponedLinked
    rw [hhead]
    exact Listed.null (by simp)
  · intro p
    simp
  · simp [Pc.leaving]
  · simp [Pc.owed]

/-- **The invariant holds in every reachable state.** -/
theorem reachable_guarded [DecidableEq T] {init : ArenaAllocator B}
    (hinit : ∀ heap, law.Inv ⟨heap, init, 0, fun _ => [], []⟩)
    (h : Reachable ops law.held law.Suitable init σ) : σ.Guarded law := by
  induction h with
  | start heap => exact .start (hinit heap)
  | step _ hstep ih => exact ih.step hstep

/-! ### The protocol -/

/-- The arena is at the place, as the program sees it. -/
def Machine.At (σ : Machine B T) (p : Nat) : Place T → Prop
  | .list i => ∃ ps, Linked 0 (nexts σ.shared.heap) (σ.shared.head i) ps ∧ p ∈ ps
  | .popped => p = σ.shared.popped ∧ p ≠ 0
  | .owed t => (σ.locals t).owed = some p

/-- What retiring and reclaiming guarantee.  `held` are the arenas in the bins. -/
structure Machine.Protocol (held : List Nat) (σ : Machine B T) : Prop where
  /-- What was retired of an arena is reclaimed or counted in its word. -/
  counted : ∀ p ∈ held,
    σ.shared.retiredBytes p = σ.shared.reclaimedBytes p + (σ.shared.heap p).pending
  /-- All that was retired of an arena that was handed back is reclaimed. -/
  settled : ∀ p ∉ held, σ.shared.retiredBytes p = σ.shared.reclaimedBytes p
  /-- The flag of an arena is set exactly when it is in one of the places. -/
  flagged : ∀ p ∈ held, (σ.shared.heap p).flagged ↔ ∃ place, σ.At p place
  at_held : ∀ p place, σ.At p place → p ∈ held
  /-- No arena is in two places. -/
  unique : ∀ p place place', σ.At p place → σ.At p place' → place = place'
  /-- The lists end, and visit no arena twice. -/
  linked : ∀ i, ∃ ps, Linked 0 (nexts σ.shared.heap) (σ.shared.head i) ps ∧ ps.Nodup
  /-- The flag of the root stays set. -/
  locked : σ.shared.root % 2 = 1

/-- The places of the ghost state are those that the program sees. -/
theorem at_iff (hshared : SharedHolds law g σ.shared)
    (hworkers : ∀ t, WorkerHolds g σ.shared t (σ.locals t)) {place : Place T} :
    σ.At p place ↔ g.place p = some place := by
  cases place with
  | list i =>
    obtain ⟨ps, hps, hmem⟩ := hshared.lists i
    rw [← hmem]
    constructor
    · rintro ⟨qs, hqs, hp⟩
      rwa [hps.unique hqs]
    · intro hp
      exact ⟨ps, hps, hp⟩
  | popped => exact (hshared.popped p).symm
  | owed t => exact ((hworkers t).owed p).symm

/-- **No retired byte and no retired arena is lost, however the threads interleave.** -/
theorem reachable_protocol [DecidableEq T] {init : ArenaAllocator B}
    (hinit : ∀ heap, law.Inv ⟨heap, init, 0, fun _ => [], []⟩)
    (h : Reachable ops law.held law.Suitable init σ) :
    σ.Protocol (law.held σ.shared.alloc.bins) := by
  obtain ⟨g, hshared, hworkers⟩ := reachable_guarded hinit h
  have hat : ∀ p place, σ.At p place ↔ g.place p = some place := fun p place =>
    at_iff hshared hworkers
  refine ⟨hshared.counted, hshared.settled, fun p hp => ?_, fun p place hp => ?_,
    fun p place place' hp hp' => ?_, fun i => ?_, hshared.root_odd⟩
  · constructor
    · intro hflag
      have hplaced : g.place p ≠ none := by
        intro hnone
        have hzero : (σ.shared.heap p).retireReclaimEntry.head = 0 := hshared.unplaced p hp hnone
        rw [FastArena.flagged, hzero] at hflag
        exact absurd hflag (by decide)
      obtain ⟨place, hplace⟩ := Option.ne_none_iff_exists'.mp hplaced
      exact ⟨place, (hat p place).mpr hplace⟩
    · rintro ⟨place, hplace⟩
      rw [hat] at hplace
      exact (hshared.placed p (by simp [hplace])).2.1
  · rw [hat] at hp
    exact (hshared.placed p (by simp [hp])).1
  · rw [hat] at hp hp'
    exact Option.some.inj (hp.symm.trans hp')
  · obtain ⟨ps, hps, -⟩ := hshared.lists i
    exact ⟨ps, hps, hps.nodup⟩

end RetiringArenas

end Cuw3
