/-
  Where the retired arenas are, and what their words count, while threads retire and the owner
  reclaims.

  The ghost state gives each arena whose flag is set its place: one of the lists, the arena that the
  owner reclaims from, or the thread that raised the flag and owes the push (`Place`).  It also
  names the allocations that a thread has begun to retire and has not counted yet (`leaving`), which
  still take bytes of the arena.

  `Accounts` is about the arenas and their words, `Queues` about the lists.  A change of the bins
  keeps both (`Accounts.settle`, `Queues.congr`).  An allocation is retired (`Accounts.startRetire`)
  and counted (`Accounts.count`), a word is cleared (`Accounts.clear`); a whole list moves
  (`Queues.take`), an arena is popped (`Queues.pop`) or pushed (`Queues.push`).
-/
import Cuw3.Arena.AtomicSteps
import Cuw3.Lib.Places

namespace Cuw3

open Lib

/-! ### The order of the allocations -/

/-- The law of an arena does not depend on the order of the allocations. -/
theorem FastArena.Law.perm {arena : FastArena} {live live' : List Allocation} (h : arena.Law live)
    (hperm : live.Perm live') : arena.Law live' where
  toStatic := h.toStatic
  top_dvd := h.top_dvd
  freed_dvd := h.freed_dvd
  top_le := h.top_le
  range l hl := h.range l (hperm.mem_iff.mpr hl)
  size_pos l hl := h.size_pos l (hperm.mem_iff.mpr hl)
  accounted := by
    rw [← arena.liveBytes_perm hperm]
    exact h.accounted

theorem BinsLaw.Holds.perm {B : Type} {ops : AllocatorOps B} {law : BinsLaw ops} {heap : Heap}
    {bins : B} {live live' : Nat → List Allocation} (h : law.Holds heap bins live)
    (hperm : ∀ p, (live p).Perm (live' p)) : law.Holds heap bins live' where
  wf := h.wf
  arena p hp := (h.arena p hp).perm (hperm p)
  busy := h.busy

namespace RetiringArenas

open BinsLaw (nexts)

variable {B T : Type}

/-! ### Places -/

/-- The lists of retired arenas. -/
inductive ListId where
  /-- The list of the root. -/
  | root
  /-- The list that the owner walks. -/
  | walking
  /-- The list that the owner has put off. -/
  | postponed
  deriving DecidableEq

/-- Where an arena is whose retired flag is set. -/
inductive Place (T : Type) where
  | list (i : ListId)
  /-- The owner reclaims from it. -/
  | popped
  /-- The thread raised the flag, and owes the push. -/
  | owed (t : T)

/-- The head of a list. -/
def head (s : RetiringArenas B) : ListId → Nat
  | .root => RetireReclaimPtr.ptr s.root
  | .walking => s.walking
  | .postponed => s.alloc.retiredArenas.nextPostponed

/-- The places of the arenas, and the allocations that are being retired. -/
structure Ghost (T : Type) where
  place : Places Nat (Place T)
  leaving : Nat → List (T × Allocation)

/-- The allocations that take bytes of an arena: those of the clients and those being retired. -/
def Ghost.all (g : Ghost T) (live : Nat → List Allocation) (p : Nat) : List Allocation :=
  live p ++ (g.leaving p).map Prod.snd

/-- The arenas at the place are a null-terminated list. -/
def Listed (place : Places Nat (Place T)) (heap : Heap) (head : Nat) (at' : Place T) : Prop :=
  ∃ ps, Linked 0 (nexts heap) head ps ∧ ∀ p, p ∈ ps ↔ place p = some at'

/-! ### The invariant -/

variable {ops : AllocatorOps B}

/-- The arenas of the bins obey their laws.  Exactly those with a place have the retired flag set,
and what was retired is reclaimed or counted in the word. -/
structure Accounts (law : BinsLaw ops) (g : Ghost T) (s : RetiringArenas B) : Prop where
  holds : law.Holds s.heap s.alloc.bins (g.all s.live)
  all_held : ∀ p, g.all s.live p ≠ [] → p ∈ law.held s.alloc.bins
  leaving_dvd : ∀ p, ∀ x ∈ g.leaving p, (s.heap p).arenaAlignment ∣ x.2.size
  leaving_nodup : ∀ p, (g.leaving p).Nodup
  placed : ∀ p, g.place p ≠ none →
    p ∈ law.held s.alloc.bins ∧ (s.heap p).flagged ∧ 0 < (s.heap p).pending
  unplaced : ∀ p ∈ law.held s.alloc.bins, g.place p = none → s.word p = 0
  pending_dvd : ∀ p ∈ law.held s.alloc.bins, (s.heap p).arenaAlignment ∣ (s.heap p).pending
  counted : ∀ p ∈ law.held s.alloc.bins,
    s.retiredBytes p = s.reclaimedBytes p + (s.heap p).pending
  /-- Nothing is left of an arena that was handed back. -/
  settled : ∀ p ∉ law.held s.alloc.bins, s.retiredBytes p = s.reclaimedBytes p

/-- The root has its flag set, and the arenas are where their places say. -/
structure Queues (place : Places Nat (Place T)) (s : RetiringArenas B) : Prop where
  root_odd : s.root % 2 = 1
  root_lt : s.root < 2 ^ 64
  lists : ∀ i, Listed place s.heap (s.head i) (.list i)
  popped : ∀ p, place p = some .popped ↔ p = s.popped ∧ p ≠ 0

variable {law : BinsLaw ops} {g : Ghost T} {s s' : RetiringArenas B} {heap heap' : Heap}
  {place place' : Places Nat (Place T)} {alloc' : ArenaAllocator B} {at' : Place T} {i j : ListId}
  {n p q : Nat} {ps : List Nat} {t : T} {l : Allocation}

/-! ### Lists -/

theorem Listed.congr (h : Listed place heap n at')
    (hplace : ∀ p, place' p = some at' ↔ place p = some at')
    (hnext : ∀ p, place p = some at' → nexts heap' p = nexts heap p) :
    Listed place' heap' n at' := by
  obtain ⟨ps, hps, hmem⟩ := h
  refine ⟨ps, hps.congr fun q hq => hnext q ((hmem q).mp hq), fun q => ?_⟩
  rw [hmem, hplace]

/-- Nothing is at the place of a list that is empty. -/
theorem Listed.none_of_null (h : Listed place heap 0 at') (p : Nat) : place p ≠ some at' := by
  obtain ⟨ps, hps, hmem⟩ := h
  obtain rfl := Linked.null_iff.mp hps
  intro hp
  exact List.not_mem_nil ((hmem p).mpr hp)

theorem Listed.null (h : ∀ p, place p ≠ some at') : Listed place heap 0 at' :=
  ⟨[], rfl, fun p => iff_of_false List.not_mem_nil (h p)⟩

/-- The lists do not depend on anything but the links of their arenas. -/
theorem Queues.congr (h : Queues place s) (hroot : s'.root = s.root)
    (hhead : s'.head = s.head) (hpopped : s'.popped = s.popped)
    (hplace : ∀ p, (∀ i, place' p = some (.list i) ↔ place p = some (.list i)) ∧
      (place' p = some .popped ↔ place p = some .popped))
    (hnext : ∀ p i, place p = some (.list i) → nexts s'.heap p = nexts s.heap p) :
    Queues place' s' where
  root_odd := by
    rw [hroot]
    exact h.root_odd
  root_lt := by
    rw [hroot]
    exact h.root_lt
  lists i := by
    rw [hhead]
    exact (h.lists i).congr (fun p => (hplace p).1 i) fun p hp => hnext p i hp
  popped p := by
    rw [(hplace p).2, hpopped]
    exact h.popped p

/-- A whole list moves, to where no arenas are. -/
theorem Queues.take (h : Queues place s) (hij : i ≠ j) (hempty : s.head j = 0)
    (hlinked : Linked 0 (nexts s.heap) (s.head i) ps)
    (hmem : ∀ p, p ∈ ps ↔ place p = some (.list i)) (hodd : s'.root % 2 = 1)
    (hlt : s'.root < 2 ^ 64) (hheap : s'.heap = s.heap) (hpopped : s'.popped = s.popped)
    (hsource : s'.head i = 0) (htarget : s'.head j = s.head i)
    (hother : ∀ k, k ≠ i → k ≠ j → s'.head k = s.head k) :
    Queues (place.move ps (.list j)) s' := by
  have hfrom : ∀ p ∈ ps, place p = some (.list i) := fun p hp => (hmem p).mp hp
  have hne : ∀ {k k'}, k ≠ k' → (Place.list k : Place T) ≠ .list k' := by
    intro k k' hk heq
    exact hk (Place.list.inj heq)
  refine ⟨hodd, hlt, fun k => ?_, fun p => ?_⟩
  · rw [hheap]
    by_cases hki : k = i
    · subst hki
      rw [hsource]
      apply Listed.null
      intro p hp
      rw [Places.move_of_ne (hne hij), ← hmem] at hp
      exact hp.2 hp.1
    · by_cases hkj : k = j
      · subst hkj
        rw [htarget]
        have hnone := (hempty ▸ h.lists k).none_of_null
        refine ⟨ps, hlinked, fun p => ?_⟩
        rw [Places.move_eq]
        exact (or_iff_left (hnone p)).symm
      · rw [hother k hki hkj]
        refine (h.lists k).congr (fun p => ?_) fun _ _ => rfl
        exact Places.move_other hfrom (hne hki) (hne hkj)
  · have hsame : place.move ps (.list j) p = some .popped ↔ place p = some .popped :=
      Places.move_other hfrom (by simp) (by simp)
    rw [hsame, hpopped]
    exact h.popped p

/-- The first arena of the walk is popped.  Its link is cleared. -/
theorem Queues.pop (h : Queues place s) (hpopped : s.popped = 0) (hwalk : s.walking ≠ 0) :
    Queues (place.move [s.walking] .popped)
      { s with
        heap := Function.update s.heap s.walking ((s.heap s.walking).withNext 0)
        walking := nexts s.heap s.walking
        popped := s.walking } := by
  obtain ⟨ps, hlinked, hmem⟩ : Listed place s.heap s.walking (.list .walking) := h.lists .walking
  obtain ⟨rest, rfl, hrest⟩ := hlinked.of_ne_null hwalk
  have hnot := (List.nodup_cons.mp hlinked.nodup).1
  have hfrom : ∀ p ∈ [s.walking], place p = some (.list .walking) := by
    intro p hp
    exact (hmem p).mp (List.mem_singleton.mp hp ▸ List.mem_cons_self)
  -- the popped arena is in no list any more
  have hnext : ∀ p, p ≠ s.walking → nexts
      (Function.update s.heap s.walking ((s.heap s.walking).withNext 0)) p = nexts s.heap p := by
    intro p hp
    rw [nexts, Function.update_of_ne hp, nexts]
  refine ⟨h.root_odd, h.root_lt, fun i => ?_, fun p => ?_⟩
  · by_cases hi : i = .walking
    · subst hi
      refine ⟨rest, hrest.congr fun p hp => hnext p (ne_of_mem_of_not_mem hp hnot), fun p => ?_⟩
      have hleft : (Place.list .walking : Place T) ≠ .popped := (by simp)
      rw [Places.move_of_ne hleft, ← hmem, List.mem_singleton, List.mem_cons]
      constructor
      · intro hp
        exact ⟨.inr hp, ne_of_mem_of_not_mem hp hnot⟩
      · rintro ⟨hp, hne⟩
        exact hp.resolve_left hne
    · have hhead : s.head i = head
          { s with
            heap := Function.update s.heap s.walking ((s.heap s.walking).withNext 0)
            walking := nexts s.heap s.walking
            popped := s.walking } i := by
        cases i with
        | walking => exact absurd rfl hi
        | _ => rfl
      rw [← hhead]
      have hne : (Place.list i : Place T) ≠ .list .walking := fun heq => hi (Place.list.inj heq)
      refine (h.lists i).congr (fun p => Places.move_other hfrom hne (by simp))
        fun p hp => hnext p ?_
      rintro rfl
      rw [hfrom _ (List.mem_singleton.mpr rfl)] at hp
      exact hne (Option.some.inj hp).symm
  · rw [Places.move_eq, h.popped, hpopped, List.mem_singleton]
    constructor
    · rintro (rfl | ⟨rfl, hp⟩)
      · exact ⟨rfl, hwalk⟩
      · exact absurd rfl hp
    · rintro ⟨rfl, -⟩
      exact .inl rfl

/-- An arena that is in no list, and links to the head of the root's, is pushed. -/
theorem Queues.push (h : Queues place s) (hp : place p = some (.owed t))
    (hpos : p ≠ 0) (hlt : p < 2 ^ 64) (heven : p % 2 = 0)
    (hnext : nexts s.heap p = RetireReclaimPtr.ptr s.root) :
    Queues (place.move [p] (.list .root)) (s.withRoot (p + 1)) := by
  have hfrom : ∀ q ∈ [p], place q = some (.owed t) := by
    intro q hq
    rwa [List.mem_singleton.mp hq]
  have hroot : (s.withRoot (p + 1)).root = p + 1 := rfl
  have hptr : RetireReclaimPtr.ptr (p + 1) = p := by
    rw [RetireReclaimPtr.ptr_eq (by omega)]
    omega
  refine ⟨?_, ?_, fun i => ?_, fun q => ?_⟩
  · rw [hroot]
    omega
  · rw [hroot]
    omega
  · by_cases hi : i = .root
    · subst hi
      obtain ⟨ps, hps, hmem⟩ := h.lists .root
      refine ⟨p :: ps, ?_, fun q => ?_⟩
      · show Linked 0 (nexts s.heap) (RetireReclaimPtr.ptr (p + 1)) (p :: ps)
        rw [hptr]
        refine ⟨rfl, hpos, ?_⟩
        rw [hnext]
        exact hps
      · rw [Places.move_eq, List.mem_singleton, List.mem_cons, hmem]
    · have hhead : (s.withRoot (p + 1)).head i = s.head i := by
        cases i with
        | root => exact absurd rfl hi
        | _ => rfl
      rw [hhead]
      refine (h.lists i).congr (fun q => Places.move_other hfrom (by simp) ?_) fun _ _ => rfl
      exact fun heq => hi (Place.list.inj heq)
  · have hsame : place.move [p] (.list .root) q = some .popped ↔ place q = some .popped :=
      Places.move_other hfrom (by simp) (by simp)
    rw [hsame]
    exact h.popped q

/-! ### Words -/

theorem Accounts.congr (h : Accounts law g s) (hheap : s'.heap = s.heap)
    (hbins : s'.alloc.bins = s.alloc.bins) (hlive : s'.live = s.live)
    (hretired : s'.retiredBytes = s.retiredBytes)
    (hreclaimed : s'.reclaimedBytes = s.reclaimedBytes) :
    Accounts law g s' := by
  obtain ⟨heap, ⟨retiredArenas, bins⟩, owner, walking, popped, live, retired, reclaimed⟩ := s'
  subst hheap hbins hlive hretired hreclaimed
  exact ⟨h.holds, h.all_held, h.leaving_dvd, h.leaving_nodup, h.placed, h.unplaced, h.pending_dvd,
    h.counted, h.settled⟩

/-- The places are others, but the same arenas have one. -/
theorem Accounts.moved (h : Accounts law g s) (hnone : ∀ p, place' p = none ↔ g.place p = none) :
    Accounts law ⟨place', g.leaving⟩ s where
  holds := h.holds
  all_held := h.all_held
  leaving_dvd := h.leaving_dvd
  leaving_nodup := h.leaving_nodup
  placed p hp := h.placed p fun hn => hp ((hnone p).mpr hn)
  unplaced p hp hn := h.unplaced p hp ((hnone p).mp hn)
  pending_dvd := h.pending_dvd
  counted := h.counted
  settled := h.settled

/-- The owner changes the bins and their arenas.  An arena with a pending count stays, and an arena
that is new to the bins has a clear word. -/
theorem Accounts.settle {live' : Nat → List Allocation} (h : Accounts law g s)
    (hholds : law.Holds heap' alloc'.bins (g.all live'))
    (hall : ∀ p, g.all live' p ≠ [] → p ∈ law.held alloc'.bins)
    (hword : ∀ p ∈ law.held s.alloc.bins,
      (heap' p).retireReclaimEntry.head = (s.heap p).retireReclaimEntry.head ∧
        (heap' p).arenaAlignment = (s.heap p).arenaAlignment)
    (hkept : ∀ p ∈ law.held s.alloc.bins, (s.heap p).pending ≠ 0 → p ∈ law.held alloc'.bins)
    (hnew : ∀ p ∈ law.held alloc'.bins, p ∉ law.held s.alloc.bins →
      (heap' p).retireReclaimEntry.head = 0) :
    Accounts law g { s with heap := heap', alloc := alloc', live := live' } := by
  have hpending : ∀ p ∈ law.held s.alloc.bins, (heap' p).pending = (s.heap p).pending := by
    intro p hp
    rw [FastArena.pending, (hword p hp).1, FastArena.pending]
  have hzero : ∀ p ∈ law.held alloc'.bins, p ∉ law.held s.alloc.bins → (heap' p).pending = 0 := by
    intro p hp hnot
    rw [FastArena.pending, hnew p hp hnot]
  refine ⟨hholds, hall, fun p x hx => ?_, h.leaving_nodup, fun p hp => ?_, fun p hp hn => ?_,
    fun p hp => ?_, fun p hp => ?_, fun p hp => ?_⟩
  · have hheld : p ∈ law.held s.alloc.bins := by
      refine h.all_held p fun hnil => ?_
      rw [Ghost.all, List.append_eq_nil_iff, List.map_eq_nil_iff] at hnil
      exact List.ne_nil_of_mem hx hnil.2
    show (heap' p).arenaAlignment ∣ x.2.size
    rw [(hword p hheld).2]
    exact h.leaving_dvd p x hx
  · obtain ⟨hheld, hflag, hpos⟩ := h.placed p hp
    refine ⟨hkept p hheld (Nat.pos_iff_ne_zero.mp hpos), ?_, ?_⟩
    · show (heap' p).retireReclaimEntry.head % 2 = 1
      rw [(hword p hheld).1]
      exact hflag
    · show 0 < (heap' p).pending
      rwa [hpending p hheld]
  · show (heap' p).retireReclaimEntry.head = 0
    by_cases hheld : p ∈ law.held s.alloc.bins
    · rw [(hword p hheld).1]
      exact h.unplaced p hheld hn
    · exact hnew p hp hheld
  · show (heap' p).arenaAlignment ∣ (heap' p).pending
    by_cases hheld : p ∈ law.held s.alloc.bins
    · rw [hpending p hheld, (hword p hheld).2]
      exact h.pending_dvd p hheld
    · rw [hzero p hp hheld]
      exact Nat.dvd_zero _
  · show s.retiredBytes p = s.reclaimedBytes p + (heap' p).pending
    by_cases hheld : p ∈ law.held s.alloc.bins
    · rw [hpending p hheld]
      exact h.counted p hheld
    · rw [hzero p hp hheld]
      exact h.settled p hheld
  · show s.retiredBytes p = s.reclaimedBytes p
    by_cases hheld : p ∈ law.held s.alloc.bins
    · have hnone : (s.heap p).pending = 0 := by
        by_contra hne
        exact hp (hkept p hheld hne)
      rw [h.counted p hheld, hnone, Nat.add_zero]
    · exact h.settled p hheld

/-- The word of an arena is written, which stays in the bins. -/
theorem Accounts.write {g' : Ghost T} {w : Nat} {retired' reclaimed' : Nat → Nat}
    (h : Accounts law g s) (hp : p ∈ law.held s.alloc.bins)
    (hlaw : ((s.heap p).withHead w).Law (g'.all s.live p)) (hleaving : g'.leaving p ⊆ g.leaving p)
    (hnodup : (g'.leaving p).Nodup) (hplaced : g'.place p ≠ none → w % 2 = 1 ∧ 0 < w / 2)
    (hunplaced : g'.place p = none → w = 0) (hdvd : (s.heap p).arenaAlignment ∣ w / 2)
    (hcounted : retired' p = reclaimed' p + w / 2)
    (hother : ∀ q, q ≠ p → g'.place q = g.place q ∧ g'.leaving q = g.leaving q ∧
      retired' q = s.retiredBytes q ∧ reclaimed' q = s.reclaimedBytes q) :
    Accounts law g'
      { s with
        heap := Function.update s.heap p ((s.heap p).withHead w)
        retiredBytes := retired'
        reclaimedBytes := reclaimed' } := by
  have hself : Function.update s.heap p ((s.heap p).withHead w) p = (s.heap p).withHead w :=
    Function.update_self ..
  have hne : ∀ q, q ≠ p → Function.update s.heap p ((s.heap p).withHead w) q = s.heap q :=
    fun q hq => Function.update_of_ne hq ..
  have hall : g'.all s.live = Function.update (g.all s.live) p (g'.all s.live p) := by
    funext q
    by_cases hq : q = p
    · rw [hq, Function.update_self]
    · rw [Function.update_of_ne hq, Ghost.all, (hother q hq).2.1, Ghost.all]
  refine ⟨?_, fun q hq => ?_, fun q x hx => ?_, fun q => ?_, fun q hq => ?_, fun q hq hn => ?_,
    fun q hq => ?_, fun q hq => ?_, fun q hq => ?_⟩
  · rw [hall]
    exact h.holds.write ⟨rfl, rfl, rfl, rfl, rfl⟩ ⟨rfl, rfl, rfl, rfl⟩ hlaw (h.holds.busy p hp)
  · by_cases hqp : q = p
    · exact hqp ▸ hp
    · rw [hall, Function.update_of_ne hqp] at hq
      exact h.all_held q hq
  · dsimp only
    by_cases hqp : q = p
    · subst hqp
      rw [hself]
      exact h.leaving_dvd q x (hleaving hx)
    · rw [hne q hqp]
      rw [(hother q hqp).2.1] at hx
      exact h.leaving_dvd q x hx
  · by_cases hqp : q = p
    · exact hqp ▸ hnodup
    · rw [(hother q hqp).2.1]
      exact h.leaving_nodup q
  · dsimp only
    by_cases hqp : q = p
    · subst hqp
      rw [hself]
      exact ⟨hp, hplaced hq⟩
    · rw [hne q hqp]
      rw [(hother q hqp).1] at hq
      exact h.placed q hq
  · show (Function.update s.heap p ((s.heap p).withHead w) q).retireReclaimEntry.head = 0
    by_cases hqp : q = p
    · subst hqp
      rw [hself]
      exact hunplaced hn
    · rw [hne q hqp]
      rw [(hother q hqp).1] at hn
      exact h.unplaced q hq hn
  · dsimp only
    by_cases hqp : q = p
    · subst hqp
      rw [hself]
      exact hdvd
    · rw [hne q hqp]
      exact h.pending_dvd q hq
  · dsimp only
    by_cases hqp : q = p
    · subst hqp
      rw [hself]
      exact hcounted
    · rw [hne q hqp, (hother q hqp).2.2.1, (hother q hqp).2.2.2]
      exact h.counted q hq
  · have hqp : q ≠ p := (ne_of_mem_of_not_mem hp hq).symm
    dsimp only
    rw [(hother q hqp).2.2.1, (hother q hqp).2.2.2]
    exact h.settled q hq

/-- An allocation that is being retired takes bytes of its arena. -/
theorem Accounts.leaving_held (h : Accounts law g s) (hmem : (t, l) ∈ g.leaving p) :
    l ∈ g.all s.live p ∧ p ∈ law.held s.alloc.bins := by
  have hall : l ∈ g.all s.live p := List.mem_append_right _ (List.mem_map_of_mem hmem)
  exact ⟨hall, h.all_held p (List.ne_nil_of_mem hall)⟩

/-- The compare-exchange of `retire_data` succeeded: the allocation is counted. -/
theorem Accounts.count [DecidableEq T] (h : Accounts law g s) (hmem : (t, l) ∈ g.leaving p)
    (hfits : u64 ((s.heap p).pending + l.size) < 2 ^ 63) (hplaced : place' p ≠ none)
    (hother : ∀ q, q ≠ p → place' q = g.place q) :
    Accounts law ⟨place', Function.update g.leaving p ((g.leaving p).erase (t, l))⟩
      { s with
        heap := Function.update s.heap p
          ((s.heap p).withHead (2 * u64 ((s.heap p).pending + l.size) + 1))
        retiredBytes := Function.update s.retiredBytes p (s.retiredBytes p + l.size) } := by
  obtain ⟨hl, hp⟩ := h.leaving_held hmem
  have hlaw := h.holds.arena p hp
  have hdvd := h.leaving_dvd p _ hmem
  have hretired := hlaw.retireAllocation hl
    ((hlaw.retireAllocation_eq_ok hl).mpr ⟨hfits, rfl, rfl⟩)
  rw [hlaw.u64_pending hl hdvd] at hretired ⊢
  have hhalf : (2 * ((s.heap p).pending + l.size) + 1) / 2 = (s.heap p).pending + l.size := by
    omega
  have hpos := (hlaw.size_pos l hl).1
  -- the bytes of the allocation go from those being retired to the count
  have hperm : ((g.all s.live p).erase l).Perm
      (s.live p ++ ((g.leaving p).erase (t, l)).map Prod.snd) := by
    have hcons := ((List.perm_cons_erase hmem).map Prod.snd).append_left (s.live p)
    have herase := (hcons.trans List.perm_middle).erase l
    rwa [List.erase_cons_head] at herase
  have herased : (Ghost.mk place'
      (Function.update g.leaving p ((g.leaving p).erase (t, l)))).leaving p =
        (g.leaving p).erase (t, l) := Function.update_self ..
  refine h.write hp ?_ ?_ ?_ ?_ ?_ ?_ ?_ ?_
  · rw [Ghost.all, herased]
    exact hretired.perm hperm
  · rw [herased]
    exact List.erase_subset
  · rw [herased]
    exact (h.leaving_nodup p).erase _
  · intro _
    omega
  · intro hnone
    exact absurd hnone hplaced
  · rw [hhalf]
    exact Nat.dvd_add (h.pending_dvd p hp) hdvd
  · rw [Function.update_self, hhalf, h.counted p hp, Nat.add_assoc]
  · intro q hq
    exact ⟨hother q hq, Function.update_of_ne hq .., Function.update_of_ne hq .., rfl⟩

/-- The exchange of `reclaim_reset`: the count is reclaimed. -/
theorem Accounts.clear (h : Accounts law g s) (hp : p ∈ law.held s.alloc.bins)
    (hnone : place' p = none) (hother : ∀ q, q ≠ p → place' q = g.place q) :
    Accounts law ⟨place', g.leaving⟩
      { s with
        heap := Function.update s.heap p ((s.heap p).withHead 0)
        reclaimedBytes :=
          Function.update s.reclaimedBytes p (s.reclaimedBytes p + (s.heap p).pending) } := by
  have hlaw := h.holds.arena p hp
  have hacc := hlaw.accounted
  refine h.write hp ?_ (List.Subset.refl _) (h.leaving_nodup p) ?_ ?_ (Nat.dvd_zero _) ?_ ?_
  · refine ⟨hlaw.toStatic.withHead 0, hlaw.top_dvd, hlaw.freed_dvd, hlaw.top_le, hlaw.range,
      hlaw.size_pos, ?_⟩
    show (s.heap p).freed + (s.heap p).liveBytes (g.all s.live p) + 0 / 2 ≤ (s.heap p).top
    omega
  · intro hplaced
    exact absurd hnone hplaced
  · intro _
    rfl
  · rw [Function.update_self]
    exact h.counted p hp
  · intro q hq
    exact ⟨hother q hq, rfl, rfl, Function.update_of_ne hq ..⟩

/-- The link of an arena is written. -/
theorem Accounts.link (h : Accounts law g s) (hp : p ∈ law.held s.alloc.bins) (n : Nat) :
    Accounts law g { s with heap := Function.update s.heap p ((s.heap p).withNext n) } := by
  have hholds : law.Holds (Function.update s.heap p ((s.heap p).withNext n)) s.alloc.bins
      (Function.update (g.all s.live) p (g.all s.live p)) :=
    h.holds.write ⟨rfl, rfl, rfl, rfl, rfl⟩ ⟨rfl, rfl, rfl, rfl⟩
      ((h.holds.arena p hp).withNext n) (h.holds.busy p hp)
  rw [Function.update_eq_self] at hholds
  refine h.settle hholds h.all_held (fun q _ => ?_) (fun q hq _ => hq)
    fun q hq hnew => absurd hq hnew
  by_cases hqp : q = p
  · subst hqp
    rw [Function.update_self]
    exact ⟨rfl, rfl⟩
  · rw [Function.update_of_ne hqp]
    exact ⟨rfl, rfl⟩

/-- A thread begins to retire a live allocation. -/
theorem Accounts.startRetire [DecidableEq T] (h : Accounts law g s) (hl : l ∈ s.live p)
    (hdvd : (s.heap p).arenaAlignment ∣ l.size) (hfree : (t, l) ∉ g.leaving p) :
    Accounts law ⟨g.place, Function.update g.leaving p ((t, l) :: g.leaving p)⟩
      { s with live := Function.update s.live p ((s.live p).erase l) } := by
  -- the allocation still takes bytes of the arena
  have hperm : ∀ q, (g.all s.live q).Perm
      (Ghost.all ⟨g.place, Function.update g.leaving p ((t, l) :: g.leaving p)⟩
        (Function.update s.live p ((s.live p).erase l)) q) := by
    intro q
    unfold Ghost.all
    dsimp only
    by_cases hq : q = p
    · subst hq
      rw [Function.update_self, Function.update_self, List.map_cons]
      exact ((List.perm_cons_erase hl).append_right _).trans List.perm_middle.symm
    · rw [Function.update_of_ne hq, Function.update_of_ne hq]
  refine ⟨h.holds.perm hperm, fun q hq => ?_, fun q x hx => ?_, fun q => ?_, h.placed, h.unplaced,
    h.pending_dvd, h.counted, h.settled⟩
  · refine h.all_held q fun hnil => hq ?_
    exact (hnil ▸ hperm q).nil_eq.symm
  · dsimp only at hx
    by_cases hqp : q = p
    · subst hqp
      rw [Function.update_self] at hx
      rcases List.mem_cons.mp hx with rfl | hx
      · exact hdvd
      · exact h.leaving_dvd q x hx
    · rw [Function.update_of_ne hqp] at hx
      exact h.leaving_dvd q x hx
  · dsimp only
    by_cases hqp : q = p
    · subst hqp
      rw [Function.update_self]
      exact List.nodup_cons.mpr ⟨hfree, h.leaving_nodup q⟩
    · rw [Function.update_of_ne hqp]
      exact h.leaving_nodup q

end RetiringArenas

end Cuw3
