/-
  The retire-reclaim protocol goes on, whatever the threads have done.

  No access of a thread or of the owner aborts in a reachable state, and a thread accesses arenas of
  the bins only (`reachable_answers`).  A call of a thread that runs alone ends in five accesses:
  each of these lowers `rank`, which looks at whether the word that the thread has loaded is still
  the one in memory (`SharedHolds.next_exists`).

  So from every reachable state the calls under way can be finished, and what was retired can be
  reclaimed: each arena that the owner reclaims from leaves one arena less with a raised flag
  (`SharedHolds.walk`).  Then nothing is pending, and the bins hold exactly the arenas that clients
  have allocations in (`reachable_drains`).
-/
import Cuw3.Arena.Equiv.Balance

namespace Cuw3

open Lib

namespace RetiringArenas

open BinsLaw (nexts)
open Relation (ReflTransGen)

variable {B T : Type} (ops : AllocatorOps B)

/-! ### Steps of calls under way -/

/-- A step of the owner that reclaims. -/
inductive Reclaims (s : RetiringArenas B) : RetiringArenas B → Prop
  | reclaimArenas {s' : RetiringArenas B} (hidle : s.owner = .idle) (hwalk : s.walking = 0)
      (hok : s.startReclaimArenas = .ok s') : Reclaims s s'
  | pop {s' : RetiringArenas B} (hidle : s.owner = .idle) (hpopped : s.popped = 0)
      (hok : s.pop = .ok s') : Reclaims s s'
  | reclaimArena {s' : RetiringArenas B} (hidle : s.owner = .idle) (hpopped : s.popped ≠ 0)
      (hok : s.startReclaimArena ops = .ok s') : Reclaims s s'
  | next {s' : RetiringArenas B} (hok : s.ownerNext ops = .ok s') : Reclaims s s'

/-- A step in which no client calls: the owner reclaims, or a thread goes on. -/
inductive Continues [DecidableEq T] (σ : Machine B T) : Machine B T → Prop
  | owner {s' : RetiringArenas B} (hstep : Reclaims ops σ.shared s') :
      Continues σ (σ.withShared s')
  | next (t : T) {s' : RetiringArenas B} {pc : Pc}
      (hok : (σ.locals t).next σ.shared = .ok (s', pc)) : Continues σ (σ.set t s' pc)

/-- A thread makes its accesses, and nobody else does. -/
def Machine.alone [DecidableEq T] (σ : Machine B T) (t : T) : Nat → Checked (Machine B T)
  | 0 => pure σ
  | n + 1 => do
    let (s, pc) ← (σ.locals t).next σ.shared
    Machine.alone (σ.set t s pc) t n

variable {ops} {law : BinsLaw ops} {g : Ghost T} {s s' : RetiringArenas B} {n p : Nat} {t : T}
  {pc : Pc} {l : Allocation} {σ σ' : Machine B T}

theorem Continues.step [DecidableEq T] (h : Continues ops σ σ') :
    Step ops law.held law.Suitable σ σ' := by
  cases h with
  | owner h =>
    cases h with
    | reclaimArenas hidle hwalk hok => exact .reclaimArenas hidle hwalk hok
    | pop hidle hpopped hok => exact .pop hidle hpopped hok
    | reclaimArena hidle hpopped hok => exact .reclaimArena hidle hpopped hok
    | next hok => exact .ownerNext hok
  | next t hok => exact .next t hok

theorem Machine.Balanced.continues [DecidableEq T] (h : σ.Balanced law)
    (hsteps : ReflTransGen (Continues ops) σ σ') : σ'.Balanced law := by
  induction hsteps with
  | refl => exact h
  | tail _ hstep ih => exact ih.step hstep.step

/-- The arenas suit the retire words: their handles are aligned, the bytes of one are counted
without the bit of the flag, and no allocation is larger than its arena. -/
structure SuitsWords (law : BinsLaw ops) (s : RetiringArenas B) : Prop where
  even : ∀ p ∈ law.held s.alloc.bins, p % 2 = 0
  counted : ∀ p ∈ law.held s.alloc.bins, (s.heap p).arenaMemorySize < 2 ^ 63
  sized : ∀ p ∈ law.held s.alloc.bins, ∀ l ∈ s.live p, l.size ≤ (s.heap p).arenaMemorySize

/-- The clients have what they had, and the bins no other arenas. -/
structure SameClients (law : BinsLaw ops) (s s' : RetiringArenas B) : Prop where
  live : s'.live = s.live
  held : ∀ p ∈ law.held s'.alloc.bins, p ∈ law.held s.alloc.bins
  block : ∀ p ∈ law.held s'.alloc.bins, (s.heap p).SameBlock (s'.heap p)

theorem SameClients.refl (s : RetiringArenas B) : SameClients law s s :=
  ⟨rfl, fun _ hp => hp, fun _ _ => .refl _⟩

theorem SameClients.trans {s'' : RetiringArenas B} (h : SameClients law s s')
    (h' : SameClients law s' s'') : SameClients law s s'' where
  live := h'.live.trans h.live
  held p hp := h.held p (h'.held p hp)
  block p hp := (h.block p (h'.held p hp)).trans (h'.block p hp)

/-- Only entries of arenas are written. -/
theorem SameClients.of_entries (hlive : s'.live = s.live) (hbins : s'.alloc.bins = s.alloc.bins)
    (hblock : ∀ p, (s.heap p).SameBlock (s'.heap p)) : SameClients law s s' := by
  refine ⟨hlive, fun p hp => ?_, fun p _ => hblock p⟩
  rwa [← hbins]

theorem SuitsWords.same (h : SuitsWords law s) (hsame : SameClients law s s') :
    SuitsWords law s' where
  even p hp := h.even p (hsame.held p hp)
  counted p hp := by
    rw [(hsame.block p hp).size]
    exact h.counted p (hsame.held p hp)
  sized p hp l hl := by
    rw [hsame.live] at hl
    rw [(hsame.block p hp).size]
    exact h.sized p (hsame.held p hp) l hl

/-! ### A thread goes on -/

/-- The arena whose word or link the next access is of, or that it pushes. -/
def Pc.arena : Pc → Option Nat
  | .idle => none
  | .dataLoad p _ => some p
  | .dataSwap p _ _ _ => some p
  | .ptrLoad p => some p
  | .ptrNext p _ _ => some p
  | .ptrSwap p _ _ => some p

/-- A thread accesses arenas that the bins hold. -/
theorem SharedHolds.accessed (h : SharedHolds law g s) (hself : WorkerHolds g s t pc)
    (harena : pc.arena = some p) : p ∈ law.held s.alloc.bins := by
  have hleaving : ∀ l, pc.leaving = some (p, l) → p ∈ law.held s.alloc.bins := by
    intro l hl
    exact (h.toAccounts.leaving_held ((hself.leaving p l).mpr hl)).2
  have howed : pc.owed = some p → p ∈ law.held s.alloc.bins := by
    intro hp
    exact (h.placed p (by simp [(hself.owed p).mpr hp])).1
  cases pc with
  | idle => cases harena
  | dataLoad q l =>
    obtain rfl := Option.some.inj harena
    exact hleaving l rfl
  | dataSwap q l old new =>
    obtain rfl := Option.some.inj harena
    exact hleaving l rfl
  | ptrLoad q => exact howed harena
  | ptrNext q old new => exact howed harena
  | ptrSwap q old new => exact howed harena

/-- How many accesses a thread that runs alone still makes.  A word that is not the one the thread
has loaded costs another turn. -/
def Pc.rank (s : RetiringArenas B) : Pc → Nat
  | .idle => 0
  | .dataLoad _ _ => 5
  | .dataSwap p _ old _ => if s.word p = old then 4 else 5
  | .ptrLoad _ => 3
  | .ptrNext _ old _ => if s.root = old then 2 else 4
  | .ptrSwap _ old _ => if s.root = old then 1 else 3

theorem Pc.rank_le (s : RetiringArenas B) (pc : Pc) : pc.rank s ≤ 5 := by
  cases pc with
  | idle => exact Nat.zero_le 5
  | dataLoad p l => exact le_refl 5
  | dataSwap p l old new =>
    show (if s.word p = old then 4 else 5) ≤ 5
    split_ifs <;> decide
  | ptrLoad p => exact (by decide : 3 ≤ 5)
  | ptrNext p old new =>
    show (if s.root = old then 2 else 4) ≤ 5
    split_ifs <;> decide
  | ptrSwap p old new =>
    show (if s.root = old then 1 else 3) ≤ 5
    split_ifs <;> decide

/-- The turn of `retire_data` does not overflow. -/
theorem SharedHolds.dataTurn_exists (h : SharedHolds law g s) (hwords : SuitsWords law s)
    (hmem : (t, l) ∈ g.leaving p) :
    ∃ new, dataTurn p l (s.word p) = .ok (.dataSwap p l (s.word p) new) := by
  obtain ⟨hl, hp⟩ := h.toAccounts.leaving_held hmem
  have hlaw := h.holds.arena p hp
  have hdvd := h.leaving_dvd p _ hmem
  have hspace := FastArena.requiredSpace_of_dvd (hlaw.size_pos l hl).2 hlaw.isAlignment hdvd
  have hcount := hlaw.u64_pending hl hdvd
  have hacc := hlaw.accounted
  rw [(s.heap p).liveBytes_erase hl, hspace] at hacc
  have htop := hlaw.top_le
  have hsize := hwords.counted p hp
  have hretire : RetireReclaimPtrView.retireData (s.word p) l.size =
      .ok (s.word p, 2 * u64 ((s.heap p).pending + l.size) + 1) := by
    rw [RetireReclaimPtrView.retireData_eq_ok]
    refine ⟨?_, rfl, rfl⟩
    show u64 ((s.heap p).pending + l.size) < 2 ^ 63
    rw [hcount]
    omega
  refine ⟨2 * u64 ((s.heap p).pending + l.size) + 1, ?_⟩
  unfold dataTurn
  rw [hretire]
  rfl

theorem ptrTurn_eq (heven : p % 2 = 0) (root : Nat) :
    ptrTurn p root = .ok (.ptrNext p root (p + 1)) := by
  have hretire : RetireReclaimPtrView.retirePtr root p = .ok (root, p + 1) :=
    RetireReclaimPtrView.retirePtr_eq_ok.mpr ⟨heven, rfl, rfl⟩
  unfold ptrTurn
  rw [hretire]
  rfl

/-- **The next access of a thread does not abort, and it brings the end of the call closer.** -/
theorem SharedHolds.next_exists (h : SharedHolds law g s) (hself : WorkerHolds g s t pc)
    (hwords : SuitsWords law s) : ∃ s' pc', pc.next s = .ok (s', pc') ∧ SameClients law s s' ∧
      (pc ≠ .idle → pc'.rank s' < pc.rank s) := by
  cases pc with
  | idle => exact ⟨s, .idle, rfl, .refl s, fun hne => absurd rfl hne⟩
  | dataLoad p l =>
    obtain ⟨new, hturn⟩ := h.dataTurn_exists hwords ((hself.leaving p l).mpr rfl)
    refine ⟨s, .dataSwap p l (s.word p) new, ?_, .refl s, fun _ => ?_⟩
    · unfold Pc.next
      dsimp only
      rw [hturn]
      rfl
    · show (if s.word p = s.word p then 4 else 5) < 5
      rw [if_pos rfl]
      decide
  | dataSwap p l old new =>
    by_cases hold : s.word p = old
    · refine ⟨_, _, if_pos hold, .of_entries rfl rfl fun q => ?_, fun _ => ?_⟩
      · dsimp only
        by_cases hq : q = p
        · subst hq
          rw [Function.update_self]
          exact ⟨rfl, rfl, rfl, rfl⟩
        · rw [Function.update_of_ne hq]
          exact .refl _
      · show _ < if s.word p = old then 4 else 5
        rw [if_pos hold]
        split_ifs
        · exact (by decide : 0 < 4)
        · exact (by decide : 3 < 4)
    · obtain ⟨new', hturn⟩ := h.dataTurn_exists hwords ((hself.leaving p l).mpr rfl)
      refine ⟨s, .dataSwap p l (s.word p) new', ?_, .refl s, fun _ => ?_⟩
      · unfold Pc.next
        simp only [if_neg hold, hturn]
        rfl
      · show (if s.word p = s.word p then 4 else 5) < if s.word p = old then 4 else 5
        rw [if_pos rfl, if_neg hold]
        decide
  | ptrLoad p =>
    have hturn := ptrTurn_eq (hwords.even p (h.accessed hself rfl)) s.root
    refine ⟨s, .ptrNext p s.root (p + 1), ?_, .refl s, fun _ => ?_⟩
    · unfold Pc.next
      dsimp only
      rw [hturn]
      rfl
    · show (if s.root = s.root then 2 else 4) < 3
      rw [if_pos rfl]
      decide
  | ptrNext p old new =>
    refine ⟨_, _, rfl, .of_entries rfl rfl fun q => ?_, fun _ => ?_⟩
    · dsimp only
      by_cases hq : q = p
      · subst hq
        rw [Function.update_self]
        exact ⟨rfl, rfl, rfl, rfl⟩
      · rw [Function.update_of_ne hq]
        exact .refl _
    · show (if s.root = old then 1 else 3) < if s.root = old then 2 else 4
      split_ifs <;> decide
  | ptrSwap p old new =>
    by_cases hold : s.root = old
    · refine ⟨_, _, if_pos hold, .of_entries rfl rfl fun q => .refl _, fun _ => ?_⟩
      show 0 < if s.root = old then 1 else 3
      rw [if_pos hold]
      decide
    · have hturn := ptrTurn_eq (hwords.even p (h.accessed hself rfl)) s.root
      refine ⟨s, .ptrNext p s.root (p + 1), ?_, .refl s, fun _ => ?_⟩
      · unfold Pc.next
        simp only [if_neg hold, hturn]
        rfl
      · show (if s.root = s.root then 2 else 4) < if s.root = old then 1 else 3
        rw [if_pos rfl, if_neg hold]
        decide

theorem Pc.rank_eq_zero (h : pc.rank s = 0) : pc = .idle := by
  cases pc with
  | idle => rfl
  | dataLoad p l => exact absurd h (by decide : 5 ≠ 0)
  | dataSwap p l old new =>
    replace h : (if s.word p = old then 4 else 5) = 0 := h
    split_ifs at h
  | ptrLoad p => exact absurd h (by decide : 3 ≠ 0)
  | ptrNext p old new =>
    replace h : (if s.root = old then 2 else 4) = 0 := h
    split_ifs at h
  | ptrSwap p old new =>
    replace h : (if s.root = old then 1 else 3) = 0 := h
    split_ifs at h

/-- **A call of a thread that runs alone ends.** -/
theorem Machine.Balanced.alone [DecidableEq T] (h : σ.Balanced law)
    (hwords : SuitsWords law σ.shared) (hrank : (σ.locals t).rank σ.shared ≤ n) :
    ∃ σ', σ.alone t n = .ok σ' ∧ σ'.locals t = .idle ∧ (∀ u, u ≠ t → σ'.locals u = σ.locals u) ∧
      ReflTransGen (Continues ops) σ σ' ∧ SameClients law σ.shared σ'.shared := by
  induction n generalizing σ with
  | zero => exact ⟨σ, rfl, Pc.rank_eq_zero (Nat.le_zero.mp hrank), fun _ _ => rfl, .refl, .refl _⟩
  | succ n ih =>
    obtain ⟨g, hshared, hworkers, -⟩ := id h
    obtain ⟨s', pc', hnext, hsame, hless⟩ := hshared.next_exists (hworkers t) hwords
    have hstep : Continues ops σ (σ.set t s' pc') := .next t hnext
    have hrank' : pc'.rank s' ≤ n := by
      by_cases hidle : σ.locals t = .idle
      · rw [hidle] at hnext
        obtain ⟨-, rfl⟩ := Prod.mk.inj (Except.ok.inj hnext)
        exact Nat.zero_le n
      · have hlt := hless hidle
        omega
    obtain ⟨σ', hok, hidle, hothers, hsteps, hsame'⟩ :=
      ih (h.step hstep.step) (hwords.same hsame) (by simpa using hrank')
    refine ⟨σ', ?_, hidle, fun u hu => ?_, .head hstep hsteps, hsame.trans hsame'⟩
    · unfold Machine.alone
      rw [hnext]
      exact hok
    · rw [hothers u hu, Threads.set_locals_of_ne hu]

/-- A thread can begin to retire every live allocation. -/
theorem SharedHolds.startRetire_eq (h : SharedHolds law g s) (hl : l ∈ s.live p) :
    startRetire ops s p l = .ok (.dataLoad p l) := by
  have hall : l ∈ g.all s.live p := List.mem_append_left _ hl
  have hp := h.all_held p (List.ne_nil_of_mem hall)
  have hlaw := h.holds.arena p hp
  obtain ⟨⟨hpos, -⟩, hsuit, -⟩ := law.member h.holds.wf hp
  obtain ⟨hlo, hhi⟩ := hlaw.range l hall
  have hmemory : l.memory ≠ 0 := by
    have := hlaw.memory_pos
    omega
  have htype : ArenaAllocator.hasType ops.toBinsOps s.heap p = true := by
    simp [ArenaAllocator.hasType, law.type hsuit]
  unfold startRetire
  rw [check_of hpos.ne', check_of hmemory, check_of (hlaw.size_pos l hall).1.ne', check_of htype,
    hlaw.align_eq]
  simp only [ok_bind]
  rw [check_of (hlaw.hasMemoryRange hlo hhi)]
  rfl

/-! ### The owner goes on -/

/-- No thread owes a push. -/
def Unowed (T : Type) (law : BinsLaw ops) (s : RetiringArenas B) : Prop :=
  ∃ g : Ghost T, SharedHolds law g s ∧ ∀ p t, g.place p ≠ some (.owed t)

/-- How many arenas wait to be reclaimed from. -/
def waiting (law : BinsLaw ops) (s : RetiringArenas B) : Nat :=
  (law.held s.alloc.bins).countP fun p => decide (s.heap p).flagged

/-- A step of the owner takes nothing from a thread. -/
theorem SharedHolds.reclaims (h : SharedHolds law g s) (hstep : Reclaims ops s s') :
    Kept law g s s' := by
  cases hstep with
  | reclaimArenas hidle hwalk hok => exact h.startReclaimArenas hwalk hidle hok
  | pop hidle hpopped hok => exact h.pop hpopped hidle hok
  | reclaimArena _ hpopped hok => exact h.startReclaimArena hpopped hok
  | next hok => exact h.ownerNext hok

theorem Unowed.reclaims (h : Unowed T law s) (hsteps : ReflTransGen (Reclaims ops) s s') :
    Unowed T law s' := by
  induction hsteps with
  | refl => exact h
  | tail _ hstep ih =>
    obtain ⟨g, hshared, hnone⟩ := ih
    obtain ⟨place, hshared', howed, -⟩ := hshared.reclaims hstep
    exact ⟨_, hshared', fun p t hp => hnone p t ((howed p t).mp hp)⟩

theorem SharedHolds.startReclaimArenas_exists (h : SharedHolds law g s) :
    ∃ s', s.startReclaimArenas = .ok s' := by
  unfold RetiringArenas.startReclaimArenas
  split_ifs
  · exact ⟨_, rfl⟩
  · have hreclaim : RetireReclaimPtrView.reclaim s.root = .ok (s.root, 1) :=
      RetireReclaimPtrView.reclaim_eq_ok.mpr ⟨h.root_odd, rfl, rfl⟩
    rw [hreclaim]
    exact ⟨_, rfl⟩

theorem pop_exists (hwalk : s.walking ≠ 0) : ∃ s', s.pop = .ok s' ∧ s'.owner = s.owner ∧
    s'.popped = s.walking ∧ s'.live = s.live ∧ s'.alloc.bins = s.alloc.bins ∧
    s'.heap = Function.update s.heap s.walking ((s.heap s.walking).withNext 0) := by
  refine ⟨{ s with
    heap := Function.update s.heap s.walking ((s.heap s.walking).withNext 0)
    walking := nexts s.heap s.walking
    popped := s.walking }, ?_, rfl, rfl, rfl, rfl, rfl⟩
  unfold RetiringArenas.pop FastArenaReclaimList.pop
  rw [assert_of hwalk]
  rfl

theorem SharedHolds.startReclaimArena_eq (h : SharedHolds law g s) (hpopped : s.popped ≠ 0) :
    s.startReclaimArena ops = .ok { s with owner := .arenaSwap 0 } := by
  have hplace : g.place s.popped = some .popped := (h.popped _).mpr ⟨rfl, hpopped⟩
  obtain ⟨hp, hflag, -⟩ := h.placed s.popped (by simp [hplace])
  have htype : ArenaAllocator.hasType ops.toBinsOps s.heap s.popped = true := by
    simp [ArenaAllocator.hasType, law.type (law.member h.holds.wf hp).2.1]
  have hreset : RetireReclaimPtrView.reclaimReset (s.word s.popped) =
      .ok (s.word s.popped, 0) :=
    RetireReclaimPtrView.reclaimReset_eq_ok.mpr ⟨hflag, rfl, rfl⟩
  unfold RetiringArenas.startReclaimArena
  rw [check_of htype, hreset]
  rfl

theorem SharedHolds.finishReclaimArena_exists (h : SharedHolds law g s) (hpopped : s.popped ≠ 0) :
    ∃ s', s.finishReclaimArena ops 0 = .ok s' := by
  have hplace : g.place s.popped = some .popped := (h.popped _).mpr ⟨rfl, hpopped⟩
  obtain ⟨hp, hflag, -⟩ := h.placed s.popped (by simp [hplace])
  obtain ⟨r, heap', alloc', hreclaim, -⟩ :=
    h.holds.reclaimArena hp hflag (h.pending_dvd _ hp)
  obtain ⟨heap₁, bins₁, hextract, hframe, -⟩ := law.extract h.holds.wf hp
  have hhead : (heap₁ s.popped).retireReclaimEntry.head =
      (s.heap s.popped).retireReclaimEntry.head := by
    rw [hframe.links s.popped]
  have hreset : RetireReclaimPtrView.reclaimReset (heap₁ s.popped).retireReclaimEntry.head =
      .ok ((heap₁ s.popped).retireReclaimEntry.head, 0) := by
    rw [RetireReclaimPtrView.reclaimReset_eq_ok, hhead]
    exact ⟨hflag, rfl, rfl⟩
  simp only [ArenaAllocator.reclaimArena, hextract, FastArena.reclaimAllocations, hreset, ok_bind,
    bind_eq_ok, check_eq_ok, exists_const] at hreclaim
  obtain ⟨-, view, hview, hreclaim⟩ := hreclaim
  simp only [RetiringArenas.finishReclaimArena, hextract, ok_bind, hview]
  split_ifs at hreclaim ⊢
  · simp only [bind_eq_ok] at hreclaim
    obtain ⟨out, hout, -⟩ := hreclaim
    rw [hout]
    exact ⟨_, rfl⟩
  · simp only [bind_eq_ok] at hreclaim
    obtain ⟨out, hout, -⟩ := hreclaim
    rw [hout]
    exact ⟨_, rfl⟩

/-- Only the arena that was reclaimed from has lowered its flag. -/
theorem waiting_lt {live' : Nat → List Allocation} {r : Nat} {entry : RetireReclaimEntry}
    (hnodup : (law.held s.alloc.bins).Nodup) (hp : p ∈ law.held s.alloc.bins)
    (hflag : (s.heap p).flagged) (hclear : entry.head = 0)
    (hsettled : law.Settled s.heap s'.heap s.alloc.bins s'.alloc.bins live' p r entry) :
    waiting law s' < waiting law s := by
  -- the other arenas that the bins hold afterwards
  obtain ⟨ps, hperm, hcount⟩ : ∃ ps, (p :: ps).Perm (law.held s.alloc.bins) ∧
      waiting law s' = ps.countP fun q => decide (s'.heap q).flagged := by
    have hlowered : ¬(s'.heap p).flagged := by
      rw [FastArena.flagged, hsettled.entry, hclear]
      decide
    rcases hsettled.result with ⟨-, hperm, -⟩ | ⟨-, hperm, -⟩
    · refine ⟨(law.held s.alloc.bins).erase p, (List.perm_cons_erase hp).symm, ?_⟩
      unfold waiting
      rw [(hperm.trans (List.perm_cons_erase hp)).countP_eq]
      exact List.countP_cons_of_neg (by simpa using hlowered)
    · exact ⟨_, hperm, rfl⟩
  have hnot : p ∉ ps := (List.nodup_cons.mp (hperm.nodup_iff.mpr hnodup)).1
  have hsame : (ps.countP fun q => decide (s'.heap q).flagged) =
      ps.countP fun q => decide (s.heap q).flagged := by
    refine List.countP_congr fun q hq => ?_
    rw [hsettled.others q (ne_of_mem_of_not_mem hq hnot)]
    exact Iff.rfl
  have hbefore : waiting law s = (ps.countP fun q => decide (s.heap q).flagged) + 1 := by
    unfold waiting
    rw [← hperm.countP_eq]
    exact List.countP_cons_of_pos (by simpa using hflag)
  omega

/-- **The owner reclaims from the arena it popped, and one arena less waits.** -/
theorem SharedHolds.arenaSwap_exists (h : SharedHolds law g s) (hpopped : s.popped ≠ 0)
    (hwords : SuitsWords law s) : ∃ s', s.finishReclaimArena ops 0 = .ok s' ∧
      SameClients law s s' ∧ s'.owner = .idle ∧ s'.popped = 0 ∧
      waiting law s' < waiting law s := by
  have hplace : g.place s.popped = some .popped := (h.popped _).mpr ⟨rfl, hpopped⟩
  obtain ⟨hp, hflag, -⟩ := h.placed s.popped (by simp [hplace])
  obtain ⟨s', hok⟩ := h.finishReclaimArena_exists hpopped
  refine ⟨s', hok, ?_⟩
  obtain ⟨r, heap', alloc', hreclaim, rfl⟩ := finishReclaimArena_eq_ok h.holds hp hflag hok
  obtain ⟨r', heap₁, alloc₁, heq, -, -, hsettled⟩ :=
    h.holds.reclaimArena hp hflag (h.pending_dvd _ hp)
  rw [hreclaim, Except.ok.injEq, Prod.mk.injEq, Prod.mk.injEq] at heq
  obtain ⟨rfl, rfl, rfl⟩ := heq
  have hheld : ∀ q ∈ law.held alloc'.bins, q ∈ law.held s.alloc.bins := by
    intro q hq
    rcases hsettled.result with ⟨-, hperm, -⟩ | ⟨-, hperm, -⟩
    · exact hperm.subset hq
    · exact hperm.subset (List.mem_cons_of_mem _ hq)
  refine ⟨⟨?_, hheld, fun q _ => ?_⟩, rfl, rfl,
    waiting_lt (law.nodup h.holds.wf) hp hflag rfl hsettled⟩
  · rcases hsettled.result with ⟨rfl, -⟩ | ⟨rfl, -, -, -, -, -, hzero⟩
    · dsimp only
      rw [if_pos rfl]
    · -- a drained arena has no live allocation
      dsimp only
      rw [if_neg hpopped]
      have hnil : s.live s.popped = [] := by
        rw [List.eq_nil_iff_forall_not_mem]
        intro l hl
        have hall : l ∈ g.all s.live s.popped := List.mem_append_left _ hl
        have hlaw := h.holds.arena _ hp
        have hspace := hlaw.toStatic.requiredSpace_pos (hlaw.size_pos l hall).1
          (hwords.sized _ hp l hl)
        rw [(s.heap s.popped).liveBytes_erase hall] at hzero
        omega
      rw [← hnil, Function.update_eq_self]
  · dsimp only
    by_cases hq : q = s.popped
    · subst hq
      exact hsettled.block
    · rw [hsettled.others q hq]
      exact ⟨rfl, rfl, rfl, rfl⟩

theorem SharedHolds.reclaim_popped (h : SharedHolds law g s) (hidle : s.owner = .idle)
    (hpopped : s.popped ≠ 0) (hwords : SuitsWords law s) :
    ∃ s', ReflTransGen (Reclaims ops) s s' ∧ SameClients law s s' ∧ s'.owner = .idle ∧
      s'.popped = 0 ∧ waiting law s' < waiting law s := by
  have hstart := h.startReclaimArena_eq hpopped
  have hfirst : Reclaims ops s { s with owner := .arenaSwap 0 } :=
    .reclaimArena hidle hpopped hstart
  obtain ⟨place, hshared, -⟩ := h.reclaims hfirst
  have hsame : SameClients law s { s with owner := .arenaSwap 0 } :=
    .of_entries rfl rfl fun _ => .refl _
  obtain ⟨s', hok, hsame', hidle', hpopped', hlt⟩ :=
    hshared.arenaSwap_exists hpopped (hwords.same hsame)
  exact ⟨s', .tail (.single hfirst) (.next hok), hsame.trans hsame', hidle', hpopped', hlt⟩

/-- The owner pops an arena and reclaims from it. -/
theorem SharedHolds.reclaim_walking (h : SharedHolds law g s) (hidle : s.owner = .idle)
    (hpopped : s.popped = 0) (hwalk : s.walking ≠ 0) (hwords : SuitsWords law s) :
    ∃ s', ReflTransGen (Reclaims ops) s s' ∧ SameClients law s s' ∧ s'.owner = .idle ∧
      s'.popped = 0 ∧ waiting law s' < waiting law s := by
  obtain ⟨s₁, hok, howner, hpop, hlive, hbins, hheap⟩ := pop_exists hwalk
  have hfirst : Reclaims ops s s₁ := .pop hidle hpopped hok
  obtain ⟨place, hshared, -⟩ := h.reclaims hfirst
  have hentry : ∀ q, s₁.heap q = { s.heap q with
      retireReclaimEntry := (s₁.heap q).retireReclaimEntry } ∧
        ((s₁.heap q).flagged ↔ (s.heap q).flagged) := by
    intro q
    rw [hheap]
    by_cases hq : q = s.walking
    · subst hq
      rw [Function.update_self]
      exact ⟨rfl, Iff.rfl⟩
    · rw [Function.update_of_ne hq]
      exact ⟨rfl, Iff.rfl⟩
  have hsame : SameClients law s s₁ := .of_entries hlive hbins fun q => by
    rw [(hentry q).1]
    exact ⟨rfl, rfl, rfl, rfl⟩
  have hcount : waiting law s₁ = waiting law s := by
    unfold waiting
    rw [hbins]
    exact List.countP_congr fun q _ => by simp only [decide_eq_true_eq, (hentry q).2]
  obtain ⟨s', hsteps, hsame', hidle', hpopped', hlt⟩ := hshared.reclaim_popped
    (howner.trans hidle) (by rw [hpop]; exact hwalk) (hwords.same hsame)
  exact ⟨s', .head hfirst hsteps, hsame.trans hsame', hidle', hpopped', hcount ▸ hlt⟩

/-- The owner takes a list to walk: the postponed one, or the root's. -/
theorem SharedHolds.take_exists (h : SharedHolds law g s) (hidle : s.owner = .idle)
    (hwalk : s.walking = 0) : ∃ s', ReflTransGen (Reclaims ops) s s' ∧ s'.owner = .idle ∧
      s'.popped = s.popped ∧ s'.heap = s.heap ∧ s'.live = s.live ∧
      s'.alloc.bins = s.alloc.bins ∧
      s'.walking = if s.alloc.retiredArenas.nextPostponed ≠ 0 then
        s.alloc.retiredArenas.nextPostponed else RetireReclaimPtr.ptr s.root := by
  obtain ⟨s₁, hok⟩ := h.startReclaimArenas_exists
  have hfirst : Reclaims ops s s₁ := .reclaimArenas hidle hwalk hok
  unfold RetiringArenas.startReclaimArenas at hok
  split_ifs at hok with hpost
  · rw [pure_eq_ok] at hok
    subst hok
    exact ⟨_, .single hfirst, hidle, rfl, rfl, rfl, rfl, (if_pos hpost).symm⟩
  · simp only [bind_eq_ok, Prod.exists, pure_eq_ok] at hok
    obtain ⟨_, new, -, rfl⟩ := hok
    exact ⟨_, .tail (.single hfirst) (.next rfl), rfl, rfl, rfl, rfl, rfl, (if_neg hpost).symm⟩

/-- While an arena waits, the owner reaches one. -/
theorem Unowed.reclaim (h : Unowed T law s) (hidle : s.owner = .idle) (hpopped : s.popped = 0)
    (hwait : 0 < waiting law s) (hwords : SuitsWords law s) :
    ∃ s', ReflTransGen (Reclaims ops) s s' ∧ SameClients law s s' ∧ s'.owner = .idle ∧
      s'.popped = 0 ∧ waiting law s' < waiting law s := by
  obtain ⟨g, hshared, howed⟩ := id h
  by_cases hwalk : s.walking ≠ 0
  · exact hshared.reclaim_walking hidle hpopped hwalk hwords
  rw [not_not] at hwalk
  obtain ⟨s₁, hsteps, hidle₁, hpopped₁, hheap, hlive, hbins, hwalk₁⟩ :=
    hshared.take_exists hidle hwalk
  have hsame : SameClients law s s₁ := .of_entries hlive hbins fun q => by
    rw [hheap]
    exact .refl _
  have hcount : waiting law s₁ = waiting law s := by
    unfold waiting
    rw [hbins, hheap]
  -- an arena that waits is in a list, and not in the one that was walked to its end
  have hne : s₁.walking ≠ 0 := by
    obtain ⟨p, hp, hflag⟩ := List.countP_pos_iff.mp hwait
    rw [decide_eq_true_eq] at hflag
    have hplaced : g.place p ≠ none := by
      intro hnone
      have hzero : (s.heap p).retireReclaimEntry.head = 0 := hshared.unplaced p hp hnone
      rw [FastArena.flagged, hzero] at hflag
      exact absurd hflag (by decide)
    obtain ⟨place, hplace⟩ := Option.ne_none_iff_exists'.mp hplaced
    have hlisted : ∀ i, place = .list i → s.head i ≠ 0 := by
      rintro i rfl hnull
      exact (hnull ▸ hshared.lists i).none_of_null p hplace
    rw [hwalk₁]
    split_ifs with hpost
    · exact hpost
    · rw [not_not] at hpost
      cases place with
      | list i =>
        cases i with
        | root => exact hlisted .root rfl
        | walking => exact absurd hwalk (hlisted .walking rfl)
        | postponed => exact absurd hpost (hlisted .postponed rfl)
      | popped =>
        obtain ⟨rfl, hne⟩ := (hshared.popped p).mp hplace
        exact absurd hpopped hne
      | owed t => exact absurd hplace (howed p t)
  obtain ⟨g₁, hshared₁, -⟩ := h.reclaims hsteps
  obtain ⟨s', hsteps', hsame', hidle', hpopped', hlt⟩ := hshared₁.reclaim_walking hidle₁
    (hpopped₁.trans hpopped) hne (hwords.same hsame)
  exact ⟨s', hsteps.trans hsteps', hsame.trans hsame', hidle', hpopped', hcount ▸ hlt⟩

/-- The owner finishes what it has begun. -/
theorem Unowed.settle (h : Unowed T law s) (hwords : SuitsWords law s) :
    ∃ s', ReflTransGen (Reclaims ops) s s' ∧ SameClients law s s' ∧ s'.owner = .idle ∧
      s'.popped = 0 := by
  have hbetween : ∀ {s₁}, Unowed T law s₁ → SuitsWords law s₁ → s₁.owner = .idle →
      ∃ s', ReflTransGen (Reclaims ops) s₁ s' ∧ SameClients law s₁ s' ∧ s'.owner = .idle ∧
        s'.popped = 0 := by
    intro s₁ h₁ hwords₁ hidle
    by_cases hpopped : s₁.popped = 0
    · exact ⟨s₁, .refl, .refl s₁, hidle, hpopped⟩
    · obtain ⟨g, hshared, -⟩ := h₁
      obtain ⟨s', hsteps, hsame, hidle', hpopped', -⟩ :=
        hshared.reclaim_popped hidle hpopped hwords₁
      exact ⟨s', hsteps, hsame, hidle', hpopped'⟩
  obtain ⟨g, hshared, -⟩ := id h
  have howner := hshared.owner
  unfold OwnerHolds at howner
  cases hpc : s.owner with
  | idle => exact hbetween h hwords hpc
  | rootSwap new =>
    have hok : s.ownerNext ops = .ok
        { s.withRoot new with owner := .idle, walking := RetireReclaimPtr.ptr s.root } := by
      unfold RetiringArenas.ownerNext
      rw [hpc]
      rfl
    have hsame : SameClients law s
        { s.withRoot new with owner := .idle, walking := RetireReclaimPtr.ptr s.root } :=
      .of_entries rfl rfl fun _ => .refl _
    obtain ⟨s', hsteps, hsame', hidle, hpopped⟩ :=
      hbetween (h.reclaims (.single (.next hok))) (hwords.same hsame) rfl
    exact ⟨s', .head (.next hok) hsteps, hsame.trans hsame', hidle, hpopped⟩
  | arenaSwap new =>
    rw [hpc] at howner
    obtain ⟨rfl, hpopped⟩ := howner
    obtain ⟨s', hok, hsame, hidle, hpopped', -⟩ := hshared.arenaSwap_exists hpopped hwords
    refine ⟨s', .single (.next ?_), hsame, hidle, hpopped'⟩
    unfold RetiringArenas.ownerNext
    rw [hpc]
    exact hok

/-- **The owner reclaims from every arena that waits.** -/
theorem Unowed.drain (h : Unowed T law s) (hwords : SuitsWords law s) :
    ∃ s', ReflTransGen (Reclaims ops) s s' ∧ SameClients law s s' ∧ s'.owner = .idle ∧
      s'.popped = 0 ∧ waiting law s' = 0 := by
  have hfrom : ∀ n s₁, waiting law s₁ ≤ n → Unowed T law s₁ → SuitsWords law s₁ →
      s₁.owner = .idle → s₁.popped = 0 →
      ∃ s', ReflTransGen (Reclaims ops) s₁ s' ∧ SameClients law s₁ s' ∧ s'.owner = .idle ∧
        s'.popped = 0 ∧ waiting law s' = 0 := by
    intro n
    induction n with
    | zero =>
      intro s₁ hle _ _ hidle hpopped
      exact ⟨s₁, .refl, .refl s₁, hidle, hpopped, Nat.le_zero.mp hle⟩
    | succ n ih =>
      intro s₁ hle h₁ hwords₁ hidle hpopped
      rcases Nat.eq_zero_or_pos (waiting law s₁) with hzero | hwait
      · exact ⟨s₁, .refl, .refl s₁, hidle, hpopped, hzero⟩
      · obtain ⟨s₂, hsteps, hsame, hidle₂, hpopped₂, hlt⟩ :=
          h₁.reclaim hidle hpopped hwait hwords₁
        obtain ⟨s', hsteps', hsame', hdone⟩ := ih s₂ (by omega) (h₁.reclaims hsteps)
          (hwords₁.same hsame) hidle₂ hpopped₂
        exact ⟨s', hsteps.trans hsteps', hsame.trans hsame', hdone⟩
  obtain ⟨s₁, hsteps, hsame, hidle, hpopped⟩ := h.settle hwords
  obtain ⟨s', hsteps', hsame', hdone⟩ := hfrom (waiting law s₁) s₁ le_rfl (h.reclaims hsteps)
    (hwords.same hsame) hidle hpopped
  exact ⟨s', hsteps.trans hsteps', hsame.trans hsame', hdone⟩

/-- Where no arena waits, the lists are empty. -/
theorem SharedHolds.head_eq_zero (h : SharedHolds law g s) (hwait : waiting law s = 0)
    (i : ListId) : s.head i = 0 := by
  by_contra hne
  obtain ⟨ps, hps, hmem⟩ := h.lists i
  obtain ⟨rest, rfl, -⟩ := hps.of_ne_null hne
  obtain ⟨hheld, hflag, -⟩ := h.placed (s.head i) (by simp [(hmem _).mp List.mem_cons_self])
  have hpos : 0 < waiting law s :=
    List.countP_pos_iff.mpr ⟨s.head i, hheld, decide_eq_true hflag⟩
  omega

/-! ### Quiet states -/

/-- No call is under way, and no arena is in a list. -/
structure Machine.Quiet (σ : Machine B T) : Prop where
  threads : ∀ t, σ.locals t = .idle
  owner : σ.shared.owner = .idle
  popped : σ.shared.popped = 0
  lists : ∀ i, σ.shared.head i = 0

/-- **In a quiet state all that was retired is reclaimed, and the bins hold the arenas that clients
have allocations in.** -/
theorem Machine.Balanced.quiet (h : σ.Balanced law) (hquiet : σ.Quiet) (p : Nat) :
    σ.shared.retiredBytes p = σ.shared.reclaimedBytes p ∧
      (p ∈ law.held σ.shared.alloc.bins ↔ σ.shared.live p ≠ []) := by
  obtain ⟨g, hshared, hworkers, hbalanced⟩ := h
  have hnone : g.place p = none := by
    cases hplace : g.place p with
    | none => rfl
    | some place =>
      cases place with
      | list i => exact absurd hplace ((hquiet.lists i ▸ hshared.lists i).none_of_null p)
      | popped =>
        obtain ⟨rfl, hne⟩ := (hshared.popped p).mp hplace
        exact absurd hquiet.popped hne
      | owed t =>
        have howed := ((hworkers t).owed p).mp hplace
        rw [hquiet.threads t] at howed
        cases howed
  have hleaving : g.leaving p = [] := by
    rw [List.eq_nil_iff_forall_not_mem]
    rintro ⟨t, l⟩ hmem
    have hleaving := ((hworkers t).leaving p l).mp hmem
    rw [hquiet.threads t] at hleaving
    cases hleaving
  have hall : g.all σ.shared.live p = σ.shared.live p := by
    rw [Ghost.all, hleaving, List.map_nil, List.append_nil]
  have hpending : p ∈ law.held σ.shared.alloc.bins → (σ.shared.heap p).pending = 0 := by
    intro hp
    have hzero : (σ.shared.heap p).retireReclaimEntry.head = 0 := hshared.unplaced p hp hnone
    rw [FastArena.pending, hzero]
  constructor
  · by_cases hp : p ∈ law.held σ.shared.alloc.bins
    · rw [hshared.counted p hp, hpending hp, Nat.add_zero]
    · exact hshared.settled p hp
  · constructor
    · intro hp hnil
      have hbalances := hbalanced p hp
      rw [hall, hnil] at hbalances
      exact hshared.holds.busy p hp (hbalances.drained (hpending hp))
    · intro hlive
      exact hshared.all_held p (by rwa [hall])

/-- An empty allocator is quiet, but for a walk that the owner may just begin: nobody accesses what
its destructor frees. -/
theorem Machine.Guarded.of_empty (h : σ.Guarded law) (hempty : law.held σ.shared.alloc.bins = []) :
    (∀ t, σ.locals t = .idle) ∧ σ.shared.popped = 0 ∧ ∀ i, σ.shared.head i = 0 := by
  obtain ⟨g, hshared, hworkers⟩ := h
  have hnone : ∀ p, p ∉ law.held σ.shared.alloc.bins := by
    intro p hp
    rw [hempty] at hp
    exact List.not_mem_nil hp
  refine ⟨fun t => ?_, ?_, hshared.head_eq_zero ?_⟩
  · have hfree : ∀ p, (σ.locals t).arena ≠ some p := by
      intro p harena
      exact hnone p (hshared.accessed (hworkers t) harena)
    cases hpc : σ.locals t with
    | idle => rfl
    | dataLoad p l => exact absurd (congrArg Pc.arena hpc) (hfree p)
    | dataSwap p l old new => exact absurd (congrArg Pc.arena hpc) (hfree p)
    | ptrLoad p => exact absurd (congrArg Pc.arena hpc) (hfree p)
    | ptrNext p old new => exact absurd (congrArg Pc.arena hpc) (hfree p)
    | ptrSwap p old new => exact absurd (congrArg Pc.arena hpc) (hfree p)
  · by_contra hpopped
    have hplace : g.place σ.shared.popped = some .popped := (hshared.popped _).mpr ⟨rfl, hpopped⟩
    exact hnone _ (hshared.placed σ.shared.popped (by simp [hplace])).1
  · unfold waiting
    rw [hempty]
    rfl

/-! ### Runs -/

/-- Only finitely many threads are in a call. -/
theorem reachable_busy [DecidableEq T] {init : ArenaAllocator B}
    (h : Reachable ops law.held law.Suitable init σ) :
    ∃ ts : List T, ∀ t ∉ ts, σ.locals t = .idle := by
  induction h with
  | start heap => exact ⟨[], fun _ _ => rfl⟩
  | @step σ σ' _ hstep ih =>
    obtain ⟨ts, hts⟩ := ih
    have hmoved : ∀ t s pc, ∃ ts' : List T, ∀ u ∉ ts', (σ.set t s pc).locals u = .idle := by
      intro t s pc
      refine ⟨t :: ts, fun u hu => ?_⟩
      rw [List.mem_cons, not_or] at hu
      rw [Threads.set_locals_of_ne hu.1]
      exact hts u hu.2
    cases hstep with
    | retire t => exact hmoved t _ _
    | next t => exact hmoved t _ _
    | _ => exact ⟨ts, hts⟩

/-- The calls under way end, one thread after the other. -/
theorem Machine.Balanced.finish [DecidableEq T] (h : σ.Balanced law)
    (hwords : SuitsWords law σ.shared) (ts : List T) (hts : ∀ t ∉ ts, σ.locals t = .idle) :
    ∃ σ', ReflTransGen (Continues ops) σ σ' ∧ (∀ t, σ'.locals t = .idle) ∧
      SameClients law σ.shared σ'.shared := by
  induction ts generalizing σ with
  | nil => exact ⟨σ, .refl, fun t => hts t List.not_mem_nil, .refl _⟩
  | cons t ts ih =>
    obtain ⟨σ₁, -, hidle, hothers, hsteps, hsame⟩ := h.alone hwords (Pc.rank_le _ (σ.locals t))
    obtain ⟨σ', hsteps', hidle', hsame'⟩ :=
      ih (h.continues hsteps) (hwords.same hsame) fun u hu => by
        by_cases hut : u = t
        · rw [hut]
          exact hidle
        · rw [hothers u hut]
          exact hts u (by simp [hut, hu])
    exact ⟨σ', hsteps.trans hsteps', hidle', hsame.trans hsame'⟩

/-- **What was retired can be reclaimed, whatever the threads have done.**  From every reachable
state, steps in which no client calls lead to a quiet state with the same live allocations. -/
theorem reachable_drains [DecidableEq T] {init : ArenaAllocator B}
    (hinit : ∀ heap, law.Inv ⟨heap, init, 0, fun _ => [], []⟩)
    (h : Reachable ops law.held law.Suitable init σ) (hwords : SuitsWords law σ.shared) :
    ∃ σ', ReflTransGen (Continues ops) σ σ' ∧ σ'.Quiet ∧ σ'.shared.live = σ.shared.live ∧
      ∀ p, σ'.shared.retiredBytes p = σ'.shared.reclaimedBytes p ∧
        (p ∈ law.held σ'.shared.alloc.bins ↔ σ.shared.live p ≠ []) := by
  obtain ⟨ts, hts⟩ := reachable_busy h
  have hbalanced := reachable_balanced hinit h
  obtain ⟨σ₁, hsteps, hthreads, hsame⟩ := hbalanced.finish hwords ts hts
  obtain ⟨g, hshared, hworkers, -⟩ := hbalanced.continues hsteps
  have howed : Unowed T law σ₁.shared := by
    refine ⟨g, hshared, fun p t hp => ?_⟩
    have hmine := ((hworkers t).owed p).mp hp
    rw [hthreads t] at hmine
    cases hmine
  obtain ⟨s', hreclaims, hsame', howner, hpopped, hwait⟩ := howed.drain (hwords.same hsame)
  have hsteps' : ReflTransGen (Continues ops) σ₁ (σ₁.withShared s') :=
    hreclaims.lift (fun s => σ₁.withShared s) fun _ _ hstep => .owner hstep
  obtain ⟨g', hshared', -⟩ := howed.reclaims hreclaims
  have hquiet : (σ₁.withShared s').Quiet :=
    ⟨hthreads, howner, hpopped, hshared'.head_eq_zero hwait⟩
  have hlive : s'.live = σ.shared.live := (hsame.trans hsame').live
  refine ⟨σ₁.withShared s', hsteps.trans hsteps', hquiet, hlive, fun p => ?_⟩
  rw [← hlive]
  exact (hbalanced.continues (hsteps.trans hsteps')).quiet hquiet p

/-- What every call can rely on. -/
structure Machine.Answers (law : BinsLaw ops) [DecidableEq T] (σ : Machine B T) : Prop where
  /-- A thread accesses arenas of the bins only. -/
  accessed : ∀ t p, (σ.locals t).arena = some p → p ∈ law.held σ.shared.alloc.bins
  /-- Nobody accesses anything once the bins are empty. -/
  released : law.held σ.shared.alloc.bins = [] →
    (∀ t, σ.locals t = .idle) ∧ σ.shared.popped = 0 ∧ ∀ i, σ.shared.head i = 0
  /-- A thread can begin to retire every live allocation. -/
  retire : ∀ p, ∀ l ∈ σ.shared.live p, ∃ pc, startRetire ops σ.shared p l = .ok pc
  /-- No access of a thread aborts. -/
  next : ∀ t, ∃ r, (σ.locals t).next σ.shared = .ok r
  /-- A thread that runs alone makes at most five more accesses in its call. -/
  alone : ∀ t, ∃ σ', σ.alone t 5 = .ok σ' ∧ σ'.locals t = .idle
  /-- Nor does an access of the owner. -/
  ownerNext : ∃ s', σ.shared.ownerNext ops = .ok s'
  reclaimArenas : ∃ s', σ.shared.startReclaimArenas = .ok s'
  pop : σ.shared.walking ≠ 0 → ∃ s', σ.shared.pop = .ok s'
  reclaimArena : σ.shared.popped ≠ 0 → ∃ s', σ.shared.startReclaimArena ops = .ok s'

/-- **No access aborts, and each is of an arena that the bins hold.** -/
theorem reachable_answers [DecidableEq T] {init : ArenaAllocator B}
    (hinit : ∀ heap, law.Inv ⟨heap, init, 0, fun _ => [], []⟩)
    (h : Reachable ops law.held law.Suitable init σ) (hwords : SuitsWords law σ.shared) :
    σ.Answers law := by
  have hbalanced := reachable_balanced hinit h
  obtain ⟨g, hshared, hworkers, -⟩ := id hbalanced
  refine ⟨fun t p harena => hshared.accessed (hworkers t) harena,
    Machine.Guarded.of_empty ⟨g, hshared, hworkers⟩,
    fun p l hl => ⟨_, hshared.startRetire_eq hl⟩, fun t => ?_, fun t => ?_, ?_,
    hshared.startReclaimArenas_exists, fun hwalk => ?_, fun hpopped => ?_⟩
  · obtain ⟨s', pc', hnext, -⟩ := hshared.next_exists (hworkers t) hwords
    exact ⟨_, hnext⟩
  · obtain ⟨σ', hok, hidle, -⟩ := hbalanced.alone hwords (Pc.rank_le _ (σ.locals t))
    exact ⟨σ', hok, hidle⟩
  · have howner := hshared.owner
    unfold OwnerHolds at howner
    unfold RetiringArenas.ownerNext
    cases hpc : σ.shared.owner with
    | idle => exact ⟨_, rfl⟩
    | rootSwap new => exact ⟨_, rfl⟩
    | arenaSwap new =>
      rw [hpc] at howner
      obtain ⟨rfl, hpopped⟩ := howner
      exact hshared.finishReclaimArena_exists hpopped
  · obtain ⟨s', hok, -⟩ := pop_exists hwalk
    exact ⟨s', hok⟩
  · exact ⟨_, hshared.startReclaimArena_eq hpopped⟩

end RetiringArenas

end Cuw3
