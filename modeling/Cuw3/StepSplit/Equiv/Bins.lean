/-
  The step-split bins keep their representation.

  Every held arena is in one place of the entry of its alignment: the cached slot, or the list whose
  number is computed from the size that remains in it; the bits of `present_arenas` are the numbers
  of the non-empty lists; the counter is the number of held arenas (`FastArenaBins.WellFormed`).
  The operations take and put single arenas (`FastArenaBins.law`), so the invariant of runs applies:
  it holds in every state that runs of the allocator reach (`reachable_stepSplit_wellFormed`).
-/
import Cuw3.StepSplit.FastArenaStepSplitAllocator
import Cuw3.StepSplit.Equiv.Bitmap
import Cuw3.Arena.Equiv.Runs
import Cuw3.Arena.Equiv.RetireReclaim
import Cuw3.Lib.Slots

namespace Cuw3

open Lib

/-! ### The number of a bin -/

namespace FastArenaBinsInfo

/-- What `create` has checked and computed about the ranges. -/
structure Config (info : FastArenaBinsInfo) : Prop where
  alignments : info.minArenaAlignmentLog2 + info.numAlignments = info.maxArenaAlignmentLog2 + 1
  num_pos : 0 < info.numAlignments
  max_lt : info.maxArenaAlignmentLog2 < 64
  splits_le : info.numSplitsLog2 ≤ 7
  splits : info.numSplits = 2 ^ info.numSplitsLog2
  splits_le_min : info.numSplitsLog2 ≤ info.minArenaStepSizeLog2
  min_le : info.minArenaStepSizeLog2 ≤ info.maxArenaStepSizeLog2
  max_step : info.maxArenaStepSizeLog2 + 1 < 64
  stepSplits : info.numStepSplits =
    2 ^ info.numSplitsLog2 * (info.maxArenaStepSizeLog2 - info.minArenaStepSizeLog2 + 2) + 1
  stepSplits_le : info.numStepSplits ≤ stepSplitAxis
  globalMax : info.globalMaxAllocSize = 2 ^ (info.maxArenaStepSizeLog2 + 1)

variable {info : FastArenaBinsInfo} {size i alignmentId : Nat}

/-- The entry of a supported alignment. -/
theorem Config.locateAlignment_two_pow (h : info.Config) (hi : i < info.numAlignments) :
    info.locateAlignment (2 ^ (info.minArenaAlignmentLog2 + i)) = i := by
  have hnum := h.alignments
  rw [locateAlignment, intlog2_eq, Nat.log2_two_pow, if_neg (by omega)]
  omega

/-- The entry of a requested alignment has that alignment, or a larger one. -/
theorem dvd_of_locateAlignment {alignment : Nat} (h : isAlignment alignment = true)
    (hi : info.locateAlignment alignment < info.numAlignments) :
    alignment ∣ 2 ^ (info.minArenaAlignmentLog2 + info.locateAlignment alignment) := by
  obtain ⟨k, -, rfl⟩ := isAlignment_iff.mp h
  rw [locateAlignment, intlog2_eq, Nat.log2_two_pow] at hi ⊢
  split_ifs at hi ⊢ with hmax
  · exact absurd hi (Nat.lt_irrefl _)
  · exact Nat.pow_dvd_pow 2 (by omega)

/-- An alignment that has an entry and is not below the smallest one is one of them. -/
theorem eq_of_locateAlignment {alignment : Nat} (h : isAlignment alignment = true)
    (hle : 2 ^ info.minArenaAlignmentLog2 ≤ alignment)
    (hi : info.locateAlignment alignment < info.numAlignments) :
    alignment = 2 ^ (info.minArenaAlignmentLog2 + info.locateAlignment alignment) := by
  obtain ⟨k, -, rfl⟩ := isAlignment_iff.mp h
  rw [Nat.pow_le_pow_iff_right (by decide)] at hle
  rw [locateAlignment, intlog2_eq, Nat.log2_two_pow] at hi ⊢
  split_ifs at hi ⊢ with hmax
  · exact absurd hi (Nat.lt_irrefl _)
  · congr 1
    omega

theorem Config.getStep_eq (h : info.Config) (size : Nat) : ∃ stepId stepBase stepSizeLog2,
    info.getStep size = .ok (stepId, stepBase, stepSizeLog2) ∧
      stepId ≤ info.maxArenaStepSizeLog2 - info.minArenaStepSizeLog2 + 1 := by
  have hmax := h.max_step
  have hmin := h.min_le
  unfold getStep
  by_cases hlt : min (intlog2 size) info.maxArenaStepSizeLog2 < info.minArenaStepSizeLog2
  · exact ⟨_, _, _, by simp only [hlt, if_true]; rfl, by omega⟩
  · simp only [hlt, if_false, intpow2_of_lt
      (show min (intlog2 size) info.maxArenaStepSizeLog2 < 64 by
      omega), ok_bind]
    exact ⟨_, _, _, rfl, by omega⟩

/-- The bin of an arena exists, whatever remains in it. -/
theorem Config.locateStepSplitArena_eq (h : info.Config) (size : Nat) :
    ∃ i, info.locateStepSplitArena size = .ok i ∧ i < info.numStepSplits := by
  obtain ⟨stepId, stepBase, stepSizeLog2, hstep, hle⟩ := h.getStep_eq size
  have hmax := h.max_step
  have hsplits := h.splits
  have hpow : 2 ^ info.numSplitsLog2 ≤ 2 ^ 7 := Nat.pow_le_pow_right (by decide) h.splits_le
  have hmul : stepId * 2 ^ info.numSplitsLog2 ≤
      (info.maxArenaStepSizeLog2 - info.minArenaStepSizeLog2 + 1) * 2 ^ info.numSplitsLog2 :=
    Nat.mul_le_mul_right _ hle
  have hbound : (info.maxArenaStepSizeLog2 - info.minArenaStepSizeLog2 + 1) *
      2 ^ info.numSplitsLog2 ≤ 64 * 2 ^ 7 := Nat.mul_le_mul (by omega) hpow
  have htotal : info.numStepSplits = (info.maxArenaStepSizeLog2 - info.minArenaStepSizeLog2 + 1) *
      2 ^ info.numSplitsLog2 + 2 ^ info.numSplitsLog2 + 1 := by
    rw [h.stepSplits]
    ring
  obtain ⟨splitId, hsplit⟩ : ∃ splitId, splitId = min (divpow2 (mulpow2 (sub64 (u64 (size + 0))
    stepBase) info.numSplitsLog2) stepSizeLog2) info.numSplits := ⟨_, rfl⟩
  have hsplitLe : splitId ≤ 2 ^ info.numSplitsLog2 := by omega
  have hid : u64 (mulpow2 stepId info.numSplitsLog2 + splitId) =
      stepId * 2 ^ info.numSplitsLog2 + splitId := by
    rw [mulpow2_of_lt (by omega), u64_of_lt (by omega)]
  have hlt : stepId * 2 ^ info.numSplitsLog2 + splitId < info.numStepSplits := by omega
  refine ⟨stepId * 2 ^ info.numSplitsLog2 + splitId, ?_, hlt⟩
  simp only [locateStepSplitArena, getStepSplitInfo, hstep, ok_bind, Bool.false_eq_true, if_false]
  change (do
    let info₁ ← (do
      check (u64 (mulpow2 stepId info.numSplitsLog2 + min (divpow2 (mulpow2 (sub64 (u64 (size + 0))
        stepBase) info.numSplitsLog2) stepSizeLog2) info.numSplits) < info.numStepSplits) _
      _ : Checked FastArenaStepSplitInfo)
    _) = _
  rw [← hsplit, hid, check_of hlt]
  rfl

theorem Config.locateStepSplitArenaClamped_eq (h : info.Config)
    (hid : alignmentId < info.numAlignments)
    (size : Nat) : ∃ i, info.locateStepSplitArenaClamped alignmentId size = .ok i ∧
      i < info.numStepSplits ∧ (i = 0 ∨ info.minStepSplitId alignmentId ≤ i) := by
  obtain ⟨i, hi, hlt⟩ := h.locateStepSplitArena_eq size
  have hcheck : info.checkAlignmentId alignmentId = true := decide_eq_true hid
  simp only [locateStepSplitArenaClamped, check_of hcheck, hi, ok_bind]
  split_ifs with hmin
  · exact ⟨0, rfl, by omega, .inl rfl⟩
  · exact ⟨i, rfl, hlt, .inr (not_lt.mp hmin)⟩

end FastArenaBinsInfo

/-! ### The entry of one alignment -/

namespace FastArenaStepSplitEntry

/-- The arenas of an entry. -/
def held (entry : FastArenaStepSplitEntry) : List Nat :=
  (if entry.cachedArena = 0 then [] else [entry.cachedArena]) ++ slots (List.range stepSplitAxis)
  entry.arenas

/-- What the entry of an alignment asks of its arenas. -/
structure Member (info : FastArenaBinsInfo) (id : Nat) (arena : FastArena) : Prop
    extends FastArena.Shaped arena where
  type : arena.type = RegionChunkType.fastArenaStepSplitAllocator.val
  alignment_eq : arena.arenaAlignment = 2 ^ (info.minArenaAlignmentLog2 + id)
  large : info.minAllocSize id ≤ arena.arenaMemorySize

structure WellFormed (heap : Heap) (info : FastArenaBinsInfo) (id : Nat)
    (entry : FastArenaStepSplitEntry) : Prop where
  alignment_eq : entry.alignment = 2 ^ (info.minArenaAlignmentLog2 + id)
  bins_eq : entry.numStepSplitBins = info.numStepSplits
  minId_eq : entry.minStepSplitId = info.minStepSplitId id
  minSize_eq : entry.minAllocSize = info.minAllocSize id
  member : ∀ p ∈ entry.held, (0 < p ∧ p < 2 ^ 64) ∧ Member info id (heap p)
  cached : entry.cachedArena ≠ 0 → (heap entry.cachedArena).linked = false
  listed : ∀ i, ∀ p ∈ entry.arenas i, i < stepSplitAxis ∧ (heap p).linked = true ∧
    info.locateStepSplitArenaClamped id (heap p).room = .ok i
  wordSized : entry.presentArenas.WordSized
  present : ∀ i < stepSplitAxis, entry.presentArenas.testBit i = !(entry.arenas i).isEmpty

variable {heap heap' : Heap} {info : FastArenaBinsInfo} {id size p i : Nat}
  {entry entry' : FastArenaStepSplitEntry} {r : AcquiredResource}

theorem mem_held (h : entry.WellFormed heap info id) {q : Nat} :
    q ∈ entry.held ↔ (q = entry.cachedArena ∧ q ≠ 0) ∨ ∃ i, q ∈ entry.arenas i := by
  have hlists : q ∈ slots (List.range stepSplitAxis) entry.arenas ↔ ∃ i, q ∈ entry.arenas i := by
    rw [mem_slots]
    exact ⟨fun ⟨i, _, hq⟩ => ⟨i, hq⟩,
      fun ⟨i, hq⟩ => ⟨i, List.mem_range.mpr (h.listed i q hq).1, hq⟩⟩
  rw [held, List.mem_append, hlists]
  refine or_congr_left ?_
  by_cases hzero : entry.cachedArena = 0
  · simp only [hzero, if_true, List.not_mem_nil, false_iff]
    exact fun ⟨heq, hne⟩ => hne heq
  · simp only [hzero, if_false, List.mem_singleton]
    exact ⟨fun heq => ⟨heq, heq ▸ hzero⟩, fun heq => heq.1⟩

/-- The cached arena and the arenas in the lists. -/
theorem held_of_ne_zero (h : entry.cachedArena ≠ 0) :
    entry.held = entry.cachedArena :: slots (List.range stepSplitAxis) entry.arenas := by
  rw [held, if_neg h, List.singleton_append]

theorem held_of_zero (h : entry.cachedArena = 0) :
    entry.held = slots (List.range stepSplitAxis) entry.arenas := by
  rw [held, if_pos h, List.nil_append]

theorem WellFormed.congr (h : entry.WellFormed heap info id)
    (hsame : ∀ p ∈ entry.held, (heap p).SameShape (heap' p) ∧ (heap p).SameBlock (heap' p)) :
    entry.WellFormed heap' info id where
  alignment_eq := h.alignment_eq
  bins_eq := h.bins_eq
  minId_eq := h.minId_eq
  minSize_eq := h.minSize_eq
  member q hq := by
    obtain ⟨hshape, hblock⟩ := hsame q hq
    obtain ⟨hbound, hmember⟩ := h.member q hq
    refine ⟨hbound, hmember.toShaped.of_shape hshape hblock.memory, ?_, ?_, ?_⟩
    · rw [FastArena.type, hblock.header]
      exact hmember.type
    · rw [hblock.alignment]
      exact hmember.alignment_eq
    · rw [hblock.size]
      exact hmember.large
  cached hzero := by
    rw [(hsame _ ((mem_held h).mpr (.inl ⟨rfl, hzero⟩))).1.linked]
    exact h.cached hzero
  listed i q hq := by
    obtain ⟨hi, hlinked, hlocate⟩ := h.listed i q hq
    obtain ⟨hshape, -⟩ := hsame q ((mem_held h).mpr (.inr ⟨i, hq⟩))
    refine ⟨hi, hshape.linked.trans hlinked, ?_⟩
    rwa [FastArena.room, hshape.size, hshape.top]
  wordSized := h.wordSized
  present := h.present

/-- Writing the list entry of an arena elsewhere does not matter. -/
theorem WellFormed.setLinked (h : entry.WellFormed heap info id) (hp : p ∉ entry.held)
    (linked : Bool) : entry.WellFormed (setLinked heap p linked) info id := by
  refine h.congr fun q hq => ?_
  rw [FastArenaStepSplitEntry.setLinked, Function.update_of_ne (ne_of_mem_of_not_mem hq hp)]
  exact ⟨⟨rfl, rfl, rfl, rfl, rfl⟩, .refl _⟩

/-- An arena keeps being a member when its list entry is written. -/
theorem Member.setLinked (h : Member info id (heap p)) (linked : Bool) :
    Member info id (setLinked heap p linked p) := by
  rw [FastArenaStepSplitEntry.setLinked, Function.update_self]
  exact ⟨⟨⟨h.isAlignment, h.min_le, h.size_dvd, h.memory_dvd, h.memory_pos, h.bound⟩, h.top_dvd,
    h.top_le⟩, h.type, h.alignment_eq, h.large⟩

/-- The bit of a list that was changed follows the list. -/
theorem unsetIfEmpty_spec (entry : FastArenaStepSplitEntry) (hi : i < stepSplitAxis)
    (hw : entry.presentArenas.WordSized)
    (hbit : entry.presentArenas.testBit i = true)
    (hothers : ∀ j < stepSplitAxis, j ≠ i →
      entry.presentArenas.testBit j = !(entry.arenas j).isEmpty) :
    ∃ presentArenas, entry.unsetIfEmpty i = .ok { entry with presentArenas } ∧
      presentArenas.WordSized ∧
      ∀ j < stepSplitAxis, presentArenas.testBit j = !(entry.arenas j).isEmpty := by
  by_cases hempty : (entry.arenas i).isEmpty = true
  · obtain ⟨presentArenas, hunset, hw', hbits⟩ := Bitmap.unset_eq hi hw
    refine ⟨presentArenas, by simp only [unsetIfEmpty, hempty, if_true, hunset, ok_bind]; rfl, hw',
      fun j hj => ?_⟩
    rw [hbits]
    by_cases hji : j = i
    · subst hji
      simp [hempty]
    · rw [hothers j hj hji]
      simp [hji]
  · refine ⟨entry.presentArenas, by simp only [unsetIfEmpty, hempty]; rfl, hw,
      fun j hj => ?_⟩
    by_cases hji : j = i
    · subst hji
      simpa [hbit] using hempty
    · exact hothers j hj hji

/-- An arena is taken out of its list. -/
theorem WellFormed.take (h : entry.WellFormed heap info id) (hnodup : entry.held.Nodup)
    {rest : List Nat} (hperm : (p :: rest).Perm (entry.arenas i)) :
    ∃ entry', unsetIfEmpty { entry with arenas := Function.update entry.arenas i rest } i =
        .ok entry' ∧ entry'.WellFormed (FastArenaStepSplitEntry.setLinked heap p false) info id ∧
      (p :: entry'.held).Perm entry.held := by
  have hp : p ∈ entry.arenas i := hperm.subset List.mem_cons_self
  have hi := (h.listed i p hp).1
  have hbit : entry.presentArenas.testBit i = true := by
    rw [h.present i hi, Bool.not_eq_true', List.isEmpty_eq_false_iff]
    exact List.ne_nil_of_mem hp
  obtain ⟨presentArenas, hunset, hw, hpresent⟩ := unsetIfEmpty_spec
    { entry with arenas := Function.update entry.arenas i rest } hi h.wordSized hbit
    fun j hj hji => by
      dsimp only
      rw [Function.update_of_ne hji]
      exact h.present j hj
  have hslots : (p :: slots (List.range stepSplitAxis) (Function.update entry.arenas i rest)).Perm
      (slots (List.range stepSplitAxis) entry.arenas) := slots_take List.nodup_range
      (List.mem_range.mpr hi) hperm
  have hheld : (p :: held { entry with
      arenas := Function.update entry.arenas i rest, presentArenas }).Perm entry.held := by
    simp only [held]
    exact List.perm_middle.symm.trans (hslots.append_left _)
  have hsub : ∀ j, ∀ q ∈ Function.update entry.arenas i rest j, q ∈ entry.arenas j := by
    intro j q hq
    by_cases hji : j = i
    · subst hji
      rw [Function.update_self] at hq
      exact hperm.subset (List.mem_cons_of_mem _ hq)
    · rwa [Function.update_of_ne hji] at hq
  refine ⟨_, hunset, WellFormed.setLinked ?_ ?_ false, hheld⟩
  · refine ⟨h.alignment_eq, h.bins_eq, h.minId_eq, h.minSize_eq, fun q hq => ?_, h.cached,
      fun j q hq => h.listed j q (hsub j q hq), hw, hpresent⟩
    exact h.member q (hheld.subset (List.mem_cons_of_mem _ hq))
  · exact (List.nodup_cons.mp (hheld.nodup_iff.mpr hnodup)).1

/-- The cached arena leaves. -/
theorem WellFormed.takeCached (h : entry.WellFormed heap info id)
    (hcached : entry.cachedArena ≠ 0) :
    WellFormed heap info id { entry with cachedArena := 0 } ∧
      (entry.cachedArena :: held { entry with cachedArena := 0 }).Perm entry.held := by
  have hperm : (entry.cachedArena :: held { entry with cachedArena := 0 }).Perm entry.held := by
    rw [held_of_ne_zero hcached, held_of_zero rfl]
  refine ⟨⟨h.alignment_eq, h.bins_eq, h.minId_eq, h.minSize_eq, fun q hq => ?_,
    fun hne => absurd rfl hne, h.listed, h.wordSized, h.present⟩, hperm⟩
  exact h.member q (hperm.subset (List.mem_cons_of_mem _ hq))

/-- An arena becomes the cached one. -/
theorem WellFormed.putCached (h : entry.WellFormed heap info id) (hcached : entry.cachedArena = 0)
    (hp : (0 < p ∧ p < 2 ^ 64) ∧ Member info id (heap p)) (hlinked : (heap p).linked = false) :
    WellFormed heap info id { entry with cachedArena := p } ∧
      (held { entry with cachedArena := p }).Perm (p :: entry.held) := by
  have hperm : (held { entry with cachedArena := p }).Perm (p :: entry.held) := by
    rw [held_of_ne_zero (Nat.pos_iff_ne_zero.mp hp.1.1), held_of_zero hcached]
  refine ⟨⟨h.alignment_eq, h.bins_eq, h.minId_eq, h.minSize_eq, fun q hq => ?_, fun _ => hlinked,
    h.listed, h.wordSized, h.present⟩, hperm⟩
  rcases List.mem_cons.mp (hperm.subset hq) with rfl | hq
  · exact hp
  · exact h.member q hq

/-- What acquiring from an entry returns: an arena of the entry, now in no list, or none. -/
def Acquired (heap heap' : Heap) (entry entry' : FastArenaStepSplitEntry) :
    AcquiredResource → Prop
  | .acquired p => (p :: entry'.held).Perm entry.held ∧ heap' = setLinked heap p false
  | .noResource => entry'.held.Perm entry.held ∧ heap' = heap
  | .failed => False

/-- Clearing the list entry of an arena that is in no list changes nothing. -/
theorem setLinked_eq_self (h : (heap p).linked = false) : setLinked heap p false = heap := by
  rw [setLinked, ← h]
  exact Function.update_eq_self p heap

theorem WellFormed.acquireCachedArena (h : entry.WellFormed heap info id)
    (hok : entry.acquireCachedArena heap size = .ok (r, entry')) :
    (r = .noResource ∧ entry' = entry) ∨
      (r = .acquired entry.cachedArena ∧ entry'.WellFormed heap info id ∧
        Acquired heap heap entry entry' r) := by
  simp only [FastArenaStepSplitEntry.acquireCachedArena, bind_eq_ok, assert_eq_ok,
    exists_const] at hok
  obtain ⟨-, -, -, hok⟩ := hok
  split_ifs at hok with hcached
  · simp only [pure_eq_ok, Prod.mk.injEq] at hok
    exact .inl ⟨hok.1.symm, hok.2.symm⟩
  · simp only [bind_eq_ok] at hok
    obtain ⟨can, -, hok⟩ := hok
    split_ifs at hok with hcan
    · simp only [pure_eq_ok, Prod.mk.injEq] at hok
      obtain ⟨rfl, rfl⟩ := hok
      obtain ⟨hwf, hperm⟩ := h.takeCached hcached
      exact .inr ⟨rfl, hwf, hperm, (setLinked_eq_self (h.cached hcached)).symm⟩
    · simp only [pure_eq_ok, Prod.mk.injEq] at hok
      exact .inl ⟨hok.1.symm, hok.2.symm⟩

theorem WellFormed.acquireBinArena (h : entry.WellFormed heap info id) (hinfo : info.Config)
    (hnodup : entry.held.Nodup)
    (hok : entry.acquireBinArena heap i size = .ok (r, heap', entry')) :
    entry'.WellFormed heap' info id ∧ Acquired heap heap' entry entry' r := by
  simp only [FastArenaStepSplitEntry.acquireBinArena, bind_eq_ok, assert_eq_ok,
    exists_const] at hok
  obtain ⟨-, -, -, ⟨-, hi⟩, found, hfound, hok⟩ := hok
  have hstart : i < stepSplitAxis := by
    have hle := hinfo.stepSplits_le
    rw [h.bins_eq] at hi
    omega
  obtain ⟨found', hfound', hfirst⟩ := Bitmap.getFirstSet_spec (by decide) h.wordSized hstart
  obtain rfl : found = found' := Except.ok.inj (hfound.symm.trans hfound')
  split_ifs at hok with hnull
  · simp only [pure_eq_ok, Prod.mk.injEq] at hok
    obtain ⟨rfl, rfl, rfl⟩ := hok
    exact ⟨h, .refl _, rfl⟩
  cases hlist : entry.arenas found with
  | nil =>
    simp only [hlist] at hok
    exact absurd hok abortCritical_ne_ok
  | cons arena rest =>
    obtain ⟨entry₁, htake, hwf, hperm⟩ := h.take (i := found) hnodup (by rw [hlist])
    simp only [hlist, htake, ok_bind, bind_eq_ok, check_eq_ok, pure_eq_ok, Prod.mk.injEq] at hok
    obtain ⟨-, -, -, -, rfl, rfl, rfl⟩ := hok
    exact ⟨hwf, hperm, rfl⟩

/-- An arena becomes the cached one, or it or the old cached one is left over for the lists. -/
theorem WellFormed.tryUpdateCachedArena (h : entry.WellFormed heap info id)
    (hp : (0 < p ∧ p < 2 ^ 64) ∧ Member info id (heap p)) (hlinked : (heap p).linked = false) :
    ∃ q entry', entry.tryUpdateCachedArena heap p = .ok (q, entry') ∧
      entry'.WellFormed heap info id ∧
      ((q = 0 ∧ entry'.held.Perm (p :: entry.held)) ∨
        ((q = p ∨ q ∈ entry.held) ∧ (q :: entry'.held).Perm (p :: entry.held) ∧
          (0 < q ∧ q < 2 ^ 64) ∧ Member info id (heap q) ∧ (heap q).linked = false)) := by
  have hp0 : p ≠ 0 := Nat.pos_iff_ne_zero.mp hp.1.1
  simp only [FastArenaStepSplitEntry.tryUpdateCachedArena, assert_of hp0, ok_bind]
  by_cases hcached : entry.cachedArena = 0
  · obtain ⟨hwf, hperm⟩ := h.putCached hcached hp hlinked
    exact ⟨0, _, by simp only [hcached, if_true]; rfl, hwf, .inl ⟨rfl, hperm⟩⟩
  have hmem : entry.cachedArena ∈ entry.held := (mem_held h).mpr (.inl ⟨rfl, hcached⟩)
  obtain ⟨hbound, hmember⟩ := h.member _ hmem
  simp only [hcached, if_false, hmember.remaining_eq, hp.2.remaining_eq, ok_bind]
  split_ifs with hbigger
  · obtain ⟨hwf, hperm⟩ := h.takeCached hcached
    obtain ⟨hwf', hperm'⟩ := hwf.putCached rfl hp hlinked
    refine ⟨_, _, rfl, hwf', .inr ⟨.inr hmem, ?_, hbound, hmember, h.cached hcached⟩⟩
    exact (hperm'.cons _).trans ((List.Perm.swap _ _ _).trans (hperm.cons _))
  · exact ⟨p, entry, rfl, h, .inr ⟨.inl rfl, .refl _, hp.1, hp.2, hlinked⟩⟩

/-- An arena goes into the list of its remaining size. -/
theorem WellFormed.putArena (h : entry.WellFormed heap info id) (hinfo : info.Config)
    (hp : (0 < p ∧ p < 2 ^ 64) ∧ Member info id (heap p)) (hlinked : (heap p).linked = false)
    (hnot : p ∉ entry.held) (hlocate : info.locateStepSplitArenaClamped id (heap p).room = .ok i)
    (hi : i < info.numStepSplits) (hmin : i = 0 ∨ info.minStepSplitId id ≤ i) :
    ∃ entry', entry.putArena heap p i =
      .ok (FastArenaStepSplitEntry.setLinked heap p true, entry') ∧
      entry'.WellFormed (FastArenaStepSplitEntry.setLinked heap p true) info id ∧
      entry'.held.Perm (p :: entry.held) := by
  have hp0 : p ≠ 0 := Nat.pos_iff_ne_zero.mp hp.1.1
  have hrange : i = 0 ∨ entry.minStepSplitId ≤ i ∧ i < entry.numStepSplitBins := by
    rw [h.minId_eq, h.bins_eq]
    exact hmin.imp_right fun hle => ⟨hle, hi⟩
  have hfree : (!(heap p).inList) = true := by rw [FastArena.inList, hlinked, Bool.not_false]
  have haxis : i < stepSplitAxis := lt_of_lt_of_le hi hinfo.stepSplits_le
  have hslots : (slots (List.range stepSplitAxis)
      (Function.update entry.arenas i (p :: entry.arenas i))).Perm
      (p :: slots (List.range stepSplitAxis) entry.arenas) := slots_push List.nodup_range
      (List.mem_range.mpr haxis) (.refl _)
  -- the bit of the list is set, whether it was empty or not
  obtain ⟨presentArenas, hput, hw, hbits⟩ : ∃ presentArenas,
      entry.putArena heap p i = .ok (FastArenaStepSplitEntry.setLinked heap p true, { entry with
        arenas := Function.update entry.arenas i (p :: entry.arenas i), presentArenas }) ∧
      presentArenas.WordSized ∧ ∀ j < stepSplitAxis, presentArenas.testBit j =
        (decide (j = i) || entry.presentArenas.testBit j) := by
    simp only [FastArenaStepSplitEntry.putArena, assert_of hp0, assert_of hrange, check_of hfree,
      ok_bind]
    split_ifs with hempty
    · obtain ⟨presentArenas, hset, hw, hbits⟩ := Bitmap.set_eq haxis h.wordSized
      exact ⟨presentArenas, by simp only [hset, ok_bind]; rfl, hw, fun j _ => hbits j⟩
    · refine ⟨entry.presentArenas, rfl, h.wordSized, fun j hj => ?_⟩
      by_cases hji : j = i
      · subst hji
        rw [h.present j hj]
        simpa using hempty
      · simp [hji]
  have hheld : (held { entry with
      arenas := Function.update entry.arenas i (p :: entry.arenas i), presentArenas }).Perm
      (p :: entry.held) := by
    simp only [held]
    exact (hslots.append_left _).trans List.perm_middle
  refine ⟨_, hput, ?_, hheld⟩
  have hself : FastArenaStepSplitEntry.setLinked heap p true p = { heap p with linked := true } :=
    Function.update_self _ _ _
  have hother : ∀ q ∈ entry.held, FastArenaStepSplitEntry.setLinked heap p true q = heap q :=
    fun q hq => Function.update_of_ne (ne_of_mem_of_not_mem hq hnot) _ _
  refine ⟨h.alignment_eq, h.bins_eq, h.minId_eq, h.minSize_eq, fun q hq => ?_, fun hne => ?_,
    fun j q hq => ?_, hw, fun j hj => ?_⟩
  · rcases List.mem_cons.mp (hheld.subset hq) with rfl | hq
    · exact ⟨hp.1, hp.2.setLinked true⟩
    · rw [hother q hq]
      exact h.member q hq
  · rw [hother _ ((mem_held h).mpr (.inl ⟨rfl, hne⟩))]
    exact h.cached hne
  · have hcase : (q = p ∧ j = i) ∨ q ∈ entry.arenas j := by
      by_cases hji : j = i
      · subst hji
        simp only [Function.update_self, List.mem_cons] at hq
        exact hq.imp_left fun heq => ⟨heq, rfl⟩
      · simp only [Function.update_of_ne hji] at hq
        exact .inr hq
    rcases hcase with ⟨rfl, rfl⟩ | hq
    · rw [hself]
      exact ⟨haxis, rfl, hlocate⟩
    · rw [hother q ((mem_held h).mpr (.inr ⟨j, hq⟩))]
      exact h.listed j q hq
  · dsimp only
    rw [hbits j hj]
    by_cases hji : j = i
    · subst hji
      simp
    · rw [Function.update_of_ne hji, h.present j hj]
      simp [hji]

theorem tryExtractCachedArena_eq (hp : p ≠ 0) : entry.tryExtractCachedArena p =
    .ok (if p = entry.cachedArena then (true, { entry with cachedArena := 0 }) else (false,
      entry)) := by
  simp only [tryExtractCachedArena, assert_of hp, ok_bind]
  split_ifs <;> rfl

/-- An arena is taken out of the list of its remaining size. -/
theorem WellFormed.tryExtractBinArena (h : entry.WellFormed heap info id)
    (hnodup : entry.held.Nodup) (hp : p ∈ entry.arenas i)
    (hmin : i = 0 ∨ info.minStepSplitId id ≤ i) (hi : i < info.numStepSplits) :
    ∃ entry', entry.tryExtractBinArena heap p i =
        .ok (true, FastArenaStepSplitEntry.setLinked heap p false, entry') ∧
      entry'.WellFormed (FastArenaStepSplitEntry.setLinked heap p false) info id ∧
      (p :: entry'.held).Perm entry.held := by
  obtain ⟨⟨hpos, -⟩, -⟩ := h.member p ((mem_held h).mpr (.inr ⟨i, hp⟩))
  have hp0 : p ≠ 0 := Nat.pos_iff_ne_zero.mp hpos
  obtain ⟨haxis, hlinked, hlocate⟩ := h.listed i p hp
  have hrange : i = 0 ∨ entry.minStepSplitId ≤ i ∧ i < entry.numStepSplitBins := by
    rw [h.minId_eq, h.bins_eq]
    exact hmin.imp_right fun hle => ⟨hle, hi⟩
  have hnonempty : (!(entry.arenas i).isEmpty) = true := by
    rw [Bool.not_eq_true', List.isEmpty_eq_false_iff]
    exact List.ne_nil_of_mem hp
  -- the arena is in no other list
  have harenas : (fun j => (entry.arenas j).erase p) =
      Function.update entry.arenas i ((entry.arenas i).erase p) := by
    funext j
    by_cases hji : j = i
    · subst hji
      rw [Function.update_self]
    · rw [Function.update_of_ne hji, List.erase_of_not_mem fun hj => ?_]
      exact hji (Except.ok.inj ((h.listed j p hj).2.2.symm.trans hlocate))
  obtain ⟨entry', htake, hwf, hperm⟩ := h.take hnodup (List.perm_cons_erase hp).symm
  refine ⟨entry', ?_, hwf, hperm⟩
  simp only [FastArenaStepSplitEntry.tryExtractBinArena, assert_of hp0, assert_of hrange,
    FastArena.inList, hlinked, check_of hnonempty, Bool.not_true, Bool.false_eq_true, if_false,
    ok_bind, harenas, htake]
  rfl

end FastArenaStepSplitEntry

/-! ### The bins of all alignments -/

namespace FastArenaBins

open FastArenaStepSplitEntry (setLinked Member)

/-- All held arenas. -/
def held (bins : FastArenaBins) : List Nat :=
  slots (List.range bins.binsInfo.numAlignments) fun i => (bins.stepSplitEntries i).held

/-- The bins take step-split arenas of the configured alignments that are large enough. -/
def Suitable (bins : FastArenaBins) (arena : FastArena) : Prop :=
  arena.type = RegionChunkType.fastArenaStepSplitAllocator.val ∧
    ∃ i < bins.binsInfo.numAlignments,
      arena.arenaAlignment = 2 ^ (bins.binsInfo.minArenaAlignmentLog2 + i) ∧
      bins.binsInfo.minAllocSize i ≤ arena.arenaMemorySize

/-- The representation of the bins. -/
structure WellFormed (heap : Heap) (bins : FastArenaBins) : Prop where
  config : bins.binsInfo.Config
  entry : ∀ i < bins.binsInfo.numAlignments,
    (bins.stepSplitEntries i).WellFormed heap bins.binsInfo i
  nodup : bins.held.Nodup
  total : bins.totalArenas = bins.held.length

variable {heap heap' : Heap} {size alignment p i : Nat} {bins bins' : FastArenaBins}
  {r : AcquiredResource}

theorem suitable_congr (h : bins'.binsInfo = bins.binsInfo) : bins'.Suitable = bins.Suitable := by
  funext arena
  rw [Suitable, Suitable, h]

theorem mem_held : p ∈ bins.held ↔
    ∃ i < bins.binsInfo.numAlignments, p ∈ (bins.stepSplitEntries i).held := by
  simp [held]

theorem WellFormed.nodup_entry (h : bins.WellFormed heap) (hi : i < bins.binsInfo.numAlignments) :
    (bins.stepSplitEntries i).held.Nodup :=
  slots_nodup_part (f := fun i => (bins.stepSplitEntries i).held) h.nodup (List.mem_range.mpr hi)

theorem held_withEntry_fun (entry : FastArenaStepSplitEntry) :
    (fun j => ((bins.withEntry i entry).stepSplitEntries j).held) =
      Function.update (fun j => (bins.stepSplitEntries j).held) i entry.held :=
  funext fun j =>
    Function.apply_update (fun _ => FastArenaStepSplitEntry.held) bins.stepSplitEntries i entry j

theorem held_withEntry {entry : FastArenaStepSplitEntry} (ps qs : List Nat)
    (hi : i < bins.binsInfo.numAlignments)
    (hperm : (ps ++ entry.held).Perm (qs ++ (bins.stepSplitEntries i).held)) :
    (ps ++ (bins.withEntry i entry).held).Perm (qs ++ bins.held) := by
  change (ps ++ slots (List.range bins.binsInfo.numAlignments) _).Perm _
  rw [held_withEntry_fun]
  exact slots_update_perm ps qs List.nodup_range (List.mem_range.mpr hi) hperm

/-- Only the list entries of arenas of entry `i` were written. -/
theorem WellFormed.other (h : bins.WellFormed heap) {j : Nat}
    (hi : i < bins.binsInfo.numAlignments) (hj : j < bins.binsInfo.numAlignments) (hji : j ≠ i)
    (hheap : ∀ q, q ∉ (bins.stepSplitEntries i).held → q ∈ bins.held → heap' q = heap q) :
    (bins.stepSplitEntries j).WellFormed heap' bins.binsInfo j :=
  (h.entry j hj).congr fun q hq => by
    have hqi : q ∉ (bins.stepSplitEntries i).held := fun hqi =>
      hji (slots_unique (f := fun i => (bins.stepSplitEntries i).held) List.nodup_range h.nodup
        (List.mem_range.mpr hj) (List.mem_range.mpr hi) hq hqi)
    rw [hheap q hqi (mem_held.mpr ⟨j, hj, hq⟩)]
    exact ⟨⟨rfl, rfl, rfl, rfl, rfl⟩, .refl _⟩

/-- One entry was changed, and the counter follows the number of held arenas. -/
theorem WellFormed.withEntry (h : bins.WellFormed heap) {entry : FastArenaStepSplitEntry}
    {total : Nat} (hi : i < bins.binsInfo.numAlignments)
    (hheap : ∀ q, q ∉ (bins.stepSplitEntries i).held → q ∈ bins.held → heap' q = heap q)
    (hentry : entry.WellFormed heap' bins.binsInfo i) (hnodup : (bins.withEntry i entry).held.Nodup)
    (htotal : total = (bins.withEntry i entry).held.length) :
    WellFormed heap' { bins.withEntry i entry with totalArenas := total } where
  config := h.config
  entry j hj := by
    change (Function.update bins.stepSplitEntries i entry j).WellFormed heap' bins.binsInfo j
    by_cases hji : j = i
    · subst hji
      rwa [Function.update_self]
    · rw [Function.update_of_ne hji]
      exact h.other hi hj hji hheap
  nodup := hnodup
  total := htotal

/-- Writing the list entry of an arena of entry `i`, or of one that is not held, leaves the others.
-/
theorem setLinked_eq_other (hp : p ∈ (bins.stepSplitEntries i).held ∨ p ∉ bins.held) (linked : Bool)
    (q : Nat) (hq : q ∉ (bins.stepSplitEntries i).held) (hheld : q ∈ bins.held) :
    setLinked heap p linked q = heap q := by
  refine Function.update_of_ne ?_ _ _
  rintro rfl
  exact hp.elim hq fun h => h hheld

/-- What acquiring from entry `i` of the bins returns: one of its arenas, now in no list, or none.
-/
def Acquired (heap heap' : Heap) (bins bins' : FastArenaBins) (i : Nat) : AcquiredResource → Prop
  | .acquired p => (p :: bins'.held).Perm bins.held ∧ p ∈ (bins.stepSplitEntries i).held ∧
      heap' = setLinked heap p false
  | _ => bins'.held.Perm bins.held ∧ heap' = heap

/-- An entry of the bins was acquired from, before the counter is changed. -/
theorem WellFormed.acquireArenaFrom (h : bins.WellFormed heap)
    (hok : bins.acquireArenaFrom heap size i = .ok (r, heap', bins')) :
    i < bins.binsInfo.numAlignments ∧ ∃ entry', bins' = bins.withEntry i entry' ∧
      entry'.WellFormed heap' bins.binsInfo i ∧
      FastArenaStepSplitEntry.Acquired heap heap' (bins.stepSplitEntries i) entry' r := by
  simp only [FastArenaBins.acquireArenaFrom, bind_eq_ok, assert_eq_ok, exists_const, Prod.exists]
    at hok
  obtain ⟨hcheck, r₁, entry₁, hcached, hok⟩ := hok
  have hi : i < bins.binsInfo.numAlignments := of_decide_eq_true hcheck
  refine ⟨hi, ?_⟩
  rcases (h.entry i hi).acquireCachedArena hcached with ⟨rfl, rfl⟩ | ⟨rfl, hwf, hacquired⟩
  · simp only [ne_eq, not_true_eq_false, if_false, bind_eq_ok, Prod.exists, pure_eq_ok,
      Prod.mk.injEq] at hok
    obtain ⟨stepSplitId, -, r₂, heap₂, entry₂, hbin, rfl, rfl, rfl⟩ := hok
    exact ⟨entry₂, rfl, (h.entry i hi).acquireBinArena h.config (h.nodup_entry hi) hbin⟩
  · simp only [ne_eq, reduceCtorEq, not_false_eq_true, if_true, pure_eq_ok, Prod.mk.injEq] at hok
    obtain ⟨rfl, rfl, rfl⟩ := hok
    exact ⟨entry₁, rfl, hwf, hacquired⟩

/-- The request is for a configured alignment, and for at most the maximal size. -/
def Accepts (bins : FastArenaBins) (size alignment : Nat) : Prop :=
  bins.binsInfo.locateAlignment alignment < bins.binsInfo.numAlignments ∧
    ∃ sizeAligned, align size alignment = .ok sizeAligned ∧
      sizeAligned ≤ bins.binsInfo.globalMaxAllocSize

/-- `acquire_arena` takes an arena out of the bins, or none. -/
theorem WellFormed.acquireArena (h : bins.WellFormed heap)
    (hok : bins.acquireArena heap size alignment = .ok (r, heap', bins')) :
    bins'.WellFormed heap' ∧ bins'.binsInfo = bins.binsInfo ∧
      Acquired heap heap' bins bins' (bins.binsInfo.locateAlignment alignment) r ∧
      (r = .failed ∨ bins.Accepts size alignment) := by
  have hnone : pure (AcquiredResource.failed, heap, bins) = (.ok (r, heap', bins') : Checked _) →
      bins'.WellFormed heap' ∧ bins'.binsInfo = bins.binsInfo ∧
        Acquired heap heap' bins bins' (bins.binsInfo.locateAlignment alignment) r ∧
        (r = .failed ∨ bins.Accepts size alignment) := by
    intro heq
    simp only [pure_eq_ok, Prod.mk.injEq] at heq
    obtain ⟨rfl, rfl, rfl⟩ := heq
    exact ⟨h, rfl, ⟨.refl _, rfl⟩, .inl rfl⟩
  unfold FastArenaBins.acquireArena at hok
  dsimp only at hok
  split_ifs at hok
  · exact hnone hok
  simp only [bind_eq_ok] at hok
  obtain ⟨sizeAligned, halign, can, hcan, hok⟩ := hok
  split_ifs at hok with hfits
  · exact hnone hok
  simp only [bind_eq_ok, Prod.exists] at hok
  obtain ⟨r₁, heap₁, bins₁, hfrom, hok⟩ := hok
  obtain ⟨hi, entry', rfl, hwf, hacquired⟩ := h.acquireArenaFrom hfrom
  have haccepts : bins.Accepts size alignment := by
    refine ⟨hi, sizeAligned, halign, ?_⟩
    simp only [FastArenaBinsInfo.canAllocateAligned, bind_eq_ok, assert_eq_ok, exists_const,
      pure_eq_ok] at hcan
    obtain ⟨-, _, -, _, -, -, rfl⟩ := hcan
    simpa using hfits
  cases r₁ with
  | failed => exact hacquired.elim
  | noResource =>
    simp only [pure_eq_ok, Prod.mk.injEq] at hok
    obtain ⟨rfl, rfl, rfl⟩ := hok
    obtain ⟨hentry, rfl⟩ := hacquired
    have hperm : (bins.withEntry _ entry').held.Perm bins.held :=
      held_withEntry [] [] hi hentry
    exact ⟨h.withEntry hi (fun _ _ _ => rfl) hwf (hperm.nodup_iff.mpr h.nodup)
      (h.total.trans hperm.length_eq.symm), rfl, ⟨hperm, rfl⟩, .inr haccepts⟩
  | acquired p =>
    simp only [decTotal, bind_eq_ok, check_eq_ok, exists_const, pure_eq_ok, Prod.mk.injEq] at hok
    obtain ⟨_, ⟨-, rfl⟩, rfl, rfl, rfl⟩ := hok
    obtain ⟨hentry, rfl⟩ := hacquired
    have hperm : (p :: (bins.withEntry _ entry').held).Perm bins.held :=
      held_withEntry [p] [] hi hentry
    have hpi := hentry.subset List.mem_cons_self
    have hlen := hperm.length_eq
    have htotal := h.total
    rw [List.length_cons] at hlen
    refine ⟨h.withEntry hi (setLinked_eq_other (.inl hpi) false) hwf
      (List.nodup_cons.mp (hperm.nodup_iff.mpr h.nodup)).2 ?_, rfl, ⟨hperm, hpi, rfl⟩,
      .inr haccepts⟩
    change bins.totalArenas - 1 = _
    omega

/-- The arena that `acquire_arena` returned serves the request. -/
theorem WellFormed.serves (h : bins.WellFormed heap) (haccepts : bins.Accepts size alignment)
    (hp : p ∈ (bins.stepSplitEntries (bins.binsInfo.locateAlignment alignment)).held)
    (halign : isAlignment alignment = true) (hsize : size + alignment - 1 < 2 ^ 64) :
    (heap p).Serves size alignment := by
  obtain ⟨hi, sizeAligned, hrounded, hmax⟩ := haccepts
  have hmember := ((h.entry _ hi).member p hp).2
  have hpos := isAlignment_pos halign
  refine ⟨?_, ?_⟩
  · rw [hmember.alignment_eq]
    exact FastArenaBinsInfo.dvd_of_locateAlignment halign hi
  -- the size is at most `2 ^ 63`, and so is the alignment
  have hle : size ≤ 2 ^ 63 := by
    rw [align_eq halign, u64_of_lt hsize, Except.ok.injEq] at hrounded
    have hup : size ≤ (size + alignment - 1) / alignment * alignment := le_alignUp hpos
    have hglobal : bins.binsInfo.globalMaxAllocSize ≤ 2 ^ 63 := by
      have hstep := h.config.max_step
      rw [h.config.globalMax]
      exact Nat.pow_le_pow_right (by decide) (by omega)
    omega
  have hal : (heap p).arenaAlignment ≤ 2 ^ 63 := by
    have hnum := h.config.alignments
    have hlt := h.config.max_lt
    rw [hmember.alignment_eq]
    exact Nat.pow_le_pow_right (by decide) (by omega)
  omega

/-- An arena of its alignment went into entry `i`; it or the old cached one may be in a list now. -/
theorem WellFormed.releaseArenaTo (h : bins.WellFormed heap)
    (hbusy : ∀ q ∈ bins.held, (heap q).freed ≠ (heap q).top)
    (hi : i < bins.binsInfo.numAlignments) (hnot : p ∉ bins.held)
    (hp : (0 < p ∧ p < 2 ^ 64) ∧ Member bins.binsInfo i (heap p))
    (hlinked : (heap p).linked = false)
    (hpbusy : (heap p).freed ≠ (heap p).top) :
    ∃ heap' entry', bins.releaseArenaTo heap p i = .ok (heap', bins.withEntry i entry') ∧
      entry'.WellFormed heap' bins.binsInfo i ∧
      entry'.held.Perm (p :: (bins.stepSplitEntries i).held) ∧
      (heap' = heap ∨
        ∃ q, (q = p ∨ q ∈ (bins.stepSplitEntries i).held) ∧ heap' = setLinked heap q true) := by
  have hcheck : bins.binsInfo.checkAlignmentId i = true := decide_eq_true hi
  have hpi : p ∉ (bins.stepSplitEntries i).held := fun hmem => hnot (mem_held.mpr ⟨i, hi, hmem⟩)
  obtain ⟨q, entry₁, hupdate, hwf₁, hq⟩ := (h.entry i hi).tryUpdateCachedArena hp hlinked
  simp only [FastArenaBins.releaseArenaTo, assert_of hcheck, hupdate, ok_bind]
  rcases hq with ⟨rfl, hperm⟩ | ⟨hmem, hperm, hbound, hmember, hqlinked⟩
  · exact ⟨heap, entry₁, rfl, hwf₁, hperm, .inl rfl⟩
  have hq0 : q ≠ 0 := Nat.pos_iff_ne_zero.mp hbound.1
  have hqbusy : (!(heap q).resettable) = true := by
    rw [Bool.not_eq_true', Bool.eq_false_iff, ne_eq, FastArena.resettable_eq_true]
    rcases hmem with rfl | hmem
    · exact hpbusy
    · exact hbusy q (mem_held.mpr ⟨i, hi, hmem⟩)
  have hqnot : q ∉ entry₁.held := by
    have hnodup : (p :: (bins.stepSplitEntries i).held).Nodup :=
      List.nodup_cons.mpr ⟨hpi, h.nodup_entry hi⟩
    exact (List.nodup_cons.mp (hperm.nodup_iff.mpr hnodup)).1
  obtain ⟨j, hlocate, hj, hmin⟩ := h.config.locateStepSplitArenaClamped_eq hi (heap q).room
  obtain ⟨entry₂, hput, hwf₂, hperm₂⟩ :=
    hwf₁.putArena h.config ⟨hbound, hmember⟩ hqlinked hqnot hlocate hj hmin
  have hentry : (bins.withEntry i entry₁).stepSplitEntries i = entry₁ := Function.update_self _ _ _
  have hwith : (bins.withEntry i entry₁).withEntry i entry₂ = bins.withEntry i entry₂ := by
    simp only [FastArenaBins.withEntry, Function.update_idem]
  refine ⟨_, entry₂, ?_, hwf₂, hperm₂.trans hperm, .inr ⟨q, hmem, rfl⟩⟩
  have hcheck₁ : (bins.withEntry i entry₁).binsInfo.checkAlignmentId i = true := hcheck
  have hlocate₁ : (bins.withEntry i entry₁).binsInfo.locateStepSplitArenaClamped i
      ((heap q).arenaMemorySize - (heap q).top) = .ok j := hlocate
  simp only [hq0, if_false, FastArenaBins.putArena, assert_of hcheck₁, assert_of hqbusy,
    hmember.remaining_eq, hlocate₁, hentry, hput, hwith, ok_bind]
  rfl

theorem WellFormed.locateAlignment_eq (h : bins.WellFormed heap)
    (hi : i < bins.binsInfo.numAlignments) (hmember : Member bins.binsInfo i (heap p)) :
    bins.binsInfo.locateAlignment (heap p).arenaAlignment = i := by
  rw [hmember.alignment_eq, h.config.locateAlignment_two_pow hi]

/-- `release_arena` puts an arena into the bins. -/
theorem WellFormed.releaseArena (h : bins.WellFormed heap)
    (hbusy : ∀ q ∈ bins.held, (heap q).freed ≠ (heap q).top)
    (hi : i < bins.binsInfo.numAlignments) (hnot : p ∉ bins.held)
    (hp : (0 < p ∧ p < 2 ^ 64) ∧ Member bins.binsInfo i (heap p))
    (hlinked : (heap p).linked = false)
    (hpbusy : (heap p).freed ≠ (heap p).top) :
    ∃ heap' bins', bins.releaseArena heap p = .ok (heap', bins') ∧ bins'.WellFormed heap' ∧
      bins'.binsInfo = bins.binsInfo ∧ bins'.held.Perm (p :: bins.held) ∧
      (heap' = heap ∨ ∃ q, (q = p ∨ q ∈ bins.held) ∧ heap' = setLinked heap q true) := by
  have hp0 : p ≠ 0 := Nat.pos_iff_ne_zero.mp hp.1.1
  have hcheck : bins.binsInfo.checkAlignmentId i = true := decide_eq_true hi
  have hfree : (!(heap p).inList) = true := by rw [FastArena.inList, hlinked, Bool.not_false]
  have hbusy' : (!(heap p).resettable) = true := by
    rw [Bool.not_eq_true', Bool.eq_false_iff, ne_eq, FastArena.resettable_eq_true]
    exact hpbusy
  have hlarge : (bins.stepSplitEntries i).minAllocSize ≤ (heap p).arenaMemorySize := by
    rw [(h.entry i hi).minSize_eq]
    exact hp.2.large
  obtain ⟨heap', entry', hrelease, hwf, hentry, hheap⟩ :=
    h.releaseArenaTo hbusy hi hnot hp hlinked hpbusy
  have hperm : (bins.withEntry i entry').held.Perm (p :: bins.held) :=
    held_withEntry [] [p] hi hentry
  have hnodup : (bins.withEntry i entry').held.Nodup :=
    hperm.nodup_iff.mpr (List.nodup_cons.mpr ⟨hnot, h.nodup⟩)
  -- distinct 64-bit addresses, so the counter does not wrap
  have hlt : (bins.withEntry i entry').held.length < 2 ^ 64 := by
    refine length_lt_of_nodup hnodup (fun q hq => ?_) (by decide)
    rcases List.mem_cons.mp (hperm.subset hq) with rfl | hq
    · exact hp.1
    · obtain ⟨j, hj, hqj⟩ := mem_held.mp hq
      exact ((h.entry j hj).member q hqj).1
  have htotal : u64 (bins.totalArenas + 1) = (bins.withEntry i entry').held.length := by
    rw [hperm.length_eq, List.length_cons] at hlt ⊢
    rw [h.total, u64_of_lt hlt]
  refine ⟨heap', { bins.withEntry i entry' with totalArenas := u64 (bins.totalArenas + 1) }, ?_,
    h.withEntry hi (fun q hq hheld => ?_) hwf hnodup htotal, rfl, hperm, ?_⟩
  · simp only [FastArenaBins.releaseArena, check_of hp0, check_of hfree, check_of hbusy',
      h.locateAlignment_eq hi hp.2, check_of hcheck, check_of hlarge, hrelease, ok_bind]
    rfl
  · rcases hheap with rfl | ⟨q', hq', rfl⟩
    · rfl
    · exact setLinked_eq_other (hq'.symm.imp_right fun heq => heq ▸ hnot) true q hq hheld
  · exact hheap.imp_right fun ⟨q, hq, heq⟩ =>
      ⟨q, hq.imp_right fun hmem => mem_held.mpr ⟨i, hi, hmem⟩, heq⟩

/-- `extract_arena` takes a held arena out of the bins. -/
theorem WellFormed.extractArena (h : bins.WellFormed heap) (hp : p ∈ bins.held) :
    ∃ bins', bins.extractArena heap p = .ok (setLinked heap p false, bins') ∧
      bins'.WellFormed (setLinked heap p false) ∧ bins'.binsInfo = bins.binsInfo ∧
      (p :: bins'.held).Perm bins.held := by
  obtain ⟨i, hi, hpi⟩ := mem_held.mp hp
  have hentry := h.entry i hi
  obtain ⟨⟨hpos, -⟩, hmember⟩ := hentry.member p hpi
  have hp0 : p ≠ 0 := Nat.pos_iff_ne_zero.mp hpos
  have hcheck : bins.binsInfo.checkAlignmentId i = true := decide_eq_true hi
  have hdec : ∀ entry' fmt, 0 < bins.totalArenas → (bins.withEntry i entry').decTotal fmt =
      .ok { bins.withEntry i entry' with totalArenas := bins.totalArenas - 1 } := by
    intro entry' fmt hpos'
    have hpos₁ : 0 < (bins.withEntry i entry').totalArenas := hpos'
    rw [decTotal, check_of hpos₁]
    rfl
  -- in both cases one arena leaves the entry, and the counter is decremented
  have hfinish : ∀ entry', entry'.WellFormed (setLinked heap p false) bins.binsInfo i →
      (p :: entry'.held).Perm (bins.stepSplitEntries i).held →
      WellFormed (setLinked heap p false)
        { bins.withEntry i entry' with totalArenas := bins.totalArenas - 1 } ∧
      (p :: (bins.withEntry i entry').held).Perm bins.held ∧ 0 < bins.totalArenas := by
    intro entry' hwf hperm
    have hheld : (p :: (bins.withEntry i entry').held).Perm bins.held :=
      held_withEntry [p] [] hi hperm
    have hlen := hheld.length_eq
    have htotal := h.total
    rw [List.length_cons] at hlen
    exact ⟨h.withEntry hi (setLinked_eq_other (.inl hpi) false) hwf
      (List.nodup_cons.mp (hheld.nodup_iff.mpr h.nodup)).2 (by omega), hheld, by omega⟩
  by_cases hcached : p = (bins.stepSplitEntries i).cachedArena
  · obtain ⟨hwf, hperm⟩ := hentry.takeCached (hcached ▸ hp0)
    have hheap : setLinked heap p false = heap :=
      FastArenaStepSplitEntry.setLinked_eq_self (hcached ▸ hentry.cached (hcached ▸ hp0))
    rw [← hcached] at hperm
    rw [← hheap] at hwf
    obtain ⟨hwf', hheld, hpos'⟩ := hfinish _ hwf hperm
    have hdec := fun entry' fmt => hdec entry' fmt hpos'
    refine ⟨_, ?_, hwf', rfl, hheld⟩
    simp only [FastArenaBins.extractArena, check_of hp0, h.locateAlignment_eq hi hmember,
      check_of hcheck, FastArenaStepSplitEntry.tryExtractCachedArena_eq hp0, if_pos hcached,
        if_true,
      hheap, ok_bind, hdec]
    rfl
  · obtain ⟨j, hj⟩ := ((FastArenaStepSplitEntry.mem_held hentry).mp hpi).resolve_left
      fun heq => hcached heq.1
    obtain ⟨k, hlocate, hk, hmin⟩ := h.config.locateStepSplitArenaClamped_eq hi (heap p).room
    obtain rfl : k = j := Except.ok.inj (hlocate.symm.trans (hentry.listed j p hj).2.2)
    obtain ⟨entry', hextract, hwf, hperm⟩ :=
      hentry.tryExtractBinArena (h.nodup_entry hi) hj hmin hk
    obtain ⟨hwf', hheld, hpos'⟩ := hfinish _ hwf hperm
    have hdec := fun entry' fmt => hdec entry' fmt hpos'
    refine ⟨_, ?_, hwf', rfl, hheld⟩
    have hlocate₁ : bins.binsInfo.locateStepSplitArenaClamped i
        ((heap p).arenaMemorySize - (heap p).top) = .ok k := hlocate
    simp only [FastArenaBins.extractArena, check_of hp0, h.locateAlignment_eq hi hmember,
      check_of hcheck, FastArenaStepSplitEntry.tryExtractCachedArena_eq hp0, if_neg hcached,
      Bool.false_eq_true, if_false, hmember.remaining_eq, hlocate₁, hextract, if_true, ok_bind,
        hdec]
    rfl

theorem WellFormed.congr (h : bins.WellFormed heap)
    (hsame : ∀ p ∈ bins.held, (heap p).SameShape (heap' p) ∧ (heap p).SameBlock (heap' p)) :
    bins.WellFormed heap' where
  config := h.config
  entry i hi := (h.entry i hi).congr fun p hp => hsame p (mem_held.mpr ⟨i, hi, hp⟩)
  nodup := h.nodup
  total := h.total

theorem WellFormed.member (h : bins.WellFormed heap) (hp : p ∈ bins.held) :
    (0 < p ∧ p < 2 ^ 64) ∧ bins.Suitable (heap p) ∧ (heap p).Shaped := by
  obtain ⟨i, hi, hpi⟩ := mem_held.mp hp
  obtain ⟨hbound, hmember⟩ := (h.entry i hi).member p hpi
  exact ⟨hbound, ⟨hmember.type, i, hi, hmember.alignment_eq, hmember.large⟩, hmember.toShaped⟩

end FastArenaBins

namespace FastArenaBins

open FastArenaStepSplitEntry (setLinked)

theorem onlyLinks_setLinked (heap : Heap) (p : Nat) (linked : Bool) :
    OnlyLinks heap (setLinked heap p linked) := by
  intro q
  by_cases hqp : q = p
  · subst hqp
    rw [setLinked, Function.update_self]
  · rw [setLinked, Function.update_of_ne hqp]

/-- The frame of an operation that writes one list entry, of an arena held before or after. -/
theorem binsFrame_setLinked {heap : Heap} {bins bins' : FastArenaBins} {p : Nat} (linked : Bool)
    (hp : p ∈ bins.held ∨ p ∈ bins'.held) (hinfo : bins'.binsInfo = bins.binsInfo) :
    BinsFrame held Suitable heap (setLinked heap p linked) bins bins' where
  links := onlyLinks_setLinked heap p linked
  outside q hq hq' := by
    refine Function.update_of_ne ?_ _ _
    rintro rfl
    exact hp.elim hq hq'
  suitable := suitable_congr hinfo

theorem binsFrame_refl (heap : Heap) {bins bins' : FastArenaBins}
    (hinfo : bins'.binsInfo = bins.binsInfo) : BinsFrame held Suitable heap heap bins bins' :=
  ⟨.refl _, fun _ _ _ => rfl, suitable_congr hinfo⟩

/-- **The step-split bins obey the law of bins.** -/
def law : BinsLaw FastArenaStepSplitAllocator.ops where
  held := held
  WellFormed heap bins := bins.WellFormed heap
  Suitable := Suitable
  nodup h := WellFormed.nodup h
  member h hp := WellFormed.member h hp
  type h := h.1
  suitable_congr hblock h := by
    refine ⟨?_, ?_⟩
    · rw [FastArena.type, hblock.header]
      exact h.1
    · rw [hblock.alignment, hblock.size]
      exact h.2
  congr h hsame := WellFormed.congr h hsame
  acquire {heap bins size alignment r heap' bins'} h hok := by
    obtain ⟨hwf, hinfo, hacquired, haccepts⟩ := WellFormed.acquireArena h hok
    cases r with
    | failed =>
      obtain ⟨hperm, rfl⟩ := hacquired
      exact ⟨binsFrame_refl _ hinfo, hwf, hperm⟩
    | noResource =>
      obtain ⟨hperm, rfl⟩ := hacquired
      exact ⟨binsFrame_refl _ hinfo, hwf, hperm⟩
    | acquired p =>
      obtain ⟨hperm, hpi, rfl⟩ := hacquired
      refine ⟨binsFrame_setLinked false (.inl (hperm.subset List.mem_cons_self)) hinfo, hwf, hperm,
        ?_,
        fun halign hsize => ?_⟩
      · rw [setLinked, Function.update_self]
      · have hserves := WellFormed.serves h (haccepts.resolve_left (by simp)) hpi halign hsize
        rw [setLinked, Function.update_self]
        exact ⟨hserves.dvd, hserves.fits⟩
  release {heap bins p} h hbusy hnot hpos hlt hsuit hshaped hpbusy hlinked := by
    obtain ⟨htype, i, hi, halign, hlarge⟩ := hsuit
    obtain ⟨heap', bins', hok, hwf, hinfo, hperm, hheap⟩ := WellFormed.releaseArena h hbusy hi hnot
      ⟨⟨hpos, hlt⟩, hshaped, htype, halign, hlarge⟩ hlinked hpbusy
    refine ⟨heap', bins', hok, ?_, hwf, hperm⟩
    rcases hheap with rfl | ⟨q, hq, rfl⟩
    · exact binsFrame_refl _ hinfo
    · refine binsFrame_setLinked true ?_ hinfo
      rcases hq with rfl | hq
      · exact .inr (hperm.symm.subset List.mem_cons_self)
      · exact .inl hq
  extract {heap bins p} h hp := by
    obtain ⟨bins', hok, hwf, hinfo, hperm⟩ := WellFormed.extractArena h hp
    refine ⟨_, bins', hok, binsFrame_setLinked false (.inl hp) hinfo, hwf, hperm, ?_⟩
    rw [setLinked, Function.update_self]
  allocate_cases {heap p size m heap' alloc alloc'} hok := by
    simp only [FastArenaStepSplitAllocator.ops, FastArenaStepSplitAllocator.allocate, bind_eq_ok,
      check_eq_ok, exists_const] at hok
    obtain ⟨hp, hsize, -, -, hok⟩ := hok
    exact ⟨hp, Nat.pos_of_ne_zero hsize, .inr ⟨_, hok⟩⟩
  acquire_allocate {heap size alignment p heap₁ bins₁ m heap' alloc alloc'} _ _ hok := by
    simp only [FastArenaStepSplitAllocator.ops, FastArenaStepSplitAllocator.allocate,
      ArenaAllocator.allocateFrom, bind_eq_ok, check_eq_ok, exists_const, Prod.exists, pure_eq_ok,
      Prod.mk.injEq] at hok
    obtain ⟨-, -, -, -, _, _, -, hm, _, _, -, rfl, -, -⟩ := hok
    exact hm
  acquire_fresh {heap size p heap₁ bins₁ m heap' arena alloc alloc'} h hacquire htype hstatic hmin
      hok := by
    obtain ⟨hwf, hinfo, ⟨-, rfl⟩, haccepts⟩ := WellFormed.acquireArena h hacquire
    obtain ⟨hi, -⟩ := haccepts.resolve_left (by simp)
    obtain ⟨a, ⟨-, j, -, heq, -⟩, hle⟩ := hmin
    have hmin : 2 ^ alloc.bins.binsInfo.minArenaAlignmentLog2 ≤ arena.arenaAlignment :=
      (Nat.pow_le_pow_right (by decide) (Nat.le_add_right _ j)).trans (heq ▸ hle)
    have halign := FastArenaBinsInfo.eq_of_locateAlignment hstatic.isAlignment hmin hi
    simp only [FastArenaStepSplitAllocator.ops, FastArenaStepSplitAllocator.allocate,
      ArenaAllocator.allocateFrom, ops, releaseArena, bind_eq_ok, check_eq_ok, exists_const,
      Prod.exists, pure_eq_ok, Prod.mk.injEq, Function.update_self, Function.update_idem] at hok
    obtain ⟨-, -, -, -, m', view, hacquired, hm, _, _, ⟨-, -, -, -, hlarge, -⟩, rfl, -, -⟩ := hok
    have hblock := FastArena.acquire_sameBlock hacquired
    refine ⟨?_, hm⟩
    rw [suitable_congr hinfo]
    rw [hblock.alignment, hblock.size, hinfo, (hwf.entry _ (hinfo ▸ hi)).minSize_eq,
      hinfo] at hlarge
    exact ⟨htype, _, hi, halign, hlarge⟩
  deallocate_cases hok := by
    simp only [FastArenaStepSplitAllocator.ops, FastArenaStepSplitAllocator.deallocate, bind_eq_ok,
      check_eq_ok, exists_const] at hok
    exact ⟨_, hok.2.2.2⟩
  reclaimArena_eq _ _ := rfl

/-! ### Creation -/

theorem createEntries_spec {info : FastArenaBinsInfo} : ∀ {count start entries},
    (createEntries info count start).Creates entries →
      ∀ k < count, ∃ alignment, info.getAlignment (start + k) = .ok alignment ∧
        entries.getD k default = {
          arenas := fun _ => []
          presentArenas := default
          cachedArena := 0
          alignment
          numStepSplitBins := info.numStepSplits
          minStepSplitId := info.minStepSplitId (start + k)
          minAllocSize := info.minAllocSize (start + k) } := by
  intro count
  induction count with
  | zero => exact fun _ k hk => absurd hk (Nat.not_lt_zero k)
  | succ count ih =>
    intro start entries hcreate k hk
    simp only [createEntries, FastArenaStepSplitEntry.create, creates_bind, creates_lift,
      creates_checkReturnVal, creates_pure, exists_const] at hcreate
    obtain ⟨alignment, halign, entry, ⟨-, -, rfl⟩, rest, hrest, rfl⟩ := hcreate
    cases k with
    | zero => exact ⟨alignment, halign, rfl⟩
    | succ k =>
      obtain ⟨alignment', halign', hentry⟩ := ih hrest k (by omega)
      rw [show start + 1 + k = start + (k + 1) by omega] at halign' hentry
      exact ⟨alignment', halign', hentry⟩

end FastArenaBins

/-- The ranges that `create` accepts. -/
theorem FastArenaBinsInfo.create_config {config : FastArenaBinsConfig} {info : FastArenaBinsInfo}
    (hcreate : (FastArenaBinsInfo.create config).Creates info) : info.Config := by
  simp only [FastArenaBinsInfo.create, creates_bind, creates_lift, creates_checkReturnVal,
    creates_pure, exists_const, intpow2_eq_ok] at hcreate
  obtain ⟨numSplits, ⟨-, rfl⟩, hsplits, hle, -, hmin, hsteps, hlog, _, -, _, ⟨hmax, rfl⟩, _,
    ⟨halign, -⟩, -, mins, -, rfl⟩ := hcreate
  have hlog7 : config.numSplitsLog2 ≤ 7 := by
    by_contra hlt
    have hpow : 2 ^ 8 ≤ 2 ^ config.numSplitsLog2 := Nat.pow_le_pow_right (by decide) (by omega)
    have hconf : confMaxFastArenaLookupSplit = 128 := rfl
    omega
  refine ⟨?_, Nat.succ_pos _, halign, hlog7, rfl, hlog, hmin, hmax, rfl, ?_, rfl⟩
  · dsimp only
    omega
  · dsimp only
    have hmul : 2 ^ config.numSplitsLog2 *
        (config.maxArenaStepSizeLog2 - config.minArenaStepSizeLog2 + 1 + 1) ≤
        confMaxFastArenaLookupSplit * (confMaxFastArenaLookupSteps + 1) :=
      Nat.mul_le_mul hsplits (by omega)
    have haxis : stepSplitAxis =
        confMaxFastArenaLookupSplit * (confMaxFastArenaLookupSteps + 1) + 1 := rfl
    omega

/-- Bins that have just been created are well formed, and hold nothing. -/
theorem FastArenaBins.create_spec {config : FastArenaBinsConfig} {bins : FastArenaBins}
    (hcreate : (FastArenaBins.create config).Creates bins) (heap : Heap) :
    bins.WellFormed heap ∧ bins.held = [] := by
  simp only [FastArenaBins.create, creates_bind, creates_pure] at hcreate
  obtain ⟨info, hinfo, entries, hentries, rfl⟩ := hcreate
  have hconfig := FastArenaBinsInfo.create_config hinfo
  have hspec := FastArenaBins.createEntries_spec hentries
  -- all entries are empty
  have hempty : ∀ i < info.numAlignments,
      (entries.getD i default).held = [] ∧ (entries.getD i default).WellFormed heap info i := by
    intro i hi
    obtain ⟨alignment, halign, hentry⟩ := hspec i hi
    simp only [FastArenaBinsInfo.getAlignment, bind_eq_ok, assert_eq_ok, exists_const,
      intpow2_eq_ok,
      Nat.zero_add] at halign
    obtain ⟨-, -, rfl⟩ := halign
    have hheld : (entries.getD i default).held = [] := by
      rw [hentry, FastArenaStepSplitEntry.held_of_zero rfl]
      exact slots_eq_nil fun _ _ => rfl
    refine ⟨hheld, ?_⟩
    rw [hentry] at hheld ⊢
    refine ⟨rfl, rfl, by rw [Nat.zero_add], by rw [Nat.zero_add], ?_, fun hne => absurd rfl hne, ?_,
      fun k => show 0 < 2 ^ 64 by decide, fun j _ => Nat.zero_testBit _⟩
    · rw [hheld]
      simp
    · simp
  have hnil : FastArenaBins.held {
      stepSplitEntries := fun i => entries.getD i default, binsInfo := info, totalArenas := 0 } =
        [] :=
    slots_eq_nil fun i hi => (hempty i (List.mem_range.mp hi)).1
  refine ⟨⟨hconfig, fun i hi => (hempty i hi).2, ?_, ?_⟩, hnil⟩
  · rw [hnil]
    exact List.nodup_nil
  · rw [hnil]
    rfl

/-! ### Runs of the step-split allocator -/

namespace FastArenaStepSplitAllocator

open FastArenaStepSplitEntry (WellFormed)

variable {config : FastArenaBinsConfig} {alloc : FastArenaStepSplitAllocator}

/-- An allocator that has just been created holds nothing. -/
theorem create_inv (hcreate : (create config).Creates alloc) (heap : Heap) :
    FastArenaBins.law.Inv ⟨heap, alloc, 0, fun _ => [], []⟩ := by
  simp only [create, creates_bind, creates_lift, creates_pure] at hcreate
  obtain ⟨bins, hbins, entry, hentry, rfl⟩ := hcreate
  obtain rfl : (⟨1, 0, 0⟩ : RetireReclaimEntry) = entry := Except.ok.inj hentry
  obtain ⟨hwf, hheld⟩ := FastArenaBins.create_spec hbins heap
  exact .empty hwf hheld

theorem create_held (hcreate : (create config).Creates alloc) : alloc.bins.held = [] :=
  (create_inv hcreate default).given.eq_nil

theorem create_retiredArenas (hcreate : (create config).Creates alloc) :
    alloc.retiredArenas = ⟨1, 0, 0⟩ := by
  simp only [create, creates_bind, creates_lift, creates_pure] at hcreate
  obtain ⟨bins, -, entry, hentry, rfl⟩ := hcreate
  exact (Except.ok.inj hentry).symm

/-- The bins take arenas of the least alignment. -/
theorem create_suitable (hcreate : (create config).Creates alloc) :
    ∃ a, FastArenaBins.Suitable alloc.bins a ∧
      a.arenaAlignment = 2 ^ config.minArenaAlignmentLog2 := by
  simp only [create, FastArenaBins.create, FastArenaBinsInfo.create, creates_bind, creates_lift,
    creates_checkReturnVal, creates_pure, exists_const] at hcreate
  obtain ⟨bins, ⟨info, ⟨numSplits, -, -, -, -, -, -, -, minAllocSize, -, maxAllocSize, -,
    maxAlignment, -,
    -, mins, -, rfl⟩, entries, -, rfl⟩, entry, -, rfl⟩ := hcreate
  exact ⟨{ (default : FastArena) with
    regionChunkHeader := RegionChunkType.fastArenaStepSplitAllocator.val
    arenaAlignment := 2 ^ config.minArenaAlignmentLog2
    arenaMemorySize := (mins.getD 0 (0, 0)).1 }, ⟨show RegionChunkHandleHeader.data 1 = 1 by decide,
      0, Nat.succ_pos _, rfl, le_rfl⟩, rfl⟩

/-- **The step-split bins keep their representation in every reachable state.**  Each arena that was
given to the allocator and not handed back is in exactly one place of the entry of its alignment
(`WellFormed`); it is in a list iff it says so, and then in the list of its remaining size; the bits
are those of the non-empty lists; no held arena is resettable; and the counter is their number. -/
theorem reachable_stepSplit_wellFormed {s : ArenaAllocator.State FastArenaBins}
    (hcreate : (create config).Creates alloc)
    (hreach : ArenaAllocator.Reachable ops FastArenaBins.held FastArenaBins.Suitable alloc s) :
    s.alloc.bins.WellFormed s.heap ∧ s.alloc.bins.held.Perm s.given ∧ s.given.Nodup ∧
      s.alloc.bins.totalArenas = s.given.length ∧
      (∀ p ∈ s.given, (s.heap p).resettable = false) ∧
      ∀ id < s.alloc.bins.binsInfo.numAlignments,
        let entry := s.alloc.bins.stepSplitEntries id
        (∀ i < stepSplitAxis, entry.presentArenas.testBit i = true ↔ entry.arenas i ≠ []) ∧
        (∀ p ∈ entry.held, (s.heap p).inList = true ↔ ∃ i, p ∈ entry.arenas i) ∧
        ∀ i, ∀ p ∈ entry.arenas i, ∃ remaining, (s.heap p).remaining = .ok remaining ∧
          s.alloc.bins.binsInfo.locateStepSplitArenaClamped id remaining = .ok i := by
  have hinv := FastArenaBins.law.reachable_inv (create_inv hcreate) hreach
  have hwf : s.alloc.bins.WellFormed s.heap := hinv.holds.wf
  have hgiven : s.alloc.bins.held.Perm s.given := hinv.given
  refine ⟨hwf, hgiven, hgiven.nodup_iff.mp hwf.nodup, ?_, fun p hp => ?_, fun id hid => ?_⟩
  · rw [hwf.total, hgiven.length_eq]
  · rw [Bool.eq_false_iff, ne_eq, FastArena.resettable_eq_true]
    exact hinv.holds.busy p (hgiven.symm.subset hp)
  have hentry := hwf.entry id hid
  refine ⟨fun i hi => ?_, fun p hp => ⟨fun hlist => ?_, fun ⟨i, hp⟩ => (hentry.listed i p hp).2.1⟩,
    fun i p hp => ⟨_, ?_, (hentry.listed i p hp).2.2⟩⟩
  · rw [hentry.present i hi, Bool.not_eq_true', List.isEmpty_eq_false_iff]
  · rcases (FastArenaStepSplitEntry.mem_held hentry).mp hp with ⟨rfl, hne⟩ | hlists
    · rw [FastArena.inList, hentry.cached hne] at hlist
      exact absurd hlist (by decide)
    · exact hlists
  · have hmem := (FastArenaStepSplitEntry.mem_held hentry).mpr (.inr ⟨i, hp⟩)
    exact (hentry.member p hmem).2.remaining_eq

/-- A step-split allocator of alignment 16 with one step of 4096 bytes. -/
def sampleAlloc : FastArenaStepSplitAllocator :=
  { retiredArenas := ⟨1, 0, 0⟩
    bins := {
      stepSplitEntries := fun i => [(⟨fun _ => [], default, 0, 16, 3, 1, 4096⟩ :
        FastArenaStepSplitEntry)].getD i default
      binsInfo := {
        minAllocSize := fun i => ([(4096, 1)].getD i (0, 0)).1
        minStepSplitId := fun i => ([(4096, 1)].getD i (0, 0)).2
        numStepSplits := 3, numSplits := 1, numSplitsLog2 := 0, numSteps := 1
        minArenaStepSizeLog2 := 12, maxArenaStepSizeLog2 := 12, numAlignments := 1
        minArenaAlignmentLog2 := 4, maxArenaAlignmentLog2 := 4
        globalMinAllocSize := 4096, globalMaxAllocSize := 8192 }
      totalArenas := 0 } }

/-- A run of one step: a fresh block of 4096 bytes serves a request of 100 bytes. -/
theorem reachable_stepSplit_wellFormed_block : ∃ s : ArenaAllocator.State FastArenaBins,
    s.given = [128] ∧ s.live 128 = [⟨4096, 100⟩] ∧ s.alloc.bins.totalArenas = s.given.length := by
  have hfresh : ({ FastArena.block4096 0 with regionChunkHeader := 65 } : FastArena).Fresh :=
    ⟨⟨by decide, by decide, by decide, by decide, by decide, by decide⟩, rfl, rfl, rfl, rfl⟩
  have hsuit : sampleAlloc.bins.Suitable { FastArena.block4096 0 with regionChunkHeader := 65 } :=
    ⟨rfl, 0, by decide, rfl, by decide⟩
  have hcreate : (create ⟨0, 12, 12, 4, 4⟩).Creates sampleAlloc := rfl
  have hstep : ArenaAllocator.Step ops FastArenaBins.held FastArenaBins.Suitable
      ⟨fun _ => default, sampleAlloc, 0, fun _ => [], []⟩ ⟨_, _, 0, _, _⟩ :=
    .allocateFresh (p := 128) (by rw [create_held hcreate]; simp) (by decide) hfresh hsuit
      (show 100 ≤ 4096 by decide) rfl
  have hreach := ArenaAllocator.Reachable.step (.init fun _ => default) hstep
  exact ⟨_, rfl, rfl, (reachable_stepSplit_wellFormed hcreate hreach).2.2.2.1⟩

end FastArenaStepSplitAllocator

end Cuw3
