/-
  Acquiring from the step-split bins is sound and complete.

  The least bin of an alignment is the first one for the least size, rounded up to the alignment
  (`FastArenaBinsInfo.Mins`).  So an arena in a list has the base size of the list's bin, and it is
  not in a list before a bin whose base size it has
  (`FastArenaStepSplitEntry.WellFormed.base_le_room`, `le_of_base_le_room`).  `acquire_arena` finds
  the cached arena if it has room for the request, and else an arena of the first list, from the bin
  of the request on, that is not empty (`FastArenaBins.WellFormed.acquireArena_spec`); this holds in
  every state that clients of the bins reach (`FastArenaBins.reachable_acquireArena`).
-/
import Cuw3.StepSplit.Equiv.Location
import Cuw3.Arena.Equiv.BinsRuns

namespace Cuw3

open Lib

/-! ### The least bins -/

namespace FastArenaBinsInfo

variable {info : FastArenaBinsInfo} {config : FastArenaBinsConfig} {id i j size r s room : Nat}

/-- What `create` computed for the alignments: the first bin for the least size, rounded up, and its
base. -/
structure Mins (info : FastArenaBinsInfo) : Prop where
  step_lt : info.maxArenaStepSizeLog2 < 48
  alignment_le : info.maxArenaAlignmentLog2 ≤ info.maxArenaStepSizeLog2 + 1
  least : ∀ id < info.numAlignments, IsLeast {i | i < info.numStepSplits ∧
    alignUp info.unit (2 ^ (info.minArenaAlignmentLog2 + id)) ≤ info.base i}
      (info.minStepSplitId id)
  size : ∀ id < info.numAlignments, info.minAllocSize id = info.base (info.minStepSplitId id)

theorem base_zero (info : FastArenaBinsInfo) : info.base 0 = 0 := by
  rw [base, scale, Nat.zero_div, Nat.zero_mod, stepStart_zero, Nat.zero_mul, Nat.add_zero,
    Nat.zero_mul]

theorem Mins.minStepSplitId_lt (h : info.Mins) (hid : id < info.numAlignments) :
    info.minStepSplitId id < info.numStepSplits := (h.least id hid).1.1

/-- The least bin holds arenas that have room for a block of the alignment. -/
theorem Mins.alignment_le_base (h : info.Mins) (hid : id < info.numAlignments) :
    2 ^ (info.minArenaAlignmentLog2 + id) ≤ info.base (info.minStepSplitId id) := by
  refine le_trans ?_ (h.least id hid).1.2
  exact Nat.le_of_dvd (alignUp_pos (Nat.two_pow_pos _) info.unit_pos) (alignUp_dvd _ _)

theorem Mins.minStepSplitId_pos (h : info.Mins) (hid : id < info.numAlignments) :
    0 < info.minStepSplitId id := by
  rw [← info.base_strictMono.lt_iff_lt, base_zero]
  exact lt_of_lt_of_le (Nat.two_pow_pos _) (h.alignment_le_base hid)

/-- The least bin for an alignment, as the loop of `create` computes it. -/
theorem Config.createAlignments_spec (h : info.Config) (hlt : info.maxArenaStepSizeLog2 < 48)
    (halign : info.maxArenaAlignmentLog2 ≤ info.maxArenaStepSizeLog2 + 1)
    (hglobal : info.globalMinAllocSize = info.unit) :
    ∀ {count start mins}, start + count ≤ info.numAlignments →
      info.createAlignments count start = .ok mins → ∀ k < count,
        IsLeast {i | i < info.numStepSplits ∧
          alignUp info.unit (2 ^ (info.minArenaAlignmentLog2 + (start + k))) ≤ info.base i}
          (mins.getD k (0, 0)).2 ∧
        (mins.getD k (0, 0)).1 = info.base (mins.getD k (0, 0)).2 := by
  have hmin := h.min_le
  have hk := h.splits_le_min
  have hnum := h.alignments
  intro count
  induction count with
  | zero => exact fun _ _ k hk => absurd hk (Nat.not_lt_zero k)
  | succ count ih =>
    intro start mins hcount hcreate k hkcount
    have hstart : start < info.numAlignments := by omega
    have hlog : info.minArenaAlignmentLog2 + start ≤ info.maxArenaStepSizeLog2 + 1 := by omega
    have hisalign : isAlignment (2 ^ (info.minArenaAlignmentLog2 + start)) = true :=
      isAlignment_two_pow (by omega)
    have hunit : info.unit ≤ 2 ^ 48 := Nat.pow_le_pow_right (by decide) (by omega)
    have htwo : 2 ^ (info.minArenaAlignmentLog2 + start) ≤ 2 ^ 48 :=
      Nat.pow_le_pow_right (by decide) (by omega)
    have hhint : align info.globalMinAllocSize (2 ^ (info.minArenaAlignmentLog2 + start)) =
        .ok (alignUp info.unit (2 ^ (info.minArenaAlignmentLog2 + start))) := by
      rw [hglobal]
      exact align_of_le hisalign (by omega)
    -- the hint is at most the maximal size, of which both powers are divisors
    have hle : alignUp info.unit (2 ^ (info.minArenaAlignmentLog2 + start)) ≤
        info.globalMaxAllocSize := by
      rw [h.globalMax]
      refine alignUp_le_of_dvd (Nat.two_pow_pos _) (Nat.pow_dvd_pow 2 hlog) ?_
      exact Nat.pow_le_pow_right (by decide) (by omega)
    obtain ⟨stepSplit, hinfo, hsize, hleast⟩ :=
      h.getStepSplitInfo_isLeast hlt (alignUp_pos (Nat.two_pow_pos _) info.unit_pos) hle
    simp only [createAlignments, getAlignment, assert_of hstart,
      intpow2_of_lt (show info.minArenaAlignmentLog2 + start < 64 by omega), hhint, hinfo, hsize,
      ok_bind, bind_eq_ok, pure_eq_ok] at hcreate
    obtain ⟨rest, hrest, rfl⟩ := hcreate
    cases k with
    | zero => exact ⟨hleast, rfl⟩
    | succ k =>
      have hspec := ih (show start + 1 + count ≤ info.numAlignments by omega) hrest k (by omega)
      rw [show start + 1 + k = start + (k + 1) by omega] at hspec
      exact hspec

/-- The ranges do not depend on the least bins. -/
theorem Config.withMins (h : info.Config) (minAllocSize minStepSplitId : Nat → Nat) :
    ({ info with minAllocSize, minStepSplitId } : FastArenaBinsInfo).Config :=
  ⟨h.alignments, h.num_pos, h.max_lt, h.splits_le, h.splits, h.splits_le_min, h.min_le, h.max_step,
    h.stepSplits, h.stepSplits_le, h.globalMax⟩

theorem create_mins (hcreate : (create config).Creates info)
    (hlt : config.maxArenaStepSizeLog2 < 48) : info.Mins := by
  have hconfig := create_config hcreate
  simp only [create, creates_bind, creates_lift, creates_checkReturnVal,
    creates_pure, exists_const, intpow2_eq_ok] at hcreate
  obtain ⟨numSplits, ⟨-, rfl⟩, -, hle, -, -, -, -, _, ⟨-, rfl⟩, _, ⟨-, rfl⟩, _, ⟨-, rfl⟩, hmaxalign,
    mins, hmins, rfl⟩ := hcreate
  have halign : config.maxArenaAlignmentLog2 ≤ config.maxArenaStepSizeLog2 + 1 :=
    (Nat.pow_le_pow_iff_right (by decide)).mp hmaxalign
  have hspec := (hconfig.withMins (fun _ => 0) fun _ => 0).createAlignments_spec hlt halign rfl
    (Nat.zero_add _).le hmins
  refine ⟨hlt, halign, fun id hid => ?_, fun id hid => (hspec id hid).2⟩
  have hleast := (hspec id hid).1
  rw [Nat.zero_add] at hleast
  exact hleast

/-- The bin of a full arena is one of the least: the last one whose base is at most `0`, or where
the least step is a single byte, the one of base `2`. -/
theorem Config.locateStepSplitArena_zero (h : info.Config) :
    ∃ i, info.locateStepSplitArena 0 = .ok i ∧ info.base i < confMinAllocAlignment := by
  have hmin := h.min_le
  have hk := h.splits_le_min
  have hlog : Nat.log2 0 = 0 := by decide
  by_cases hm : 0 < info.minArenaStepSizeLog2
  · have hstep : info.getStep 0 =
        .ok (0, stepStart info.numSplitsLog2 0 * info.unit, info.minArenaStepSizeLog2) := by
      rw [getStep, intlog2_eq, hlog, Nat.zero_min, if_pos hm, stepStart_zero, Nat.zero_mul]
      rfl
    obtain ⟨c, hc, hinfo, -⟩ := h.getStepSplitInfo_eq false 0 hstep (Nat.zero_le _) ⟨hk, hmin⟩ rfl
      (by simp) (by decide)
    rw [stepStart_zero, Nat.zero_mul, Nat.sub_zero, Nat.add_zero, Nat.zero_div, Nat.zero_min] at hc
    subst hc
    refine ⟨_, by rw [locateStepSplitArena, hinfo]; rfl, ?_⟩
    rw [Nat.zero_mul, Nat.add_zero, base_zero]
    decide
  · -- the base of step 1 is above the size, and the difference wraps
    have hm0 : info.minArenaStepSizeLog2 = 0 := by omega
    have hk0 : info.numSplitsLog2 = 0 := by omega
    have hsplits : info.numSplits = 1 := by rw [h.splits, hk0, pow_zero]
    have hid : u64 (mulpow2 1 0 + min (divpow2 (mulpow2 (sub64 (u64 (0 + 0)) (2 ^ 0)) 0) 0) 1) =
      2 := by
      decide
    have hlt : 2 < info.numStepSplits := by
      rw [h.stepSplits, hk0, pow_zero, Nat.one_mul]
      omega
    refine ⟨2, ?_, ?_⟩
    · simp only [locateStepSplitArena, getStepSplitInfo, getStep, intlog2_eq, hlog, hm0, hk0,
        hsplits,
        Nat.zero_min, lt_irrefl, if_false, Bool.false_eq_true,
          intpow2_of_lt (show 0 < 64 by decide),
        ok_bind, pure_bind, Nat.sub_zero, Nat.zero_add, hid, check_of hlt]
      rfl
    · rw [base, unit, hm0, hk0]
      decide

/-- An arena in a list from the least bin on has the base size of the list. -/
theorem Mins.base_le_room (h : info.Mins) (hconfig : info.Config) (hid : id < info.numAlignments)
    (halign : confMinAllocAlignment ≤ 2 ^ (info.minArenaAlignmentLog2 + id)) (hroom : room < 2 ^ 48)
    (hlocate : info.locateStepSplitArenaClamped id room = .ok i) (hi : info.minStepSplitId id ≤ i) :
    info.base i ≤ room := by
  have hpos := h.minStepSplitId_pos hid
  have hcheck : info.checkAlignmentId id = true := decide_eq_true hid
  rcases Nat.eq_zero_or_pos room with rfl | hroompos
  · -- a full arena is not in such a list
    obtain ⟨k, hk, hbase⟩ := hconfig.locateStepSplitArena_zero
    have hlt : k < info.minStepSplitId id := by
      rw [← info.base_strictMono.lt_iff_lt]
      exact lt_of_lt_of_le hbase (halign.trans (h.alignment_le_base hid))
    simp only [locateStepSplitArenaClamped, check_of hcheck, hk, ok_bind, hlt, if_true] at hlocate
    obtain rfl : 0 = i := Except.ok.inj hlocate
    omega
  · obtain ⟨k, hk, hgreatest⟩ := hconfig.locateStepSplitArena_isGreatest hroompos hroom
    simp only [locateStepSplitArenaClamped, check_of hcheck, hk, ok_bind] at hlocate
    split_ifs at hlocate with hlt
    · obtain rfl : 0 = i := Except.ok.inj hlocate
      omega
    · obtain rfl : k = i := Except.ok.inj hlocate
      exact hgreatest.1.2

/-- An arena is not in a list before a bin whose base size it has. -/
theorem Mins.le_of_base_le_room (h : info.Mins) (hconfig : info.Config)
    (hid : id < info.numAlignments)
    (hroom : room < 2 ^ 48) (hlocate : info.locateStepSplitArenaClamped id room = .ok i)
    (hj : info.minStepSplitId id ≤ j) (hlt : j < info.numStepSplits) (hbase : info.base j ≤ room) :
    j ≤ i := by
  have hpos := h.minStepSplitId_pos hid
  have hcheck : info.checkAlignmentId id = true := decide_eq_true hid
  have hroompos : 0 < room := by
    refine lt_of_lt_of_le ?_ hbase
    rw [← base_zero info, info.base_strictMono.lt_iff_lt]
    omega
  obtain ⟨k, hk, hgreatest⟩ := hconfig.locateStepSplitArena_isGreatest hroompos hroom
  have hle : j ≤ k := hgreatest.2 ⟨hlt, hbase⟩
  simp only [locateStepSplitArenaClamped, check_of hcheck, hk, ok_bind,
    if_neg (show ¬k < info.minStepSplitId id by omega)] at hlocate
  obtain rfl : k = i := Except.ok.inj hlocate
  exact hle

/-- The bin from which a request is served: its base is at least the size. -/
theorem Mins.locateStepSplitSizeClamped_spec (h : info.Mins) (hconfig : info.Config)
    (hid : id < info.numAlignments) (hpos : 0 < s) (hle : s ≤ info.globalMaxAllocSize) :
    ∃ i, info.locateStepSplitSizeClamped id s = .ok i ∧ info.minStepSplitId id ≤ i ∧
      i < info.numStepSplits ∧ s ≤ info.base i := by
  have hcheck : info.checkAlignmentId id = true := decide_eq_true hid
  obtain ⟨k, hk, ⟨hlt, hbase⟩, -⟩ := hconfig.locateStepSplitSize_isLeast h.step_lt hpos hle
  simp only [locateStepSplitSizeClamped, check_of hcheck, hk, ok_bind]
  split_ifs with hmin
  · refine ⟨_, rfl, le_refl _, h.minStepSplitId_lt hid, hbase.trans ?_⟩
    exact info.base_strictMono.monotone hmin.le
  · exact ⟨k, rfl, not_lt.mp hmin, hlt, hbase⟩

end FastArenaBinsInfo

/-! ### The entry of one alignment -/

namespace FastArenaStepSplitEntry

variable {heap : Heap} {info : FastArenaBinsInfo} {id s i p : Nat}
    {entry entry' : FastArenaStepSplitEntry}

/-- Clearing a bit changes the bits only. -/
theorem unsetIfEmpty_same (hok : entry.unsetIfEmpty i = .ok entry') :
    ∃ presentArenas, entry' = { entry with presentArenas } := by
  unfold unsetIfEmpty at hok
  split_ifs at hok
  · simp only [bind_eq_ok, pure_eq_ok] at hok
    obtain ⟨presentArenas, -, rfl⟩ := hok
    exact ⟨presentArenas, rfl⟩
  · exact ⟨entry.presentArenas, (Except.ok.inj hok).symm⟩

/-- The cached arena is acquired iff it has room for the request. -/
theorem WellFormed.acquireCachedArena_eq (h : entry.WellFormed heap info id)
    (hlt : info.minArenaAlignmentLog2 + id < 64)
    (hdvd : 2 ^ (info.minArenaAlignmentLog2 + id) ∣ s) :
    entry.acquireCachedArena heap s =
      .ok (if entry.cachedArena ≠ 0 ∧ s ≤ (heap entry.cachedArena).room then
        (.acquired entry.cachedArena, { entry with cachedArena := 0 }) else (.noResource,
          entry)) := by
  have halign : isAlignment entry.alignment = true := h.alignment_eq ▸ isAlignment_two_pow hlt
  have haligned : decide (entry.alignment ∣ s) = true := decide_eq_true (h.alignment_eq ▸ hdvd)
  rw [FastArenaStepSplitEntry.acquireCachedArena, isAligned_eq halign, ok_bind, assert_of haligned,
    ok_bind]
  by_cases hcached : entry.cachedArena = 0
  · rw [if_pos hcached, if_neg fun hroom => hroom.1 hcached]
    rfl
  · have hmember := (h.member _ ((mem_held h).mpr (.inl ⟨rfl, hcached⟩))).2
    have hcan : (heap entry.cachedArena).canAllocateAligned s =
        .ok (decide (s ≤ (heap entry.cachedArena).room)) :=
      hmember.canAllocateAligned_eq (hmember.alignment_eq ▸ hdvd)
    rw [if_neg hcached, hcan, ok_bind]
    by_cases hroom : s ≤ (heap entry.cachedArena).room
    · rw [if_pos (decide_eq_true hroom), if_pos ⟨hcached, hroom⟩]
      rfl
    · rw [if_neg (by simpa using hroom), if_neg fun hboth => hroom hboth.2]
      rfl

/-- An arena of the first list that is not empty, from a bin on, is acquired; if they are all empty,
none is. -/
theorem WellFormed.acquireBinArena_spec (h : entry.WellFormed heap info id) (hinfo : info.Config)
    (hmins : info.Mins) (hid : id < info.numAlignments) (hnodup : entry.held.Nodup)
    (hsmall : ∀ p ∈ entry.held, (heap p).arenaMemorySize < 2 ^ 48)
    (hdvd : 2 ^ (info.minArenaAlignmentLog2 + id) ∣ s) (hmin : info.minStepSplitId id ≤ i)
    (hi : i < info.numStepSplits) :
    (entry.acquireBinArena heap i s = .ok (.noResource, heap, entry) ∧
        ∀ j, i ≤ j → entry.arenas j = []) ∨
      ∃ p j rest entry', i ≤ j ∧ entry.arenas j = p :: rest ∧
        entry.acquireBinArena heap i s =
          .ok (.acquired p, FastArenaStepSplitEntry.setLinked heap p false, entry') ∧
        entry'.cachedArena = entry.cachedArena ∧
        entry'.arenas = Function.update entry.arenas j rest := by
  have hnum := hinfo.alignments
  have hmax := hinfo.max_lt
  have halign : isAlignment entry.alignment = true :=
    h.alignment_eq ▸ isAlignment_two_pow (by omega)
  have haligned : decide (entry.alignment ∣ s) = true := decide_eq_true (h.alignment_eq ▸ hdvd)
  have hrange : entry.minStepSplitId ≤ i ∧ i < entry.numStepSplitBins := by
    rw [h.minId_eq, h.bins_eq]
    exact ⟨hmin, hi⟩
  have hstart : i < stepSplitAxis := lt_of_lt_of_le hi hinfo.stepSplits_le
  obtain ⟨found, hfound, hfirst⟩ := Bitmap.getFirstSet_spec (by decide) h.wordSized hstart
  unfold FastArenaStepSplitEntry.acquireBinArena
  rw [isAligned_eq halign, ok_bind, assert_of haligned, ok_bind, assert_of hrange, ok_bind, hfound,
    ok_bind]
  by_cases hnull : found = Bitmap.nullBit stepSplitAxis
  · -- no bit from the bin on is set
    left
    rw [if_pos hnull]
    refine ⟨rfl, fun j hj => ?_⟩
    rw [Bitmap.nullBit] at hnull
    by_contra hne
    obtain ⟨q, hq⟩ := List.exists_mem_of_ne_nil _ hne
    have hlt := (h.listed j q hq).1
    have hbit := hfirst.none_below j hj (hnull ▸ hlt)
    rw [h.present j hlt, Bool.not_eq_false', List.isEmpty_iff] at hbit
    exact hne hbit
  · right
    have hlt : found < stepSplitAxis := by
      have hle := hfirst.le
      rw [Bitmap.nullBit] at hnull
      omega
    obtain ⟨hle, hbit⟩ := hfirst.found hlt
    rw [h.present found hlt, Bool.not_eq_true', List.isEmpty_eq_false_iff] at hbit
    obtain ⟨p, rest, hlist⟩ := List.exists_cons_of_ne_nil hbit
    obtain ⟨entry', htake, hwf, hperm⟩ := h.take (i := found) hnodup (by rw [hlist])
    obtain ⟨presentArenas, rfl⟩ := unsetIfEmpty_same htake
    have hp : p ∈ entry.arenas found := by
      rw [hlist]
      exact List.mem_cons_self
    have hheld : p ∈ entry.held := (mem_held h).mpr (.inr ⟨found, hp⟩)
    have hmember := (h.member p hheld).2
    have hroom : (heap p).room < 2 ^ 48 := lt_of_le_of_lt (Nat.sub_le _ _) (hsmall p hheld)
    -- the arena has at least the least size of the alignment
    have hlarge : entry.minAllocSize ≤ (heap p).room := by
      rw [h.minSize_eq, hmins.size id hid]
      refine le_trans (info.base_strictMono.monotone (hmin.trans hle)) ?_
      exact hmins.base_le_room hinfo hid (hmember.alignment_eq ▸ hmember.min_le) hroom
        (h.listed found p hp).2.2 (hmin.trans hle)
    have hremaining : (FastArenaStepSplitEntry.setLinked heap p false p).remaining =
        .ok (heap p).room := by
      rw [(hmember.setLinked false).remaining_eq, FastArenaStepSplitEntry.setLinked,
        Function.update_self]
      rfl
    refine ⟨p, found, rest, { entry with
      arenas := Function.update entry.arenas found rest, presentArenas }, hle, hlist, ?_, rfl, rfl⟩
    rw [if_neg hnull]
    simp only [hlist, htake, ok_bind, hremaining, check_of hlarge]
    rfl

end FastArenaStepSplitEntry

/-! ### The bins of all alignments -/

namespace FastArenaBinsInfo

variable {info : FastArenaBinsInfo} {alignment id s : Nat}

/-- An alignment of the configured range has an entry. -/
theorem Config.locateAlignment_lt (h : info.Config) (halign : isAlignment alignment = true)
    (hmax : alignment ≤ 2 ^ info.maxArenaAlignmentLog2) :
    info.locateAlignment alignment < info.numAlignments := by
  have hnum := h.alignments
  have hpos := h.num_pos
  obtain ⟨k, -, rfl⟩ := isAlignment_iff.mp halign
  rw [Nat.pow_le_pow_iff_right (by decide)] at hmax
  rw [locateAlignment, intlog2_eq, Nat.log2_two_pow, if_neg (by omega)]
  omega

/-- The limit of a request is the maximal size. -/
theorem Config.canAllocateAligned_eq (h : info.Config) (hid : id < info.numAlignments)
    (hdvd : 2 ^ (info.minArenaAlignmentLog2 + id) ∣ s) :
    info.canAllocateAligned s id = .ok (decide (s ≤ info.globalMaxAllocSize)) := by
  have hnum := h.alignments
  have hmax := h.max_lt
  have hlt : info.minArenaAlignmentLog2 + id < 64 := by omega
  have hcheck : info.checkAlignmentId id = true := decide_eq_true hid
  rw [canAllocateAligned, assert_of hcheck, ok_bind, getAlignment, assert_of hid, ok_bind,
    intpow2_of_lt hlt, ok_bind, isAligned_eq (isAlignment_two_pow hlt), ok_bind,
    assert_of (decide_eq_true hdvd), ok_bind]
  rfl

end FastArenaBinsInfo

namespace FastArenaBins

open FastArenaStepSplitEntry (setLinked)

variable {heap heap' : Heap} {bins bins' : FastArenaBins} {size alignment id s p : Nat}
  {r : AcquiredResource}

/-- The arena at `p` was taken out of its place, and every other arena is where it was. -/
structure TakesOut (heap heap' : Heap) (bins bins' : FastArenaBins) (p : Nat) : Prop where
  notHeld : p ∉ bins'.held
  heap : heap' = setLinked heap p false
  info : bins'.binsInfo = bins.binsInfo
  cached : ∀ id < bins.binsInfo.numAlignments, (bins'.stepSplitEntries id).cachedArena =
    if (bins.stepSplitEntries id).cachedArena = p then 0 else (bins.stepSplitEntries id).cachedArena
  lists : ∀ id < bins.binsInfo.numAlignments, ∀ i,
    (bins'.stepSplitEntries id).arenas i = ((bins.stepSplitEntries id).arenas i).erase p

/-- What acquiring `s` bytes from entry `id` returns: it fails above the maximal size; there is no
arena when neither the cached one nor one of the lists, from the bin of the request on, is left; or
an arena with enough room is taken out. -/
inductive Acquires (heap : Heap) (bins : FastArenaBins) (id s : Nat) :
    AcquiredResource → Heap → FastArenaBins → Prop
  | failed (hmax : bins.binsInfo.globalMaxAllocSize < s) : Acquires heap bins id s .failed heap bins
  | noResource {i : Nat} (hmax : s ≤ bins.binsInfo.globalMaxAllocSize)
      (hcached : (bins.stepSplitEntries id).cachedArena ≠ 0 →
        (heap (bins.stepSplitEntries id).cachedArena).room < s)
      (hlocate : bins.binsInfo.locateStepSplitSizeClamped id s = .ok i)
      (hlists : ∀ j, ∀ p ∈ (bins.stepSplitEntries id).arenas j,
        (heap p).room < bins.binsInfo.base i) : Acquires heap bins id s .noResource heap bins
  | acquired {p : Nat} {heap' : Heap} {bins' : FastArenaBins}
      (hmax : s ≤ bins.binsInfo.globalMaxAllocSize) (hp : p ∈ (bins.stepSplitEntries id).held)
      (hroom : s ≤ (heap p).room) (htakes : TakesOut heap heap' bins bins' p) :
      Acquires heap bins id s (.acquired p) heap' bins'

/-- An arena is in one entry. -/
theorem WellFormed.entry_unique (h : bins.WellFormed heap) {id id' : Nat}
    (hid : id < bins.binsInfo.numAlignments) (hid' : id' < bins.binsInfo.numAlignments)
    (hp : p ∈ (bins.stepSplitEntries id).held) (hp' : p ∈ (bins.stepSplitEntries id').held) :
    id = id' :=
  slots_unique (f := fun i => (bins.stepSplitEntries i).held) List.nodup_range h.nodup
    (List.mem_range.mpr hid) (List.mem_range.mpr hid') hp hp'

/-- The entry of an alignment was changed by taking an arena out of it. -/
theorem WellFormed.takesOut (h : bins.WellFormed heap) {entry : FastArenaStepSplitEntry}
    {total : Nat}
    (hid : id < bins.binsInfo.numAlignments) (hp : p ∈ (bins.stepSplitEntries id).held)
    (hp0 : p ≠ 0)
    (hperm : (p :: entry.held).Perm (bins.stepSplitEntries id).held)
    (hcached : entry.cachedArena = if (bins.stepSplitEntries id).cachedArena = p then 0
      else (bins.stepSplitEntries id).cachedArena)
    (hlists : ∀ i, entry.arenas i = ((bins.stepSplitEntries id).arenas i).erase p) :
    TakesOut heap (setLinked heap p false) bins
      { bins.withEntry id entry with totalArenas := total } p := by
  have hother : ∀ j < bins.binsInfo.numAlignments, j ≠ id → p ∉ (bins.stepSplitEntries j).held :=
    fun j hj hne hpj => hne (h.entry_unique hj hid hpj hp)
  refine ⟨?_, rfl, rfl, fun j hj => ?_, fun j hj i => ?_⟩
  · have hheld : (p :: (bins.withEntry id entry).held).Perm bins.held :=
      held_withEntry [p] [] hid hperm
    exact (List.nodup_cons.mp (hheld.nodup_iff.mpr h.nodup)).1
  · change (Function.update bins.stepSplitEntries id entry j).cachedArena = _
    by_cases hne : j = id
    · subst hne
      rw [Function.update_self, hcached]
    · rw [Function.update_of_ne hne, if_neg]
      rintro rfl
      exact hother j hj hne ((FastArenaStepSplitEntry.mem_held (h.entry j hj)).mpr
        (.inl ⟨rfl, hp0⟩))
  · change (Function.update bins.stepSplitEntries id entry j).arenas i = _
    by_cases hne : j = id
    · subst hne
      rw [Function.update_self, hlists]
    · rw [Function.update_of_ne hne, List.erase_of_not_mem]
      intro hpi
      exact hother j hj hne ((FastArenaStepSplitEntry.mem_held (h.entry j hj)).mpr (.inr ⟨i, hpi⟩))

theorem withEntry_self (id : Nat) : bins.withEntry id (bins.stepSplitEntries id) = bins := by
  rw [withEntry, Function.update_eq_self]

/-- `acquire_arena_` and the counter. -/
theorem WellFormed.acquireArenaFrom_spec (h : bins.WellFormed heap) (hmins : bins.binsInfo.Mins)
    (hsmall : ∀ p ∈ bins.held, (heap p).arenaMemorySize < 2 ^ 48)
    (hid : id < bins.binsInfo.numAlignments) (hpos : 0 < s)
    (hle : s ≤ bins.binsInfo.globalMaxAllocSize)
    (hdvd : 2 ^ (bins.binsInfo.minArenaAlignmentLog2 + id) ∣ s) :
    (bins.acquireArenaFrom heap s id = .ok (.noResource, heap, bins) ∧
        Acquires heap bins id s .noResource heap bins) ∨
      ∃ p entry, bins.acquireArenaFrom heap s id =
          .ok (.acquired p, setLinked heap p false, bins.withEntry id entry) ∧
        0 < bins.totalArenas ∧ ∀ total, Acquires heap bins id s (.acquired p)
          (setLinked heap p false)
          { bins.withEntry id entry with totalArenas := total } := by
  have hnum := h.config.alignments
  have hmax := h.config.max_lt
  have hentry := h.entry id hid
  have hnodup := h.nodup_entry hid
  have hcheck : bins.binsInfo.checkAlignmentId id = true := decide_eq_true hid
  have hin : ∀ q, q ∈ (bins.stepSplitEntries id).held → q ∈ bins.held :=
    fun q hq => mem_held.mpr ⟨id, hid, hq⟩
  have htotal : ∀ q, q ∈ (bins.stepSplitEntries id).held → 0 < bins.totalArenas := by
    intro q hq
    rw [h.total]
    exact List.length_pos_of_mem (hin q hq)
  unfold FastArenaBins.acquireArenaFrom
  rw [assert_of hcheck, ok_bind, hentry.acquireCachedArena_eq (by omega) hdvd, ok_bind]
  by_cases hcached : (bins.stepSplitEntries id).cachedArena ≠ 0 ∧
      s ≤ (heap (bins.stepSplitEntries id).cachedArena).room
  · -- the cached arena serves the request
    right
    obtain ⟨hne, hroom⟩ := hcached
    have hp := (FastArenaStepSplitEntry.mem_held hentry).mpr (.inl ⟨rfl, hne⟩)
    obtain ⟨-, hperm⟩ := hentry.takeCached hne
    have hlists : ∀ i, (bins.stepSplitEntries id).cachedArena ∉ (bins.stepSplitEntries id).arenas
      i := by
      intro i hpi
      have hlinked := (hentry.listed i _ hpi).2.1
      rw [hentry.cached hne] at hlinked
      cases hlinked
    refine ⟨(bins.stepSplitEntries id).cachedArena,
      { bins.stepSplitEntries id with cachedArena := 0 },
      ?_, htotal _ hp, fun total => ?_⟩
    · rw [if_pos ⟨hne, hroom⟩, FastArenaStepSplitEntry.setLinked_eq_self (hentry.cached hne)]
      rfl
    · refine .acquired hle hp hroom (h.takesOut hid hp hne hperm ?_ fun i => ?_)
      · rw [if_pos rfl]
      · rw [List.erase_of_not_mem (hlists i)]
  · obtain ⟨i, hlocate, hmin, hi, hbase⟩ := hmins.locateStepSplitSizeClamped_spec h.config hid hpos
      hle
    rw [if_neg hcached]
    simp only [ne_eq, not_true_eq_false, if_false, hlocate, ok_bind]
    rcases hentry.acquireBinArena_spec h.config hmins hid hnodup (fun p hp => hsmall p (hin p hp))
      hdvd
      hmin hi with ⟨hnone, hempty⟩ | ⟨p, j, rest, entry, hij, hlist, hacquire, hsame, harenas⟩
    · left
      refine ⟨by rw [hnone, ok_bind, withEntry_self]; rfl, .noResource hle (fun hne => ?_) hlocate
        fun j p hp => ?_⟩
      · exact not_le.mp fun hroom => hcached ⟨hne, hroom⟩
      · -- an arena with the base size would be in a list from the bin on
        by_contra hroom
        have hheld := (FastArenaStepSplitEntry.mem_held hentry).mpr (.inr ⟨j, hp⟩)
        have hlt : (heap p).room < 2 ^ 48 :=
          lt_of_le_of_lt (Nat.sub_le _ _) (hsmall p (hin p hheld))
        have hij := hmins.le_of_base_le_room h.config hid hlt (hentry.listed j p hp).2.2 hmin hi
          (not_lt.mp hroom)
        rw [hempty j hij] at hp
        cases hp
    · right
      have hp : p ∈ (bins.stepSplitEntries id).arenas j := by
        rw [hlist]
        exact List.mem_cons_self
      have hheld := (FastArenaStepSplitEntry.mem_held hentry).mpr (.inr ⟨j, hp⟩)
      obtain ⟨⟨hp0, -⟩, hmember⟩ := hentry.member p hheld
      have hlt : (heap p).room < 2 ^ 48 :=
        lt_of_le_of_lt (Nat.sub_le _ _) (hsmall p (hin p hheld))
      have hroom : s ≤ (heap p).room := by
        calc s ≤ bins.binsInfo.base i := hbase
          _ ≤ bins.binsInfo.base j := bins.binsInfo.base_strictMono.monotone hij
          _ ≤ (heap p).room := hmins.base_le_room h.config hid
              (hmember.alignment_eq ▸ hmember.min_le) hlt (hentry.listed j p hp).2.2
              (hmin.trans hij)
      -- the arena is in no other place of the entry
      have hne : (bins.stepSplitEntries id).cachedArena ≠ p := by
        rintro rfl
        have hlinked := (hentry.listed j _ hp).2.1
        rw [hentry.cached hp0.ne'] at hlinked
        cases hlinked
      have hlists : ∀ k, entry.arenas k = ((bins.stepSplitEntries id).arenas k).erase p := by
        intro k
        rw [harenas]
        by_cases hkj : k = j
        · subst hkj
          rw [Function.update_self, hlist, List.erase_cons_head]
        · rw [Function.update_of_ne hkj, List.erase_of_not_mem]
          intro hpk
          exact hkj (Except.ok.inj ((hentry.listed k p hpk).2.2.symm.trans
            (hentry.listed j p hp).2.2))
      have hperm : (p :: entry.held).Perm (bins.stepSplitEntries id).held := by
        obtain ⟨-, hacquired⟩ := hentry.acquireBinArena h.config hnodup hacquire
        exact hacquired.1
      refine ⟨p, entry, by rw [hacquire]; rfl, htotal p hheld, fun total => ?_⟩
      refine .acquired hle hheld hroom (h.takesOut hid hheld hp0.ne' hperm ?_ hlists)
      rw [hsame, if_neg hne]

/-- **What `acquire_arena` returns.** -/
theorem WellFormed.acquireArena_spec (h : bins.WellFormed heap) (hmins : bins.binsInfo.Mins)
    (hsmall : ∀ p ∈ bins.held, (heap p).arenaMemorySize < 2 ^ 48)
    (halign : isAlignment alignment = true)
    (hmin : 2 ^ bins.binsInfo.minArenaAlignmentLog2 ≤ alignment)
    (hmax : alignment ≤ 2 ^ bins.binsInfo.maxArenaAlignmentLog2) (hpos : 0 < size)
    (hwrap : size + alignment - 1 < 2 ^ 64) :
    ∃ r heap' bins', bins.acquireArena heap size alignment = .ok (r, heap', bins') ∧
      Acquires heap bins (bins.binsInfo.locateAlignment alignment) (alignUp size alignment) r heap'
        bins' := by
  have hid := h.config.locateAlignment_lt halign hmax
  have heq := FastArenaBinsInfo.eq_of_locateAlignment halign hmin hid
  have hapos := isAlignment_pos halign
  have hdvd : 2 ^ (bins.binsInfo.minArenaAlignmentLog2 + bins.binsInfo.locateAlignment alignment) ∣
      alignUp size alignment := by
    rw [← heq]
    exact alignUp_dvd _ _
  unfold FastArenaBins.acquireArena
  simp only [if_neg hid.ne, align_of_le halign hwrap, ok_bind, h.config.canAllocateAligned_eq hid
    hdvd]
  by_cases hle : alignUp size alignment ≤ bins.binsInfo.globalMaxAllocSize
  · rw [decide_eq_true hle]
    simp only [Bool.not_true, Bool.false_eq_true, if_false]
    rcases h.acquireArenaFrom_spec hmins hsmall hid (alignUp_pos hapos hpos) hle hdvd with
      ⟨hnone, hacquires⟩ | ⟨p, entry, hacquired, htotal, hacquires⟩
    · refine ⟨_, _, _, ?_, hacquires⟩
      rw [hnone]
      rfl
    · refine ⟨_, _, _, ?_, hacquires (bins.totalArenas - 1)⟩
      have hcount : 0 < (bins.withEntry (bins.binsInfo.locateAlignment alignment)
        entry).totalArenas :=
        htotal
      rw [hacquired, ok_bind]
      simp only [decTotal, check_of hcount, ok_bind]
      rfl
  · rw [decide_eq_false hle]
    exact ⟨_, _, _, rfl, .failed (not_le.mp hle)⟩

/-- No entry has an alignment above the maximal one: the request fails, and changes nothing. -/
theorem acquireArena_of_gt (halign : isAlignment alignment = true)
    (hgt : 2 ^ bins.binsInfo.maxArenaAlignmentLog2 < alignment) :
    bins.acquireArena heap size alignment = .ok (.failed, heap, bins) := by
  obtain ⟨k, -, rfl⟩ := isAlignment_iff.mp halign
  have hlt : bins.binsInfo.maxArenaAlignmentLog2 < k :=
    (Nat.pow_lt_pow_iff_right (by decide)).mp hgt
  have hnum : bins.binsInfo.locateAlignment (2 ^ k) = bins.binsInfo.numAlignments := by
    rw [FastArenaBinsInfo.locateAlignment, intlog2_eq, Nat.log2_two_pow, if_pos hlt]
  unfold FastArenaBins.acquireArena
  rw [if_pos hnum]
  rfl

/-- A request above the maximal size fails, and changes nothing. -/
theorem WellFormed.acquireArena_failed (h : bins.WellFormed heap)
    (halign : isAlignment alignment = true)
    (hmin : 2 ^ bins.binsInfo.minArenaAlignmentLog2 ≤ alignment)
    (hwrap : size + alignment - 1 < 2 ^ 64)
    (hsize : bins.binsInfo.globalMaxAllocSize < size) :
    bins.acquireArena heap size alignment = .ok (.failed, heap, bins) := by
  by_cases hmax : alignment ≤ 2 ^ bins.binsInfo.maxArenaAlignmentLog2
  · have hid := h.config.locateAlignment_lt halign hmax
    have heq := FastArenaBinsInfo.eq_of_locateAlignment halign hmin hid
    have hdvd : 2 ^ (bins.binsInfo.minArenaAlignmentLog2 + bins.binsInfo.locateAlignment
        alignment) ∣
        alignUp size alignment := by
      rw [← heq]
      exact alignUp_dvd _ _
    have hlt : ¬alignUp size alignment ≤ bins.binsInfo.globalMaxAllocSize :=
      not_le.mpr (lt_of_lt_of_le hsize (le_alignUp (isAlignment_pos halign)))
    unfold FastArenaBins.acquireArena
    simp only [if_neg hid.ne, align_of_le halign hwrap, ok_bind, h.config.canAllocateAligned_eq hid
      hdvd,
      decide_eq_false hlt, Bool.not_false, if_true]
    rfl
  · exact acquireArena_of_gt halign (not_le.mp hmax)

/-- No operation changes the ranges. -/
theorem binsInfo_of_step (h : bins.WellFormed heap)
    (hstep : BinsStep FastArenaStepSplitAllocator.ops held Suitable (heap, bins) (heap', bins')) :
    bins'.binsInfo = bins.binsInfo := by
  cases hstep with
  | acquire hok =>
    obtain ⟨-, hinfo, -⟩ := h.acquireArena hok
    exact hinfo
  | release hp hpos hlt hsuit hshaped hbusyHeld hbusy hlinked hok =>
    obtain ⟨htype, i, hi, halign, hlarge⟩ := hsuit
    obtain ⟨heap₁, bins₁, hok₁, -, hinfo, -⟩ := h.releaseArena hbusyHeld hi hp
      ⟨⟨hpos, hlt⟩, hshaped, htype, halign, hlarge⟩ hlinked hbusy
    obtain ⟨rfl, rfl⟩ := Prod.mk.inj (Except.ok.inj (hok.symm.trans hok₁))
    exact hinfo
  | extract hp hok =>
    obtain ⟨bins₁, hok₁, -, hinfo, -⟩ := h.extractArena hp
    obtain ⟨rfl, rfl⟩ := Prod.mk.inj (Except.ok.inj (hok.symm.trans hok₁))
    exact hinfo
  | write => rfl

/-- The states that clients reach are well formed, and have the ranges of the bins created. -/
theorem reachable_inv (hcreate : (create config).Creates init)
    (hreach : BinsReachable FastArenaStepSplitAllocator.ops held Suitable init heap bins) :
    bins.WellFormed heap ∧ bins.binsInfo = init.binsInfo := by
  have hwf : ∀ {heap bins},
      BinsReachable FastArenaStepSplitAllocator.ops held Suitable init heap bins →
      bins.WellFormed heap :=
    law.binsReachable_wellFormed fun heap => (create_spec hcreate heap).1
  refine ⟨hwf hreach, ?_⟩
  induction hreach with
  | init heap => rfl
  | step hprev hstep ih => exact (binsInfo_of_step (hwf hprev) hstep).trans ih

/-- **Acquiring an arena is sound and complete.**  In every state that clients of the bins reach,
and for every alignment in the range, `acquire_arena` returns `Failed` iff the rounded size is above
the maximal one.  An arena that it returns was held under the alignment, has room for the rounded
size and is the only one taken out.  It returns `NoResource` only if the cached arena has less room,
and no arena in a list has the base size of the bin from which the search starts. -/
theorem reachable_acquireArena (hcreate : (create config).Creates init)
    (hstep : config.maxArenaStepSizeLog2 < 48)
    (hreach : BinsReachable FastArenaStepSplitAllocator.ops held Suitable init heap bins)
    (hsmall : ∀ p ∈ bins.held, (heap p).arenaMemorySize < 2 ^ 48)
    (halign : isAlignment alignment = true) (hmin : 2 ^ config.minArenaAlignmentLog2 ≤ alignment)
    (hmax : alignment ≤ 2 ^ config.maxArenaAlignmentLog2) (hsize : 1 ≤ size)
    (hwrap : size + alignment - 1 < 2 ^ 64) :
    ∃ id r heap' bins', id < bins.binsInfo.numAlignments ∧
      (bins.stepSplitEntries id).alignment = alignment ∧
      (∀ p ∈ bins.held, (heap p).remaining = .ok (heap p).room) ∧
      bins.acquireArena heap size alignment = .ok (r, heap', bins') ∧
      (r = .failed ↔ bins.binsInfo.globalMaxAllocSize < alignUp size alignment) ∧
      (∀ p, r = .acquired p → p ∈ (bins.stepSplitEntries id).held ∧
        alignUp size alignment ≤ (heap p).room ∧ TakesOut heap heap' bins bins' p) ∧
      (r = .noResource → heap' = heap ∧ bins' = bins ∧
        ((bins.stepSplitEntries id).cachedArena ≠ 0 →
          (heap (bins.stepSplitEntries id).cachedArena).room < alignUp size alignment) ∧
        ∃ i base, bins.binsInfo.locateStepSplitSizeClamped id (alignUp size alignment) = .ok i ∧
          bins.binsInfo.stepSplitSize i = .ok base ∧
          ∀ j, ∀ p ∈ (bins.stepSplitEntries id).arenas j, (heap p).room < base) := by
  obtain ⟨hwf, hinfo⟩ := reachable_inv hcreate hreach
  obtain ⟨hmins, hminlog, hmaxlog⟩ : bins.binsInfo.Mins ∧
      bins.binsInfo.minArenaAlignmentLog2 = config.minArenaAlignmentLog2 ∧
      bins.binsInfo.maxArenaAlignmentLog2 = config.maxArenaAlignmentLog2 := by
    simp only [create, creates_bind, creates_pure] at hcreate
    obtain ⟨info, hcreateInfo, entries, -, rfl⟩ := hcreate
    rw [hinfo]
    exact ⟨FastArenaBinsInfo.create_mins hcreateInfo hstep,
      FastArenaBinsInfo.create_alignmentLog2 hcreateInfo⟩
  rw [← hminlog] at hmin
  rw [← hmaxlog] at hmax
  have hid := hwf.config.locateAlignment_lt halign hmax
  have heq := FastArenaBinsInfo.eq_of_locateAlignment halign hmin hid
  obtain ⟨r, heap', bins', hok, hacquires⟩ :=
    hwf.acquireArena_spec hmins hsmall halign hmin hmax hsize hwrap
  refine ⟨_, r, heap', bins', hid, (hwf.entry _ hid).alignment_eq.trans heq.symm, fun p hp => ?_,
    hok, ?_⟩
  · obtain ⟨i, hi, hpi⟩ := mem_held.mp hp
    exact ((hwf.entry i hi).member p hpi).2.remaining_eq
  cases hacquires with
  | failed hlt => exact ⟨⟨fun _ => hlt, fun _ => rfl⟩, by simp, by simp⟩
  | acquired hle hp hroom htakes =>
    refine ⟨⟨by simp, fun hlt => absurd hle (not_le.mpr hlt)⟩, fun q hq => ?_, by simp⟩
    obtain rfl := AcquiredResource.acquired.inj hq
    exact ⟨hp, hroom, htakes⟩
  | @noResource i hle hcached hlocate hlists =>
    refine ⟨⟨by simp, fun hlt => absurd hle (not_le.mpr hlt)⟩, by simp, fun _ =>
      ⟨rfl, rfl, hcached, ?_⟩⟩
    obtain ⟨k, hk, -, hklt, -⟩ := hmins.locateStepSplitSizeClamped_spec hwf.config hid
      (alignUp_pos (isAlignment_pos halign) hsize) hle
    obtain rfl : i = k := Except.ok.inj (hlocate.symm.trans hk)
    exact ⟨i, _, hlocate, hwf.config.stepSplitSize_eq hklt, hlists⟩

/-- A client has released an arena of 4096 bytes, of which 16 are taken; a request of 100 bytes is
rounded up to 112 and served by it. -/
theorem reachable_acquireArena_sample : ∃ init heap bins r heap' bins',
    (create ⟨0, 12, 12, 4, 4⟩).Creates init ∧
      BinsReachable FastArenaStepSplitAllocator.ops held Suitable init heap bins ∧
      128 ∈ bins.held ∧ (heap 128).room = 4080 ∧
      bins.acquireArena heap 100 16 = .ok (r, heap', bins') ∧ r = .acquired 128 := by
  have hcreate : (create ⟨0, 12, 12, 4, 4⟩).Creates FastArenaStepSplitAllocator.sampleAlloc.bins :=
    rfl
  have hheld := (create_spec hcreate default).2
  obtain ⟨arena, harena⟩ : ∃ arena : FastArena,
      arena = { FastArena.block4096 0 with regionChunkHeader := 65, top := 16 } := ⟨_, rfl⟩
  obtain ⟨bins, hrelease, heap', bins', hacquire⟩ : ∃ bins,
      FastArenaStepSplitAllocator.ops.release (fun _ => arena)
        FastArenaStepSplitAllocator.sampleAlloc.bins 128 = .ok (fun _ => arena, bins) ∧
      ∃ heap' bins', bins.acquireArena (fun _ => arena) 100 16 =
        .ok (.acquired 128, heap', bins') := by
    subst harena
    exact ⟨_, rfl, _, _, rfl⟩
  have hreach : BinsReachable FastArenaStepSplitAllocator.ops held Suitable
      FastArenaStepSplitAllocator.sampleAlloc.bins (fun _ => arena) bins := by
    refine .step (.init _) (.release (by rw [hheld]; exact List.not_mem_nil) (by decide) (by decide)
      ?_ ?_ (by simp [hheld]) ?_ ?_ hrelease)
    all_goals subst harena
    · exact ⟨rfl, 0, by decide, rfl, by decide⟩
    · exact ⟨⟨by decide, by decide, by decide, by decide, by decide, by decide⟩, by decide,
      by decide⟩
    · decide
    · rfl
  obtain ⟨id, r, heap₁, bins₁, hid, -, -, hok, -, hacquired, -⟩ :=
    reachable_acquireArena hcreate (by decide) hreach (fun p _ => by subst harena; decide)
      (show isAlignment 16 = true by decide) (by decide) (by decide) (show 1 ≤ 100 by decide)
      (by decide)
  have hr : r = .acquired 128 := (Prod.mk.inj (Except.ok.inj (hok.symm.trans hacquire))).1
  obtain ⟨hp, -, -⟩ := hacquired 128 hr
  exact ⟨_, _, _, r, heap₁, bins₁, hcreate, hreach, mem_held.mpr ⟨id, hid, hp⟩,
    by subst harena; rfl, hok, hr⟩

end FastArenaBins

end Cuw3
