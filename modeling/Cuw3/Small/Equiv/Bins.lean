/-
  The small bins keep their representation.

  Every held arena is in one place: the current slot or one of the three lists of the bin of its
  alignment.  The arenas of the free list have room for every size up to the cutoff, those of the
  other two lists do not; the counter is the number of held arenas (`WellFormed`).  The operations
  take and put single arenas (`FastArenaSmallBins.law`), so the invariant of runs applies: it holds
  in every state that runs of the allocator reach (`reachable_wellFormed`).
-/
import Cuw3.Small.FastArenaSmallAllocator
import Cuw3.Arena.Equiv.Runs
import Cuw3.Arena.Equiv.RetireReclaim
import Cuw3.Lib.Slots

namespace Cuw3

open Lib

/-! ### One bin -/

namespace FastArenaSmallBin

/-- The arenas in a bin. -/
def held (bin : FastArenaSmallBin) : List Nat :=
  (if bin.currentArena = 0 then [] else [bin.currentArena]) ++
    (bin.freeList ++ (bin.cutoffList ++ bin.recycledList))

/-- What a bin of alignment `alignment` asks of its arenas. -/
structure Member (alignment : Nat) (arena : FastArena) : Prop extends FastArena.Shaped arena where
  type : arena.type = RegionChunkType.fastArenaSmallAllocator.val
  alignment_eq : arena.arenaAlignment = alignment
  unlinked : arena.linked = false

structure WellFormed (heap : Heap) (alignment sizeCutoff : Nat) (bin : FastArenaSmallBin) : Prop
    where
  alignment_eq : bin.alignment = alignment
  sizeCutoff_eq : bin.sizeCutoff = sizeCutoff
  member : ∀ p ∈ bin.held, (0 < p ∧ p < 2 ^ 64) ∧ Member alignment (heap p)
  free : ∀ p ∈ bin.freeList, sizeCutoff ≤ (heap p).room
  cutoff : ∀ p ∈ bin.cutoffList, (heap p).room < sizeCutoff
  recycled : ∀ p ∈ bin.recycledList, (heap p).room < sizeCutoff

variable {heap heap' : Heap} {alignment sizeCutoff size p : Nat} {bin bin' : FastArenaSmallBin}
  {r : AcquiredResource}

theorem mem_held {q : Nat} : q ∈ bin.held ↔ (q = bin.currentArena ∧ q ≠ 0) ∨ q ∈ bin.freeList ∨
    q ∈ bin.cutoffList ∨ q ∈ bin.recycledList := by
  by_cases h : bin.currentArena = 0
  · simp only [held, h, if_true, List.nil_append, List.mem_append]
    tauto
  · simp only [held, h, if_false, List.singleton_append, List.mem_cons, List.mem_append]
    refine or_congr ⟨fun heq => ⟨heq, heq ▸ h⟩, fun heq => heq.1⟩ Iff.rfl

theorem WellFormed.congr (h : bin.WellFormed heap alignment sizeCutoff)
    (hmem : ∀ p ∈ bin.held, Member alignment (heap' p) ∧ (heap' p).room = (heap p).room) :
    bin.WellFormed heap' alignment sizeCutoff where
  alignment_eq := h.alignment_eq
  sizeCutoff_eq := h.sizeCutoff_eq
  member q hq := ⟨(h.member q hq).1, (hmem q hq).1⟩
  free q hq := by
    rw [(hmem q (mem_held.mpr (.inr (.inl hq)))).2]
    exact h.free q hq
  cutoff q hq := by
    rw [(hmem q (mem_held.mpr (.inr (.inr (.inl hq))))).2]
    exact h.cutoff q hq
  recycled q hq := by
    rw [(hmem q (mem_held.mpr (.inr (.inr (.inr hq))))).2]
    exact h.recycled q hq

theorem Member.tooSmall_eq (h : Member alignment (heap p)) :
    tooSmall (heap p) size = .ok (decide (u64 (2 * (heap p).room) < size)) := by
  rw [tooSmall, h.remaining_eq]
  rfl

/-- The cutoff is a multiple of the alignment below `2 ^ 64`, so rounding up to it cannot wrap. -/
theorem Member.size_add_lt (h : Member alignment (heap p)) (hdvd : alignment ∣ sizeCutoff)
    (hlt : sizeCutoff < 2 ^ 64) (hsize : size ≤ sizeCutoff) :
    size + (heap p).arenaAlignment - 1 < 2 ^ 64 := by
  have halign : (heap p).arenaAlignment < 2 ^ 64 := by
    obtain ⟨k, hk, hk'⟩ := isAlignment_iff.mp h.isAlignment
    exact hk' ▸ Nat.pow_lt_pow_right (by decide) hk
  have hself := FastArena.requiredSpace_of_dvd hlt h.isAlignment (h.alignment_eq ▸ hdvd)
  by_contra hge
  rw [FastArena.requiredSpace_of_wrap hlt h.alignment_pos (by omega)] at hself
  omega

/-- The rounded size of a request up to the cutoff is at most the cutoff. -/
theorem Member.requiredSpace_le (h : Member alignment (heap p)) (hdvd : alignment ∣ sizeCutoff)
    (hlt : sizeCutoff < 2 ^ 64) (hsize : size ≤ sizeCutoff) :
    (heap p).requiredSpace size ≤ sizeCutoff ∧ (0 < size → 0 < (heap p).requiredSpace size) := by
  have hpos := h.alignment_pos
  have hle : (heap p).arenaAlignment ∣ sizeCutoff := h.alignment_eq ▸ hdvd
  by_cases hzero : size = 0
  · subst hzero
    rw [FastArena.requiredSpace_of_dvd (by decide) h.isAlignment (Nat.dvd_zero _)]
    exact ⟨Nat.zero_le _, id⟩
  rw [FastArena.requiredSpace_of_le (h.size_add_lt hdvd hlt hsize)]
  exact ⟨alignUp_le_of_dvd hpos hle hsize, fun _ => alignUp_pos hpos (by omega)⟩

/-- What `acquire` returns: an arena of the bin that can serve the request, or none. -/
def Acquired (heap : Heap) (bin bin' : FastArenaSmallBin) (size : Nat) : AcquiredResource → Prop
  | .acquired p => (p :: bin'.held).Perm bin.held ∧ (heap p).requiredSpace size ≤ (heap p).room
  | .noResource => bin'.held.Perm bin.held
  | .failed => False

theorem WellFormed.acquireFromLists (h : bin.WellFormed heap alignment sizeCutoff)
    (hdvd : alignment ∣ sizeCutoff) (hlt : sizeCutoff < 2 ^ 64) (hsize : size ≤ sizeCutoff)
    (hok : acquireFromLists heap bin size = .ok (r, bin')) :
    bin'.WellFormed heap alignment sizeCutoff ∧ Acquired heap bin bin' size r := by
  unfold FastArenaSmallBin.acquireFromLists at hok
  cases hfree : bin.freeList with
  | cons arena freeList =>
    simp only [hfree, pure_eq_ok, Prod.mk.injEq] at hok
    obtain ⟨rfl, rfl⟩ := hok
    have hperm : (arena :: FastArenaSmallBin.held { bin with freeList }).Perm bin.held := by
      simp only [held, hfree]
      exact List.perm_middle.symm
    have hmem : arena ∈ bin.held := hperm.subset List.mem_cons_self
    refine ⟨⟨h.alignment_eq, h.sizeCutoff_eq, ?_, ?_, h.cutoff, h.recycled⟩, hperm, ?_⟩
    · exact fun q hq => h.member q (hperm.subset (List.mem_cons_of_mem _ hq))
    · exact fun q hq => h.free q (by rw [hfree]; exact List.mem_cons_of_mem _ hq)
    · exact (((h.member arena hmem).2.requiredSpace_le hdvd hlt hsize).1).trans
        (h.free arena (by rw [hfree]; exact List.mem_cons_self))
  | nil =>
    cases hcutoff : bin.cutoffList with
    | nil =>
      simp only [hfree, hcutoff, pure_eq_ok, Prod.mk.injEq] at hok
      obtain ⟨rfl, rfl⟩ := hok
      exact ⟨h, .refl _⟩
    | cons arena cutoffList =>
      have hin : arena ∈ bin.cutoffList := by rw [hcutoff]; exact List.mem_cons_self
      have hmem : arena ∈ bin.held := mem_held.mpr (.inr (.inr (.inl hin)))
      have hrest : ∀ q ∈ cutoffList, (heap q).room < sizeCutoff :=
        fun q hq => h.cutoff q (by rw [hcutoff]; exact List.mem_cons_of_mem _ hq)
      have hmember := (h.member arena hmem).2
      simp only [hfree, hcutoff, hmember.canAllocate_eq, hmember.tooSmall_eq, ok_bind,
        decide_eq_true_eq] at hok
      split_ifs at hok with hcan hsmall
      · simp only [pure_eq_ok, Prod.mk.injEq] at hok
        obtain ⟨rfl, rfl⟩ := hok
        have hperm : (arena :: FastArenaSmallBin.held { bin with freeList := [], cutoffList }).Perm
            bin.held := by
          simp only [held, hfree, hcutoff, List.nil_append]
          exact List.perm_middle.symm
        refine ⟨⟨h.alignment_eq, h.sizeCutoff_eq, ?_, by simp, hrest, h.recycled⟩, hperm, hcan⟩
        exact fun q hq => h.member q (hperm.subset (List.mem_cons_of_mem _ hq))
      · simp only [pure_eq_ok, Prod.mk.injEq] at hok
        obtain ⟨rfl, rfl⟩ := hok
        have hperm : (FastArenaSmallBin.held { bin with
            freeList := [], cutoffList, recycledList := arena :: bin.recycledList }).Perm
              bin.held := by
          simp only [held, hfree, hcutoff, List.cons_append, List.nil_append]
          exact List.perm_middle.append_left _
        refine ⟨⟨h.alignment_eq, h.sizeCutoff_eq, fun q hq => h.member q (hperm.subset hq), by simp,
          hrest, ?_⟩, hperm⟩
        exact List.forall_mem_cons.mpr ⟨h.cutoff arena hin, h.recycled⟩
      · simp only [pure_eq_ok, Prod.mk.injEq] at hok
        obtain ⟨rfl, rfl⟩ := hok
        exact ⟨h, .refl _⟩

/-- The current arena is given up. -/
theorem WellFormed.recycleCurrent (h : bin.WellFormed heap alignment sizeCutoff)
    (hcurrent : bin.currentArena ≠ 0) (hroom : (heap bin.currentArena).room < sizeCutoff) :
    FastArenaSmallBin.WellFormed heap alignment sizeCutoff { bin with
      currentArena := 0
      recycledList := bin.currentArena :: bin.recycledList } ∧
    (FastArenaSmallBin.held { bin with
      currentArena := 0
      recycledList := bin.currentArena :: bin.recycledList }).Perm bin.held := by
  have hperm : (FastArenaSmallBin.held { bin with
      currentArena := 0
      recycledList := bin.currentArena :: bin.recycledList }).Perm bin.held := by
    simp only [held, hcurrent, if_true, if_false, List.nil_append, List.singleton_append]
    rw [← List.append_assoc, ← List.append_assoc]
    exact List.perm_middle
  refine ⟨⟨h.alignment_eq, h.sizeCutoff_eq, fun q hq => h.member q (hperm.subset hq), h.free,
    h.cutoff,
    ?_⟩, hperm⟩
  exact List.forall_mem_cons.mpr ⟨hroom, h.recycled⟩

theorem Acquired.of_perm {bin₁ : FastArenaSmallBin} (h : Acquired heap bin₁ bin' size r)
    (hperm : bin₁.held.Perm bin.held) : Acquired heap bin bin' size r := by
  cases r with
  | failed => exact h
  | acquired p => exact ⟨h.1.trans hperm, h.2⟩
  | noResource => exact h.trans hperm

/-- `acquire` takes an arena with room for the request, or none.  It may move the current arena and
the head of the cutoff list to the recycled list. -/
theorem WellFormed.acquire (h : bin.WellFormed heap alignment sizeCutoff)
    (hdvd : alignment ∣ sizeCutoff) (hlt : sizeCutoff < 2 ^ 64) (hsize : size ≤ sizeCutoff)
    (hok : bin.acquire heap size = .ok (r, bin')) :
    bin'.WellFormed heap alignment sizeCutoff ∧ Acquired heap bin bin' size r := by
  unfold FastArenaSmallBin.acquire at hok
  by_cases hcurrent : bin.currentArena = 0
  · rw [if_pos hcurrent] at hok
    exact h.acquireFromLists hdvd hlt hsize hok
  have hmem : bin.currentArena ∈ bin.held := mem_held.mpr (.inl ⟨rfl, hcurrent⟩)
  have hmember := (h.member _ hmem).2
  simp only [if_neg hcurrent, hmember.canAllocate_eq, hmember.tooSmall_eq, ok_bind,
    decide_eq_true_eq] at hok
  split_ifs at hok with hcan hsmall
  · simp only [pure_eq_ok, Prod.mk.injEq] at hok
    obtain ⟨rfl, rfl⟩ := hok
    have hperm : (bin.currentArena ::
        FastArenaSmallBin.held { bin with currentArena := 0 }).Perm bin.held := by
      simp only [held, hcurrent, if_true, if_false, List.nil_append, List.singleton_append]
      exact .refl _
    refine ⟨⟨h.alignment_eq, h.sizeCutoff_eq, ?_, h.free, h.cutoff, h.recycled⟩, hperm, hcan⟩
    exact fun q hq => h.member q (hperm.subset (List.mem_cons_of_mem _ hq))
  · -- an arena that cannot serve a size up to the cutoff has less room than the cutoff
    have hroom : (heap bin.currentArena).room < sizeCutoff :=
      lt_of_lt_of_le (not_le.mp hcan) (hmember.requiredSpace_le hdvd hlt hsize).1
    obtain ⟨hwf, hperm⟩ := h.recycleCurrent hcurrent hroom
    obtain ⟨hwf', hacquired⟩ := hwf.acquireFromLists hdvd hlt hsize hok
    exact ⟨hwf', hacquired.of_perm hperm⟩
  · exact h.acquireFromLists hdvd hlt hsize hok

theorem WellFormed.acquireFromLists_exists (h : bin.WellFormed heap alignment sizeCutoff) :
    ∃ r bin', FastArenaSmallBin.acquireFromLists heap bin size = .ok (r, bin') ∧
      r ≠ AcquiredResource.failed := by
  unfold FastArenaSmallBin.acquireFromLists
  cases hfree : bin.freeList with
  | cons arena freeList => exact ⟨_, _, rfl, by simp⟩
  | nil =>
    cases hcutoff : bin.cutoffList with
    | nil => exact ⟨_, _, rfl, by simp⟩
    | cons arena cutoffList =>
      have hin : arena ∈ bin.cutoffList := by rw [hcutoff]; exact List.mem_cons_self
      have hmember := (h.member arena (mem_held.mpr (.inr (.inr (.inl hin))))).2
      simp only [hmember.canAllocate_eq, hmember.tooSmall_eq, ok_bind, decide_eq_true_eq]
      split_ifs
      · exact ⟨_, _, rfl, by simp⟩
      · exact ⟨_, _, rfl, by simp⟩
      · exact ⟨_, _, rfl, by simp⟩

/-- `acquire` passes its checks. -/
theorem WellFormed.acquire_exists (h : bin.WellFormed heap alignment sizeCutoff)
    (hdvd : alignment ∣ sizeCutoff) (hlt : sizeCutoff < 2 ^ 64) (hsize : size ≤ sizeCutoff) :
    ∃ r bin', bin.acquire heap size = .ok (r, bin') ∧ r ≠ AcquiredResource.failed := by
  unfold FastArenaSmallBin.acquire
  by_cases hcurrent : bin.currentArena = 0
  · rw [if_pos hcurrent]
    exact h.acquireFromLists_exists
  have hmember := (h.member _ (mem_held.mpr (.inl ⟨rfl, hcurrent⟩))).2
  simp only [if_neg hcurrent, hmember.canAllocate_eq, hmember.tooSmall_eq, ok_bind,
    decide_eq_true_eq]
  split_ifs with hcan hsmall
  · exact ⟨_, _, rfl, by simp⟩
  · have hroom : (heap bin.currentArena).room < sizeCutoff :=
      lt_of_lt_of_le (not_le.mp hcan) (hmember.requiredSpace_le hdvd hlt hsize).1
    exact (h.recycleCurrent hcurrent hroom).1.acquireFromLists_exists
  · exact h.acquireFromLists_exists

theorem WellFormed.releaseToLists (h : bin.WellFormed heap alignment sizeCutoff)
    (hp : (0 < p ∧ p < 2 ^ 64) ∧ Member alignment (heap p)) :
    ∃ bin', releaseToLists heap bin p = .ok bin' ∧ bin'.WellFormed heap alignment sizeCutoff ∧
      bin'.held.Perm (p :: bin.held) := by
  simp only [FastArenaSmallBin.releaseToLists, hp.2.remaining_eq, ok_bind]
  split_ifs with hroom <;> rw [h.sizeCutoff_eq] at hroom
  · refine ⟨_, rfl, ⟨h.alignment_eq, h.sizeCutoff_eq, ?_, ?_, h.cutoff, h.recycled⟩,
      List.perm_middle⟩
    · intro q hq
      rcases List.mem_cons.mp (List.perm_middle.subset hq) with rfl | hq
      · exact hp
      · exact h.member q hq
    · exact List.forall_mem_cons.mpr ⟨hroom, h.free⟩
  · have hperm : (FastArenaSmallBin.held { bin with cutoffList := p :: bin.cutoffList }).Perm
        (p :: bin.held) := by
      simp only [held, List.cons_append]
      rw [← List.append_assoc, ← List.append_assoc]
      exact List.perm_middle
    refine ⟨_, rfl, ⟨h.alignment_eq, h.sizeCutoff_eq, ?_, h.free, ?_, h.recycled⟩, hperm⟩
    · intro q hq
      rcases List.mem_cons.mp (hperm.subset hq) with rfl | hq
      · exact hp
      · exact h.member q hq
    · exact List.forall_mem_cons.mpr ⟨not_le.mp hroom, h.cutoff⟩

/-- `release` puts an arena into the bin; it may become the current one. -/
theorem WellFormed.release (h : bin.WellFormed heap alignment sizeCutoff)
    (hp : (0 < p ∧ p < 2 ^ 64) ∧ Member alignment (heap p)) :
    ∃ bin', bin.release heap p = .ok bin' ∧ bin'.WellFormed heap alignment sizeCutoff ∧
      bin'.held.Perm (p :: bin.held) := by
  have hp0 : p ≠ 0 := Nat.pos_iff_ne_zero.mp hp.1.1
  have hal : bin.alignment ≤ (heap p).arenaAlignment := by
    rw [h.alignment_eq, hp.2.alignment_eq]
  simp only [FastArenaSmallBin.release, check_of hp0, check_of hal, check_of hp.2.type, ok_bind]
  by_cases hcurrent : bin.currentArena = 0
  · rw [if_pos hcurrent]
    have hperm : (FastArenaSmallBin.held { bin with currentArena := p }).Perm (p :: bin.held) := by
      simp only [held, hcurrent, hp0, if_true, if_false, List.nil_append, List.singleton_append]
      exact .refl _
    refine ⟨_, rfl, ⟨h.alignment_eq, h.sizeCutoff_eq, ?_, h.free, h.cutoff, h.recycled⟩, hperm⟩
    intro q hq
    rcases List.mem_cons.mp (hperm.subset hq) with rfl | hq
    · exact hp
    · exact h.member q hq
  have hmem : bin.currentArena ∈ bin.held := mem_held.mpr (.inl ⟨rfl, hcurrent⟩)
  simp only [if_neg hcurrent, (h.member _ hmem).2.remaining_eq, hp.2.remaining_eq, ok_bind]
  split_ifs with hbigger
  · -- the arena becomes current, the old one goes into the lists
    have hperm : (FastArenaSmallBin.held { bin with currentArena := 0 }).Perm
        (bin.held.erase bin.currentArena) := by
      simp only [held, hcurrent, if_true, if_false, List.nil_append, List.singleton_append,
        List.erase_cons_head]
      exact .refl _
    have hwf : FastArenaSmallBin.WellFormed heap alignment sizeCutoff
        { bin with currentArena := p } := by
      refine ⟨h.alignment_eq, h.sizeCutoff_eq, ?_, h.free, h.cutoff, h.recycled⟩
      intro q hq
      rcases mem_held.mp hq with ⟨rfl, -⟩ | hq
      · exact hp
      · exact h.member q (mem_held.mpr (.inr hq))
    obtain ⟨bin', hok, hwf', hheld⟩ := hwf.releaseToLists (h.member _ hmem)
    refine ⟨bin', hok, hwf', hheld.trans ?_⟩
    simp only [held, hcurrent, hp0, if_false, List.singleton_append]
    exact List.Perm.swap _ _ _
  · exact h.releaseToLists hp

/-- `extract` takes the given arena out of the bin. -/
theorem WellFormed.extract (h : bin.WellFormed heap alignment sizeCutoff) (hnodup : bin.held.Nodup)
    (hp : p ∈ bin.held) : ∃ bin', bin.extract heap p = .ok bin' ∧
      bin'.WellFormed heap alignment sizeCutoff ∧ (p :: bin'.held).Perm bin.held := by
  obtain ⟨⟨hpos, -⟩, hmember⟩ := h.member p hp
  have hp0 : p ≠ 0 := Nat.pos_iff_ne_zero.mp hpos
  have hal : bin.alignment ≤ (heap p).arenaAlignment := by
    rw [h.alignment_eq, hmember.alignment_eq]
  simp only [FastArenaSmallBin.extract, check_of hp0, check_of hal, check_of hmember.type, ok_bind]
  by_cases hcurrent : p = bin.currentArena
  · subst hcurrent
    rw [if_pos rfl]
    have hperm : (bin.currentArena ::
        FastArenaSmallBin.held { bin with currentArena := 0 }).Perm bin.held := by
      simp only [held, hp0, if_true, if_false, List.nil_append, List.singleton_append]
      exact .refl _
    refine ⟨_, rfl, ⟨h.alignment_eq, h.sizeCutoff_eq, ?_, h.free, h.cutoff, h.recycled⟩, hperm⟩
    exact fun q hq => h.member q (hperm.subset (List.mem_cons_of_mem _ hq))
  rw [if_neg hcurrent]
  have hperm : (p :: FastArenaSmallBin.held { bin with
      freeList := bin.freeList.erase p
      cutoffList := bin.cutoffList.erase p
      recycledList := bin.recycledList.erase p }).Perm bin.held := by
    -- the arena occurs once, so it is erased from one of the lists
    have hone := List.nodup_iff_count_le_one.mp hnodup p
    have hsome := List.count_pos_iff.mpr hp
    rw [List.perm_iff_count]
    intro q
    simp only [held, List.count_append, List.count_cons, List.count_erase] at hone hsome ⊢
    by_cases hqp : q = p
    · subst hqp
      have hhead : List.count q (if bin.currentArena = 0 then [] else [bin.currentArena]) = 0 := by
        split_ifs
        · simp
        · simp [Ne.symm hcurrent]
      simp only [hhead, beq_self_eq_true, if_true] at hone hsome ⊢
      omega
    · simp [Ne.symm hqp]
  refine ⟨_, rfl, ⟨h.alignment_eq, h.sizeCutoff_eq, ?_, ?_, ?_, ?_⟩, hperm⟩
  · exact fun q hq => h.member q (hperm.subset (List.mem_cons_of_mem _ hq))
  · exact fun q hq => h.free q (List.mem_of_mem_erase hq)
  · exact fun q hq => h.cutoff q (List.mem_of_mem_erase hq)
  · exact fun q hq => h.recycled q (List.mem_of_mem_erase hq)

end FastArenaSmallBin

/-! ### The bins of all alignments -/

namespace FastArenaSmallBins

/-- All held arenas. -/
def held (bins : FastArenaSmallBins) : List Nat :=
  slots (List.range bins.numAlignments) fun i => (bins.bins i).held

/-- The bins take small arenas of the configured alignments. -/
def Suitable (bins : FastArenaSmallBins) (arena : FastArena) : Prop :=
  arena.type = RegionChunkType.fastArenaSmallAllocator.val ∧
    ∃ i < bins.numAlignments, arena.arenaAlignment = 2 ^ (bins.minArenaAlignmentLog2 + i)

/-- What `create` has checked and computed. -/
structure Config (bins : FastArenaSmallBins) : Prop where
  min_ge : confFastArenaMinAlignmentLog2 ≤ bins.minArenaAlignmentLog2
  max_le : bins.maxArenaAlignmentLog2 ≤ confFastArenaMaxAlignmentLog2
  num : bins.minArenaAlignmentLog2 + bins.numAlignments = bins.maxArenaAlignmentLog2 + 1
  num_pos : 0 < bins.numAlignments
  cutoff_dvd : 2 ^ bins.maxArenaAlignmentLog2 ∣ bins.sizeCutoff
  cutoff_lt : bins.sizeCutoff < 2 ^ 64

/-- The representation of the bins. -/
structure WellFormed (heap : Heap) (bins : FastArenaSmallBins) : Prop extends Config bins where
  bin : ∀ i < bins.numAlignments, (bins.bins i).WellFormed heap
    (2 ^ (bins.minArenaAlignmentLog2 + i)) bins.sizeCutoff
  nodup : bins.held.Nodup
  total : bins.totalArenas = bins.held.length

/-- Only the contents of the bins and the counter differ. -/
def SameConfig (bins bins' : FastArenaSmallBins) : Prop :=
  bins' = { bins with bins := bins'.bins, totalArenas := bins'.totalArenas }

variable {heap heap' : Heap} {size alignmentId p i : Nat} {bins bins' : FastArenaSmallBins}
  {r : AcquiredResource}

theorem SameConfig.suitable (h : SameConfig bins bins') : bins'.Suitable = bins.Suitable := by
  rw [h]
  rfl

theorem mem_held : p ∈ bins.held ↔ ∃ i < bins.numAlignments, p ∈ (bins.bins i).held := by
  simp [held]

theorem Config.cutoff_dvd_of_lt (h : bins.Config) (hi : i < bins.numAlignments) :
    2 ^ (bins.minArenaAlignmentLog2 + i) ∣ bins.sizeCutoff := by
  have hnum := h.num
  exact (Nat.pow_dvd_pow 2 (by omega)).trans h.cutoff_dvd

/-- The bin of a supported alignment. -/
theorem Config.locateAlignment_two_pow (h : bins.Config) (hi : i < bins.numAlignments) :
    bins.locateAlignment (2 ^ (bins.minArenaAlignmentLog2 + i)) = i := by
  have hnum := h.num
  rw [locateAlignment, intlog2_eq, Nat.log2_two_pow, if_neg (by omega)]
  omega

/-- The bin of a requested alignment has that alignment, or a larger one. -/
theorem dvd_of_locateAlignment {alignment : Nat} (h : isAlignment alignment = true)
    (hi : bins.locateAlignment alignment < bins.numAlignments) :
    alignment ∣ 2 ^ (bins.minArenaAlignmentLog2 + bins.locateAlignment alignment) := by
  obtain ⟨k, -, rfl⟩ := isAlignment_iff.mp h
  rw [locateAlignment, intlog2_eq, Nat.log2_two_pow] at hi ⊢
  split_ifs at hi ⊢ with hmax
  · exact absurd hi (Nat.lt_irrefl _)
  · exact Nat.pow_dvd_pow 2 (by omega)

/-- An alignment that has a bin, and is not below those of the arenas taken, is one of them. -/
theorem eq_of_locateAlignment {alignment : Nat} {a : FastArena} (h : isAlignment alignment = true)
    (ha : bins.Suitable a) (hle : a.arenaAlignment ≤ alignment)
    (hi : bins.locateAlignment alignment < bins.numAlignments) :
    alignment = 2 ^ (bins.minArenaAlignmentLog2 + bins.locateAlignment alignment) := by
  obtain ⟨k, -, rfl⟩ := isAlignment_iff.mp h
  obtain ⟨-, i, -, heq⟩ := ha
  rw [heq, Nat.pow_le_pow_iff_right (by decide)] at hle
  rw [locateAlignment, intlog2_eq, Nat.log2_two_pow] at hi ⊢
  split_ifs at hi ⊢ with hmax
  · exact absurd hi (Nat.lt_irrefl _)
  · congr 1
    omega

theorem WellFormed.arenaId_eq (h : bins.WellFormed heap) (hi : i < bins.numAlignments)
    (hp : p ∈ (bins.bins i).held) : bins.arenaId heap p = i := by
  rw [arenaId, ((h.bin i hi).member p hp).2.alignment_eq, h.toConfig.locateAlignment_two_pow hi]

theorem held_withBin {bin : FastArenaSmallBin} (ps qs : List Nat) (hi : i < bins.numAlignments)
    (hperm : (ps ++ bin.held).Perm (qs ++ (bins.bins i).held)) :
    (ps ++ (bins.withBin i bin).held).Perm (qs ++ bins.held) := by
  have hfun : (fun j => ((bins.withBin i bin).bins j).held) =
      Function.update (fun j => (bins.bins j).held) i bin.held :=
    funext fun j => Function.apply_update (fun _ => FastArenaSmallBin.held) bins.bins i bin j
  change (ps ++ slots (List.range bins.numAlignments) _).Perm _
  rw [hfun]
  exact slots_update_perm ps qs List.nodup_range (List.mem_range.mpr hi) hperm

/-- One bin was changed, and the counter follows the number of held arenas. -/
theorem WellFormed.withBin (h : bins.WellFormed heap) {bin : FastArenaSmallBin} {total : Nat}
    (hi : i < bins.numAlignments)
    (hbin : bin.WellFormed heap (2 ^ (bins.minArenaAlignmentLog2 + i)) bins.sizeCutoff)
    (hnodup : (bins.withBin i bin).held.Nodup) (htotal : total = (bins.withBin i bin).held.length) :
    WellFormed heap { bins.withBin i bin with totalArenas := total } where
  min_ge := h.min_ge
  max_le := h.max_le
  num := h.num
  num_pos := h.num_pos
  cutoff_dvd := h.cutoff_dvd
  cutoff_lt := h.cutoff_lt
  bin j hj := by
    change (Function.update bins.bins i bin j).WellFormed heap _ _
    by_cases hji : j = i
    · subst hji
      rwa [Function.update_self]
    · rw [Function.update_of_ne hji]
      exact h.bin j hj
  nodup := hnodup
  total := htotal

theorem WellFormed.nodup_bin (h : bins.WellFormed heap) (hi : i < bins.numAlignments) :
    (bins.bins i).held.Nodup :=
  slots_nodup_part (f := fun i => (bins.bins i).held) h.nodup (List.mem_range.mpr hi)

/-- What `acquire` returns: an arena of the bin that can serve the request, or none. -/
def Acquired (heap : Heap) (bins bins' : FastArenaSmallBins) (size alignmentId : Nat) :
    AcquiredResource → Prop
  | .acquired p => (p :: bins'.held).Perm bins.held ∧ p ∈ (bins.bins alignmentId).held ∧
      (heap p).requiredSpace size ≤ (heap p).room
  | .noResource => bins'.held.Perm bins.held
  | .failed => False

theorem WellFormed.acquire (h : bins.WellFormed heap) (hsize : size ≤ bins.sizeCutoff)
    (hok : bins.acquire heap size alignmentId = .ok (r, bins')) :
    alignmentId < bins.numAlignments ∧ bins'.WellFormed heap ∧
      Acquired heap bins bins' size alignmentId r ∧ SameConfig bins bins' := by
  simp only [FastArenaSmallBins.acquire, bind_eq_ok, check_eq_ok, exists_const, Prod.exists] at hok
  obtain ⟨hi, r₁, bin, hbin, hok⟩ := hok
  obtain ⟨hwf, hacquired⟩ := (h.bin _ hi).acquire (h.toConfig.cutoff_dvd_of_lt hi) h.cutoff_lt hsize
    hbin
  cases r₁ with
  | failed => exact hacquired.elim
  | noResource =>
    simp only [pure_eq_ok, Prod.mk.injEq] at hok
    obtain ⟨rfl, rfl⟩ := hok
    have hperm : (bins.withBin alignmentId bin).held.Perm bins.held :=
      held_withBin [] [] hi hacquired
    exact ⟨hi, h.withBin hi hwf (hperm.nodup_iff.mpr h.nodup)
      (h.total.trans hperm.length_eq.symm), hperm, rfl⟩
  | acquired p =>
    simp only [decTotal, bind_eq_ok, check_eq_ok, exists_const, pure_eq_ok, Prod.mk.injEq] at hok
    obtain ⟨_, ⟨-, rfl⟩, rfl, rfl⟩ := hok
    obtain ⟨hheld, hfits⟩ := hacquired
    have hperm : (p :: (bins.withBin alignmentId bin).held).Perm bins.held :=
      held_withBin [p] [] hi hheld
    have hlen := hperm.length_eq
    have htotal := h.total
    rw [List.length_cons] at hlen
    refine ⟨hi, h.withBin hi hwf (List.nodup_cons.mp (hperm.nodup_iff.mpr h.nodup)).2 ?_,
      ⟨hperm, hheld.subset List.mem_cons_self, hfits⟩, rfl⟩
    change bins.totalArenas - 1 = _
    omega

theorem WellFormed.release (h : bins.WellFormed heap) (hnot : p ∉ bins.held)
    (hp : 0 < p ∧ p < 2 ^ 64) (hi : i < bins.numAlignments)
    (hmember : FastArenaSmallBin.Member (2 ^ (bins.minArenaAlignmentLog2 + i)) (heap p)) :
    ∃ bins', bins.release heap p i = .ok bins' ∧ bins'.WellFormed heap ∧
      bins'.held.Perm (p :: bins.held) ∧ SameConfig bins bins' := by
  obtain ⟨bin, hbin, hwf, hheld⟩ := (h.bin i hi).release ⟨hp, hmember⟩
  have hperm : (bins.withBin i bin).held.Perm (p :: bins.held) :=
    held_withBin [] [p] hi hheld
  have hnodup : (bins.withBin i bin).held.Nodup :=
    hperm.nodup_iff.mpr (List.nodup_cons.mpr ⟨hnot, h.nodup⟩)
  -- distinct 64-bit addresses, so the counter does not wrap
  have hlt : (bins.withBin i bin).held.length < 2 ^ 64 := by
    refine length_lt_of_nodup hnodup (fun q hq => ?_) (by decide)
    rcases List.mem_cons.mp (hperm.subset hq) with rfl | hq
    · exact hp
    · obtain ⟨j, hj, hqj⟩ := mem_held.mp hq
      exact ((h.bin j hj).member q hqj).1
  have htotal : u64 (bins.totalArenas + 1) = (bins.withBin i bin).held.length := by
    rw [hperm.length_eq, List.length_cons] at hlt ⊢
    rw [h.total, u64_of_lt hlt]
  refine ⟨{ bins.withBin i bin with totalArenas := u64 (bins.totalArenas + 1) }, ?_,
    h.withBin hi hwf hnodup htotal, hperm, rfl⟩
  simp only [FastArenaSmallBins.release, check_of hi, hbin, ok_bind]
  rfl

theorem WellFormed.extract (h : bins.WellFormed heap) (hi : i < bins.numAlignments)
    (hp : p ∈ (bins.bins i).held) :
    ∃ bins', bins.extract heap p i = .ok bins' ∧ bins'.WellFormed heap ∧
      (p :: bins'.held).Perm bins.held ∧ SameConfig bins bins' := by
  obtain ⟨bin, hbin, hwf, hheld⟩ := (h.bin i hi).extract (h.nodup_bin hi) hp
  have hperm : (p :: (bins.withBin i bin).held).Perm bins.held :=
    held_withBin [p] [] hi hheld
  have hlen := hperm.length_eq
  have htotal := h.total
  rw [List.length_cons] at hlen
  refine ⟨{ bins.withBin i bin with totalArenas := bins.totalArenas - 1 }, ?_,
    h.withBin hi hwf (List.nodup_cons.mp (hperm.nodup_iff.mpr h.nodup)).2 (by omega), hperm, rfl⟩
  have hpos : 0 < (bins.withBin i bin).totalArenas := by
    change 0 < bins.totalArenas
    omega
  simp only [FastArenaSmallBins.extract, check_of hi, hbin, ok_bind, decTotal, check_of hpos]
  rfl

theorem WellFormed.congr (h : bins.WellFormed heap)
    (hsame : ∀ p ∈ bins.held, (heap p).SameShape (heap' p) ∧ (heap p).SameBlock (heap' p)) :
    bins.WellFormed heap' where
  toConfig := h.toConfig
  bin i hi := (h.bin i hi).congr fun p hp => by
    obtain ⟨hshape, hblock⟩ := hsame p (mem_held.mpr ⟨i, hi, hp⟩)
    have hmember := ((h.bin i hi).member p hp).2
    refine ⟨⟨hmember.toShaped.of_shape hshape hblock.memory, ?_, ?_, ?_⟩, ?_⟩
    · rw [FastArena.type, hblock.header]
      exact hmember.type
    · rw [hblock.alignment]
      exact hmember.alignment_eq
    · rw [hshape.linked]
      exact hmember.unlinked
    · rw [FastArena.room, FastArena.room, hshape.size, hshape.top]
  nodup := h.nodup
  total := h.total

/-! ### The law of the bins -/

/-- The arena that `acquire` returned serves the request. -/
theorem WellFormed.serves (h : bins.WellFormed heap) {size alignment : Nat}
    (hsize : size ≤ bins.sizeCutoff) (hi : bins.locateAlignment alignment < bins.numAlignments)
    (hp : p ∈ (bins.bins (bins.locateAlignment alignment)).held)
    (halign : isAlignment alignment = true) : (heap p).Serves size alignment := by
  have hmember := ((h.bin _ hi).member p hp).2
  refine ⟨?_, hmember.size_add_lt (h.toConfig.cutoff_dvd_of_lt hi) h.cutoff_lt hsize⟩
  rw [hmember.alignment_eq]
  exact dvd_of_locateAlignment halign hi

/-- `acquire` asks the bins only for sizes up to the cutoff. -/
theorem acquireFor_cases {size alignment : Nat}
    (hok : bins.acquireFor heap size alignment = .ok (r, bins')) :
    (r = .failed ∧ bins' = bins) ∨ (size ≤ bins.sizeCutoff ∧
      bins.acquire heap size (bins.locateAlignment alignment) = .ok (r, bins')) := by
  unfold acquireFor at hok
  by_cases hcan : bins.canAllocate size (bins.locateAlignment alignment) = true
  · have hsize : size ≤ bins.sizeCutoff := by
      simp only [canAllocate, Bool.and_eq_true, decide_eq_true_eq] at hcan
      exact hcan.2
    have hvalid : bins.validAlignmentId (bins.locateAlignment alignment) = true := by
      simp only [canAllocate, Bool.and_eq_true] at hcan
      exact hcan.1
    simp only [hcan, hvalid, Bool.not_true, Bool.false_eq_true, if_false, bind_eq_ok,
      Prod.exists] at hok
    obtain ⟨r₁, bins₁, hacquire, hok⟩ := hok
    split_ifs at hok with hfailed
    · exact absurd hok abortCritical_ne_ok
    · simp only [pure_eq_ok, Prod.mk.injEq] at hok
      obtain ⟨rfl, rfl⟩ := hok
      exact .inr ⟨hsize, hacquire⟩
  · simp only [Bool.not_eq_true] at hcan
    simp only [hcan, Bool.not_false, if_true, pure_eq_ok, Prod.mk.injEq] at hok
    exact .inl ⟨hok.1.symm, hok.2.symm⟩

theorem Config.locateAlignment_lt (h : bins.Config) {alignment : Nat}
    (halign : isAlignment alignment = true) :
    bins.locateAlignment alignment < bins.numAlignments ↔
      alignment ≤ 2 ^ bins.maxArenaAlignmentLog2 := by
  have hnum := h.num
  have hpos := h.num_pos
  obtain ⟨k, -, rfl⟩ := isAlignment_iff.mp halign
  rw [locateAlignment, intlog2_eq, Nat.log2_two_pow, Nat.pow_le_pow_iff_right (by decide)]
  split_ifs with hlt
  · omega
  · omega

/-- `FastArenaSmallAllocator::acquire` passes its checks; it fails above the maximal alignment, and
above the cutoff. -/
theorem WellFormed.acquireFor_exists (h : bins.WellFormed heap) {size alignment : Nat}
    (halign : isAlignment alignment = true) :
    ∃ r bins', bins.acquireFor heap size alignment = .ok (r, bins') ∧
      (r = .failed ↔ ¬(alignment ≤ 2 ^ bins.maxArenaAlignmentLog2 ∧ size ≤ bins.sizeCutoff)) := by
  have hlocate := h.toConfig.locateAlignment_lt halign
  unfold FastArenaSmallBins.acquireFor
  by_cases hcan : alignment ≤ 2 ^ bins.maxArenaAlignmentLog2 ∧ size ≤ bins.sizeCutoff
  · obtain ⟨hmax, hsize⟩ := hcan
    have hi := hlocate.mpr hmax
    have hvalid : bins.validAlignmentId (bins.locateAlignment alignment) = true := decide_eq_true hi
    have hcan : bins.canAllocate size (bins.locateAlignment alignment) = true := by
      rw [canAllocate, hvalid, Bool.true_and]
      exact decide_eq_true hsize
    obtain ⟨r, bin, hbin, hr⟩ := (h.bin _ hi).acquire_exists (h.toConfig.cutoff_dvd_of_lt hi)
      h.cutoff_lt hsize
    simp only [hcan, hvalid, Bool.not_true, Bool.false_eq_true, if_false,
      FastArenaSmallBins.acquire,
      check_of hi, hbin, ok_bind]
    cases r with
    | failed => exact absurd rfl hr
    | noResource => exact ⟨_, _, rfl, by simp [hmax, hsize]⟩
    | acquired p =>
      -- an arena was acquired, so the counter is positive
      have htotal : 0 < (bins.withBin (bins.locateAlignment alignment) bin).totalArenas := by
        have hacquired := ((h.bin _ hi).acquire (h.toConfig.cutoff_dvd_of_lt hi) h.cutoff_lt hsize
          hbin).2
        have hp : p ∈ bins.held :=
          mem_held.mpr ⟨_, hi, hacquired.1.subset List.mem_cons_self⟩
        change 0 < bins.totalArenas
        rw [h.total]
        exact List.length_pos_of_mem hp
      simp only [decTotal, check_of htotal, ok_bind]
      exact ⟨_, _, rfl, by simp [hmax, hsize]⟩
  · have hcan' : bins.canAllocate size (bins.locateAlignment alignment) = false := by
      rw [Bool.eq_false_iff]
      intro htrue
      simp only [canAllocate, validAlignmentId, Bool.and_eq_true, decide_eq_true_eq,
        hlocate] at htrue
      exact hcan htrue
    simp only [hcan', Bool.not_false, if_true]
    exact ⟨_, _, rfl, by simp [hcan]⟩

/-- What `FastArenaSmallAllocator::acquire` returns. -/
theorem WellFormed.acquireFor (h : bins.WellFormed heap) {size alignment : Nat}
    (hok : bins.acquireFor heap size alignment = .ok (r, bins')) :
    bins'.WellFormed heap ∧ SameConfig bins bins' ∧
      match r with
      | .acquired p => (p :: bins'.held).Perm bins.held ∧ size ≤ bins.sizeCutoff ∧
          (heap p).requiredSpace size ≤ (heap p).room ∧
          bins.locateAlignment alignment < bins.numAlignments ∧
          p ∈ (bins.bins (bins.locateAlignment alignment)).held
      | .noResource => bins'.held.Perm bins.held ∧ size ≤ bins.sizeCutoff ∧
          bins.locateAlignment alignment < bins.numAlignments
      | .failed => bins'.held.Perm bins.held := by
  rcases acquireFor_cases hok with ⟨rfl, rfl⟩ | ⟨hsize, hacquire⟩
  · exact ⟨h, rfl, .refl _⟩
  · obtain ⟨hi, hwf, hacquired, hconfig⟩ := h.acquire hsize hacquire
    refine ⟨hwf, hconfig, ?_⟩
    cases r with
    | failed => exact hacquired.elim
    | noResource => exact ⟨hacquired, hsize, hi⟩
    | acquired p => exact ⟨hacquired.1, hsize, hacquired.2.2, hi, hacquired.2.1⟩

theorem WellFormed.member (h : bins.WellFormed heap) (hp : p ∈ bins.held) :
    (0 < p ∧ p < 2 ^ 64) ∧ bins.Suitable (heap p) ∧ (heap p).Shaped ∧ (heap p).linked = false := by
  obtain ⟨i, hi, hpi⟩ := mem_held.mp hp
  obtain ⟨hbound, hmember⟩ := (h.bin i hi).member p hpi
  exact ⟨hbound, ⟨hmember.type, i, hi, hmember.alignment_eq⟩, hmember.toShaped, hmember.unlinked⟩

end FastArenaSmallBins

namespace FastArenaSmallBins

/-- `allocate` refuses only what `can_allocate` refuses. -/
theorem allocate_ne_zero {alloc alloc' : FastArenaSmallAllocator} {size m : Nat}
    (hcan : alloc.bins.canAllocate size (alloc.bins.arenaId heap p) = true)
    (hok : FastArenaSmallAllocator.allocate heap alloc p size = .ok (m, heap', alloc')) : m ≠
    0 := by
  have hvalid : alloc.bins.validAlignmentId (alloc.bins.arenaId heap p) = true := by
    rw [canAllocate, Bool.and_eq_true] at hcan
    exact hcan.1
  simp only [FastArenaSmallAllocator.allocate, hcan, hvalid, ArenaAllocator.allocateFrom,
    Bool.not_true, Bool.false_eq_true, if_false, bind_eq_ok, check_eq_ok, exists_const, Prod.exists,
    pure_eq_ok, Prod.mk.injEq] at hok
  obtain ⟨-, -, -, _, _, -, hm, _, _, -, rfl, -, -⟩ := hok
  exact hm

/-- **The small bins obey the law of bins.** -/
def law : BinsLaw FastArenaSmallAllocator.ops where
  held := held
  WellFormed heap bins := bins.WellFormed heap
  Suitable := Suitable
  nodup h := WellFormed.nodup h
  member h hp :=
    have hmember := WellFormed.member h hp
    ⟨hmember.1, hmember.2.1, hmember.2.2.1⟩
  type h := h.1
  suitable_congr hblock h := by
    refine ⟨?_, ?_⟩
    · rw [FastArena.type, hblock.header]
      exact h.1
    · rw [hblock.alignment]
      exact h.2
  congr h hsame := WellFormed.congr h hsame
  acquire {heap bins size alignment r heap' bins'} h hok := by
    simp only [FastArenaSmallAllocator.ops, ops, bind_eq_ok, Prod.exists, pure_eq_ok,
      Prod.mk.injEq] at hok
    obtain ⟨r₁, bins₁, hok, rfl, rfl, rfl⟩ := hok
    obtain ⟨hwf, hconfig, hresult⟩ := WellFormed.acquireFor h hok
    refine ⟨⟨.refl _, fun _ _ _ => rfl, hconfig.suitable⟩, hwf, ?_⟩
    cases r₁ with
    | failed => exact hresult
    | noResource => exact hresult.1
    | acquired p =>
      obtain ⟨hperm, hsize, -, hi, hp⟩ := hresult
      exact ⟨hperm, (WellFormed.member h (hperm.subset List.mem_cons_self)).2.2.2,
        fun halign _ => WellFormed.serves h hsize hi hp halign⟩
  release {heap bins p} h _ hnot hpos hlt hsuit hshaped _ hlinked := by
    obtain ⟨htype, i, hi, halign⟩ := hsuit
    have hid : bins.arenaId heap p = i := by
      rw [arenaId, halign, h.toConfig.locateAlignment_two_pow hi]
    obtain ⟨bins', hok, hwf, hperm, hconfig'⟩ := WellFormed.release h hnot ⟨hpos, hlt⟩ hi
      ⟨hshaped, htype, halign, hlinked⟩
    refine ⟨heap, bins', ?_, ⟨.refl _, fun _ _ _ => rfl, hconfig'.suitable⟩, hwf, hperm⟩
    simp only [FastArenaSmallAllocator.ops, ops, hid, hok, ok_bind]
    rfl
  extract {heap bins p} h hp := by
    obtain ⟨i, hi, hpi⟩ := mem_held.mp hp
    obtain ⟨bins', hok, hwf, hperm, hconfig⟩ := WellFormed.extract h hi hpi
    refine ⟨heap, bins', ?_, ⟨.refl _, fun _ _ _ => rfl, hconfig.suitable⟩, hwf, hperm,
      (WellFormed.member h hp).2.2.2⟩
    simp only [FastArenaSmallAllocator.ops, ops, WellFormed.arenaId_eq h hi hpi, hok, ok_bind]
    rfl
  allocate_cases {heap p size m heap' alloc alloc'} hok := by
    simp only [FastArenaSmallAllocator.ops, FastArenaSmallAllocator.allocate, bind_eq_ok,
      check_eq_ok,
      exists_const] at hok
    obtain ⟨hp, hsize, hok⟩ := hok
    refine ⟨hp, Nat.pos_of_ne_zero hsize, ?_⟩
    split_ifs at hok with hcan hvalid
    · simp only [pure_eq_ok, Prod.mk.injEq] at hok
      exact .inl ⟨hok.1.symm, hok.2.1.symm, hok.2.2.symm⟩
    · simp only [pure_eq_ok, Prod.mk.injEq] at hok
      exact .inl ⟨hok.1.symm, hok.2.1.symm, hok.2.2.symm⟩
    · simp only [bind_eq_ok, check_eq_ok, exists_const] at hok
      exact .inr ⟨_, hok.2⟩
  acquire_allocate {heap size alignment p heap₁ bins₁ m heap' alloc alloc'} h hacquire hok := by
    simp only [FastArenaSmallAllocator.ops, ops, bind_eq_ok, Prod.exists, pure_eq_ok,
      Prod.mk.injEq] at hacquire
    obtain ⟨r₁, bins₂, hacquire, rfl, rfl, rfl⟩ := hacquire
    obtain ⟨-, hconfig, hperm, hsize, -⟩ := WellFormed.acquireFor h hacquire
    obtain ⟨i, hi, hpi⟩ := mem_held.mp (hperm.subset List.mem_cons_self)
    have hcan : bins₂.canAllocate size (bins₂.arenaId heap p) = true := by
      have hid : bins₂.arenaId heap p = alloc.bins.arenaId heap p := by
        rw [hconfig]
        rfl
      rw [hid, WellFormed.arenaId_eq h hi hpi, hconfig, canAllocate, validAlignmentId]
      simp only [Bool.and_eq_true, decide_eq_true_eq]
      exact ⟨hi, hsize⟩
    exact allocate_ne_zero hcan hok
  acquire_fresh {heap size p heap₁ bins₁ m heap' arena alloc alloc'} h hacquire htype hstatic hmin
      hok := by
    simp only [FastArenaSmallAllocator.ops, ops, bind_eq_ok, Prod.exists, pure_eq_ok,
      Prod.mk.injEq] at hacquire
    obtain ⟨r₁, bins₂, hacquire, rfl, rfl, rfl⟩ := hacquire
    obtain ⟨-, hconfig, -, hsize, hi⟩ := WellFormed.acquireFor h hacquire
    obtain ⟨a, ha, hle⟩ := hmin
    refine ⟨?_, ?_⟩
    · rw [hconfig.suitable]
      exact ⟨htype, _, hi, eq_of_locateAlignment hstatic.isAlignment ha hle hi⟩
    have hid : bins₂.arenaId (Function.update heap p arena) p =
        alloc.bins.locateAlignment arena.arenaAlignment := by
      rw [arenaId, Function.update_self, hconfig]
      rfl
    have hcan : bins₂.canAllocate size (bins₂.arenaId (Function.update heap p arena) p) = true := by
      rw [hid, hconfig, canAllocate, validAlignmentId]
      simp only [Bool.and_eq_true, decide_eq_true_eq]
      exact ⟨hi, hsize⟩
    exact allocate_ne_zero hcan hok
  deallocate_cases hok := by
    simp only [FastArenaSmallAllocator.ops, FastArenaSmallAllocator.deallocate, bind_eq_ok,
      check_eq_ok, exists_const] at hok
    exact ⟨_, hok.2.2⟩
  reclaimArena_eq {heap p alloc} h hp := by
    obtain ⟨i, hi, hpi⟩ := mem_held.mp hp
    have htype := (WellFormed.member h hp).2.1.1
    have hvalid : alloc.bins.validAlignmentId (alloc.bins.arenaId heap p) = true := by
      rw [WellFormed.arenaId_eq h hi hpi, validAlignmentId]
      exact decide_eq_true hi
    simp only [FastArenaSmallAllocator.ops, FastArenaSmallAllocator.reclaimArena, check_of htype,
      check_of hvalid, ok_bind]

end FastArenaSmallBins

/-! ### Runs of the small allocator -/

namespace FastArenaSmallAllocator

variable {config : FastArenaSmallBinsConfig} {alloc : FastArenaSmallAllocator}

/-- An allocator that has just been created holds nothing. -/
theorem create_inv (hcreate : (create config).Creates alloc) (heap : Heap) :
    FastArenaSmallBins.law.Inv ⟨heap, alloc, 0, fun _ => [], []⟩ := by
  simp only [create, FastArenaSmallBins.create, creates_bind, creates_lift, creates_checkReturnVal,
    creates_pure, exists_const, intpow2_eq_ok] at hcreate
  obtain ⟨bins, ⟨hle, hmax, hmin, -, max2, ⟨hmax64, rfl⟩, cutoff, hcutoff, rfl⟩, entry, hentry,
    rfl⟩ :=
    hcreate
  obtain rfl : (⟨1, 0, 0⟩ : RetireReclaimEntry) = entry := Except.ok.inj hentry
  rw [align_eq (isAlignment_two_pow hmax64), Except.ok.injEq] at hcutoff
  have hlt : cutoff < 2 ^ 64 := by
    rw [← hcutoff]
    exact lt_of_le_of_lt (Nat.div_mul_le_self _ _) (u64_lt _)
  have hdvd : 2 ^ config.maxArenaAlignmentLog2 ∣ cutoff := by
    rw [← hcutoff]
    exact Dvd.intro_left _ rfl
  -- all bins are empty
  have hheld : ∀ i, (if i < config.maxArenaAlignmentLog2 - config.minArenaAlignmentLog2 + 1 then
      FastArenaSmallBin.create (2 ^ (config.minArenaAlignmentLog2 + i)) cutoff
      else default).held = [] := by
    intro i
    split_ifs <;> rfl
  have hnil : FastArenaSmallBins.held {
      bins := fun i => if i < config.maxArenaAlignmentLog2 - config.minArenaAlignmentLog2 + 1 then
        FastArenaSmallBin.create (2 ^ (config.minArenaAlignmentLog2 + i)) cutoff else default
      minArenaAlignmentLog2 := config.minArenaAlignmentLog2
      maxArenaAlignmentLog2 := config.maxArenaAlignmentLog2
      numAlignments := config.maxArenaAlignmentLog2 - config.minArenaAlignmentLog2 + 1
      sizeCutoff := cutoff
      totalArenas := 0 } = [] :=
    slots_eq_nil fun i _ => hheld i
  refine .empty ⟨⟨hmin, hmax, ?_, Nat.succ_pos _, hdvd, hlt⟩, ?_, ?_, ?_⟩ hnil
  · dsimp only
    omega
  · intro i hi
    dsimp only
    rw [if_pos hi]
    exact ⟨rfl, rfl, by simp [FastArenaSmallBin.create, FastArenaSmallBin.held],
      by simp [FastArenaSmallBin.create], by simp [FastArenaSmallBin.create],
      by simp [FastArenaSmallBin.create]⟩
  · rw [hnil]
    exact List.nodup_nil
  · rw [hnil]
    rfl

theorem create_retiredArenas (hcreate : (create config).Creates alloc) :
    alloc.retiredArenas = ⟨1, 0, 0⟩ := by
  simp only [create, creates_bind, creates_lift, creates_pure] at hcreate
  obtain ⟨bins, -, entry, hentry, rfl⟩ := hcreate
  exact (Except.ok.inj hentry).symm

/-- The bins take arenas of the least alignment. -/
theorem create_suitable (hcreate : (create config).Creates alloc) :
    ∃ a, FastArenaSmallBins.Suitable alloc.bins a ∧
      a.arenaAlignment = 2 ^ config.minArenaAlignmentLog2 := by
  simp only [create, FastArenaSmallBins.create, creates_bind, creates_lift, creates_checkReturnVal,
    creates_pure, exists_const] at hcreate
  obtain ⟨bins, ⟨-, -, -, -, max2, -, cutoff, -, rfl⟩, entry, -, rfl⟩ := hcreate
  exact ⟨{ (default : FastArena) with
    regionChunkHeader := RegionChunkType.fastArenaSmallAllocator.val
    arenaAlignment := 2 ^ config.minArenaAlignmentLog2 },
      ⟨show RegionChunkHandleHeader.data 2 = 2 by decide, 0,
      Nat.succ_pos _, rfl⟩, rfl⟩

/-- **The small bins keep their representation in every reachable state.**  Each arena that was
given to the allocator and not handed back is in exactly one place of the bin of its alignment, on
the list of its remaining size (`WellFormed`); none is resettable; the counter is their number; and
an arena that `acquire` returns is taken out and can serve the request. -/
theorem reachable_wellFormed {s : ArenaAllocator.State FastArenaSmallBins}
    (hcreate : (create config).Creates alloc)
    (hreach : ArenaAllocator.Reachable ops FastArenaSmallBins.held FastArenaSmallBins.Suitable alloc
      s) :
    s.alloc.bins.WellFormed s.heap ∧ s.alloc.bins.held.Perm s.given ∧
      s.alloc.bins.totalArenas = s.given.length ∧
      (∀ p ∈ s.given, (s.heap p).resettable = false) ∧
      ∀ size alignment p heap' alloc',
        FastArenaSmallAllocator.acquire s.heap s.alloc size alignment =
          .ok (.acquired p, heap', alloc') →
        (p :: alloc'.bins.held).Perm s.given ∧ (heap' p).canAllocate size = .ok true := by
  have hinv := FastArenaSmallBins.law.reachable_inv (create_inv hcreate) hreach
  have hwf : s.alloc.bins.WellFormed s.heap := hinv.holds.wf
  have hgiven : s.alloc.bins.held.Perm s.given := hinv.given
  refine ⟨hwf, hgiven, ?_, fun p hp => ?_, fun size alignment p heap' alloc' hok => ?_⟩
  · rw [hwf.total, hgiven.length_eq]
  · rw [Bool.eq_false_iff, ne_eq, FastArena.resettable_eq_true]
    exact hinv.holds.busy p (hgiven.symm.subset hp)
  · simp only [FastArenaSmallAllocator.acquire, FastArenaSmallBins.ops, bind_eq_ok, Prod.exists,
      pure_eq_ok, Prod.mk.injEq] at hok
    obtain ⟨_, _, _, ⟨_, bins', hacquire, rfl, rfl, rfl⟩, rfl, rfl, rfl⟩ := hok
    obtain ⟨-, -, hperm, -, hfits, -⟩ := hwf.acquireFor hacquire
    have hshaped := (hwf.member (hperm.subset List.mem_cons_self)).2.2.1
    refine ⟨hperm.trans hgiven, ?_⟩
    rw [hshaped.canAllocate_eq, Except.ok.injEq, decide_eq_true_eq]
    exact hfits

/-- A small allocator with all the alignments of the configuration and a cutoff of 4096. -/
def sampleAlloc : FastArenaSmallAllocator :=
  { retiredArenas := ⟨1, 0, 0⟩
    bins := {
      bins := fun i => if i < 9 then FastArenaSmallBin.create (2 ^ (4 + i)) 4096 else default
      minArenaAlignmentLog2 := 4, maxArenaAlignmentLog2 := 12, numAlignments := 9
      sizeCutoff := 4096, totalArenas := 0 } }

/-- A run of one step: a fresh block of 4096 bytes serves a request of 100 bytes. -/
theorem reachable_wellFormed_block : ∃ s : ArenaAllocator.State FastArenaSmallBins,
    s.given = [128] ∧ s.live 128 = [⟨4096, 100⟩] ∧ s.alloc.bins.totalArenas = s.given.length := by
  have hfresh : (FastArena.block4096 0).Fresh :=
    ⟨⟨by decide, by decide, by decide, by decide, by decide, by decide⟩, rfl, rfl, rfl, rfl⟩
  have hsuit : sampleAlloc.bins.Suitable (FastArena.block4096 0) := ⟨rfl, 0, by decide, rfl⟩
  have hstep : ArenaAllocator.Step ops FastArenaSmallBins.held FastArenaSmallBins.Suitable
      ⟨fun _ => default, sampleAlloc, 0, fun _ => [], []⟩ ⟨_, _, 0, _, _⟩ :=
    .allocateFresh (p := 128) List.not_mem_nil (by decide) hfresh hsuit
      (show 100 ≤ 4096 by decide) rfl
  have hreach := ArenaAllocator.Reachable.step (.init fun _ => default) hstep
  exact ⟨_, rfl, rfl, (reachable_wellFormed
    (show (create ⟨4, 12, 4096⟩).Creates sampleAlloc from rfl)
    hreach).2.2.1⟩

end FastArenaSmallAllocator

end Cuw3
