/-
  Acquiring from the small bins is sound and complete.

  `acquire` of a bin looks at the current arena, at the free list and at the head of the cutoff
  list, in this order, and at nothing else; on the way it may give up the current arena and the head
  of the cutoff list, which go onto the recycled list (`FastArenaSmallBin.Searches`).  It answers
  that there is no resource iff none of the three serves the request (`Exhausted`).  Then every
  arena of the bin has less room than the cutoff (`WellFormed.room_lt_of_exhausted`), so a request
  of the size of the cutoff is refused only if no arena of its alignment serves it.

  Nothing but an extraction takes an arena off the recycled list (`recycled_step`), so an arena that
  was given up serves no request for as long as the bins hold it (`reachable_recycled`).
-/
import Cuw3.Small.Equiv.Bins
import Cuw3.Arena.Equiv.BinsRuns

namespace Cuw3

open Lib

/-! ### One bin -/

namespace FastArenaSmallBin

variable {heap : Heap} {alignment sizeCutoff size p : Nat} {bin bin' : FastArenaSmallBin}
  {r : AcquiredResource}

/-- The lists of the bin do not serve a request. -/
structure ListsExhausted (heap : Heap) (bin : FastArenaSmallBin) (size : Nat) : Prop where
  free : bin.freeList = []
  cutoff : ∀ p ∈ bin.cutoffList.head?, (heap p).room < alignUp size bin.alignment

/-- Neither the lists nor the current arena serve a request. -/
structure Exhausted (heap : Heap) (bin : FastArenaSmallBin) (size : Nat) : Prop
    extends ListsExhausted heap bin size where
  current : bin.currentArena ≠ 0 → (heap bin.currentArena).room < alignUp size bin.alignment

/-- What `acquire` does to the lists of a bin: it takes arenas off the heads of the free list and of
the cutoff list, and recycles arenas whose doubled room is less than the request. -/
structure Searches (heap : Heap) (bin bin' : FastArenaSmallBin) (size : Nat) : Prop where
  freeList : bin'.freeList <:+ bin.freeList
  cutoffList : bin'.cutoffList <:+ bin.cutoffList
  recycledList : bin.recycledList <:+ bin'.recycledList
  tooSmall : ∀ p ∈ bin'.recycledList, p ∈ bin.recycledList ∨
    (heap p).room < alignUp size bin.alignment ∧ u64 (2 * (heap p).room) < size

/-- The arenas of a bin that `acquire` looks at. -/
def candidates (bin : FastArenaSmallBin) : List Nat :=
  bin.currentArena :: (bin.freeList ++ bin.cutoffList)

/-- The bytes that a request up to the cutoff takes of an arena of the bin. -/
theorem WellFormed.requiredSpace_eq (h : bin.WellFormed heap alignment sizeCutoff)
    (hdvd : alignment ∣ sizeCutoff) (hlt : sizeCutoff < 2 ^ 64) (hsize : size ≤ sizeCutoff)
    (hp : p ∈ bin.held) : (heap p).requiredSpace size = alignUp size bin.alignment := by
  have hmember := (h.member p hp).2
  rw [FastArena.requiredSpace_of_le (hmember.size_add_lt hdvd hlt hsize), hmember.alignment_eq,
    h.alignment_eq]

theorem Searches.refl (heap : Heap) (bin : FastArenaSmallBin) (size : Nat) :
    Searches heap bin bin size where
  freeList := List.suffix_rfl
  cutoffList := List.suffix_rfl
  recycledList := List.suffix_rfl
  tooSmall _ hp := .inl hp

/-- What `acquire` does after it has dealt with the current arena. -/
theorem WellFormed.acquireFromLists_searches (h : bin.WellFormed heap alignment sizeCutoff)
    (hdvd : alignment ∣ sizeCutoff) (hlt : sizeCutoff < 2 ^ 64) (hsize : size ≤ sizeCutoff)
    (hok : FastArenaSmallBin.acquireFromLists heap bin size = .ok (r, bin')) :
    Searches heap bin bin' size ∧ (r = .noResource ↔ ListsExhausted heap bin size) ∧
      ∀ p, r = .acquired p → p ∈ bin.freeList ++ bin.cutoffList := by
  unfold FastArenaSmallBin.acquireFromLists at hok
  cases hfree : bin.freeList with
  | cons arena freeList =>
    simp only [hfree, pure_eq_ok, Prod.mk.injEq] at hok
    obtain ⟨rfl, rfl⟩ := hok
    refine ⟨⟨?_, List.suffix_rfl, List.suffix_rfl, fun p hp => .inl hp⟩, ⟨by simp, ?_⟩, ?_⟩
    · rw [hfree]
      exact List.suffix_cons _ _
    · intro hexhausted
      have hnil := hexhausted.free
      rw [hfree] at hnil
      cases hnil
    · intro p hp
      obtain rfl := AcquiredResource.acquired.inj hp
      exact List.mem_append_left _ List.mem_cons_self
  | nil =>
    cases hcutoff : bin.cutoffList with
    | nil =>
      simp only [hfree, hcutoff, pure_eq_ok, Prod.mk.injEq] at hok
      obtain ⟨rfl, rfl⟩ := hok
      refine ⟨.refl _ _ _, ⟨fun _ => ⟨hfree, ?_⟩, fun _ => rfl⟩, by simp⟩
      simp [hcutoff]
    | cons arena cutoffList =>
      have hin : arena ∈ bin.cutoffList := by rw [hcutoff]; exact List.mem_cons_self
      have hheld : arena ∈ bin.held := mem_held.mpr (.inr (.inr (.inl hin)))
      have hmember := (h.member arena hheld).2
      have hexhausted : ListsExhausted heap bin size ↔
          (heap arena).room < alignUp size bin.alignment := by
        refine ⟨fun hlists => hlists.cutoff arena (by rw [hcutoff]; rfl), fun hroom =>
          ⟨hfree, ?_⟩⟩
        rw [hcutoff]
        intro p hp
        obtain rfl := Option.some.inj hp
        exact hroom
      simp only [hfree, hcutoff, hmember.canAllocate_eq, hmember.tooSmall_eq, ok_bind,
        decide_eq_true_eq, h.requiredSpace_eq hdvd hlt hsize hheld] at hok
      rw [hexhausted]
      split_ifs at hok with hcan hsmall
      · simp only [pure_eq_ok, Prod.mk.injEq] at hok
        obtain ⟨rfl, rfl⟩ := hok
        refine ⟨⟨List.nil_suffix, ?_, List.suffix_rfl, fun p hp => .inl hp⟩, ?_, ?_⟩
        · rw [hcutoff]
          exact List.suffix_cons _ _
        · exact ⟨by simp, fun hroom => absurd hcan (not_le.mpr hroom)⟩
        · intro p hp
          obtain rfl := AcquiredResource.acquired.inj hp
          exact List.mem_append_right _ List.mem_cons_self
      · simp only [pure_eq_ok, Prod.mk.injEq] at hok
        obtain ⟨rfl, rfl⟩ := hok
        refine ⟨⟨List.nil_suffix, ?_, List.suffix_cons _ _, ?_⟩, ?_, by simp⟩
        · rw [hcutoff]
          exact List.suffix_cons _ _
        · intro p hp
          rcases List.mem_cons.mp hp with rfl | hp
          · exact .inr ⟨not_le.mp hcan, hsmall⟩
          · exact .inl hp
        · exact ⟨fun _ => not_le.mp hcan, fun _ => rfl⟩
      · simp only [pure_eq_ok, Prod.mk.injEq] at hok
        obtain ⟨rfl, rfl⟩ := hok
        exact ⟨.refl _ _ _, ⟨fun _ => not_le.mp hcan, fun _ => rfl⟩, by simp⟩

/-- **What `acquire` looks at, and what it leaves behind.** -/
theorem WellFormed.acquire_searches (h : bin.WellFormed heap alignment sizeCutoff)
    (hdvd : alignment ∣ sizeCutoff) (hlt : sizeCutoff < 2 ^ 64) (hsize : size ≤ sizeCutoff)
    (hok : bin.acquire heap size = .ok (r, bin')) :
    Searches heap bin bin' size ∧ (r = .noResource ↔ Exhausted heap bin size) ∧
      ∀ p, r = .acquired p → p ∈ bin.candidates := by
  unfold FastArenaSmallBin.acquire at hok
  by_cases hcurrent : bin.currentArena = 0
  · rw [if_pos hcurrent] at hok
    obtain ⟨hsearches, hnone, hacquired⟩ := h.acquireFromLists_searches hdvd hlt hsize hok
    refine ⟨hsearches, hnone.trans ⟨fun hlists => ⟨hlists, fun hne => absurd hcurrent hne⟩,
      fun hexhausted => hexhausted.toListsExhausted⟩, ?_⟩
    exact fun p hp => List.mem_cons_of_mem _ (hacquired p hp)
  have hheld : bin.currentArena ∈ bin.held := mem_held.mpr (.inl ⟨rfl, hcurrent⟩)
  have hmember := (h.member _ hheld).2
  have hspace := h.requiredSpace_eq hdvd hlt hsize hheld
  simp only [if_neg hcurrent, hmember.canAllocate_eq, hmember.tooSmall_eq, ok_bind,
    decide_eq_true_eq, hspace] at hok
  split_ifs at hok with hcan hsmall
  · -- the current arena serves the request
    simp only [pure_eq_ok, Prod.mk.injEq] at hok
    obtain ⟨rfl, rfl⟩ := hok
    refine ⟨⟨List.suffix_rfl, List.suffix_rfl, List.suffix_rfl, fun p hp => .inl hp⟩,
      ⟨by simp, fun hexhausted => ?_⟩, ?_⟩
    · exact absurd hcan (not_le.mpr (hexhausted.current hcurrent))
    · intro p hp
      obtain rfl := AcquiredResource.acquired.inj hp
      exact List.mem_cons_self
  · -- it is given up: the lists of the bin it leaves are those of the bin but for the recycled one
    have hroom : (heap bin.currentArena).room < sizeCutoff :=
      lt_of_lt_of_le (not_le.mp hcan)
        (hspace ▸ (hmember.requiredSpace_le hdvd hlt hsize).1)
    obtain ⟨hwf, -⟩ := h.recycleCurrent hcurrent hroom
    obtain ⟨hsearches, hnone, hacquired⟩ := hwf.acquireFromLists_searches hdvd hlt hsize hok
    refine ⟨⟨hsearches.freeList, hsearches.cutoffList, ?_, ?_⟩, hnone.trans ⟨?_, ?_⟩, ?_⟩
    · exact (List.suffix_cons _ _).trans hsearches.recycledList
    · intro p hp
      rcases hsearches.tooSmall p hp with hp | hp
      · rcases List.mem_cons.mp hp with rfl | hp
        · exact .inr ⟨not_le.mp hcan, hsmall⟩
        · exact .inl hp
      · exact .inr hp
    · exact fun hlists => ⟨⟨hlists.free, hlists.cutoff⟩, fun _ => not_le.mp hcan⟩
    · exact fun hexhausted => ⟨hexhausted.free, hexhausted.cutoff⟩
    · exact fun p hp => List.mem_cons_of_mem _ (hacquired p hp)
  · obtain ⟨hsearches, hnone, hacquired⟩ := h.acquireFromLists_searches hdvd hlt hsize hok
    refine ⟨hsearches, hnone.trans ⟨fun hlists => ⟨hlists, fun _ => not_le.mp hcan⟩,
      fun hexhausted => hexhausted.toListsExhausted⟩, ?_⟩
    exact fun p hp => List.mem_cons_of_mem _ (hacquired p hp)

/-- A bin that has no resource for a request has no arena with the room of the cutoff. -/
theorem WellFormed.room_lt_of_exhausted (h : bin.WellFormed heap alignment sizeCutoff)
    (hdvd : alignment ∣ sizeCutoff) (hpos : 0 < alignment) (hsize : size ≤ sizeCutoff)
    (hexhausted : Exhausted heap bin size) (hp : p ∈ bin.held) : (heap p).room < sizeCutoff := by
  rcases mem_held.mp hp with ⟨rfl, hne⟩ | hp | hp | hp
  · calc (heap bin.currentArena).room < alignUp size bin.alignment := hexhausted.current hne
      _ = alignUp size alignment := by rw [h.alignment_eq]
      _ ≤ sizeCutoff := alignUp_le_of_dvd hpos hdvd hsize
  · rw [hexhausted.free] at hp
    cases hp
  · exact h.cutoff p hp
  · exact h.recycled p hp

theorem releaseToLists_recycledList (hok : releaseToLists heap bin p = .ok bin') :
    bin'.recycledList = bin.recycledList := by
  simp only [releaseToLists, bind_eq_ok] at hok
  obtain ⟨remaining, -, hok⟩ := hok
  split_ifs at hok
  · obtain rfl := Except.ok.inj hok
    rfl
  · obtain rfl := Except.ok.inj hok
    rfl

/-- `release` does not recycle. -/
theorem release_recycledList (hok : bin.release heap p = .ok bin') :
    bin'.recycledList = bin.recycledList := by
  simp only [release, bind_eq_ok, check_eq_ok, exists_const] at hok
  obtain ⟨-, -, -, hok⟩ := hok
  split_ifs at hok
  · obtain rfl := Except.ok.inj hok
    rfl
  · simp only [bind_eq_ok] at hok
    obtain ⟨current, -, remaining, -, hok⟩ := hok
    split_ifs at hok
    · exact (releaseToLists_recycledList hok).trans rfl
    · exact releaseToLists_recycledList hok

/-- `extract` takes one arena off the recycled list, at most. -/
theorem extract_recycledList {q : Nat} (hok : bin.extract heap p = .ok bin')
    (hq : q ∈ bin.recycledList) (hne : q ≠ p) : q ∈ bin'.recycledList := by
  simp only [extract, bind_eq_ok, check_eq_ok, exists_const] at hok
  obtain ⟨-, -, -, hok⟩ := hok
  split_ifs at hok
  · obtain rfl := Except.ok.inj hok
    exact hq
  · obtain rfl := Except.ok.inj hok
    exact (List.mem_erase_of_ne hne).mpr hq

/-- `acquire` does not look at the recycled arenas. -/
theorem not_mem_recycledList (hnodup : bin.held.Nodup) (hp : p ∈ bin.candidates) (hp0 : p ≠ 0) :
    p ∉ bin.recycledList := by
  intro hrecycled
  simp only [held, ← List.append_assoc] at hnodup
  refine (List.nodup_append.mp hnodup).2.2 p ?_ p hrecycled rfl
  simp only [List.mem_append]
  rcases List.mem_cons.mp hp with rfl | hp
  · left
    left
    rw [if_neg hp0]
    exact List.mem_singleton_self _
  · rcases List.mem_append.mp hp with hp | hp
    · exact .inl (.inr hp)
    · exact .inr hp

end FastArenaSmallBin

/-! ### The bins of all alignments -/

namespace FastArenaSmallBins

variable {heap heap' : Heap} {config : FastArenaSmallBinsConfig}
  {alloc : FastArenaSmallAllocator} {size alignment id i p : Nat}
  {bins bins' : FastArenaSmallBins} {r : AcquiredResource}

/-- What `FastArenaSmallAllocator::acquire` returns and leaves behind, when it does not fail. -/
structure Acquires (heap : Heap) (bins bins' : FastArenaSmallBins) (id size : Nat)
    (r : AcquiredResource) : Prop where
  searches : (bins.bins id).Searches heap (bins'.bins id) size
  others : ∀ i, i ≠ id → bins'.bins i = bins.bins i
  noResource : r = .noResource ↔ (bins.bins id).Exhausted heap size
  full : r = .noResource → bins'.held.Perm bins.held ∧
    ∀ p ∈ (bins.bins id).held, (heap p).room < bins.sizeCutoff
  acquired : ∀ p, r = .acquired p → p ∈ (bins.bins id).held ∧ p ∉ (bins.bins id).recycledList ∧
    alignUp size (bins.bins id).alignment ≤ (heap p).room ∧ (p :: bins'.held).Perm bins.held

/-- `acquire` of the bins is that of one bin. -/
theorem acquire_bin (hok : bins.acquire heap size id = .ok (r, bins')) :
    ∃ bin, (bins.bins id).acquire heap size = .ok (r, bin) ∧
      bins'.bins = Function.update bins.bins id bin := by
  simp only [FastArenaSmallBins.acquire, bind_eq_ok, check_eq_ok, exists_const, Prod.exists] at hok
  obtain ⟨-, r₁, bin, hbin, hok⟩ := hok
  cases r₁ with
  | acquired p =>
    simp only [decTotal, bind_eq_ok, check_eq_ok, exists_const, pure_eq_ok, Prod.mk.injEq] at hok
    obtain ⟨_, ⟨-, rfl⟩, rfl, rfl⟩ := hok
    exact ⟨bin, hbin, rfl⟩
  | _ =>
    simp only [pure_eq_ok, Prod.mk.injEq] at hok
    obtain ⟨rfl, rfl⟩ := hok
    exact ⟨bin, hbin, rfl⟩

theorem WellFormed.acquires (h : bins.WellFormed heap) (hsize : size ≤ bins.sizeCutoff)
    (hok : bins.acquire heap size id = .ok (r, bins')) : Acquires heap bins bins' id size r := by
  obtain ⟨hi, -, hacquired, -⟩ := h.acquire hsize hok
  obtain ⟨bin, hbin, hbins⟩ := acquire_bin hok
  have hwf := h.bin id hi
  have hdvd := h.toConfig.cutoff_dvd_of_lt hi
  obtain ⟨hsearches, hnone, hcandidate⟩ := hwf.acquire_searches hdvd h.cutoff_lt hsize hbin
  refine ⟨?_, fun i hne => ?_, hnone, fun hr => ⟨?_, fun p hp => ?_⟩, fun p hr => ?_⟩
  · rw [hbins, Function.update_self]
    exact hsearches
  · rw [hbins, Function.update_of_ne hne]
  · rw [hr] at hacquired
    exact hacquired
  · exact hwf.room_lt_of_exhausted hdvd (Nat.two_pow_pos _) hsize (hnone.mp hr) hp
  · rw [hr] at hacquired
    obtain ⟨hperm, hp, hfits⟩ := hacquired
    have hp0 : p ≠ 0 := Nat.pos_iff_ne_zero.mp (hwf.member p hp).1.1
    rw [hwf.requiredSpace_eq hdvd h.cutoff_lt hsize hp] at hfits
    exact ⟨hp, FastArenaSmallBin.not_mem_recycledList (h.nodup_bin hi) (hcandidate p hr) hp0,
      hfits, hperm⟩

/-! ### Runs of clients -/

theorem ops_acquire_eq_ok :
    FastArenaSmallAllocator.ops.acquire heap bins size alignment = .ok (r, heap', bins') ↔
      heap' = heap ∧ bins.acquireFor heap size alignment = .ok (r, bins') := by
  simp only [FastArenaSmallAllocator.ops, ops, bind_eq_ok, Prod.exists, pure_eq_ok, Prod.mk.injEq]
  constructor
  · rintro ⟨r, bins', hok, rfl, rfl, rfl⟩
    exact ⟨rfl, hok⟩
  · rintro ⟨rfl, hok⟩
    exact ⟨r, bins', hok, rfl, rfl, rfl⟩

theorem ops_release_eq_ok : FastArenaSmallAllocator.ops.release heap bins p = .ok (heap', bins') ↔
    heap' = heap ∧ bins.release heap p (bins.arenaId heap p) = .ok bins' := by
  simp only [FastArenaSmallAllocator.ops, ops, bind_eq_ok, pure_eq_ok, Prod.mk.injEq]
  constructor
  · rintro ⟨bins', hok, rfl, rfl⟩
    exact ⟨rfl, hok⟩
  · rintro ⟨rfl, hok⟩
    exact ⟨bins', hok, rfl, rfl⟩

theorem ops_extract_eq_ok : FastArenaSmallAllocator.ops.extract heap bins p = .ok (heap', bins') ↔
    heap' = heap ∧ bins.extract heap p (bins.arenaId heap p) = .ok bins' := by
  simp only [FastArenaSmallAllocator.ops, ops, bind_eq_ok, pure_eq_ok, Prod.mk.injEq]
  constructor
  · rintro ⟨bins', hok, rfl, rfl⟩
    exact ⟨rfl, hok⟩
  · rintro ⟨rfl, hok⟩
    exact ⟨bins', hok, rfl, rfl⟩

/-- `release` puts the arena into one bin, and leaves the recycled lists as they are. -/
theorem release_bin (hok : bins.release heap p id = .ok bins') :
    SameConfig bins bins' ∧ ∀ i, (bins'.bins i).recycledList = (bins.bins i).recycledList := by
  simp only [FastArenaSmallBins.release, bind_eq_ok, check_eq_ok, exists_const, pure_eq_ok] at hok
  obtain ⟨-, bin, hbin, rfl⟩ := hok
  refine ⟨rfl, fun i => ?_⟩
  by_cases hi : i = id
  · subst hi
    rw [show ({ bins.withBin i bin with totalArenas := u64 (bins.totalArenas + 1) } :
      FastArenaSmallBins).bins i = bin from Function.update_self ..]
    exact FastArenaSmallBin.release_recycledList hbin
  · rw [show ({ bins.withBin id bin with totalArenas := u64 (bins.totalArenas + 1) } :
      FastArenaSmallBins).bins i = bins.bins i from Function.update_of_ne hi ..]

/-- `extract` takes the arena off the lists of one bin. -/
theorem extract_bin (hok : bins.extract heap p id = .ok bins') :
    SameConfig bins bins' ∧ ∀ i, ∀ q ∈ (bins.bins i).recycledList, q ≠ p →
      q ∈ (bins'.bins i).recycledList := by
  simp only [FastArenaSmallBins.extract, decTotal, bind_eq_ok, check_eq_ok, exists_const,
    pure_eq_ok] at hok
  obtain ⟨-, bin, hbin, -, rfl⟩ := hok
  refine ⟨rfl, fun i q hq hne => ?_⟩
  by_cases hi : i = id
  · subst hi
    rw [show ({ bins.withBin i bin with totalArenas := (bins.withBin i bin).totalArenas - 1 } :
      FastArenaSmallBins).bins i = bin from Function.update_self ..]
    exact FastArenaSmallBin.extract_recycledList hbin hq hne
  · rw [show ({ bins.withBin id bin with totalArenas := (bins.withBin id bin).totalArenas - 1 } :
      FastArenaSmallBins).bins i = bins.bins i from Function.update_of_ne hi ..]
    exact hq

/-- No operation changes the ranges. -/
theorem sameConfig_of_step (h : bins.WellFormed heap)
    (hstep : BinsStep FastArenaSmallAllocator.ops held Suitable (heap, bins) (heap', bins')) :
    SameConfig bins bins' := by
  cases hstep with
  | acquire hok => exact (h.acquireFor (ops_acquire_eq_ok.mp hok).2).2.1
  | release hp hpos hlt hsuit hshaped hbusyHeld hbusy hlinked hok =>
    exact (release_bin (ops_release_eq_ok.mp hok).2).1
  | extract hp hok => exact (extract_bin (ops_extract_eq_ok.mp hok).2).1
  | write => rfl

/-- A step of a client that does not extract `p`. -/
def OtherStep (p : Nat) (s s' : Heap × FastArenaSmallBins) : Prop :=
  BinsStep FastArenaSmallAllocator.ops held Suitable s s' ∧
    FastArenaSmallAllocator.ops.extract s.1 s.2 p ≠ .ok s'

theorem mem_held_of_recycled (hi : i < bins.numAlignments)
    (hp : p ∈ (bins.bins i).recycledList) : p ∈ bins.held :=
  mem_held.mpr ⟨i, hi, FastArenaSmallBin.mem_held.mpr (.inr (.inr (.inr hp)))⟩

/-- Only its extraction takes an arena off the recycled list. -/
theorem recycled_step (h : bins.WellFormed heap) (hi : i < bins.numAlignments)
    (hstep : OtherStep p (heap, bins) (heap', bins')) (hp : p ∈ (bins.bins i).recycledList) :
    p ∈ (bins'.bins i).recycledList ∧ (heap' p).room = (heap p).room := by
  obtain ⟨hstep, hother⟩ := hstep
  cases hstep with
  | @acquire _ _ _ _ _ alignment _ hok =>
    obtain ⟨rfl, hok⟩ := ops_acquire_eq_ok.mp hok
    refine ⟨?_, rfl⟩
    rcases acquireFor_cases hok with ⟨-, rfl⟩ | ⟨hsize, hacquire⟩
    · exact hp
    · have hacquires := h.acquires hsize hacquire
      by_cases hid : i = bins.locateAlignment alignment
      · rw [hid] at hp ⊢
        exact hacquires.searches.recycledList.subset hp
      · rw [hacquires.others i hid]
        exact hp
  | release _ _ _ _ _ _ _ _ hok =>
    obtain ⟨rfl, hok⟩ := ops_release_eq_ok.mp hok
    rw [(release_bin hok).2 i]
    exact ⟨hp, rfl⟩
  | extract _ hok =>
    obtain ⟨rfl, hextract⟩ := ops_extract_eq_ok.mp hok
    refine ⟨(extract_bin hextract).2 i p hp ?_, rfl⟩
    rintro rfl
    exact hother hok
  | write hsame =>
    obtain ⟨hshape, -⟩ := hsame p (mem_held_of_recycled hi hp)
    rw [FastArena.room, FastArena.room, hshape.size, hshape.top]
    exact ⟨hp, rfl⟩

/-- A recycled arena serves no request. -/
theorem WellFormed.acquireFor_ne_recycled (h : bins.WellFormed heap) (hi : i < bins.numAlignments)
    (hp : p ∈ (bins.bins i).recycledList)
    (hok : bins.acquireFor heap size alignment = .ok (r, bins')) : r ≠ .acquired p := by
  rintro rfl
  rcases acquireFor_cases hok with ⟨hr, -⟩ | ⟨hsize, hacquire⟩
  · cases hr
  · obtain ⟨hid, -⟩ := h.acquire hsize hacquire
    obtain ⟨hheld, hnot, -⟩ := (h.acquires hsize hacquire).acquired p rfl
    -- an arena is in one bin
    have hpi : p ∈ (bins.bins i).held := FastArenaSmallBin.mem_held.mpr (.inr (.inr (.inr hp)))
    rw [← h.arenaId_eq hid hheld, h.arenaId_eq hi hpi] at hnot
    exact hnot hp

/-- The states that clients reach are well formed, and have the ranges of the bins created. -/
theorem reachable_inv (hcreate : (FastArenaSmallAllocator.create config).Creates alloc)
    (hreach : BinsReachable FastArenaSmallAllocator.ops held Suitable alloc.bins heap bins) :
    bins.WellFormed heap ∧ SameConfig alloc.bins bins := by
  have hwf : ∀ {heap bins},
      BinsReachable FastArenaSmallAllocator.ops held Suitable alloc.bins heap bins →
      bins.WellFormed heap :=
    law.binsReachable_wellFormed fun heap =>
      (FastArenaSmallAllocator.create_inv hcreate heap).holds.wf
  refine ⟨hwf hreach, ?_⟩
  induction hreach with
  | init heap => rfl
  | step hprev hstep ih =>
    have hsame := sameConfig_of_step (hwf hprev) hstep
    rw [SameConfig] at ih hsame ⊢
    rw [hsame, ih]

/-- What `create` takes from the configuration. -/
theorem create_ranges (hcreate : (FastArenaSmallAllocator.create config).Creates alloc) :
    alloc.bins.minArenaAlignmentLog2 = config.minArenaAlignmentLog2 ∧
      alloc.bins.maxArenaAlignmentLog2 = config.maxArenaAlignmentLog2 ∧
      align config.sizeCutoff (2 ^ config.maxArenaAlignmentLog2) = .ok alloc.bins.sizeCutoff := by
  simp only [FastArenaSmallAllocator.create, create, creates_bind, creates_lift,
    creates_checkReturnVal, creates_pure, exists_const, intpow2_eq_ok] at hcreate
  obtain ⟨bins, ⟨-, -, -, -, max2, ⟨-, rfl⟩, cutoff, hcutoff, rfl⟩, entry, -, rfl⟩ := hcreate
  exact ⟨rfl, rfl, hcutoff⟩

/-- The bin of a request has its alignment, or the least one. -/
theorem WellFormed.alignment_eq (h : bins.WellFormed heap) (halign : isAlignment alignment = true)
    (hi : bins.locateAlignment alignment < bins.numAlignments) :
    (bins.bins (bins.locateAlignment alignment)).alignment =
      max alignment (2 ^ bins.minArenaAlignmentLog2) := by
  rw [(h.bin _ hi).alignment_eq]
  obtain ⟨k, -, rfl⟩ := isAlignment_iff.mp halign
  rw [locateAlignment, intlog2_eq, Nat.log2_two_pow] at hi ⊢
  split_ifs at hi ⊢ with hmax
  · exact absurd hi (Nat.lt_irrefl _)
  · have hmono : Monotone fun e : Nat => 2 ^ e := pow_right_mono₀ (by decide)
    rw [← hmono.map_max]
    congr 1
    omega

/-- **Acquiring from the small bins is sound and complete.**  In every state that clients of the
bins reach, `acquire` fails iff the alignment is above the range or the size is above the cutoff.
Otherwise it looks at the current arena, the free list and the head of the cutoff list of the bin of
the alignment, and answers that there is no resource iff none of them serves the request: no arena
of the bin has the room of the cutoff then.  An arena that it returns has room for the request and
is the only one taken out; an arena that it recycles has less than half of the size. -/
theorem reachable_acquireFor (hcreate : (FastArenaSmallAllocator.create config).Creates alloc)
    (hreach : BinsReachable FastArenaSmallAllocator.ops held Suitable alloc.bins heap bins)
    (halign : isAlignment alignment = true) (size : Nat) :
    ∃ r bins', bins.acquireFor heap size alignment = .ok (r, bins') ∧
      align config.sizeCutoff (2 ^ config.maxArenaAlignmentLog2) = .ok bins.sizeCutoff ∧
      (r = .failed ↔ 2 ^ config.maxArenaAlignmentLog2 < alignment ∨ bins.sizeCutoff < size) ∧
      (r ≠ .failed → ∃ id < bins.numAlignments,
        (bins.bins id).alignment = max alignment (2 ^ config.minArenaAlignmentLog2) ∧
        Acquires heap bins bins' id size r) := by
  obtain ⟨hwf, hsame⟩ := reachable_inv hcreate hreach
  obtain ⟨hmin, hmax, hcutoff⟩ := create_ranges hcreate
  have hmin' : bins.minArenaAlignmentLog2 = alloc.bins.minArenaAlignmentLog2 := by rw [hsame]
  have hmax' : bins.maxArenaAlignmentLog2 = alloc.bins.maxArenaAlignmentLog2 := by rw [hsame]
  have hcutoff' : bins.sizeCutoff = alloc.bins.sizeCutoff := by rw [hsame]
  obtain ⟨r, bins', hok, hfailed⟩ : ∃ r bins', bins.acquireFor heap size alignment =
      .ok (r, bins') ∧ (r = .failed ↔
        ¬(alignment ≤ 2 ^ bins.maxArenaAlignmentLog2 ∧ size ≤ bins.sizeCutoff)) :=
    hwf.acquireFor_exists halign
  rw [hmax', hmax, not_and_or, not_le, not_le] at hfailed
  refine ⟨r, bins', hok, hcutoff' ▸ hcutoff, hfailed, fun hr => ?_⟩
  rcases acquireFor_cases hok with ⟨hr', -⟩ | ⟨hsize, hacquire⟩
  · exact absurd hr' hr
  · obtain ⟨hid, -⟩ := hwf.acquire hsize hacquire
    refine ⟨_, hid, ?_, hwf.acquires hsize hacquire⟩
    rw [hwf.alignment_eq halign hid, hmin', hmin]

/-- A client gives the bins a block of 4096 bytes, of which the first `top` are taken. -/
theorem reachable_block {top : Nat} (hdvd : 16 ∣ top) (hpos : 0 < top) (hle : top ≤ 4096)
    (hok : FastArenaSmallAllocator.ops.release (fun _ => FastArena.block4096 top)
      FastArenaSmallAllocator.sampleAlloc.bins 128 = .ok (heap, bins)) :
    BinsReachable FastArenaSmallAllocator.ops held Suitable
      FastArenaSmallAllocator.sampleAlloc.bins heap bins := by
  have hsuit : Suitable FastArenaSmallAllocator.sampleAlloc.bins (FastArena.block4096 top) :=
    ⟨show RegionChunkHandleHeader.data 66 = 2 by decide, 0, by decide, rfl⟩
  have hshaped : (FastArena.block4096 top).Shaped := by
    refine ⟨⟨?_, ?_, ?_, ?_, ?_, ?_⟩, hdvd, hle⟩
    · show isAlignment 16 = true
      decide
    · show confMinAllocAlignment ≤ 16
      decide
    · show 16 ∣ 4096
      decide
    · show 16 ∣ 4096
      decide
    · show 0 < 4096
      decide
    · show 4096 + 4096 < 2 ^ 64
      decide
  exact .step (.init _) (.release (p := 128) List.not_mem_nil (by decide) (by decide) hsuit hshaped
    (fun q hq => absurd hq List.not_mem_nil) hpos.ne rfl hok)

/-- A block of which 16 bytes are taken serves a request of 100 bytes. -/
theorem reachable_acquireFor_block : ∃ heap bins r bins',
    BinsReachable FastArenaSmallAllocator.ops held Suitable
      FastArenaSmallAllocator.sampleAlloc.bins heap bins ∧
    bins.acquireFor heap 100 8 = .ok (r, bins') ∧ r = .acquired 128 ∧ 112 ≤ (heap 128).room := by
  obtain ⟨heap, bins, bins₁, hrelease, hacquire⟩ : ∃ heap bins bins₁,
      FastArenaSmallAllocator.ops.release (fun _ => FastArena.block4096 16)
        FastArenaSmallAllocator.sampleAlloc.bins 128 = .ok (heap, bins) ∧
      bins.acquireFor heap 100 8 = .ok (.acquired 128, bins₁) := ⟨_, _, _, rfl, rfl⟩
  have hreach := reachable_block (by decide) (by decide) (by decide) hrelease
  obtain ⟨r, bins', hok, -, -, hacquires⟩ := reachable_acquireFor
    (show (FastArenaSmallAllocator.create ⟨4, 12, 4096⟩).Creates _ from rfl) hreach
    (show isAlignment 8 = true by decide) 100
  obtain rfl : r = .acquired 128 := (Prod.mk.inj (Except.ok.inj (hok.symm.trans hacquire))).1
  obtain ⟨id, -, halignment, hid⟩ := hacquires (by simp)
  obtain ⟨-, -, hroom, -⟩ := hid.acquired 128 rfl
  rw [halignment] at hroom
  exact ⟨heap, bins, _, bins', hreach, hok, rfl, hroom⟩

/-- **An arena that was given up serves no request until it is extracted.**  From every state that
clients of the bins reach, along every run that does not extract it, a recycled arena stays on the
recycled list of its bin, with the same room, and `acquire` never returns it. -/
theorem reachable_recycled (hcreate : (FastArenaSmallAllocator.create config).Creates alloc)
    (hreach : BinsReachable FastArenaSmallAllocator.ops held Suitable alloc.bins heap bins)
    (hi : i < bins.numAlignments) (hp : p ∈ (bins.bins i).recycledList)
    (hrun : Relation.ReflTransGen (OtherStep p) (heap, bins) (heap', bins')) :
    p ∈ (bins'.bins i).recycledList ∧ (heap' p).room = (heap p).room ∧
      ∀ size alignment r bins'', bins'.acquireFor heap' size alignment = .ok (r, bins'') →
        r ≠ .acquired p := by
  have hinv : ∀ s, Relation.ReflTransGen (OtherStep p) (heap, bins) s →
      BinsReachable FastArenaSmallAllocator.ops held Suitable alloc.bins s.1 s.2 ∧
        i < s.2.numAlignments ∧ p ∈ (s.2.bins i).recycledList ∧ (s.1 p).room = (heap p).room := by
    intro s hs
    induction hs with
    | refl => exact ⟨hreach, hi, hp, rfl⟩
    | @tail s s' _ hstep ih =>
      obtain ⟨hreach₁, hi₁, hp₁, hroom₁⟩ := ih
      obtain ⟨hwf, -⟩ := reachable_inv hcreate hreach₁
      obtain ⟨hp₂, hroom₂⟩ := recycled_step hwf hi₁ hstep hp₁
      refine ⟨.step hreach₁ hstep.1, ?_, hp₂, hroom₂.trans hroom₁⟩
      rw [sameConfig_of_step hwf hstep.1]
      exact hi₁
  obtain ⟨hreach', hi', hp', hroom'⟩ := hinv (heap', bins') hrun
  refine ⟨hp', hroom', fun size alignment r bins'' hok => ?_⟩
  exact (reachable_inv hcreate hreach').1.acquireFor_ne_recycled hi' hp' hok

/-- A block with 16 bytes left is given up for a request of 100 bytes; a request of 8 bytes, which
it could serve, does not get it then. -/
theorem reachable_recycled_block : ∃ heap bins bins' r bins'',
    BinsReachable FastArenaSmallAllocator.ops held Suitable
      FastArenaSmallAllocator.sampleAlloc.bins heap bins ∧
    bins.acquireFor heap 100 16 = .ok (.noResource, bins') ∧ (heap 128).room = 16 ∧
    bins'.acquireFor heap 8 16 = .ok (r, bins'') ∧ r ≠ .acquired 128 := by
  obtain ⟨heap, bins, bins₁, bins₂, hrelease, hgiven, hacquire, hroom, hp, hp'⟩ :
      ∃ heap bins bins₁ bins₂,
      FastArenaSmallAllocator.ops.release (fun _ => FastArena.block4096 4080)
        FastArenaSmallAllocator.sampleAlloc.bins 128 = .ok (heap, bins) ∧
      bins.acquireFor heap 100 16 = .ok (.noResource, bins₁) ∧
      bins₁.acquireFor heap 8 16 = .ok (.noResource, bins₂) ∧ (heap 128).room = 16 ∧
      0 < bins₁.numAlignments ∧ 128 ∈ (bins₁.bins 0).recycledList :=
    ⟨_, _, _, _, rfl, rfl, rfl, rfl, by decide, List.mem_cons_self⟩
  have hreach := reachable_block (by decide) (by decide) (by decide) hrelease
  have hreach₁ : BinsReachable FastArenaSmallAllocator.ops held Suitable
      FastArenaSmallAllocator.sampleAlloc.bins heap bins₁ :=
    .step hreach (.acquire (ops_acquire_eq_ok.mpr ⟨rfl, hgiven⟩))
  obtain ⟨-, -, hnever⟩ := reachable_recycled
    (show (FastArenaSmallAllocator.create ⟨4, 12, 4096⟩).Creates _ from rfl) hreach₁ hp hp' .refl
  exact ⟨heap, bins, bins₁, _, bins₂, hreach, hgiven, hroom, hacquire,
    hnever 8 16 _ bins₂ hacquire⟩

end FastArenaSmallBins

end Cuw3
