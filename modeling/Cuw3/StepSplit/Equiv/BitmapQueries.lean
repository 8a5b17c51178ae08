/-
  The queries of a bitmap say what the set of its bits is.

  The loop that the queries share looks at one segment of bits after the other, each inside one word
  (`Segment`): its rule is `scan_spec`.  With it every query is what its name says of the bits from
  the start on (`QueriesMean`), none looks past the last word or shifts by the word size, and
  `sample_set_bit` finds a bit.

  `get_last_set_bit` counts down with a signed variable, which starts negative for a capacity of
  `2^63` or more: all queries are right exactly for the capacities below it (`queriesMean_iff`).
-/
import Cuw3.StepSplit.Equiv.Words
import Mathlib.Data.Finset.Interval
import Mathlib.Order.Interval.Finset.Nat

namespace Cuw3.GuardedBitmap

open Bitmap (binSize nullBit testBit WordSized)

/-! ### The bits of a range -/

/-- The set bits of `[a, b)`. -/
def setIn (bitmap : Bitmap) (a b : Nat) : Finset Nat :=
  (Finset.Ico a b).filter fun i => bitmap.testBit i = true

variable {bitmap : Bitmap} {a b c i j : Nat}

theorem mem_setIn : i ∈ setIn bitmap a b ↔ (a ≤ i ∧ i < b) ∧ bitmap.testBit i = true := by
  rw [setIn, Finset.mem_filter, Finset.mem_Ico]

/-- The bits of a range are those below and those above a place in it. -/
theorem setIn_union (hab : a ≤ b) (hbc : b ≤ c) :
    setIn bitmap a c = setIn bitmap a b ∪ setIn bitmap b c := by
  ext i
  rw [Finset.mem_union, mem_setIn, mem_setIn, mem_setIn]
  by_cases hi : i < b
  · have hnot : ¬b ≤ i := not_le.mpr hi
    have hlt : i < c := by omega
    tauto
  · have hle : b ≤ i := not_lt.mp hi
    have hge : a ≤ i := by omega
    tauto

theorem card_setIn (hab : a ≤ b) (hbc : b ≤ c) :
    (setIn bitmap a c).card = (setIn bitmap a b).card + (setIn bitmap b c).card := by
  rw [setIn_union hab hbc, Finset.card_union_of_disjoint]
  rw [Finset.disjoint_left]
  intro i hi hi'
  have hlt := (mem_setIn.mp hi).1.2
  have hge := (mem_setIn.mp hi').1.1
  omega

theorem setIn_self : setIn bitmap a a = ∅ := by
  rw [setIn, Finset.Ico_self, Finset.filter_empty]

/-- The bits below a bit of the range. -/
theorem filter_setIn (hj : j ≤ c) : (setIn bitmap a c).filter (· < j) = setIn bitmap a j := by
  ext i
  rw [Finset.mem_filter, mem_setIn, mem_setIn]
  constructor
  · rintro ⟨⟨⟨hge, -⟩, hset⟩, hlt⟩
    exact ⟨⟨hge, hlt⟩, hset⟩
  · rintro ⟨⟨hge, hlt⟩, hset⟩
    exact ⟨⟨⟨hge, by omega⟩, hset⟩, hlt⟩

/-! ### Segments -/

/-- The bits `[curr, next)` lie in one word, and are the bits of the mask. -/
structure Segment (bitCapacity : Nat) (bitmap : Bitmap) (curr next word mask : Nat) : Prop where
  lt : curr < next
  le : next ≤ bitCapacity
  inside : next ≤ curr / 64 * 64 + 64
  word_eq : word = bitmap.bins (curr / 64)
  mask_lt : mask < 2 ^ 64
  mask_bits : ∀ i, mask.testBit i = decide (curr ≤ curr / 64 * 64 + i ∧ curr / 64 * 64 + i < next)

section

variable {bitCapacity curr next word mask bit start : Nat}

theorem Segment.testBit (h : Segment bitCapacity bitmap curr next word mask) (i : Nat) :
    (word &&& mask).testBit i =
      (decide (curr ≤ curr / 64 * 64 + i ∧ curr / 64 * 64 + i < next) &&
        bitmap.testBit (curr / 64 * 64 + i)) := by
  rw [Nat.testBit_and, h.mask_bits, h.word_eq, Bool.and_comm]
  by_cases hi : curr ≤ curr / 64 * 64 + i ∧ curr / 64 * 64 + i < next
  · have hle := h.inside
    have hdiv : (curr / 64 * 64 + i) / 64 = curr / 64 := by omega
    have hmod : (curr / 64 * 64 + i) % 64 = i := by omega
    rw [Bitmap.testBit, hdiv, hmod]
  · rw [decide_eq_false hi, Bool.false_and, Bool.false_and]

theorem Segment.masked_lt (h : Segment bitCapacity bitmap curr next word mask) :
    word &&& mask < 2 ^ 64 :=
  lt_of_le_of_lt Nat.and_le_right h.mask_lt

/-- The bits of the masked word are the bits of the segment. -/
theorem Segment.mem_setIn_iff (h : Segment bitCapacity bitmap curr next word mask) {k : Nat} :
    k ∈ setIn bitmap curr next ↔
      curr / 64 * 64 ≤ k ∧ k - curr / 64 * 64 ∈ bitSet (word &&& mask) := by
  rw [mem_setIn, mem_bitSet_of_lt h.masked_lt, h.testBit, Bool.and_eq_true, decide_eq_true_eq]
  constructor
  · rintro ⟨⟨hge, hlt⟩, hset⟩
    have hbase : curr / 64 * 64 + (k - curr / 64 * 64) = k := by omega
    rw [hbase]
    exact ⟨by omega, ⟨hge, hlt⟩, hset⟩
  · rintro ⟨hge, hbounds, hset⟩
    rw [Nat.add_sub_cancel' hge] at hbounds hset
    exact ⟨hbounds, hset⟩

theorem Segment.setIn_eq (h : Segment bitCapacity bitmap curr next word mask) :
    setIn bitmap curr next = (bitSet (word &&& mask)).map (addLeftEmbedding (curr / 64 * 64)) := by
  ext k
  rw [h.mem_setIn_iff, Finset.mem_map]
  constructor
  · rintro ⟨hge, hmem⟩
    exact ⟨_, hmem, Nat.add_sub_cancel' hge⟩
  · rintro ⟨i, hmem, rfl⟩
    show curr / 64 * 64 ≤ curr / 64 * 64 + i ∧ curr / 64 * 64 + i - curr / 64 * 64 ∈ _
    rw [Nat.add_sub_cancel_left]
    exact ⟨Nat.le_add_right _ i, hmem⟩

theorem Segment.popcount_eq (h : Segment bitCapacity bitmap curr next word mask) :
    popcount (word &&& mask) = (setIn bitmap curr next).card := by
  rw [h.setIn_eq, Finset.card_map]
  rfl

/-- The bits of the masked word below one of its bits. -/
theorem Segment.card_below (h : Segment bitCapacity bitmap curr next word mask)
    (hj : curr / 64 * 64 + j ≤ next) : ((bitSet (word &&& mask)).filter (· < j)).card =
      (setIn bitmap curr (curr / 64 * 64 + j)).card := by
  rw [← filter_setIn hj, h.setIn_eq, Finset.filter_map, Finset.card_map]
  congr 2
  ext i
  exact (Nat.add_lt_add_iff_left).symm

theorem Segment.setIn_eq_empty (h : Segment bitCapacity bitmap curr next word mask)
    (hzero : word &&& mask = 0) : setIn bitmap curr next = ∅ := by
  have hbits : bitSet (word &&& mask) = ∅ := by
    rw [← Finset.not_nonempty_iff_eq_empty, bitSet_nonempty h.masked_lt]
    exact not_not.mpr hzero
  rw [h.setIn_eq, hbits, Finset.map_empty]

/-- `countr_zero` finds the least bit of the segment. -/
theorem Segment.isLeast (h : Segment bitCapacity bitmap curr next word mask)
    (hne : word &&& mask ≠ 0) : IsLeast (setIn bitmap curr next : Set Nat)
      (curr / 64 * 64 + countrZero (word &&& mask)) := by
  obtain ⟨hmem, hleast⟩ := countrZero_isLeast hne h.masked_lt
  constructor
  · refine h.mem_setIn_iff.mpr ⟨Nat.le_add_right _ _, ?_⟩
    rw [Nat.add_sub_cancel_left]
    exact hmem
  · intro k hk
    obtain ⟨hge, hbit⟩ := h.mem_setIn_iff.mp hk
    have hle := hleast hbit
    omega

/-- `intlog2` finds the greatest bit of the segment. -/
theorem Segment.isGreatest (h : Segment bitCapacity bitmap curr next word mask)
    (hne : word &&& mask ≠ 0) : IsGreatest (setIn bitmap curr next : Set Nat)
      (curr / 64 * 64 + Nat.log2 (word &&& mask)) := by
  obtain ⟨hmem, hgreatest⟩ := log2_isGreatest hne h.masked_lt
  constructor
  · refine h.mem_setIn_iff.mpr ⟨Nat.le_add_right _ _, ?_⟩
    rw [Nat.add_sub_cancel_left]
    exact hmem
  · intro k hk
    obtain ⟨hge, hbit⟩ := h.mem_setIn_iff.mp hk
    have hle := hgreatest hbit
    omega

/-! ### Accesses -/

theorem binCapacity_eq (hcap : bitCapacity < 2 ^ 63) :
    binCapacity bitCapacity = (bitCapacity + 63) / 64 := by
  unfold binCapacity binSize
  rw [u64_of_lt (by omega)]
  rfl

/-- The word of a bit is one of the array. -/
theorem bin_eq (hcap : bitCapacity < 2 ^ 63) (h : i < bitCapacity) :
    bin bitCapacity bitmap (i / 64) = .ok (bitmap.bins (i / 64)) := by
  have hlt : i / 64 < binCapacity bitCapacity := by
    rw [binCapacity_eq hcap]
    omega
  unfold bin
  rw [assert_of hlt]
  rfl

theorem shl_one (bit : Nat) : shl 1 (bit % 64) = .ok (u64 (1 <<< (bit % 64))) :=
  shl_of_lt (Nat.mod_lt bit (by decide))

/-- `set` makes no access past the last word and no shift by the word size. -/
theorem set_eq_set (hcap : bitCapacity < 2 ^ 63) (h : bit < bitCapacity) :
    set bitCapacity bitmap bit = Bitmap.set bitCapacity bitmap bit := by
  unfold set Bitmap.set
  simp only [assert_of h, ok_bind, binSize, bin_eq hcap h, shl_one]

theorem unset_eq_unset (hcap : bitCapacity < 2 ^ 63) (h : bit < bitCapacity) :
    unset bitCapacity bitmap bit = Bitmap.unset bitCapacity bitmap bit := by
  unfold unset Bitmap.unset
  simp only [assert_of h, ok_bind, binSize, bin_eq hcap h, shl_one]

theorem lt_of_set {bitmap' : Bitmap} (h : set bitCapacity bitmap bit = .ok bitmap') :
    bit < bitCapacity := by
  simp only [set, bind_eq_ok, assert_eq_ok, exists_const] at h
  exact h.1

theorem lt_of_unset {bitmap' : Bitmap} (h : unset bitCapacity bitmap bit = .ok bitmap') :
    bit < bitCapacity := by
  simp only [unset, bind_eq_ok, assert_eq_ok, exists_const] at h
  exact h.1

theorem lt_of_setFirstUnset {result : Nat × Bitmap}
    (h : setFirstUnset bitCapacity bitmap start = .ok result) : start < bitCapacity := by
  simp only [setFirstUnset, bind_eq_ok, assert_eq_ok, exists_const] at h
  exact h.1

/-! ### The loop -/

/-- The mask of the bits `[curr, next)` of a word. -/
theorem exists_segment (bitmap : Bitmap) (hcap : bitCapacity < 2 ^ 63) (hlt : curr < next)
    (hle : next ≤ bitCapacity) (hinside : next ≤ curr / 64 * 64 + 64) : ∃ mask,
      bitmask (curr % 64) (sub64 (curr % 64 + next) curr) = .ok mask ∧
        Segment bitCapacity bitmap curr next (bitmap.bins (curr / 64)) mask := by
  have hlast : sub64 (curr % 64 + next) curr = curr % 64 + next - curr :=
    sub64_of_le (by omega) (by omega)
  obtain ⟨mask, hmask, hbits⟩ := Cuw3.bitmask_eq
    (show curr % 64 < curr % 64 + next - curr by omega) (by omega)
  rw [hlast, bitmask_eq_bitmask (by omega) (by omega)]
  refine ⟨mask, hmask, hlt, hle, hinside, rfl, ?_, fun i => ?_⟩
  · apply Nat.lt_pow_two_of_testBit
    intro i hi
    rw [hbits]
    exact decide_eq_false (by omega)
  · rw [hbits]
    congr 1
    rw [eq_iff_iff]
    omega

variable {σ β : Type} {body : σ → Nat → Nat → Nat → Checked (σ ⊕ β)} {exit : σ → Checked β}
  {P : σ → Nat → Prop} {Q : β → Prop}

/-- **The rule of the loop**: `P` says what the query's variable means once the bits before `curr`
were looked at.  The induction is on the number of turns. -/
theorem scan_spec (hcap : bitCapacity < 2 ^ 63)
    (hbody : ∀ state curr next word mask, P state curr →
      Segment bitCapacity bitmap curr next word mask →
        (∃ state', body state curr word mask = .ok (.inl state') ∧ P state' next) ∨
          ∃ result, body state curr word mask = .ok (.inr result) ∧ Q result)
    (hexit : ∀ state, P state bitCapacity → ∃ result, exit state = .ok result ∧ Q result)
    {turns : Nat} {state : σ} (hturns : bitCapacity < curr + turns) (hcurr : curr ≤ bitCapacity)
    (hP : P state curr) :
    ∃ result, scan bitCapacity bitmap body exit turns state curr = .ok result ∧ Q result := by
  induction turns generalizing state curr with
  | zero => omega
  | succ turns ih =>
    unfold scan
    by_cases hlt : curr < bitCapacity
    · have hwrap : u64 (curr + 64) = curr + 64 := u64_of_lt (by omega)
      have hdown : alignDown (curr + 64) 64 = .ok ((curr + 64) / 64 * 64) :=
        alignDown_eq (show 6 < 64 by decide) (by omega)
      have hnext : curr < min ((curr + 64) / 64 * 64) bitCapacity := by omega
      obtain ⟨mask, hmask, hsegment⟩ := exists_segment bitmap hcap hnext (Nat.min_le_right _ _)
        (by omega)
      simp only [if_pos hlt, binSize, hwrap, hdown, ok_bind, hmask, bin_eq hcap hlt]
      rcases hbody state curr _ _ _ hP hsegment with ⟨state', hstate', hP'⟩ | ⟨result, hresult, hQ⟩
      · simp only [hstate', ok_bind]
        exact ih (by omega) (Nat.min_le_right _ _) hP'
      · simp only [hresult, ok_bind]
        exact ⟨result, rfl, hQ⟩
    · obtain rfl : curr = bitCapacity := by omega
      simp only [if_neg hlt]
      exact hexit state hP

/-! ### Looking for the first bit -/

/-- The first bit of a segment is the first one of all when the segments before had none. -/
theorem Segment.isLeast_of_empty (h : Segment bitCapacity bitmap curr next word mask)
    (hle : start ≤ curr) (hempty : setIn bitmap start curr = ∅) (hne : word &&& mask ≠ 0) :
    IsLeast (setIn bitmap start bitCapacity : Set Nat)
      (curr / 64 * 64 + countrZero (word &&& mask)) := by
  obtain ⟨hmem, hleast⟩ := h.isLeast hne
  have hsplit : setIn bitmap start bitCapacity =
      setIn bitmap curr next ∪ setIn bitmap next bitCapacity := by
    rw [setIn_union hle (h.lt.le.trans h.le), hempty, Finset.empty_union,
      setIn_union h.lt.le h.le]
  rw [hsplit]
  refine ⟨Finset.mem_coe.mpr (Finset.mem_union_left _ hmem), fun k hk => ?_⟩
  rcases Finset.mem_union.mp hk with hk | hk
  · exact hleast hk
  · have hlt := (mem_setIn.mp hmem).1.2
    have hge := (mem_setIn.mp hk).1.1
    omega

/-- A segment without a bit adds nothing. -/
theorem Segment.empty_next (h : Segment bitCapacity bitmap curr next word mask)
    (hle : start ≤ curr) (hempty : setIn bitmap start curr = ∅) (hzero : word &&& mask = 0) :
    setIn bitmap start next = ∅ := by
  rw [setIn_union hle h.lt.le, hempty, h.setIn_eq_empty hzero, Finset.empty_union]

/-- `r` is the least bit of `S`, or the default when there is none. -/
def LeastOr (S : Finset Nat) (default r : Nat) : Prop :=
  IsLeast (S : Set Nat) r ∨ S = ∅ ∧ r = default

/-- `r` is the greatest bit of `S`, or the default when there is none. -/
def GreatestOr (S : Finset Nat) (default r : Nat) : Prop :=
  IsGreatest (S : Set Nat) r ∨ S = ∅ ∧ r = default

theorem anySet_eq (hcap : bitCapacity < 2 ^ 63) (hstart : start < bitCapacity) :
    anySet bitCapacity bitmap start =
      .ok (decide (setIn bitmap start bitCapacity).Nonempty) := by
  suffices h : ∃ result, anySet bitCapacity bitmap start = .ok result ∧
      result = decide (setIn bitmap start bitCapacity).Nonempty by
    obtain ⟨result, hresult, rfl⟩ := h
    exact hresult
  unfold anySet
  rw [assert_of hstart]
  apply scan_spec hcap (P := fun _ curr => start ≤ curr ∧ setIn bitmap start curr = ∅)
  · rintro - curr next word mask ⟨hle, hempty⟩ hsegment
    by_cases hzero : word &&& mask = 0
    · left
      rw [if_neg (not_not.mpr hzero)]
      exact ⟨(), rfl, hle.trans hsegment.lt.le, hsegment.empty_next hle hempty hzero⟩
    · right
      rw [if_pos hzero]
      exact ⟨true, rfl, (decide_eq_true ⟨_, (hsegment.isLeast_of_empty hle hempty hzero).1⟩).symm⟩
  · rintro - ⟨-, hempty⟩
    refine ⟨false, rfl, ?_⟩
    rw [hempty]
    rfl
  · omega
  · exact hstart.le
  · exact ⟨Nat.le_refl _, setIn_self⟩

theorem alignDown_word (hcap : bitCapacity < 2 ^ 63) (h : i ≤ bitCapacity) :
    alignDown i 64 = .ok (i / 64 * 64) :=
  alignDown_eq (show 6 < 64 by decide) (by omega)

theorem getFirstSet_eq (hcap : bitCapacity < 2 ^ 63) (hstart : start < bitCapacity) :
    ∃ r, getFirstSet bitCapacity bitmap start = .ok r ∧
      LeastOr (setIn bitmap start bitCapacity) bitCapacity r := by
  unfold getFirstSet
  rw [assert_of hstart]
  apply scan_spec hcap (P := fun _ curr => start ≤ curr ∧ setIn bitmap start curr = ∅)
  · rintro - curr next word mask ⟨hle, hempty⟩ hsegment
    by_cases hzero : word &&& mask = 0
    · left
      rw [if_neg (not_not.mpr hzero)]
      exact ⟨(), rfl, hle.trans hsegment.lt.le, hsegment.empty_next hle hempty hzero⟩
    · right
      have hcurr : curr ≤ bitCapacity := hsegment.lt.le.trans hsegment.le
      rw [if_pos hzero, binSize, alignDown_word hcap hcurr]
      exact ⟨_, rfl, Or.inl (hsegment.isLeast_of_empty hle hempty hzero)⟩
  · rintro - ⟨-, hempty⟩
    exact ⟨bitCapacity, rfl, Or.inr ⟨hempty, rfl⟩⟩
  · omega
  · exact hstart.le
  · exact ⟨Nat.le_refl _, setIn_self⟩

/-! ### Counting -/

theorem card_setIn_le : (setIn bitmap a b).card ≤ b - a := by
  have hle : (setIn bitmap a b).card ≤ (Finset.Ico a b).card := Finset.card_filter_le _ _
  rwa [Nat.card_Ico] at hle

theorem count_eq (hcap : bitCapacity < 2 ^ 63) (hstart : start < bitCapacity) :
    count bitCapacity bitmap start = .ok (setIn bitmap start bitCapacity).card := by
  suffices h : ∃ result, count bitCapacity bitmap start = .ok result ∧
      result = (setIn bitmap start bitCapacity).card by
    obtain ⟨result, hresult, rfl⟩ := h
    exact hresult
  unfold count
  rw [assert_of hstart]
  apply scan_spec hcap (P := fun total curr => start ≤ curr ∧ total =
    (setIn bitmap start curr).card)
  · rintro total curr next word mask ⟨hle, rfl⟩ hsegment
    left
    refine ⟨_, rfl, hle.trans hsegment.lt.le, ?_⟩
    have hsize : (setIn bitmap start next).card ≤ next - start := card_setIn_le
    have hnext : next ≤ bitCapacity := hsegment.le
    rw [hsegment.popcount_eq, ← card_setIn hle hsegment.lt.le]
    exact u64_of_lt (by omega)
  · rintro total ⟨-, rfl⟩
    exact ⟨_, rfl, rfl⟩
  · omega
  · exact hstart.le
  · refine ⟨Nat.le_refl _, ?_⟩
    rw [setIn_self]
    rfl

/-- `r` is the bit of `S` with the right number of bits below it, or the default when there is
none. -/
def SampleOr (S : Finset Nat) (default seed r : Nat) : Prop :=
  (r ∈ S ∧ (S.filter (· < r)).card = seed % S.card) ∨ S = ∅ ∧ r = default

/-- `sample_set_bit` never reaches its abort: `skipped` stays at most the bit looked for. -/
theorem sampleSetBit_eq (hcap : bitCapacity < 2 ^ 63) (hstart : start < bitCapacity) (seed : Nat) :
    ∃ r, sampleSetBit bitCapacity bitmap start seed = .ok r ∧
      SampleOr (setIn bitmap start bitCapacity) bitCapacity seed r := by
  unfold sampleSetBit
  rw [count_eq hcap hstart, ok_bind]
  by_cases hempty : setIn bitmap start bitCapacity = ∅
  · rw [hempty]
    exact ⟨bitCapacity, rfl, Or.inr ⟨rfl, rfl⟩⟩
  have hpos : 0 < (setIn bitmap start bitCapacity).card :=
    Finset.card_pos.mpr (Finset.nonempty_iff_ne_empty.mpr hempty)
  rw [if_neg hpos.ne']
  obtain ⟨bit, hbitEq⟩ : ∃ bit, bit = seed % (setIn bitmap start bitCapacity).card := ⟨_, rfl⟩
  have hbit : bit < (setIn bitmap start bitCapacity).card := by
    rw [hbitEq]
    exact Nat.mod_lt _ hpos
  have htotal : (setIn bitmap start bitCapacity).card ≤ bitCapacity - start := card_setIn_le
  rw [← hbitEq]
  apply scan_spec hcap (P := fun skipped curr =>
    start ≤ curr ∧ skipped = (setIn bitmap start curr).card ∧ skipped ≤ bit)
  · rintro skipped curr next word mask ⟨hle, rfl, hskipped⟩ hsegment
    have hsplit : (setIn bitmap start next).card =
        (setIn bitmap start curr).card + (setIn bitmap curr next).card :=
      card_setIn hle hsegment.lt.le
    have hsize : (setIn bitmap start next).card ≤ next - start := card_setIn_le
    have hnext : next ≤ bitCapacity := hsegment.le
    have hsub : sub64 bit (setIn bitmap start curr).card = bit - (setIn bitmap start curr).card :=
      sub64_of_le (by omega) hskipped
    simp only [hsub, hsegment.popcount_eq]
    by_cases hin : bit - (setIn bitmap start curr).card < (setIn bitmap curr next).card
    · -- the bit is in this word: clear those before it
      right
      have hcurr : curr ≤ bitCapacity := hsegment.lt.le.trans hsegment.le
      rw [if_pos hin, binSize, alignDown_word hcap hcurr]
      refine ⟨_, rfl, Or.inl ?_⟩
      rw [← hsegment.popcount_eq] at hin
      obtain ⟨hmem, hbelow⟩ := countrZero_clearLowest hsegment.masked_lt hin
      generalize countrZero (clearLowest (bit - (setIn bitmap start curr).card) (word &&& mask)) = k
        at hmem hbelow ⊢
      have hk : curr / 64 * 64 + k ∈ setIn bitmap curr next := by
        refine hsegment.mem_setIn_iff.mpr ⟨Nat.le_add_right _ k, ?_⟩
        rwa [Nat.add_sub_cancel_left]
      have hbounds := (mem_setIn.mp hk).1
      rw [hsegment.card_below hbounds.2.le] at hbelow
      refine ⟨mem_setIn.mpr ⟨⟨hle.trans hbounds.1, by omega⟩, (mem_setIn.mp hk).2⟩, ?_⟩
      rw [filter_setIn (by omega), card_setIn hle hbounds.1, hbelow, ← hbitEq]
      omega
    · left
      rw [if_neg hin]
      refine ⟨_, rfl, hle.trans hsegment.lt.le, ?_, ?_⟩
      · rw [← hsplit]
        exact u64_of_lt (by omega)
      · rw [← hsplit, u64_of_lt (by omega), hsplit]
        omega
  · rintro skipped ⟨-, rfl, hskipped⟩
    omega
  · omega
  · exact hstart.le
  · refine ⟨Nat.le_refl _, ?_, Nat.zero_le _⟩
    rw [setIn_self]
    rfl

/-! ### Looking for the first free bit -/

/-- The word with all bits set that are not in the segment. -/
theorem Segment.testBit_covered (h : Segment bitCapacity bitmap curr next word mask) (hi : i < 64) :
    (word ||| not64 mask).testBit i =
      (bitmap.testBit (curr / 64 * 64 + i) ||
        !decide (curr ≤ curr / 64 * 64 + i ∧ curr / 64 * 64 + i < next)) := by
  have hdiv : (curr / 64 * 64 + i) / 64 = curr / 64 := by omega
  have hmod : (curr / 64 * 64 + i) % 64 = i := by omega
  rw [Nat.testBit_or, testBit_not64 h.mask_lt, h.mask_bits, h.word_eq, decide_eq_true hi,
    Bool.true_and, Bitmap.testBit, hdiv, hmod]

theorem Segment.covered_lt (h : Segment bitCapacity bitmap curr next word mask)
    (hw : bitmap.WordSized) : word ||| not64 mask < 2 ^ 64 := by
  apply Nat.or_lt_two_pow
  · rw [h.word_eq]
    exact hw _
  · unfold not64
    omega

/-- `countr_one` finds the first free bit of the segment. -/
theorem Segment.isLeast_clear (h : Segment bitCapacity bitmap curr next word mask)
    (hw : bitmap.WordSized) (hne : not64 (word ||| not64 mask) ≠ 0) :
    IsLeast {i | (curr ≤ i ∧ i < next) ∧ bitmap.testBit i = false}
      (curr / 64 * 64 + countrOne (word ||| not64 mask)) := by
  obtain ⟨⟨hk, hclear⟩, hleast⟩ := countrOne_isLeast hne (h.covered_lt hw)
  rw [h.testBit_covered hk, Bool.or_eq_false_iff, Bool.not_eq_false', decide_eq_true_eq] at hclear
  refine ⟨⟨hclear.2, hclear.1⟩, ?_⟩
  rintro i ⟨⟨hge, hlt⟩, hfree⟩
  have hinside := h.inside
  have hbase : curr / 64 * 64 + (i - curr / 64 * 64) = i := by omega
  have hbit : (word ||| not64 mask).testBit (i - curr / 64 * 64) = false := by
    rw [h.testBit_covered (by omega), hbase, hfree, decide_eq_true ⟨hge, hlt⟩]
    rfl
  have hle := hleast ⟨by omega, hbit⟩
  omega

/-- No bit of the segment is free. -/
theorem Segment.set_of_not64_eq_zero (h : Segment bitCapacity bitmap curr next word mask)
    (hw : bitmap.WordSized) (hzero : not64 (word ||| not64 mask) = 0) (hge : curr ≤ i)
    (hlt : i < next) : bitmap.testBit i = true := by
  have hinside := h.inside
  have hbase : curr / 64 * 64 + (i - curr / 64 * 64) = i := by omega
  have hin : i - curr / 64 * 64 < 64 := by omega
  have hall : word ||| not64 mask = 2 ^ 64 - 1 := by
    have hcovered := h.covered_lt hw
    unfold not64 at hzero hcovered ⊢
    omega
  have hbit := h.testBit_covered hin
  rw [hall, Nat.testBit_two_pow_sub_one, hbase, decide_eq_true hin, decide_eq_true ⟨hge, hlt⟩]
    at hbit
  simpa using hbit.symm

/-- The first free bit was added, or there is none and nothing changed. -/
def AddsFirst (bitCapacity : Nat) (bitmap : Bitmap) (start r : Nat) (bitmap' : Bitmap) : Prop :=
  (IsLeast {i | (start ≤ i ∧ i < bitCapacity) ∧ bitmap.testBit i = false} r ∧
      ∀ i, bitmap'.testBit i = (decide (i = r) || bitmap.testBit i)) ∨
    ((∀ i, start ≤ i → i < bitCapacity → bitmap.testBit i = true) ∧ r = bitCapacity ∧
      bitmap' = bitmap)

theorem setFirstUnset_eq (hcap : bitCapacity < 2 ^ 63) (hw : bitmap.WordSized)
    (hstart : start < bitCapacity) :
    ∃ result, setFirstUnset bitCapacity bitmap start = .ok result ∧
      AddsFirst bitCapacity bitmap start result.1 result.2 ∧ result.2.WordSized := by
  unfold setFirstUnset
  rw [assert_of hstart]
  apply scan_spec hcap
    (P := fun _ curr => start ≤ curr ∧ ∀ i, start ≤ i → i < curr → bitmap.testBit i = true)
  · rintro - curr next word mask ⟨hle, hall⟩ hsegment
    by_cases hzero : not64 (word ||| not64 mask) = 0
    · left
      simp only [if_neg (not_not.mpr hzero)]
      refine ⟨(), rfl, hle.trans hsegment.lt.le, fun i hi hi' => ?_⟩
      by_cases hbefore : i < curr
      · exact hall i hi hbefore
      · exact hsegment.set_of_not64_eq_zero hw hzero (not_lt.mp hbefore) hi'
    · right
      have hcurr : curr ≤ bitCapacity := hsegment.lt.le.trans hsegment.le
      obtain ⟨⟨hbounds, hclear⟩, hleast⟩ := hsegment.isLeast_clear hw hzero
      have hnext : next ≤ bitCapacity := hsegment.le
      obtain ⟨bitmap', hset, hw', hbits⟩ := Bitmap.set_eq (lt_of_lt_of_le hbounds.2 hnext) hw
      rw [← set_eq_set hcap (lt_of_lt_of_le hbounds.2 hnext)] at hset
      simp only [if_pos hzero, binSize, alignDown_word hcap hcurr, ok_bind, hset]
      refine ⟨_, rfl, Or.inl ⟨⟨⟨⟨hle.trans hbounds.1, by omega⟩, hclear⟩, ?_⟩, hbits⟩, hw'⟩
      rintro i ⟨⟨hge, hlt⟩, hfree⟩
      by_cases hbefore : i < curr
      · rw [hall i hge hbefore] at hfree
        cases hfree
      · by_cases hin : i < next
        · exact hleast ⟨⟨not_lt.mp hbefore, hin⟩, hfree⟩
        · have hlast := hbounds.2
          omega
  · rintro - ⟨-, hall⟩
    exact ⟨_, rfl, Or.inr ⟨hall, rfl, rfl⟩, hw⟩
  · omega
  · exact hstart.le
  · exact ⟨Nat.le_refl _, fun i hi hi' => absurd hi (not_le.mpr hi')⟩

/-! ### Looking for the last bit -/

theorem ssize_natCast {v : Nat} (h : v < 2 ^ 63) : ssize v = v := by
  unfold ssize
  apply Int.bmod_eq_of_le
  · omega
  · omega

theorem gsize_natCast {v : Nat} (h : v < 2 ^ 64) : gsize v = v := by
  unfold gsize
  omega

/-- The signed loop variable goes down to the start of its word, also from the first one. -/
theorem alignSsize_sub (hcap : curr < 2 ^ 63) (hpos : 0 < curr) :
    alignSsize (ssize ((curr : Int) - (64 : Nat))) 64 =
      .ok (((curr - 1) / 64 * 64 : Nat) : Int) := by
  have hsigned : ssize ((curr : Int) - (64 : Nat)) = (curr : Int) - 64 := by
    unfold ssize
    apply Int.bmod_eq_of_le
    · omega
    · omega
  unfold alignSsize
  rw [assert_of (by decide), hsigned]
  show Except.ok _ = Except.ok _
  congr 1
  push_cast
  omega

theorem getLastSetBitFrom_eq (hcap : bitCapacity < 2 ^ 63) {turns : Nat} (hturns : curr < turns)
    (hcurr : curr ≤ bitCapacity) (hle : start ≤ curr) (hempty : setIn bitmap curr bitCapacity = ∅) :
    ∃ r, getLastSetBitFrom bitCapacity bitmap start turns curr = .ok r ∧
      GreatestOr (setIn bitmap start bitCapacity) bitCapacity r := by
  induction turns generalizing curr with
  | zero => omega
  | succ turns ih =>
    unfold getLastSetBitFrom
    by_cases hlt : start < curr
    · have hlt' : (start : Int) < curr := by omega
      have hnext : max ((((curr - 1) / 64 * 64 : Nat) : Int)) (start : Int) =
          ((max ((curr - 1) / 64 * 64) start : Nat) : Int) := by omega
      simp only [if_pos hlt', binSize, alignSsize_sub (show curr < 2 ^ 63 by omega)
        (by omega), ok_bind, hnext]
      generalize hdef : max ((curr - 1) / 64 * 64) start = next
      have hbelow : next < curr := by omega
      have hstart : start ≤ next := by omega
      obtain ⟨mask, hmask, hsegment⟩ :=
        exists_segment bitmap hcap hbelow hcurr (by omega)
      rw [gsize_natCast (by omega), gsize_natCast (by omega), hmask, ok_bind,
        bin_eq hcap (lt_of_lt_of_le hbelow hcurr), ok_bind]
      have hsplit : setIn bitmap start bitCapacity =
          setIn bitmap start next ∪ setIn bitmap next curr := by
        rw [setIn_union hle hcurr, hempty, Finset.union_empty, setIn_union hstart hbelow.le]
      by_cases hzero : bitmap.bins (next / 64) &&& mask = 0
      · simp only [if_neg (not_not.mpr hzero)]
        refine ih (by omega) (by omega) hstart ?_
        rw [setIn_union hbelow.le hcurr, hempty, hsegment.setIn_eq_empty hzero, Finset.union_empty]
      · simp only [if_pos hzero, alignDown_word hcap (hbelow.le.trans hcurr), ok_bind]
        obtain ⟨hmem, hgreatest⟩ := hsegment.isGreatest hzero
        refine ⟨_, rfl, Or.inl ?_⟩
        rw [intlog2, if_pos hzero, hsplit]
        refine ⟨Finset.mem_coe.mpr (Finset.mem_union_right _ hmem), fun k hk => ?_⟩
        rcases Finset.mem_union.mp hk with hk | hk
        · have hlow := (mem_setIn.mp hk).1.2
          have hhigh := (mem_setIn.mp hmem).1.1
          omega
        · exact hgreatest hk
    · obtain rfl : start = curr := by omega
      have hnot : ¬(start : Int) < start := lt_irrefl _
      simp only [if_neg hnot]
      exact ⟨bitCapacity, rfl, Or.inr ⟨hempty, rfl⟩⟩

theorem getLastSetBit_eq (hcap : bitCapacity < 2 ^ 63) (hstart : start < bitCapacity) :
    ∃ r, getLastSetBit bitCapacity bitmap start = .ok r ∧
      GreatestOr (setIn bitmap start bitCapacity) bitCapacity r := by
  unfold getLastSetBit
  rw [assert_of hstart, ok_bind, ssize_natCast hcap, ssize_natCast (hstart.trans hcap)]
  exact getLastSetBitFrom_eq hcap (Nat.lt_succ_self _) (Nat.le_refl _) hstart.le setIn_self

/-! ### All queries -/

/-- Every word of a reachable bitmap is a 64-bit word. -/
theorem Reachable.wordSized (hcap : bitCapacity < 2 ^ 63) (h : Reachable bitCapacity bitmap) :
    bitmap.WordSized := by
  induction h with
  | new => exact fun _ => Nat.two_pow_pos 64
  | @set before after bit h hok ih =>
    have hlt := lt_of_set hok
    obtain ⟨after', hset, hw, -⟩ := Bitmap.set_eq hlt ih
    rw [set_eq_set hcap hlt, hset] at hok
    cases hok
    exact hw
  | @unset before after bit h hok ih =>
    have hlt := lt_of_unset hok
    obtain ⟨after', hunset, hw, -⟩ := Bitmap.unset_eq hlt ih
    rw [unset_eq_unset hcap hlt, hunset] at hok
    cases hok
    exact hw
  | reset h ih =>
    intro k
    show (if k < binCapacity bitCapacity then 0 else _) < 2 ^ 64
    split
    · exact Nat.two_pow_pos 64
    · exact ih k
  | @setFirstUnset before after start bit h hok ih =>
    obtain ⟨result, hresult, -, hw⟩ := setFirstUnset_eq hcap ih (lt_of_setFirstUnset hok)
    rw [hresult] at hok
    cases hok
    exact hw

/-- Every query returns, without an access past the last word and without a shift by the word size
or more, and is what its name says of the set bits from the start on. -/
structure QueriesMean (bitCapacity : Nat) (bitmap : Bitmap) (start seed : Nat) : Prop where
  getFirstSet : ∃ r, getFirstSet bitCapacity bitmap start = .ok r ∧
    LeastOr (setIn bitmap start bitCapacity) bitCapacity r
  getLastSetBit : ∃ r, getLastSetBit bitCapacity bitmap start = .ok r ∧
    GreatestOr (setIn bitmap start bitCapacity) bitCapacity r
  anySet : anySet bitCapacity bitmap start =
    .ok (decide (setIn bitmap start bitCapacity).Nonempty)
  count : count bitCapacity bitmap start = .ok (setIn bitmap start bitCapacity).card
  sampleSetBit : ∃ r, sampleSetBit bitCapacity bitmap start seed = .ok r ∧
    SampleOr (setIn bitmap start bitCapacity) bitCapacity seed r
  setFirstUnset : ∃ r bitmap', setFirstUnset bitCapacity bitmap start = .ok (r, bitmap') ∧
    AddsFirst bitCapacity bitmap start r bitmap'

theorem queriesMean_of_lt (hcap : bitCapacity < 2 ^ 63) (h : Reachable bitCapacity bitmap)
    (hstart : start < bitCapacity) (seed : Nat) : QueriesMean bitCapacity bitmap start seed where
  getFirstSet := getFirstSet_eq hcap hstart
  getLastSetBit := getLastSetBit_eq hcap hstart
  anySet := anySet_eq hcap hstart
  count := count_eq hcap hstart
  sampleSetBit := sampleSetBit_eq hcap hstart seed
  setFirstUnset := by
    obtain ⟨⟨r, bitmap'⟩, hresult, hadds, -⟩ := setFirstUnset_eq hcap (h.wordSized hcap) hstart
    exact ⟨r, bitmap', hresult, hadds⟩

/-- From `2^63` on the loop variable of `get_last_set_bit` starts below zero: nothing is found. -/
theorem getLastSetBit_of_ge (hge : 2 ^ 63 ≤ bitCapacity) (hlt : bitCapacity < 2 ^ 64) :
    getLastSetBit bitCapacity bitmap 0 = .ok bitCapacity := by
  have hnegative : ssize bitCapacity = (bitCapacity : Int) - 2 ^ 64 := by
    unfold ssize
    rw [Int.bmod_def]
    omega
  have hzero : ssize (0 : Nat) = 0 := ssize_natCast (by decide)
  have hnot : ¬(0 : Int) < (bitCapacity : Int) - 2 ^ 64 := by omega
  unfold getLastSetBit getLastSetBitFrom
  rw [assert_of (show 0 < bitCapacity by omega), ok_bind, hnegative, hzero, if_neg hnot]
  rfl

/-- A word that is not there aborts the loop. -/
theorem scan_of_bin_error {turns : Nat} {state : σ} {abort : Abort} (hlt : curr < bitCapacity)
    (hwrap : curr + 64 < 2 ^ 64)
    (hbin : bin bitCapacity bitmap (curr / 64) = .error abort) :
    scan bitCapacity bitmap body exit (turns + 1) state curr = .error abort := by
  have hu64 : u64 (curr + 64) = curr + 64 := u64_of_lt hwrap
  have hdown : alignDown (curr + 64) 64 = .ok ((curr + 64) / 64 * 64) :=
    alignDown_eq (show 6 < 64 by decide) hwrap
  obtain ⟨next, hnext⟩ : ∃ next, next = min ((curr + 64) / 64 * 64) bitCapacity := ⟨_, rfl⟩
  have hlast : sub64 (curr % 64 + next) curr = curr % 64 + next - curr :=
    sub64_of_le (by omega) (by omega)
  obtain ⟨mask, hmask, -⟩ := Cuw3.bitmask_eq
    (show curr % 64 < curr % 64 + next - curr by omega) (by omega)
  rw [← bitmask_eq_bitmask (by omega) (by omega), ← hlast] at hmask
  unfold scan
  simp only [if_pos hlt, binSize, hu64, hdown, ok_bind, ← hnext, hmask, hbin]
  rfl

/-- Where the number of words wraps to none, the first one is not there. -/
theorem anySet_of_binCapacity_eq_zero (hpos : 0 < bitCapacity)
    (hwords : binCapacity bitCapacity = 0) :
    anySet bitCapacity bitmap 0 = .error ⟨"undefined: index past the last word"⟩ := by
  have hbin : bin bitCapacity bitmap (0 / 64) = .error ⟨"undefined: index past the last word"⟩ := by
    unfold bin assert
    rw [hwords, if_neg (Nat.not_lt_zero _)]
    rfl
  unfold anySet
  rw [assert_of hpos, ok_bind]
  exact scan_of_bin_error hpos (by decide) hbin

/-- The first bit of a new bitmap can be set where there is a word for it. -/
theorem exists_set_zero (hpos : 0 < bitCapacity) (hwords : 0 < binCapacity bitCapacity) :
    ∃ bitmap, set bitCapacity ⟨fun _ => 0⟩ 0 = .ok bitmap ∧ bitmap.testBit 0 = true := by
  refine ⟨⟨Function.update (fun _ => 0) 0 1⟩, ?_, rfl⟩
  unfold set bin
  rw [assert_of hpos, ok_bind, show 0 / binSize = 0 from rfl, assert_of hwords]
  rfl

/-- From `2^63` on, a bitmap with a bit is not searched from behind. -/
theorem exists_not_queriesMean (hge : 2 ^ 63 ≤ bitCapacity) (hlt : bitCapacity < 2 ^ 64)
    (hwords : 0 < binCapacity bitCapacity) :
    ∃ bitmap, Reachable bitCapacity bitmap ∧ ¬QueriesMean bitCapacity bitmap 0 0 := by
  have hpos : 0 < bitCapacity := by omega
  obtain ⟨bitmap, hset, hbit⟩ := exists_set_zero hpos hwords
  refine ⟨bitmap, .set .new hset, fun hmean => ?_⟩
  obtain ⟨r, hr, hgreatest⟩ := hmean.getLastSetBit
  rw [getLastSetBit_of_ge hge hlt] at hr
  cases hr
  rcases hgreatest with hgreatest | ⟨hempty, -⟩
  · -- the capacity is no bit
    exact lt_irrefl _ (mem_setIn.mp hgreatest.1).1.2
  · have hmem : 0 ∈ setIn bitmap 0 bitCapacity := mem_setIn.mpr ⟨⟨le_refl 0, hpos⟩, hbit⟩
    rw [hempty] at hmem
    simp at hmem

/-- **For every capacity below `2^63`, and for no other one, every query on a reachable bitmap is
what its name says of the set of the bits.** -/
theorem queriesMean_iff (bitCapacity : Nat) (hpos : 1 ≤ bitCapacity) (hlt : bitCapacity < 2 ^ 64) :
    (∀ bitmap, Reachable bitCapacity bitmap → ∀ start < bitCapacity, ∀ seed,
      QueriesMean bitCapacity bitmap start seed) ↔ bitCapacity < 2 ^ 63 := by
  constructor
  · intro hall
    by_contra hge
    by_cases hwords : 0 < binCapacity bitCapacity
    · obtain ⟨bitmap, h, hnot⟩ := exists_not_queriesMean (not_lt.mp hge) hlt hwords
      exact hnot (hall bitmap h 0 hpos 0)
    · -- the number of words wraps to none
      have hany := (hall _ .new 0 hpos 0).anySet
      rw [anySet_of_binCapacity_eq_zero hpos (by omega)] at hany
      cases hany
  · intro hcap bitmap h start hstart seed
    exact queriesMean_of_lt hcap h hstart seed

/-- A bitmap of 96 bits, one word and a half. -/
theorem queriesMean_iff_96 : (∀ bitmap, Reachable 96 bitmap → ∀ start < 96, ∀ seed,
    QueriesMean 96 bitmap start seed) ∧ 96 < 2 ^ 63 :=
  ⟨(queriesMean_iff 96 (by decide) (by decide)).mpr (by decide), by decide⟩

/-- Bit `0` of a bitmap of `2^63` bits is not found from behind. -/
theorem not_queriesMean : ¬∀ bitCapacity, 1 ≤ bitCapacity → bitCapacity < 2 ^ 64 →
    ∀ bitmap, Reachable bitCapacity bitmap → ∀ start < bitCapacity, ∀ seed,
      QueriesMean bitCapacity bitmap start seed := by
  intro hall
  obtain ⟨bitmap, h, hnot⟩ := exists_not_queriesMean (le_refl (2 ^ 63)) (by decide) (by decide)
  exact hnot (hall (2 ^ 63) (by decide) (by decide) bitmap h 0 (by decide) 0)

end

end Cuw3.GuardedBitmap
