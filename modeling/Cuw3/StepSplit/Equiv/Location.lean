/-
  The numbers of bins are exact.

  The base sizes of the bins are the marks of a scale, `2 ^ num_splits_log2` a step (`base`,
  `Config.stepSplitSize_eq`).  `locate_step_split_arena` finds the last bin whose base is at most
  the size (`Config.locateStepSplitArena_isGreatest`), `locate_step_split_size` the first one whose
  base is at least the size (`Config.locateStepSplitSize_isLeast`), also where it is the first bin
  of the next step.
-/
import Cuw3.StepSplit.Equiv.Bins
import Cuw3.Lib.Scale

namespace Cuw3

open Lib

namespace FastArenaBinsInfo

variable {info : FastArenaBinsInfo} {config : FastArenaBinsConfig} {i j size r s : Nat}

/-- The base size of a bin, as the source computes it. -/
def stepSplitSize (info : FastArenaBinsInfo) (stepSplitId : Nat) : Checked Nat := do
  (← info.stepSplitIdToInfo stepSplitId).getStepSplitSize

/-- The distance of the bases in the first step. -/
def unit (info : FastArenaBinsInfo) : Nat := 2 ^ (info.minArenaStepSizeLog2 - info.numSplitsLog2)

/-- The base sizes of the bins. -/
def base (info : FastArenaBinsInfo) (stepSplitId : Nat) : Nat :=
  scale info.numSplitsLog2 stepSplitId * info.unit

theorem unit_pos (info : FastArenaBinsInfo) : 0 < info.unit := Nat.two_pow_pos _

theorem base_strictMono (info : FastArenaBinsInfo) : StrictMono info.base :=
  scale_mul_strictMono _ info.unit_pos

/-- The start of a later step is a power of two. -/
theorem Config.stepStart_mul (h : info.Config) (j : Nat) :
    stepStart info.numSplitsLog2 (j + 1) * info.unit = 2 ^ (info.minArenaStepSizeLog2 + j) := by
  have hle := h.splits_le_min
  rw [stepStart_add_one, unit, ← pow_add, ← pow_add]
  congr 1
  omega

/-- The width of a bin of a step. -/
theorem Config.width_eq (h : info.Config) (j : Nat) :
    2 ^ (info.minArenaStepSizeLog2 + j - info.numSplitsLog2) = 2 ^ j * info.unit := by
  have hle := h.splits_le_min
  rw [unit, ← pow_add]
  congr 1
  omega

/-- The base of the last bin is the maximal size. -/
theorem Config.base_last (h : info.Config) :
    info.base (info.numStepSplits - 1) = info.globalMaxAllocSize := by
  have hmin := h.min_le
  have hlast : info.numStepSplits - 1 =
      (info.maxArenaStepSizeLog2 - info.minArenaStepSizeLog2 + 2) * 2 ^ info.numSplitsLog2 + 0 := by
    rw [h.stepSplits, Nat.mul_comm]
    rfl
  rw [base, hlast, scale_mul_add (Nat.zero_le _), Nat.zero_mul, Nat.add_zero, h.stepStart_mul,
    h.globalMax]
  congr 1
  omega

theorem Config.base_le (h : info.Config) (hi : i < info.numStepSplits) :
    info.base i ≤ info.globalMaxAllocSize := by
  rw [← h.base_last]
  exact info.base_strictMono.monotone (by omega)

/-- The step of a bin. -/
theorem Config.step_le (h : info.Config) (hi : i < info.numStepSplits) :
    i / 2 ^ info.numSplitsLog2 ≤ info.maxArenaStepSizeLog2 - info.minArenaStepSizeLog2 + 2 := by
  rw [h.stepSplits] at hi
  have hle : i ≤ (info.maxArenaStepSizeLog2 - info.minArenaStepSizeLog2 + 2) *
      2 ^ info.numSplitsLog2 := by
    rw [Nat.mul_comm]
    omega
  exact Nat.div_le_of_le_mul (by rwa [Nat.mul_comm])

/-- The base of bin `c` of a step, also where it is the first bin of the next step. -/
theorem Config.getStepSplitSize_eq (h : info.Config) {c stepSizeLog2 : Nat}
    (hc : c ≤ 2 ^ info.numSplitsLog2) (hlog : info.numSplitsLog2 ≤ stepSizeLog2 ∧ stepSizeLog2 < 64)
    (hwidth : 2 ^ (stepSizeLog2 - info.numSplitsLog2) = 2 ^ (j - 1) * info.unit)
    (hi : j * 2 ^ info.numSplitsLog2 + c < info.numStepSplits) :
    FastArenaStepSplitInfo.getStepSplitSize ⟨j, c, j * 2 ^ info.numSplitsLog2 + c,
      stepStart info.numSplitsLog2 j * info.unit, stepSizeLog2, info.numSplitsLog2⟩ =
        .ok (info.base (j * 2 ^ info.numSplitsLog2 + c)) := by
  have hlt : info.base (j * 2 ^ info.numSplitsLog2 + c) < 2 ^ 64 := by
    refine lt_of_le_of_lt (h.base_le hi) ?_
    rw [h.globalMax]
    exact Nat.pow_lt_pow_right (by decide) h.max_step
  have hbase : info.base (j * 2 ^ info.numSplitsLog2 + c) =
      stepStart info.numSplitsLog2 j * info.unit + c * (2 ^ (j - 1) * info.unit) := by
    rw [base, scale_mul_add hc]
    ring
  have hsplit : c * (2 ^ (j - 1) * info.unit) < 2 ^ 64 := by
    refine lt_of_le_of_lt ?_ hlt
    rw [hbase]
    exact Nat.le_add_left _ _
  rw [FastArenaStepSplitInfo.getStepSplitSize, intpow2_of_lt hlog.2, ok_bind]
  dsimp only
  rw [divpow2_eq, Nat.pow_div hlog.1 (by decide), hwidth, u64_of_lt hsplit, ← hbase, u64_of_lt hlt]
  rfl

/-- **The source computes the marks of the scale.** -/
theorem Config.stepSplitSize_eq (h : info.Config) (hi : i < info.numStepSplits) :
    info.stepSplitSize i = .ok (info.base i) := by
  have hsplits := h.splits_le
  have hmin := h.min_le
  have hmax := h.max_step
  have hk := h.splits_le_min
  have hstep := h.step_le hi
  have hmod : modpow2 i info.numSplitsLog2 = i % 2 ^ info.numSplitsLog2 := modpow2_eq (by omega)
  have hc : i % 2 ^ info.numSplitsLog2 ≤ 2 ^ info.numSplitsLog2 :=
    (Nat.mod_lt _ (Nat.two_pow_pos _)).le
  have hdiv := Nat.div_add_mod' i (2 ^ info.numSplitsLog2)
  simp only [stepSplitSize, stepSplitIdToInfo, check_of hi, ok_bind, divpow2_eq, hmod]
  cases hj : i / 2 ^ info.numSplitsLog2 with
  | zero =>
    rw [hj] at hdiv
    have hsize := h.getStepSplitSize_eq hc ⟨hk, show info.minArenaStepSizeLog2 < 64 by omega⟩
      (h.width_eq 0) (hdiv ▸ hi)
    rw [hdiv, stepStart_zero, Nat.zero_mul] at hsize
    rw [if_neg (lt_irrefl 0), pure_bind]
    exact hsize
  | succ j =>
    rw [hj] at hdiv
    have hlog : info.minArenaStepSizeLog2 + (j + 1) - 1 = info.minArenaStepSizeLog2 + j := by omega
    have hsize := h.getStepSplitSize_eq hc
      ⟨show info.numSplitsLog2 ≤ info.minArenaStepSizeLog2 + j by omega, by omega⟩
      (h.width_eq j) (hdiv ▸ hi)
    rw [hdiv, h.stepStart_mul] at hsize
    rw [if_pos (Nat.succ_pos j), hlog,
      intpow2_of_lt (show info.minArenaStepSizeLog2 + j < 64 by omega), ok_bind, pure_bind]
    exact hsize

/-- The step of a size that is not zero: the size is in it, or above all steps. -/
theorem Config.getStep_spec (h : info.Config) (hsize : 0 < size) : ∃ j stepSizeLog2,
    info.getStep size = .ok (j, stepStart info.numSplitsLog2 j * info.unit, stepSizeLog2) ∧
      j ≤ info.maxArenaStepSizeLog2 - info.minArenaStepSizeLog2 + 1 ∧
      (info.numSplitsLog2 ≤ stepSizeLog2 ∧ stepSizeLog2 ≤ info.maxArenaStepSizeLog2) ∧
      2 ^ (stepSizeLog2 - info.numSplitsLog2) = 2 ^ (j - 1) * info.unit ∧
      stepStart info.numSplitsLog2 j * info.unit ≤ size ∧
      (size < stepStart info.numSplitsLog2 (j + 1) * info.unit ∨
        (j = info.maxArenaStepSizeLog2 - info.minArenaStepSizeLog2 + 1 ∧
          info.globalMaxAllocSize ≤ size)) := by
  have hmin := h.min_le
  have hmax := h.max_step
  have hk := h.splits_le_min
  have hlow : 2 ^ Nat.log2 size ≤ size := Nat.log2_self_le hsize.ne'
  have hhigh : size < 2 ^ (Nat.log2 size + 1) := Nat.lt_log2_self
  rw [h.globalMax]
  unfold getStep
  rw [intlog2_eq]
  by_cases hlt : min (Nat.log2 size) info.maxArenaStepSizeLog2 < info.minArenaStepSizeLog2
  · -- the size is below the least step size
    have hwidth := h.width_eq 0
    refine ⟨0, info.minArenaStepSizeLog2, ?_, by omega, by omega, hwidth, by simp, .inl ?_⟩
    · simp only [hlt, if_true, stepStart_zero, Nat.zero_mul]
      rfl
    · rw [h.stepStart_mul, Nat.add_zero]
      refine lt_of_lt_of_le hhigh (Nat.pow_le_pow_right (by decide) ?_)
      omega
  · obtain ⟨log, hlog⟩ : ∃ log, log = min (Nat.log2 size) info.maxArenaStepSizeLog2 := ⟨_, rfl⟩
    have hj : info.minArenaStepSizeLog2 + (log - info.minArenaStepSizeLog2) = log := by omega
    have hstart := h.stepStart_mul (log - info.minArenaStepSizeLog2)
    have hwidth := h.width_eq (log - info.minArenaStepSizeLog2)
    have hnext := h.stepStart_mul (log - info.minArenaStepSizeLog2 + 1)
    rw [hj] at hstart hwidth
    rw [← Nat.add_assoc, hj] at hnext
    refine ⟨log - info.minArenaStepSizeLog2 + 1, log, ?_, by omega, by omega, hwidth, ?_, ?_⟩
    · rw [← hlog] at hlt ⊢
      rw [if_neg hlt, intpow2_of_lt (show log < 64 by omega), hstart]
      rfl
    · rw [hstart]
      exact le_trans (Nat.pow_le_pow_right (by decide) (by omega)) hlow
    · rw [hnext]
      by_cases hlast : Nat.log2 size ≤ info.maxArenaStepSizeLog2
      · left
        have hsame : log = Nat.log2 size := by omega
        rwa [hsame]
      · right
        refine ⟨by omega, le_trans (Nat.pow_le_pow_right (by decide) ?_) hlow⟩
        omega

/-- The number of the bin that is `offset` above the size in its step. -/
theorem Config.getStepSplitInfo_eq (h : info.Config) (alignSplitUp : Bool) (offset : Nat)
    {stepSizeLog2 : Nat} (hstep : info.getStep size =
      .ok (j, stepStart info.numSplitsLog2 j * info.unit, stepSizeLog2))
    (hj : j ≤ info.maxArenaStepSizeLog2 - info.minArenaStepSizeLog2 + 1)
    (hlog : info.numSplitsLog2 ≤ stepSizeLog2 ∧ stepSizeLog2 ≤ info.maxArenaStepSizeLog2)
    (hoffset : offset = if alignSplitUp then 2 ^ (stepSizeLog2 - info.numSplitsLog2) - 1 else 0)
    (hle : stepStart info.numSplitsLog2 j * info.unit ≤ size) (hlt : size + offset < 2 ^ 57) :
    ∃ c, c = min ((size + offset - stepStart info.numSplitsLog2 j * info.unit) /
        2 ^ (stepSizeLog2 - info.numSplitsLog2)) (2 ^ info.numSplitsLog2) ∧
      info.getStepSplitInfo size alignSplitUp = .ok ⟨j, c, j * 2 ^ info.numSplitsLog2 + c,
        stepStart info.numSplitsLog2 j * info.unit, stepSizeLog2, info.numSplitsLog2⟩ ∧
      j * 2 ^ info.numSplitsLog2 + c < info.numStepSplits := by
  have hmax := h.max_step
  have hpow : 2 ^ info.numSplitsLog2 ≤ 2 ^ 7 := Nat.pow_le_pow_right (by decide) h.splits_le
  obtain ⟨start, hstart⟩ : ∃ start, start = stepStart info.numSplitsLog2 j * info.unit := ⟨_, rfl⟩
  rw [← hstart] at hstep hle ⊢
  obtain ⟨c, hc⟩ : ∃ c, c = min ((size + offset - start) /
    2 ^ (stepSizeLog2 - info.numSplitsLog2)) (2 ^ info.numSplitsLog2) := ⟨_, rfl⟩
  have hcle : c ≤ 2 ^ info.numSplitsLog2 := hc ▸ Nat.min_le_right _ _
  have hmul : (size + offset - start) * 2 ^ info.numSplitsLog2 < 2 ^ 64 := by
    calc (size + offset - start) * 2 ^ info.numSplitsLog2
        ≤ (size + offset - start) * 2 ^ 7 := Nat.mul_le_mul_left _ hpow
      _ < 2 ^ 64 := by omega
  have hsplit : min (divpow2 (mulpow2 (sub64 (u64 (size + offset)) start) info.numSplitsLog2)
      stepSizeLog2) info.numSplits = c := by
    have htwo : 2 ^ stepSizeLog2 = 2 ^ (stepSizeLog2 - info.numSplitsLog2) * 2 ^
      info.numSplitsLog2 := by
      rw [← pow_add]
      congr 1
      omega
    rw [u64_of_lt (by omega), sub64_of_le (by omega) (by omega), mulpow2_of_lt hmul, divpow2_eq,
      htwo,
      Nat.mul_div_mul_right _ _ (Nat.two_pow_pos _), h.splits, hc]
  have hjmul : j * 2 ^ info.numSplitsLog2 ≤
      (info.maxArenaStepSizeLog2 - info.minArenaStepSizeLog2 + 1) * 2 ^ info.numSplitsLog2 :=
    Nat.mul_le_mul_right _ hj
  have htotal : info.numStepSplits = (info.maxArenaStepSizeLog2 - info.minArenaStepSizeLog2 + 1) *
      2 ^ info.numSplitsLog2 + 2 ^ info.numSplitsLog2 + 1 := by
    rw [h.stepSplits]
    ring
  have hbound : (info.maxArenaStepSizeLog2 - info.minArenaStepSizeLog2 + 1) *
      2 ^ info.numSplitsLog2 ≤ 64 * 2 ^ 7 := Nat.mul_le_mul (by omega) hpow
  have hid : u64 (mulpow2 j info.numSplitsLog2 + c) = j * 2 ^ info.numSplitsLog2 + c := by
    rw [mulpow2_of_lt (by omega), u64_of_lt (by omega)]
  have hidlt : j * 2 ^ info.numSplitsLog2 + c < info.numStepSplits := by omega
  refine ⟨c, hc, ?_, hidlt⟩
  cases alignSplitUp with
  | true =>
    rw [if_pos rfl] at hoffset
    simp only [getStepSplitInfo, hstep, ok_bind, if_true,
      intpow2_of_lt (show stepSizeLog2 - info.numSplitsLog2 < 64 by omega), pure_bind, ← hoffset,
        hsplit,
      hid, check_of hidlt]
    rfl
  | false =>
    rw [if_neg Bool.false_ne_true] at hoffset
    simp only [getStepSplitInfo, hstep, ok_bind, Bool.false_eq_true, if_false, pure_bind, ← hoffset,
      hsplit, hid, check_of hidlt]
    rfl

/-- **`locate_step_split_arena` finds the last bin whose base is at most the size.** -/
theorem Config.locateStepSplitArena_isGreatest (h : info.Config) (hpos : 0 < r) (hlt : r < 2 ^ 48) :
    ∃ i, info.locateStepSplitArena r = .ok i ∧
      IsGreatest {i | i < info.numStepSplits ∧ info.base i ≤ r} i := by
  obtain ⟨j, log, hstep, hj, hlog, hwidth, hlo, hhi⟩ := h.getStep_spec hpos
  obtain ⟨c, hc, hinfo, hidlt⟩ :=
    h.getStepSplitInfo_eq false 0 hstep hj hlog rfl hlo (by omega)
  refine ⟨j * 2 ^ info.numSplitsLog2 + c, by rw [locateStepSplitArena, hinfo]; rfl, ?_⟩
  rw [Nat.add_zero, hwidth] at hc
  rcases hhi with hhi | ⟨rfl, hmax⟩
  · -- the size is inside of its step
    obtain ⟨hclt, hle, hnext⟩ := scale_floor info.unit_pos hlo hhi
    rw [Nat.min_eq_left hclt.le] at hc
    rw [hc] at hidlt ⊢
    exact isGreatest_of_lt_next info.base_strictMono hidlt hle fun _ => hnext
  · -- the size is above all steps, and the last bin has the maximal size
    refine isGreatest_of_lt_next info.base_strictMono hidlt ((h.base_le hidlt).trans hmax)
      fun hnext => ?_
    exfalso
    have hw : 0 < 2 ^ (info.maxArenaStepSizeLog2 - info.minArenaStepSizeLog2 + 1 - 1) * info.unit :=
      Nat.mul_pos (Nat.two_pow_pos _) info.unit_pos
    have hend := stepStart_end info.numSplitsLog2
      (info.maxArenaStepSizeLog2 - info.minArenaStepSizeLog2 + 1)
    have hglobal := h.stepStart_mul (info.maxArenaStepSizeLog2 - info.minArenaStepSizeLog2 + 1)
    have hmin := h.min_le
    have hlast : info.minArenaStepSizeLog2 +
        (info.maxArenaStepSizeLog2 - info.minArenaStepSizeLog2 + 1) =
        info.maxArenaStepSizeLog2 + 1 := by
      omega
    rw [hlast, ← h.globalMax, ← hend, Nat.add_mul, Nat.mul_assoc] at hglobal
    have hsplits : 2 ^ info.numSplitsLog2 ≤
        (r - stepStart info.numSplitsLog2
          (info.maxArenaStepSizeLog2 - info.minArenaStepSizeLog2 + 1) * info.unit) /
        (2 ^ (info.maxArenaStepSizeLog2 - info.minArenaStepSizeLog2 + 1 - 1) * info.unit) := by
      rw [Nat.le_div_iff_mul_le hw]
      omega
    rw [Nat.min_eq_right hsplits] at hc
    have htotal : info.numStepSplits = (info.maxArenaStepSizeLog2 - info.minArenaStepSizeLog2 + 1) *
        2 ^ info.numSplitsLog2 + 2 ^ info.numSplitsLog2 + 1 := by
      rw [h.stepSplits]
      ring
    omega

/-- **`locate_step_split_size` finds the first bin whose base is at least the size.** -/
theorem Config.getStepSplitInfo_isLeast (h : info.Config) (hlt : info.maxArenaStepSizeLog2 < 48)
    (hpos : 0 < s) (hle : s ≤ info.globalMaxAllocSize) :
    ∃ stepSplit, info.getStepSplitInfo s true = .ok stepSplit ∧
      stepSplit.getStepSplitSize = .ok (info.base stepSplit.stepSplitId) ∧
      IsLeast {i | i < info.numStepSplits ∧ s ≤ info.base i} stepSplit.stepSplitId := by
  obtain ⟨j, log, hstep, hj, hlog, hwidth, hlo, hhi⟩ := h.getStep_spec hpos
  have hmin := h.min_le
  have hmax : info.globalMaxAllocSize ≤ 2 ^ 48 := by
    rw [h.globalMax]
    exact Nat.pow_le_pow_right (by decide) (by omega)
  have hw : 2 ^ (log - info.numSplitsLog2) ≤ 2 ^ 47 := Nat.pow_le_pow_right (by decide) (by omega)
  obtain ⟨c, hc, hinfo, hidlt⟩ :=
    h.getStepSplitInfo_eq true (2 ^ (log - info.numSplitsLog2) - 1) hstep hj hlog rfl hlo (by omega)
  have hcle : c ≤ 2 ^ info.numSplitsLog2 := hc ▸ Nat.min_le_right _ _
  refine ⟨_, hinfo, h.getStepSplitSize_eq hcle ⟨hlog.1, by omega⟩ hwidth hidlt, ?_⟩
  -- the size is at most the end of its step
  have hend : s ≤ stepStart info.numSplitsLog2 (j + 1) * info.unit := by
    rcases hhi with hhi | ⟨rfl, -⟩
    · exact hhi.le
    · rw [h.stepStart_mul]
      rw [h.globalMax] at hle
      refine hle.trans_eq ?_
      congr 1
      omega
  obtain ⟨hsplits, hbase, hbefore⟩ := scale_ceil info.unit_pos hlo hend
  rw [hwidth, Nat.min_eq_left hsplits] at hc
  dsimp only
  rw [hc] at hidlt ⊢
  exact isLeast_of_forall_lt hidlt hbase hbefore

theorem Config.locateStepSplitSize_isLeast (h : info.Config) (hlt : info.maxArenaStepSizeLog2 < 48)
    (hpos : 0 < s) (hle : s ≤ info.globalMaxAllocSize) :
    ∃ i, info.locateStepSplitSize s = .ok i ∧
      IsLeast {i | i < info.numStepSplits ∧ s ≤ info.base i} i := by
  obtain ⟨stepSplit, hinfo, -, hleast⟩ := h.getStepSplitInfo_isLeast hlt hpos hle
  exact ⟨stepSplit.stepSplitId, by rw [locateStepSplitSize, hinfo]; rfl, hleast⟩

/-- What the two numbers tell: an arena whose bin is not before the bin of a request serves it, and
an arena that has the base size of the bin of the request is not before it. -/
theorem locate_le_of_le (hsize : IsLeast {i | i < info.numStepSplits ∧ s ≤ info.base i} i)
    (harena : IsGreatest {i | i < info.numStepSplits ∧ info.base i ≤ r} j) :
    (i ≤ j → s ≤ r) ∧ (info.base i ≤ r → i ≤ j) := by
  constructor
  · intro hle
    calc s ≤ info.base i := hsize.1.2
      _ ≤ info.base j := info.base_strictMono.monotone hle
      _ ≤ r := harena.1.2
  · intro hle
    exact harena.2 ⟨hsize.1.1, hle⟩

/-- The limits of the steps are those of the configuration. -/
theorem create_maxArenaStepSizeLog2 (hcreate : (create config).Creates info) :
    info.maxArenaStepSizeLog2 = config.maxArenaStepSizeLog2 := by
  simp only [create, creates_bind, creates_lift, creates_checkReturnVal, creates_pure,
    exists_const] at hcreate
  obtain ⟨_, -, -, -, -, -, -, -, _, -, _, -, _, -, -, _, -, rfl⟩ := hcreate
  rfl

theorem create_alignmentLog2 (hcreate : (create config).Creates info) :
    info.minArenaAlignmentLog2 = config.minArenaAlignmentLog2 ∧
      info.maxArenaAlignmentLog2 = config.maxArenaAlignmentLog2 := by
  simp only [create, creates_bind, creates_lift, creates_checkReturnVal, creates_pure,
    exists_const] at hcreate
  obtain ⟨_, -, -, -, -, -, -, -, _, -, _, -, _, -, -, mins, -, rfl⟩ := hcreate
  exact ⟨rfl, rfl⟩

/-- **The bin search is exact.**  The bases of the bins ascend; the bin of a request is the first
one whose base is at least the size, the bin of an arena the last one whose base is at most what
remains in it.  So an arena whose bin is not before the bin of a request serves it, and one that has
the base size of that bin is not before it. -/
theorem create_location (hcreate : (create config).Creates info)
    (hmax : config.maxArenaStepSizeLog2 ≤ 40) :
    ∃ base : Nat → Nat, (∀ i < info.numStepSplits, info.stepSplitSize i = .ok (base i)) ∧
      (∀ i j, i < j → j < info.numStepSplits → base i < base j) ∧
      (∀ s, 1 ≤ s → s ≤ info.globalMaxAllocSize → ∃ i, info.locateStepSplitSize s = .ok i ∧
        IsLeast {i | i < info.numStepSplits ∧ s ≤ base i} i) ∧
      (∀ r, 1 ≤ r → r < 2 ^ 48 → ∃ j, info.locateStepSplitArena r = .ok j ∧
        IsGreatest {j | j < info.numStepSplits ∧ base j ≤ r} j) ∧
      ∀ s r i j, 1 ≤ s → s ≤ info.globalMaxAllocSize → 1 ≤ r → r < 2 ^ 48 →
        info.locateStepSplitSize s = .ok i → info.locateStepSplitArena r = .ok j →
          (i ≤ j → s ≤ r) ∧ (base i ≤ r → i ≤ j) := by
  have hconfig := create_config hcreate
  have hlt : info.maxArenaStepSizeLog2 < 48 := by
    rw [create_maxArenaStepSizeLog2 hcreate]
    omega
  refine ⟨info.base, fun i hi => hconfig.stepSplitSize_eq hi, fun i j hij _ =>
    info.base_strictMono hij,
    fun s hpos hle => hconfig.locateStepSplitSize_isLeast hlt hpos hle,
    fun r hpos hr => hconfig.locateStepSplitArena_isGreatest hpos hr, ?_⟩
  intro s r i j hs hle hr hrlt hi hj
  obtain ⟨i', hi', hleast⟩ := hconfig.locateStepSplitSize_isLeast hlt hs hle
  obtain ⟨j', hj', hgreatest⟩ := hconfig.locateStepSplitArena_isGreatest hr hrlt
  obtain rfl : i = i' := Except.ok.inj (hi.symm.trans hi')
  obtain rfl : j = j' := Except.ok.inj (hj.symm.trans hj')
  exact locate_le_of_le hleast hgreatest

/-- Two steps of 16 and 32 bytes, in four splits each: a request of 21 bytes is served from the bin
of 24 bytes on. -/
theorem create_location_sample : ∃ info, (create ⟨2, 4, 5, 4, 4⟩).Creates info ∧
    info.locateStepSplitSize 21 = .ok 6 ∧ info.stepSplitSize 6 = .ok 24 ∧
    ∃ base : Nat → Nat, IsLeast {i | i < info.numStepSplits ∧ 21 ≤ base i} 6 := by
  obtain ⟨info, hcreate, hlocate, hbase⟩ : ∃ info, (create ⟨2, 4, 5, 4, 4⟩).Creates info ∧
      info.locateStepSplitSize 21 = .ok 6 ∧ info.stepSplitSize 6 = .ok 24 ∧
      info.globalMaxAllocSize = 64 := ⟨_, rfl, rfl, rfl, rfl⟩
  obtain ⟨base, -, -, hsize, -⟩ := create_location hcreate (by decide)
  obtain ⟨i, hi, hleast⟩ := hsize 21 (by decide) (by omega)
  obtain rfl : 6 = i := Except.ok.inj (hlocate.symm.trans hi)
  exact ⟨info, hcreate, hlocate, hbase.1, base, hleast⟩

end FastArenaBinsInfo

end Cuw3
