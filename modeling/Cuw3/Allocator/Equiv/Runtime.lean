/-
  The exported functions over an address space.

  Each function does what `Api` says for the address that `vmem_alloc_aligned` answers, which is new
  (`Maps`), and exactly the thread-local allocators that exist are mapped (`createTla_spec`,
  `destroyTla_spec`).  So runs over an address space are runs of programs in which nothing is
  assumed of these addresses, and what is mapped in any of their states is what was mapped before,
  the memory of the allocator and the thread-local allocators (`reaches_space`).
-/
import Cuw3.Allocator.Runtime
import Cuw3.Allocator.Equiv.Create

namespace Cuw3

open Lib Cuw3.System

/-! ### The graveyard -/

namespace GraveAllocator

variable {alloc alloc' : GraveAllocator} {fuel t g : Nat}

/-- A thread-local allocator that was snatched was in the graveyard. -/
theorem snatchDeadTla_cases (hsnatch : alloc.snatchDeadTla = (t, alloc')) :
    (t ≠ 0 → t ∈ alloc.tlaGraveyard.deadQueue) ∧
      ∀ d ∈ alloc'.tlaGraveyard.deadQueue, d ∈ alloc.tlaGraveyard.deadQueue := by
  unfold snatchDeadTla acquireDeadTla ThreadGraveyard.acquire at hsnatch
  cases hqueue : alloc.tlaGraveyard.deadQueue with
  | nil =>
    rw [hqueue] at hsnatch
    obtain ⟨rfl, rfl⟩ := Prod.mk.inj hsnatch
    refine ⟨fun hne => absurd rfl hne, fun d hd => ?_⟩
    rwa [← hqueue]
  | cons dead rest =>
    rw [hqueue] at hsnatch
    dsimp only [removeDeadTla] at hsnatch
    split_ifs at hsnatch with hzero
    · obtain ⟨rfl, rfl⟩ := Prod.mk.inj hsnatch
      exact ⟨fun hne => absurd rfl hne, fun d hd => List.mem_cons_of_mem _ hd⟩
    · obtain ⟨rfl, rfl⟩ := Prod.mk.inj hsnatch
      exact ⟨fun _ => List.mem_cons_self, fun d hd => List.mem_cons_of_mem _ hd⟩

/-- A new thread-local allocator is at the address that was answered. -/
theorem createNewTla_cases {config : ThreadLocalAllocatorConfig} {tlaMem : Nat}
    (hok : alloc.createNewTla config tlaMem = .ok (t, alloc')) :
    (t = 0 ∧ alloc' = alloc) ∨ t = tlaMem ∧ alloc'.tlaGraveyard = alloc.tlaGraveyard := by
  unfold createNewTla at hok
  split_ifs at hok with hzero
  · obtain ⟨rfl, rfl⟩ := Prod.mk.inj (Except.ok.inj hok)
    exact .inl ⟨rfl, rfl⟩
  · rw [bind_eq_ok] at hok
    obtain ⟨result, -, hok⟩ := hok
    cases result with
    | ok tla =>
      obtain ⟨rfl, rfl⟩ := Prod.mk.inj (Except.ok.inj hok)
      exact .inr ⟨rfl, rfl⟩
    | error e =>
      obtain ⟨rfl, rfl⟩ := Prod.mk.inj (Except.ok.inj hok)
      exact .inl ⟨rfl, rfl⟩

/-- A thread-local allocator that a clean-up released was in the graveyard. -/
theorem graveTlaCleanup_released (hok : alloc.graveTlaCleanup fuel t = .ok (some (g, alloc')))
    (hg : g ≠ 0) : g ∈ alloc.tlaGraveyard.deadQueue := by
  simp only [graveTlaCleanup, bind_eq_ok, check_eq_ok, exists_const] at hok
  obtain ⟨-, hok⟩ := hok
  split_ifs at hok with hturn hnull
  · exact absurd (Prod.mk.inj (Option.some.inj (Except.ok.inj hok))).1.symm hg
  · exact absurd (Prod.mk.inj (Option.some.inj (Except.ok.inj hok))).1.symm hg
  · simp only [acquireDeadTla, ThreadGraveyard.acquire, withCleanup] at hnull hok
    cases hqueue : alloc.tlaGraveyard.deadQueue with
    | nil =>
      rw [hqueue] at hnull
      exact absurd rfl hnull
    | cons dead rest =>
      simp only [hqueue, bind_eq_ok] at hok
      obtain ⟨result, -, hok⟩ := hok
      cases result with
      | none => cases hok
      | some result =>
        simp only [bind_eq_ok] at hok
        obtain ⟨allocator, -, hok⟩ := hok
        split_ifs at hok with hempty
        · obtain ⟨rfl, rfl⟩ := Prod.mk.inj (Option.some.inj (Except.ok.inj hok))
          exact List.mem_cons_self
        · exact absurd (Prod.mk.inj (Option.some.inj (Except.ok.inj hok))).1.symm hg

theorem thisTlaCleanup_graveyard (hok : alloc.thisTlaCleanup fuel t = .ok (some (g, alloc'))) :
    alloc'.tlaGraveyard = alloc.tlaGraveyard := by
  simp only [thisTlaCleanup, bind_eq_ok, check_eq_ok, exists_const] at hok
  obtain ⟨-, hok⟩ := hok
  split_ifs at hok with hturn
  · obtain ⟨rfl, rfl⟩ := Prod.mk.inj (Option.some.inj (Except.ok.inj hok))
    rfl
  · simp only [bind_eq_ok] at hok
    obtain ⟨result, -, hok⟩ := hok
    cases result with
    | none => cases hok
    | some result =>
      obtain ⟨rfl, rfl⟩ := Prod.mk.inj (Option.some.inj (Except.ok.inj hok))
      rfl

end GraveAllocator

/-! ### The functions -/

namespace Runtime

variable {system : System} {limit tlaSize : Nat} {base : Nat → Option Protection}
  {memory : List Block} {runtime runtime' : Runtime} {tla thread fuel ptr size alignment : Nat}

/-- The ranges of the thread-local allocators. -/
def tlaRanges (runtime : Runtime) (tlaSize : Nat) : List Block :=
  runtime.api.tlas.map fun tla => ⟨tla, tlaSize⟩

/-- The system maps nothing at the end of the address space, and thread-local allocators can be
asked for. -/
structure Hosts (system : System) (limit tlaSize : Nat) : Prop extends system.UserSpace limit where
  limit_lt : limit < 2 ^ 64
  tla_pos : 1 ≤ tlaSize
  tla_fits : alignUp tlaSize (max regionOwnerAlignment system.pageSize) +
    max regionOwnerAlignment system.pageSize < 2 ^ 64

/-- The memory of the allocator and the thread-local allocators are mapped. -/
def Holds (system : System) (tlaSize : Nat) (base : Nat → Option Protection)
    (memory : List Block) (runtime : Runtime) : Prop :=
  Mapped system base ⟨runtime.space, runtime.tlaRanges tlaSize ++ memory⟩

/-- The thread-local allocators in the graveyard exist, and none is null. -/
structure Graves (api : Api) : Prop where
  positive : ∀ tla ∈ api.tlas, 0 < tla
  dead : ∀ tla ∈ api.dead, tla ∈ api.tlas

/-- A range that is mapped now is none of a thread-local allocator. -/
theorem Holds.not_mem (h : Holds system tlaSize base memory runtime)
    (hhosts : Hosts system limit tlaSize) {space' : AddressSpace}
    (hobtains : system.Obtains limit alignment tla tlaSize runtime.space space') :
    tla ∉ runtime.api.tlas := by
  intro hin
  have hsound := hhosts.toSound
  have hpos : 0 < system.pageSize := isAlignment_pos hsound.pageSize
  have hsize := hhosts.tla_pos
  -- the first page
  have htouches : system.touches tla tlaSize (tla / system.pageSize) = true := by
    have hfloor := Nat.div_mul_le_self tla system.pageSize
    have hceil := Nat.lt_div_mul_add hpos (a := tla)
    unfold touches
    rw [Bool.and_eq_true, decide_eq_true_eq, decide_eq_true_eq, Nat.add_mul]
    omega
  have hblock : system.pageBlock tla tlaSize ∈
      system.pageBlocks (runtime.tlaRanges tlaSize ++ memory) := by
    refine List.mem_map.mpr ⟨⟨tla, tlaSize⟩, ?_, rfl⟩
    exact List.mem_append_left _ (List.mem_map_of_mem hin)
  refine h.overlay.inside _ hblock (tla / system.pageSize) ?_ (hobtains.free _ htouches)
  exact (has_pageBlock hsound hobtains.whole).mpr htouches

/-- What `cuw3_create_new_tla` and `cuw3_create_tla` do for the address that `vmem_alloc_aligned`
answers. -/
structure Creates (system : System) (tlaSize : Nat) (base : Nat → Option Protection)
    (memory : List Block) (create : Nat → Checked (Nat × GraveAllocator)) (tla : Nat)
    (runtime runtime' : Runtime) : Prop where
  created : ∃ tlaMem, runtime.api.Maps tlaMem ∧ create tlaMem = .ok (tla, runtime'.api.allocator)
  api : runtime'.api = { runtime.api with
    allocator := runtime'.api.allocator
    tlas := if tla = 0 ∨ tla ∈ runtime.api.tlas then runtime.api.tlas
      else tla :: runtime.api.tlas }
  dead : ∀ d ∈ runtime'.api.dead, d ∈ runtime.api.dead
  holds : Holds system tlaSize base memory runtime'

theorem createNewTla_spec (h : Holds system tlaSize base memory runtime)
    (hhosts : Hosts system limit tlaSize) (hgraves : Graves runtime.api)
    (hok : runtime.createNewTla system tlaSize = .ok (tla, runtime')) :
    Creates system tlaSize base memory
      (runtime.api.allocator.createNewTla cuw3CreateTlaConfig) tla runtime runtime' := by
  have hsound := hhosts.toSound
  have halign : isAlignment (max regionOwnerAlignment system.pageSize) = true := by
    rcases max_choice regionOwnerAlignment system.pageSize with hmax | hmax
    · rw [hmax]
      decide
    · rw [hmax]
      exact hsound.pageSize
  obtain ⟨tlaMem, space, hspace, hcases⟩ := vmemAllocAligned_cases hhosts.toUserSpace
    runtime.space vMemReserveCommit hhosts.tla_pos halign hhosts.tla_fits
  unfold createNewTla vmemPageSize at hok
  replace hok := (congrArg (· >>= _) hspace).symm.trans hok
  rw [ok_bind] at hok
  dsimp only at hok
  rcases hcases with ⟨rfl, rfl, -⟩ | hobtains
  · -- nothing is mapped
    rw [if_pos rfl] at hok
    obtain ⟨rfl, rfl⟩ := Prod.mk.inj (Except.ok.inj hok)
    constructor
    case created =>
      refine ⟨0, ⟨fun hin => ?_, Nat.dvd_zero _, Nat.two_pow_pos 64⟩, ?_⟩
      · exact absurd rfl (hgraves.positive 0 hin).ne'
      · unfold GraveAllocator.createNewTla
        rw [if_pos rfl]
        rfl
    case api => rw [if_pos (.inl rfl)]
    case dead => exact fun d hd => hd
    case holds => exact h
  rw [if_neg hobtains.pos.ne', bind_eq_ok] at hok
  obtain ⟨⟨tla', allocator⟩, hcreate, hok⟩ := hok
  have hmaps : runtime.api.Maps tlaMem := by
    constructor
    case new => exact h.not_mem hhosts hobtains
    case aligned =>
      have howner : regionOwnerAlignment ∣ max regionOwnerAlignment system.pageSize := by
        rw [max_comm]
        exact AllocatorMemoryBundle.dvd_max hsound.pageSize (by decide)
      exact (howner.trans (AllocatorMemoryBundle.dvd_max hsound.pageSize halign)).trans
        hobtains.aligned
    case below =>
      have hend := hobtains.end_le
      have hlimit := hhosts.limit_lt
      omega
  have hmapped := Mapped.obtain h hsound hhosts.tla_pos hobtains
  dsimp only at hok
  rcases GraveAllocator.createNewTla_cases hcreate with ⟨rfl, rfl⟩ | ⟨rfl, hsame⟩
  · -- its memory is freed again
    rw [if_pos rfl] at hok
    obtain ⟨rfl, rfl⟩ := Prod.mk.inj (Except.ok.inj hok)
    constructor
    case created => exact ⟨tlaMem, hmaps, hcreate⟩
    case api => rw [if_pos (.inl rfl)]
    case dead => exact fun d hd => hd
    case holds => exact hmapped.release hsound
  · rw [if_neg hobtains.pos.ne'] at hok
    obtain ⟨rfl, rfl⟩ := Prod.mk.inj (Except.ok.inj hok)
    constructor
    case created => exact ⟨tla', hmaps, hcreate⟩
    case api => rw [if_neg (not_or.mpr ⟨hobtains.pos.ne', hmaps.new⟩)]
    case dead =>
      intro d hd
      unfold Api.dead at hd ⊢
      rwa [← hsame]
    case holds => exact hmapped

/-- `cuw3_create_tla`. -/
theorem createTla_spec (h : Holds system tlaSize base memory runtime)
    (hhosts : Hosts system limit tlaSize) (hgraves : Graves runtime.api)
    (hok : runtime.createTla system tlaSize = .ok (tla, runtime')) :
    Creates system tlaSize base memory
      (runtime.api.allocator.createTla cuw3CreateTlaConfig) tla runtime runtime' := by
  obtain ⟨snatched, allocator, hsnatch⟩ : ∃ snatched allocator,
      runtime.api.allocator.snatchDeadTla = (snatched, allocator) := ⟨_, _, rfl⟩
  obtain ⟨hdead, hrest⟩ := GraveAllocator.snatchDeadTla_cases hsnatch
  have hcreateTla : ∀ tlaMem, runtime.api.allocator.createTla cuw3CreateTlaConfig tlaMem =
      if snatched ≠ 0 then pure (snatched, allocator)
      else allocator.createNewTla cuw3CreateTlaConfig tlaMem := by
    intro tlaMem
    unfold GraveAllocator.createTla
    rw [hsnatch]
  unfold createTla at hok
  rw [hsnatch] at hok
  dsimp only at hok
  by_cases hzero : snatched = 0
  · -- the graveyard is empty
    subst hzero
    rw [if_neg (not_not.mpr rfl)] at hok
    have hgraves' : Graves (runtime.withAllocator allocator).api :=
      ⟨hgraves.positive, fun d hd => hgraves.dead d (hrest d hd)⟩
    have hsnatched : Holds system tlaSize base memory (runtime.withAllocator allocator) := h
    obtain ⟨⟨tlaMem, hmaps, hcreate⟩, hapi, hdead', hholds⟩ :=
      createNewTla_spec hsnatched hhosts hgraves' hok
    constructor
    case created =>
      refine ⟨tlaMem, ⟨hmaps.new, hmaps.aligned, hmaps.below⟩, ?_⟩
      rw [hcreateTla, if_neg (not_not.mpr rfl)]
      exact hcreate
    case api => exact hapi
    case dead => exact fun d hd => hrest d (hdead' d hd)
    case holds => exact hholds
  · rw [if_pos hzero] at hok
    obtain ⟨rfl, rfl⟩ := Prod.mk.inj (Except.ok.inj hok)
    constructor
    case created =>
      refine ⟨0, ⟨fun hin => ?_, Nat.dvd_zero _, Nat.two_pow_pos 64⟩, ?_⟩
      · exact absurd rfl (hgraves.positive 0 hin).ne'
      · rw [hcreateTla, if_pos hzero]
        rfl
    case api =>
      rw [if_pos (.inr (hgraves.dead _ (hdead hzero)))]
      rfl
    case dead => exact hrest
    case holds => exact h

/-- `cuw3_get_tla`. -/
theorem getTla_spec (h : Holds system tlaSize base memory runtime)
    (hhosts : Hosts system limit tlaSize) (hgraves : Graves runtime.api)
    (hok : runtime.getTla system tlaSize thread = .ok (tla, runtime')) :
    (∃ tlaMem, runtime.api.Maps tlaMem ∧
      runtime.api.getTla thread tlaMem = .ok (tla, runtime'.api)) ∧
    Graves runtime'.api ∧ Holds system tlaSize base memory runtime' := by
  unfold getTla at hok
  cases hguard : runtime.api.guards thread with
  | some tla' =>
    rw [hguard] at hok
    obtain ⟨rfl, rfl⟩ := Prod.mk.inj (Except.ok.inj hok)
    refine ⟨⟨0, ⟨fun hin => ?_, Nat.dvd_zero _, Nat.two_pow_pos 64⟩, ?_⟩, hgraves, h⟩
    · exact absurd rfl (hgraves.positive 0 hin).ne'
    · exact Api.getTla_of_guard hguard
  | none =>
    simp only [hguard, bind_eq_ok, pure_eq_ok, Prod.exists, Prod.mk.injEq] at hok
    obtain ⟨tla', runtime₁, hcreate, rfl, rfl⟩ := hok
    obtain ⟨⟨tlaMem, hmaps, hcreated⟩, hapi, hdead, hholds⟩ :=
      createTla_spec h hhosts hgraves hcreate
    refine ⟨⟨tlaMem, hmaps, ?_⟩, ⟨fun u hu => ?_, fun d hd => ?_⟩, hholds⟩
    · unfold Api.getTla Api.createTla
      rw [hguard, hcreated, ok_bind]
      let guarded (api : Api) : Checked (Nat × Api) :=
        .ok (tla', { api with guards := Function.update api.guards thread (some tla') })
      exact congrArg guarded hapi.symm
    · replace hu : u ∈ runtime₁.api.tlas := hu
      rw [hapi] at hu
      dsimp only at hu
      split_ifs at hu with hor
      · exact hgraves.positive u hu
      · rcases List.mem_cons.mp hu with rfl | hu
        · exact Nat.pos_of_ne_zero fun hzero => hor (.inl hzero)
        · exact hgraves.positive u hu
    · have hold := hgraves.dead d (hdead d hd)
      show d ∈ runtime₁.api.tlas
      rw [hapi]
      dsimp only
      split_ifs
      · exact hold
      · exact List.mem_cons_of_mem _ hold

/-- `cuw3_destroy_tla`. -/
theorem destroyTla_spec (h : Holds system tlaSize base memory runtime) (hsound : system.Sound)
    (htla : tla ∈ runtime.api.tlas)
    (hok : runtime.destroyTla system tlaSize tla = .ok runtime') :
    runtime.api.destroyTla tla = .ok runtime'.api ∧ Holds system tlaSize base memory runtime' := by
  simp only [destroyTla, bind_eq_ok, pure_eq_ok] at hok
  obtain ⟨api, hdestroy, rfl⟩ := hok
  refine ⟨hdestroy, ?_⟩
  have htlas : api.tlas = runtime.api.tlas.erase tla := by
    simp only [Api.destroyTla, bind_eq_ok, pure_eq_ok] at hdestroy
    obtain ⟨allocator, -, rfl⟩ := hdestroy
    rfl
  have hperm : (runtime.tlaRanges tlaSize ++ memory).Perm
      (⟨tla, tlaSize⟩ :: (api.tlas.map (fun tla => (⟨tla, tlaSize⟩ : Block)) ++ memory)) := by
    rw [htlas, ← List.cons_append]
    exact ((List.perm_cons_erase htla).map _).append_right memory
  exact (Mapped.perm h hperm).release hsound

/-! ### The exported functions -/

/-- The end of `cuw3_free` and of `cuw3_cleanup`. -/
theorem graveCleanup_spec (h : Holds system tlaSize base memory runtime) (hsound : system.Sound)
    (hgraves : Graves runtime.api)
    (hok : runtime.graveCleanup system tlaSize fuel tla = .ok (some runtime')) :
    runtime.api.graveCleanup fuel tla = .ok (some runtime'.api) ∧
      Holds system tlaSize base memory runtime' := by
  simp only [graveCleanup, bind_eq_ok] at hok
  obtain ⟨result, hcleanup, hok⟩ := hok
  cases result with
  | none => cases hok
  | some result =>
    obtain ⟨released, allocator⟩ := result
    unfold Api.graveCleanup
    rw [hcleanup, ok_bind]
    dsimp only at hok ⊢
    by_cases hzero : released = 0
    · rw [if_pos hzero] at hok ⊢
      obtain rfl := Option.some.inj (Except.ok.inj hok)
      exact ⟨rfl, h⟩
    · rw [if_neg hzero] at hok ⊢
      simp only [bind_eq_ok, pure_eq_ok, Option.some.injEq] at hok
      obtain ⟨_, hdestroy, rfl⟩ := hok
      have hmem := hgraves.dead _ (GraveAllocator.graveTlaCleanup_released hcleanup hzero)
      have hcleaned : Holds system tlaSize base memory (runtime.withAllocator allocator) := h
      obtain ⟨hdestroy', hholds⟩ := destroyTla_spec hcleaned hsound hmem hdestroy
      refine ⟨?_, hholds⟩
      replace hdestroy' :
        ({ runtime.api with allocator } : Api).destroyTla released = _ := hdestroy'
      rw [hdestroy', ok_bind]
      rfl

/-- The exit of a thread. -/
theorem exitThread_spec (h : Holds system tlaSize base memory runtime) (hsound : system.Sound)
    (hguards : ∀ tla, runtime.api.guards thread = some tla → tla ≠ 0 → tla ∈ runtime.api.tlas)
    (hok : runtime.exitThread system tlaSize fuel thread = .ok (some runtime')) :
    runtime.api.exitThread fuel thread = .ok (some runtime'.api) ∧
      Holds system tlaSize base memory runtime' := by
  unfold exitThread at hok
  unfold Api.exitThread
  cases hguard : runtime.api.guards thread with
  | none =>
    rw [hguard] at hok
    obtain rfl := Option.some.inj (Except.ok.inj hok)
    exact ⟨rfl, h⟩
  | some tla =>
    simp only [hguard] at hok ⊢
    by_cases hzero : tla = 0
    · rw [if_pos hzero] at hok ⊢
      obtain rfl := Option.some.inj (Except.ok.inj hok)
      exact ⟨rfl, h⟩
    rw [if_neg hzero] at hok ⊢
    have hmem := hguards tla hguard hzero
    simp only [bind_eq_ok] at hok
    obtain ⟨result, hreclaim, hok⟩ := hok
    cases result with
    | none => cases hok
    | some result =>
      obtain ⟨empty, allocator⟩ := result
      unfold GraveAllocator.exitThread
      rw [hreclaim, ok_bind]
      cases empty with
      | true =>
        simp only [if_true, bind_eq_ok, pure_eq_ok, Option.some.injEq] at hok
        obtain ⟨runtime₁, hdestroy, rfl⟩ := hok
        have hreclaimed : Holds system tlaSize base memory (runtime.withAllocator
          { runtime.api.allocator with toAllocator := allocator }) := h
        obtain ⟨hdestroyed, hholds⟩ := destroyTla_spec hreclaimed hsound hmem hdestroy
        refine ⟨?_, hholds⟩
        simp only [Api.destroyTla, bind_eq_ok, pure_eq_ok] at hdestroyed
        obtain ⟨allocator', hallocator, hapi⟩ := hdestroyed
        replace hallocator : ({ runtime.api.allocator with toAllocator := allocator } :
          GraveAllocator).destroyTla tla = _ := hallocator
        dsimp only
        rw [if_pos rfl, hallocator, ← hapi]
        rfl
      | false =>
        obtain rfl := Option.some.inj (Except.ok.inj hok)
        exact ⟨rfl, h⟩

theorem alloc_spec {commitOk : Bool} (h : Holds system tlaSize base memory runtime)
    (hhosts : Hosts system limit tlaSize) (hgraves : Graves runtime.api)
    (hok : runtime.alloc system tlaSize commitOk thread size alignment = .ok (ptr, runtime')) :
    (∃ tlaMem, runtime.api.Maps tlaMem ∧
      runtime.api.alloc commitOk thread tlaMem size alignment = .ok (ptr, runtime'.api)) ∧
    Holds system tlaSize base memory runtime' := by
  simp only [alloc, bind_eq_ok, Prod.exists] at hok
  obtain ⟨tla, runtime₁, hget, hok⟩ := hok
  obtain ⟨⟨tlaMem, hmaps, hgot⟩, -, hholds⟩ := getTla_spec h hhosts hgraves hget
  unfold Api.alloc
  by_cases hzero : tla = 0
  · rw [if_pos hzero] at hok
    obtain ⟨rfl, rfl⟩ := Prod.mk.inj (Except.ok.inj hok)
    refine ⟨⟨tlaMem, hmaps, ?_⟩, hholds⟩
    rw [hgot, ok_bind]
    exact if_pos hzero
  · rw [if_neg hzero] at hok
    simp only [bind_eq_ok, Prod.exists] at hok
    obtain ⟨res, allocator, hallocate, hok⟩ := hok
    cases res with
    | acquired m =>
      obtain ⟨rfl, rfl⟩ := Prod.mk.inj (Except.ok.inj hok)
      refine ⟨⟨tlaMem, hmaps, ?_⟩, hholds⟩
      rw [hgot, ok_bind]
      dsimp only
      rw [if_neg hzero, hallocate]
      rfl
    | failed =>
      obtain ⟨rfl, rfl⟩ := Prod.mk.inj (Except.ok.inj hok)
      refine ⟨⟨tlaMem, hmaps, ?_⟩, hholds⟩
      rw [hgot, ok_bind]
      dsimp only
      rw [if_neg hzero, hallocate]
      rfl
    | noResource =>
      obtain ⟨rfl, rfl⟩ := Prod.mk.inj (Except.ok.inj hok)
      refine ⟨⟨tlaMem, hmaps, ?_⟩, hholds⟩
      rw [hgot, ok_bind]
      dsimp only
      rw [if_neg hzero, hallocate]
      rfl

theorem free_spec (h : Holds system tlaSize base memory runtime)
    (hhosts : Hosts system limit tlaSize) (hgraves : Graves runtime.api)
    (hok : runtime.free system tlaSize fuel thread ptr size = .ok (some runtime')) :
    (∃ tlaMem, runtime.api.Maps tlaMem ∧
      runtime.api.free fuel thread tlaMem ptr size = .ok (some runtime'.api)) ∧
    Holds system tlaSize base memory runtime' := by
  simp only [free, bind_eq_ok, Prod.exists] at hok
  obtain ⟨tla, runtime₁, hget, hok⟩ := hok
  obtain ⟨⟨tlaMem, hmaps, hgot⟩, hgraves₁, hholds⟩ :=
    getTla_spec h hhosts hgraves hget
  by_cases hzero : tla = 0
  · rw [if_pos hzero] at hok
    obtain rfl := Option.some.inj (Except.ok.inj hok)
    refine ⟨⟨tlaMem, hmaps, ?_⟩, hholds⟩
    unfold Api.free
    rw [hgot, ok_bind]
    exact if_pos hzero
  · rw [if_neg hzero] at hok
    simp only [bind_eq_ok] at hok
    obtain ⟨allocator, hdeallocate, result, hthis, hok⟩ := hok
    cases result with
    | none => cases hok
    | some result =>
      obtain ⟨g, allocator'⟩ := result
      -- the graveyard is that of the state before
      have hqueue := GraveAllocator.thisTlaCleanup_graveyard hthis
      have hgraves₂ : Graves (runtime₁.withAllocator allocator').api := by
        refine ⟨hgraves₁.positive, fun d hd => hgraves₁.dead d ?_⟩
        replace hd : d ∈ allocator'.tlaGraveyard.deadQueue := hd
        rw [hqueue] at hd
        exact hd
      have hcleaned : Holds system tlaSize base memory (runtime₁.withAllocator allocator') :=
        hholds
      obtain ⟨hcleanup, hholds'⟩ := graveCleanup_spec hcleaned hhosts.toSound hgraves₂ hok
      refine ⟨⟨tlaMem, hmaps, ?_⟩, hholds'⟩
      unfold Api.free
      rw [hgot, ok_bind]
      dsimp only
      rw [if_neg hzero, hdeallocate, ok_bind, hthis, ok_bind]
      exact hcleanup

theorem reclaim_spec (h : Holds system tlaSize base memory runtime)
    (hhosts : Hosts system limit tlaSize) (hgraves : Graves runtime.api)
    (hok : runtime.reclaim system tlaSize fuel thread = .ok (some runtime')) :
    (∃ tlaMem, runtime.api.Maps tlaMem ∧
      runtime.api.reclaim fuel thread tlaMem = .ok (some runtime'.api)) ∧
    Holds system tlaSize base memory runtime' := by
  simp only [reclaim, bind_eq_ok, Prod.exists] at hok
  obtain ⟨tla, runtime₁, hget, hok⟩ := hok
  obtain ⟨⟨tlaMem, hmaps, hgot⟩, -, hholds⟩ := getTla_spec h hhosts hgraves hget
  unfold Api.reclaim
  by_cases hzero : tla = 0
  · rw [if_pos hzero] at hok
    obtain rfl := Option.some.inj (Except.ok.inj hok)
    refine ⟨⟨tlaMem, hmaps, ?_⟩, hholds⟩
    rw [hgot, ok_bind]
    exact if_pos hzero
  · rw [if_neg hzero] at hok
    simp only [bind_eq_ok] at hok
    obtain ⟨result, hreclaim, hok⟩ := hok
    cases result with
    | none => cases hok
    | some result =>
      obtain rfl := Option.some.inj (Except.ok.inj hok)
      refine ⟨⟨tlaMem, hmaps, ?_⟩, hholds⟩
      rw [hgot, ok_bind]
      dsimp only
      rw [if_neg hzero, hreclaim]
      rfl

theorem cleanup_spec (h : Holds system tlaSize base memory runtime)
    (hhosts : Hosts system limit tlaSize) (hgraves : Graves runtime.api)
    (hok : runtime.cleanup system tlaSize fuel thread = .ok (some runtime')) :
    (∃ tlaMem, runtime.api.Maps tlaMem ∧
      runtime.api.cleanup fuel thread tlaMem = .ok (some runtime'.api)) ∧
    Holds system tlaSize base memory runtime' := by
  simp only [cleanup, bind_eq_ok, Prod.exists] at hok
  obtain ⟨tla, runtime₁, hget, hok⟩ := hok
  obtain ⟨⟨tlaMem, hmaps, hgot⟩, hgraves₁, hholds⟩ :=
    getTla_spec h hhosts hgraves hget
  unfold Api.cleanup
  by_cases hzero : tla = 0
  · rw [if_pos hzero] at hok
    obtain rfl := Option.some.inj (Except.ok.inj hok)
    refine ⟨⟨tlaMem, hmaps, ?_⟩, hholds⟩
    rw [hgot, ok_bind]
    exact if_pos hzero
  · rw [if_neg hzero] at hok
    obtain ⟨hcleanup, hholds'⟩ := graveCleanup_spec hholds hhosts.toSound hgraves₁ hok
    refine ⟨⟨tlaMem, hmaps, ?_⟩, hholds'⟩
    rw [hgot, ok_bind]
    dsimp only
    rw [if_neg hzero]
    exact hcleanup

end Runtime

/-! ### Runs -/

/-- The layout of the chunks is the same after operations. -/
theorem Process.Steps.sameLayout {meets : Process → Process.Action → Prop} {p p' : Process}
    (h : Process.Steps meets p p') (hinv : p.Inv) : p.alloc.rca.SameLayout p'.alloc.rca := by
  induction h with
  | refl => exact .refl _
  | step hsteps hstep _ ih => exact ih.trans (Process.sameLayout_step (hsteps.inv hinv) hstep)

/-- A program in its address space, with the ranges of the allocator. -/
structure Execution where
  space : AddressSpace
  program : Program
  memory : List Block

namespace Execution

open Program (Event)

/-- The program that runs from `cuw3_create_allocator` on. -/
structure Start (system : System) (space : AddressSpace) (allocSize : Nat) (x : Execution) :
    Prop where
  created : ∃ contents result,
    cuw3CreateAllocator system space contents allocSize = .ok (result, x.space) ∧
      x.program = ⟨result.map fun created => created.2.api, []⟩ ∧
      x.memory = result.elim [] fun created => created.2.ranges created.1 allocSize

/-- A call that returns, or a change of the rights of memory of chunks, which functions of the
allocator make. -/
inductive Step (system : System) (tlaSize : Nat) : Execution → Option Event → Execution → Prop
  | absent {space : AddressSpace} {p p' : Program} {memory : List Block} {e : Event}
      (hprocess : p.process = none) (hstep : Program.Step p e p') :
      Step system tlaSize ⟨space, p, memory⟩ (some e) ⟨space, p', memory⟩
  | alloc {space : AddressSpace} {api : Api} {live : List Allocation} {memory : List Block}
      {commitOk : Bool} {thread size alignment ptr : Nat} {runtime : Runtime}
      (hsize : size + alignment - 1 < 2 ^ 64)
      (hok : Runtime.alloc system tlaSize ⟨space, api⟩ commitOk thread size alignment =
        .ok (ptr, runtime)) :
      Step system tlaSize ⟨space, ⟨some api, live⟩, memory⟩
        (some (.alloc thread size alignment ptr))
        ⟨runtime.space, ⟨some runtime.api, Program.liveAfter live size ptr⟩, memory⟩
  | free {space : AddressSpace} {api : Api} {live : List Allocation} {memory : List Block}
      {fuel thread ptr size : Nat} {runtime : Runtime} (hl : ⟨ptr, max size 1⟩ ∈ live)
      (hok : Runtime.free system tlaSize ⟨space, api⟩ fuel thread ptr size = .ok (some runtime)) :
      Step system tlaSize ⟨space, ⟨some api, live⟩, memory⟩ (some (.free thread ptr size))
        ⟨runtime.space, ⟨some runtime.api, live.erase ⟨ptr, max size 1⟩⟩, memory⟩
  | reclaim {space : AddressSpace} {api : Api} {live : List Allocation} {memory : List Block}
      {fuel thread : Nat} {runtime : Runtime}
      (hok : Runtime.reclaim system tlaSize ⟨space, api⟩ fuel thread = .ok (some runtime)) :
      Step system tlaSize ⟨space, ⟨some api, live⟩, memory⟩ (some (.reclaim thread))
        ⟨runtime.space, ⟨some runtime.api, live⟩, memory⟩
  | cleanup {space : AddressSpace} {api : Api} {live : List Allocation} {memory : List Block}
      {fuel thread : Nat} {runtime : Runtime}
      (hok : Runtime.cleanup system tlaSize ⟨space, api⟩ fuel thread = .ok (some runtime)) :
      Step system tlaSize ⟨space, ⟨some api, live⟩, memory⟩ (some (.cleanup thread))
        ⟨runtime.space, ⟨some runtime.api, live⟩, memory⟩
  | exit {space : AddressSpace} {api : Api} {live : List Allocation} {memory : List Block}
      {fuel thread : Nat} {runtime : Runtime}
      (hok : Runtime.exitThread system tlaSize ⟨space, api⟩ fuel thread = .ok (some runtime)) :
      Step system tlaSize ⟨space, ⟨some api, live⟩, memory⟩ (some (.exit thread))
        ⟨runtime.space, ⟨some runtime.api, live⟩, memory⟩
  | protect {space : AddressSpace} {api : Api} {live : List Allocation} {memory : List Block}
      {mem size : Nat} {protection : Protection} (hle : api.allocator.rca.regions ≤ mem)
      (hend : mem + size ≤
        api.allocator.rca.regions + api.allocator.rca.specs.totalRegionsSize) :
      Step system tlaSize ⟨space, ⟨some api, live⟩, memory⟩ none
        ⟨(system.mprotect space mem size protection).2, ⟨some api, live⟩, memory⟩

/-- The programs that use the library on a system, from an address space on. -/
def machine (system : System) (space : AddressSpace) (allocSize tlaSize : Nat) :
    TransitionSystem Execution (Option Event) :=
  ⟨Start system space allocSize, Step system tlaSize⟩

/-- The ranges of the library. -/
def ranges (x : Execution) (tlaSize : Nat) : List Block :=
  (x.program.process.elim [] fun api => api.tlas.map fun tla => ⟨tla, tlaSize⟩) ++ x.memory

/-- The ranges of the library are mapped, and the regions are among them. -/
structure Sound (system : System) (tlaSize : Nat) (base : Nat → Option Protection)
    (x : Execution) : Prop where
  program : Program.Sound vmemHugePageSize x.program
  mapped : Mapped system base ⟨x.space, x.ranges tlaSize⟩
  regions : ∀ api ∈ x.program.process, (⟨api.allocator.rca.regions,
    api.allocator.rca.specs.totalRegionsSize⟩ : Block) ∈ x.memory

variable {system : System} {limit allocSize tlaSize : Nat} {base : Nat → Option Protection}
  {space : AddressSpace} {x x' : Execution} {es : List (Option Event)}

theorem maps_of_api {api : Api} {live : List Allocation} {tlaMem : Nat} (h : api.Maps tlaMem) :
    Program.Maps ⟨some api, live⟩ tlaMem := by
  intro api' hapi
  rwa [← Option.mem_some_iff.mp hapi]

theorem exported_of {api api' : Api} {function : Api → Checked (Option Api)}
    (h : function api = .ok (some api')) :
    exported (some api) function = .ok (some (some api')) := by
  unfold exported
  dsimp only
  rw [h]
  rfl

theorem Sound.holds {api : Api} {live : List Allocation} {memory : List Block}
    (h : Sound system tlaSize base ⟨space, ⟨some api, live⟩, memory⟩) :
    Runtime.Holds system tlaSize base memory ⟨space, api⟩ := h.mapped

theorem Sound.graves {api : Api} (h : Sound system tlaSize base x)
    (hapi : api ∈ x.program.process) : Runtime.Graves api := by
  obtain ⟨live, foreign, -, hruns⟩ := h.program api hapi
  exact ⟨hruns.reach.inv.positive, hruns.reach.inv.dead⟩

/-- A call is a step of the program, for an address that is new. -/
theorem Sound.call (h : Sound system tlaSize base x) (hhosts : Runtime.Hosts system limit tlaSize)
    {e : Event} (hstep : Step system tlaSize x (some e) x') :
    Program.Step x.program e x'.program ∧ Mapped system base ⟨x'.space, x'.ranges tlaSize⟩ := by
  cases hstep with
  | @absent space p p' memory _ hprocess hstep =>
    refine ⟨hstep, ?_⟩
    have hmapped := h.mapped
    unfold ranges at hmapped ⊢
    rw [(hstep.absent hprocess).1]
    rwa [hprocess] at hmapped
  | @alloc _ api live _ commitOk thread size alignment ptr runtime hsize hok =>
    obtain ⟨⟨tlaMem, hmaps, halloc⟩, hholds⟩ :=
      Runtime.alloc_spec h.holds hhosts (h.graves rfl) hok
    have hcall : cuw3Alloc (some api) commitOk thread tlaMem size alignment =
        .ok (ptr, some runtime.api) := by
      unfold cuw3Alloc
      dsimp only
      rw [halloc]
      rfl
    exact ⟨.alloc (maps_of_api hmaps) hsize hcall, hholds⟩
  | free hl hok =>
    obtain ⟨⟨tlaMem, hmaps, hfree⟩, hholds⟩ :=
      Runtime.free_spec h.holds hhosts (h.graves rfl) hok
    exact ⟨.free (maps_of_api hmaps) hl (exported_of hfree), hholds⟩
  | reclaim hok =>
    obtain ⟨⟨tlaMem, hmaps, hreclaim⟩, hholds⟩ :=
      Runtime.reclaim_spec h.holds hhosts (h.graves rfl) hok
    exact ⟨.reclaim (maps_of_api hmaps) (exported_of hreclaim), hholds⟩
  | cleanup hok =>
    obtain ⟨⟨tlaMem, hmaps, hcleanup⟩, hholds⟩ :=
      Runtime.cleanup_spec h.holds hhosts (h.graves rfl) hok
    exact ⟨.cleanup (maps_of_api hmaps) (exported_of hcleanup), hholds⟩
  | exit hok =>
    obtain ⟨live, foreign, -, hruns⟩ := h.program _ rfl
    obtain ⟨hexit, hholds⟩ := Runtime.exitThread_spec h.holds hhosts.toSound
      (fun tla hguard hpos => (hruns.guards.running hguard hpos).1) hok
    exact ⟨.exit (exported_of hexit), hholds⟩

/-- The regions are where they were. -/
theorem Sound.same_regions (h : Sound system tlaSize base x) {e : Event}
    (hstep : Program.Step x.program e x'.program) (hmemory : x'.memory = x.memory) :
    ∀ api' ∈ x'.program.process, (⟨api'.allocator.rca.regions,
      api'.allocator.rca.specs.totalRegionsSize⟩ : Block) ∈ x'.memory := by
  intro api' hapi'
  cases hprocess : x.program.process with
  | none =>
    rw [(hstep.absent hprocess).1] at hapi'
    exact absurd hapi' (Option.not_mem_none _)
  | some api =>
    obtain ⟨live, foreign, hsub, hruns⟩ := h.program api (Option.mem_def.mpr hprocess)
    obtain ⟨api₁, live', foreign', hprocess', hcalls, -⟩ :=
      hstep.follows hprocess hruns.guards hruns.reach.inv hsub.subset
    rw [hprocess'] at hapi'
    obtain rfl := Option.mem_some_iff.mp hapi'
    have hsame : api.allocator.rca.SameLayout api₁.allocator.rca :=
      hcalls.steps.sameLayout hruns.reach.inv
    rw [hsame.regions, hsame.specs, hmemory]
    exact h.regions api (Option.mem_def.mpr hprocess)

/-- The executions are followed by programs that know nothing of the address space. -/
theorem simulation (hhosts : Runtime.Hosts system limit tlaSize) (hsize : 1 ≤ allocSize)
    (space : AddressSpace) :
    TransitionSystem.Simulation (machine system space allocSize tlaSize)
      (Program.machine vmemHugePageSize) id
      fun x p => p = x.program ∧ Sound system tlaSize space.pages x where
  init {x} h := by
    obtain ⟨contents, result, hcreate, hprogram, hmemory⟩ := h.created
    obtain ⟨result', space', hcreate', hcases⟩ := NewAllocator.cuw3CreateAllocator_cases
      hhosts.toUserSpace hhosts.limit_lt hsize space contents
    obtain ⟨rfl, rfl⟩ := Prod.mk.inj (Except.ok.inj (hcreate'.symm.trans hcreate))
    have hstart : Program.Start vmemHugePageSize x.program ∧
        Mapped system space.pages ⟨x.space, x.ranges tlaSize⟩ ∧
        ∀ api ∈ x.program.process, (⟨api.allocator.rca.regions,
          api.allocator.rca.specs.totalRegionsSize⟩ : Block) ∈ x.memory := by
      unfold ranges
      rw [hprogram, hmemory]
      rcases hcases with ⟨rfl, hpages, -⟩ | ⟨allocMem, new, rfl, hmade, hstart, hmapped, -⟩
      · refine ⟨⟨rfl, fun api hapi => absurd hapi (Option.not_mem_none _)⟩, ⟨?_, ?_⟩, ?_⟩
        · rw [hpages]
          exact .nil _
        · exact fun b hb => absurd hb List.not_mem_nil
        · exact fun api hapi => absurd hapi (Option.not_mem_none _)
      · refine ⟨hstart, hmapped, fun api hapi => ?_⟩
        obtain rfl := Option.mem_some_iff.mp hapi
        have hregions : new.api.allocator.rca.regions = new.bundle.regions := hmade.regions
        rw [hregions]
        exact List.mem_cons_self
    obtain ⟨hprogram', hmapped, hregions⟩ := hstart
    exact ⟨x.program, hprogram', rfl, (Program.invariant vmemHugePageSize).init hprogram', hmapped,
      hregions⟩
  follow {x l x' p e} h hstep hlabel := by
    obtain ⟨rfl, h⟩ := h
    obtain rfl : l = some e := hlabel
    obtain ⟨hcall, hmapped⟩ := h.call hhosts hstep
    refine ⟨_, hcall, rfl, (Program.invariant vmemHugePageSize).step h.program hcall, hmapped, ?_⟩
    apply h.same_regions hcall
    cases hstep <;> rfl
  wait {x l x' p} h hstep hlabel := by
    obtain ⟨rfl, h⟩ := h
    obtain rfl : l = none := hlabel
    cases hstep with
    | protect hle hend =>
      have hmem := h.regions _ rfl
      refine ⟨rfl, h.program, ?_, h.regions⟩
      exact h.mapped.protect hhosts.toSound (List.mem_append_right _ hmem) hle hend

/-- **The library maps what it needs, and nothing else.**  In every state that calls of the exported
functions and exits of threads lead to, the mapped pages are those that were mapped before, those of
the allocator and those of the thread-local allocators that exist; and what threads see is what a
store of blocks shows. -/
theorem reaches_space (hhosts : Runtime.Hosts system limit tlaSize) (hsize : 1 ≤ allocSize)
    (h : (machine system space allocSize tlaSize).Reaches es x) :
    Mapped system space.pages ⟨x.space, x.ranges tlaSize⟩ ∧
    (Program.machine vmemHugePageSize).Reaches (es.filterMap id) x.program ∧
    (BlockStore.machine (2 ^ 64)).Reaches ((es.filterMap id).filterMap Event.label)
      (x.program.live.map Allocation.block) := by
  obtain ⟨_, hprogram, rfl, hsound⟩ := (simulation hhosts hsize space).reaches h
  exact ⟨hsound.mapped, hprogram, Program.reaches_store hprogram⟩

/-! ### A run -/

theorem oneGiB_hosts : Runtime.Hosts oneGiB (2 ^ 41) 4096 where
  toUserSpace := oneGiB_userSpace
  limit_lt := by decide
  tla_pos := by decide
  tla_fits := by decide

/-- A thread of a new process allocates 16 bytes at 16. -/
theorem exists_alloc : ∃ result space allocMem new ptr runtime, ptr ≠ 0 ∧
    cuw3CreateAllocator oneGiB ⟨fun _ => none, []⟩ sampleContents 4096 = .ok (result, space) ∧
    result = some (allocMem, new) ∧
    Runtime.alloc oneGiB 4096 ⟨space, new.api⟩ true 1 16 16 = .ok (ptr, runtime) := by
  have hrun : (cuw3CreateAllocator oneGiB ⟨fun _ => none, []⟩ sampleContents 4096).toOption.bind
      (fun created => created.1.bind fun new =>
        (Runtime.alloc oneGiB 4096 ⟨created.2, new.2.api⟩ true 1 16 16).toOption.map fun returned =>
          decide (returned.1 ≠ 0)) = some true := by
    decide +kernel
  obtain ⟨⟨result, space⟩, hcreate, hrun⟩ := Option.bind_eq_some_iff.mp hrun
  obtain ⟨⟨allocMem, new⟩, rfl, hrun⟩ := Option.bind_eq_some_iff.mp hrun
  obtain ⟨⟨ptr, runtime⟩, halloc, hptr⟩ := Option.map_eq_some_iff.mp hrun
  exact ⟨_, space, allocMem, new, ptr, runtime, of_decide_eq_true hptr,
    Process.toOption_eq_some.mp hcreate, rfl, Process.toOption_eq_some.mp halloc⟩

theorem reaches_space_oneGiB : ∃ x ptr, ptr ≠ 0 ∧
    (machine oneGiB ⟨fun _ => none, []⟩ 4096 4096).Reaches [some (.alloc 1 16 16 ptr)] x ∧
    Mapped oneGiB (fun _ => none) ⟨x.space, x.ranges 4096⟩ := by
  obtain ⟨result, space, allocMem, new, ptr, runtime, hptr, hcreate, rfl, halloc⟩ := exists_alloc
  have hstart : Start oneGiB ⟨fun _ => none, []⟩ 4096
      ⟨space, ⟨some new.api, []⟩, new.ranges allocMem 4096⟩ :=
    ⟨sampleContents, _, hcreate, rfl, rfl⟩
  have hreach : (machine oneGiB ⟨fun _ => none, []⟩ 4096 4096).Reaches
      [some (.alloc 1 16 16 ptr)] _ :=
    ⟨_, hstart, .cons (.alloc (by decide) halloc) (.nil _)⟩
  exact ⟨_, ptr, hptr, hreach, (reaches_space oneGiB_hosts (by decide) hreach).1⟩

end Execution

end Cuw3
