/-
  The exported functions as a store of blocks.

  A call runs operations of the process one after the other (`Process.Steps`), and afterwards each
  thread-local allocator that exists is in the guard of one thread or in the graveyard
  (`Api.Guards`).  So what threads see that call the exported functions, start and exit in any order
  is what a store of blocks shows (`Program.reaches_store`): a block that `cuw3_alloc` returns is
  aligned and apart from all blocks that were returned and not given back.
-/
import Cuw3.Lib.BlockStore
import Cuw3.Allocator.Api
import Cuw3.Allocator.Equiv.Answers

namespace Cuw3

open Lib

/-! ### Operations one after the other -/

namespace Process

variable {p p' p'' : Process} {meets meets' : Process → Action → Prop} {vmemHugePageSize : Nat}

/-- Operations that are as `meets` says lead from one state to the other. -/
inductive Steps (meets : Process → Action → Prop) : Process → Process → Prop
  | refl (p : Process) : Steps meets p p
  | step {p p' p'' : Process} {a : Action} (h : Steps meets p p') (hstep : Step p' a p'')
      (hmeets : meets p' a) : Steps meets p p''

theorem Steps.single {a : Action} (hstep : Step p a p') (hmeets : meets p a) : Steps meets p p' :=
  (Steps.refl p).step hstep hmeets

theorem Steps.trans (h : Steps meets p p') (h' : Steps meets p' p'') : Steps meets p p'' := by
  induction h' with
  | refl => exact h
  | step _ hstep hmeets ih => exact ih.step hstep hmeets

theorem Steps.inv (h : Steps meets p p') (hinv : p.Inv) : p'.Inv := by
  induction h with
  | refl => exact hinv
  | step _ hstep _ ih => exact ih.step hstep

/-- The layout of the chunks is the one of the configuration. -/
def LaidOut (vmemHugePageSize : Nat) (p : Process) : Prop :=
  p.alloc.rca.ConfiguredBy (cuw3CreateRcaAllocSpecsConfig vmemHugePageSize)

theorem LaidOut.congr (h : LaidOut vmemHugePageSize p)
    (hsame : p.alloc.rca.SameLayout p'.alloc.rca) : LaidOut vmemHugePageSize p' := by
  have hspecs := hsame.specs
  constructor
  · rw [hspecs]
    exact h.specs
  · rw [hspecs, hsame.regions]
    exact h.regions
  · rw [hspecs, hsame.handles]
    exact h.handles

/-- Operations from a configured process. -/
theorem Reachable.steps (hreach : Reachable (Configured vmemHugePageSize) p)
    (hlayout : LaidOut vmemHugePageSize p) (h : Steps (StartsWith cuw3CreateTlaConfig) p p') :
    Reachable (Configured vmemHugePageSize) p' ∧ LaidOut vmemHugePageSize p' := by
  induction h with
  | refl => exact ⟨hreach, hlayout⟩
  | step _ hstep hmeets ih =>
    exact ⟨ih.1.step ⟨ih.2, hmeets⟩ hstep, ih.2.congr (sameLayout_step ih.1.inv hstep)⟩

end Process

/-- A live allocation has an owner. -/
theorem Allocator.Inv.exists_owner {threads : List Nat} {w : Allocator.World}
    (h : Allocator.Inv threads w) {l : Allocation} (hl : l ∈ w.live) :
    ∃ owner, w.alloc.ownerOf l.memory = .ok owner := by
  obtain ⟨t, -, type, p, -, -, harena, howner, -⟩ := h.arena hl
  refine ⟨t, ?_⟩
  simp only [Allocator.ownerOf, harena, ok_bind, howner]
  rfl

/-! ### Guards -/

namespace Api

open Process (Step Steps StartsWith)

variable {api api' : Api} {live : List Allocation} {foreign : Bool} {thread tla tlaMem fuel : Nat}

/-- The process between two calls: a clean-up destroys what it released. -/
def process (api : Api) (live : List Allocation) (foreign : Bool) : Process :=
  { alloc := api.allocator, tlas := api.tlas, released := [], live, foreign }

/-- The dead thread-local allocators. -/
def dead (api : Api) : List Nat := api.allocator.tlaGraveyard.deadQueue

/-- Each thread-local allocator that exists is in the guard of one thread or in the graveyard. -/
structure Guards (api : Api) : Prop where
  running : ∀ {thread tla}, api.guards thread = some tla → tla ≠ 0 → tla ∈ api.tlas ∧ tla ∉ api.dead
  unique : ∀ {thread thread' tla}, api.guards thread = some tla → api.guards thread' = some tla →
    tla ≠ 0 → thread = thread'
  placed : ∀ tla ∈ api.tlas, tla ∈ api.dead ∨ ∃ thread, api.guards thread = some tla

/-- What `vmem_alloc_aligned` may answer for a new thread-local allocator: null, or aligned memory
that is not in use. -/
structure Maps (api : Api) (tlaMem : Nat) : Prop where
  new : tlaMem ∉ api.tlas
  aligned : regionOwnerAlignment ∣ tlaMem
  below : tlaMem < 2 ^ 64

theorem Guards.runs (h : api.Guards) (live : List Allocation) (foreign : Bool)
    (hguard : api.guards thread = some tla) (htla : tla ≠ 0) :
    (api.process live foreign).Running tla :=
  ⟨(h.running hguard htla).1, (h.running hguard htla).2, List.not_mem_nil⟩

/-- The guards, the graveyard and the thread-local allocators did not change. -/
theorem Guards.congr (h : api.Guards) (hguards : api'.guards = api.guards)
    (htlas : api'.tlas = api.tlas) (hdead : api'.dead = api.dead) : api'.Guards := by
  constructor
  · intro thread tla
    rw [hguards, htlas, hdead]
    exact h.running
  · intro thread thread' tla
    rw [hguards]
    exact h.unique
  · rw [hguards, htlas, hdead]
    exact h.placed

/-- A thread got the guard for a thread-local allocator that no other thread has. -/
theorem Guards.guard (h : api.Guards) (hnone : api.guards thread = none)
    (hguards : api'.guards = Function.update api.guards thread (some tla))
    (hrunning : tla ≠ 0 → tla ∈ api'.tlas ∧ tla ∉ api'.dead)
    (hfree : tla ≠ 0 → ∀ thread', api.guards thread' ≠ some tla)
    (hothers : ∀ u ≠ tla, (u ∈ api'.tlas ↔ u ∈ api.tlas) ∧ (u ∈ api'.dead ↔ u ∈ api.dead)) :
    api'.Guards := by
  have hself : api'.guards thread = some tla := by
    rw [hguards]
    exact Function.update_self ..
  have hne : ∀ thread' ≠ thread, api'.guards thread' = api.guards thread' := by
    intro thread' hne
    rw [hguards]
    exact Function.update_of_ne hne ..
  have hold : ∀ {thread' u}, thread' ≠ thread → api'.guards thread' = some u → u ≠ 0 → u ≠ tla := by
    rintro thread' u hthread hu hpos rfl
    rw [hne thread' hthread] at hu
    exact hfree hpos thread' hu
  constructor
  · intro thread' u hu hpos
    by_cases hthread : thread' = thread
    · subst hthread
      obtain rfl : u = tla := Option.some.inj (hu.symm.trans hself)
      exact hrunning hpos
    · obtain ⟨htlas, hdead⟩ := hothers u (hold hthread hu hpos)
      rw [htlas, hdead]
      rw [hne thread' hthread] at hu
      exact h.running hu hpos
  · intro thread₁ thread₂ u hu hu' hpos
    by_cases h₁ : thread₁ = thread
    · by_cases h₂ : thread₂ = thread
      · exact h₁.trans h₂.symm
      · subst h₁
        exact absurd (Option.some.inj (hu.symm.trans hself)) (hold h₂ hu' hpos)
    · by_cases h₂ : thread₂ = thread
      · subst h₂
        exact absurd (Option.some.inj (hu'.symm.trans hself)) (hold h₁ hu hpos)
      · rw [hne _ h₁] at hu
        rw [hne _ h₂] at hu'
        exact h.unique hu hu' hpos
  · intro u hu
    by_cases htla : u = tla
    · subst htla
      exact .inr ⟨thread, hself⟩
    · obtain ⟨htlas, hdead⟩ := hothers u htla
      rw [hdead]
      refine (h.placed u (htlas.mp hu)).imp_right fun ⟨thread', hthread'⟩ => ⟨thread', ?_⟩
      rw [hne thread' (ne_of_apply_ne api.guards (by simp [hthread', hnone]))]
      exact hthread'

/-- A thread-local allocator that is in no guard does not exist any more. -/
theorem Guards.destroy (h : api.Guards) (hguards : api'.guards = api.guards)
    (htlas : api'.tlas = api.tlas.erase tla) (hnodup : api.tlas.Nodup)
    (hfree : tla ≠ 0 → ∀ thread, api.guards thread ≠ some tla)
    (hdead : ∀ u ≠ tla, u ∈ api'.dead ↔ u ∈ api.dead) : api'.Guards := by
  have hmem : ∀ {u}, u ∈ api'.tlas ↔ u ≠ tla ∧ u ∈ api.tlas := by
    intro u
    rw [htlas]
    exact hnodup.mem_erase_iff
  constructor
  · intro thread u hu hpos
    rw [hguards] at hu
    have hne : u ≠ tla := by
      rintro rfl
      exact hfree hpos thread hu
    rw [hmem, hdead u hne]
    exact ⟨⟨hne, (h.running hu hpos).1⟩, (h.running hu hpos).2⟩
  · intro thread thread' u
    rw [hguards]
    exact h.unique
  · intro u hu
    obtain ⟨hne, hu⟩ := hmem.mp hu
    rw [hdead u hne, hguards]
    exact h.placed u hu

/-- A thread gave its thread-local allocator to the graveyard, or destroyed it. -/
theorem Guards.leave (h : api.Guards) (hguard : api.guards thread = some tla)
    (hguards : api'.guards = Function.update api.guards thread (some 0)) (htla : tla ≠ 0)
    (hself : tla ∈ api'.tlas → tla ∈ api'.dead)
    (hothers : ∀ u ≠ tla, (u ∈ api'.tlas ↔ u ∈ api.tlas) ∧ (u ∈ api'.dead ↔ u ∈ api.dead)) :
    api'.Guards := by
  -- the guards that still hold one are those of other threads
  have hother : ∀ {thread' u}, api'.guards thread' = some u → u ≠ 0 →
      thread' ≠ thread ∧ api.guards thread' = some u := by
    intro thread' u hu hpos
    by_cases hthread : thread' = thread
    · rw [hguards, hthread, Function.update_self] at hu
      exact absurd (Option.some.inj hu).symm hpos
    · rw [hguards, Function.update_of_ne hthread] at hu
      exact ⟨hthread, hu⟩
  constructor
  · intro thread' u hu hpos
    obtain ⟨hthread, hu⟩ := hother hu hpos
    have hne : u ≠ tla := by
      rintro rfl
      exact hthread (h.unique hu hguard hpos)
    rw [(hothers u hne).1, (hothers u hne).2]
    exact h.running hu hpos
  · intro thread₁ thread₂ u hu hu' hpos
    exact h.unique (hother hu hpos).2 (hother hu' hpos).2 hpos
  · intro u hu
    by_cases hne : u = tla
    · subst hne
      exact .inl (hself hu)
    · obtain ⟨htlas, hdead⟩ := hothers u hne
      rw [hdead]
      refine (h.placed u (htlas.mp hu)).imp_right fun ⟨thread', hthread'⟩ => ⟨thread', ?_⟩
      rw [hguards, Function.update_of_ne]
      · exact hthread'
      · rintro rfl
        exact hne (Option.some.inj (hthread'.symm.trans hguard))

/-! ### What a call does -/

/-- Operations of the process, between two states in which each thread-local allocator has its
place. -/
structure Calls (api : Api) (live : List Allocation) (foreign : Bool) (api' : Api)
    (live' : List Allocation) (foreign' : Bool) : Prop where
  steps : Steps (StartsWith cuw3CreateTlaConfig) (api.process live foreign)
    (api'.process live' foreign')
  guards : api'.Guards

variable {api'' : Api} {live' live'' : List Allocation} {foreign' foreign'' : Bool}

theorem Calls.refl (h : api.Guards) : Calls api live foreign api live foreign := ⟨.refl _, h⟩

theorem Calls.trans (h : Calls api live foreign api' live' foreign')
    (h' : Calls api' live' foreign' api'' live'' foreign'') :
    Calls api live foreign api'' live'' foreign'' := ⟨h.steps.trans h'.steps, h'.guards⟩

theorem Calls.inv (h : Calls api live foreign api' live' foreign')
    (hinv : (api.process live foreign).Inv) : (api'.process live' foreign').Inv := h.steps.inv hinv

/-- `cuw3_get_tla`: afterwards the guard of the thread has the thread-local allocator. -/
theorem getTla_calls (h : api.Guards) (hinv : (api.process live foreign).Inv)
    (hmaps : api.Maps tlaMem) (hok : api.getTla thread tlaMem = .ok (tla, api')) :
    Calls api live foreign api' live foreign ∧ api'.guards thread = some tla := by
  unfold getTla at hok
  cases hguard : api.guards thread with
  | some tla' =>
    rw [hguard] at hok
    obtain ⟨rfl, rfl⟩ := Prod.mk.inj (Except.ok.inj hok)
    exact ⟨.refl h, hguard⟩
  | none =>
    simp only [hguard, createTla, bind_eq_ok, Prod.exists, pure_eq_ok, Prod.mk.injEq] at hok
    obtain ⟨tla', api₁, ⟨tla₁, allocator, hcreate, rfl, rfl⟩, rfl, rfl⟩ := hok
    have hcase : GraveAllocator.Starts api.allocator cuw3CreateTlaConfig tlaMem tla₁ allocator :=
      GraveAllocator.createTla_cases (fun d hd => (hinv.dead_pos d hd).2) hcreate
    have hstep := Step.start (p := api.process live foreign) hmaps.new hmaps.below rfl rfl hcreate
    refine ⟨⟨.single hstep ⟨rfl, hmaps.aligned⟩, ?_⟩, Function.update_self ..⟩
    cases hcase with
    | none =>
      refine h.guard hguard rfl (fun hne => absurd rfl hne) (fun hne => absurd rfl hne)
        fun u _ => ⟨?_, Iff.rfl⟩
      rw [if_pos (.inl rfl)]
    | @snatched _ rest _ hqueue hsame hqueue' =>
      -- the first of the graveyard, which was in no guard
      replace hqueue : api.dead = tla₁ :: rest := hqueue
      have hdead : tla₁ ∈ api.dead := by
        rw [hqueue]
        exact List.mem_cons_self
      have htlas : tla₁ ∈ api.tlas := hinv.dead tla₁ hdead
      have hnodup : (api.dead ++ []).Nodup := hinv.nodup
      rw [List.append_nil, hqueue] at hnodup
      refine h.guard hguard rfl (fun _ => ⟨?_, ?_⟩)
        (fun hpos thread' hthread' => (h.running hthread' hpos).2 hdead) fun u hu => ⟨?_, ?_⟩
      · rw [if_pos (.inr htlas)]
        exact htlas
      · show tla₁ ∉ allocator.tlaGraveyard.deadQueue
        rw [hqueue']
        exact (List.nodup_cons.mp hnodup).1
      · rw [if_pos (.inr htlas)]
      · show u ∈ allocator.tlaGraveyard.deadQueue ↔ u ∈ api.dead
        rw [hqueue', hqueue, List.mem_cons, or_iff_right hu]
    | @created _ _ hpos hcreates hnew hqueue =>
      have hif : (if tlaMem = 0 ∨ tlaMem ∈ api.tlas then api.tlas else tlaMem :: api.tlas) =
          tlaMem :: api.tlas := if_neg fun hor => hor.elim hpos.ne' hmaps.new
      refine h.guard hguard rfl (fun _ => ⟨?_, fun hin => ?_⟩)
        (fun hpos' thread' hthread' => hmaps.new (h.running hthread' hpos').1) fun u hu => ⟨?_, ?_⟩
      · rw [hif]
        exact List.mem_cons_self
      · replace hin : tlaMem ∈ allocator.tlaGraveyard.deadQueue := hin
        rw [hqueue] at hin
        exact hmaps.new (hinv.dead _ hin)
      · rw [hif, List.mem_cons, or_iff_right hu]
      · show u ∈ allocator.tlaGraveyard.deadQueue ↔ u ∈ api.dead
        rw [hqueue]
        rfl

/-- The end of `cuw3_free` and of `cuw3_cleanup`: what a clean-up released is destroyed. -/
theorem graveCleanup_calls (h : api.Guards) (hinv : (api.process live foreign).Inv)
    (hguard : api.guards thread = some tla) (htla : tla ≠ 0)
    (hok : api.graveCleanup fuel tla = .ok (some api')) :
    Calls api live foreign api' live foreign ∧ api'.guards = api.guards := by
  simp only [graveCleanup, bind_eq_ok] at hok
  obtain ⟨result, hcleans, hok⟩ := hok
  cases result with
  | none => cases hok
  | some result =>
    obtain ⟨released, allocator⟩ := result
    have hstep := Step.graveTlaCleanup (h.runs live foreign hguard htla)
      hcleans
    have hcase : GraveAllocator.Cleans api.allocator tla released allocator :=
      GraveAllocator.graveTlaCleanup_cases hinv.world hinv.dead_pos hcleans
    dsimp only at hok
    by_cases hzero : released = 0
    · subst hzero
      obtain rfl := Option.some.inj (Except.ok.inj hok)
      have hdead : allocator.tlaGraveyard = api.allocator.tlaGraveyard := by
        cases hcase with
        | none _ hqueue => exact hqueue
        | emptied hvisits =>
          exact absurd rfl (hinv.dead_pos 0 (GraveAllocator.mem_of_visits hvisits)).2.ne'
        | kept _ _ hqueue => exact hqueue
      refine ⟨⟨.single hstep trivial, h.congr rfl rfl ?_⟩, rfl⟩
      unfold dead
      rw [hdead]
    · simp only [if_neg hzero, destroyTla, bind_eq_ok, pure_eq_ok] at hok
      obtain ⟨_, ⟨destroyed, hdestroy, rfl⟩, hok⟩ := hok
      obtain rfl := Option.some.inj hok
      rw [if_neg hzero] at hstep
      have hmid : Process.Inv _ := hinv.step hstep
      have hlast := Step.destroyTla (p := { api.process live foreign with
        alloc := allocator, released := released :: [] }) List.mem_cons_self hdestroy
      rw [List.erase_cons_head] at hlast
      refine ⟨⟨(Steps.single hstep trivial).step hlast trivial, ?_⟩, rfl⟩
      have hqueue : destroyed.tlaGraveyard = allocator.tlaGraveyard := by
        simp only [GraveAllocator.destroyTla, bind_eq_ok, pure_eq_ok] at hdestroy
        obtain ⟨_, -, rfl⟩ := hdestroy
        rfl
      cases hcase with
      | none => exact absurd rfl hzero
      | kept => exact absurd rfl hzero
      | @emptied _ rest _ hvisits hqueue₀ hempty hfrees hqueue' =>
        have hdead : released ∈ api.dead := GraveAllocator.mem_of_visits hvisits
        refine h.destroy rfl rfl hinv.world.chunks.threads_nodup
          (fun hpos thread' hthread' => (h.running hthread' hpos).2 hdead) fun u hu => ?_
        unfold dead
        rw [hqueue, hqueue', hqueue₀, List.mem_cons, or_iff_right hu]

/-- The exit of a thread. -/
theorem exitThread_calls (h : api.Guards) (hinv : (api.process live foreign).Inv)
    (hok : api.exitThread fuel thread = .ok (some api')) :
    Calls api live foreign api' live foreign := by
  unfold exitThread at hok
  cases hguard : api.guards thread with
  | none =>
    rw [hguard] at hok
    obtain rfl := Option.some.inj (Except.ok.inj hok)
    exact .refl h
  | some tla =>
    simp only [hguard] at hok
    split_ifs at hok with htla
    · obtain rfl := Option.some.inj (Except.ok.inj hok)
      exact .refl h
    simp only [bind_eq_ok] at hok
    obtain ⟨result, hexit, hok⟩ := hok
    cases result with
    | none => cases hok
    | some result =>
      obtain ⟨destroyed, allocator⟩ := result
      obtain rfl := Option.some.inj (Except.ok.inj hok)
      have hruns := h.runs live foreign hguard htla
      have hcase : GraveAllocator.Exits api.allocator tla destroyed allocator :=
        GraveAllocator.exitThread_cases hinv.world hruns.mem hexit
      refine ⟨.single (.exit hruns hexit) trivial, ?_⟩
      cases hcase with
      | destroyed hempty hfrees hqueue =>
        have hnodup : api.tlas.Nodup := hinv.world.chunks.threads_nodup
        refine h.leave hguard rfl htla (fun hin => ?_) fun u hu => ⟨?_, ?_⟩
        · exact absurd rfl (hnodup.mem_erase_iff.mp hin).1
        · exact List.mem_erase_of_ne hu
        · show u ∈ allocator.tlaGraveyard.deadQueue ↔ u ∈ api.dead
          rw [hqueue]
          rfl
      | buried =>
        refine h.leave hguard rfl htla (fun _ => List.mem_cons_self) fun u hu => ⟨Iff.rfl, ?_⟩
        exact List.mem_cons.trans (or_iff_right hu)

end Api

/-! ### The exported functions -/

/-- The range of an allocation. -/
def Allocation.block (l : Allocation) : Block := ⟨l.memory, l.size⟩

theorem Allocation.block_injective : Function.Injective Allocation.block := by
  rintro ⟨m, s⟩ ⟨m', s'⟩ h
  obtain ⟨rfl, rfl⟩ := Block.mk.inj h
  rfl

namespace Api

open Allocator (liveAfter FreshBlock)
open Process (Step Steps StartsWith)

variable {api api' : Api} {live : List Allocation} {foreign : Bool} {thread tla tlaMem fuel : Nat}
  {ptr size alignment : Nat}

/-- A block of a chunk is one for a store of blocks. -/
theorem fresh_of_freshBlock {rca : RegionChunkAllocator} (hl : rca.Layout) (hm : rca.MappedHandles)
    (h : FreshBlock rca live ptr (max size 1) alignment) :
    BlockStore.Fresh (2 ^ 64) (live.map Allocation.block) (BlockStore.block ptr size)
      alignment := by
  obtain ⟨haligned, ⟨c, hc, hlo, hhi⟩, hdisjoint⟩ := h
  obtain ⟨hstart, hend⟩ := hc.block_bounds hl hm
  unfold RegionChunkAllocator.chunkBlock RegionChunkAllocatorSpecs.chunkSize at hstart hend
  dsimp only at hstart hend
  unfold BlockStore.block
  constructor
  · exact haligned
  · exact lt_of_lt_of_le hstart hlo
  · dsimp only
    omega
  · intro b hb x hx hx'
    obtain ⟨l, hl', rfl⟩ := List.mem_map.mp hb
    obtain ⟨hx₁, hx₂⟩ := hx
    obtain ⟨hx₃, hx₄⟩ := hx'
    unfold Allocation.block at hx₃ hx₄
    dsimp only at hx₁ hx₂ hx₃ hx₄
    rcases hdisjoint l hl' with hle | hle
    · omega
    · omega

/-- What `cuw3_alloc` returned: null, or a block for a store of blocks. -/
inductive Serves (live : List Allocation) (size alignment : Nat) : Nat → List Allocation → Prop
  | none : Serves live size alignment 0 live
  | some {ptr : Nat} (h : BlockStore.Fresh (2 ^ 64) (live.map Allocation.block)
      (BlockStore.block ptr size) alignment) :
      Serves live size alignment ptr (⟨ptr, max size 1⟩ :: live)

theorem alloc_calls (h : api.Guards) (hinv : (api.process live foreign).Inv)
    (hmaps : api.Maps tlaMem) {commitOk : Bool} (hsize : size + alignment - 1 < 2 ^ 64)
    (hok : api.alloc commitOk thread tlaMem size alignment = .ok (ptr, api')) :
    ∃ live', Calls api live foreign api' live' foreign ∧ Serves live size alignment ptr live' := by
  simp only [alloc, bind_eq_ok, Prod.exists] at hok
  obtain ⟨tla, api₁, hget, hok⟩ := hok
  obtain ⟨hcalls, hguard⟩ := getTla_calls h hinv hmaps hget
  split_ifs at hok with htla
  · obtain ⟨rfl, rfl⟩ := Prod.mk.inj (Except.ok.inj hok)
    exact ⟨live, hcalls, .none⟩
  simp only [bind_eq_ok, Prod.exists] at hok
  obtain ⟨res, allocator, hallocate, hok⟩ := hok
  have hinv₁ := hcalls.inv hinv
  have hruns := hcalls.guards.runs live foreign hguard htla
  obtain ⟨hinv', hfresh, -⟩ := hinv₁.world.allocate hruns.mem hsize hallocate
  have hcalls' : Calls api live foreign
      { api₁ with allocator := { api₁.allocator with toAllocator := allocator } }
      (liveAfter live size res) foreign :=
    hcalls.trans
      ⟨.single (.allocate hruns hsize hallocate) trivial,
        hcalls.guards.congr rfl rfl rfl⟩
  refine ⟨liveAfter live size res, ?_⟩
  cases res with
  | acquired m =>
    obtain ⟨rfl, rfl⟩ := Prod.mk.inj (Except.ok.inj hok)
    have hchunks := hinv₁.world.chunks
    exact ⟨hcalls',
      .some (fresh_of_freshBlock hchunks.pools.toLayout hchunks.mapped (hfresh m rfl))⟩
  | failed =>
    obtain ⟨rfl, rfl⟩ := Prod.mk.inj (Except.ok.inj hok)
    exact ⟨hcalls', .none⟩
  | noResource =>
    obtain ⟨rfl, rfl⟩ := Prod.mk.inj (Except.ok.inj hok)
    exact ⟨hcalls', .none⟩

/-- What `cuw3_free` did: it freed the allocation, unless the thread has no thread-local
allocator. -/
inductive Frees (api : Api) (live : List Allocation) (foreign : Bool) (thread ptr size : Nat) :
    List Allocation → Bool → Prop
  | freed {foreign' : Bool} (hown : ∀ tla, api.guards thread = some tla →
      api.allocator.ownerOf ptr = .ok tla → foreign' = foreign) :
      Frees api live foreign thread ptr size (live.erase ⟨ptr, max size 1⟩) foreign'
  | dropped (hguard : ∀ tla, api.guards thread = some tla → tla = 0) :
      Frees api live foreign thread ptr size live foreign

theorem getTla_of_guard (hguard : api.guards thread = some tla) :
    api.getTla thread tlaMem = .ok (tla, api) := by
  unfold getTla
  rw [hguard]
  rfl

theorem free_calls (h : api.Guards) (hinv : (api.process live foreign).Inv)
    (hmaps : api.Maps tlaMem) (hl : ⟨ptr, max size 1⟩ ∈ live)
    (hok : api.free fuel thread tlaMem ptr size = .ok (some api')) :
    ∃ live' foreign', Calls api live foreign api' live' foreign' ∧
      Frees api live foreign thread ptr size live' foreign' := by
  simp only [free, bind_eq_ok, Prod.exists] at hok
  obtain ⟨tla, api₁, hget, hok⟩ := hok
  obtain ⟨hcalls, hguard⟩ := getTla_calls h hinv hmaps hget
  -- a guard that was there was not changed
  have hsame : ∀ u, api.guards thread = some u → u = tla ∧ api₁ = api := by
    intro u hu
    obtain ⟨rfl, rfl⟩ := Prod.mk.inj (Except.ok.inj ((getTla_of_guard hu).symm.trans hget))
    exact ⟨rfl, rfl⟩
  split_ifs at hok with htla
  · obtain rfl := Option.some.inj (Except.ok.inj hok)
    exact ⟨live, foreign, hcalls, .dropped fun u hu => (hsame u hu).1.trans htla⟩
  simp only [bind_eq_ok] at hok
  obtain ⟨allocator, hdeallocate, result, hthis, hok⟩ := hok
  have hinv₁ := hcalls.inv hinv
  have hruns := hcalls.guards.runs live foreign hguard htla
  obtain ⟨owner, howner⟩ := hinv₁.world.exists_owner hl
  -- `deallocate`
  have hfreed : Calls api live foreign
      { api₁ with allocator := { api₁.allocator with toAllocator := allocator } }
      (live.erase ⟨ptr, max size 1⟩) (foreign || owner != tla) :=
    hcalls.trans ⟨.single (.deallocate hruns hl howner hdeallocate) trivial,
      hcalls.guards.congr rfl rfl rfl⟩
  cases result with
  | none => cases hok
  | some result =>
    obtain ⟨g, allocator'⟩ := result
    -- `this_tla_cleanup`
    have hruns' := hfreed.guards.runs (live.erase ⟨ptr, max size 1⟩) (foreign || owner != tla)
      hguard htla
    have hinv' := hfreed.inv hinv
    have hqueue := (GraveAllocator.thisTlaCleanup_same hinv'.world hruns'.mem hthis).2
    have hcleaned : Calls api live foreign { api₁ with allocator := allocator' }
        (live.erase ⟨ptr, max size 1⟩) (foreign || owner != tla) := by
      refine hfreed.trans ⟨.single (.thisTlaCleanup hruns' hthis) trivial,
        hfreed.guards.congr rfl rfl ?_⟩
      unfold dead
      rw [hqueue]
      rfl
    -- `grave_tla_cleanup`
    obtain ⟨hcalls', -⟩ := graveCleanup_calls hcleaned.guards (hcleaned.inv hinv) hguard htla hok
    refine ⟨_, _, hcleaned.trans hcalls', .freed fun u hu hown => ?_⟩
    obtain ⟨rfl, rfl⟩ := hsame u hu
    obtain rfl : owner = u := Except.ok.inj (howner.symm.trans hown)
    simp

theorem reclaim_calls (h : api.Guards) (hinv : (api.process live foreign).Inv)
    (hmaps : api.Maps tlaMem) (hok : api.reclaim fuel thread tlaMem = .ok (some api')) :
    Calls api live foreign api' live foreign := by
  simp only [reclaim, bind_eq_ok, Prod.exists] at hok
  obtain ⟨tla, api₁, hget, hok⟩ := hok
  obtain ⟨hcalls, hguard⟩ := getTla_calls h hinv hmaps hget
  split_ifs at hok with htla
  · obtain rfl := Option.some.inj (Except.ok.inj hok)
    exact hcalls
  simp only [bind_eq_ok] at hok
  obtain ⟨result, hreclaim, hok⟩ := hok
  have hruns := hcalls.guards.runs live foreign hguard htla
  cases result with
  | none => cases hok
  | some result =>
    obtain ⟨empty, allocator⟩ := result
    obtain rfl := Option.some.inj (Except.ok.inj hok)
    exact hcalls.trans ⟨.single (.reclaim hruns hreclaim) trivial,
      hcalls.guards.congr rfl rfl rfl⟩

theorem cleanup_calls (h : api.Guards) (hinv : (api.process live foreign).Inv)
    (hmaps : api.Maps tlaMem) (hok : api.cleanup fuel thread tlaMem = .ok (some api')) :
    Calls api live foreign api' live foreign := by
  simp only [cleanup, bind_eq_ok, Prod.exists] at hok
  obtain ⟨tla, api₁, hget, hok⟩ := hok
  obtain ⟨hcalls, hguard⟩ := getTla_calls h hinv hmaps hget
  split_ifs at hok with htla
  · obtain rfl := Option.some.inj (Except.ok.inj hok)
    exact hcalls
  · obtain ⟨hcalls', -⟩ := graveCleanup_calls hcalls.guards (hcalls.inv hinv) hguard htla hok
    exact hcalls.trans hcalls'

end Api

/-! ### Programs -/

/-- A process, or none if its allocator could not be created, and the allocations that its threads
hold. -/
structure Program where
  process : Option Api
  live : List Allocation

namespace Program

open Process (Reachable Configured LaidOut Init)

/-- The calls of the exported functions with what they return, and the exits of threads. -/
inductive Event where
  | alloc (thread size alignment ptr : Nat)
  | free (thread ptr size : Nat)
  | reclaim (thread : Nat)
  | cleanup (thread : Nat)
  | exit (thread : Nat)

/-- What the event means for a store of blocks. -/
def Event.label : Event → Option BlockStore.Label
  | .alloc _ size alignment ptr => some (.alloc size alignment ptr)
  | .free _ ptr size => some (.free ptr size)
  | _ => none

/-- The allocations that the threads hold after a request. -/
def liveAfter (live : List Allocation) (size ptr : Nat) : List Allocation :=
  if ptr = 0 then live else ⟨ptr, max size 1⟩ :: live

/-- The memory that a new thread-local allocator may get. -/
def Maps (p : Program) (tlaMem : Nat) : Prop := ∀ api ∈ p.process, api.Maps tlaMem

/-- A call that returns.  Threads free what they hold, and ask for sizes whose rounding up does not
wrap. -/
inductive Step (p : Program) : Event → Program → Prop
  | alloc {commitOk : Bool} {thread tlaMem size alignment ptr : Nat} {process' : Option Api}
      (hmaps : p.Maps tlaMem) (hsize : size + alignment - 1 < 2 ^ 64)
      (hok : cuw3Alloc p.process commitOk thread tlaMem size alignment = .ok (ptr, process')) :
      Step p (.alloc thread size alignment ptr) ⟨process', liveAfter p.live size ptr⟩
  | free {fuel thread tlaMem ptr size : Nat} {process' : Option Api} (hmaps : p.Maps tlaMem)
      (hl : ⟨ptr, max size 1⟩ ∈ p.live)
      (hok : cuw3Free p.process fuel thread tlaMem ptr size = .ok (some process')) :
      Step p (.free thread ptr size) ⟨process', p.live.erase ⟨ptr, max size 1⟩⟩
  | reclaim {fuel thread tlaMem : Nat} {process' : Option Api} (hmaps : p.Maps tlaMem)
      (hok : cuw3Reclaim p.process fuel thread tlaMem = .ok (some process')) :
      Step p (.reclaim thread) ⟨process', p.live⟩
  | cleanup {fuel thread tlaMem : Nat} {process' : Option Api} (hmaps : p.Maps tlaMem)
      (hok : cuw3Cleanup p.process fuel thread tlaMem = .ok (some process')) :
      Step p (.cleanup thread) ⟨process', p.live⟩
  | exit {fuel thread : Nat} {process' : Option Api}
      (hok : exitGuard p.process fuel thread = .ok (some process')) :
      Step p (.exit thread) ⟨process', p.live⟩

/-- Before the first call there are no guards, and the allocator is new and configured as in
`cuw3.cpp`, if there is one. -/
structure Start (vmemHugePageSize : Nat) (p : Program) : Prop where
  live : p.live = []
  new : ∀ api ∈ p.process, Init (api.process [] false) ∧
    LaidOut vmemHugePageSize (api.process [] false) ∧ ∀ thread, api.guards thread = none

/-- The programs that use the exported functions, on a platform with huge pages of a size. -/
def machine (vmemHugePageSize : Nat) : TransitionSystem Program Event :=
  ⟨Start vmemHugePageSize, Step⟩

variable {p p' : Program} {vmemHugePageSize : Nat} {api : Api} {live : List Allocation}
  {foreign : Bool} {es : List Event}

/-- The process is in a state that operations reach, with the allocations `live`. -/
structure Runs (vmemHugePageSize : Nat) (api : Api) (live : List Allocation) (foreign : Bool) :
    Prop where
  reach : Reachable (Configured vmemHugePageSize) (api.process live foreign)
  layout : LaidOut vmemHugePageSize (api.process live foreign)
  guards : api.Guards

theorem Runs.calls (h : Runs vmemHugePageSize api live foreign) {api' : Api}
    {live' : List Allocation} {foreign' : Bool}
    (hcalls : Api.Calls api live foreign api' live' foreign') :
    Runs vmemHugePageSize api' live' foreign' := by
  obtain ⟨hreach, hlayout⟩ := h.reach.steps h.layout hcalls.steps
  exact ⟨hreach, hlayout, hcalls.guards⟩

/-- Between calls, the process has all the allocations that the threads hold, and those that a
thread without thread-local allocator freed in vain. -/
def Sound (vmemHugePageSize : Nat) (p : Program) : Prop :=
  ∀ api ∈ p.process, ∃ live foreign, p.live.Subperm live ∧ Runs vmemHugePageSize api live foreign

/-- What a call did to the allocations of the process. -/
def Follows (api : Api) (live : List Allocation) (foreign : Bool) :
    Event → List Allocation → Bool → Prop
  | .alloc _ size alignment ptr, live', foreign' =>
    Api.Serves live size alignment ptr live' ∧ foreign' = foreign
  | .free thread ptr size, live', foreign' =>
    api.Frees live foreign thread ptr size live' foreign'
  | _, live', foreign' => live' = live ∧ foreign' = foreign

theorem exported_eq_ok {function : Api → Checked (Option Api)} {process' : Option Api}
    (hok : exported (some api) function = .ok (some process')) :
    ∃ api', function api = .ok (some api') ∧ process' = some api' := by
  simp only [exported, bind_eq_ok] at hok
  obtain ⟨result, hfunction, hok⟩ := hok
  cases result with
  | none => cases hok
  | some api' => exact ⟨api', hfunction, (Option.some.inj (Except.ok.inj hok)).symm⟩

/-- What a call did to a process. -/
theorem Step.follows {e : Event} (h : Step p e p') (hprocess : p.process = some api)
    (hguards : api.Guards) (hinv : (api.process live foreign).Inv) (hsub : p.live ⊆ live) :
    ∃ api' live' foreign', p'.process = some api' ∧ api.Calls live foreign api' live' foreign' ∧
      Follows api live foreign e live' foreign' := by
  have hmaps' : ∀ {tlaMem}, p.Maps tlaMem → api.Maps tlaMem :=
    fun hmaps => hmaps api (Option.mem_def.mpr hprocess)
  cases h with
  | alloc hmaps hsize hok =>
    simp only [hprocess, cuw3Alloc, bind_eq_ok, Prod.exists] at hok
    obtain ⟨ptr, api', halloc, hok⟩ := hok
    obtain ⟨rfl, rfl⟩ := Prod.mk.inj (Except.ok.inj hok)
    obtain ⟨live', hcalls, hserves⟩ := Api.alloc_calls hguards hinv (hmaps' hmaps) hsize halloc
    exact ⟨api', live', foreign, rfl, hcalls, hserves, rfl⟩
  | free hmaps hl hok =>
    rw [hprocess] at hok
    obtain ⟨api', hfree, rfl⟩ := exported_eq_ok hok
    obtain ⟨live', foreign', hcalls, hfrees⟩ :=
      Api.free_calls hguards hinv (hmaps' hmaps) (hsub hl) hfree
    exact ⟨api', live', foreign', rfl, hcalls, hfrees⟩
  | reclaim hmaps hok =>
    rw [hprocess] at hok
    obtain ⟨api', hreclaim, rfl⟩ := exported_eq_ok hok
    exact ⟨api', live, foreign, rfl, Api.reclaim_calls hguards hinv (hmaps' hmaps) hreclaim, rfl,
      rfl⟩
  | cleanup hmaps hok =>
    rw [hprocess] at hok
    obtain ⟨api', hcleanup, rfl⟩ := exported_eq_ok hok
    exact ⟨api', live, foreign, rfl, Api.cleanup_calls hguards hinv (hmaps' hmaps) hcleanup, rfl,
      rfl⟩
  | exit hok =>
    rw [hprocess] at hok
    obtain ⟨api', hexit, rfl⟩ := exported_eq_ok hok
    exact ⟨api', live, foreign, rfl, Api.exitThread_calls hguards hinv hexit, rfl, rfl⟩

/-- Without an allocator, calls do nothing. -/
theorem Step.absent {e : Event} (h : Step p e p') (hprocess : p.process = none) :
    p'.process = none ∧ ∀ thread size alignment ptr, e = .alloc thread size alignment ptr →
      ptr = 0 := by
  have hnone : ∀ {function : Api → Checked (Option Api)} {process' : Option Api},
      exported p.process function = .ok (some process') → process' = none := by
    intro function process' hok
    rw [hprocess] at hok
    exact (Option.some.inj (Except.ok.inj hok)).symm
  cases h with
  | alloc hmaps hsize hok =>
    rw [hprocess] at hok
    obtain ⟨rfl, rfl⟩ := Prod.mk.inj (Except.ok.inj hok)
    refine ⟨rfl, fun _ _ _ _ he => ?_⟩
    injection he with _ _ _ hptr
    exact hptr.symm
  | free hmaps hl hok => exact ⟨hnone hok, fun _ _ _ _ he => Event.noConfusion he⟩
  | reclaim hmaps hok => exact ⟨hnone hok, fun _ _ _ _ he => Event.noConfusion he⟩
  | cleanup hmaps hok => exact ⟨hnone hok, fun _ _ _ _ he => Event.noConfusion he⟩
  | exit hok => exact ⟨hnone hok, fun _ _ _ _ he => Event.noConfusion he⟩

/-- Before the first call. -/
theorem Start.runs (h : Start vmemHugePageSize p) (hapi : api ∈ p.process) :
    Runs vmemHugePageSize api [] false := by
  obtain ⟨hinit, hlayout, hguards⟩ := h.new api hapi
  have hnone : ∀ {thread tla}, api.guards thread ≠ some tla := by
    intro thread tla
    rw [hguards]
    exact (Option.some_ne_none _).symm
  have htlas : api.tlas = [] := hinit.tlas
  refine ⟨.init hinit, hlayout, fun hguard => absurd hguard hnone,
    fun hguard => absurd hguard hnone, ?_⟩
  rw [htlas]
  exact fun tla htla => absurd htla List.not_mem_nil

theorem invariant (vmemHugePageSize : Nat) :
    (machine vmemHugePageSize).Invariant (Sound vmemHugePageSize) where
  init {p} h := by
    intro api hapi
    refine ⟨[], false, ?_, h.runs hapi⟩
    rw [h.live]
  step {p e p'} h hstep := by
    intro api' hapi
    cases hprocess : p.process with
    | none =>
      rw [(hstep.absent hprocess).1] at hapi
      exact absurd hapi (Option.not_mem_none _)
    | some api =>
      obtain ⟨live, foreign, hsub, hruns⟩ := h api (Option.mem_def.mpr hprocess)
      obtain ⟨api₁, live', foreign', hprocess', hcalls, hfollows⟩ :=
        hstep.follows hprocess hruns.guards hruns.reach.inv hsub.subset
      rw [hprocess'] at hapi
      obtain rfl := Option.mem_some_iff.mp hapi
      refine ⟨live', foreign', ?_, hruns.calls hcalls⟩
      cases hstep with
      | @alloc commitOk thread tlaMem size alignment ptr process' hmaps hsize hok =>
        cases hfollows.1 with
        | none => exact hsub
        | some hfresh =>
          have hpos : ptr ≠ 0 := hfresh.start_pos.ne'
          show (liveAfter p.live size ptr).Subperm _
          rw [liveAfter, if_neg hpos]
          exact (List.subperm_cons _).mpr hsub
      | free =>
        cases hfollows with
        | freed => exact hsub.erase _
        | dropped => exact (List.erase_subperm _ _).trans hsub
      | reclaim =>
        rw [hfollows.1]
        exact hsub
      | cleanup =>
        rw [hfollows.1]
        exact hsub
      | exit =>
        rw [hfollows.1]
        exact hsub

/-- The program is followed by a store of blocks that has the same blocks. -/
theorem simulation (vmemHugePageSize : Nat) :
    TransitionSystem.Simulation (machine vmemHugePageSize) (BlockStore.machine (2 ^ 64)) Event.label
      fun p blocks => blocks = p.live.map Allocation.block ∧ Sound vmemHugePageSize p where
  init {p} h := by
    refine ⟨[], rfl, ?_, (invariant vmemHugePageSize).init h⟩
    rw [h.live]
    rfl
  follow {p e p' blocks k} h hstep hlabel := by
    obtain ⟨rfl, hsound⟩ := h
    have hsound' : Sound vmemHugePageSize p' := (invariant vmemHugePageSize).step hsound hstep
    refine ⟨_, ?_, rfl, hsound'⟩
    cases hstep with
    | @alloc commitOk thread tlaMem size alignment ptr process' hmaps hsize hok =>
      have hstep : Step p (.alloc thread size alignment ptr) _ := .alloc hmaps hsize hok
      obtain rfl := Option.some.inj hlabel
      show BlockStore.Step _ _ _ ((liveAfter p.live size ptr).map _)
      by_cases hzero : ptr = 0
      · subst hzero
        rw [liveAfter, if_pos rfl]
        exact .refuse
      · rw [liveAfter, if_neg hzero]
        -- the block is apart from all the allocations of the process
        cases hprocess : p.process with
        | none => exact absurd ((hstep.absent hprocess).2 _ _ _ _ rfl) hzero
        | some api =>
          obtain ⟨live, foreign, hsub, hruns⟩ := hsound api (Option.mem_def.mpr hprocess)
          obtain ⟨_, _, _, -, -, hserves, -⟩ :=
            hstep.follows hprocess hruns.guards hruns.reach.inv hsub.subset
          cases hserves with
          | none => exact absurd rfl hzero
          | some hfresh =>
            have hsubset := List.map_subset Allocation.block hsub.subset
            exact .serve { hfresh with apart := fun b hb => hfresh.apart b (hsubset hb) }
    | @free fuel thread tlaMem ptr size process' hmaps hl hok =>
      obtain rfl := Option.some.inj hlabel
      show BlockStore.Step _ _ _ ((p.live.erase ⟨ptr, max size 1⟩).map _)
      rw [List.map_erase Allocation.block_injective]
      exact .free (List.mem_map_of_mem hl)
    | reclaim => cases hlabel
    | cleanup => cases hlabel
    | exit => cases hlabel
  wait {p e p' blocks} h hstep hlabel := by
    obtain ⟨rfl, hsound⟩ := h
    have hsound' : Sound vmemHugePageSize p' := (invariant vmemHugePageSize).step hsound hstep
    cases hstep with
    | alloc => cases hlabel
    | free => cases hlabel
    | reclaim => exact ⟨rfl, hsound'⟩
    | cleanup => exact ⟨rfl, hsound'⟩
    | exit => exact ⟨rfl, hsound'⟩

/-- **The exported functions are a store of blocks**: whatever threads that call them see, a store
of blocks shows, and it has the blocks that the threads hold. -/
theorem reaches_store (h : (machine vmemHugePageSize).Reaches es p) :
    (BlockStore.machine (2 ^ 64)).Reaches (es.filterMap Event.label)
      (p.live.map Allocation.block) := by
  obtain ⟨_, hreaches, rfl, -⟩ := (simulation vmemHugePageSize).reaches h
  exact hreaches

/-- The process of `cuw3Process`, before its first call. -/
def cuw3Api : Api := ⟨Process.cuw3Process.alloc, fun _ => none, []⟩

theorem cuw3Api_start : Start (2 ^ 21) ⟨some cuw3Api, []⟩ where
  live := rfl
  new api hapi := by
    obtain rfl := Option.mem_some_iff.mp hapi
    exact ⟨Process.cuw3Process_init, Process.cuw3Process_configured, fun _ => rfl⟩

theorem maps_of_mem {tlaMem : Nat} (h : tlaMem ∈ [64, 128])
    (htlas : ∀ tla ∈ api.tlas, tla ≠ tlaMem) : Maps ⟨some api, live⟩ tlaMem := by
  intro api' hapi
  obtain rfl := Option.mem_some_iff.mp hapi
  have haligned : ∀ tlaMem ∈ [64, 128], regionOwnerAlignment ∣ tlaMem ∧ tlaMem < 2 ^ 64 := by
    decide
  exact ⟨fun hin => htlas _ hin rfl, (haligned tlaMem h).1, (haligned tlaMem h).2⟩

/-- A call that returns within its bound on lists of retired arenas. -/
theorem toOption_join_eq_some {α : Type} {x : Checked (Option α)} {a : α} :
    x.toOption.join = some a ↔ x = .ok (some a) := by
  cases x <;> simp [Except.toOption]

/-- The first thread allocates 16 bytes at 16, and the second thread frees them. -/
theorem exists_run : ∃ ptr api process, ptr ≠ 0 ∧ (∀ tla ∈ api.tlas, tla ≠ 128) ∧
    cuw3Alloc (some cuw3Api) true 1 64 16 16 = .ok (ptr, some api) ∧
    cuw3Free (some api) 1 2 128 ptr 16 = .ok (some process) := by
  have hrun : ((cuw3Alloc (some cuw3Api) true 1 64 16 16).toOption.bind fun (ptr, process₁) =>
      process₁.bind fun api => (cuw3Free (some api) 1 2 128 ptr 16).toOption.join.map fun _ =>
        decide (ptr ≠ 0 ∧ ∀ tla ∈ api.tlas, tla ≠ 128)) = some true := by
    decide +kernel
  obtain ⟨⟨ptr, process₁⟩, halloc, hrun⟩ := Option.bind_eq_some_iff.mp hrun
  obtain ⟨api, rfl, hrun⟩ := Option.bind_eq_some_iff.mp hrun
  obtain ⟨process, hfree, hrun⟩ := Option.map_eq_some_iff.mp hrun
  obtain ⟨hptr, htlas⟩ := of_decide_eq_true hrun
  exact ⟨ptr, api, process, hptr, htlas, Process.toOption_eq_some.mp halloc,
    toOption_join_eq_some.mp hfree⟩

/-- After the allocation. -/
theorem reaches_alloc {ptr : Nat} (hptr : ptr ≠ 0)
    (halloc : cuw3Alloc (some cuw3Api) true 1 64 16 16 = .ok (ptr, some api)) :
    (machine (2 ^ 21)).Reaches [.alloc 1 16 16 ptr] ⟨some api, [⟨ptr, 16⟩]⟩ := by
  have hlive : liveAfter [] 16 ptr = [⟨ptr, 16⟩] := if_neg hptr
  have hmaps : Maps ⟨some cuw3Api, []⟩ 64 :=
    maps_of_mem (by decide) fun tla htla => absurd htla List.not_mem_nil
  rw [← hlive]
  exact ⟨_, cuw3Api_start, .cons (.alloc hmaps (by decide) halloc) (.nil _)⟩

theorem reaches_store_sample : ∃ p ptr, ptr ≠ 0 ∧
    (machine (2 ^ 21)).Reaches [.alloc 1 16 16 ptr, .free 2 ptr 16] p ∧
    (BlockStore.machine (2 ^ 64)).Reaches [.alloc 16 16 ptr, .free ptr 16]
      (p.live.map Allocation.block) := by
  obtain ⟨ptr, api, process, hptr, htlas, halloc, hfree⟩ := exists_run
  have hreach := (reaches_alloc hptr halloc).step
    (.free (maps_of_mem (by decide) htlas) List.mem_cons_self hfree)
  exact ⟨_, ptr, hptr, hreach, reaches_store hreach⟩

end Program

end Cuw3
