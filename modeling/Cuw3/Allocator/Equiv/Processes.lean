/-
  Processes: runs in which threads start, allocate, free, clean up and exit.

  A thread-local allocator that exists is run by a thread, dead in the graveyard, or released by a
  clean-up and about to be destroyed.  `Process.Inv` is the invariant of the assembled allocator
  over those that exist, with these places apart.  Every operation keeps it (`Process.Inv.step`), so
  it holds in every state that a run reaches (`Process.Reachable.inv`).
-/
import Cuw3.Allocator.Equiv.Graveyard
import Mathlib.Data.Option.Basic

namespace Cuw3

open Allocator

/-- The allocator; the thread-local allocators that exist, and those of them that a clean-up
released; the allocations of the clients, and whether another thread than the owner freed one. -/
structure Process where
  alloc : GraveAllocator
  tlas : List Nat
  released : List Nat
  live : List Allocation
  foreign : Bool

namespace Process

variable {p p' : Process} {t u : Nat} {w : World}

/-- The assembled allocator of the process. -/
def world (p : Process) : World := ⟨p.alloc.toAllocator, p.live, p.foreign⟩

/-- An operation of the assembled allocator was run. -/
def withWorld (p : Process) (w : World) : Process :=
  { p with
    alloc := { p.alloc with toAllocator := w.alloc }
    live := w.live
    foreign := w.foreign }

/-- The thread-local allocator of a thread. -/
structure Running (p : Process) (t : Nat) : Prop where
  mem : t ∈ p.tlas
  notDead : t ∉ p.alloc.tlaGraveyard.deadQueue
  notReleased : t ∉ p.released

/-- An operation, with its arguments. -/
inductive Action
  | allocate (commitOk : Bool) (t size alignment : Nat)
  | deallocate (t ptr size : Nat)
  | reclaim (t : Nat)
  | thisTlaCleanup (t : Nat)
  | graveTlaCleanup (t : Nat)
  | freeTlaResources (t : Nat)
  | destroyTla (t : Nat)
  | start (config : ThreadLocalAllocatorConfig) (tlaMem : Nat)
  | exit (t : Nat)

/-- One operation that returns.  A new thread-local allocator is configured with the least
alignments of `cuw3.cpp`, in memory that no other has. -/
inductive Step (p : Process) : Action → Process → Prop
  | allocate {commitOk : Bool} {t size alignment : Nat} {r : AcquiredResource} {alloc' : Allocator}
      (ht : p.Running t) (hsize : size + alignment - 1 < 2 ^ 64)
      (hok : p.alloc.toAllocator.allocate commitOk t size alignment = .ok (r, alloc')) :
      Step p (.allocate commitOk t size alignment)
        (p.withWorld ⟨alloc', liveAfter p.live size r, p.foreign⟩)
  | deallocate {t ptr size owner : Nat} {alloc' : Allocator} (ht : p.Running t)
      (hl : ⟨ptr, max size 1⟩ ∈ p.live) (howner : p.alloc.ownerOf ptr = .ok owner)
      (hok : p.alloc.toAllocator.deallocate t ptr size = .ok alloc') :
      Step p (.deallocate t ptr size)
        (p.withWorld ⟨alloc', p.live.erase ⟨ptr, max size 1⟩, p.foreign || owner != t⟩)
  | reclaim {fuel t : Nat} {empty : Bool} {alloc' : Allocator} (ht : p.Running t)
      (hok : p.alloc.toAllocator.reclaim fuel t = .ok (some (empty, alloc'))) :
      Step p (.reclaim t) (p.withWorld ⟨alloc', p.live, p.foreign⟩)
  | thisTlaCleanup {fuel t g : Nat} {alloc' : GraveAllocator} (ht : p.Running t)
      (hok : p.alloc.thisTlaCleanup fuel t = .ok (some (g, alloc'))) :
      Step p (.thisTlaCleanup t) { p with alloc := alloc' }
  | graveTlaCleanup {fuel t g : Nat} {alloc' : GraveAllocator} (ht : p.Running t)
      (hok : p.alloc.graveTlaCleanup fuel t = .ok (some (g, alloc'))) :
      Step p (.graveTlaCleanup t)
        { p with alloc := alloc', released := if g = 0 then p.released else g :: p.released }
  | freeTlaResources {t : Nat} {alloc' : Allocator} (ht : p.Running t)
      (hok : p.alloc.toAllocator.freeTlaResources t = .ok alloc') :
      Step p (.freeTlaResources t) (p.withWorld ⟨alloc', p.live, p.foreign⟩)
  | destroyTla {t : Nat} {alloc' : GraveAllocator} (ht : t ∈ p.released)
      (hok : p.alloc.destroyTla t = .ok alloc') :
      Step p (.destroyTla t)
        { p with alloc := alloc', tlas := p.tlas.erase t, released := p.released.erase t }
  | start {config : ThreadLocalAllocatorConfig} {tlaMem t : Nat} {alloc' : GraveAllocator}
      (hmem : tlaMem ∉ p.tlas) (hlt : tlaMem < 2 ^ 64)
      (hstepMin : config.stepSplitAllocConfig.minArenaAlignmentLog2 = confFastArenaMinAlignmentLog2)
      (hsmallMin : config.smallAllocConfig.minArenaAlignmentLog2 = confFastArenaMinAlignmentLog2)
      (hok : p.alloc.createTla config tlaMem = .ok (t, alloc')) :
      Step p (.start config tlaMem)
        { p with alloc := alloc', tlas := if t = 0 ∨ t ∈ p.tlas then p.tlas else t :: p.tlas }
  | exit {fuel t : Nat} {destroyed : Bool} {alloc' : GraveAllocator} (ht : p.Running t)
      (hok : p.alloc.exitThread fuel t = .ok (some (destroyed, alloc'))) :
      Step p (.exit t)
        { p with alloc := alloc', tlas := if destroyed then p.tlas.erase t else p.tlas }

/-- A new allocator, before the first thread starts: the memory of the regions is reserved, not
committed. -/
structure Init (p : Process) : Prop where
  fresh : Fresh [] p.alloc.toAllocator
  reserved : ∀ x, p.alloc.committed x = false
  graveyard : p.alloc.tlaGraveyard.deadQueue = []
  tlas : p.tlas = []
  released : p.released = []
  live : p.live = []
  foreign : p.foreign = false

/-- The states that runs reach in which every operation is as `meets` says. -/
inductive Reachable (meets : Process → Action → Prop) : Process → Prop
  | init {p : Process} (h : Init p) : Reachable meets p
  | step {p p' : Process} {a : Action} (h : Reachable meets p) (hmeets : meets p a)
      (hstep : Step p a p') : Reachable meets p'

/-- The invariant of the assembled allocator, and each thread-local allocator in one place. -/
structure Inv (p : Process) : Prop where
  world : Allocator.Inv p.tlas p.world
  positive : ∀ t ∈ p.tlas, 0 < t
  nodup : (p.alloc.tlaGraveyard.deadQueue ++ p.released).Nodup
  dead : ∀ t ∈ p.alloc.tlaGraveyard.deadQueue, t ∈ p.tlas
  released : ∀ t ∈ p.released, t ∈ p.tlas ∧ ∀ type, (p.alloc.tlas t).held type = []

theorem Inv.dead_pos (h : p.Inv) :
    ∀ t ∈ p.alloc.tlaGraveyard.deadQueue, t ∈ p.tlas ∧ 0 < t :=
  fun t ht => ⟨h.dead t ht, h.positive t (h.dead t ht)⟩

/-- An operation of the assembled allocator that changes the allocator of one running thread. -/
theorem Inv.withWorld (h : p.Inv) (ht : p.Running t) (hw : Allocator.Inv p.tlas w)
    (hothers : ∀ u, u ≠ t → ∀ type, (w.alloc.tlas u).held type = (p.alloc.tlas u).held type) :
    (p.withWorld w).Inv := by
  refine ⟨hw, h.positive, h.nodup, h.dead, fun u hu => ⟨(h.released u hu).1, fun type => ?_⟩⟩
  have hne : u ≠ t := ne_of_mem_of_not_mem hu ht.notReleased
  exact (hothers u hne type).trans ((h.released u hu).2 type)

/-- `free_tla_resources` moves chunks only. -/
theorem Inv.freeTlaResources (h : p.Inv) (ht : t ∈ p.tlas) {alloc' : Allocator}
    (hok : p.alloc.toAllocator.freeTlaResources t = .ok alloc') :
    Allocator.Inv p.tlas ⟨alloc', p.live, p.foreign⟩ ∧
      FreesCache p.tlas p.alloc.toAllocator alloc' t := by
  obtain ⟨alloc₁, hok₁, hfrees⟩ := h.world.chunks.freeTlaResources ht
  obtain rfl : alloc' = alloc₁ := Except.ok.inj (hok.symm.trans hok₁)
  exact ⟨h.world.moveChunks hfrees.frame hfrees.holds, hfrees⟩

/-- An empty thread-local allocator holds no arena. -/
theorem Inv.held_of_empty (h : p.Inv) (ht : t ∈ p.tlas) (hempty : (p.alloc.tlas t).empty = true)
    (type : RegionChunkType) : (p.alloc.tlas t).held type = [] := by
  have hkind := h.world.kind t ht type
  rw [ThreadLocalAllocator.empty, Bool.and_eq_true] at hempty
  cases type with
  | fastArenaStepSplitAllocator =>
    have hwf : (p.alloc.tlas t).stepSplitAllocator.bins.WellFormed p.alloc.heap := hkind.holds.wf
    have hzero := hempty.2
    rw [FastArenaStepSplitAllocator.empty, FastArenaBins.empty, hwf.total, beq_iff_eq] at hzero
    exact List.eq_nil_of_length_eq_zero hzero
  | fastArenaSmallAllocator =>
    have hwf : (p.alloc.tlas t).smallAllocator.bins.WellFormed p.alloc.heap := hkind.holds.wf
    have hzero := hempty.1
    rw [FastArenaSmallAllocator.empty, FastArenaSmallBins.empty, hwf.total, beq_iff_eq] at hzero
    exact List.eq_nil_of_length_eq_zero hzero

/-- Another thread-local allocator still holds nothing when chunks of `t` were moved. -/
theorem Inv.held_frees (h : p.Inv) {alloc' : Allocator}
    (hfrees : FreesCache p.tlas p.alloc.toAllocator alloc' t) (hu : u ∈ p.released)
    (type : RegionChunkType) : (alloc'.tlas u).held type = [] := by
  rw [hfrees.frame.held]
  exact (h.released u hu).2 type

/-- The clean-up of a dead thread-local allocator. -/
theorem Inv.cleans (h : p.Inv) {g : Nat} {alloc' : GraveAllocator}
    (hcleans : GraveAllocator.Cleans p.alloc t g alloc') :
    Inv { p with alloc := alloc', released := if g = 0 then p.released else g :: p.released } := by
  have hpos := h.positive
  cases hcleans with
  | none hsame hqueue =>
    refine ⟨?_, hpos, ?_, ?_, fun u hu => ⟨(h.released u hu).1, ?_⟩⟩ <;> dsimp only [Process.world]
    · rw [hsame]
      exact h.world
    · rw [hqueue]
      exact h.nodup
    · rw [hqueue]
      exact h.dead
    · rw [hsame]
      exact (h.released u hu).2
  | kept hvisits hfrees hqueue =>
    have hdead := h.dead _ (GraveAllocator.mem_of_visits hvisits)
    obtain ⟨hworld, hcache⟩ := h.freeTlaResources hdead hfrees
    refine ⟨hworld, hpos, ?_, ?_, fun u hu => ⟨(h.released u hu).1, h.held_frees hcache hu⟩⟩
    all_goals dsimp only
    · rw [hqueue]
      exact h.nodup
    · rw [hqueue]
      exact h.dead
  | @emptied _ rest alloc' hvisits hqueue hempty hfrees hqueue' =>
    have hdead : g ∈ p.tlas := h.dead g (hqueue ▸ List.mem_cons_self)
    obtain ⟨hworld, hcache⟩ := h.freeTlaResources hdead hfrees
    have hnodup := h.nodup
    rw [hqueue, List.cons_append] at hnodup
    have hg : (if g = 0 then p.released else g :: p.released) = g :: p.released :=
      if_neg (hpos g hdead).ne'
    refine ⟨hworld, hpos, ?_, ?_, fun u hu => ?_⟩
    all_goals dsimp only
    · -- the dead one moved from the queue to the released ones
      rw [hqueue', hg]
      exact (List.perm_middle.nodup_iff).mpr hnodup
    · rw [hqueue']
      exact fun u hu => h.dead u (hqueue ▸ List.mem_cons_of_mem _ hu)
    · dsimp only at hu
      rw [hg] at hu
      rcases List.mem_cons.mp hu with rfl | hu
      · refine ⟨hdead, fun type => ?_⟩
        rw [hcache.frame.held]
        exact h.held_of_empty hdead hempty type
      · exact ⟨(h.released u hu).1, h.held_frees hcache hu⟩

/-- The destruction of a thread-local allocator that holds no arena. -/
theorem Inv.destroyed (h : p.Inv) {released : List Nat} {alloc' : GraveAllocator} (ht : t ∈ p.tlas)
    (hempty : ∀ type, (p.alloc.tlas t).held type = [])
    (hfrees : p.alloc.toAllocator.freeTlaResources t = .ok alloc'.toAllocator)
    (hqueue : alloc'.tlaGraveyard = p.alloc.tlaGraveyard)
    (hreleased : released.Sublist p.released)
    (hgone : t ∉ alloc'.tlaGraveyard.deadQueue ++ released) :
    Inv { p with alloc := alloc', tlas := p.tlas.erase t, released } := by
  obtain ⟨hworld, hcache⟩ := h.freeTlaResources ht hfrees
  have hne : ∀ u ∈ alloc'.tlaGraveyard.deadQueue ++ released, u ≠ t :=
    fun u hu => ne_of_mem_of_not_mem hu hgone
  refine ⟨?_, fun u hu => h.positive u (List.mem_of_mem_erase hu), ?_, fun u hu => ?_, fun u hu =>
    ?_⟩
  · refine hworld.removeThread fun type => ?_
    dsimp only
    rw [hcache.frame.held]
    exact hempty type
  · dsimp only
    rw [hqueue]
    exact h.nodup.sublist (hreleased.append_left _)
  · refine (List.mem_erase_of_ne (hne u (List.mem_append_left _ hu))).mpr (h.dead u ?_)
    dsimp only at hu
    rwa [hqueue] at hu
  · have hu' := hreleased.subset hu
    exact ⟨(List.mem_erase_of_ne (hne u (List.mem_append_right _ hu))).mpr (h.released u hu').1,
      h.held_frees hcache hu'⟩

/-- The start of a thread. -/
theorem Inv.starts (h : p.Inv) {config : ThreadLocalAllocatorConfig} {tlaMem : Nat}
    {alloc' : GraveAllocator} (hmem : tlaMem ∉ p.tlas) (hlt : tlaMem < 2 ^ 64)
    (hstepMin : config.stepSplitAllocConfig.minArenaAlignmentLog2 = confFastArenaMinAlignmentLog2)
    (hsmallMin : config.smallAllocConfig.minArenaAlignmentLog2 = confFastArenaMinAlignmentLog2)
    (hstarts : GraveAllocator.Starts p.alloc config tlaMem t alloc') :
    Inv { p with alloc := alloc', tlas := if t = 0 ∨ t ∈ p.tlas then p.tlas else t :: p.tlas } := by
  cases hstarts with
  | none => exact h
  | @snatched _ rest alloc' hqueue hsame hqueue' =>
    have hdead : t ∈ p.tlas := h.dead t (hqueue ▸ List.mem_cons_self)
    have hnodup := h.nodup
    rw [hqueue, List.cons_append] at hnodup
    rw [if_pos (.inr hdead)]
    refine ⟨?_, h.positive, ?_, fun u hu => ?_, fun u hu => ⟨(h.released u hu).1, ?_⟩⟩
    all_goals dsimp only [Process.world]
    · rw [hsame]
      exact h.world
    · rw [hqueue']
      exact (List.nodup_cons.mp hnodup).2
    · dsimp only at hu
      rw [hqueue'] at hu
      exact h.dead u (hqueue ▸ List.mem_cons_of_mem _ hu)
    · rw [hsame]
      exact (h.released u hu).2
  | @created tla alloc' hpos hcreate hnew hqueue =>
    have hif : ¬(t = 0 ∨ t ∈ p.tlas) := by
      rintro (rfl | hin)
      · exact absurd hpos (lt_irrefl 0)
      · exact hmem hin
    rw [if_neg hif]
    have hother : ∀ u ∈ p.tlas, alloc'.tlas u = p.alloc.tlas u := by
      intro u hu
      rw [hnew]
      exact Function.update_of_ne (ne_of_mem_of_not_mem hu hmem) ..
    refine ⟨?_, fun u hu => ?_, ?_, fun u hu => ?_, fun u hu => ?_⟩
    · dsimp only [Process.world]
      rw [hnew]
      exact h.world.addThread hmem hlt hcreate hstepMin hsmallMin
    · rcases List.mem_cons.mp hu with rfl | hu
      · exact hpos
      · exact h.positive u hu
    · dsimp only
      rw [hqueue]
      exact h.nodup
    · dsimp only at hu
      rw [hqueue] at hu
      exact List.mem_cons_of_mem _ (h.dead u hu)
    · obtain ⟨hin, hempty⟩ := h.released u hu
      refine ⟨List.mem_cons_of_mem _ hin, fun type => ?_⟩
      dsimp only
      rw [hother u hin]
      exact hempty type

/-- **Every operation keeps the invariant.** -/
theorem Inv.step {a : Action} (h : p.Inv) (hstep : Step p a p') : p'.Inv := by
  cases hstep with
  | @allocate commitOk t size alignment r alloc' ht hsize hok =>
    obtain ⟨hinv, -, type, heffect⟩ := h.world.allocate ht.mem hsize hok
    refine h.withWorld ht hinv fun u hu type' => ?_
    dsimp only
    rw [heffect.tlas_of_ne hu]
    rfl
  | @deallocate t ptr size owner alloc' ht hl howner hok =>
    obtain ⟨hinv, heffect⟩ := h.world.deallocate hl howner hok
    refine h.withWorld ht hinv fun u hu type' => ?_
    dsimp only
    rw [heffect.tlas_of_ne hu]
    rfl
  | reclaim ht hok =>
    have hsame := h.world.reclaim_eq ht.mem
    dsimp only [Process.world] at hsame
    rw [hsame] at hok
    obtain ⟨-, rfl⟩ := Prod.mk.inj (Option.some.inj (Except.ok.inj hok))
    exact h
  | @thisTlaCleanup fuel t g alloc' ht hok =>
    obtain ⟨hsame, hqueue⟩ := GraveAllocator.thisTlaCleanup_same h.world ht.mem hok
    refine ⟨?_, h.positive, ?_, ?_, fun u hu => ⟨(h.released u hu).1, ?_⟩⟩
    all_goals dsimp only [Process.world]
    · rw [hsame]
      exact h.world
    · rw [hqueue]
      exact h.nodup
    · rw [hqueue]
      exact h.dead
    · rw [hsame]
      exact (h.released u hu).2
  | graveTlaCleanup ht hok =>
    exact h.cleans (GraveAllocator.graveTlaCleanup_cases h.world h.dead_pos hok)
  | @freeTlaResources t alloc' ht hok =>
    obtain ⟨hworld, hcache⟩ := h.freeTlaResources ht.mem hok
    exact h.withWorld ht hworld fun u hu type => hcache.frame.held u type
  | @destroyTla t alloc' ht hok =>
    simp only [GraveAllocator.destroyTla, bind_eq_ok, pure_eq_ok] at hok
    obtain ⟨allocator, hfrees, rfl⟩ := hok
    obtain ⟨hmem, hempty⟩ := h.released t ht
    obtain ⟨-, hnodup, hdisjoint⟩ := List.nodup_append.mp h.nodup
    refine h.destroyed hmem hempty hfrees rfl List.erase_sublist fun hin => ?_
    rcases List.mem_append.mp hin with hin | hin
    · exact hdisjoint t hin t ht rfl
    · exact (hnodup.mem_erase_iff.mp hin).1 rfl
  | start hmem hlt hstepMin hsmallMin hok =>
    exact h.starts hmem hlt hstepMin hsmallMin
      (GraveAllocator.createTla_cases (fun d hd => (h.dead_pos d hd).2) hok)
  | @exit fuel t destroyed alloc' ht hok =>
    have hnot : t ∉ p.alloc.tlaGraveyard.deadQueue ++ p.released := fun hin =>
      (List.mem_append.mp hin).elim ht.notDead ht.notReleased
    cases GraveAllocator.exitThread_cases h.world ht.mem hok with
    | destroyed hempty hfrees hqueue =>
      refine h.destroyed ht.mem (h.held_of_empty ht.mem hempty) hfrees hqueue (.refl _) ?_
      rwa [hqueue]
    | buried =>
      refine ⟨h.world, h.positive, ?_, fun u hu => ?_, h.released⟩
      · exact List.nodup_cons.mpr ⟨hnot, h.nodup⟩
      · rcases List.mem_cons.mp hu with rfl | hu
        · exact ht.mem
        · exact h.dead u hu

theorem Init.inv (h : Init p) : p.Inv := by
  obtain ⟨alloc, tlas, released, live, foreign⟩ := p
  obtain ⟨hfresh, -, hqueue, rfl, rfl, rfl, rfl⟩ := h
  refine ⟨hfresh.inv, fun t ht => ?_, ?_, fun t ht => ?_, fun t ht => ?_⟩
  · cases ht
  · dsimp only at hqueue ⊢
    rw [hqueue]
    exact List.nodup_nil
  · rw [hqueue] at ht
    cases ht
  · cases ht

/-- **The invariant holds in every state that a run of a process reaches.** -/
theorem Reachable.inv {meets : Process → Action → Prop} (h : Reachable meets p) : p.Inv := by
  induction h with
  | init h => exact h.inv
  | step _ _ hstep ih => exact ih.step hstep

/-! ### Running operations -/

instance (p : Process) (t : Nat) : Decidable (p.Running t) :=
  decidable_of_iff (t ∈ p.tlas ∧ t ∉ p.alloc.tlaGraveyard.deadQueue ∧ t ∉ p.released)
    ⟨fun h => ⟨h.1, h.2.1, h.2.2⟩, fun h => ⟨h.mem, h.notDead, h.notReleased⟩⟩

/-- Runs an operation that may be run, where lists of retired arenas have at most `fuel` arenas. -/
def exec (fuel : Nat) (p : Process) : Action → Option Process
  | .allocate commitOk t size alignment => do
    guard (p.Running t ∧ size + alignment - 1 < 2 ^ 64)
    let (r, alloc') ← (p.alloc.toAllocator.allocate commitOk t size alignment).toOption
    some (p.withWorld ⟨alloc', liveAfter p.live size r, p.foreign⟩)
  | .deallocate t ptr size => do
    guard (p.Running t ∧ ⟨ptr, max size 1⟩ ∈ p.live)
    let owner ← (p.alloc.ownerOf ptr).toOption
    let alloc' ← (p.alloc.toAllocator.deallocate t ptr size).toOption
    some (p.withWorld ⟨alloc', p.live.erase ⟨ptr, max size 1⟩, p.foreign || owner != t⟩)
  | .freeTlaResources t => do
    guard (p.Running t)
    let alloc' ← (p.alloc.toAllocator.freeTlaResources t).toOption
    some (p.withWorld ⟨alloc', p.live, p.foreign⟩)
  | .start config tlaMem => do
    guard (tlaMem ∉ p.tlas ∧ tlaMem < 2 ^ 64 ∧
      config.stepSplitAllocConfig.minArenaAlignmentLog2 = confFastArenaMinAlignmentLog2 ∧
      config.smallAllocConfig.minArenaAlignmentLog2 = confFastArenaMinAlignmentLog2)
    let (t, alloc') ← (p.alloc.createTla config tlaMem).toOption
    some { p with alloc := alloc', tlas := if t = 0 ∨ t ∈ p.tlas then p.tlas else t :: p.tlas }
  | .exit t => do
    guard (p.Running t)
    let (destroyed, alloc') ← (← (p.alloc.exitThread fuel t).toOption)
    some { p with alloc := alloc', tlas := if destroyed then p.tlas.erase t else p.tlas }
  | _ => none

/-- A call that returns. -/
theorem toOption_eq_some {α : Type} {x : Checked α} {b : α} : x.toOption = some b ↔ x = .ok b := by
  cases x <;> simp [Except.toOption]

theorem step_of_exec {fuel : Nat} {a : Action} (h : p.exec fuel a = some p') : Step p a p' := by
  cases a <;> simp only [exec, Option.bind_eq_bind, Option.bind_eq_some_iff, Option.some.injEq,
    toOption_eq_some, Prod.exists, Option.guard_eq_some', reduceCtorEq] at h
  case allocate =>
    obtain ⟨-, ⟨ht, hsize⟩, r, alloc', hok, rfl⟩ := h
    exact .allocate ht hsize hok
  case deallocate =>
    obtain ⟨-, ⟨ht, hl⟩, owner, howner, alloc', hok, rfl⟩ := h
    exact .deallocate ht hl howner hok
  case freeTlaResources =>
    obtain ⟨-, ht, alloc', hok, rfl⟩ := h
    exact .freeTlaResources ht hok
  case start =>
    obtain ⟨-, ⟨hmem, hlt, hstepMin, hsmallMin⟩, t, alloc', hok, rfl⟩ := h
    exact .start hmem hlt hstepMin hsmallMin hok
  case exit =>
    obtain ⟨-, ht, result, hok, destroyed, alloc', rfl, rfl⟩ := h
    exact .exit ht hok

/-- Runs operations one after the other. -/
def execAll (fuel : Nat) (p : Process) : List Action → Option Process
  | [] => some p
  | a :: as => do (← p.exec fuel a).execAll fuel as

/-- A run of operations that are as `meets` says. -/
theorem Reachable.execAll {meets : Process → Action → Prop} {fuel : Nat} {as : List Action} :
    ∀ {p}, Reachable meets p → (∀ p, ∀ a ∈ as, meets p a) → p.execAll fuel as = some p' →
      Reachable meets p' := by
  induction as with
  | nil =>
    intro p h _ hexec
    obtain rfl : p = p' := Option.some.inj hexec
    exact h
  | cons a as ih =>
    intro p h hmeets hexec
    simp only [Process.execAll, Option.bind_eq_bind, Option.bind_eq_some_iff] at hexec
    obtain ⟨mid, hstep, hrest⟩ := hexec
    exact ih (h.step (hmeets p a List.mem_cons_self) (step_of_exec hstep))
      (fun p a ha => hmeets p a (List.mem_cons_of_mem _ ha)) hrest

/-- The process of `sampleAllocator`, before its first thread starts. -/
def sampleProcess : Process :=
  { alloc := { toAllocator := sampleAllocator, tlaGraveyard := ⟨[]⟩, cleanups := fun _ =>
    ⟨0, 0, 0⟩ }
    tlas := [], released := [], live := [], foreign := false }

theorem sampleProcess_init : Init sampleProcess :=
  ⟨sampleAllocator_fresh.mono (by decide) (by decide), fun _ => rfl, rfl, rfl, rfl, rfl, rfl⟩

def sampleConfig : ThreadLocalAllocatorConfig := ⟨⟨0, 12, 12, 4, 4⟩, ⟨4, 12, 4096⟩⟩

end Process

end Cuw3
