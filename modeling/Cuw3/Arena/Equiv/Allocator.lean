/-
  Allocators over any bins that keep their representation.

  `BinsLaw ops` says what bins are for, in terms of the arenas they hold: `acquire` and `extract`
  take one arena out, `release` puts one in, nothing else changes.  Over any bins with a law, the
  functions of `ArenaAllocator` keep `Holds`: the bins are well formed, every held arena obeys its
  law for its live allocations and none of them is resettable.
-/
import Cuw3.Arena.Allocator
import Cuw3.Arena.Equiv.Law

namespace Cuw3

/-! ### What the bins see of an arena -/

namespace FastArena

/-- The arenas agree on all that the bins look at. -/
structure SameShape (a a' : FastArena) : Prop where
  header : a'.regionChunkHeader = a.regionChunkHeader
  linked : a'.linked = a.linked
  top : a'.top = a.top
  size : a'.arenaMemorySize = a.arenaMemorySize
  alignment : a'.arenaAlignment = a.arenaAlignment

/-- The arenas agree on the fields that never change. -/
structure SameBlock (a a' : FastArena) : Prop where
  header : a'.regionChunkHeader = a.regionChunkHeader
  size : a'.arenaMemorySize = a.arenaMemorySize
  alignment : a'.arenaAlignment = a.arenaAlignment
  memory : a'.arenaMemory = a.arenaMemory

/-- An arena whose top is where `remaining` and the bins expect it. -/
structure Shaped (arena : FastArena) : Prop extends Static arena where
  top_dvd : arena.arenaAlignment ∣ arena.top
  top_le : arena.top ≤ arena.arenaMemorySize

/-- Blocks of `size` bytes of the arena are aligned to `alignment`, and rounding `size` up does not
wrap. -/
structure Serves (arena : FastArena) (size alignment : Nat) : Prop where
  dvd : alignment ∣ arena.arenaAlignment
  fits : size + arena.arenaAlignment - 1 < 2 ^ 64

/-- What `remaining` returns. -/
def room (arena : FastArena) : Nat := arena.arenaMemorySize - arena.top

variable {arena : FastArena} {live : List Allocation}

theorem Law.shaped (h : arena.Law live) : arena.Shaped := ⟨h.toStatic, h.top_dvd, h.top_le⟩

theorem SameBlock.refl (a : FastArena) : SameBlock a a := ⟨rfl, rfl, rfl, rfl⟩

theorem SameBlock.trans {a b c : FastArena} (h : SameBlock a b) (h' : SameBlock b c) :
    SameBlock a c :=
  ⟨h'.header.trans h.header, h'.size.trans h.size, h'.alignment.trans h.alignment,
    h'.memory.trans h.memory⟩

/-- `acquire` moves the top only. -/
theorem acquire_sameBlock {size mem : Nat} {view : FastArena}
    (hok : arena.acquire size = .ok (mem, view)) :
    SameBlock arena view := by
  simp only [acquire, bind_eq_ok, check_eq_ok, exists_const] at hok
  obtain ⟨-, requiredSpace, -, hok⟩ := hok
  split_ifs at hok
  · simp only [pure_eq_ok, Prod.mk.injEq] at hok
    exact hok.2 ▸ .refl _
  · simp only [bind_eq_ok, pure_eq_ok, Prod.mk.injEq] at hok
    obtain ⟨_, -, -, rfl⟩ := hok
    exact ⟨rfl, rfl, rfl, rfl⟩

/-- The law does not look at the list entry. -/
theorem Law.withLinked (h : arena.Law live) (linked : Bool) :
    ({ arena with linked } : FastArena).Law live :=
  ⟨⟨h.isAlignment, h.min_le, h.size_dvd, h.memory_dvd, h.memory_pos, h.bound⟩, h.top_dvd,
    h.freed_dvd, h.top_le, h.range, h.size_pos, h.accounted⟩

/-- The law does not look at the links of the retire-reclaim entry. -/
theorem Law.withNext (h : arena.Law live) (next : Nat) : (arena.withNext next).Law live :=
  ⟨⟨h.isAlignment, h.min_le, h.size_dvd, h.memory_dvd, h.memory_pos, h.bound⟩, h.top_dvd,
    h.freed_dvd, h.top_le, h.range, h.size_pos, h.accounted⟩

theorem Shaped.remaining_eq (h : arena.Shaped) :
    arena.remaining = .ok (arena.arenaMemorySize - arena.top) := by
  rw [remaining, check_of h.top_le]
  rfl

theorem Shaped.canAllocate_eq (h : arena.Shaped) (size : Nat) : arena.canAllocate size =
    .ok (decide (arena.requiredSpace size ≤ arena.arenaMemorySize - arena.top)) := by
  have hrem : arena.arenaAlignment ∣ arena.arenaMemorySize - arena.top :=
    Nat.dvd_sub h.size_dvd h.top_dvd
  simp only [canAllocate, canAllocateAligned, h.align_eq, ok_bind, isAligned_eq h.isAlignment,
    requiredSpace_dvd, decide_true, check_of, h.remaining_eq, hrem]
  rfl

theorem Shaped.canAllocateAligned_eq (h : arena.Shaped) {size : Nat}
    (hsize : arena.arenaAlignment ∣ size) : arena.canAllocateAligned size =
    .ok (decide (size ≤ arena.arenaMemorySize - arena.top)) := by
  have hrem : arena.arenaAlignment ∣ arena.arenaMemorySize - arena.top :=
    Nat.dvd_sub h.size_dvd h.top_dvd
  simp only [canAllocateAligned, ok_bind, isAligned_eq h.isAlignment, hsize, decide_true, check_of,
    h.remaining_eq, hrem]
  rfl

theorem Shaped.of_shape {a a' : FastArena} (h : a.Shaped) (hs : a.SameShape a')
    (hm : a'.arenaMemory = a.arenaMemory) : a'.Shaped := by
  refine ⟨⟨?_, ?_, ?_, ?_, ?_, ?_⟩, ?_, ?_⟩ <;> simp only [hs.alignment, hs.size, hs.top, hm]
  exacts [h.isAlignment, h.min_le, h.size_dvd, h.memory_dvd, h.memory_pos, h.bound, h.top_dvd,
    h.top_le]

end FastArena

/-- The memories differ in list entries only. -/
def OnlyLinks (heap heap' : Heap) : Prop :=
  ∀ q, heap' q = { heap q with linked := (heap' q).linked }

theorem OnlyLinks.refl (heap : Heap) : OnlyLinks heap heap := fun _ => rfl

theorem OnlyLinks.law {heap heap' : Heap} (h : OnlyLinks heap heap') {p : Nat}
    {live : List Allocation} (hlaw : (heap p).Law live) : (heap' p).Law live := by
  rw [h p]
  exact hlaw.withLinked _

theorem OnlyLinks.sameBlock {heap heap' : Heap} (h : OnlyLinks heap heap') (p : Nat) :
    (heap p).SameBlock (heap' p) := by
  rw [h p]
  exact ⟨rfl, rfl, rfl, rfl⟩

/-! ### The law of bins -/

/-- What a change of the bins leaves alone: everything but list entries of arenas that they hold
before or after, and the arenas they take. -/
structure BinsFrame {B : Type} (held : B → List Nat) (Suitable : B → FastArena → Prop)
    (heap heap' : Heap) (bins bins' : B) : Prop where
  links : OnlyLinks heap heap'
  outside : ∀ q, q ∉ held bins → q ∉ held bins' → heap' q = heap q
  suitable : Suitable bins' = Suitable bins

/-- The law of bins: which arenas they hold, and that each operation changes just that. -/
structure BinsLaw {B : Type} (ops : AllocatorOps B) where
  held : B → List Nat
  WellFormed : Heap → B → Prop
  /-- The arenas that the bins take. -/
  Suitable : B → FastArena → Prop
  nodup : ∀ {heap bins}, WellFormed heap bins → (held bins).Nodup
  member : ∀ {heap bins p}, WellFormed heap bins → p ∈ held bins →
    (0 < p ∧ p < 2 ^ 64) ∧ Suitable bins (heap p) ∧ (heap p).Shaped
  type : ∀ {bins arena}, Suitable bins arena → arena.type = ops.type.val
  suitable_congr : ∀ {bins a a'}, FastArena.SameBlock a a' → Suitable bins a → Suitable bins a'
  congr : ∀ {heap heap' bins}, WellFormed heap bins →
    (∀ p ∈ held bins, (heap p).SameShape (heap' p) ∧ (heap p).SameBlock (heap' p)) →
    WellFormed heap' bins
  acquire : ∀ {heap bins size alignment r heap' bins'}, WellFormed heap bins →
    ops.acquire heap bins size alignment = .ok (r, heap', bins') →
    BinsFrame held Suitable heap heap' bins bins' ∧ WellFormed heap' bins' ∧
      match r with
      | .acquired p => (p :: held bins').Perm (held bins) ∧ (heap' p).linked = false ∧
          (isAlignment alignment = true → size + alignment - 1 < 2 ^ 64 →
            (heap' p).Serves size alignment)
      | _ => (held bins').Perm (held bins)
  release : ∀ {heap bins p}, WellFormed heap bins →
    (∀ q ∈ held bins, (heap q).freed ≠ (heap q).top) → p ∉ held bins → 0 < p → p < 2 ^ 64 →
    Suitable bins (heap p) → (heap p).Shaped → (heap p).freed ≠ (heap p).top →
    (heap p).linked = false →
    ∃ heap' bins', ops.release heap bins p = .ok (heap', bins') ∧
      BinsFrame held Suitable heap heap' bins bins' ∧ WellFormed heap' bins' ∧
        (held bins').Perm (p :: held bins)
  extract : ∀ {heap bins p}, WellFormed heap bins → p ∈ held bins →
    ∃ heap' bins', ops.extract heap bins p = .ok (heap', bins') ∧
      BinsFrame held Suitable heap heap' bins bins' ∧ WellFormed heap' bins' ∧
        (p :: held bins').Perm (held bins) ∧ (heap' p).linked = false
  allocate_cases : ∀ {heap p size m heap'} {alloc alloc' : ArenaAllocator B},
    ops.allocate heap alloc p size = .ok (m, heap', alloc') → p ≠ 0 ∧ 0 < size ∧
      ((m = 0 ∧ heap' = heap ∧ alloc' = alloc) ∨
        ∃ fmt, alloc.allocateFrom ops.toBinsOps heap fmt p size = .ok (m, heap', alloc'))
  acquire_allocate : ∀ {heap size alignment p heap₁ bins₁ m heap'}
    {alloc alloc' : ArenaAllocator B},
    WellFormed heap alloc.bins →
    ops.acquire heap alloc.bins size alignment = .ok (.acquired p, heap₁, bins₁) →
    ops.allocate heap₁ { alloc with bins := bins₁ } p size = .ok (m, heap', alloc') → m ≠ 0
  /-- A fresh arena of the alignment for which the bins had none is of a kind that they take, and it
  is not refused. -/
  acquire_fresh : ∀ {heap size p heap₁ bins₁ m heap'} {arena : FastArena}
    {alloc alloc' : ArenaAllocator B},
    WellFormed heap alloc.bins →
    ops.acquire heap alloc.bins size arena.arenaAlignment = .ok (.noResource, heap₁, bins₁) →
    arena.type = ops.type.val → arena.Static →
    (∃ a, Suitable alloc.bins a ∧ a.arenaAlignment ≤ arena.arenaAlignment) →
    ops.allocate (Function.update heap₁ p arena) { alloc with bins := bins₁ } p size =
      .ok (m, heap', alloc') →
    Suitable bins₁ arena ∧ m ≠ 0
  deallocate_cases : ∀ {heap p memory size r} {alloc : ArenaAllocator B},
    ops.deallocate heap alloc p memory size = .ok r →
      ∃ fmt, alloc.deallocateFrom ops.toBinsOps heap fmt p memory size = .ok r
  reclaimArena_eq : ∀ {heap p} {alloc : ArenaAllocator B}, WellFormed heap alloc.bins →
    p ∈ held alloc.bins →
    ops.reclaimArena heap alloc p = alloc.reclaimArena ops.toBinsOps heap p

namespace BinsLaw

variable {B : Type} {ops : AllocatorOps B} (law : BinsLaw ops)

/-- The bins are well formed, each arena they hold obeys its law, and none of them is resettable. -/
structure Holds (heap : Heap) (bins : B) (live : Nat → List Allocation) : Prop where
  wf : law.WellFormed heap bins
  arena : ∀ p ∈ law.held bins, (heap p).Law (live p)
  busy : ∀ p ∈ law.held bins, (heap p).freed ≠ (heap p).top

variable {law} {heap heap' : Heap} {bins bins' : B} {alloc alloc' : ArenaAllocator B}
  {live live' : Nat → List Allocation} {p : Nat}

/-- Changes elsewhere in memory do not matter. -/
theorem Holds.congr (h : law.Holds heap bins live)
    (heq : ∀ q ∈ law.held bins, heap' q = heap q ∧ live' q = live q) :
    law.Holds heap' bins live' where
  wf := law.congr h.wf fun q hq => by
    rw [(heq q hq).1]
    exact ⟨⟨rfl, rfl, rfl, rfl, rfl⟩, .refl _⟩
  arena q hq := by
    rw [(heq q hq).1, (heq q hq).2]
    exact h.arena q hq
  busy q hq := by
    rw [(heq q hq).1]
    exact h.busy q hq

/-- One arena of the bins is written, which stays busy and keeps its shape. -/
theorem Holds.write (h : law.Holds heap bins live) {view : FastArena} {allocs : List Allocation}
    (hshape : (heap p).SameShape view) (hblock : (heap p).SameBlock view) (hlaw : view.Law allocs)
    (hbusy : view.freed ≠ view.top) :
    law.Holds (Function.update heap p view) bins (Function.update live p allocs) where
  wf := law.congr h.wf fun q _ => by
    by_cases hqp : q = p
    · subst hqp
      rw [Function.update_self]
      exact ⟨hshape, hblock⟩
    · rw [Function.update_of_ne hqp]
      exact ⟨⟨rfl, rfl, rfl, rfl, rfl⟩, .refl _⟩
  arena q hq := by
    by_cases hqp : q = p
    · subst hqp
      rwa [Function.update_self, Function.update_self]
    · rw [Function.update_of_ne hqp, Function.update_of_ne hqp]
      exact h.arena q hq
  busy q hq := by
    by_cases hqp : q = p
    · subst hqp
      rwa [Function.update_self]
    · rw [Function.update_of_ne hqp]
      exact h.busy q hq

/-- The bins took or gave arenas: those that they hold are as they were. -/
theorem Holds.frame (h : law.Holds heap bins live)
    (hframe : BinsFrame law.held law.Suitable heap heap' bins bins')
    (hwf : law.WellFormed heap' bins') (hsub : ∀ q ∈ law.held bins', q ∈ law.held bins) :
    law.Holds heap' bins' live where
  wf := hwf
  arena q hq := hframe.links.law (h.arena q (hsub q hq))
  busy q hq := by
    rw [hframe.links q]
    exact h.busy q (hsub q hq)

/-! ### The functions of an allocator -/

/-- An arena that `acquire` or `extract` took out of the bins. -/
theorem Holds.taken (h : law.Holds heap bins live)
    (hframe : BinsFrame law.held law.Suitable heap heap' bins bins')
    (hwf : law.WellFormed heap' bins') (hperm : (p :: law.held bins').Perm (law.held bins)) :
    law.Holds heap' bins' live ∧ p ∈ law.held bins ∧ p ∉ law.held bins' := by
  have hnodup := hperm.nodup_iff.mpr (law.nodup h.wf)
  refine ⟨h.frame hframe hwf fun q hq => hperm.subset (List.mem_cons_of_mem _ hq), ?_, ?_⟩
  · exact hperm.subset List.mem_cons_self
  · exact (List.nodup_cons.mp hnodup).1

/-- An arena that went into the bins. -/
theorem Holds.given (h : law.Holds heap bins live)
    (hframe : BinsFrame law.held law.Suitable heap heap' bins bins')
    (hwf : law.WellFormed heap' bins') (hperm : (law.held bins').Perm (p :: law.held bins))
    (hlaw : (heap p).Law (live p)) (hbusy : (heap p).freed ≠ (heap p).top) :
    law.Holds heap' bins' live where
  wf := hwf
  arena q hq := by
    rcases List.mem_cons.mp (hperm.subset hq) with rfl | hq
    · exact hframe.links.law hlaw
    · exact hframe.links.law (h.arena q hq)
  busy q hq := by
    rw [hframe.links q]
    rcases List.mem_cons.mp (hperm.subset hq) with rfl | hq
    · exact hbusy
    · exact h.busy q hq

/-- An arena outside of the bins was written and goes into the bins. -/
theorem Holds.put (h : law.Holds heap bins live) {view : FastArena} {allocs : List Allocation}
    (hp : p ∉ law.held bins) (hpos : 0 < p) (hlt : p < 2 ^ 64) (hsuit : law.Suitable bins view)
    (hlaw : view.Law allocs) (hbusy : view.freed ≠ view.top) (hlinked : view.linked = false) :
    ∃ heap' bins', ops.release (Function.update heap p view) bins p = .ok (heap', bins') ∧
      BinsFrame law.held law.Suitable (Function.update heap p view) heap' bins bins' ∧
      (law.held bins').Perm (p :: law.held bins) ∧
      law.Holds heap' bins' (Function.update live p allocs) := by
  have hself : Function.update heap p view p = view := Function.update_self ..
  have hheld : law.Holds (Function.update heap p view) bins (Function.update live p allocs) :=
    h.congr fun q hq => by
      have hne : q ≠ p := ne_of_mem_of_not_mem hq hp
      rw [Function.update_of_ne hne, Function.update_of_ne hne]
      exact ⟨rfl, rfl⟩
  obtain ⟨heap', bins', hrelease, hframe, hwf, hperm⟩ := law.release hheld.wf hheld.busy hp hpos hlt
    (hself.symm ▸ hsuit) (hself.symm ▸ hlaw.shaped) (hself.symm ▸ hbusy) (hself.symm ▸ hlinked)
  refine ⟨heap', bins', hrelease, hframe, hperm, hheld.given hframe hwf hperm ?_ ?_⟩
  · rw [hself, Function.update_self]
    exact hlaw
  · rw [hself]
    exact hbusy

/-- An arena outside of the bins served a request with the block at `m` and went into the bins. -/
structure Served (law : BinsLaw ops) (heap heap' : Heap) (bins bins' : B)
    (live : Nat → List Allocation) (p m size : Nat) : Prop where
  holds : law.Holds heap' bins' (Function.update live p (⟨m, size⟩ :: live p))
  perm : (law.held bins').Perm (p :: law.held bins)
  nonnull : m ≠ 0
  acquire : ∃ view, (heap p).acquire size = .ok (m, view)
  top : (heap' p).top = (heap p).top + (heap p).requiredSpace size
  block : ∀ q, (heap q).SameBlock (heap' q)
  entry : ∀ q, (heap' q).retireReclaimEntry = (heap q).retireReclaimEntry
  others : ∀ q, q ≠ p → heap' q = { heap q with linked := (heap' q).linked }
  outside : ∀ q, q ∉ law.held bins → q ≠ p → heap' q = heap q
  suitable : law.Suitable bins' = law.Suitable bins

/-- **The end of `allocate`: an arena outside of the bins serves the request and goes into the
bins.** -/
theorem Holds.allocateFrom (h : law.Holds heap alloc.bins live) {fmt : String} {size m : Nat}
    (hp : p ∉ law.held alloc.bins) (hpos : 0 < p) (hlt : p < 2 ^ 64)
    (hsuit : law.Suitable alloc.bins (heap p)) (hlaw : (heap p).Law (live p))
    (hlinked : (heap p).linked = false) (hsize : 0 < size) (hsize64 : size < 2 ^ 64)
    (hbusy : (heap p).freed ≠ (heap p).top ∨ 0 < (heap p).requiredSpace size)
    (hok : alloc.allocateFrom ops.toBinsOps heap fmt p size = .ok (m, heap', alloc')) :
    alloc'.retiredArenas = alloc.retiredArenas ∧
      Served law heap heap' alloc.bins alloc'.bins live p m size ∧
      OnlyLinks (Function.update heap p
        { heap p with top := (heap p).top + (heap p).requiredSpace size }) heap' := by
  simp only [ArenaAllocator.allocateFrom, bind_eq_ok, Prod.exists, check_eq_ok, exists_const,
    pure_eq_ok, Prod.mk.injEq] at hok
  obtain ⟨m', view, hacq, hm, heap₁, bins₁, hrel, rfl, rfl, rfl⟩ := hok
  have hview := hlaw.acquire hsize hsize64 hacq hm
  obtain ⟨-, -, hveq⟩ := hlaw.acquire_eq_some hacq hm
  have hblock : (heap p).SameBlock view := by rw [hveq]; exact ⟨rfl, rfl, rfl, rfl⟩
  have hbusy' : view.freed ≠ view.top := by
    have hacc := hlaw.accounted
    rw [hveq]
    dsimp only
    omega
  obtain ⟨heap₂, bins₂, hrel', hframe, hperm, hholds⟩ := h.put hp hpos hlt
    (law.suitable_congr hblock hsuit) hview hbusy' (by rw [hveq]; exact hlinked)
  rw [hrel, Except.ok.injEq, Prod.mk.injEq] at hrel'
  obtain ⟨rfl, rfl⟩ := hrel'
  refine ⟨rfl, ⟨hholds, hperm, hm, ⟨view, hacq⟩, ?_, fun q => ?_, fun q => ?_, fun q hqp => ?_,
    fun q hq hqp => ?_, hframe.suitable⟩, hveq ▸ hframe.links⟩
  · rw [hframe.links p, Function.update_self, hveq]
  · have hsame := hframe.links.sameBlock q
    by_cases hqp : q = p
    · subst hqp
      rw [Function.update_self] at hsame
      exact hblock.trans hsame
    · rwa [Function.update_of_ne hqp] at hsame
  · rw [hframe.links q]
    by_cases hqp : q = p
    · subst hqp
      rw [Function.update_self, hveq]
    · rw [Function.update_of_ne hqp]
  · have hlink := hframe.links q
    rwa [Function.update_of_ne hqp] at hlink
  · have hq' : q ∉ law.held bins₁ := fun hmem => by
      rcases List.mem_cons.mp (hperm.subset hmem) with h | h
      · exact hqp h
      · exact hq h
    rw [hframe.outside q hq hq', Function.update_of_ne hqp]

/-- An arena outside of the bins that has room for a request serves it. -/
theorem Holds.allocateFrom_exists (h : law.Holds heap alloc.bins live) (fmt : String) {size : Nat}
    (hp : p ∉ law.held alloc.bins) (hpos : 0 < p) (hlt : p < 2 ^ 64)
    (hsuit : law.Suitable alloc.bins (heap p)) (hlaw : (heap p).Law (live p))
    (hlinked : (heap p).linked = false) (hsize : 0 < size) (hsize64 : size < 2 ^ 64)
    (hbusy : (heap p).freed ≠ (heap p).top ∨ 0 < (heap p).requiredSpace size)
    (hroom : (heap p).requiredSpace size ≤ (heap p).room) :
    ∃ m heap' alloc', alloc.allocateFrom ops.toBinsOps heap fmt p size =
      .ok (m, heap', alloc') := by
  have hroom' : (heap p).requiredSpace size ≤ (heap p).arenaMemorySize - (heap p).top := hroom
  have hmemory := hlaw.memory_pos
  have hm : (heap p).arenaMemory + (heap p).top ≠ 0 := by omega
  have hacquire : (heap p).acquire size = .ok ((heap p).arenaMemory + (heap p).top,
      { heap p with top := (heap p).top + (heap p).requiredSpace size }) := by
    rw [hlaw.acquire_eq hlaw.top_le, if_neg (not_lt.mpr hroom')]
  have hview := hlaw.acquire hsize hsize64 hacquire hm
  have hblock : (heap p).SameBlock
      { heap p with top := (heap p).top + (heap p).requiredSpace size } := ⟨rfl, rfl, rfl, rfl⟩
  have hbusy' : (heap p).freed ≠ (heap p).top + (heap p).requiredSpace size := by
    have hacc := hlaw.accounted
    omega
  obtain ⟨heap', bins', hrelease, -⟩ :=
    h.put hp hpos hlt (law.suitable_congr hblock hsuit) hview hbusy' hlinked
  refine ⟨(heap p).arenaMemory + (heap p).top, heap', { alloc with bins := bins' }, ?_⟩
  simp only [ArenaAllocator.allocateFrom, hacquire, ok_bind, check_of hm, hrelease]
  rfl

/-- An arena of the bins was freed into or reclaimed: it stays in the bins, or it was reset, taken
out and returned. -/
structure Settled (law : BinsLaw ops) (heap heap' : Heap) (bins bins' : B)
    (live' : Nat → List Allocation) (p r : Nat) (entry : RetireReclaimEntry) : Prop where
  holds : law.Holds heap' bins' live'
  others : ∀ q, q ≠ p → heap' q = { heap q with linked := (heap' q).linked }
  outside : ∀ q, q ∉ law.held bins → heap' q = heap q
  suitable : law.Suitable bins' = law.Suitable bins
  block : (heap p).SameBlock (heap' p)
  entry : (heap' p).retireReclaimEntry = entry
  result : (r = 0 ∧ (law.held bins').Perm (law.held bins) ∧ (heap' p).top = (heap p).top) ∨
    (r = p ∧ (p :: law.held bins').Perm (law.held bins) ∧ (heap' p).freed = 0 ∧ (heap' p).top = 0 ∧
      (heap' p).linked = false ∧ (heap' p).pending = 0 ∧ (heap p).liveBytes (live' p) = 0)

/-- The arena is written and then, as it is drained, taken out of the bins and reset. -/
theorem Holds.drain (h : law.Holds heap bins live) (hp : p ∈ law.held bins) {view : FastArena}
    {allocs : List Allocation} (hshape : (heap p).SameShape view) (hblock : (heap p).SameBlock view)
    (hlaw : view.Law allocs) (hfull : view.freed = view.top) :
    ∃ heap₁ bins' out, ops.extract (Function.update heap p view) bins p = .ok (heap₁, bins') ∧
      (heap₁ p).reset = .ok out ∧
      Settled law heap (Function.update heap₁ p out) bins bins' (Function.update live p allocs) p p
        view.retireReclaimEntry := by
  have hwf : law.WellFormed (Function.update heap p view) bins := law.congr h.wf fun q _ => by
    by_cases hqp : q = p
    · subst hqp
      rw [Function.update_self]
      exact ⟨hshape, hblock⟩
    · rw [Function.update_of_ne hqp]
      exact ⟨⟨rfl, rfl, rfl, rfl, rfl⟩, .refl _⟩
  obtain ⟨heap₁, bins', hext, hframe, hwf', hperm, hlinked⟩ := law.extract hwf hp
  have hnot : p ∉ law.held bins' :=
    (List.nodup_cons.mp (hperm.nodup_iff.mpr (law.nodup h.wf))).1
  have hview : heap₁ p = { view with linked := false } := by
    rw [hframe.links p, hlinked, Function.update_self]
  have hothers : ∀ q, q ≠ p → heap₁ q = { heap q with linked := (heap₁ q).linked } := by
    intro q hq
    have hlink := hframe.links q
    rwa [Function.update_of_ne hq] at hlink
  have hreset : (heap₁ p).reset = .ok { heap₁ p with top := 0, freed := 0 } :=
    FastArena.reset_eq_ok.mpr ⟨by rw [hview]; exact hfull, rfl⟩
  have hacc := hlaw.accounted
  refine ⟨heap₁, bins', _, hext, hreset, ?_, ?_, ?_, hframe.suitable, ?_, ?_, .inr ⟨rfl, hperm, ?_⟩⟩
  · refine ⟨law.congr hwf' fun q hq => ?_, fun q hq => ?_, fun q hq => ?_⟩
    all_goals have hqp : q ≠ p := ne_of_mem_of_not_mem hq hnot
    · rw [Function.update_of_ne hqp]
      exact ⟨⟨rfl, rfl, rfl, rfl, rfl⟩, .refl _⟩
    · rw [Function.update_of_ne hqp, Function.update_of_ne hqp, hothers q hqp]
      exact (h.arena q (hperm.subset (List.mem_cons_of_mem _ hq))).withLinked _
    · rw [Function.update_of_ne hqp, hothers q hqp]
      exact h.busy q (hperm.subset (List.mem_cons_of_mem _ hq))
  · intro q hq
    rw [Function.update_of_ne hq]
    exact hothers q hq
  · intro q hq
    have hqp : q ≠ p := (ne_of_mem_of_not_mem hp hq).symm
    have hq' : q ∉ law.held bins' := fun hmem => hq (hperm.subset (List.mem_cons_of_mem _ hmem))
    rw [Function.update_of_ne hqp, hframe.outside q hq hq', Function.update_of_ne hqp]
  · rw [Function.update_self, hview]
    exact ⟨hblock.header, hblock.size, hblock.alignment, hblock.memory⟩
  · rw [Function.update_self, hview]
  · rw [Function.update_self, Function.update_self, hview]
    refine ⟨rfl, rfl, rfl, ?_, ?_⟩
    · change view.pending = 0
      omega
    · have hbytes : (heap p).liveBytes allocs = view.liveBytes allocs := by
        simp only [FastArena.liveBytes, FastArena.requiredSpace, hblock.alignment]
      omega

/-- **The owner frees a live allocation: every check passes; the arena stays in the bins, or it was
drained and is returned.** -/
theorem Holds.deallocateFrom (h : law.Holds heap alloc.bins live) (hp : p ∈ law.held alloc.bins)
    {l : Allocation} (hl : l ∈ live p) (fmt : String) :
    ∃ r heap' alloc', alloc.deallocateFrom ops.toBinsOps heap fmt p l.memory l.size =
        .ok (r, heap', alloc') ∧ alloc'.retiredArenas = alloc.retiredArenas ∧
      Settled law heap heap' alloc.bins alloc'.bins (Function.update live p ((live p).erase l)) p r
        (heap p).retireReclaimEntry := by
  have hlaw := h.arena p hp
  have hrelease := hlaw.release_eq hl
  have hview := hlaw.release hl hrelease
  have htype : ArenaAllocator.hasType ops.toBinsOps heap p = true := by
    simp [ArenaAllocator.hasType, law.type (law.member h.wf hp).2.1]
  simp only [ArenaAllocator.deallocateFrom, check_of htype, hrelease, ok_bind]
  generalize hdef : ({ heap p with freed := _ } : FastArena) = view at hview ⊢
  have hshape : (heap p).SameShape view := by rw [← hdef]; exact ⟨rfl, rfl, rfl, rfl, rfl⟩
  have hblock : (heap p).SameBlock view := by rw [← hdef]; exact ⟨rfl, rfl, rfl, rfl⟩
  have hentry : view.retireReclaimEntry = (heap p).retireReclaimEntry := by rw [← hdef]
  by_cases hfull : view.freed = view.top
  · obtain ⟨heap₁, bins', out, hext, hreset, hsettled⟩ := h.drain hp hshape hblock hview hfull
    rw [hentry] at hsettled
    refine ⟨p, _, { alloc with bins := bins' }, ?_, rfl, hsettled⟩
    simp only [FastArena.resettable_eq_true.mpr hfull, Bool.not_true, Bool.false_eq_true, if_false,
      hext, hreset, ok_bind]
    rfl
  · have hnot : view.resettable = false := by
      rw [Bool.eq_false_iff, ne_eq, FastArena.resettable_eq_true]
      exact hfull
    refine ⟨0, Function.update heap p view, alloc, ?_, rfl, h.write hshape hblock hview hfull, ?_,
      ?_,
      rfl, ?_, ?_, .inl ⟨rfl, .refl _, by rw [Function.update_self, hshape.top]⟩⟩
    · simp only [hnot, Bool.not_false, if_true]
      rfl
    · intro q hq
      rw [Function.update_of_ne hq]
    · intro q hq
      rw [Function.update_of_ne (ne_of_mem_of_not_mem hp hq).symm]
    · rwa [Function.update_self]
    · rw [Function.update_self, hentry]

/-- Where the arena stays in the bins, only its freed bytes are counted. -/
theorem Holds.deallocateFrom_kept (h : law.Holds heap alloc.bins live)
    (hp : p ∈ law.held alloc.bins)
    {l : Allocation} (hl : l ∈ live p) {fmt : String}
    (hok : alloc.deallocateFrom ops.toBinsOps heap fmt p l.memory l.size = .ok (0, heap', alloc')) :
    heap' = Function.update heap p
      { heap p with freed := (heap p).freed + (heap p).requiredSpace l.size } := by
  have hp0 : p ≠ 0 := Nat.pos_iff_ne_zero.mp (law.member h.wf hp).1.1
  simp only [ArenaAllocator.deallocateFrom, (h.arena p hp).release_eq hl, bind_eq_ok, check_eq_ok,
    exists_const, ok_bind] at hok
  obtain ⟨-, hok⟩ := hok
  split_ifs at hok
  · simp only [pure_eq_ok, Prod.mk.injEq] at hok
    exact hok.2.1.symm
  · simp only [bind_eq_ok, pure_eq_ok, Prod.mk.injEq, Prod.exists] at hok
    obtain ⟨_, _, -, _, -, hp0', -⟩ := hok
    exact absurd hp0' hp0

/-- **The owner reclaims an arena with a pending count: every check passes; the arena goes back into
the bins, or it was drained and is returned.** -/
theorem Holds.reclaimArena (h : law.Holds heap alloc.bins live) (hp : p ∈ law.held alloc.bins)
    (hflag : (heap p).flagged) (hdvd : (heap p).arenaAlignment ∣ (heap p).pending) :
    ∃ r heap' alloc', alloc.reclaimArena ops.toBinsOps heap p = .ok (r, heap', alloc') ∧
      alloc'.retiredArenas = alloc.retiredArenas ∧
      (r = 0 ↔ (heap p).freed + (heap p).pending ≠ (heap p).top) ∧
      Settled law heap heap' alloc.bins alloc'.bins live p r
        { (heap p).retireReclaimEntry with head := 0 } := by
  have htype : ArenaAllocator.hasType ops.toBinsOps heap p = true := by
    simp [ArenaAllocator.hasType, law.type (law.member h.wf hp).2.1]
  obtain ⟨heap₁, bins₁, hext, hframe, hwf₁, hperm, hlinked⟩ := law.extract h.wf hp
  obtain ⟨hheld₁, -, hnot⟩ := h.taken hframe hwf₁ hperm
  have hview : heap₁ p = { heap p with linked := false } := by
    rw [hframe.links p, hlinked]
  have hlaw₁ : (heap₁ p).Law (live p) := hframe.links.law (h.arena p hp)
  have hok : (heap₁ p).reclaimAllocations = .ok
      { (heap₁ p).withHead 0 with freed := (heap₁ p).freed + (heap₁ p).pending } := by
    rw [hlaw₁.reclaimAllocations_eq_ok, hview]
    exact ⟨hflag, hdvd, rfl⟩
  have hlaw₂ := hlaw₁.reclaimAllocations hok
  have hothers : ∀ q, q ≠ p → heap₁ q = { heap q with linked := (heap₁ q).linked } :=
    fun q _ => hframe.links q
  have hpos : p ≠ 0 := Nat.pos_iff_ne_zero.mp (law.member h.wf hp).1.1
  simp only [ArenaAllocator.reclaimArena, check_of htype, hext, hok, ok_bind]
  generalize hdef : ({ (heap₁ p).withHead 0 with freed := _ } : FastArena) = view at hlaw₂ ⊢
  have hfreed : view.freed = (heap p).freed + (heap p).pending := by rw [← hdef, hview]; rfl
  have htop : view.top = (heap p).top := by rw [← hdef, hview]; rfl
  have hblock : (heap p).SameBlock view := by rw [← hdef, hview]; exact ⟨rfl, rfl, rfl, rfl⟩
  have hentry : view.retireReclaimEntry = { (heap p).retireReclaimEntry with head := 0 } := by
    rw [← hdef, hview]
    rfl
  have hviewLinked : view.linked = false := by rw [← hdef, hview]; rfl
  by_cases hfull : view.freed = view.top
  · have hres : view.resettable = true := FastArena.resettable_eq_true.mpr hfull
    have hreset : view.reset = .ok { view with top := 0, freed := 0 } :=
      FastArena.reset_eq_ok.mpr ⟨hfull, rfl⟩
    have hacc := hlaw₂.accounted
    refine ⟨p, Function.update heap₁ p { view with top := 0, freed := 0 },
      { alloc with bins := bins₁ }, ?_, rfl, ?_, ?_, ?_, ?_, hframe.suitable, ?_, ?_,
      .inr ⟨rfl, hperm, ?_⟩⟩
    · simp only [hres, if_true, hreset, ok_bind]
      rfl
    · constructor
      · exact fun h0 => absurd h0 hpos
      · intro hne
        omega
    · exact hheld₁.congr fun q hq => by
        rw [Function.update_of_ne (ne_of_mem_of_not_mem hq hnot)]
        exact ⟨rfl, rfl⟩
    · intro q hq
      rw [Function.update_of_ne hq]
      exact hothers q hq
    · intro q hq
      have hqp : q ≠ p := (ne_of_mem_of_not_mem hp hq).symm
      have hq' : q ∉ law.held bins₁ := fun hm => hq (hperm.subset (List.mem_cons_of_mem _ hm))
      rw [Function.update_of_ne hqp, hframe.outside q hq hq']
    · rw [Function.update_self]
      exact ⟨hblock.header, hblock.size, hblock.alignment, hblock.memory⟩
    · rw [Function.update_self]
      exact hentry
    · rw [Function.update_self]
      refine ⟨rfl, rfl, hviewLinked, ?_, ?_⟩
      · change view.pending = 0
        omega
      · have hbytes : (heap p).liveBytes (live p) = view.liveBytes (live p) := by
          simp only [FastArena.liveBytes, FastArena.requiredSpace, hblock.alignment]
        omega
  · have hnotRes : view.resettable = false := by
      rw [Bool.eq_false_iff, ne_eq, FastArena.resettable_eq_true]
      exact hfull
    obtain ⟨heap₂, bins₂, hrel, hframe₂, hperm₂, hholds₂⟩ := hheld₁.put hnot
      (law.member h.wf hp).1.1 (law.member h.wf hp).1.2
      (by
        rw [hframe.suitable]
        exact law.suitable_congr hblock (law.member h.wf hp).2.1)
      hlaw₂ hfull hviewLinked
    rw [Function.update_eq_self] at hholds₂
    refine ⟨0, heap₂, { alloc with bins := bins₂ }, ?_, rfl, ?_, hholds₂, ?_, ?_,
      hframe₂.suitable.trans hframe.suitable, ?_, ?_, .inl ⟨rfl, hperm₂.trans hperm, ?_⟩⟩
    · simp only [hnotRes, Bool.false_eq_true, if_false, hrel, ok_bind]
      rfl
    · exact ⟨fun _ => by omega, fun _ => rfl⟩
    · intro q hq
      have h₂ := hframe₂.links q
      rw [Function.update_of_ne hq, hothers q hq] at h₂
      exact h₂
    · intro q hq
      have hqp : q ≠ p := (ne_of_mem_of_not_mem hp hq).symm
      have hq₁ : q ∉ law.held bins₁ := fun hm => hq (hperm.subset (List.mem_cons_of_mem _ hm))
      have hq₂ : q ∉ law.held bins₂ := fun hm => hq (hperm.subset (hperm₂.subset hm))
      rw [hframe₂.outside q hq₁ hq₂, Function.update_of_ne hqp, hframe.outside q hq hq₁]
    · have hsame := hframe₂.links.sameBlock p
      rw [Function.update_self] at hsame
      exact hblock.trans hsame
    · rw [hframe₂.links p, Function.update_self]
      exact hentry
    · rw [hframe₂.links p, Function.update_self]
      exact htop

end BinsLaw

end Cuw3
