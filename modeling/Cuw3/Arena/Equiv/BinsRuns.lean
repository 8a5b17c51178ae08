/-
  Runs of bins.

  A client of bins acquires, releases and extracts arenas, writes to the arenas that it has taken
  out, and frees bytes of the arenas that the bins hold.  It extracts a drained arena before it
  releases one again.  The bins stay well formed (`BinsLaw.binsReachable_wellFormed`).
-/
import Cuw3.Arena.Equiv.Allocator

namespace Cuw3

variable {B : Type}

/-- One operation of a client.  What a client releases is an arena in no list that it has taken out,
or a new one, of a kind that the bins take; an arena of the bins is written only where they do not
look. Neither it nor an arena of the bins is drained then, as `put_arena_` asserts. -/
inductive BinsStep (ops : AllocatorOps B) (held : B → List Nat) (Suitable : B → FastArena → Prop) :
    Heap × B → Heap × B → Prop
  | acquire {heap heap' : Heap} {bins bins' : B} {size alignment : Nat} {r : AcquiredResource}
      (hok : ops.acquire heap bins size alignment = .ok (r, heap', bins')) :
      BinsStep ops held Suitable (heap, bins) (heap', bins')
  | release {heap heap' : Heap} {bins bins' : B} {p : Nat} (hp : p ∉ held bins)
      (hpos : 0 < p) (hlt : p < 2 ^ 64) (hsuit : Suitable bins (heap p)) (hshaped : (heap p).Shaped)
      (hbusyHeld : ∀ q ∈ held bins, (heap q).freed ≠ (heap q).top)
      (hbusy : (heap p).freed ≠ (heap p).top) (hlinked : (heap p).linked = false)
      (hok : ops.release heap bins p = .ok (heap', bins')) :
      BinsStep ops held Suitable (heap, bins) (heap', bins')
  | extract {heap heap' : Heap} {bins bins' : B} {p : Nat} (hp : p ∈ held bins)
      (hok : ops.extract heap bins p = .ok (heap', bins')) :
      BinsStep ops held Suitable (heap, bins) (heap', bins')
  | write {heap heap' : Heap} {bins : B} (hsame : ∀ p ∈ held bins, (heap p).SameShape (heap' p) ∧
      (heap p).SameBlock (heap' p)) :
      BinsStep ops held Suitable (heap, bins) (heap', bins)

/-- The states that runs reach from bins that have just been created. -/
inductive BinsReachable (ops : AllocatorOps B) (held : B → List Nat)
    (Suitable : B → FastArena → Prop)
    (init : B) : Heap → B → Prop
  | init (heap : Heap) : BinsReachable ops held Suitable init heap init
  | step {heap heap' : Heap} {bins bins' : B} (h : BinsReachable ops held Suitable init heap bins)
      (hstep : BinsStep ops held Suitable (heap, bins) (heap', bins')) :
      BinsReachable ops held Suitable init heap' bins'

namespace BinsLaw

variable {ops : AllocatorOps B} (law : BinsLaw ops)

variable {law} {heap heap' : Heap} {bins bins' : B}

theorem WellFormed.step (h : law.WellFormed heap bins)
    (hstep : BinsStep ops law.held law.Suitable (heap, bins) (heap', bins')) :
    law.WellFormed heap' bins' := by
  cases hstep with
  | acquire hok =>
    obtain ⟨-, hwf, -⟩ := law.acquire h hok
    exact hwf
  | release hp hpos hlt hsuit hshaped hbusyHeld hbusy hlinked hok =>
    obtain ⟨heap₁, bins₁, hok₁, -, hwf, -⟩ :=
      law.release h hbusyHeld hp hpos hlt hsuit hshaped hbusy hlinked
    obtain ⟨rfl, rfl⟩ := Prod.mk.inj (Except.ok.inj (hok.symm.trans hok₁))
    exact hwf
  | extract hp hok =>
    obtain ⟨heap₁, bins₁, hok₁, -, hwf, -, -⟩ := law.extract h hp
    obtain ⟨rfl, rfl⟩ := Prod.mk.inj (Except.ok.inj (hok.symm.trans hok₁))
    exact hwf
  | write hsame => exact law.congr h hsame

variable (law) in
/-- **Bins stay well formed.** -/
theorem binsReachable_wellFormed {init : B} (hinit : ∀ heap, law.WellFormed heap init)
    (h : BinsReachable ops law.held law.Suitable init heap bins) : law.WellFormed heap bins := by
  induction h with
  | init heap => exact hinit heap
  | step _ hstep ih => exact WellFormed.step ih hstep

end BinsLaw

end Cuw3
