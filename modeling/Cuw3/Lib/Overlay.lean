/-
  A partial function that is defined on more blocks than another one.

  `Overlay base bs f`: `f` is `base` but for the blocks `bs`, in which it is defined.  The blocks
  are apart from each other and from what `base` is defined on.  A block can be added where `f` is
  not defined (`Overlay.add`), taken away again (`Overlay.remove`), and values may change where
  there are some (`Overlay.keep`).
-/
import Cuw3.Lib.Blocks

namespace Cuw3.Lib

/-- `f` is `base` with the blocks `bs` on top. -/
structure Overlay {α : Type} (base : Nat → Option α) (bs : List Block) (f : Nat → Option α) :
    Prop where
  apart : bs.Pairwise Block.Apart
  free : ∀ b ∈ bs, ∀ x, b.Has x → base x = none
  inside : ∀ b ∈ bs, ∀ x, b.Has x → f x ≠ none
  outside : ∀ x, (∀ b ∈ bs, ¬b.Has x) → f x = base x

namespace Overlay

variable {α : Type} {base f f' : Nat → Option α} {b : Block} {bs bs' : List Block}

theorem nil (base : Nat → Option α) : Overlay base [] base where
  apart := .nil
  free _ hb := absurd hb List.not_mem_nil
  inside _ hb := absurd hb List.not_mem_nil
  outside _ _ := rfl

/-- Without blocks there is only the base. -/
theorem eq_base (h : Overlay base [] f) : f = base := by
  ext1 x
  apply h.outside
  exact fun b hb => absurd hb List.not_mem_nil

/-- It is defined where the base is, and in the blocks. -/
theorem ne_none_iff (h : Overlay base bs f) (x : Nat) :
    f x ≠ none ↔ base x ≠ none ∨ ∃ b ∈ bs, b.Has x := by
  by_cases hin : ∃ b ∈ bs, b.Has x
  · obtain ⟨b, hb, hx⟩ := hin
    exact iff_of_true (h.inside b hb x hx) (.inr ⟨b, hb, hx⟩)
  · rw [h.outside x fun b hb hx => hin ⟨b, hb, hx⟩, or_iff_left hin]

theorem perm (h : Overlay base bs f) (hperm : bs.Perm bs') : Overlay base bs' f where
  apart := by
    refine hperm.pairwise h.apart fun hab x hb ha => ?_
    exact hab x ha hb
  free b hb := h.free b (hperm.mem_iff.mpr hb)
  inside b hb := h.inside b (hperm.mem_iff.mpr hb)
  outside x hx := h.outside x fun b hb => hx b (hperm.mem_iff.mp hb)

/-- A block where nothing is defined. -/
theorem add (h : Overlay base bs f) (hfree : ∀ x, b.Has x → f x = none)
    (hin : ∀ x, b.Has x → f' x ≠ none) (hout : ∀ x, ¬b.Has x → f' x = f x) :
    Overlay base (b :: bs) f' where
  apart := by
    refine List.pairwise_cons.mpr ⟨fun b' hb' x hx hx' => ?_, h.apart⟩
    exact h.inside b' hb' x hx' (hfree x hx)
  free := by
    rw [List.forall_mem_cons]
    refine ⟨fun x hx => ?_, h.free⟩
    rw [← h.outside x fun b' hb' hx' => h.inside b' hb' x hx' (hfree x hx)]
    exact hfree x hx
  inside := by
    rw [List.forall_mem_cons]
    refine ⟨hin, fun b' hb' x hx' => ?_⟩
    have hnot : ¬b.Has x := fun hx => h.inside b' hb' x hx' (hfree x hx)
    rw [hout x hnot]
    exact h.inside b' hb' x hx'
  outside x hx := by
    rw [List.forall_mem_cons] at hx
    rw [hout x hx.1]
    exact h.outside x hx.2

/-- Nothing is defined in the block any more. -/
theorem remove (h : Overlay base (b :: bs) f) (hin : ∀ x, b.Has x → f' x = none)
    (hout : ∀ x, ¬b.Has x → f' x = f x) : Overlay base bs f' := by
  obtain ⟨hapart, hrest⟩ := List.pairwise_cons.mp h.apart
  constructor
  case apart => exact hrest
  case free => exact fun b' hb' => h.free b' (List.mem_cons_of_mem b hb')
  case inside =>
    intro b' hb' x hx'
    rw [hout x fun hx => hapart b' hb' x hx hx']
    exact h.inside b' (List.mem_cons_of_mem b hb') x hx'
  case outside =>
    intro x hx
    by_cases hb : b.Has x
    · rw [hin x hb, h.free b List.mem_cons_self x hb]
    · rw [hout x hb]
      apply h.outside
      rw [List.forall_mem_cons]
      exact ⟨hb, hx⟩

/-- Other values, in the blocks and where there were some. -/
theorem keep (h : Overlay base bs f) (hnone : ∀ x, f' x = none ↔ f x = none)
    (hout : ∀ x, (∀ b ∈ bs, ¬b.Has x) → f' x = f x) : Overlay base bs f' where
  apart := h.apart
  free := h.free
  inside b hb x hx := by
    rw [ne_eq, hnone]
    exact h.inside b hb x hx
  outside x hx := (hout x hx).trans (h.outside x hx)

end Overlay

end Cuw3.Lib
