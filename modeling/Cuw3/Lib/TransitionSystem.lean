/-
  Transition systems with labelled steps, what their runs show, and forward simulation.

  A property that the initial states have, and that steps keep (`Invariant`), holds in every state
  of every run (`Invariant.reaches`).  A system refines another one when each of its steps is a step
  of the other one with the translated label, or no step where the label is not translated
  (`Simulation`); then what is left of the labels of each of its runs are the labels of a run of the
  other one (`Simulation.reaches`).
-/
import Mathlib.Data.List.Basic

namespace Cuw3.Lib

structure TransitionSystem (S L : Type) where
  init : S → Prop
  step : S → L → S → Prop

namespace TransitionSystem

variable {S T L K : Type} {M : TransitionSystem S L}

inductive Run (M : TransitionSystem S L) : S → List L → S → Prop
  | nil (s : S) : Run M s [] s
  | cons {s s' s'' : S} {l : L} {ls : List L} (h : M.step s l s') (hrest : Run M s' ls s'') :
      Run M s (l :: ls) s''

/-- The labels of a run from an initial state to `s`. -/
def Reaches (M : TransitionSystem S L) (ls : List L) (s : S) : Prop :=
  ∃ s₀, M.init s₀ ∧ M.Run s₀ ls s

theorem Run.append {s s' s'' : S} {ls ls' : List L} (h : M.Run s ls s') (h' : M.Run s' ls' s'') :
    M.Run s (ls ++ ls') s'' := by
  induction h with
  | nil => exact h'
  | cons hstep _ ih => exact .cons hstep (ih h')

/-- One step more. -/
theorem Reaches.step {s s' : S} {l : L} {ls : List L} (h : M.Reaches ls s) (hstep : M.step s l s') :
    M.Reaches (ls ++ [l]) s' := by
  obtain ⟨s₀, hinit, hrun⟩ := h
  exact ⟨s₀, hinit, hrun.append (.cons hstep (.nil s'))⟩

/-! ### Restrictions -/

/-- The steps that `meets` allows. -/
def restrict (M : TransitionSystem S L) (meets : S → L → Prop) : TransitionSystem S L :=
  ⟨M.init, fun s l s' => meets s l ∧ M.step s l s'⟩

theorem Run.of_restrict {meets : S → L → Prop} {s s' : S} {ls : List L}
    (h : (M.restrict meets).Run s ls s') : M.Run s ls s' := by
  induction h with
  | nil => exact .nil _
  | cons hstep _ ih => exact .cons hstep.2 ih

theorem Reaches.of_restrict {meets : S → L → Prop} {s : S} {ls : List L}
    (h : (M.restrict meets).Reaches ls s) : M.Reaches ls s := by
  obtain ⟨s₀, hinit, hrun⟩ := h
  exact ⟨s₀, hinit, hrun.of_restrict⟩

/-! ### Invariants -/

/-- It holds in the initial states, and steps keep it. -/
structure Invariant (M : TransitionSystem S L) (I : S → Prop) : Prop where
  init : ∀ {s}, M.init s → I s
  step : ∀ {s l s'}, I s → M.step s l s' → I s'

theorem Invariant.run {I : S → Prop} (h : M.Invariant I) {s s' : S} {ls : List L} (hs : I s)
    (hrun : M.Run s ls s') : I s' := by
  induction hrun with
  | nil => exact hs
  | cons hstep _ ih => exact ih (h.step hs hstep)

theorem Invariant.reaches {I : S → Prop} (h : M.Invariant I) {s : S} {ls : List L}
    (hs : M.Reaches ls s) : I s := by
  obtain ⟨s₀, hinit, hrun⟩ := hs
  exact h.run (h.init hinit) hrun

/-! ### Simulation -/

/-- The abstract system follows the concrete one: it takes a step with the translated label, or
none. -/
structure Simulation (C : TransitionSystem S L) (A : TransitionSystem T K) (label : L → Option K)
    (R : S → T → Prop) : Prop where
  init : ∀ {s}, C.init s → ∃ t, A.init t ∧ R s t
  follow : ∀ {s l s' t k}, R s t → C.step s l s' → label l = some k → ∃ t', A.step t k t' ∧ R s' t'
  wait : ∀ {s l s' t}, R s t → C.step s l s' → label l = none → R s' t

variable {C : TransitionSystem S L} {A : TransitionSystem T K} {label : L → Option K}
  {R : S → T → Prop}

theorem Simulation.run (h : Simulation C A label R) {s s' : S} {t : T} {ls : List L} (hst : R s t)
    (hrun : C.Run s ls s') : ∃ t', A.Run t (ls.filterMap label) t' ∧ R s' t' := by
  induction hrun generalizing t with
  | nil => exact ⟨t, .nil t, hst⟩
  | @cons _ _ _ l ls hstep _ ih =>
    cases hlabel : label l with
    | none =>
      obtain ⟨t', hrun', hst'⟩ := ih (h.wait hst hstep hlabel)
      rw [List.filterMap_cons_none hlabel]
      exact ⟨t', hrun', hst'⟩
    | some k =>
      obtain ⟨t₁, hfollow, hst₁⟩ := h.follow hst hstep hlabel
      obtain ⟨t', hrun', hst'⟩ := ih hst₁
      rw [List.filterMap_cons_some hlabel]
      exact ⟨t', .cons hfollow hrun', hst'⟩

/-- **What a system shows, one that it refines shows, too.** -/
theorem Simulation.reaches (h : Simulation C A label R) {s : S} {ls : List L}
    (hs : C.Reaches ls s) : ∃ t, A.Reaches (ls.filterMap label) t ∧ R s t := by
  obtain ⟨s₀, hinit, hrun⟩ := hs
  obtain ⟨t₀, hinit', hst₀⟩ := h.init hinit
  obtain ⟨t, hrun', hst⟩ := h.run hst₀ hrun
  exact ⟨t, ⟨t₀, hinit', hrun'⟩, hst⟩

end TransitionSystem

end Cuw3.Lib
