/-
  The retire-reclaim protocol of `FastArenaStepSplitAllocator`: one owner, and any threads that
  retire.
-/
import Cuw3.Arena.Equiv.AtomicSteps
import Cuw3.StepSplit.Equiv.Bins

namespace Cuw3.FastArenaStepSplitAllocator

open Lib RetiringArenas

variable {config : FastArenaBinsConfig} {alloc : FastArenaStepSplitAllocator}

/-- **No retired byte and no retired arena is lost, however the threads interleave.**  Of each arena
the retired bytes are the reclaimed ones and those that its word counts.  Its flag is set exactly
when it is in the list of the root, in the list that the owner walks or has put off, the arena that
the owner reclaims from, or owed a push by a thread; and never two of these.  The lists end, and no
arena is twice in them. -/
theorem reachable_retired_placed {T : Type} [DecidableEq T] {σ : Machine FastArenaBins T}
    (hcreate : (create config).Creates alloc)
    (hreach : RetiringArenas.Reachable ops FastArenaBins.held FastArenaBins.Suitable alloc σ) :
    σ.Protocol σ.shared.alloc.bins.held :=
  reachable_protocol (create_inv hcreate) hreach

/-- A fresh block serves a request of 96 bytes, and one of two threads frees it: it has raised the
flag, and owes the push. -/
theorem reachable_retired_placed_block : ∃ σ : Machine FastArenaBins Bool,
    σ.locals true = .ptrLoad 128 ∧ σ.shared.retiredBytes 128 = 96 ∧
      (σ.shared.heap 128).pending = 96 ∧ σ.Protocol σ.shared.alloc.bins.held := by
  have hfresh : ({ FastArena.block4096 0 with regionChunkHeader := 65 } : FastArena).Fresh :=
    ⟨⟨by decide, by decide, by decide, by decide, by decide, by decide⟩, rfl, rfl, rfl, rfl⟩
  have hsuit : sampleAlloc.bins.Suitable { FastArena.block4096 0 with regionChunkHeader := 65 } :=
    ⟨rfl, 0, by decide, rfl, by decide⟩
  have hcreate : (create ⟨0, 12, 12, 4, 4⟩).Creates sampleAlloc := rfl
  have hstep : RetiringArenas.Step ops FastArenaBins.held FastArenaBins.Suitable
      (⟨⟨fun _ => default, sampleAlloc, .idle, 0, 0, fun _ => [], fun _ => 0, fun _ => 0⟩,
        fun _ => .idle⟩ : Machine FastArenaBins Bool)
      (Machine.withShared _ ⟨_, _, .idle, 0, 0, _, _, _⟩) :=
    .owner (.allocateFresh (p := 128) rfl (by rw [create_held hcreate]; simp) (by decide) hfresh
      hsuit (show 96 ≤ 4096 by decide) rfl)
  have hreach := RetiringArenas.Reachable.step (.start fun _ => default) hstep
  have hreach := hreach.step (.retire true (p := 128) (l := ⟨4096, 96⟩) rfl List.mem_cons_self
    (show 16 ∣ 96 by decide) rfl)
  have hreach := hreach.step (.next true rfl)
  have hreach := hreach.step (.next true rfl)
  exact ⟨_, rfl, rfl, rfl, reachable_retired_placed hcreate hreach⟩

end Cuw3.FastArenaStepSplitAllocator
