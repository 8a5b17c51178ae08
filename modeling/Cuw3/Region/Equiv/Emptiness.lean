/-
  `allocate_chunk` reports that a region is empty, not that it is contended.

  A round that counts has visited every split: it found its list empty, and later its stack used up.
  A chunk that was in neither when the call looked was with some thread, and a chunk that left the
  stack in between went to one (`Step.of_stack`).  So between the start and the end of the round
  every chunk of the region was with a thread at some time (`Missed`), and a call that is allowed
  so many rounds returns no chunk only after as many of them (`returns_none_missed`).
-/
import Cuw3.Region.Equiv.Progress

namespace Cuw3.RegionChunkAllocator

open Lib SharedPools

/-! ### What a call has seen -/

section Seen

variable {T : Type}

/-- Between two states of the run, the handle was with a thread. -/
def Seen (run : Nat → Machine T) (i j handle : Nat) : Prop :=
  ∃ k, i ≤ k ∧ k ≤ j ∧ ∃ u, handle ∈ ((run k).locals u).handles

/-- Between the two states, every chunk of the region was with a thread at some time. -/
def Missed (alloc : RegionChunkAllocator) (run : Nat → Machine T) (region i j : Nat) : Prop :=
  ∀ chunk < (alloc.specs.regionSpec region).numHandles,
    Seen run i j ((alloc.specs.regionSpec region).handleOffset + chunk)

/-- Up to the state `n`, this has happened so many times, one after the other. -/
def MissedRounds (alloc : RegionChunkAllocator) (run : Nat → Machine T) (region : Nat) :
    Nat → Nat → Prop
  | 0, _ => True
  | rounds + 1, n => ∃ i j, MissedRounds alloc run region rounds i ∧ i ≤ j ∧ j ≤ n ∧
      Missed alloc run region i j

/-- The call is at the start of a round, in the state `n`. -/
structure Counted (alloc : RegionChunkAllocator) (run : Nat → Machine T) (region : Nat)
    (params : RegionChunkAllocParams) (n : Nat) (call : AllocateCall) : Prop where
  region_eq : call.region = region
  params_eq : call.params = params
  unlimited : params.rounds < 0 → call.rounds < 0
  limited : 0 ≤ params.rounds → 0 ≤ call.rounds ∧ call.rounds ≤ params.rounds ∧
    MissedRounds alloc run region (params.rounds - call.rounds).toNat n

/-- The split that the call visits after `k` others. -/
def splitAt (alloc : RegionChunkAllocator) (params : RegionChunkAllocParams) (k : Nat) : Nat :=
  visit alloc.pools.numSplits (visit alloc.pools.numSplits params.splitStart 0 1) params.splitStep k

/-- The call has begun a round in the state `b`, and goes on in the state `n`. -/
structure Visits (alloc : RegionChunkAllocator) (run : Nat → Machine T) (region : Nat)
    (params : RegionChunkAllocParams) (b n : Nat) (call : AllocateCall) : Prop
    extends Counted alloc run region params b call where
  le : b ≤ n
  rounds_ne : call.rounds ≠ 0
  split_eq : call.split = splitAt alloc params call.k
  seen : call.chunkSeen = false → ∀ k < call.k, ∀ handle,
    alloc.InSplit region (splitAt alloc params k) handle → Seen run b n handle

/-- What the thread knows in the state `n`. -/
def Pc.Knows (alloc : RegionChunkAllocator) (run : Nat → Machine T) (region : Nat)
    (params : RegionChunkAllocParams) (n : Nat) : Pc → Prop
  | .round call => Counted alloc run region params n call
  | .popLoad call => ∃ b, Visits alloc run region params b n call
  | .popNext call _ _ => ∃ b, Visits alloc run region params b n call
  | .popSwap call _ _ _ => ∃ b, Visits alloc run region params b n call
  | .bumpLoad call => ∃ b, Visits alloc run region params b n call ∧
      ∀ handle, alloc.InSplit region call.split handle →
        Seen run b n handle ∨ At (run n) handle .stack
  | .bumpAdd call => ∃ b, Visits alloc run region params b n call ∧
      ∀ handle, alloc.InSplit region call.split handle →
        Seen run b n handle ∨ At (run n) handle .stack
  | .bumpSub call => ∃ b, Visits alloc run region params b n call ∧
      ∀ handle, alloc.InSplit region call.split handle → Seen run b n handle
  | _ => False

variable {alloc : RegionChunkAllocator} {run : Nat → Machine T} {region b i j j' n n' handle : Nat}
  {params : RegionChunkAllocParams} {call : AllocateCall} {pc : Pc}

theorem Seen.mono (h : Seen run i j handle) (hle : j ≤ j') : Seen run i j' handle := by
  obtain ⟨k, hik, hkj, hu⟩ := h
  exact ⟨k, hik, hkj.trans hle, hu⟩

theorem MissedRounds.mono {rounds : Nat} (h : MissedRounds alloc run region rounds n)
    (hle : n ≤ n') : MissedRounds alloc run region rounds n' := by
  cases rounds with
  | zero => trivial
  | succ rounds =>
    obtain ⟨i, j, hrounds, hij, hjn, hmissed⟩ := h
    exact ⟨i, j, hrounds, hij, hjn.trans hle, hmissed⟩

theorem Counted.mono (h : Counted alloc run region params n call) (hle : n ≤ n') :
    Counted alloc run region params n' call where
  region_eq := h.region_eq
  params_eq := h.params_eq
  unlimited := h.unlimited
  limited hnonneg := by
    obtain ⟨hlo, hhi, hrounds⟩ := h.limited hnonneg
    exact ⟨hlo, hhi, hrounds.mono hle⟩

theorem Visits.mono (h : Visits alloc run region params b n call) (hle : n ≤ n') :
    Visits alloc run region params b n' call where
  toCounted := h.toCounted
  le := h.le.trans hle
  rounds_ne := h.rounds_ne
  split_eq := h.split_eq
  seen hseen k hk handle hin := (h.seen hseen k hk handle hin).mono hle

/-- While others move, what the thread knows stays true. -/
theorem Pc.Knows.succ (h : pc.Knows alloc run region params n)
    (hstack : ∀ handle, At (run n) handle .stack → At (run (n + 1)) handle .stack ∨
      ∃ u, handle ∈ ((run (n + 1)).locals u).handles) :
    pc.Knows alloc run region params (n + 1) := by
  have hwait : ∀ {b handle}, b ≤ n → Seen run b n handle ∨ At (run n) handle .stack →
      Seen run b (n + 1) handle ∨ At (run (n + 1)) handle .stack := by
    intro b handle hb h
    rcases h with hseen | hat
    · exact .inl (hseen.mono (Nat.le_succ n))
    · rcases hstack handle hat with hat | hu
      · exact .inr hat
      · exact .inl ⟨n + 1, hb.trans (Nat.le_succ n), le_rfl, hu⟩
  cases pc with
  | round call => exact Counted.mono h (Nat.le_succ n)
  | popLoad call =>
    obtain ⟨b, hb⟩ := h
    exact ⟨b, hb.mono (Nat.le_succ n)⟩
  | popNext call head attempts =>
    obtain ⟨b, hb⟩ := h
    exact ⟨b, hb.mono (Nat.le_succ n)⟩
  | popSwap call head attempts next =>
    obtain ⟨b, hb⟩ := h
    exact ⟨b, hb.mono (Nat.le_succ n)⟩
  | bumpLoad call =>
    obtain ⟨b, hb, hempty⟩ := h
    exact ⟨b, hb.mono (Nat.le_succ n), fun handle hin => hwait hb.le (hempty handle hin)⟩
  | bumpAdd call =>
    obtain ⟨b, hb, hempty⟩ := h
    exact ⟨b, hb.mono (Nat.le_succ n), fun handle hin => hwait hb.le (hempty handle hin)⟩
  | bumpSub call =>
    obtain ⟨b, hb, hempty⟩ := h
    exact ⟨b, hb.mono (Nat.le_succ n), fun handle hin =>
      (hempty handle hin).mono (Nat.le_succ n)⟩
  | _ => exact h.elim

end Seen

/-! ### Handles that leave the stack -/

variable {T : Type} {alloc : RegionChunkAllocator} {pools pools' : SharedPools}
  {g : Custody T} {worker worker' : Worker} {call : AllocateCall}
  {held : List RegionChunkAllocation} {r s r' s' handle : Nat} {t : T} {σ σ' : Machine T}

theorem freeStack_updateHead {freeList : RegionChunkPoolListHead} :
    ((pools.updateHead r s freeList).entry r' s').freeStack = (pools.entry r' s').freeStack := by
  by_cases heq : r' = r ∧ s' = s
  · rw [heq.1, heq.2, entry_updateHead_self]
  · rw [entry_updateHead_of_ne heq]

/-- The steps that use no stack. -/
theorem Worker.next_freeStack (hok : worker.next pools = .ok (pools', worker'))
    (hadd : ∀ call, worker.pc ≠ .bumpAdd call) (hsub : ∀ call, worker.pc ≠ .bumpSub call) :
    SameLayout pools.alloc pools'.alloc ∧
      ∀ r s, (pools'.entry r s).freeStack = (pools.entry r s).freeStack := by
  have hsame : SameLayout pools.alloc pools.alloc ∧
      ∀ r s, (pools.entry r s).freeStack = (pools.entry r s).freeStack :=
    ⟨.refl _, fun _ _ => rfl⟩
  obtain ⟨pc, held⟩ := worker
  cases pc with
  | idle =>
    cases hok
    exact hsame
  | round call =>
    simp only [Worker.next, bind_eq_ok, pure_eq_ok, Prod.mk.injEq] at hok
    obtain ⟨worker, -, rfl, rfl⟩ := hok
    exact hsame
  | popLoad call =>
    simp only [Worker.next, bind_eq_ok, pure_eq_ok, Prod.mk.injEq] at hok
    obtain ⟨worker, -, rfl, rfl⟩ := hok
    exact hsame
  | popNext call head attempts =>
    simp only [Worker.next, bind_eq_ok, pure_eq_ok, Prod.mk.injEq] at hok
    obtain ⟨next, -, rfl, rfl⟩ := hok
    exact hsame
  | popSwap call head attempts next =>
    simp only [Worker.next] at hok
    split_ifs at hok
    · simp only [bind_eq_ok, pure_eq_ok, Prod.mk.injEq] at hok
      obtain ⟨worker, -, rfl, rfl⟩ := hok
      exact ⟨undisturbed_updateHead.same, fun _ _ => freeStack_updateHead⟩
    · simp only [bind_eq_ok, pure_eq_ok, Prod.mk.injEq] at hok
      obtain ⟨worker, -, rfl, rfl⟩ := hok
      exact hsame
  | bumpLoad call =>
    simp only [Worker.next] at hok
    split_ifs at hok
    · simp only [bind_eq_ok, pure_eq_ok, Prod.mk.injEq] at hok
      obtain ⟨worker, -, rfl, rfl⟩ := hok
      exact hsame
    · cases hok
      exact hsame
  | bumpAdd call => exact absurd rfl (hadd call)
  | bumpSub call => exact absurd rfl (hsub call)
  | pushLoad chunk =>
    cases hok
    exact hsame
  | pushNext chunk head =>
    simp only [Worker.next, bind_eq_ok, pure_eq_ok, Prod.mk.injEq] at hok
    obtain ⟨pools', hok, rfl, rfl⟩ := hok
    have hu := undisturbed_setNext hok
    obtain rfl := setNext_spec hok
    exact ⟨hu.same, fun _ _ => rfl⟩
  | pushSwap chunk head =>
    simp only [Worker.next] at hok
    split_ifs at hok
    · cases hok
      exact ⟨undisturbed_updateHead.same, fun _ _ => freeStack_updateHead⟩
    · cases hok
      exact hsame

/-- A handle of a split with an empty list is on the stack, or with a thread. -/
theorem Guarded.stack_or_thread (hσ : Guarded alloc σ) (hin : alloc.InSplit r s handle)
    (hempty : (σ.shared.entry r s).freeList.next = regionChunkPoolNullLink) :
    At σ handle .stack ∨ ∃ u, handle ∈ (σ.locals u).handles := by
  have hex := hσ.exclusive
  obtain ⟨g, hp, hw⟩ := hσ
  have hin' : σ.shared.alloc.InSplit r s handle := hp.same.inSplit.mpr hin
  obtain ⟨place, hplace, -⟩ := hex.place handle (hin'.lt_numHandles hp.layout)
  cases place with
  | stack => exact .inl hplace
  | thread u => exact .inr ⟨u, hplace⟩
  | list =>
    obtain ⟨r', s', hin'', ps, hps, hmem⟩ := hplace
    obtain ⟨rfl, rfl⟩ := hin''.unique hin' hp.layout
    rw [FreeList, hempty, Linked.null_iff] at hps
    rw [hps] at hmem
    exact absurd hmem List.not_mem_nil

/-- **A handle that leaves the stack goes to a thread.** -/
theorem Guarded.of_stack [DecidableEq T] (hσ : Guarded alloc σ) (hstep : Step σ σ')
    (h : At σ handle .stack) :
    At σ' handle .stack ∨ ∃ u, handle ∈ (σ'.locals u).handles := by
  obtain ⟨g, hp, hw⟩ := hσ
  obtain ⟨r, s, hin, hle⟩ := h
  have hlast : handle < (σ.shared.entry r s).lastHandle := hin.lt_last
  have hmax : (σ.shared.entry r s).lastHandle ≤ 2 ^ 31 :=
    hp.layout.last_le hin.region_lt hin.split_lt
  cases hstep with
  | allocate t region params hidle => exact .inl ⟨r, s, hin, hle⟩
  | deallocate t chunk worker hidle hheld hok => exact .inl ⟨r, s, hin, hle⟩
  | deallocatePtr t chunk ptr worker hidle hheld hptr hok => exact .inl ⟨r, s, hin, hle⟩
  | pass t u chunk hne hheld => exact .inl ⟨r, s, hin, hle⟩
  | next t pools worker hpaced hok =>
    have hstore : ∀ {r' s' top}, (r' = r ∧ s' = s → top ≤ handle) →
        At (σ.set t (σ.shared.storeTop r' s' top) worker) handle .stack := by
      intro r' s' top htop
      refine ⟨r, s, undisturbed_storeTop.same.inSplit.mpr hin, ?_⟩
      by_cases heq : r = r' ∧ s = s'
      · obtain ⟨rfl, rfl⟩ := heq
        rw [Threads.set_shared, entry_storeTop_self]
        exact htop ⟨rfl, rfl⟩
      · rw [Threads.set_shared, entry_storeTop_of_ne heq]
        exact hle
    have ht := hw t
    rcases hlocal : σ.locals t with ⟨pc, held⟩
    rw [hlocal] at ht hok
    by_cases hadd : ∃ call, pc = .bumpAdd call
    · obtain ⟨call, rfl⟩ := hadd
      have hcall : InCall σ.shared.alloc call := ht.pc
      simp only [Worker.next] at hok
      split_ifs at hok with hlt
      · simp only [bind_eq_ok, pure_eq_ok, Prod.mk.injEq] at hok
        obtain ⟨worker, hok, rfl, rfl⟩ := hok
        obtain ⟨hinSplit, -, -⟩ := hp.bump hcall.region_lt hcall.split_lt hlt t
        by_cases heq : handle = (σ.shared.entry call.region call.split).freeStack
        · -- the call returns the handle
          obtain ⟨chunk, -, hchunk, rfl⟩ := finishStack_returns hp.layout hinSplit hok
          refine .inr ⟨t, ?_⟩
          rw [Threads.set_locals_self, heq, ← hchunk]
          exact List.mem_cons_self
        · refine .inl (hstore ?_)
          rintro ⟨rfl, rfl⟩
          rw [u32_of_lt (by omega)]
          omega
      · cases hok
        refine .inl (hstore ?_)
        rintro ⟨rfl, rfl⟩
        exact absurd (hle.trans_lt hlast) hlt
    · by_cases hsub : ∃ call, pc = .bumpSub call
      · obtain ⟨call, rfl⟩ := hsub
        simp only [Worker.next, bind_eq_ok, pure_eq_ok, Prod.mk.injEq] at hok
        obtain ⟨worker, hok, rfl, rfl⟩ := hok
        refine .inl (hstore ?_)
        rintro ⟨rfl, rfl⟩
        -- with a thread over the top, nothing is left on the stack
        have hmem := (ht.overTop call.region call.split).mpr ⟨call, rfl, rfl, rfl⟩
        obtain ⟨bumped, -, -, htop, hover, -⟩ :=
          (hp.split _ hin.region_lt _ hin.split_lt).stack
        have hbumped := hover (Finset.card_ne_zero_of_mem hmem)
        omega
      · obtain ⟨hsame, hfree⟩ := Worker.next_freeStack hok (fun call h => hadd ⟨call, h⟩)
          fun call h => hsub ⟨call, h⟩
        refine .inl ⟨r, s, hsame.inSplit.mpr hin, ?_⟩
        rw [Threads.set_shared, hfree]
        exact hle

/-! ### The rounds of a call -/

variable {run : Nat → Machine T} {region b m n : Nat} {params : RegionChunkAllocParams}
  {alloc' : RegionChunkAllocator} {attempts : Int} {head : LoadedHead}

/-- The splits that a call with an odd step visits are all splits. -/
theorem Layout.exists_splitAt (hl : alloc.Layout) (hodd : params.splitStep % 2 = 1)
    (hs : s < alloc.pools.numSplits) :
    ∃ k < alloc.pools.numSplits, splitAt alloc params k = s := by
  obtain ⟨j, hj, hsplits⟩ := isAlignment_iff.mp hl.pools.numSplits_pow2
  unfold splitAt
  rw [hsplits] at hs ⊢
  exact exists_visit_two_pow hodd _ hs

/-- A round in which every chunk of every split was seen is a missed one. -/
theorem Layout.missed (hl : alloc.Layout) (hodd : params.splitStep % 2 = 1)
    (hr : region < alloc.specs.numRegions)
    (hseen : ∀ k < alloc.pools.numSplits, ∀ handle,
      alloc.InSplit region (splitAt alloc params k) handle → Seen run b n handle) :
    Missed alloc run region b n := by
  intro chunk hchunk
  obtain ⟨s, hs, hfirst, hlast⟩ := hl.pools.exists_split hr (Nat.le_add_right _ chunk)
    (Nat.add_lt_add_left hchunk _)
  obtain ⟨k, hk, hvisit⟩ := hl.exists_splitAt hodd hs
  subst hvisit
  exact hseen k hk _ ⟨hr, hs, hfirst, hlast⟩

/-- The loop of `allocate_chunk_` goes on to the next split, or it ends. -/
theorem trySplit_knows (hl : alloc.Layout) (hsame : SameLayout alloc alloc')
    (hr : region < alloc.specs.numRegions) (hodd : params.splitStep % 2 = 1)
    (h : Visits alloc run region params b m call)
    (hok : trySplit alloc' call held = .ok worker) :
    worker.held = held ∧ worker.pc.Knows alloc run region params m := by
  unfold trySplit at hok
  by_cases hk : call.k < alloc'.pools.numSplits
  · simp only [if_pos hk, bind_eq_ok, check_eq_ok, pure_eq_ok] at hok
    obtain ⟨-, -, -, -, rfl⟩ := hok
    exact ⟨rfl, b, h⟩
  · rw [if_neg hk] at hok
    cases hok
    cases hseen : call.chunkSeen with
    | true => exact ⟨rfl, h.toCounted.mono h.le⟩
    | false =>
      -- every split has been visited
      have hmissed : Missed alloc run region b m := by
        refine hl.missed hodd hr fun k hlt handle hin => h.seen hseen k ?_ handle hin
        rw [hsame.numSplits] at hk
        omega
      refine ⟨rfl, ?_⟩
      show Counted alloc run region params m { call with rounds := countDown call.rounds }
      refine ⟨h.region_eq, h.params_eq, fun hneg => ?_, fun hnonneg => ?_⟩
      · have hlt := h.unlimited hneg
        show countDown call.rounds < 0
        unfold countDown
        rw [if_neg (by omega)]
        omega
      · obtain ⟨hlo, hhi, hrounds⟩ := h.limited hnonneg
        have hne := h.rounds_ne
        have hcount : countDown call.rounds = call.rounds - 1 := by
          unfold countDown
          rw [if_pos (by omega)]
        show 0 ≤ countDown call.rounds ∧ countDown call.rounds ≤ params.rounds ∧
          MissedRounds alloc run region (params.rounds - countDown call.rounds).toNat m
        have hsucc : (params.rounds - (call.rounds - 1)).toNat =
            (params.rounds - call.rounds).toNat + 1 := by omega
        rw [hcount, hsucc]
        exact ⟨by omega, by omega, b, m, hrounds, h.le, le_rfl, hmissed⟩

/-- Each chunk of the split was seen, or a `pop` was lost. -/
theorem tryNextSplit_knows (hl : alloc.Layout) (hsame : SameLayout alloc alloc')
    (hr : region < alloc.specs.numRegions) (hodd : params.splitStep % 2 = 1)
    (h : Visits alloc run region params b m call)
    (hseen : call.chunkSeen = false →
      ∀ handle, alloc.InSplit region call.split handle → Seen run b m handle)
    (hok : tryNextSplit alloc' call held = .ok worker) :
    worker.held = held ∧ worker.pc.Knows alloc run region params m := by
  have hstep : call.params.splitStep = params.splitStep := by rw [h.params_eq]
  rw [tryNextSplit, (hsame.layout hl).nextSplit_eq _ (.inr (hstep ▸ hodd)), ok_bind] at hok
  refine trySplit_knows hl hsame hr hodd (b := b) (m := m) ?_ hok
  refine ⟨⟨h.region_eq, h.params_eq, h.unlimited, h.limited⟩, h.le, h.rounds_ne, ?_, ?_⟩
  · show visit alloc'.pools.numSplits call.split call.params.splitStep 1 = _
    rw [hsame.numSplits, hstep, h.split_eq]
    exact visit_visit _ _ _ _
  · intro hunseen k hk handle hin
    rcases Nat.lt_succ_iff_lt_or_eq.mp hk with hlt | rfl
    · exact h.seen hunseen k hlt handle hin
    · rw [← h.split_eq] at hin
      exact hseen hunseen handle hin

theorem finishStack_knows (hl : alloc.Layout) (hsame : SameLayout alloc alloc')
    (hr : region < alloc.specs.numRegions) (hodd : params.splitStep % 2 = 1)
    (h : Visits alloc run region params b m call)
    (hseen : ∀ handle, alloc.InSplit region call.split handle → Seen run b m handle)
    (hok : finishStack alloc' call held regionChunkPoolNullLink = .ok worker) :
    worker.held = held ∧ worker.pc.Knows alloc run region params m := by
  rw [finishStack, if_neg (not_lt_of_null (hsame.layout hl))] at hok
  exact tryNextSplit_knows hl hsame hr hodd h (fun _ => hseen) hok

/-- The head of the loop of `pop`. -/
theorem popTurn_knows (hl : alloc.Layout) (hsame : SameLayout alloc alloc')
    (hr : region < alloc.specs.numRegions) (hodd : params.splitStep % 2 = 1)
    (h : Visits alloc run region params b m call)
    (hempty : head.next = regionChunkPoolNullLink →
      ∀ handle, alloc.InSplit region call.split handle →
        Seen run b m handle ∨ At (run m) handle .stack)
    (hok : popTurn alloc' call held head attempts = .ok worker) :
    worker.held = held ∧ worker.pc.Knows alloc run region params m := by
  have hl' := hsame.layout hl
  have hmax := hl'.specs.handles_le
  unfold popTurn at hok
  split_ifs at hok with hattempts hnull
  · -- contention: the round will not count
    have hlt : ¬regionChunkPoolFailedAlloc < alloc'.specs.numHandles := by
      rw [regionChunkPoolFailedAlloc]
      omega
    rw [finishList, if_neg hlt,
      if_pos (show regionChunkPoolFailedAlloc = regionChunkAllocatorFailedValue from rfl)] at hok
    have hseen : Visits alloc run region params b m { call with chunkSeen := true } :=
      ⟨⟨h.region_eq, h.params_eq, h.unlimited, h.limited⟩, h.le, h.rounds_ne, h.split_eq,
        fun hfalse => by cases hfalse⟩
    exact tryNextSplit_knows hl hsame hr hodd hseen (fun hfalse => by cases hfalse) hok
  · rw [finishList, if_neg (not_lt_of_null hl'), if_neg (by decide),
      if_pos (show regionChunkPoolNullLink = regionChunkAllocatorNullValue from rfl)] at hok
    simp only [bind_eq_ok, check_eq_ok, pure_eq_ok] at hok
    obtain ⟨-, -, -, -, rfl⟩ := hok
    exact ⟨rfl, b, h, hempty hnull⟩
  · cases hok
    exact ⟨rfl, b, h⟩

/-- A round begins, or the rounds are over. -/
theorem startRound_knows (hl : alloc.Layout) (hsame : SameLayout alloc alloc')
    (hr : region < alloc.specs.numRegions) (hodd : params.splitStep % 2 = 1)
    (h : Counted alloc run region params m call)
    (hok : startRound alloc' call held = .ok worker) :
    (call.rounds = 0 ∧ worker = ⟨.idle, held⟩) ∨
      (worker.held = held ∧ worker.pc.Knows alloc run region params m) := by
  unfold startRound at hok
  split_ifs at hok with hrounds
  · cases hok
    exact .inl ⟨hrounds, rfl⟩
  · have hstart : call.params.splitStart = params.splitStart := by rw [h.params_eq]
    rw [(hsame.layout hl).nextSplit_eq _ (.inl rfl)] at hok
    simp only [bind_eq_ok, ok_bind] at hok
    obtain ⟨-, -, hok⟩ := hok
    refine .inr (trySplit_knows hl hsame hr hodd (b := m) (m := m) ?_ hok)
    refine ⟨⟨h.region_eq, h.params_eq, h.unlimited, h.limited⟩, le_rfl, hrounds, ?_,
      fun _ k hk => absurd hk k.not_lt_zero⟩
    show visit alloc'.pools.numSplits call.params.splitStart 0 1 = splitAt alloc params 0
    unfold splitAt
    rw [visit_zero (visit_lt hl.pools.numSplits_pos _ _ _), hsame.numSplits, hstart]

/-- The stack of a split is used up: its handles are not on it. -/
theorem Guarded.not_stack (hσ : Guarded alloc σ) (hin : alloc.InSplit r s handle)
    (hle : (σ.shared.entry r s).lastHandle ≤ (σ.shared.entry r s).freeStack) :
    ¬At σ handle .stack := by
  obtain ⟨g, hp, -⟩ := hσ
  have hin' : σ.shared.alloc.InSplit r s handle := hp.same.inSplit.mpr hin
  have hlast : handle < (σ.shared.entry r s).lastHandle := hin'.lt_last
  rintro ⟨r', s', hin'', htop⟩
  obtain ⟨rfl, rfl⟩ := hin''.unique hin' hp.layout
  omega

/-- **One access of the call**: it returns no chunk when its rounds are over, it returns a chunk, or
it goes on. -/
theorem Pc.Knows.next (hl : alloc.Layout) (hodd : params.splitStep % 2 = 1)
    (hr : region < alloc.specs.numRegions) {pc : Pc}
    (h : pc.Knows alloc run region params n) (hσ : Guarded alloc (run n))
    (hlocal : (run n).locals t = ⟨pc, held⟩)
    (hstack : ∀ handle, At (run n) handle .stack → At (run (n + 1)) handle .stack ∨
      ∃ u, handle ∈ ((run (n + 1)).locals u).handles)
    (hok : Worker.next (run n).shared ⟨pc, held⟩ = .ok (pools, worker)) :
    (∃ call, pc = .round call ∧ call.rounds = 0 ∧ worker = ⟨.idle, held⟩) ∨
      (∃ chunk, worker = ⟨.idle, chunk :: held⟩) ∨
        (worker.held = held ∧ worker.pc.Knows alloc run region params (n + 1)) := by
  have hempty : ∀ {b split}, b ≤ n →
      ((run n).shared.entry region split).freeList.next = regionChunkPoolNullLink →
        ∀ handle, alloc.InSplit region split handle →
          Seen run b (n + 1) handle ∨ At (run (n + 1)) handle .stack := by
    intro b split hb hnull handle hin
    rcases hσ.stack_or_thread hin hnull with hat | hu
    · rcases hstack handle hat with hat | hu
      · exact .inr hat
      · exact .inl ⟨n + 1, hb.trans (Nat.le_succ n), le_rfl, hu⟩
    · exact .inl ⟨n, hb, Nat.le_succ n, hu⟩
  have hused : ∀ {b split}, ((run n).shared.entry region split).lastHandle ≤
      ((run n).shared.entry region split).freeStack →
      (∀ handle, alloc.InSplit region split handle →
        Seen run b n handle ∨ At (run n) handle .stack) →
      ∀ handle, alloc.InSplit region split handle → Seen run b (n + 1) handle := by
    intro b split hle hseen handle hin
    exact ((hseen handle hin).resolve_right (hσ.not_stack hin hle)).mono (Nat.le_succ n)
  have hsucc := h.succ hstack
  obtain ⟨g, hp, hw⟩ := hσ
  have hsame := hp.same
  have ht := hw t
  rw [hlocal] at ht
  have hpc := ht.pc
  cases pc with
  | round call =>
    simp only [Worker.next, bind_eq_ok, pure_eq_ok, Prod.mk.injEq] at hok
    obtain ⟨worker, hok, rfl, rfl⟩ := hok
    rcases startRound_knows hl hsame hr hodd hsucc hok with ⟨hrounds, rfl⟩ | hknows
    · exact .inl ⟨call, rfl, hrounds, rfl⟩
    · exact .inr (.inr hknows)
  | popLoad call =>
    obtain ⟨b, hb⟩ := h
    obtain rfl := hb.region_eq
    simp only [Worker.next, bind_eq_ok, pure_eq_ok, Prod.mk.injEq] at hok
    obtain ⟨worker, hok, rfl, rfl⟩ := hok
    exact .inr (.inr (popTurn_knows hl hsame hr hodd (hb.mono (Nat.le_succ n))
      (fun hnull => hempty hb.le hnull) hok))
  | popNext call head attempts =>
    simp only [Worker.next, bind_eq_ok, pure_eq_ok, Prod.mk.injEq] at hok
    obtain ⟨next, -, rfl, rfl⟩ := hok
    exact .inr (.inr ⟨rfl, hsucc⟩)
  | popSwap call head attempts next =>
    obtain ⟨b, hb⟩ := h
    obtain rfl := hb.region_eq
    simp only [Worker.next] at hok
    split_ifs at hok with hswap
    · simp only [bind_eq_ok, pure_eq_ok, Prod.mk.injEq] at hok
      obtain ⟨worker, hok, rfl, rfl⟩ := hok
      obtain ⟨hin, hloaded, hne, -⟩ := hpc
      obtain ⟨chunk, -, -, rfl⟩ :=
        finishList_returns hp.layout (hloaded.next.resolve_left hne) hok
      exact .inr (.inl ⟨chunk, rfl⟩)
    · simp only [bind_eq_ok, pure_eq_ok, Prod.mk.injEq] at hok
      obtain ⟨worker, hok, rfl, rfl⟩ := hok
      exact .inr (.inr (popTurn_knows hl hsame hr hodd (hb.mono (Nat.le_succ n))
        (fun hnull => hempty hb.le hnull) hok))
  | bumpLoad call =>
    obtain ⟨b, hb, hseen⟩ := h
    obtain rfl := hb.region_eq
    simp only [Worker.next] at hok
    split_ifs at hok with hle
    · simp only [bind_eq_ok, pure_eq_ok, Prod.mk.injEq] at hok
      obtain ⟨worker, hok, rfl, rfl⟩ := hok
      exact .inr (.inr (finishStack_knows hl hsame hr hodd (hb.mono (Nat.le_succ n))
        (hused hle hseen) hok))
    · cases hok
      exact .inr (.inr ⟨rfl, hsucc⟩)
  | bumpAdd call =>
    obtain ⟨b, hb, hseen⟩ := h
    obtain rfl := hb.region_eq
    simp only [Worker.next] at hok
    split_ifs at hok with hlt
    · simp only [bind_eq_ok, pure_eq_ok, Prod.mk.injEq] at hok
      obtain ⟨worker, hok, rfl, rfl⟩ := hok
      obtain ⟨hin, -, -⟩ := hp.bump hpc.region_lt hpc.split_lt hlt t
      obtain ⟨chunk, -, -, rfl⟩ := finishStack_returns hp.layout hin hok
      exact .inr (.inl ⟨chunk, rfl⟩)
    · cases hok
      exact .inr (.inr ⟨rfl, b, hb.mono (Nat.le_succ n), hused (not_lt.mp hlt) hseen⟩)
  | bumpSub call =>
    obtain ⟨b, hb, hseen⟩ := hsucc
    simp only [Worker.next, bind_eq_ok, pure_eq_ok, Prod.mk.injEq] at hok
    obtain ⟨worker, hok, rfl, rfl⟩ := hok
    exact .inr (.inr (finishStack_knows hl hsame hr hodd hb hseen hok))
  | _ => exact h.elim

variable [DecidableEq T]

/-- A step leaves a thread that is in a call where it is, or is its next access. -/
theorem Step.locals (hstep : Step σ σ') (hbusy : (σ.locals t).pc ≠ .idle) :
    (σ'.locals t).pc = (σ.locals t).pc ∨
      ∃ pools, (σ.locals t).next σ.shared = .ok (pools, σ'.locals t) := by
  have hother : ∀ {u pools worker}, t ≠ u →
      ((σ.set u pools worker).locals t).pc = (σ.locals t).pc := by
    intro u pools worker hu
    rw [Threads.set_locals_of_ne hu]
  cases hstep with
  | allocate u region params hidle => exact .inl (hother fun heq => hbusy (heq ▸ hidle))
  | deallocate u chunk worker hidle hheld hok =>
    exact .inl (hother fun heq => hbusy (heq ▸ hidle))
  | deallocatePtr u chunk ptr worker hidle hheld hptr hok =>
    exact .inl (hother fun heq => hbusy (heq ▸ hidle))
  | pass u v chunk hne hheld =>
    refine .inl ?_
    by_cases hv : t = v
    · subst hv
      rw [Threads.set_locals_self]
    · rw [Threads.set_locals_of_ne hv]
      by_cases hu : t = u
      · subst hu
        rw [Threads.set_locals_self]
      · rw [Threads.set_locals_of_ne hu]
  | next u pools worker hpaced hok =>
    by_cases hu : t = u
    · subst hu
      rw [Threads.set_locals_self]
      exact .inr ⟨pools, hok⟩
    · exact .inl (hother hu)

/-- **One step of the run**, of the thread or of another one. -/
theorem Pc.Knows.step (hl : alloc.Layout) (hodd : params.splitStep % 2 = 1)
    (hr : region < alloc.specs.numRegions)
    (h : ((run n).locals t).pc.Knows alloc run region params n) (hσ : Guarded alloc (run n))
    (hbusy : ((run n).locals t).pc ≠ .idle) (hstep : Step (run n) (run (n + 1))) :
    (∃ call, ((run n).locals t).pc = .round call ∧ call.rounds = 0 ∧
        (run (n + 1)).locals t = ⟨.idle, ((run n).locals t).held⟩) ∨
      (∃ chunk, (run (n + 1)).locals t = ⟨.idle, chunk :: ((run n).locals t).held⟩) ∨
        ((run (n + 1)).locals t).pc.Knows alloc run region params (n + 1) := by
  have hstack := fun handle (hat : At (run n) handle .stack) => hσ.of_stack hstep hat
  rcases hstep.locals hbusy with hpc | ⟨pools, hok⟩
  · rw [hpc]
    exact .inr (.inr (h.succ hstack))
  · exact (h.next hl hodd hr hσ rfl hstack hok).imp_right (Or.imp_right And.right)

/-- **Contention alone never makes `allocate_chunk` fail**: in every run, a call with an odd step
that returns no chunk was allowed a number of rounds that is not negative, and as many times, one
after the other, every chunk of the region was with a thread at some time since the call began. -/
theorem returns_none_missed {config : RegionChunkAllocatorSpecsConfig} {contentionSplit : Nat}
    (hspecs : (RegionChunkAllocatorSpecs.create config).Creates alloc.specs)
    (hpools : (RegionChunkAllocatorPools.create alloc.specs contentionSplit).Creates alloc.pools)
    (hfits : alloc.specs.Fits) (hm : alloc.Mapped) (h : Reachable alloc FewOvershoot (run 0))
    (hstart : (run 0).locals t = startAllocate (run 0).shared.alloc held region params)
    (hodd : params.splitStep % 2 = 1)
    (hrun : ∀ i ≤ n, Step (run i) (run (i + 1)) ∧ FewOvershoot (run (i + 1)))
    (hbusy : ∀ i ≤ n, ((run i).locals t).pc ≠ .idle)
    (hreturn : ((run (n + 1)).locals t).pc = .idle)
    (hnone : ((run (n + 1)).locals t).held = ((run n).locals t).held) :
    0 ≤ params.rounds ∧ MissedRounds alloc run region params.rounds.toNat n := by
  have hw := RegionChunkAllocatorSpecs.create_wellFormed hspecs hfits
  have hl : alloc.Layout := ⟨hw, RegionChunkAllocatorPools.create_wellFormed hw hpools⟩
  have hreach : ∀ i ≤ n, Reachable alloc FewOvershoot (run i) := by
    intro i
    induction i with
    | zero => exact fun _ => h
    | succ i ih =>
      intro hi
      obtain ⟨hstep, hfew⟩ := hrun i (Nat.le_of_succ_le hi)
      exact (ih (Nat.le_of_succ_le hi)).step hstep hfew
  have hguarded : ∀ i ≤ n, Guarded alloc (run i) := fun i hi =>
    (hreach i hi).guarded (fun _ hP => hP) hw hm hpools
  -- the region is one of the allocator's
  have hsame : SameLayout alloc (run 0).shared.alloc := by
    obtain ⟨g, hp, -⟩ := hguarded 0 (Nat.zero_le n)
    exact hp.same
  have hbegin := hbusy 0 (Nat.zero_le n)
  rw [hstart, startAllocate, hsame.specs] at hbegin
  split_ifs at hbegin with hregion
  · exact absurd rfl hbegin
  have hr : region < alloc.specs.numRegions := not_le.mp hregion
  have hknows : ∀ i ≤ n, ((run i).locals t).pc.Knows alloc run region params i := by
    intro i
    induction i with
    | zero =>
      intro _
      rw [hstart, startAllocate, hsame.specs, if_neg hregion]
      refine ⟨rfl, rfl, id, fun hnonneg => ⟨hnonneg, le_rfl, ?_⟩⟩
      rw [Int.sub_self]
      trivial
    | succ i ih =>
      intro hi
      have hi' := Nat.le_of_succ_le hi
      rcases (ih hi').step hl hodd hr (hguarded i hi') (hbusy i hi') (hrun i hi').1 with
        ⟨call, -, -, hlocal⟩ | ⟨chunk, hlocal⟩ | hnext
      · exact absurd (congrArg Worker.pc hlocal) (hbusy (i + 1) hi)
      · exact absurd (congrArg Worker.pc hlocal) (hbusy (i + 1) hi)
      · exact hnext
  have hlast := hknows n le_rfl
  rcases hlast.step hl hodd hr (hguarded n le_rfl) (hbusy n le_rfl) (hrun n le_rfl).1 with
    ⟨call, hpc, hrounds, -⟩ | ⟨chunk, hlocal⟩ | hnext
  · rw [hpc] at hlast
    have hcounted : Counted alloc run region params n call := hlast
    have hnonneg : 0 ≤ params.rounds := by
      by_contra hneg
      have hlt := hcounted.unlimited (not_le.mp hneg)
      omega
    obtain ⟨-, -, hmissed⟩ := hcounted.limited hnonneg
    rw [hrounds, Int.sub_zero] at hmissed
    exact ⟨hnonneg, hmissed⟩
  · rw [hlocal] at hnone
    exact absurd hnone (List.cons_ne_self _ _)
  · rw [hreturn] at hnext
    exact hnext.elim

/-- A call with one round, while the only chunk is held. -/
def missRun (held : List RegionChunkAllocation) : Nat → Machine Nat
  | 0 => loneMachine 1 ⟨.round missCall, held⟩
  | 1 => loneMachine 1 ⟨.popLoad missCall, held⟩
  | 2 => loneMachine 1 ⟨.bumpLoad missCall, held⟩
  | 3 => loneMachine 1 ⟨.round missedCall, held⟩
  | _ => loneMachine 1 ⟨.idle, held⟩

theorem step_lone {top top' : Nat} (hpaced : worker.Paced (lonePools top))
    (hok : worker.next (lonePools top) = .ok (lonePools top', worker')) :
    Step (loneMachine top worker) (loneMachine top' worker') := by
  have hlocal : (loneMachine top worker).locals 0 = worker := Threads.set_locals_self
  rw [← loneMachine_set top top' worker worker']
  refine .next 0 _ _ ?_ ?_
  · rw [hlocal]
    exact hpaced
  · rw [hlocal]
    exact hok

theorem step_missRun : ∀ i ≤ 3, Step (missRun held i) (missRun held (i + 1)) ∧
    FewOvershoot (missRun held (i + 1))
  | 0, _ => ⟨step_lone trivial miss_round, fewOvershoot_lone (by simp)⟩
  | 1, _ => ⟨step_lone trivial miss_popLoad, fewOvershoot_lone (by simp)⟩
  | 2, _ => ⟨step_lone trivial miss_bumpLoad, fewOvershoot_lone (by simp)⟩
  | 3, _ => ⟨step_lone trivial miss_end, fewOvershoot_lone (by simp)⟩
  | _ + 4, h => by omega

theorem returns_none_missed_lone :
    MissedRounds loneAllocator (missRun [⟨0, 0, 0, 0⟩]) 0 1 3 := by
  have hspecs : (RegionChunkAllocatorSpecs.create loneConfig).Creates loneAllocator.specs := rfl
  have hpools : (RegionChunkAllocatorPools.create loneAllocator.specs 1).Creates
      loneAllocator.pools := rfl
  have hstart : startAllocate (lonePools 1).alloc [⟨0, 0, 0, 0⟩] 0 missCall.params =
      ⟨.round missCall, [⟨0, 0, 0, 0⟩]⟩ := rfl
  have hfew : FewOvershoot (loneMachine 1 ⟨.round missCall, [⟨0, 0, 0, 0⟩]⟩) :=
    fewOvershoot_lone (by simp)
  have hreach := reachable_loneMachine.mono fun _ h => h.1
  have hround : Reachable loneAllocator FewOvershoot (missRun [⟨0, 0, 0, 0⟩] 0) := by
    show Reachable loneAllocator FewOvershoot (loneMachine 1 ⟨.round missCall, [⟨0, 0, 0, 0⟩]⟩)
    rw [← hstart, ← loneMachine_set 1 1 ⟨.idle, [⟨0, 0, 0, 0⟩]⟩] at hfew ⊢
    exact hreach.step (.allocate 0 0 missCall.params rfl) hfew
  have hbusy : ∀ i ≤ 3, ((missRun [⟨0, 0, 0, 0⟩] i).locals 0).pc ≠ .idle := by
    intro i hi
    have hcases : i = 0 ∨ i = 1 ∨ i = 2 ∨ i = 3 := by omega
    rcases hcases with rfl | rfl | rfl | rfl <;> exact fun hpc => by cases hpc
  have hlocal : (missRun [⟨0, 0, 0, 0⟩] 0).locals 0 =
      startAllocate (missRun [⟨0, 0, 0, 0⟩] 0).shared.alloc [⟨0, 0, 0, 0⟩] 0 missCall.params :=
    Threads.set_locals_self.trans hstart.symm
  exact (returns_none_missed hspecs hpools ⟨by decide, by decide⟩ ⟨by decide, by decide, by decide⟩
    hround hlocal rfl step_missRun hbusy rfl rfl).2

end Cuw3.RegionChunkAllocator
