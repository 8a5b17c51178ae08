/-
  What a call of the versioned free list can wait for.

  The list is lock-free: of the threads that are in a call, one returns after a bounded number of
  accesses (`accesses_return`).  Between two returns no access lets a thread turn more than once,
  which `Pc.rank` counts.

  And an attempt is lost to an update of another thread only, so a call fails when others have
  succeeded at least as often as it was allowed to try (`attempts_lost`).
-/
import Cuw3.Atomic.Equiv.ListView
import Cuw3.Lib.Rank

namespace Cuw3.AtomicListView

open Lib

/-- The head was updated. -/
def Event.updates : Event → Bool
  | .pushed _ => true
  | .popped _ => true
  | _ => false

/-- A call returned. -/
def Event.returns : Event → Bool
  | .silent => false
  | _ => true

variable {T : Type} {nullLink version node : Nat} {nodes : List Nat} {list list' : SharedList T}
  {t u : T} {loaded : LoadedHead} {pc pc' : Pc} {event : Event}

/-! ### Lost attempts -/

/-- A head with no update since it was loaded compares equal. -/
theorem Loaded.head_eq (h : Loaded version list loaded)
    (hlist : ListHolds nullLink version nodes list) (heq : loaded.seen = list.updates) :
    list.head = loaded.toListHead := by
  have hversion : list.head.version = loaded.version := by
    rw [hlist.version_eq, h.version_eq, heq]
  have hnext := h.current heq
  obtain ⟨⟨v, n⟩, seen⟩ := loaded
  obtain ⟨⟨v', n'⟩, links, updates, holder⟩ := list
  exact congrArg₂ ListHead.mk hversion hnext.symm

/-- Of so many attempts, `curr` are left, and each of the others was lost to an update between
`first` and `seen`. -/
def Spent (attempts : Int) (first : Nat) (curr : Int) (seen : Nat) : Prop :=
  (attempts < 0 → curr < 0) ∧ (0 ≤ attempts → 0 ≤ curr ∧ first + (attempts - curr) ≤ seen)

/-- The thread is in a call that was allowed so many attempts, and that began after `first`
updates. -/
def Pc.Tried (attempts : Int) (first : Nat) (list : SharedList T) : Pc → Prop
  | .idle => False
  | .pushLoad _ curr => curr = attempts ∧ first ≤ list.updates
  | .pushNext _ loaded curr => curr ≠ 0 ∧ Spent attempts first curr loaded.seen
  | .pushSwap _ loaded curr => curr ≠ 0 ∧ Spent attempts first curr loaded.seen
  | .popLoad curr => curr = attempts ∧ first ≤ list.updates
  | .popNext loaded curr => curr ≠ 0 ∧ Spent attempts first curr loaded.seen
  | .popSwap loaded curr _ => curr ≠ 0 ∧ Spent attempts first curr loaded.seen

/-- What is known after an access of the call. -/
def Pc.Left (attempts : Int) (first : Nat) (list : SharedList T) (pc : Pc) : Event → Prop
  | .silent => pc.Tried attempts first list
  | .pushFailed => 0 ≤ attempts ∧ first + attempts ≤ list.updates
  | .popFailed => 0 ≤ attempts ∧ first + attempts ≤ list.updates
  | _ => True

variable {attempts curr : Int} {first : Nat}

theorem spent_first (h : first ≤ list.updates) : Spent attempts first attempts list.updates :=
  ⟨id, fun hle => ⟨hle, by omega⟩⟩

/-- A compare-exchange fails only when the head was updated since the load. -/
theorem Spent.lost (h : Spent attempts first curr loaded.seen) (hcurr : curr ≠ 0)
    (hloaded : Loaded version list loaded) (hlist : ListHolds nullLink version nodes list)
    (hne : list.head ≠ loaded.toListHead) :
    Spent attempts first (countDown curr) list.updates := by
  have hle := hloaded.seen_le
  have hseen : loaded.seen ≠ list.updates := fun heq => hne (hloaded.head_eq hlist heq)
  obtain ⟨hneg, hpos⟩ := h
  unfold countDown
  constructor
  · intro hlt
    have hcurr := hneg hlt
    rw [if_neg (by omega)]
    omega
  · intro hge
    obtain ⟨hcurr0, hspent⟩ := hpos hge
    rw [if_pos (by omega)]
    omega

/-- Where no attempt is left, each was lost to an update. -/
theorem Spent.none (h : Spent attempts first 0 list.updates) :
    0 ≤ attempts ∧ first + attempts ≤ list.updates := by
  obtain ⟨hneg, hpos⟩ := h
  have hge : 0 ≤ attempts := by
    by_contra hlt
    have hzero := hneg (by omega)
    omega
  have hspent := hpos hge
  omega

theorem Spent.pushTurn (h : Spent attempts first curr list.updates)
    (hturn : pushTurn node list.loadHead curr = (pc, event)) :
    pc.Left attempts first list event := by
  unfold AtomicListView.pushTurn at hturn
  split_ifs at hturn with hcurr
  · cases hturn
    subst hcurr
    exact h.none
  · cases hturn
    exact ⟨hcurr, h⟩

theorem Spent.popTurn (h : Spent attempts first curr list.updates)
    (hturn : popTurn nullLink list.loadHead curr = (pc, event)) :
    pc.Left attempts first list event := by
  unfold AtomicListView.popTurn at hturn
  split_ifs at hturn with hcurr
  · cases hturn
    subst hcurr
    exact h.none
  · cases hturn
    trivial
  · cases hturn
    exact ⟨hcurr, h⟩

/-- The next access of the call. -/
theorem Pc.Tried.next (h : pc.Tried attempts first list)
    (hlist : ListHolds nullLink version nodes list) (hpc : PcHolds nullLink version list t pc)
    (hnext : pc.next nullLink t list = (list', pc', event)) :
    pc'.Left attempts first list' event := by
  cases pc with
  | idle => exact absurd h id
  | pushLoad node curr =>
    obtain ⟨rfl, hfirst⟩ := h
    obtain ⟨rfl, hturn⟩ := Prod.mk.inj hnext
    exact (spent_first hfirst).pushTurn hturn
  | pushNext node loaded curr =>
    cases hnext
    exact h
  | pushSwap node loaded curr =>
    obtain ⟨hcurr, hspent⟩ := h
    unfold Pc.next at hnext
    dsimp only at hnext
    split_ifs at hnext with heq
    · cases hnext
      trivial
    · obtain ⟨rfl, hturn⟩ := Prod.mk.inj hnext
      exact (hspent.lost hcurr hpc.2.1 hlist heq).pushTurn hturn
  | popLoad curr =>
    obtain ⟨rfl, hfirst⟩ := h
    obtain ⟨rfl, hturn⟩ := Prod.mk.inj hnext
    exact (spent_first hfirst).popTurn hturn
  | popNext loaded curr =>
    cases hnext
    exact h
  | popSwap loaded curr next =>
    obtain ⟨hcurr, hspent⟩ := h
    unfold Pc.next at hnext
    dsimp only at hnext
    split_ifs at hnext with heq
    · cases hnext
      trivial
    · obtain ⟨rfl, hturn⟩ := Prod.mk.inj hnext
      exact (hspent.lost hcurr hpc.1 hlist heq).popTurn hturn

/-- Another thread has made a step. -/
theorem Pc.Tried.mono (h : pc.Tried attempts first list) (hle : list.updates ≤ list'.updates) :
    pc.Tried attempts first list' := by
  cases pc with
  | idle => exact h
  | pushLoad node curr => exact ⟨h.1, h.2.trans hle⟩
  | popLoad curr => exact ⟨h.1, h.2.trans hle⟩
  | _ => exact h

/-! ### Accesses between two returns -/

/-- How many accesses the thread makes that show nothing, while nobody updates the head.  A head
that is out of date costs a turn. -/
def Pc.rank (list : SharedList T) : Pc → Nat
  | .idle => 0
  | .pushLoad _ _ => 2
  | .pushNext _ loaded _ => if list.head = loaded.toListHead then 1 else 3
  | .pushSwap _ loaded _ => if list.head = loaded.toListHead then 0 else 2
  | .popLoad _ => 2
  | .popNext loaded _ => if list.head = loaded.toListHead then 1 else 3
  | .popSwap loaded _ _ => if list.head = loaded.toListHead then 0 else 2

theorem Pc.rank_le (list : SharedList T) (pc : Pc) : pc.rank list ≤ 3 := by
  cases pc with
  | idle => exact Nat.zero_le 3
  | pushLoad node curr => exact (by decide : 2 ≤ 3)
  | pushNext node loaded curr =>
    show (if list.head = loaded.toListHead then 1 else 3) ≤ 3
    split_ifs <;> decide
  | pushSwap node loaded curr =>
    show (if list.head = loaded.toListHead then 0 else 2) ≤ 3
    split_ifs <;> decide
  | popLoad curr => exact (by decide : 2 ≤ 3)
  | popNext loaded curr =>
    show (if list.head = loaded.toListHead then 1 else 3) ≤ 3
    split_ifs <;> decide
  | popSwap loaded curr next =>
    show (if list.head = loaded.toListHead then 0 else 2) ≤ 3
    split_ifs <;> decide

/-- The rank looks at the head only. -/
theorem Pc.rank_congr (h : list'.head = list.head) (pc : Pc) : pc.rank list' = pc.rank list := by
  cases pc <;> simp only [Pc.rank, h]

/-- A turn of `push` that goes on has a head that is current. -/
theorem pushTurn_silent {curr : Int} (h : pushTurn node list.loadHead curr = (pc, .silent)) :
    pc = .pushNext node list.loadHead curr := by
  unfold pushTurn at h
  split_ifs at h
  · cases h
  · exact (Prod.mk.inj h).1.symm

theorem popTurn_silent {curr : Int}
    (h : popTurn nullLink list.loadHead curr = (pc, .silent)) :
    pc = .popNext list.loadHead curr := by
  unfold popTurn at h
  split_ifs at h
  · cases h
  · cases h
  · exact (Prod.mk.inj h).1.symm

theorem rank_pushNext (curr : Int) : (Pc.pushNext node list.loadHead curr).rank list = 1 :=
  if_pos rfl

theorem rank_popNext (curr : Int) : (Pc.popNext list.loadHead curr).rank list = 1 :=
  if_pos rfl

/-- **An access that shows nothing leaves the head alone, and brings a return closer.** -/
theorem Pc.next_silent (hbusy : pc ≠ .idle)
    (hnext : pc.next nullLink t list = (list', pc', .silent)) :
    list'.head = list.head ∧ pc'.rank list' < pc.rank list := by
  cases pc with
  | idle => exact absurd rfl hbusy
  | pushLoad node curr =>
    obtain ⟨rfl, hturn⟩ := Prod.mk.inj hnext
    rw [pushTurn_silent hturn, rank_pushNext]
    exact ⟨rfl, (by decide : 1 < 2)⟩
  | pushNext node loaded curr =>
    obtain ⟨rfl, hpc⟩ := Prod.mk.inj hnext
    obtain ⟨rfl, -⟩ := Prod.mk.inj hpc
    refine ⟨rfl, ?_⟩
    show (if list.head = loaded.toListHead then 0 else 2) <
      if list.head = loaded.toListHead then 1 else 3
    split_ifs <;> decide
  | pushSwap node loaded curr =>
    unfold Pc.next at hnext
    dsimp only at hnext
    split_ifs at hnext with heq
    · cases hnext
    · obtain ⟨rfl, hturn⟩ := Prod.mk.inj hnext
      rw [pushTurn_silent hturn, rank_pushNext]
      refine ⟨rfl, ?_⟩
      show 1 < if list.head = loaded.toListHead then 0 else 2
      rw [if_neg heq]
      decide
  | popLoad curr =>
    obtain ⟨rfl, hturn⟩ := Prod.mk.inj hnext
    rw [popTurn_silent hturn, rank_popNext]
    exact ⟨rfl, (by decide : 1 < 2)⟩
  | popNext loaded curr =>
    obtain ⟨rfl, hpc⟩ := Prod.mk.inj hnext
    obtain ⟨rfl, -⟩ := Prod.mk.inj hpc
    refine ⟨rfl, ?_⟩
    show (if list.head = loaded.toListHead then 0 else 2) <
      if list.head = loaded.toListHead then 1 else 3
    split_ifs <;> decide
  | popSwap loaded curr next =>
    unfold Pc.next at hnext
    dsimp only at hnext
    split_ifs at hnext with heq
    · cases hnext
    · obtain ⟨rfl, hturn⟩ := Prod.mk.inj hnext
      rw [popTurn_silent hturn, rank_popNext]
      refine ⟨rfl, ?_⟩
      show 1 < if list.head = loaded.toListHead then 0 else 2
      rw [if_neg heq]
      decide

variable [DecidableEq T] {σ σ' σ₁ σ₂ σ₃ : Machine T} {events before : List (T × Event)}

/-- Accesses of threads that are in a call, with what each shows. -/
inductive Accesses (nullLink : Nat) (σ : Machine T) : List (T × Event) → Machine T → Prop where
  | start : Accesses nullLink σ [] σ
  | step {events : List (T × Event)} {σ' : Machine T} {t : T} {list : SharedList T} {pc : Pc}
      {event : Event} (h : Accesses nullLink σ events σ') (hbusy : σ'.locals t ≠ .idle)
      (hnext : (σ'.locals t).next nullLink t σ'.shared = (list, pc, event)) :
      Accesses nullLink σ (events ++ [(t, event)]) (σ'.set t list pc)

/-- An access of a thread that is in a call, and that shows nothing. -/
def Silent (nullLink : Nat) (t : T) (σ σ' : Machine T) : Prop :=
  σ.locals t ≠ .idle ∧ ∃ list pc,
    (σ.locals t).next nullLink t σ.shared = (list, pc, .silent) ∧ σ' = σ.set t list pc

theorem silent_lowers :
    Lowers (Silent (T := T) nullLink) (fun _ _ => False)
      fun σ t => (σ.locals t).rank σ.shared where
  self := by
    rintro t σ - ⟨hbusy, list, pc, hnext, rfl⟩
    rw [Threads.set_shared, Threads.set_locals_self]
    exact (Pc.next_silent hbusy hnext).2
  other := by
    rintro t u σ - ⟨hbusy, list, pc, hnext, rfl⟩ hu
    rw [Threads.set_shared, Threads.set_locals_of_ne hu]
    exact (Pc.rank_congr (Pc.next_silent hbusy hnext).1 _).le
  free h := h.elim

theorem Accesses.moves (h : Accesses nullLink σ events σ')
    (hsilent : ∀ x ∈ events, x.2 = .silent) :
    Moves (Silent nullLink) (fun _ _ => False) σ (events.map Prod.fst) σ' := by
  induction h with
  | start => exact .start
  | @step events σ' t list pc event _ hbusy hnext ih =>
    obtain rfl := hsilent (t, event) (List.mem_append_right _ List.mem_cons_self)
    have hbefore := ih fun x hx => hsilent x (List.mem_append_left _ hx)
    rw [List.map_append]
    exact hbefore.step ⟨hbusy, list, pc, hnext, rfl⟩

/-- **The list is lock-free.**  However the accesses of threads interleave that are in a call, among
more than three for each of the threads there is one with which a call returns. -/
theorem accesses_return (ts : List T) (h : Accesses nullLink σ events σ')
    (hts : ∀ x ∈ events, x.1 ∈ ts) (hlong : 3 * ts.length < events.length) :
    ∃ x ∈ events, x.2.returns = true := by
  by_contra hnone
  have hsilent : ∀ x ∈ events, x.2 = .silent := by
    intro x hx
    cases hevent : x.2 with
    | silent => rfl
    | _ => exact absurd ⟨x, hx, by rw [hevent]; rfl⟩ hnone
  have hle := (h.moves hsilent).labels_length_le silent_lowers hts fun t _ =>
    Pc.rank_le σ.shared (σ.locals t)
  omega

/-- A `pop` with a head that is out of date takes a second turn. -/
theorem accesses_return_stale : ∃ (σ' : Machine Bool) (events : List (Bool × Event)),
    Accesses 0 (atRest.set true oneNode (.popNext ⟨⟨6, 1⟩, 0⟩ 2)) events σ' ∧
      ∃ x ∈ events, x.2.returns = true := by
  have hlink : Accesses 0 (atRest.set true oneNode (.popNext ⟨⟨6, 1⟩, 0⟩ 2))
      [(true, .silent)] _ :=
    Accesses.start.step (fun h => by cases h) rfl
  have hlost := hlink.step (t := true) (fun h => by cases h) rfl
  have hnext := hlost.step (t := true) (fun h => by cases h) rfl
  have hpopped := hnext.step (t := true) (fun h => by cases h) rfl
  refine ⟨_, _, hpopped, accesses_return [true] hpopped ?_ ?_⟩
  · simp
  · simp

/-! ### Runs -/

/-- A step counts as an update when it shows one. -/
theorem Step.updates_eq (h : Step nullLink σ t event σ') :
    σ'.shared.updates = σ.shared.updates + if event.updates then 1 else 0 := by
  cases h with
  | push node attempts hidle hheld hnode => rfl
  | pop attempts hidle => rfl
  | write node link hidle hheld => rfl
  | pass u node hidle hheld => rfl
  | next list pc _ hpaced hnext =>
    have hpush : ∀ {node curr}, pushTurn node σ.shared.loadHead curr = (pc, event) →
        event.updates = false := by
      intro node curr hturn
      unfold pushTurn at hturn
      split_ifs at hturn <;> cases hturn <;> rfl
    have hpop : ∀ {curr}, popTurn nullLink σ.shared.loadHead curr = (pc, event) →
        event.updates = false := by
      intro curr hturn
      unfold popTurn at hturn
      split_ifs at hturn <;> cases hturn <;> rfl
    show list.updates = σ.shared.updates + if event.updates then 1 else 0
    cases hpc : σ.locals t with
    | idle =>
      rw [hpc] at hnext
      cases hnext
      rfl
    | pushLoad node curr =>
      rw [hpc] at hnext
      obtain ⟨rfl, hturn⟩ := Prod.mk.inj hnext
      simp [hpush hturn]
    | pushNext node loaded curr =>
      rw [hpc] at hnext
      cases hnext
      rfl
    | pushSwap node loaded curr =>
      rw [hpc] at hnext
      unfold Pc.next at hnext
      dsimp only at hnext
      split_ifs at hnext
      · cases hnext
        rfl
      · obtain ⟨rfl, hturn⟩ := Prod.mk.inj hnext
        simp [hpush hturn]
    | popLoad curr =>
      rw [hpc] at hnext
      obtain ⟨rfl, hturn⟩ := Prod.mk.inj hnext
      simp [hpop hturn]
    | popNext loaded curr =>
      rw [hpc] at hnext
      cases hnext
      rfl
    | popSwap loaded curr next =>
      rw [hpc] at hnext
      unfold Pc.next at hnext
      dsimp only at hnext
      split_ifs at hnext
      · cases hnext
        rfl
      · obtain ⟨rfl, hturn⟩ := Prod.mk.inj hnext
        simp [hpop hturn]

theorem Run.updates_eq (h : Run nullLink σ events σ') :
    σ'.shared.updates = σ.shared.updates + events.countP fun x => x.2.updates := by
  induction h with
  | start => rfl
  | step _ hstep ih =>
    rw [hstep.updates_eq, ih, List.countP_append, List.countP_singleton, Nat.add_assoc]

/-- The thread goes on in its call, whatever the others do. -/
theorem tried_of_run (hinv : Inv nullLink version nodes σ₁)
    (hcall : (σ₁.locals t).Tried attempts first σ₁.shared) (h : Run nullLink σ₁ events σ₂)
    (hsilent : ∀ event, (t, event) ∈ events → event = .silent) :
    (σ₂.locals t).Tried attempts first σ₂.shared := by
  induction h with
  | start => exact hcall
  | @step events σ₂ σ₃ u event h hstep ih =>
    have htried := ih fun event hmem => hsilent event (List.mem_append_left _ hmem)
    have hle : σ₂.shared.updates ≤ σ₃.shared.updates := by
      rw [hstep.updates_eq]
      exact Nat.le_add_right _ _
    have hbusy : σ₂.locals t ≠ .idle := by
      intro hidle
      rw [hidle] at htried
      exact htried
    by_cases hu : u = t
    · subst hu
      obtain rfl := hsilent event (List.mem_append_right _ List.mem_cons_self)
      cases hstep with
      | push node attempts hidle _ _ => exact absurd hidle hbusy
      | pop attempts hidle => exact absurd hidle hbusy
      | write node link hidle _ => exact absurd hidle hbusy
      | pass v node hidle _ => exact absurd hidle hbusy
      | next list pc _ hpaced hnext =>
        obtain ⟨nodes', -, hinv'⟩ := h.inv hinv
        rw [Threads.set_locals_self]
        exact htried.next hinv'.list (hinv'.threads u) hnext
    · have hsame : σ₃.locals t = σ₂.locals t := by
        cases hstep <;> exact Threads.set_locals_of_ne (Ne.symm hu)
      rw [hsame]
      exact htried.mono hle

/-- **A call fails only when others succeeded as often as it tried.**  A call that is allowed so
many attempts fails only when their number is not negative, and since it began other threads have
updated the head at least as often. -/
theorem attempts_lost (hstart : Starts nullLink nodes σ) (hbefore : Run nullLink σ before σ₁)
    (hcall : (∃ node, σ₁.locals t = .pushLoad node attempts) ∨ σ₁.locals t = .popLoad attempts)
    (h : Run nullLink σ₁ events σ₂) (hsilent : ∀ event, (t, event) ∈ events → event = .silent)
    (hstep : Step nullLink σ₂ t event σ₃) (hfail : event = .pushFailed ∨ event = .popFailed) :
    0 ≤ attempts ∧ attempts ≤ (events.countP fun x => x.2.updates && x.1 ≠ t : Nat) := by
  obtain ⟨nodes', -, hinv⟩ := hbefore.inv hstart.inv
  have hfirst : (σ₁.locals t).Tried attempts σ₁.shared.updates σ₁.shared := by
    rcases hcall with ⟨node, hpc⟩ | hpc
    · rw [hpc]
      exact ⟨rfl, le_refl _⟩
    · rw [hpc]
      exact ⟨rfl, le_refl _⟩
  have htried := tried_of_run hinv hfirst h hsilent
  obtain ⟨nodes'', -, hinv'⟩ := h.inv hinv
  have hleft : 0 ≤ attempts ∧ σ₁.shared.updates + attempts ≤ σ₂.shared.updates := by
    have hupdates := hstep.updates_eq
    cases hstep with
    | push node attempts hidle _ _ => rcases hfail with hfail | hfail <;> cases hfail
    | pop attempts hidle => rcases hfail with hfail | hfail <;> cases hfail
    | write node link hidle _ => rcases hfail with hfail | hfail <;> cases hfail
    | pass v node hidle _ => rcases hfail with hfail | hfail <;> cases hfail
    | next list pc _ hpaced hnext =>
      have hleft := htried.next hinv'.list (hinv'.threads t) hnext
      rw [Threads.set_shared] at hupdates
      rcases hfail with rfl | rfl
      · rw [← hupdates.trans (Nat.add_zero _)]
        exact hleft
      · rw [← hupdates.trans (Nat.add_zero _)]
        exact hleft
  -- the call has updated nothing itself
  have hcount : (events.countP fun x => x.2.updates) =
      events.countP fun x => x.2.updates && x.1 ≠ t := by
    refine List.countP_congr fun x hx => ?_
    have hothers : x.2.updates = true → x.1 ≠ t := by
      intro hupdates heq
      rw [hsilent x.2 (heq ▸ hx)] at hupdates
      cases hupdates
    simpa using hothers
  rw [h.updates_eq, hcount] at hleft
  omega

/-- While `true` has loaded the head, `false` pops the node. -/
theorem run_race : ∃ (σ₂ : Machine Bool) (events : List (Bool × Event)),
    Run 0 (atRest.set true oneNode (.popLoad 1)) events σ₂ ∧
      σ₂.locals true = .popSwap ⟨⟨7, 1⟩, 0⟩ 1 0 ∧ σ₂.shared.head = ⟨8, 0⟩ ∧
      σ₂.shared.updates = 1 ∧ ∀ event, (true, event) ∈ events → event = .silent := by
  have hload : Run 0 (atRest.set true oneNode (.popLoad 1)) [(true, .silent)] _ :=
    Run.start.step (.next true _ _ _ trivial rfl)
  have hother := hload.step (.pop false 1 rfl)
  have hother := hother.step (.next false _ _ _ trivial rfl)
  have hother := hother.step (.next false _ _ _ trivial rfl)
  have hother := hother.step (.next false _ _ _ (show 0 < 0 + 2 ^ 32 by decide) rfl)
  have hlink := hother.step (.next true _ _ _ trivial rfl)
  exact ⟨_, _, hlink, rfl, rfl, rfl, by simp⟩

/-- `true` loses its only attempt. -/
theorem attempts_lost_race : ∃ (σ₂ σ₃ : Machine Bool) (events : List (Bool × Event)),
    Step 0 σ₂ true .popFailed σ₃ ∧
      (1 : Int) ≤ (events.countP fun x => x.2.updates && x.1 ≠ true : Nat) := by
  have hspells : oneNode.Spells 0 [1] := ⟨rfl, by decide, rfl⟩
  have hstart : Starts 0 [1] atRest :=
    ⟨fun _ => rfl, hspells, fun _ _ => rfl, by decide, rfl⟩
  have hbefore : Run 0 atRest [(true, .silent)] _ := Run.start.step (.pop true 1 rfl)
  obtain ⟨σ₂, events, hrun, hpc, hhead, hupdates, hsilent⟩ := run_race
  have hlost : Step 0 σ₂ true .popFailed (σ₂.set true σ₂.shared .idle) := by
    refine .next true _ _ _ ?_ ?_
    · rw [hpc]
      show σ₂.shared.updates < 0 + 2 ^ 32
      rw [hupdates]
      decide
    · rw [hpc]
      unfold Pc.next
      dsimp only
      rw [if_neg (by rw [hhead]; decide)]
      rfl
  exact ⟨σ₂, _, events, hlost,
    (attempts_lost hstart hbefore (.inr rfl) hrun hsilent hlost (.inr rfl)).2⟩

end Cuw3.AtomicListView
