/-
  The push/snatch list, and the graveyard on top of it, are lock-free.

  `Pc.left` bounds the accesses that are left of a call while no other thread changes the head.  The
  loops of `get_tail` and of `bite` walk lists that end, and come closer to the end with each turn
  (`ahead`); a push whose head is out of date takes one more turn (`Pc.stale`).

  A push that changes the head returns.  A snatch may change it and go on, but only once in a call,
  so the turns that it costs the others are paid for by the number of threads that may still snatch
  (`pending`).  Together they are a rank (`silent_lowers`): of the threads that are in a call, one
  returns after a bounded number of accesses (`reachable_calls_return`).

  And a thread alone waits for nobody: how many accesses a call takes is bounded by the number of
  nodes and of the changes of the head that others make during it (`reachable_call_length`).
-/
import Cuw3.Graveyard.Equiv.PushSnatchList
import Cuw3.Lib.Rank

namespace Cuw3.AtomicPushSnatchList

open Lib

variable {T : Type}

/-! ### What is left of a call -/

/-- The number of nodes from `node` to the end. -/
noncomputable def ahead (s : AtomicPushSnatchList) (node : Nat) : Nat :=
  chainLength nullLink s.next node

/-- The most accesses that are left of a call, in a memory of `size` nodes, while no other thread
changes the head.  Between two calls it is more than any call takes. -/
noncomputable def Pc.left (size : Nat) (s : AtomicPushSnatchList) : Pc → Nat
  | .idle => 5 * size + 12
  | .pushLoad _ => 2 * size + 6
  | .tailNext _ _ node first => 2 * s.ahead node + if first then 5 else 3
  | .tailSkip _ _ node _ first => 2 * s.ahead node + if first then 4 else 2
  | .pushSkip _ _ _ => 3
  | .pushNext _ _ _ => 2
  | .pushSwap _ _ _ => 1
  | .snatchLoad _ => 5 * size + 11
  | .snatchSwap _ => 5 * size + 10
  | .biteNext _ tail _ _ => 4 * size + 9 + s.ahead tail
  | .biteRest _ _ => 4 * size + 9
  | .biteCut _ _ _ => 4 * size + 8
  | .biteSkip _ _ _ curr => 2 * size + 7 + 2 * s.ahead curr
  | .biteCurr _ _ _ curr => 2 * size + 6 + 2 * s.ahead curr
  | .acquireNext _ => 2 * size + 7
  | .resetNext _ => 2 * size + 8
  | .resetSkip _ => 2 * size + 7

/-- The accesses of one more turn of `push`, when the head that was loaded is out of date. -/
def Pc.stale (s : AtomicPushSnatchList) : Pc → Nat
  | .tailNext _ headOld _ _ => if s.head = headOld then 0 else 2
  | .tailSkip _ headOld _ _ _ => if s.head = headOld then 0 else 2
  | .pushSkip _ headOld _ => if s.head = headOld then 0 else 2
  | .pushNext _ headOld _ => if s.head = headOld then 0 else 2
  | .pushSwap _ headOld _ => if s.head = headOld then 0 else 2
  | _ => 0

/-- The thread may still change the head without returning. -/
def Pc.snatching : Pc → Bool
  | .idle => true
  | .snatchLoad _ => true
  | .snatchSwap _ => true
  | _ => false

variable {nodes : Set Nat} {all : List Nat} {size : Nat} {g : Custody T}
  {s s' : AtomicPushSnatchList} {t u : T} {n node list part1 part2 tail : Nat}
  {ps qs held entries : List Nat} {pc pc' : Pc} {worker : Worker}

theorem Pc.stale_le (s : AtomicPushSnatchList) (pc : Pc) : pc.stale s ≤ 2 := by
  unfold Pc.stale
  split <;> try split_ifs
  all_goals omega

theorem Pc.left_pos (size : Nat) (s : AtomicPushSnatchList) (pc : Pc) : 0 < pc.left size s := by
  unfold Pc.left
  split <;> try split_ifs
  all_goals omega

theorem Pc.stale_congr (h : s'.head = s.head) (pc : Pc) : pc.stale s' = pc.stale s := by
  cases pc <;> simp only [Pc.stale, h]

/-- A change of the head costs one turn. -/
theorem Pc.stale_change (s s' : AtomicPushSnatchList) (pc : Pc) :
    pc.stale s' ≤ pc.stale s + 2 * if s'.head = s.head then 0 else 1 := by
  split_ifs with hhead
  · rw [Pc.stale_congr hhead]
    exact Nat.le_add_right _ _
  · have hle := Pc.stale_le s' pc
    omega

theorem ahead_le (h : Linked nullLink s.next list ps) (hn : node ∈ ps) (hle : ps.length ≤ size) :
    s.ahead node ≤ size :=
  (h.chainLength_le hn).trans hle

theorem ahead_node (h : Linked nullLink s.next list ps) (hn : node ∈ ps) :
    s.ahead node = s.ahead (s.next node) + 1 :=
  h.chainLength_node hn

theorem ahead_congr (h : Linked nullLink s.next list ps) (hn : node ∈ ps)
    (heq : ∀ n ∈ ps, s'.next n = s.next n) : s'.ahead node = s.ahead node :=
  h.chainLength_congr hn heq

/-- What is left of a call depends on the links of the thread's own nodes only. -/
theorem PcHolds.left_congr (h : PcHolds s ps pc) (heq : ∀ n ∈ ps, s'.next n = s.next n) :
    pc.left size s' = pc.left size s := by
  cases pc with
  | tailNext list headOld node first => rw [Pc.left, Pc.left, ahead_congr h.1.linked h.2 heq]
  | tailSkip list headOld node next first =>
    rw [Pc.left, Pc.left, ahead_congr h.1.linked h.2.1 heq]
  | biteNext part1 tail i amount => rw [Pc.left, Pc.left, ahead_congr h.1.linked h.2 heq]
  | biteSkip part1 part2 tail curr =>
    obtain ⟨done, todo, rest, hbitten, rfl⟩ := h
    rw [Pc.left, Pc.left, ahead_congr hbitten.linked (by simp) fun n hn =>
      heq n (List.mem_append_left _ hn)]
  | biteCurr part1 part2 tail curr =>
    obtain ⟨done, todo, rest, hbitten, rfl⟩ := h
    rw [Pc.left, Pc.left, ahead_congr hbitten.linked (by simp) fun n hn =>
      heq n (List.mem_append_left _ hn)]
  | _ => rfl

/-- What is left of a call is bounded. -/
theorem PcHolds.left_le (h : PcHolds s ps pc) (hle : ps.length ≤ size) :
    pc.left size s + pc.stale s ≤ 5 * size + 12 := by
  have hstale := Pc.stale_le s pc
  cases pc with
  | tailNext list headOld node first =>
    have hahead := ahead_le h.1.linked h.2 hle
    dsimp only [Pc.left]
    split_ifs <;> omega
  | tailSkip list headOld node next first =>
    have hahead := ahead_le h.1.linked h.2.1 hle
    dsimp only [Pc.left]
    split_ifs <;> omega
  | biteNext part1 tail i amount =>
    have hahead := ahead_le h.1.linked h.2 hle
    dsimp only [Pc.left, Pc.stale]
    omega
  | biteSkip part1 part2 tail curr =>
    obtain ⟨done, todo, rest, hbitten, rfl⟩ := h
    rw [List.length_append] at hle
    have hahead : s.ahead curr ≤ size :=
      ahead_le hbitten.linked (by simp) ((Nat.le_add_right _ _).trans hle)
    dsimp only [Pc.left, Pc.stale]
    omega
  | biteCurr part1 part2 tail curr =>
    obtain ⟨done, todo, rest, hbitten, rfl⟩ := h
    rw [List.length_append] at hle
    have hahead : s.ahead curr ≤ size :=
      ahead_le hbitten.linked (by simp) ((Nat.le_add_right _ _).trans hle)
    dsimp only [Pc.left, Pc.stale]
    omega
  | idle => exact le_refl _
  | snatchLoad caller =>
    dsimp only [Pc.left, Pc.stale]
    omega
  | _ =>
    dsimp only [Pc.left]
    omega

/-! ### One access -/

/-- What an access of a thread that stays in its call does to what is left of calls. -/
structure Nears (size : Nat) (s s' : AtomicPushSnatchList) (pc pc' : Pc) : Prop where
  less : pc'.left size s' + pc'.stale s' < pc.left size s + pc.stale s
  head : s'.head = s.head ∨ pc.snatching = true ∧ pc'.snatching = false
  snatching : pc'.snatching = true → pc.snatching = true

/-- An access that leaves the head, of a thread that is past its snatch. -/
theorem Nears.of_head (hhead : s'.head = s.head) (hpast : pc'.snatching = false)
    (hless : pc'.left size s' + pc'.stale s < pc.left size s + pc.stale s) :
    Nears size s s' pc pc' where
  less := by
    rw [Pc.stale_congr hhead]
    exact hless
  head := .inl hhead
  snatching h := by
    rw [hpast] at h
    cases h

theorem startPush_nears (hhead : s'.head = s.head)
    (hleft : 2 * size + 6 < pc.left size s + pc.stale s)
    (hcall : (startPush list held entries).pc ≠ .idle) :
    Nears size s s' pc (startPush list held entries).pc := by
  unfold startPush at hcall ⊢
  split_ifs at hcall ⊢
  · exact absurd rfl hcall
  · exact .of_head hhead rfl hleft

theorem tailTurn_cases (list headOld node skip : Nat) (first : Bool) :
    (tailTurn list headOld node skip first = .pushSkip list headOld node ∧ first = false) ∨
      (tailTurn list headOld node skip first = .tailNext list headOld skip false ∧
        (first = true ∨ node ≠ skip)) := by
  unfold tailTurn
  cases first with
  | true => exact .inr ⟨rfl, .inl rfl⟩
  | false =>
    split_ifs with hturn
    · exact .inl ⟨rfl, rfl⟩
    · exact .inr ⟨rfl, .inr fun heq => hturn ⟨rfl, heq⟩⟩

/-- The last node is its own skip.  Where it is the first as well, the loop asks for it again. -/
theorem tailTurn_last_nears (hlisted : Listed s list ps) (hnode : node ∈ ps) (headOld : Nat)
    (first : Bool) :
    Nears size s s (.tailNext list headOld node first) (tailTurn list headOld node node first) := by
  have hahead := ahead_node hlisted.linked hnode
  rcases tailTurn_cases list headOld node node first with ⟨hturn, rfl⟩ | ⟨hturn, hfirst⟩
  · rw [hturn]
    refine .of_head rfl rfl ?_
    simp only [Pc.left, Pc.stale, Bool.false_eq_true, if_false]
    omega
  · obtain rfl : first = true := hfirst.resolve_right (fun hne => hne rfl)
    rw [hturn]
    refine .of_head rfl rfl ?_
    simp only [Pc.left, Pc.stale, Bool.false_eq_true, if_true, if_false]
    omega

/-- Skip or next, the turn goes to a node after this one. -/
theorem tailTurn_skip_nears (hlisted : Listed s list ps) (hnode : node ∈ ps)
    (hnext : s.next node ≠ nullLink) (headOld : Nat) (first : Bool) :
    Nears size s s (.tailSkip list headOld node (s.next node) first)
      (tailTurn list headOld node (skipFrom s.skip node (s.next node)) first) := by
  have hless : s.ahead (skipFrom s.skip node (s.next node)) < s.ahead node :=
    hlisted.skips.chainLength_skipFrom_lt hlisted.linked hnode hnext
  have hne : skipFrom s.skip node (s.next node) ≠ node :=
    Skips.skipFrom_ne hlisted.linked hnode hnext
  have hturn : tailTurn list headOld node (skipFrom s.skip node (s.next node)) first =
      .tailNext list headOld (skipFrom s.skip node (s.next node)) false := by
    unfold tailTurn
    rw [if_neg fun hsame => hne hsame.2.symm]
  rw [hturn]
  refine .of_head rfl rfl ?_
  simp only [Pc.left, Pc.stale, Bool.false_eq_true, if_false]
  split_ifs <;> omega

theorem biteTurn_left (size : Nat) (s : AtomicPushSnatchList) (part1 tail i amount : Nat) :
    (biteTurn part1 tail i amount).left size s ≤ 4 * size + 9 + s.ahead tail ∧
      (biteTurn part1 tail i amount).stale s = 0 ∧
      (biteTurn part1 tail i amount).snatching = false := by
  unfold biteTurn
  split_ifs
  · exact ⟨le_refl _, rfl, rfl⟩
  · exact ⟨Nat.le_add_right _ _, rfl, rfl⟩

theorem biteSkips_nears {curr : Nat} (hhead : s'.head = s.head)
    (hturn : curr ≠ nullLink → 2 * size + 7 + 2 * s'.ahead curr < pc.left size s + pc.stale s)
    (hleft : 2 * size + 6 < pc.left size s + pc.stale s)
    (hcall : (biteSkips held entries part1 part2 tail curr).pc ≠ .idle) :
    Nears size s s' pc (biteSkips held entries part1 part2 tail curr).pc := by
  unfold biteSkips at hcall ⊢
  split_ifs at hcall ⊢ with hcurr
  · exact .of_head hhead rfl (hturn hcurr)
  · exact startPush_nears hhead hleft hcall

/-- The only access that changes the head and does not return. -/
theorem snatched_nears (hlisted : Listed s s.head ps) (hle : ps.length ≤ size) {caller : Caller}
    (hcall : (snatched s.head held entries caller).pc ≠ .idle) :
    Nears size s { s with head := nullLink } (.snatchSwap caller)
      (snatched s.head held entries caller).pc := by
  unfold snatched at hcall ⊢
  split_ifs at hcall ⊢ with hnull
  · exact absurd rfl hcall
  · cases caller with
    | snatch => exact absurd rfl hcall
    | snatchPart amount =>
      obtain ⟨rest, rfl, -⟩ := hlisted.linked.of_ne_null hnull
      have hahead : s.ahead s.head ≤ size := ahead_le hlisted.linked List.mem_cons_self hle
      obtain ⟨hleft, hstale, hsnatching⟩ :=
        biteTurn_left size { s with head := nullLink } s.head s.head 1 amount
      refine ⟨?_, .inr ⟨rfl, hsnatching⟩, fun _ => rfl⟩
      have hsame : ({ s with head := nullLink } : AtomicPushSnatchList).ahead s.head =
        s.ahead s.head := rfl
      rw [hstale, Nat.add_zero]
      refine lt_of_le_of_lt hleft ?_
      simp only [Pc.left, Pc.stale]
      omega
    | acquire =>
      refine ⟨?_, .inr ⟨rfl, rfl⟩, fun _ => rfl⟩
      simp only [Pc.left, Pc.stale]
      omega

/-- An access of a thread that stays in its call brings the end of the call nearer. -/
theorem PcHolds.next_nears (hpc : PcHolds s ps worker.pc) (hle : ps.length ≤ size)
    (hshared : ∃ qs, Listed s s.head qs ∧ qs.length ≤ size) (hbusy : worker.pc ≠ .idle)
    (hcall : (worker.next s).2.pc ≠ .idle) :
    Nears size s (worker.next s).1 worker.pc (worker.next s).2.pc := by
  unfold Worker.next at hcall ⊢
  generalize hcase : worker.pc = pc at hpc hbusy hcall ⊢
  cases pc with
  | idle => exact absurd rfl hbusy
  | pushLoad list =>
    obtain ⟨hlisted, hnull⟩ := hpc
    obtain ⟨qs, rfl, -⟩ := hlisted.linked.of_ne_null hnull
    have hahead := ahead_le hlisted.linked List.mem_cons_self hle
    refine .of_head rfl rfl ?_
    simp only [Pc.left, Pc.stale, if_true]
    omega
  | tailNext list headOld node first =>
    obtain ⟨hlisted, hnode⟩ := hpc
    dsimp only
    split
    next =>
      refine .of_head rfl rfl ?_
      simp only [Pc.left, Pc.stale]
      split <;> omega
    next => exact tailTurn_last_nears hlisted hnode headOld first
  | tailSkip list headOld node next first =>
    obtain ⟨hlisted, hnode, rfl, hnext⟩ := hpc
    exact tailTurn_skip_nears hlisted hnode hnext headOld first
  | pushSkip list headOld tail =>
    refine .of_head rfl rfl ?_
    simp only [Pc.left, Pc.stale]
    omega
  | pushNext list headOld tail =>
    refine .of_head rfl rfl ?_
    simp only [Pc.left, Pc.stale]
    omega
  | pushSwap list headOld tail =>
    dsimp only at hcall ⊢
    split at hcall
    next => exact absurd rfl hcall
    next hstale =>
      -- the exchange failed and loaded the head as it is now
      rw [if_neg hstale]
      refine .of_head rfl rfl ?_
      simp only [Pc.left, Pc.stale, hstale, if_true, if_false]
      omega
  | snatchLoad caller =>
    dsimp only at hcall ⊢
    split at hcall
    next => exact absurd rfl hcall
    next hnull =>
      rw [if_neg hnull]
      refine ⟨?_, .inl rfl, fun _ => rfl⟩
      simp only [Pc.left, Pc.stale]
      omega
  | snatchSwap caller =>
    obtain ⟨qs, hlisted, hlength⟩ := hshared
    exact snatched_nears hlisted hlength hcall
  | biteNext part1 tail i amount =>
    obtain ⟨hlisted, htail⟩ := hpc
    have hahead := ahead_node hlisted.linked htail
    dsimp only at hcall ⊢
    split
    next =>
      refine .of_head rfl rfl ?_
      simp only [Pc.left, Pc.stale]
      omega
    next =>
      obtain ⟨hleft, hstale, hsnatching⟩ :=
        biteTurn_left size s part1 (s.next tail) (i + 1) amount
      refine .of_head rfl hsnatching ?_
      rw [hstale, Nat.add_zero]
      refine lt_of_le_of_lt hleft ?_
      simp only [Pc.left, Pc.stale]
      omega
  | biteRest part1 tail =>
    refine .of_head rfl rfl ?_
    simp only [Pc.left, Pc.stale]
    omega
  | biteCut part1 part2 tail =>
    -- the list ends at `tail` from now on
    obtain ⟨hlisted, htail, rfl⟩ := hpc
    obtain ⟨todo, rest, hbitten, rfl⟩ := hlisted.setNext htail
    rw [List.length_append] at hle
    refine biteSkips_nears rfl (fun hcurr => ?_) ?_ hcall
    · obtain ⟨after, rfl, -⟩ := hbitten.linked.of_ne_null hcurr
      have hahead := ahead_le hbitten.linked List.mem_cons_self ((Nat.le_add_right _ _).trans hle)
      simp only [Pc.left, Pc.stale]
      omega
    · simp only [Pc.left, Pc.stale]
      omega
  | biteSkip part1 part2 tail curr =>
    refine .of_head rfl rfl ?_
    have hsame : (s.setSkip curr tail).ahead curr = s.ahead curr := rfl
    simp only [Pc.left, Pc.stale]
    omega
  | biteCurr part1 part2 tail curr =>
    obtain ⟨done, todo, rest, hbitten, rfl⟩ := hpc
    have hahead := ahead_node hbitten.linked
      (show curr ∈ done ++ [curr] ++ todo from by simp)
    refine biteSkips_nears rfl (fun _ => ?_) ?_ hcall
    · simp only [Pc.left, Pc.stale]
      omega
    · simp only [Pc.left, Pc.stale]
      omega
  | acquireNext snatched =>
    refine startPush_nears rfl ?_ hcall
    simp only [Pc.left, Pc.stale]
    omega
  | resetNext thread =>
    refine .of_head rfl rfl ?_
    simp only [Pc.left, Pc.stale]
    omega
  | resetSkip thread =>
    refine startPush_nears rfl ?_ hcall
    simp only [Pc.left, Pc.stale]
    omega

/-- An access writes no link but those of the thread's own nodes. -/
theorem PcHolds.next_links (hpc : PcHolds s ps worker.pc) (hn : n ∉ ps) :
    (worker.next s).1.next n = s.next n := by
  unfold Worker.next
  generalize hcase : worker.pc = pc at hpc
  cases pc with
  | tailNext list headOld node first =>
    dsimp only
    split_ifs
    · rfl
    · rfl
  | pushNext list headOld tail =>
    exact Function.update_of_ne (ne_of_mem_of_not_mem (List.mem_of_getLast? hpc.last) hn).symm ..
  | pushSwap list headOld tail =>
    dsimp only
    split_ifs
    · rfl
    · rfl
  | snatchLoad caller =>
    dsimp only
    split_ifs
    · rfl
    · rfl
  | biteNext part1 tail i amount =>
    dsimp only
    split_ifs
    · rfl
    · rfl
  | biteCut part1 part2 tail =>
    exact Function.update_of_ne (ne_of_mem_of_not_mem hpc.2.1 hn).symm ..
  | resetNext thread =>
    obtain ⟨rfl, -⟩ := hpc
    exact Function.update_of_ne (List.ne_of_not_mem_cons hn) ..
  | _ => rfl

/-! ### Threads -/

variable {σ σ' σ₀ : Machine T} {ts : List T}

/-- A list has at most as many nodes as there are. -/
theorem SharedHolds.length_le (hI : SharedHolds nodes g s) (hall : ∀ n ∈ nodes, n ∈ all)
    (hnodup : ps.Nodup) (hps : ∀ n ∈ ps, g n ≠ none) : ps.length ≤ all.length := by
  refine (List.subperm_of_subset hnodup fun n hn => hall n ?_).length_le
  by_contra hnot
  exact hps n hn ((hI.nodes n).mpr hnot)

theorem WorkerHolds.active_length (hw : WorkerHolds g s t worker) (hI : SharedHolds nodes g s)
    (hall : ∀ n ∈ nodes, n ∈ all) :
    ∃ ps, PcHolds s ps worker.pc ∧ ps.length ≤ all.length ∧
      ∀ n, g n = some (.active t) ↔ n ∈ ps := by
  obtain ⟨ps, hpc, hactive⟩ := hw.active
  refine ⟨ps, hpc, hI.length_le hall (PcHolds.work_nodes hpc).2 fun n hn => ?_, hactive⟩
  rw [(hactive n).mpr hn]
  exact Option.some_ne_none _

theorem SharedHolds.list_length (hI : SharedHolds nodes g s) (hall : ∀ n ∈ nodes, n ∈ all) :
    ∃ qs, Listed s s.head qs ∧ qs.length ≤ all.length := by
  obtain ⟨qs, hlisted, hqs⟩ := hI.list
  refine ⟨qs, hlisted, hI.length_le hall hlisted.nodup fun n hn => ?_⟩
  rw [(hqs n).mpr hn]
  exact Option.some_ne_none _

/-- An access of another thread leaves the links of the nodes that a thread works on. -/
theorem Guarded.other_links (hA : ∀ u, WorkerHolds g σ.shared u (σ.locals u)) (hu : u ≠ t) :
    ∃ ps, PcHolds σ.shared ps (σ.locals t).pc ∧
      ∀ n ∈ ps, ((σ.locals u).next σ.shared).1.next n = σ.shared.next n := by
  obtain ⟨ps, hpc, hactive⟩ := (hA t).active
  obtain ⟨qs, hpc', hactive'⟩ := (hA u).active
  refine ⟨ps, hpc, fun n hn => hpc'.next_links ?_⟩
  rw [← hactive', (hactive n).mpr hn]
  exact fun heq => hu (Place.active.inj (Option.some_inj.mp heq)).symm

/-- An access leaves the calls of the other threads as long as they were. -/
theorem Guarded.next_left (hA : ∀ u, WorkerHolds g σ.shared u (σ.locals u)) (hu : u ≠ t)
    (hnext : (σ.locals t).next σ.shared = (s, worker)) :
    (σ.locals u).pc.left size s = (σ.locals u).pc.left size σ.shared := by
  obtain ⟨ps, hpc, hlinks⟩ := Guarded.other_links hA hu.symm
  rw [hnext] at hlinks
  exact hpc.left_congr hlinks

/-- What an access does to its own thread, and to the others. -/
theorem Guarded.next_nears (hI : SharedHolds nodes g σ.shared)
    (hA : ∀ u, WorkerHolds g σ.shared u (σ.locals u)) (hall : ∀ n ∈ nodes, n ∈ all)
    (hbusy : (σ.locals t).pc ≠ .idle) (hnext : (σ.locals t).next σ.shared = (s, worker))
    (hcall : worker.pc ≠ .idle) :
    Nears all.length σ.shared s (σ.locals t).pc worker.pc ∧ ∀ u, u ≠ t →
      (σ.locals u).pc.left all.length s = (σ.locals u).pc.left all.length σ.shared := by
  obtain ⟨ps, hpc, hle, -⟩ := (hA t).active_length hI hall
  have hnears := hpc.next_nears hle (hI.list_length hall) hbusy
  rw [hnext] at hnears
  exact ⟨hnears hcall, fun u hu => Guarded.next_left hA hu hnext⟩

/-- The number of threads that may still change the head without returning. -/
def pending (ts : List T) (σ : Machine T) : Nat := ts.countP fun t => (σ.locals t).pc.snatching

/-- What is left of the call of a thread, with the turns that snatches may cost it. -/
noncomputable def rank (size : Nat) (ts : List T) (σ : Machine T) (t : T) : Nat :=
  (σ.locals t).pc.left size σ.shared + (σ.locals t).pc.stale σ.shared + 2 * pending ts σ

theorem rank_le (h : Guarded nodes σ) (hall : ∀ n ∈ nodes, n ∈ all) (ts : List T) (t : T) :
    rank all.length ts σ t ≤ 5 * all.length + 12 + 2 * ts.length := by
  obtain ⟨g, hI, hA⟩ := h
  obtain ⟨ps, hpc, hle, -⟩ := (hA t).active_length hI hall
  have hleft := hpc.left_le hle
  have hpending : pending ts σ ≤ ts.length := List.countP_le_length
  unfold rank
  omega

/-! ### Lock-freedom -/

variable [DecidableEq T]

theorem pending_le {s : AtomicPushSnatchList}
    (h : worker.pc.snatching = true → (σ.locals t).pc.snatching = true) :
    pending ts (σ.set t s worker) ≤ pending ts σ := by
  refine List.countP_mono_left fun u _ hu => ?_
  by_cases hut : u = t
  · subst hut
    rw [Threads.set_locals_self] at hu
    exact h hu
  · rwa [Threads.set_locals_of_ne hut] at hu

theorem pending_lt {s : AtomicPushSnatchList} (ht : t ∈ ts)
    (h : (σ.locals t).pc.snatching = true) (h' : worker.pc.snatching = false) :
    pending ts (σ.set t s worker) < pending ts σ := by
  have hle : ∀ ts : List T, pending ts (σ.set t s worker) ≤ pending ts σ := fun ts =>
    pending_le fun hworker => by rw [h'] at hworker; cases hworker
  obtain ⟨before, after, rfl⟩ := List.append_of_mem ht
  have hbefore := hle before
  have hafter := hle after
  unfold pending at hbefore hafter ⊢
  simp only [List.countP_append, List.countP_cons, Threads.set_locals_self, h, h', if_true,
    Bool.false_eq_true, if_false]
  omega

/-- A call begins. -/
inductive Begins (σ : Machine T) : Machine T → Prop where
  | push (t : T) (list : Nat) (hidle : (σ.locals t).pc = .idle)
      (hheld : list = nullLink ∨ list ∈ (σ.locals t).held) :
      Begins σ (σ.set t σ.shared
        (startPush list ((σ.locals t).held.erase list) (σ.locals t).entries))
  | snatch (t : T) (caller : Caller) (hidle : (σ.locals t).pc = .idle) :
      Begins σ (σ.set t σ.shared ⟨.snatchLoad caller, (σ.locals t).held, (σ.locals t).entries⟩)
  | putThread (t : T) (thread : Nat) (hidle : (σ.locals t).pc = .idle)
      (hheld : thread ∈ (σ.locals t).entries) :
      Begins σ (σ.set t σ.shared
        ⟨.resetNext thread, (σ.locals t).held, (σ.locals t).entries.erase thread⟩)

theorem Begins.step (h : Begins σ σ') : Step σ σ' := by
  cases h with
  | push t list hidle hheld => exact .push t list hidle hheld
  | snatch t caller hidle => exact .snatch t caller hidle
  | putThread t thread hidle hheld => exact .putThread t thread hidle hheld

/-- A call that begins is one of the longest, at most. -/
theorem Begins.pc_left (h : Begins σ σ') (size : Nat) : ∃ t worker, (σ.locals t).pc = .idle ∧
    σ' = σ.set t σ.shared worker ∧
    worker.pc.left size σ.shared + worker.pc.stale σ.shared ≤ 5 * size + 12 := by
  cases h with
  | push t list hidle hheld =>
    refine ⟨t, _, hidle, rfl, ?_⟩
    unfold startPush
    split_ifs
    · exact le_refl _
    · simp only [Pc.left, Pc.stale]
      omega
  | snatch t caller hidle => exact ⟨t, _, hidle, rfl, by simp only [Pc.left, Pc.stale]; omega⟩
  | putThread t thread hidle hheld =>
    exact ⟨t, _, hidle, rfl, by simp only [Pc.left, Pc.stale]; omega⟩

/-- A run, and the accesses in it of threads that are in a call, each with the state it leaves its
thread in. -/
inductive Accesses (σ : Machine T) : List (T × Worker) → Machine T → Prop where
  | start : Accesses σ [] σ
  | begins {accesses : List (T × Worker)} {σ' σ'' : Machine T} (h : Accesses σ accesses σ')
      (hstep : Begins σ' σ'') : Accesses σ accesses σ''
  | access {accesses : List (T × Worker)} {σ' : Machine T} {t : T} {s : AtomicPushSnatchList}
      {worker : Worker} (h : Accesses σ accesses σ') (hbusy : (σ'.locals t).pc ≠ .idle)
      (hnext : (σ'.locals t).next σ'.shared = (s, worker)) :
      Accesses σ (accesses ++ [(t, worker)]) (σ'.set t s worker)

/-- An access that does not return. -/
def Silent (nodes : Set Nat) (ts : List T) (t : T) (σ σ' : Machine T) : Prop :=
  Guarded nodes σ ∧ t ∈ ts ∧ (σ.locals t).pc ≠ .idle ∧ ∃ s worker,
    (σ.locals t).next σ.shared = (s, worker) ∧ worker.pc ≠ .idle ∧ σ' = σ.set t s worker

/-- **Accesses that do not return use up the ranks.**  A snatch that costs the others a turn is one
that is no longer pending. -/
theorem silent_lowers (hall : ∀ n ∈ nodes, n ∈ all) :
    Lowers (Silent nodes ts) Begins (rank all.length ts) where
  self := by
    rintro t σ - ⟨⟨g, hI, hA⟩, -, hbusy, s, worker, hnext, hcall, rfl⟩
    obtain ⟨hnears, -⟩ := Guarded.next_nears hI hA hall hbusy hnext hcall
    have hless := hnears.less
    have hpending : pending ts (σ.set t s worker) ≤ pending ts σ := pending_le hnears.snatching
    unfold rank
    rw [Threads.set_shared, Threads.set_locals_self]
    omega
  other := by
    rintro t u σ - ⟨⟨g, hI, hA⟩, ht, hbusy, s, worker, hnext, hcall, rfl⟩ hu
    obtain ⟨hnears, hleft⟩ := Guarded.next_nears hI hA hall hbusy hnext hcall
    unfold rank
    rw [Threads.set_shared, Threads.set_locals_of_ne hu, hleft u hu]
    rcases hnears.head with hhead | ⟨hsnatch, hdone⟩
    -- where the head stays, no turn of another thread is lost
    · have hpending : pending ts (σ.set t s worker) ≤ pending ts σ := pending_le hnears.snatching
      rw [Pc.stale_congr hhead]
      omega
    · have hpending : pending ts (σ.set t s worker) < pending ts σ := pending_lt ht hsnatch hdone
      have hstale := Pc.stale_le s (σ.locals u).pc
      omega
  free := by
    intro u σ σ' hstep
    obtain ⟨t, worker, hidle, rfl, hle⟩ := hstep.pc_left all.length
    have hpending : pending ts (σ.set t σ.shared worker) ≤ pending ts σ :=
      pending_le fun _ => by rw [hidle]; rfl
    unfold rank
    rw [Threads.set_shared]
    -- between two calls the rank is more than that of any call
    by_cases hu : u = t
    · subst hu
      rw [Threads.set_locals_self, hidle]
      have hidle : Pc.idle.left all.length σ.shared + Pc.idle.stale σ.shared =
        5 * all.length + 12 := rfl
      omega
    · rw [Threads.set_locals_of_ne hu]
      omega

/-- Where no call returns, the invariant stays. -/
theorem Accesses.moves {accesses : List (T × Worker)} (h : Accesses σ accesses σ')
    (hσ : Guarded nodes σ) (hts : ∀ x ∈ accesses, x.1 ∈ ts)
    (hnone : ∀ x ∈ accesses, x.2.pc ≠ .idle) :
    Moves (Silent nodes ts) Begins σ (accesses.map Prod.fst) σ' ∧ Guarded nodes σ' := by
  induction h with
  | start => exact ⟨.start, hσ⟩
  | begins _ hstep ih =>
    obtain ⟨hmoves, hguarded⟩ := ih hts hnone
    exact ⟨hmoves.free hstep, hguarded.step hstep.step⟩
  | @access accesses σ' t s worker _ hbusy hnext ih =>
    obtain ⟨hmoves, hguarded⟩ := ih (fun x hx => hts x (List.mem_append_left _ hx))
      fun x hx => hnone x (List.mem_append_left _ hx)
    have hlast : (t, worker) ∈ accesses ++ [(t, worker)] :=
      List.mem_append_right _ List.mem_cons_self
    constructor
    · rw [List.map_append]
      exact hmoves.step ⟨hguarded, hts _ hlast, hbusy, s, worker, hnext, hnone _ hlast, rfl⟩
    · have hguarded' := hguarded.next t
      rw [hnext] at hguarded'
      exact hguarded'

/-- The invariant, with a list that has all nodes. -/
theorem Reachable.guarded_within (h : Reachable σ₀ σ) (hidle : ∀ t, (σ₀.locals t).pc = .idle)
    (hstart : Exclusive σ₀) (hall : ∀ n place, At σ₀ n place → n ∈ all) :
    ∃ nodes, Guarded nodes σ ∧ ∀ n ∈ nodes, n ∈ all := by
  refine ⟨_, h.guarded (hstart.guarded hidle), ?_⟩
  rintro n ⟨place, hat⟩
  exact hall n place hat

/-- **The push/snatch list and the graveyard are lock-free**: in every run, whatever calls begin in
it and however the accesses of the threads interleave, among so many accesses for each of the
threads there is one with which a call returns. -/
theorem reachable_calls_return (hidle : ∀ t, (σ₀.locals t).pc = .idle) (hstart : Exclusive σ₀)
    (hall : ∀ n place, At σ₀ n place → n ∈ all) (h : Reachable σ₀ σ)
    {accesses : List (T × Worker)} (haccesses : Accesses σ accesses σ')
    (hts : ∀ x ∈ accesses, x.1 ∈ ts)
    (hlong : (5 * all.length + 12 + 2 * ts.length) * ts.length < accesses.length) :
    ∃ x ∈ accesses, x.2.pc = .idle := by
  obtain ⟨nodes, hguarded, hnodes⟩ := h.guarded_within hidle hstart hall
  by_contra hnone
  obtain ⟨hmoves, -⟩ := haccesses.moves hguarded hts fun x hx hpc => hnone ⟨x, hx, hpc⟩
  have hle := hmoves.labels_length_le (silent_lowers hnodes) hts fun t _ =>
    rank_le hguarded hnodes ts t
  omega

/-- A snatch of an empty list returns with its first access, any number of times. -/
theorem Accesses.misses (hidle : (σ.locals t).pc = .idle) (hempty : σ.shared.head = nullLink)
    (count : Nat) : Accesses σ (List.replicate count (t, σ.locals t)) σ := by
  induction count with
  | zero => exact .start
  | succ count ih =>
    rw [List.replicate_succ']
    have hnext : Worker.next σ.shared
        ⟨.snatchLoad .snatch, (σ.locals t).held, (σ.locals t).entries⟩ =
          (σ.shared, σ.locals t) := by
      unfold Worker.next
      dsimp only
      rw [if_pos hempty]
      unfold snatched
      rw [if_pos rfl, ← hidle]
    have hsame : (σ.set t σ.shared
        ⟨.snatchLoad .snatch, (σ.locals t).held, (σ.locals t).entries⟩).set t σ.shared
          (σ.locals t) = σ := by
      rw [Threads.set_set]
      exact Threads.ext rfl (Function.update_eq_self ..)
    have haccess : Accesses σ (List.replicate count (t, σ.locals t) ++ [(t, σ.locals t)])
        ((σ.set t σ.shared ⟨.snatchLoad .snatch, (σ.locals t).held, (σ.locals t).entries⟩).set t
          σ.shared (σ.locals t)) := by
      refine (ih.begins (.snatch t .snatch hidle)).access ?_ ?_
      · rw [Threads.set_locals_self]
        exact Pc.noConfusion
      · rw [Threads.set_locals_self]
        exact hnext
    rwa [hsame] at haccess

theorem twoThreads_idle (t : Bool) : (twoThreads.locals t).pc = .idle := by
  cases t with
  | false => rfl
  | true => rfl

/-- The nodes of `twoThreads`. -/
theorem twoThreads_nodes (n : Nat) (place : Place Bool) (h : At twoThreads n place) :
    n ∈ [1, 2, 3, 4] := by
  cases place with
  | shared =>
    obtain ⟨ps, hps, hn⟩ := h
    have hlist : Linked nullLink twoThreads.shared.next twoThreads.shared.head [1, 2] :=
      ⟨rfl, by decide, rfl, by decide, rfl⟩
    rw [hps.unique hlist] at hn
    simp only [List.mem_cons, List.not_mem_nil, or_false] at hn ⊢
    omega
  | held t list =>
    obtain ⟨hlist, ps, hps, hn⟩ := h
    cases t with
    | true => cases hlist
    | false =>
      obtain rfl : list = 3 := List.mem_singleton.mp hlist
      have hlinked : Linked nullLink twoThreads.shared.next 3 [3] := ⟨rfl, by decide, rfl⟩
      rw [hps.unique hlinked] at hn
      simp only [List.mem_cons, List.not_mem_nil, or_false] at hn ⊢
      omega
  | active t =>
    obtain ⟨ps, hps, hn⟩ := h
    rw [twoThreads_idle] at hps
    obtain rfl : ps = [] := hps
    cases hn
  | entry t =>
    cases t with
    | false => cases h
    | true =>
      obtain rfl : n = 4 := List.mem_singleton.mp h
      decide

/-- One thread has taken the shared list, and tries again and again to take another. -/
theorem reachable_calls_return_twoThreads : ∃ σ, Reachable twoThreads σ ∧
    (σ.locals true).held = [1] ∧ ∃ accesses, Accesses σ accesses σ ∧
      ∃ x ∈ accesses, x.2.pc = .idle := by
  have hstart : Reachable twoThreads twoThreads := .start
  obtain ⟨σ, hrun, hpc, hhead, hheld⟩ : ∃ σ, Reachable twoThreads σ ∧
      (σ.locals true).pc = .idle ∧ σ.shared.head = nullLink ∧ (σ.locals true).held = [1] :=
    ⟨_, ((hstart.step (.snatch true .snatch rfl)).step (.next true)).step (.next true),
      rfl, rfl, rfl⟩
  have haccesses : Accesses σ (List.replicate 35 (true, σ.locals true)) σ :=
    Accesses.misses hpc hhead 35
  have hts : ∀ x ∈ List.replicate 35 (true, σ.locals true), x.1 ∈ [true] := by
    intro x hx
    rw [List.eq_of_mem_replicate hx]
    exact List.mem_singleton_self _
  refine ⟨σ, hrun, hheld, _, haccesses,
    reachable_calls_return twoThreads_idle twoThreads_exclusive twoThreads_nodes hrun haccesses
      hts ?_⟩
  rw [List.length_replicate]
  decide

/-! ### One call -/

/-- A run during which `t` stays in its call, with the number of accesses that `t` makes in it and
the number of those of others that change the head. -/
inductive DuringCall (t : T) (σ : Machine T) : Nat → Nat → Machine T → Prop where
  | start (hbusy : (σ.locals t).pc ≠ .idle) : DuringCall t σ 0 0 σ
  | begins {accesses changes : Nat} {σ' σ'' : Machine T} (h : DuringCall t σ accesses changes σ')
      (hstep : Begins σ' σ'') : DuringCall t σ accesses changes σ''
  | own {accesses changes : Nat} {σ' : Machine T} {s : AtomicPushSnatchList} {worker : Worker}
      (h : DuringCall t σ accesses changes σ')
      (hnext : (σ'.locals t).next σ'.shared = (s, worker)) (hcall : worker.pc ≠ .idle) :
      DuringCall t σ (accesses + 1) changes (σ'.set t s worker)
  | other {accesses changes : Nat} {σ' : Machine T} {u : T} {s : AtomicPushSnatchList}
      {worker : Worker} (h : DuringCall t σ accesses changes σ') (hu : u ≠ t)
      (hnext : (σ'.locals u).next σ'.shared = (s, worker)) :
      DuringCall t σ accesses (changes + if s.head = σ'.shared.head then 0 else 1)
        (σ'.set u s worker)

variable {accesses changes : Nat}

/-- Each access of the call is paid for by what was left of it, or by a change of the head. -/
theorem DuringCall.left_le (h : DuringCall t σ accesses changes σ') (hσ : Guarded nodes σ)
    (hall : ∀ n ∈ nodes, n ∈ all) :
    Guarded nodes σ' ∧ (σ'.locals t).pc ≠ .idle ∧
      (σ'.locals t).pc.left all.length σ'.shared + (σ'.locals t).pc.stale σ'.shared + accesses ≤
        5 * all.length + 12 + 2 * changes := by
  induction h with
  | start hbusy =>
    obtain ⟨g, hI, hA⟩ := id hσ
    obtain ⟨ps, hpc, hle, -⟩ := (hA t).active_length hI hall
    exact ⟨hσ, hbusy, hpc.left_le hle⟩
  | begins _ hstep ih =>
    obtain ⟨hguarded, hbusy, hle⟩ := ih
    have hguarded' := hguarded.step hstep.step
    obtain ⟨u, worker, hidle, rfl, -⟩ := hstep.pc_left all.length
    have hu : t ≠ u := by
      rintro rfl
      exact hbusy hidle
    refine ⟨hguarded', ?_⟩
    rw [Threads.set_locals_of_ne hu, Threads.set_shared]
    exact ⟨hbusy, hle⟩
  | own _ hnext hcall ih =>
    obtain ⟨hguarded, hbusy, hle⟩ := ih
    have hguarded' := hguarded.next t
    rw [hnext] at hguarded'
    refine ⟨hguarded', ?_⟩
    obtain ⟨g, hI, hA⟩ := hguarded
    obtain ⟨hnears, -⟩ := Guarded.next_nears hI hA hall hbusy hnext hcall
    have hless := hnears.less
    rw [Threads.set_locals_self, Threads.set_shared]
    refine ⟨hcall, ?_⟩
    omega
  | @other accesses changes σ' u s worker _ hu hnext ih =>
    obtain ⟨hguarded, hbusy, hle⟩ := ih
    have hguarded' := hguarded.next u
    rw [hnext] at hguarded'
    refine ⟨hguarded', ?_⟩
    obtain ⟨g, hI, hA⟩ := hguarded
    have hchange := Pc.stale_change σ'.shared s (σ'.locals t).pc
    rw [Threads.set_locals_of_ne hu.symm, Threads.set_shared,
      Guarded.next_left hA hu.symm hnext]
    refine ⟨hbusy, ?_⟩
    omega

/-- **A call is long only where others change the head.**  In every run, the accesses of one call
are bounded by the number of nodes and by the changes of the head that other threads make during
it. -/
theorem reachable_call_length (hidle : ∀ t, (σ₀.locals t).pc = .idle) (hstart : Exclusive σ₀)
    (hall : ∀ n place, At σ₀ n place → n ∈ all) (h : Reachable σ₀ σ)
    (hcall : DuringCall t σ accesses changes σ') :
    accesses < 5 * all.length + 12 + 2 * changes := by
  obtain ⟨nodes, hguarded, hnodes⟩ := h.guarded_within hidle hstart hall
  obtain ⟨-, -, hle⟩ := hcall.left_le hguarded hnodes
  have hpos := Pc.left_pos all.length σ'.shared (σ'.locals t).pc
  omega

/-- `twoThreads` where a thread has begun to push the list that it holds. -/
def pushing : Machine Bool :=
  twoThreads.set false twoThreads.shared
    (startPush 3 ((twoThreads.locals false).held.erase 3) (twoThreads.locals false).entries)

/-- A `push` takes one more turn, since the list was snatched after it had loaded the head. -/
theorem reachable_call_length_lostTurn : ∃ σ, Reachable twoThreads pushing ∧
    DuringCall false pushing 7 1 σ ∧ (σ.locals false).pc = .pushSwap 3 nullLink 3 ∧
      7 < 5 * [1, 2, 3, 4].length + 12 + 2 * 1 := by
  have hstart : Reachable twoThreads twoThreads := .start
  have hrun : Reachable twoThreads pushing :=
    hstart.step (.push false 3 rfl (.inr (List.mem_singleton_self 3)))
  have hbegun : DuringCall false pushing 0 0 pushing := .start fun h => by cases h
  have hload := hbegun.own rfl fun h => by cases h
  have htail := (hload.own rfl fun h => by cases h).own rfl fun h => by cases h
  have hloaded := (htail.begins (.snatch true .snatch rfl)).other (u := true) (by decide) rfl
  have hsnatched := hloaded.other (u := true) (by decide) rfl
  have hwritten := (hsnatched.own rfl fun h => by cases h).own rfl fun h => by cases h
  have hlost := (hwritten.own rfl fun h => by cases h).own rfl fun h => by cases h
  exact ⟨_, hrun, hlost, rfl,
    reachable_call_length twoThreads_idle twoThreads_exclusive twoThreads_nodes hrun hlost⟩

end Cuw3.AtomicPushSnatchList
