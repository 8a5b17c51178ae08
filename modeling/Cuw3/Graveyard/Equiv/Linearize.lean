/-
  The push/snatch list is a list of nodes: what is pushed goes in front of it, and a snatch takes
  all of it.

  A `push` takes effect with the compare-exchange that succeeds, a `snatch` with the exchange, or
  with the load that finds the list empty (`Commits`).  Every other access leaves the list as it is,
  head and nodes (`Guarded.silent`), so that the runs of the threads are runs of the list of nodes,
  whichever accesses come between (`reachable_effects`).

  What a call pushes is settled when it begins, or when it snatches: `Pc.Owes` says which nodes are
  left to push, and no access of the call or of another thread changes them.  So a call that returns
  has taken effect as a whole (`reachable_call_effects`).
-/
import Cuw3.Graveyard.Equiv.Progress

namespace Cuw3.AtomicPushSnatchList

open Lib

variable {T : Type}

/-! ### The list of nodes -/

/-- What a call does to the list. -/
inductive Effect where
  | pushed (ps : List Nat)
  | snatched (ps : List Nat)

/-- One call after the other. -/
inductive Effects (ps : List Nat) : List Effect → List Nat → Prop where
  | start : Effects ps [] ps
  | pushed {effects : List Effect} {qs : List Nat} (rs : List Nat) (h : Effects ps effects qs) :
      Effects ps (effects ++ [.pushed rs]) (rs ++ qs)
  | snatched {effects : List Effect} {qs : List Nat} (h : Effects ps effects qs) :
      Effects ps (effects ++ [.snatched qs]) []

/-- The access takes effect.  The nodes of a list that is pushed are those up to its tail, which
links to the head by then. -/
inductive Commits (s : AtomicPushSnatchList) : Pc → Effect → Prop where
  | push {list headOld tail : Nat} {ps : List Nat} (hhead : s.head = headOld)
      (hnodes : Linked nullLink (Function.update s.next tail nullLink) list ps) :
      Commits s (.pushSwap list headOld tail) (.pushed ps)
  | miss (caller : Caller) (hhead : s.head = nullLink) :
      Commits s (.snatchLoad caller) (.snatched [])
  | snatch (caller : Caller) {ps : List Nat} (hnodes : Linked nullLink s.next s.head ps) :
      Commits s (.snatchSwap caller) (.snatched ps)

variable {nodes : Set Nat} {g : Custody T} {s : AtomicPushSnatchList} {σ σ' σ₀ : Machine T} {t : T}
  {ps qs : List Nat} {worker : Worker} {pc : Pc} {effect : Effect} {effects : List Effect}

/-- An access that takes no effect leaves the head. -/
theorem PcHolds.next_head (hpc : PcHolds s ps worker.pc) (hlist : Linked nullLink s.next s.head qs)
    (hsilent : ∀ effect, ¬Commits s worker.pc effect) : (worker.next s).1.head = s.head := by
  unfold Worker.next
  generalize hcase : worker.pc = pc at hpc hsilent ⊢
  cases pc with
  | tailNext list headOld node first =>
    dsimp only
    split_ifs
    · rfl
    · rfl
  | pushSwap list headOld tail =>
    dsimp only
    split
    next hhead => exact absurd (.push hhead hpc.1.linked) (hsilent (.pushed ps))
    next => rfl
  | snatchLoad caller =>
    dsimp only
    split_ifs
    · rfl
    · rfl
  | snatchSwap caller => exact absurd (.snatch caller hlist) (hsilent (.snatched qs))
  | biteNext part1 tail i amount =>
    dsimp only
    split_ifs
    · rfl
    · rfl
  | _ => rfl

/-- An access that takes no effect leaves the list. -/
theorem Guarded.silent (hI : SharedHolds nodes g σ.shared)
    (hA : ∀ u, WorkerHolds g σ.shared u (σ.locals u))
    (hlist : Linked nullLink σ.shared.next σ.shared.head qs)
    (hsilent : ∀ effect, ¬Commits σ.shared (σ.locals t).pc effect) :
    Linked nullLink ((σ.locals t).next σ.shared).1.next ((σ.locals t).next σ.shared).1.head qs := by
  obtain ⟨ps, hpc, hactive⟩ := (hA t).active
  obtain ⟨qs', hlisted, hshared⟩ := hI.list
  obtain rfl := hlist.unique hlisted.linked
  rw [hpc.next_head hlist hsilent]
  refine hlist.congr fun n hn => hpc.next_links ?_
  -- a node of the list is not one that the thread works on
  rw [← hactive, (hshared n).mpr hn]
  simp

/-- An access that takes effect does so to the list of nodes. -/
theorem Guarded.commits (hA : ∀ u, WorkerHolds g σ.shared u (σ.locals u))
    (hlist : Linked nullLink σ.shared.next σ.shared.head qs)
    (hcommits : Commits σ.shared (σ.locals t).pc effect) (h : Effects ps effects qs) :
    ∃ qs', Effects ps (effects ++ [effect]) qs' ∧
      Linked nullLink ((σ.locals t).next σ.shared).1.next
        ((σ.locals t).next σ.shared).1.head qs' := by
  obtain ⟨active, hpc, -⟩ := (hA t).active
  unfold Worker.next
  generalize hcase : (σ.locals t).pc = pc at hpc hcommits
  cases hcommits with
  | @push list headOld tail rs hhead hnodes =>
    -- the tail links to the head, whatever happened to the list since the load
    obtain ⟨hopened, hnext⟩ := hpc
    dsimp only
    rw [if_pos hhead]
    rw [hhead, ← hnext] at hlist
    obtain rfl := hnodes.unique hopened.linked
    exact ⟨_, h.pushed rs, hnodes.append hopened.last hlist⟩
  | miss caller hhead =>
    dsimp only
    rw [if_pos hhead]
    rw [hhead, Linked.null_iff] at hlist
    subst hlist
    exact ⟨[], h.snatched, hhead⟩
  | snatch caller hnodes =>
    obtain rfl := hnodes.unique hlist
    exact ⟨[], h.snatched, rfl⟩

/-! ### One call -/

/-- The nodes that the rest of the call pushes. -/
def Pc.Owes (s : AtomicPushSnatchList) (rest : List Nat) : Pc → Prop
  | .idle => rest = []
  | .pushLoad list => Linked nullLink s.next list rest
  | .tailNext list _ _ _ => Linked nullLink s.next list rest
  | .tailSkip list _ _ _ _ => Linked nullLink s.next list rest
  | .pushSkip list _ _ => Linked nullLink s.next list rest
  | .pushNext list _ tail => Linked nullLink (Function.update s.next tail nullLink) list rest
  | .pushSwap list _ tail => Linked nullLink (Function.update s.next tail nullLink) list rest
  | .snatchLoad _ => False
  | .snatchSwap _ => False
  | .biteNext part1 tail i amount => ∃ first after, Linked nullLink s.next part1 (first ++ after) ∧
      first.getLast? = some tail ∧ i < amount ∧ rest = after.drop (amount - i)
  | .biteRest part1 tail => ∃ first, Linked nullLink s.next part1 (first ++ rest) ∧
      first.getLast? = some tail
  | .biteCut part1 _ tail => ∃ first, Linked nullLink s.next part1 (first ++ rest) ∧
      first.getLast? = some tail
  | .biteSkip _ part2 _ _ => Linked nullLink s.next part2 rest
  | .biteCurr _ part2 _ _ => Linked nullLink s.next part2 rest
  | .acquireNext snatched => Linked nullLink s.next snatched (snatched :: rest)
  | .resetNext thread => rest = [thread]
  | .resetSkip thread => rest = [thread]

/-- The nodes of a list that was snatched that are pushed back. -/
def Caller.back (ps : List Nat) : Caller → List Nat
  | .snatch => []
  | .snatchPart amount => ps.drop (max 1 amount)
  | .acquire => ps.drop 1

/-- The effects of a push; that of the empty list has none. -/
def pushes (ps : List Nat) : List Effect := if ps = [] then [] else [.pushed ps]

theorem pushes_nil : pushes [] = [] := if_pos rfl

variable {rest held entries : List Nat} {list part1 part2 tail node skip headOld i amount : Nat}
  {first : Bool} {s' : AtomicPushSnatchList}

theorem owes_startPush (h : Linked nullLink s.next list rest) :
    (startPush list held entries).pc.Owes s rest := by
  unfold startPush
  split
  next hnull =>
    rw [hnull] at h
    exact Linked.null_iff.mp h
  next => exact h

theorem owes_tailTurn (h : Linked nullLink s.next list rest) :
    (tailTurn list headOld node skip first).Owes s rest := by
  unfold tailTurn
  split_ifs
  · exact h
  · exact h

theorem owes_biteTurn {nodes after : List Nat}
    (h : Linked nullLink s.next part1 (nodes ++ after)) (hlast : nodes.getLast? = some tail) :
    (biteTurn part1 tail i amount).Owes s (after.drop (amount - i)) := by
  unfold biteTurn
  split_ifs with hturn
  · exact ⟨nodes, after, h, hlast, hturn, rfl⟩
  · refine ⟨nodes, ?_, hlast⟩
    rw [Nat.sub_eq_zero_of_le (not_lt.mp hturn)]
    exact h

theorem owes_biteSkips {curr : Nat} (h : Linked nullLink s.next part2 rest) :
    (biteSkips held entries part1 part2 tail curr).pc.Owes s rest := by
  unfold biteSkips
  split_ifs
  · exact h
  · exact owes_startPush h

/-- An access that takes no effect leaves what is pushed. -/
theorem Pc.Owes.next (h : worker.pc.Owes s rest) (hpc : PcHolds s ps worker.pc)
    (hsilent : ∀ effect, ¬Commits s worker.pc effect) :
    (worker.next s).2.pc.Owes (worker.next s).1 rest := by
  unfold Worker.next
  generalize hcase : worker.pc = pc at h hpc hsilent ⊢
  cases pc with
  | idle =>
    rw [← hcase] at h
    exact h
  | pushLoad list => exact h
  | tailNext list headOld node first =>
    dsimp only
    split_ifs
    · exact h
    · exact owes_tailTurn h
  | tailSkip list headOld node next first => exact owes_tailTurn h
  | pushSkip list headOld tail =>
    have hnext := hpc.1.linked.next_getLast hpc.2
    have heq : Function.update s.next tail nullLink = s.next := by
      rw [← hnext]
      exact Function.update_eq_self ..
    show Linked nullLink (Function.update s.next tail nullLink) list rest
    rw [heq]
    exact h
  | pushNext list headOld tail =>
    show Linked nullLink (Function.update (Function.update s.next tail headOld) tail nullLink)
      list rest
    rw [Function.update_idem]
    exact h
  | pushSwap list headOld tail =>
    dsimp only
    split
    next hhead => exact absurd (.push hhead hpc.1.linked) (hsilent (.pushed ps))
    next => exact h
  | snatchLoad caller => exact h.elim
  | snatchSwap caller => exact h.elim
  | biteNext part1 tail i amount =>
    obtain ⟨nodes, after, hlinked, hlast, hturn, rfl⟩ := h
    have hafter := hlinked.after hlast
    dsimp only
    split
    next hnull =>
      -- the list ends before the amount is reached
      rw [hnull, Linked.null_iff] at hafter
      subst hafter
      refine ⟨nodes, ?_, hlast⟩
      rw [List.drop_nil]
      exact hlinked
    next hnext =>
      obtain ⟨after, rfl, -⟩ := hafter.of_ne_null hnext
      have hlinked' : Linked nullLink s.next part1 ((nodes ++ [s.next tail]) ++ after) := by
        rw [List.append_assoc]
        exact hlinked
      rw [show amount - i = amount - (i + 1) + 1 by omega, List.drop_succ_cons]
      exact owes_biteTurn hlinked' List.getLast?_concat
  | biteRest part1 tail => exact h
  | biteCut part1 part2 tail =>
    obtain ⟨-, -, rfl⟩ := hpc
    obtain ⟨nodes, hlinked, hlast⟩ := h
    exact owes_biteSkips (hlinked.cut hlast).2
  | biteSkip part1 part2 tail curr => exact h
  | biteCurr part1 part2 tail curr => exact owes_biteSkips h
  | acquireNext snatched => exact owes_startPush h.2.2
  | resetNext thread => exact h
  | resetSkip thread =>
    obtain ⟨-, hnull, hnext⟩ := hpc
    obtain rfl : rest = [thread] := h
    exact owes_startPush ⟨rfl, hnull, hnext⟩

/-- What a thread pushes depends on the links of its own nodes only. -/
theorem Pc.Owes.congr (h : pc.Owes s rest) (hpc : PcHolds s ps pc)
    (heq : ∀ n ∈ ps, s'.next n = s.next n) : pc.Owes s' rest := by
  have hlist : ∀ {list qs}, Listed s list ps → Linked nullLink s.next list qs →
      Linked nullLink s'.next list qs := by
    intro list qs hlisted hlinked
    obtain rfl := hlinked.unique hlisted.linked
    exact hlinked.congr heq
  have hopened : ∀ {list tail}, Opened s list tail ps →
      Linked nullLink (Function.update s.next tail nullLink) list rest →
      Linked nullLink (Function.update s'.next tail nullLink) list rest := by
    intro list tail hopened hlinked
    obtain rfl := hlinked.unique hopened.linked
    refine hlinked.congr fun n hn => ?_
    rw [Function.update_apply, Function.update_apply, heq n hn]
  cases pc with
  | idle => exact h
  | pushLoad list => exact hlist hpc.1 h
  | tailNext list headOld node first => exact hlist hpc.1 h
  | tailSkip list headOld node next first => exact hlist hpc.1 h
  | pushSkip list headOld tail => exact hlist hpc.1 h
  | pushNext list headOld tail => exact hopened hpc h
  | pushSwap list headOld tail => exact hopened hpc.1 h
  | snatchLoad caller => exact h
  | snatchSwap caller => exact h
  | biteNext part1 tail i amount =>
    obtain ⟨nodes, after, hlinked, hrest⟩ := h
    exact ⟨nodes, after, hlist hpc.1 hlinked, hrest⟩
  | biteRest part1 tail =>
    obtain ⟨nodes, hlinked, hlast⟩ := h
    exact ⟨nodes, hlist hpc.1 hlinked, hlast⟩
  | biteCut part1 part2 tail =>
    obtain ⟨nodes, hlinked, hlast⟩ := h
    exact ⟨nodes, hlist hpc.1 hlinked, hlast⟩
  | biteSkip part1 part2 tail curr =>
    obtain ⟨done, todo, after, hbitten, rfl⟩ := hpc
    obtain rfl := Linked.unique h hbitten.listed.linked
    exact Linked.congr h fun n hn => heq n (List.mem_append_right _ hn)
  | biteCurr part1 part2 tail curr =>
    obtain ⟨done, todo, after, hbitten, rfl⟩ := hpc
    obtain rfl := Linked.unique h hbitten.listed.linked
    exact Linked.congr h fun n hn => heq n (List.mem_append_right _ hn)
  | acquireNext snatched => exact hlist hpc.1 h
  | resetNext thread => exact h
  | resetSkip thread => exact h

/-- A push takes effect with all of its nodes, and is over. -/
theorem Pc.Owes.commits (h : worker.pc.Owes s rest) (hpc : PcHolds s ps worker.pc)
    (hcommits : Commits s worker.pc effect) :
    [effect] = pushes rest ∧ (worker.next s).2.pc = .idle := by
  unfold Worker.next
  generalize hcase : worker.pc = pc at h hpc hcommits ⊢
  cases hcommits with
  | @push list headOld tail rs hhead hnodes =>
    obtain rfl := hnodes.unique h
    obtain rfl := hnodes.unique hpc.1.linked
    have hne : rs ≠ [] := List.ne_nil_of_mem (List.mem_of_getLast? hpc.1.last)
    dsimp only
    rw [if_pos hhead]
    unfold pushes
    rw [if_neg hne]
    exact ⟨rfl, rfl⟩
  | miss caller hhead => exact h.elim
  | snatch caller hnodes => exact h.elim

/-- What the caller of `snatch` does with the list. -/
theorem owes_snatched (h : Linked nullLink s.next list ps) (caller : Caller) :
    (snatched list held entries caller).pc.Owes s (caller.back ps) := by
  unfold snatched
  split
  next hnull =>
    rw [hnull, Linked.null_iff] at h
    subst h
    cases caller with
    | snatch => rfl
    | snatchPart amount => exact List.drop_nil
    | acquire => rfl
  next hnull =>
    obtain ⟨after, rfl, -⟩ := h.of_ne_null hnull
    cases caller with
    | snatch => rfl
    | snatchPart amount =>
      have hdrop : (list :: after).drop (max 1 amount) = after.drop (amount - 1) := by
        rw [show max 1 amount = amount - 1 + 1 by omega, List.drop_succ_cons]
      show (biteTurn list list 1 amount).Owes s ((list :: after).drop (max 1 amount))
      have hlinked : Linked nullLink s.next list ([list] ++ after) := h
      rw [hdrop]
      exact owes_biteTurn hlinked rfl
    | acquire => exact h

/-- A call, with the nodes that it is given. -/
inductive Call where
  | push (ps : List Nat)
  | snatch (caller : Caller)

/-- The call has begun.  `put_thread` pushes its thread. -/
inductive Call.Begun (s : AtomicPushSnatchList) : Call → Pc → Prop where
  | push {list : Nat} {ps : List Nat} (hnodes : Linked nullLink s.next list ps) :
      Begun s (.push ps) (.pushLoad list)
  | putThread (thread : Nat) : Begun s (.push [thread]) (.resetNext thread)
  | snatch (caller : Caller) : Begun s (.snatch caller) (.snatchLoad caller)

/-- The effects of the call from its beginning to its end. -/
def Call.Done (effects : List Effect) : Call → Prop
  | .push ps => effects = pushes ps
  | .snatch caller => ∃ ps, effects = .snatched ps :: pushes (caller.back ps)

/-- The effects so far: none before the list is snatched; from then on those of the whole call less
the push that is left. -/
def Call.Holds (s : AtomicPushSnatchList) (effects : List Effect) (pc : Pc) (call : Call) : Prop :=
  (∃ rest, pc.Owes s rest ∧ call.Done (effects ++ pushes rest)) ∨
    ∃ caller, call = .snatch caller ∧ effects = [] ∧
      (pc = .snatchLoad caller ∨ pc = .snatchSwap caller)

variable {call : Call}

theorem Call.Begun.holds (h : call.Begun s pc) : call.Holds s [] pc := by
  cases h with
  | @push list ps hnodes => exact .inl ⟨ps, hnodes, rfl⟩
  | putThread thread => exact .inl ⟨[thread], rfl, rfl⟩
  | snatch caller => exact .inr ⟨caller, rfl, rfl, .inl rfl⟩

theorem Call.Holds.done (h : call.Holds s effects .idle) : call.Done effects := by
  rcases h with ⟨rest, hrest, hdone⟩ | ⟨caller, -, -, hpc | hpc⟩
  · obtain rfl : rest = [] := hrest
    rw [pushes_nil, List.append_nil] at hdone
    exact hdone
  · cases hpc
  · cases hpc

theorem Call.Holds.congr (h : call.Holds s effects pc) (hpc : PcHolds s ps pc)
    (heq : ∀ n ∈ ps, s'.next n = s.next n) : call.Holds s' effects pc := by
  rcases h with ⟨rest, hrest, hdone⟩ | hsnatch
  · exact .inl ⟨rest, hrest.congr hpc heq, hdone⟩
  · exact .inr hsnatch

theorem Call.Holds.silent (h : call.Holds s effects worker.pc) (hpc : PcHolds s ps worker.pc)
    (hlist : Linked nullLink s.next s.head qs)
    (hsilent : ∀ effect, ¬Commits s worker.pc effect) :
    call.Holds (worker.next s).1 effects (worker.next s).2.pc := by
  rcases h with ⟨rest, hrest, hdone⟩ | ⟨caller, rfl, rfl, hcase | hcase⟩
  · exact .inl ⟨rest, hrest.next hpc hsilent, hdone⟩
  · rw [hcase] at hsilent
    have hnull : s.head ≠ nullLink := fun hnull => hsilent _ (.miss caller hnull)
    refine .inr ⟨caller, rfl, rfl, .inr ?_⟩
    unfold Worker.next
    rw [hcase]
    dsimp only
    rw [if_neg hnull]
  · rw [hcase] at hsilent
    exact absurd (.snatch caller hlist) (hsilent _)

theorem Call.Holds.commits (h : call.Holds s effects worker.pc) (hpc : PcHolds s ps worker.pc)
    (hcommits : Commits s worker.pc effect) :
    call.Holds (worker.next s).1 (effects ++ [effect]) (worker.next s).2.pc := by
  rcases h with ⟨rest, hrest, hdone⟩ | ⟨caller, rfl, rfl, hcase | hcase⟩
  · obtain ⟨heffect, hidle⟩ := hrest.commits hpc hcommits
    rw [hidle, heffect]
    refine .inl ⟨[], rfl, ?_⟩
    rw [pushes_nil, List.append_nil]
    exact hdone
  · rw [hcase] at hcommits
    cases hcommits with
    | miss _ hhead =>
      refine .inl ⟨caller.back [], ?_, [], rfl⟩
      unfold Worker.next
      rw [hcase]
      dsimp only
      rw [if_pos hhead]
      have hnil : Linked nullLink s.next nullLink [] := rfl
      exact owes_snatched hnil caller
  · rw [hcase] at hcommits
    cases hcommits with
    | @snatch _ rs hnodes =>
      refine .inl ⟨caller.back rs, ?_, rs, rfl⟩
      unfold Worker.next
      rw [hcase]
      exact owes_snatched hnodes caller

/-- What no access of the call, and none of another thread, ends. -/
structure Stable (nodes : Set Nat) (t : T)
    (P : AtomicPushSnatchList → Worker → List Effect → Prop) : Prop where
  silent {σ : Machine T} {g : Custody T} {effects : List Effect}
    (hI : SharedHolds nodes g σ.shared) (hA : ∀ u, WorkerHolds g σ.shared u (σ.locals u))
    (hbusy : (σ.locals t).pc ≠ .idle)
    (hsilent : ∀ effect, ¬Commits σ.shared (σ.locals t).pc effect)
    (h : P σ.shared (σ.locals t) effects) :
    P ((σ.locals t).next σ.shared).1 ((σ.locals t).next σ.shared).2 effects
  commits {σ : Machine T} {g : Custody T} {effects : List Effect} {effect : Effect}
    (hA : ∀ u, WorkerHolds g σ.shared u (σ.locals u))
    (hcommits : Commits σ.shared (σ.locals t).pc effect)
    (h : P σ.shared (σ.locals t) effects) :
    P ((σ.locals t).next σ.shared).1 ((σ.locals t).next σ.shared).2 (effects ++ [effect])
  other {σ : Machine T} {g : Custody T} {effects : List Effect} {u : T}
    (hA : ∀ u, WorkerHolds g σ.shared u (σ.locals u)) (hu : u ≠ t)
    (h : P σ.shared (σ.locals t) effects) :
    P ((σ.locals u).next σ.shared).1 (σ.locals t) effects

theorem Call.holds_stable (nodes : Set Nat) (t : T) (call : Call) :
    Stable nodes t fun s worker effects => call.Holds s effects worker.pc where
  silent := by
    intro σ g effects hI hA _ hsilent h
    obtain ⟨ps, hpc, -⟩ := (hA t).active
    obtain ⟨qs, hlisted, -⟩ := hI.list
    exact h.silent hpc hlisted.linked hsilent
  commits := by
    intro σ g effects effect hA hcommits h
    obtain ⟨ps, hpc, -⟩ := (hA t).active
    exact h.commits hpc hcommits
  other := by
    intro σ g effects u hA hu h
    obtain ⟨ps, hpc, hlinks⟩ := Guarded.other_links hA hu
    exact h.congr hpc hlinks

/-! ### Runs -/

variable [DecidableEq T]

/-- A run, with what the accesses do to the list. -/
inductive Run (σ₀ : Machine T) : List Effect → Machine T → Prop where
  | start : Run σ₀ [] σ₀
  | begins {effects : List Effect} {σ σ' : Machine T} (h : Run σ₀ effects σ)
      (hstep : Begins σ σ') : Run σ₀ effects σ'
  | silent {effects : List Effect} {σ : Machine T} (t : T) (h : Run σ₀ effects σ)
      (hsilent : ∀ effect, ¬Commits σ.shared (σ.locals t).pc effect) :
      Run σ₀ effects
        (σ.set t ((σ.locals t).next σ.shared).1 ((σ.locals t).next σ.shared).2)
  | commits {effects : List Effect} {σ : Machine T} {effect : Effect} (t : T)
      (h : Run σ₀ effects σ) (hcommits : Commits σ.shared (σ.locals t).pc effect) :
      Run σ₀ (effects ++ [effect])
        (σ.set t ((σ.locals t).next σ.shared).1 ((σ.locals t).next σ.shared).2)

theorem Step.cases (h : Step σ σ') : Begins σ σ' ∨
    ∃ t, σ' = σ.set t ((σ.locals t).next σ.shared).1 ((σ.locals t).next σ.shared).2 := by
  cases h with
  | push t list hidle hheld => exact .inl (.push t list hidle hheld)
  | snatch t caller hidle => exact .inl (.snatch t caller hidle)
  | putThread t thread hidle hheld => exact .inl (.putThread t thread hidle hheld)
  | next t => exact .inr ⟨t, rfl⟩

/-- Every run has its effects. -/
theorem Reachable.run (h : Reachable σ₀ σ) : ∃ effects, Run σ₀ effects σ := by
  induction h with
  | start => exact ⟨[], .start⟩
  | @step σ σ' _ hstep ih =>
    obtain ⟨effects, hrun⟩ := ih
    rcases hstep.cases with hbegins | ⟨t, rfl⟩
    · exact ⟨effects, hrun.begins hbegins⟩
    · by_cases hsilent : ∃ effect, Commits σ.shared (σ.locals t).pc effect
      · obtain ⟨effect, hcommits⟩ := hsilent
        exact ⟨_, hrun.commits t hcommits⟩
      · exact ⟨effects, hrun.silent t (not_exists.mp hsilent)⟩

theorem Run.acts (h : Run σ₀ effects σ) (hσ₀ : Guarded nodes σ₀)
    (hlist : Linked nullLink σ₀.shared.next σ₀.shared.head ps) :
    Guarded nodes σ ∧ ∃ qs, Effects ps effects qs ∧
      Linked nullLink σ.shared.next σ.shared.head qs := by
  induction h with
  | start => exact ⟨hσ₀, ps, .start, hlist⟩
  | begins _ hstep ih =>
    obtain ⟨hguarded, qs, heffects, hlist⟩ := ih
    refine ⟨hguarded.step hstep.step, qs, heffects, ?_⟩
    obtain ⟨t, worker, -, rfl, -⟩ := hstep.pc_left 0
    exact hlist
  | silent t _ hsilent ih =>
    obtain ⟨hguarded, qs, heffects, hlist⟩ := ih
    refine ⟨hguarded.next t, qs, heffects, ?_⟩
    obtain ⟨g, hI, hA⟩ := hguarded
    exact Guarded.silent hI hA hlist hsilent
  | commits t _ hcommits ih =>
    obtain ⟨hguarded, qs, heffects, hlist⟩ := ih
    refine ⟨hguarded.next t, ?_⟩
    obtain ⟨g, hI, hA⟩ := hguarded
    exact Guarded.commits hA hlist hcommits heffects

/-- **The calls act on the list of nodes, one after the other.** -/
theorem reachable_effects (hidle : ∀ t, (σ₀.locals t).pc = .idle) (hstart : Exclusive σ₀)
    (hlist : Linked nullLink σ₀.shared.next σ₀.shared.head ps) :
    (∀ σ, Reachable σ₀ σ → ∃ effects, Run σ₀ effects σ) ∧
      ∀ effects σ, Run σ₀ effects σ →
        ∃ qs, Effects ps effects qs ∧ Linked nullLink σ.shared.next σ.shared.head qs := by
  refine ⟨fun σ h => h.run, fun effects σ h => ?_⟩
  exact (h.acts (hstart.guarded hidle) hlist).2

theorem twoThreads_list :
    Linked nullLink twoThreads.shared.next twoThreads.shared.head [1, 2] :=
  ⟨rfl, by decide, rfl, by decide, rfl⟩

theorem twoThreads_silent (caller : Caller) (effect : Effect) :
    ¬Commits twoThreads.shared (.snatchLoad caller) effect := by
  intro h
  cases h with
  | miss _ hhead => exact absurd hhead (by decide)

/-- A thread takes the shared list. -/
theorem reachable_effects_snatch : ∃ σ, Run twoThreads [.snatched [1, 2]] σ ∧
    ∃ qs, Effects [1, 2] [.snatched [1, 2]] qs ∧
      Linked nullLink σ.shared.next σ.shared.head qs := by
  have hstart : Run twoThreads [] twoThreads := .start
  have hload := (hstart.begins (.snatch true .snatch rfl)).silent true (twoThreads_silent .snatch)
  have hrun := hload.commits true (.snatch .snatch twoThreads_list)
  have heffects := reachable_effects twoThreads_idle twoThreads_exclusive twoThreads_list
  exact ⟨_, hrun, heffects.2 _ _ hrun⟩

/-- A run from the beginning of a call of `t`, at most to its end, with the effects of the call. -/
inductive CallRun (t : T) (σ : Machine T) : List Effect → Machine T → Prop where
  | start : CallRun t σ [] σ
  | begins {effects : List Effect} {σ' σ'' : Machine T} (h : CallRun t σ effects σ')
      (hbusy : (σ'.locals t).pc ≠ .idle) (hstep : Begins σ' σ'') : CallRun t σ effects σ''
  | other {effects : List Effect} {σ' : Machine T} {u : T} (h : CallRun t σ effects σ')
      (hbusy : (σ'.locals t).pc ≠ .idle) (hu : u ≠ t) :
      CallRun t σ effects
        (σ'.set u ((σ'.locals u).next σ'.shared).1 ((σ'.locals u).next σ'.shared).2)
  | silent {effects : List Effect} {σ' : Machine T} (h : CallRun t σ effects σ')
      (hbusy : (σ'.locals t).pc ≠ .idle)
      (hsilent : ∀ effect, ¬Commits σ'.shared (σ'.locals t).pc effect) :
      CallRun t σ effects
        (σ'.set t ((σ'.locals t).next σ'.shared).1 ((σ'.locals t).next σ'.shared).2)
  | commits {effects : List Effect} {σ' : Machine T} {effect : Effect}
      (h : CallRun t σ effects σ') (hcommits : Commits σ'.shared (σ'.locals t).pc effect) :
      CallRun t σ (effects ++ [effect])
        (σ'.set t ((σ'.locals t).next σ'.shared).1 ((σ'.locals t).next σ'.shared).2)

theorem CallRun.invariant {P : AtomicPushSnatchList → Worker → List Effect → Prop}
    (h : CallRun t σ effects σ') (hP : Stable nodes t P) (hσ : Guarded nodes σ)
    (hstart : P σ.shared (σ.locals t) []) :
    Guarded nodes σ' ∧ P σ'.shared (σ'.locals t) effects := by
  induction h with
  | start => exact ⟨hσ, hstart⟩
  | begins _ hbusy hstep ih =>
    obtain ⟨hguarded, hholds⟩ := ih
    have hguarded' := hguarded.step hstep.step
    obtain ⟨u, worker, hidle, rfl, -⟩ := hstep.pc_left 0
    have hu : t ≠ u := by
      rintro rfl
      exact hbusy hidle
    refine ⟨hguarded', ?_⟩
    rw [Threads.set_locals_of_ne hu, Threads.set_shared]
    exact hholds
  | @other effects σ' u _ hbusy hu ih =>
    obtain ⟨hguarded, hholds⟩ := ih
    refine ⟨hguarded.next u, ?_⟩
    obtain ⟨g, hI, hA⟩ := hguarded
    rw [Threads.set_locals_of_ne hu.symm, Threads.set_shared]
    exact hP.other hA hu hholds
  | silent _ hbusy hsilent ih =>
    obtain ⟨hguarded, hholds⟩ := ih
    refine ⟨hguarded.next t, ?_⟩
    obtain ⟨g, hI, hA⟩ := hguarded
    rw [Threads.set_locals_self, Threads.set_shared]
    exact hP.silent hI hA hbusy hsilent hholds
  | commits _ hcommits ih =>
    obtain ⟨hguarded, hholds⟩ := ih
    refine ⟨hguarded.next t, ?_⟩
    obtain ⟨g, hI, hA⟩ := hguarded
    rw [Threads.set_locals_self, Threads.set_shared]
    exact hP.commits hA hcommits hholds

/-- **A call takes effect as a whole.**  In every run, a push that returns has pushed its nodes
once; a snatch has taken the list once, and pushed back what its caller does not keep. -/
theorem reachable_call_effects (hidle : ∀ t, (σ₀.locals t).pc = .idle) (hstart : Exclusive σ₀)
    (h : Reachable σ₀ σ) (hbegun : call.Begun σ.shared (σ.locals t).pc)
    (hrun : CallRun t σ effects σ') (hreturned : (σ'.locals t).pc = .idle) :
    call.Done effects := by
  obtain ⟨-, hholds⟩ :=
    hrun.invariant (call.holds_stable _ t) (h.guarded (hstart.guarded hidle)) hbegun.holds
  rw [hreturned] at hholds
  exact hholds.done

/-- `twoThreads` where a thread has begun to acquire an entry. -/
def acquiring : Machine Bool :=
  twoThreads.set true twoThreads.shared
    ⟨.snatchLoad .acquire, (twoThreads.locals true).held, (twoThreads.locals true).entries⟩

/-- The thread takes the shared list, keeps the first node and pushes the other one back. -/
theorem reachable_call_effects_acquire : ∃ σ, Reachable twoThreads acquiring ∧
    CallRun true acquiring [.snatched [1, 2], .pushed [2]] σ ∧ (σ.locals true).pc = .idle ∧
      (Call.snatch .acquire).Done [.snatched [1, 2], .pushed [2]] := by
  have hstart : Reachable twoThreads twoThreads := .start
  have hreach : Reachable twoThreads acquiring := hstart.step (.snatch true .acquire rfl)
  have hbegun : CallRun true acquiring [] acquiring := .start
  have hload := hbegun.silent (fun h => by cases h) (twoThreads_silent .acquire)
  have hsnatched := hload.commits (.snatch .acquire twoThreads_list)
  have hkept := hsnatched.silent (fun h => by cases h) fun effect h => by cases h
  have hhead := hkept.silent (fun h => by cases h) fun effect h => by cases h
  have hfirst := hhead.silent (fun h => by cases h) fun effect h => by cases h
  have htail := hfirst.silent (fun h => by cases h) fun effect h => by cases h
  have hskip := htail.silent (fun h => by cases h) fun effect h => by cases h
  have hnext := hskip.silent (fun h => by cases h) fun effect h => by cases h
  have hrun : CallRun true acquiring ([.snatched [1, 2]] ++ [.pushed [2]]) _ :=
    hnext.commits (.push rfl ⟨rfl, by decide, rfl⟩)
  exact ⟨_, hreach, hrun, rfl, reachable_call_effects twoThreads_idle twoThreads_exclusive hreach
    (.snatch .acquire) hrun rfl⟩

end Cuw3.AtomicPushSnatchList
