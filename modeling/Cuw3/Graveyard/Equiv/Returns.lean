/-
  What `snatch`, `snatch_part` and `acquire` return, under any number of threads.

  While a list is bitten, `Pc.Bites` says which of its nodes are kept: those of the first loop so
  far, and as many after them as the amount still allows.  From the last turn of the second loop on
  the thread holds them, and no access of its own push or of another thread changes them
  (`Guarded.held_links`).
-/
import Cuw3.Graveyard.Equiv.Linearize

namespace Cuw3.AtomicPushSnatchList

open Lib

variable {T : Type}

/-! ### What a call keeps -/

/-- The call is pushing, or over. -/
def Pc.Pushes : Pc → Prop
  | .idle => True
  | .pushLoad _ => True
  | .tailNext _ _ _ _ => True
  | .tailSkip _ _ _ _ _ => True
  | .pushSkip _ _ _ => True
  | .pushNext _ _ _ => True
  | .pushSwap _ _ _ => True
  | _ => False

/-- The call is biting the nodes `kept` off a list. -/
def Pc.Bites (s : AtomicPushSnatchList) (list : Nat) (kept : List Nat) : Pc → Prop
  | .biteNext part1 tail i amount => part1 = list ∧ ∃ first after,
      Linked nullLink s.next list (first ++ after) ∧ first.getLast? = some tail ∧ i < amount ∧
        kept = first ++ after.take (amount - i)
  | .biteRest part1 tail => part1 = list ∧
      ∃ rest, Linked nullLink s.next list (kept ++ rest) ∧ kept.getLast? = some tail
  | .biteCut part1 _ tail => part1 = list ∧
      ∃ rest, Linked nullLink s.next list (kept ++ rest) ∧ kept.getLast? = some tail
  | .biteSkip part1 _ _ _ => part1 = list ∧ Linked nullLink s.next list kept
  | .biteCurr part1 _ _ _ => part1 = list ∧ Linked nullLink s.next list kept
  | _ => False

/-- The thread holds the list of the nodes `kept`, or is biting it off. -/
def Worker.KeepsList (s : AtomicPushSnatchList) (list : Nat) (kept held entries : List Nat)
    (worker : Worker) : Prop :=
  worker.entries = entries ∧
    ((worker.pc.Bites s list kept ∧ worker.held = held) ∨
      (worker.pc.Pushes ∧ worker.held = list :: held ∧ Linked nullLink s.next list kept))

/-- The thread holds the entry, or is about to. -/
def Worker.KeepsEntry (node : Nat) (held entries : List Nat) (worker : Worker) : Prop :=
  worker.held = held ∧
    ((worker.pc = .acquireNext node ∧ worker.entries = entries) ∨
      (worker.pc.Pushes ∧ worker.entries = node :: entries))

/-- The thread has what its call keeps of the list `ps`, which starts at `list`. -/
def Worker.Keeps (s : AtomicPushSnatchList) (list : Nat) (ps held entries : List Nat)
    (worker : Worker) : Caller → Prop
  | .snatch => worker.KeepsList s list ps held entries
  | .snatchPart amount => worker.KeepsList s list (ps.take (max 1 amount)) held entries
  | .acquire => worker.KeepsEntry list held entries

/-- What the caller has of the list `ps` when the call has returned. -/
def Caller.Returns (s : AtomicPushSnatchList) (held entries : List Nat) (worker : Worker) :
    Caller → List Nat → Prop
  | _, [] => worker.held = held ∧ worker.entries = entries
  | .snatch, list :: ps => worker.held = list :: held ∧ worker.entries = entries ∧
      Linked nullLink s.next list (list :: ps)
  | .snatchPart amount, list :: ps => worker.held = list :: held ∧ worker.entries = entries ∧
      Linked nullLink s.next list ((list :: ps).take (max 1 amount))
  | .acquire, list :: _ => worker.held = held ∧ worker.entries = list :: entries

variable {nodes : Set Nat} {g : Custody T} {s s' : AtomicPushSnatchList} {σ σ' σ₀ : Machine T}
  {t u : T} {ps qs kept held entries held₀ entries₀ : List Nat} {worker : Worker} {pc : Pc}
  {effects : List Effect} {effect : Effect} {list part1 part2 tail i amount : Nat}
  {caller : Caller}

theorem startPush_pushes : (startPush list held entries).pc.Pushes := by
  unfold startPush
  split_ifs
  · trivial
  · trivial

/-- A push does not change what the thread holds. -/
theorem Pc.Pushes.next (h : worker.pc.Pushes) : (worker.next s).2.pc.Pushes ∧
    (worker.next s).2.held = worker.held ∧ (worker.next s).2.entries = worker.entries := by
  unfold Worker.next
  generalize hcase : worker.pc = pc at h
  cases pc with
  | idle =>
    dsimp only
    rw [hcase]
    exact ⟨trivial, rfl, rfl⟩
  | tailNext list headOld node first =>
    dsimp only
    unfold tailTurn
    split_ifs
    · exact ⟨trivial, rfl, rfl⟩
    · exact ⟨trivial, rfl, rfl⟩
    · exact ⟨trivial, rfl, rfl⟩
  | tailSkip list headOld node next first =>
    dsimp only
    unfold tailTurn
    split_ifs
    all_goals exact ⟨trivial, rfl, rfl⟩
  | pushLoad list => exact ⟨trivial, rfl, rfl⟩
  | pushSkip list headOld tail => exact ⟨trivial, rfl, rfl⟩
  | pushNext list headOld tail => exact ⟨trivial, rfl, rfl⟩
  | pushSwap list headOld tail =>
    dsimp only
    split_ifs
    · exact ⟨trivial, rfl, rfl⟩
    · exact ⟨trivial, rfl, rfl⟩
  | _ => exact h.elim

theorem bites_biteTurn {first after : List Nat}
    (h : Linked nullLink s.next list (first ++ after)) (hlast : first.getLast? = some tail) :
    (biteTurn list tail i amount).Bites s list (first ++ after.take (amount - i)) := by
  unfold biteTurn
  split_ifs with hturn
  · exact ⟨rfl, first, after, h, hlast, hturn, rfl⟩
  · rw [Nat.sub_eq_zero_of_le (not_lt.mp hturn), List.take_zero, List.append_nil]
    exact ⟨rfl, after, h, hlast⟩

theorem biteSkips_keeps {curr : Nat} (h : Linked nullLink s.next list kept) :
    (biteSkips held entries list part2 tail curr).KeepsList s list kept held entries := by
  unfold biteSkips
  split_ifs
  · exact ⟨rfl, .inl ⟨⟨rfl, h⟩, rfl⟩⟩
  · exact ⟨startPush_entries, .inr ⟨startPush_pushes, startPush_held, h⟩⟩

/-- An access of a thread that bites. -/
theorem Pc.Bites.next (h : worker.pc.Bites s list kept) (hpc : PcHolds s ps worker.pc) :
    (worker.next s).2.KeepsList (worker.next s).1 list kept worker.held worker.entries := by
  unfold Worker.next
  generalize hcase : worker.pc = pc at h hpc ⊢
  cases pc with
  | biteNext part1 tail i amount =>
    obtain ⟨rfl, first, after, hlinked, hlast, hturn, rfl⟩ := h
    have hafter := hlinked.after hlast
    dsimp only
    split
    next hnull =>
      -- the list ends before the amount is reached, and is kept as a whole
      rw [hnull, Linked.null_iff] at hafter
      subst hafter
      refine ⟨rfl, .inl ⟨⟨rfl, [], ?_, ?_⟩, rfl⟩⟩
      · rw [List.take_nil, List.append_nil]
        exact hlinked
      · rw [List.take_nil, List.append_nil]
        exact hlast
    next hnext =>
      -- one more node is among those of the loop so far
      obtain ⟨after, rfl, -⟩ := hafter.of_ne_null hnext
      have hlinked' : Linked nullLink s.next part1 ((first ++ [s.next tail]) ++ after) := by
        rw [List.append_assoc]
        exact hlinked
      have hkept : first ++ (s.next tail :: after).take (amount - i) =
          (first ++ [s.next tail]) ++ after.take (amount - (i + 1)) := by
        rw [show amount - i = amount - (i + 1) + 1 by omega, List.take_succ_cons,
          List.append_assoc, List.singleton_append]
      rw [hkept]
      exact ⟨rfl, .inl ⟨bites_biteTurn hlinked' List.getLast?_concat, rfl⟩⟩
  | biteRest part1 tail => exact ⟨rfl, .inl ⟨h, rfl⟩⟩
  | biteCut part1 part2 tail =>
    obtain ⟨rfl, rest, hlinked, hlast⟩ := h
    exact biteSkips_keeps (hlinked.cut hlast).1
  | biteSkip part1 part2 tail curr => exact ⟨rfl, .inl ⟨h, rfl⟩⟩
  | biteCurr part1 part2 tail curr =>
    obtain ⟨rfl, hlinked⟩ := h
    exact biteSkips_keeps hlinked
  | _ => exact h.elim

/-- What a thread bites off depends on the links of its own nodes only. -/
theorem Pc.Bites.congr (h : pc.Bites s list kept) (hpc : PcHolds s ps pc)
    (heq : ∀ n ∈ ps, s'.next n = s.next n) : pc.Bites s' list kept := by
  have hlist : ∀ {qs}, Listed s list ps → Linked nullLink s.next list qs →
      Linked nullLink s'.next list qs := by
    intro qs hlisted hlinked
    obtain rfl := hlinked.unique hlisted.linked
    exact hlinked.congr heq
  cases pc with
  | biteNext part1 tail i amount =>
    obtain ⟨rfl, first, after, hlinked, hrest⟩ := h
    exact ⟨rfl, first, after, hlist hpc.1 hlinked, hrest⟩
  | biteRest part1 tail =>
    obtain ⟨rfl, rest, hlinked, hlast⟩ := h
    exact ⟨rfl, rest, hlist hpc.1 hlinked, hlast⟩
  | biteCut part1 part2 tail =>
    obtain ⟨rfl, rest, hlinked, hlast⟩ := h
    exact ⟨rfl, rest, hlist hpc.1 hlinked, hlast⟩
  | biteSkip part1 part2 tail curr =>
    obtain ⟨rfl, hlinked⟩ := h
    obtain ⟨done, todo, after, hbitten, rfl⟩ := hpc
    obtain rfl := hlinked.unique hbitten.linked
    exact ⟨rfl, hlinked.congr fun n hn => heq n (List.mem_append_left _ hn)⟩
  | biteCurr part1 part2 tail curr =>
    obtain ⟨rfl, hlinked⟩ := h
    obtain ⟨done, todo, after, hbitten, rfl⟩ := hpc
    obtain rfl := hlinked.unique hbitten.linked
    exact ⟨rfl, hlinked.congr fun n hn => heq n (List.mem_append_left _ hn)⟩
  | _ => exact h.elim

/-- What the caller of `snatch` does with the list. -/
theorem snatched_keeps (hnull : list ≠ nullLink) (h : Linked nullLink s.next list ps)
    (caller : Caller) :
    (snatched list held entries caller).Keeps s list ps held entries caller := by
  obtain ⟨after, rfl, -⟩ := h.of_ne_null hnull
  unfold snatched
  rw [if_neg hnull]
  cases caller with
  | snatch => exact ⟨rfl, .inr ⟨trivial, rfl, h⟩⟩
  | snatchPart amount =>
    have hkept : (list :: after).take (max 1 amount) = [list] ++ after.take (amount - 1) := by
      rw [show max 1 amount = amount - 1 + 1 by omega, List.take_succ_cons,
        List.singleton_append]
    have hlinked : Linked nullLink s.next list ([list] ++ after) := h
    have hkeeps : Worker.KeepsList s list ([list] ++ after.take (amount - 1)) held entries
        ⟨biteTurn list list 1 amount, held, entries⟩ :=
      ⟨rfl, .inl ⟨bites_biteTurn hlinked rfl, rfl⟩⟩
    rw [← hkept] at hkeeps
    exact hkeeps
  | acquire => exact ⟨rfl, .inl ⟨rfl, rfl⟩⟩

/-- No access changes a list that a thread holds. -/
theorem Guarded.held_links (hA : ∀ u, WorkerHolds g σ.shared u (σ.locals u))
    (hlist : list ∈ (σ.locals t).held) (h : Linked nullLink σ.shared.next list qs) (u : T) :
    Linked nullLink ((σ.locals u).next σ.shared).1.next list qs := by
  obtain ⟨-, ps, hlisted, hat⟩ := (hA t).held.list list hlist
  obtain ⟨active, hpc, hactive⟩ := (hA u).active
  obtain rfl := h.unique hlisted.linked
  refine h.congr fun n hn => hpc.next_links ?_
  rw [← hactive, (hat n).mpr hn]
  simp

theorem Worker.KeepsList.next (h : worker.KeepsList s list kept held entries)
    (hpc : PcHolds s ps worker.pc)
    (hlist : list ∈ worker.held → Linked nullLink s.next list kept →
      Linked nullLink (worker.next s).1.next list kept) :
    (worker.next s).2.KeepsList (worker.next s).1 list kept held entries := by
  obtain ⟨rfl, ⟨hbites, rfl⟩ | ⟨hpushes, hheld, hlinked⟩⟩ := h
  · exact hbites.next hpc
  · obtain ⟨hpushes', hheld', hentries⟩ := Pc.Pushes.next (s := s) hpushes
    have hmem : list ∈ worker.held := by
      rw [hheld]
      exact List.mem_cons_self
    exact ⟨hentries, .inr ⟨hpushes', hheld'.trans hheld, hlist hmem hlinked⟩⟩

theorem Worker.KeepsList.congr (h : worker.KeepsList s list kept held entries)
    (hpc : PcHolds s ps worker.pc) (heq : ∀ n ∈ ps, s'.next n = s.next n)
    (hlist : list ∈ worker.held → Linked nullLink s.next list kept →
      Linked nullLink s'.next list kept) :
    worker.KeepsList s' list kept held entries := by
  obtain ⟨hentries, ⟨hbites, hheld⟩ | ⟨hpushes, hheld, hlinked⟩⟩ := h
  · exact ⟨hentries, .inl ⟨hbites.congr hpc heq, hheld⟩⟩
  · refine ⟨hentries, .inr ⟨hpushes, hheld, hlist ?_ hlinked⟩⟩
    rw [hheld]
    exact List.mem_cons_self

theorem Worker.KeepsEntry.next (h : worker.KeepsEntry list held entries) :
    (worker.next s).2.KeepsEntry list held entries := by
  obtain ⟨rfl, ⟨hpc, rfl⟩ | ⟨hpushes, hentries⟩⟩ := h
  · unfold Worker.next
    rw [hpc]
    exact ⟨startPush_held, .inr ⟨startPush_pushes, startPush_entries⟩⟩
  · obtain ⟨hpushes', hheld, hentries'⟩ := Pc.Pushes.next (s := s) hpushes
    exact ⟨hheld, .inr ⟨hpushes', hentries'.trans hentries⟩⟩

/-- The next access of the call. -/
theorem Guarded.next_keeps (hA : ∀ u, WorkerHolds g σ.shared u (σ.locals u))
    (h : (σ.locals t).Keeps σ.shared list qs held entries caller) :
    ((σ.locals t).next σ.shared).2.Keeps ((σ.locals t).next σ.shared).1 list qs held entries
      caller := by
  obtain ⟨ps, hpc, -⟩ := (hA t).active
  cases caller with
  | snatch => exact Worker.KeepsList.next h hpc fun hlist hlinked => held_links hA hlist hlinked t
  | snatchPart amount =>
    exact Worker.KeepsList.next h hpc fun hlist hlinked => held_links hA hlist hlinked t
  | acquire => exact Worker.KeepsEntry.next h

/-- An access of another thread. -/
theorem Guarded.other_keeps (hA : ∀ u, WorkerHolds g σ.shared u (σ.locals u)) (hu : u ≠ t)
    (h : (σ.locals t).Keeps σ.shared list qs held entries caller) :
    (σ.locals t).Keeps ((σ.locals u).next σ.shared).1 list qs held entries caller := by
  obtain ⟨ps, hpc, hlinks⟩ := Guarded.other_links hA hu
  cases caller with
  | snatch =>
    exact Worker.KeepsList.congr h hpc hlinks fun hlist hlinked => held_links hA hlist hlinked u
  | snatchPart amount =>
    exact Worker.KeepsList.congr h hpc hlinks fun hlist hlinked => held_links hA hlist hlinked u
  | acquire => exact h

theorem Worker.Keeps.returns (h : worker.Keeps s list (list :: ps) held entries caller)
    (hidle : worker.pc = .idle) : caller.Returns s held entries worker (list :: ps) := by
  have hlist : ∀ {kept}, worker.KeepsList s list kept held entries →
      worker.held = list :: held ∧ worker.entries = entries ∧
        Linked nullLink s.next list kept := by
    rintro kept ⟨hentries, ⟨hbites, -⟩ | ⟨-, hheld, hlinked⟩⟩
    · rw [hidle] at hbites
      exact hbites.elim
    · exact ⟨hheld, hentries, hlinked⟩
  cases caller with
  | snatch => exact hlist h
  | snatchPart amount => exact hlist h
  | acquire =>
    obtain ⟨hheld, ⟨hpc, -⟩ | ⟨-, hentries⟩⟩ := h
    · rw [hidle] at hpc
      cases hpc
    · exact ⟨hheld, hentries⟩

/-! ### Runs of a call -/

/-- Before the list is snatched, the thread has what it had.  From then on it keeps its part; where
the list was empty, the call has returned. -/
inductive Caller.Holds (s : AtomicPushSnatchList) (held entries : List Nat) (worker : Worker)
    (caller : Caller) : List Effect → Prop where
  | before (hpc : worker.pc = .snatchLoad caller ∨ worker.pc = .snatchSwap caller)
      (hheld : worker.held = held) (hentries : worker.entries = entries) :
      Holds s held entries worker caller []
  | empty {effects : List Effect} (hpc : worker.pc = .idle) (hheld : worker.held = held)
      (hentries : worker.entries = entries) :
      Holds s held entries worker caller (.snatched [] :: effects)
  | after {effects : List Effect} {list : Nat} {ps : List Nat}
      (hkeeps : worker.Keeps s list (list :: ps) held entries caller) :
      Holds s held entries worker caller (.snatched (list :: ps) :: effects)

theorem Caller.Holds.returns (h : caller.Holds s held entries worker (.snatched ps :: effects))
    (hidle : worker.pc = .idle) : caller.Returns s held entries worker ps := by
  cases h with
  | empty _ hheld hentries => cases caller <;> exact ⟨hheld, hentries⟩
  | after hkeeps => exact hkeeps.returns hidle

/-- An access of the call that takes no effect. -/
theorem Caller.Holds.silent (hI : SharedHolds nodes g σ.shared)
    (hA : ∀ u, WorkerHolds g σ.shared u (σ.locals u))
    (h : caller.Holds σ.shared held entries (σ.locals t) effects)
    (hbusy : (σ.locals t).pc ≠ .idle)
    (hsilent : ∀ effect, ¬Commits σ.shared (σ.locals t).pc effect) :
    caller.Holds ((σ.locals t).next σ.shared).1 held entries ((σ.locals t).next σ.shared).2
      effects := by
  cases h with
  | before hpc hheld hentries =>
    rcases hpc with hpc | hpc
    · rw [hpc] at hsilent
      have hnull : σ.shared.head ≠ nullLink := fun hnull => hsilent _ (.miss caller hnull)
      unfold Worker.next
      rw [hpc]
      dsimp only
      rw [if_neg hnull]
      exact .before (.inr rfl) hheld hentries
    · obtain ⟨qs, hlisted, -⟩ := hI.list
      rw [hpc] at hsilent
      exact absurd (.snatch caller hlisted.linked) (hsilent _)
  | empty hpc _ _ => exact absurd hpc hbusy
  | after hkeeps => exact .after (Guarded.next_keeps hA hkeeps)

/-- An access of the call that takes effect. -/
theorem Caller.Holds.commits (hA : ∀ u, WorkerHolds g σ.shared u (σ.locals u))
    (h : caller.Holds σ.shared held entries (σ.locals t) effects)
    (hcommits : Commits σ.shared (σ.locals t).pc effect) :
    caller.Holds ((σ.locals t).next σ.shared).1 held entries ((σ.locals t).next σ.shared).2
      (effects ++ [effect]) := by
  cases h with
  | before hpc hheld hentries =>
    rcases hpc with hpc | hpc
    · rw [hpc] at hcommits
      cases hcommits with
      | miss _ hhead =>
        unfold Worker.next
        rw [hpc]
        dsimp only
        rw [if_pos hhead]
        unfold snatched
        rw [if_pos rfl]
        exact .empty rfl hheld hentries
    · rw [hpc] at hcommits
      cases hcommits with
      | @snatch _ rs hnodes =>
        unfold Worker.next
        rw [hpc]
        dsimp only
        -- the list may have been snatched by another thread since the load
        by_cases hnull : σ.shared.head = nullLink
        · rw [hnull] at hnodes ⊢
          obtain rfl := Linked.null_iff.mp hnodes
          unfold snatched
          rw [if_pos rfl]
          exact .empty rfl hheld hentries
        · have hkeeps : (snatched σ.shared.head (σ.locals t).held (σ.locals t).entries caller).Keeps
              { σ.shared with head := nullLink } σ.shared.head rs (σ.locals t).held
                (σ.locals t).entries caller := snatched_keeps hnull hnodes caller
          obtain ⟨after, rfl, -⟩ := hnodes.of_ne_null hnull
          rw [← hheld, ← hentries]
          exact .after hkeeps
  | empty hpc _ _ =>
    rw [hpc] at hcommits
    cases hcommits
  | after hkeeps => exact .after (Guarded.next_keeps hA hkeeps)

/-- A step of another thread. -/
theorem Caller.Holds.other (hA : ∀ u, WorkerHolds g σ.shared u (σ.locals u)) (hu : u ≠ t)
    (h : caller.Holds σ.shared held entries (σ.locals t) effects) :
    caller.Holds ((σ.locals u).next σ.shared).1 held entries (σ.locals t) effects := by
  cases h with
  | before hpc hheld hentries => exact .before hpc hheld hentries
  | empty hpc hheld hentries => exact .empty hpc hheld hentries
  | after hkeeps => exact .after (Guarded.other_keeps hA hu hkeeps)

theorem Caller.holds_stable (nodes : Set Nat) (t : T) (held entries : List Nat)
    (caller : Caller) :
    Stable nodes t fun s worker effects => caller.Holds s held entries worker effects where
  silent hI hA hbusy hsilent h := h.silent hI hA hbusy hsilent
  commits hA hcommits h := h.commits hA hcommits
  other hA hu h := h.other hA hu

variable [DecidableEq T]

/-- **A snatch returns what it has taken, less what it has pushed back.** -/
theorem reachable_call_result (hidle : ∀ t, (σ₀.locals t).pc = .idle) (hstart : Exclusive σ₀)
    (h : Reachable σ₀ σ) (hbegun : (σ.locals t).pc = .snatchLoad caller)
    (hrun : CallRun t σ (.snatched ps :: effects) σ') (hreturned : (σ'.locals t).pc = .idle) :
    caller.Returns σ'.shared (σ.locals t).held (σ.locals t).entries (σ'.locals t) ps := by
  have hbefore : caller.Holds σ.shared (σ.locals t).held (σ.locals t).entries (σ.locals t) [] :=
    .before (.inl hbegun) rfl rfl
  obtain ⟨-, hholds⟩ := hrun.invariant (caller.holds_stable _ t _ _)
    (h.guarded (hstart.guarded hidle)) hbefore
  exact hholds.returns hreturned

/-- `twoThreads` where a thread has begun to snatch one node. -/
def biting : Machine Bool :=
  twoThreads.set true twoThreads.shared
    ⟨.snatchLoad (.snatchPart 1), (twoThreads.locals true).held, (twoThreads.locals true).entries⟩

/-- The thread takes the shared list, bites off the first node and pushes the other one back. -/
theorem reachable_call_result_bite : ∃ σ, Reachable twoThreads biting ∧
    CallRun true biting [.snatched [1, 2], .pushed [2]] σ ∧ (σ.locals true).pc = .idle ∧
      (Caller.snatchPart 1).Returns σ.shared [] [4] (σ.locals true) [1, 2] := by
  have hstart : Reachable twoThreads twoThreads := .start
  have hreach : Reachable twoThreads biting := hstart.step (.snatch true (.snatchPart 1) rfl)
  have hbegun : CallRun true biting [] biting := .start
  have hload := hbegun.silent (fun h => by cases h) (twoThreads_silent (.snatchPart 1))
  have hsnatched := hload.commits (.snatch (.snatchPart 1) twoThreads_list)
  have hrest := hsnatched.silent (fun h => by cases h) fun effect h => by cases h
  have hcut := hrest.silent (fun h => by cases h) fun effect h => by cases h
  have hskip := hcut.silent (fun h => by cases h) fun effect h => by cases h
  have hcurr := hskip.silent (fun h => by cases h) fun effect h => by cases h
  have hpush := hcurr.silent (fun h => by cases h) fun effect h => by cases h
  have hfirst := hpush.silent (fun h => by cases h) fun effect h => by cases h
  have htail := hfirst.silent (fun h => by cases h) fun effect h => by cases h
  have hshort := htail.silent (fun h => by cases h) fun effect h => by cases h
  have hnext := hshort.silent (fun h => by cases h) fun effect h => by cases h
  have hrun : CallRun true biting ([.snatched [1, 2]] ++ [.pushed [2]]) _ :=
    hnext.commits (.push rfl ⟨rfl, by decide, rfl⟩)
  exact ⟨_, hreach, hrun, rfl,
    reachable_call_result twoThreads_idle twoThreads_exclusive hreach rfl hrun rfl⟩

end Cuw3.AtomicPushSnatchList
