/-
  `push` with a limit of attempts, against other threads that change the shared head.

  A `push` that gives up has written the head it saw before its last attempt to the tail of the list
  it was given (`GaveUp`).  The list is as it was, and can be pushed again, exactly when that head
  was null or there was no attempt (`reusable_iff`): otherwise the caller's list runs into the
  shared one.
-/
import Cuw3.Graveyard.Equiv.ListFunctions

namespace Cuw3.AtomicPushSnatchList

open Lib

/-! ### Other threads -/

/-- What the other threads do while a thread pushes a list of the nodes `ps`, which it holds
exclusively: the head at each access of the thread, and writes to the links of other nodes. -/
structure Interference (ps : List Nat) where
  head : Nat → Nat
  links : Others
  spares : ∀ access s, ∀ n ∈ ps, SameLinks s (links access s) n

variable {ps : List Nat}

def Interference.others (env : Interference ps) : Others :=
  fun access s => { env.links access s with head := env.head access }

/-- The head changes between any two of the first `attempts + 1` accesses in a row, so that every
attempt fails. -/
def Interference.Contends (env : Interference ps) (attempts : Nat) : Prop :=
  ∀ i < attempts, env.head (i + 1) ≠ env.head i

/-- The list can be pushed again: it has the same nodes, no link leads out of it, and pushing it
puts them in front of the shared list, whose links stay as they are. -/
structure Reusable (s : AtomicPushSnatchList) (list : Nat) (ps : List Nat) : Prop where
  linked : Linked nullLink s.next list ps
  inside : ∀ p ∈ ps, (s.next p = nullLink ∨ s.next p ∈ ps) ∧ s.skip p ∈ ps
  again : ∀ qs attempts, Listed s s.head qs → ps.Disjoint qs → attempts ≠ 0 →
    ∃ s', Returns (s.push alone attempts list) (s', true) ∧
      Linked nullLink s'.next s'.head (ps ++ qs) ∧ ∀ n ∈ qs, SameLinks s s' n

variable {s s' : AtomicPushSnatchList} {list tail headOld access n : Nat} {attempt attempts : Int}
  {env : Interference ps}

/-- A list with its skip links can be pushed again. -/
theorem Listed.reusable (h : Listed s list ps) (hne : list ≠ nullLink) : Reusable s list ps := by
  refine ⟨h.linked, fun p hp => ⟨?_, h.skips.mem hp⟩, fun qs attempts hqs hdisjoint hattempts => ?_⟩
  · by_cases hnext : s.next p = nullLink
    · exact .inl hnext
    · exact .inr (h.linked.next_mem hp hnext).1
  · obtain ⟨s', hreturns, hhead, hlisted, hsame⟩ := h.push_returns hne hqs hdisjoint hattempts
    refine ⟨s', hreturns, ?_, fun n hn => hsame n fun hmem => hdisjoint hmem hn⟩
    rw [hhead]
    exact hlisted.linked

/-! ### Giving up -/

/-- What the list looks like after attempts that all failed, the last of which wrote `last` to its
tail. -/
structure GaveUp (s s' : AtomicPushSnatchList) (ps : List Nat) (tail last : Nat) : Prop where
  skip : ∀ p ∈ ps, s'.skip p = s.skip p
  next : ∀ p ∈ ps, p ≠ tail → s'.next p = s.next p
  last : s'.next tail = last

/-- One failed attempt. -/
theorem gaveUp_attempt (htail : tail ∈ ps) :
    GaveUp s (env.others access (s.setNext tail headOld)) ps tail headOld := by
  refine ⟨fun p hp => ?_, fun p hp hne => ?_, ?_⟩
  · exact (env.spares access _ p hp).2
  · exact (env.spares access _ p hp).1.trans (Function.update_of_ne hne ..)
  · exact (env.spares access _ tail htail).1.trans (Function.update_self ..)

theorem GaveUp.trans {s'' : AtomicPushSnatchList} {last last' : Nat} (h : GaveUp s s' ps tail last)
    (h' : GaveUp s' s'' ps tail last') : GaveUp s s'' ps tail last' := by
  refine ⟨fun p hp => (h'.skip p hp).trans (h.skip p hp), fun p hp hne => ?_, h'.last⟩
  exact (h'.next p hp hne).trans (h.next p hp hne)

/-- The head seen before the last of some attempts, the first of which saw the head of `access`, or
what the tail linked to. -/
def Interference.lastSeen (env : Interference ps) (access attempts next : Nat) : Nat :=
  if attempts = 0 then next else env.head (access + attempts - 1)

theorem gaveUp_zero : GaveUp s s ps tail (env.lastSeen access 0 (s.next tail)) :=
  ⟨fun _ _ => rfl, fun _ _ _ => rfl, rfl⟩

theorem lastSeen_succ (next : Nat) :
    env.lastSeen (access + 1) n (env.head access) = env.lastSeen access (n + 1) next := by
  unfold Interference.lastSeen
  rw [if_neg (Nat.succ_ne_zero n)]
  split_ifs with hn
  · rw [hn]
    rfl
  · congr 1
    omega

theorem countDown_succ (n : Nat) : countDown (n + 1 : Nat) = n := by
  unfold countDown
  rw [if_pos (by omega)]
  omega

theorem countDown_neg (h : attempt < 0) : countDown attempt = attempt := by
  unfold countDown
  rw [if_neg (by omega)]
  omega

/-- One turn of the loop of `push` that fails, or that succeeds. -/
theorem pushAttempts_succ (hattempt : attempt ≠ 0) (fuel : Nat) :
    pushAttempts env.others list tail s (env.head access) attempt (access + 1) (fuel + 1) =
      if env.head (access + 1) = env.head access then
        some ({ env.others (access + 1) (s.setNext tail (env.head access)) with head := list },
          true)
      else pushAttempts env.others list tail
        (env.others (access + 1) (s.setNext tail (env.head access))) (env.head (access + 1))
        (countDown attempt) (access + 1 + 1) fuel := by
  rw [pushAttempts, if_pos hattempt]
  rfl

/-- Attempts that all fail, by induction on their number. -/
theorem pushAttempts_returns_false (htail : tail ∈ ps)
    (hcontends : ∀ i < n, env.head (access + i + 1) ≠ env.head (access + i)) :
    ∃ s', Returns (pushAttempts env.others list tail s (env.head access) n (access + 1))
      (s', false) ∧
      GaveUp s s' ps tail (env.lastSeen access n (s.next tail)) := by
  induction n generalizing s access with
  | zero =>
    refine ⟨s, Returns.stop fun fuel => ?_, gaveUp_zero⟩
    rw [pushAttempts, if_neg (by simp)]
  | succ n ih =>
    have hfirst : env.head (access + 1) ≠ env.head access := hcontends 0 (Nat.succ_pos n)
    have hrest : ∀ i < n, env.head (access + 1 + i + 1) ≠ env.head (access + 1 + i) := by
      intro i hi
      have hnext := hcontends (i + 1) (by omega)
      rwa [show access + (i + 1) = access + 1 + i by omega] at hnext
    have hattempt : GaveUp s (env.others (access + 1) (s.setNext tail (env.head access))) ps tail
      (env.head access) := gaveUp_attempt htail
    obtain ⟨s', hreturns, hgaveUp⟩ := ih hrest
    refine ⟨s', hreturns.turn fun fuel => ?_, ?_⟩
    · rw [pushAttempts_succ (by omega), if_neg hfirst, countDown_succ]
    · rw [hattempt.last, lastSeen_succ (s.next tail)] at hgaveUp
      exact hattempt.trans hgaveUp

/-- A loop that gives up has made all its attempts, and every one has failed. -/
theorem pushAttempts_false {fuel : Nat}
    (h : pushAttempts env.others list tail s (env.head access) attempt (access + 1) fuel =
      some (s', false)) :
    ∃ n : Nat, attempt = n ∧ ∀ i < n, env.head (access + i + 1) ≠ env.head (access + i) := by
  induction fuel generalizing s access attempt with
  | zero => cases h
  | succ fuel ih =>
    by_cases hattempt : attempt = 0
    · exact ⟨0, hattempt, fun i hi => absurd hi (Nat.not_lt_zero i)⟩
    · rw [pushAttempts_succ hattempt] at h
      split_ifs at h with hsame
      · cases h
      · obtain ⟨n, hn, hrest⟩ := ih h
        -- there was a limit, or the number of attempts would be negative still
        have hpos : 0 < attempt := by
          by_contra hneg
          rw [countDown_neg (by omega)] at hn
          omega
        refine ⟨n + 1, ?_, fun i hi => ?_⟩
        · unfold countDown at hn
          rw [if_pos hpos] at hn
          push_cast
          omega
        · cases i with
          | zero => exact hsame
          | succ i =>
            have hnext := hrest i (by omega)
            rwa [show access + 1 + i = access + (i + 1) by omega] at hnext

/-! ### The call -/

/-- The list after the load of the head and the short-circuit. -/
theorem Listed.shortCircuit (h : Listed s list ps) (hlast : ps.getLast? = some tail) :
    Listed ((env.others 0 s).setSkip list tail) list ps := by
  have hlisted : Listed (env.others 0 s) list ps := h.congr fun n hn => env.spares 0 s n hn
  exact ⟨hlisted.linked, (hlisted.setSkip hlast).skips, h.nodup⟩

/-- `push` is its loop, once the tail is found. -/
theorem Listed.push_returns_iff (h : Listed s list ps) (hne : list ≠ nullLink)
    (hlast : ps.getLast? = some tail) {pushed : Bool} :
    Returns (s.push env.others attempts list) (s', pushed) ↔
      Returns (pushAttempts env.others list tail ((env.others 0 s).setSkip list tail) (env.head 0)
        attempts 1) (s', pushed) := by
  have hlisted : Listed (env.others 0 s) list ps := h.congr fun n hn => env.spares 0 s n hn
  have htail := hlisted.getTail_returns hlast
  have heq : ∀ fuel, (env.others 0 s).getTail list fuel = some tail →
      s.push env.others attempts list fuel = pushAttempts env.others list tail
        ((env.others 0 s).setSkip list tail) (env.head 0) attempts 1 fuel := by
    intro fuel hfuel
    unfold push
    rw [if_neg hne]
    dsimp only
    rw [hfuel]
    rfl
  constructor
  · intro hpush
    exact htail.andThen hpush fun fuel hfuel => (heq fuel hfuel).symm
  · intro hloop
    exact htail.andThen hloop heq

/-- `push` gives up when every one of its attempts fails, and leaves in the tail what it saw before
the last. -/
theorem Listed.push_returns_false (h : Listed s list ps) (hne : list ≠ nullLink)
    (hlast : ps.getLast? = some tail) (hcontends : env.Contends n) :
    ∃ s', Returns (s.push env.others n list) (s', false) ∧
      GaveUp ((env.others 0 s).setSkip list tail) s' ps tail (env.lastSeen 0 n nullLink) := by
  have hlisted : Listed ((env.others 0 s).setSkip list tail) list ps := h.shortCircuit hlast
  have hcontends' : ∀ i < n, env.head (0 + i + 1) ≠ env.head (0 + i) := by
    intro i hi
    rw [Nat.zero_add]
    exact hcontends i hi
  obtain ⟨s', hreturns, hgaveUp⟩ :=
    pushAttempts_returns_false (List.mem_of_getLast? hlast) hcontends'
  rw [hlisted.linked.next_getLast hlast] at hgaveUp
  exact ⟨s', (h.push_returns_iff hne hlast).mpr hreturns, hgaveUp⟩

/-- A list whose tail links to null after all is as it was. -/
theorem GaveUp.listed (hgaveUp : GaveUp s s' ps tail nullLink) (h : Listed s list ps)
    (hlast : ps.getLast? = some tail) : Listed s' list ps := by
  apply h.congr
  intro p hp
  refine ⟨?_, hgaveUp.skip p hp⟩
  by_cases hne : p = tail
  · rw [hne, hgaveUp.last, h.linked.next_getLast hlast]
  · exact hgaveUp.next p hp hne

/-- **A list that was not pushed can be pushed again, unless there were attempts and the head seen
before the last was not null.** -/
theorem reusable_iff (h : Listed s list ps) (env : Interference ps) (attempts : Int) :
    (∀ s', Returns (s.push env.others attempts list) (s', false) → Reusable s' list ps) ↔
      ¬(list ≠ nullLink ∧ 0 < attempts ∧ env.Contends attempts.toNat ∧
        env.head (attempts.toNat - 1) ≠ nullLink) := by
  by_cases hne : list = nullLink
  · -- there is nothing to push
    refine iff_of_true (fun s' hreturns => ?_) fun hbad => hbad.1 hne
    rw [hne] at hreturns
    cases hreturns.unique push_null
  obtain ⟨after, rfl, -⟩ := h.linked.of_ne_null hne
  obtain ⟨tail, hlast⟩ : ∃ tail, (list :: after).getLast? = some tail :=
    ⟨_, List.getLast?_eq_some_getLast (List.cons_ne_nil list after)⟩
  constructor
  · rintro hreusable ⟨-, hpos, hcontends, hhead⟩
    obtain ⟨n, rfl⟩ := Int.eq_ofNat_of_zero_le (Int.le_of_lt hpos)
    rw [Int.toNat_natCast] at hcontends hhead
    obtain ⟨s', hreturns, hgaveUp⟩ := h.push_returns_false hne hlast hcontends
    have hnull := (hreusable s' hreturns).linked.next_getLast hlast
    have hseen := hgaveUp.last
    unfold Interference.lastSeen at hseen
    rw [if_neg (by omega), Nat.zero_add] at hseen
    exact hhead (hseen.symm.trans hnull)
  · intro hgood s' hreturns
    obtain ⟨n, hn⟩ := (h.push_returns_iff hne hlast).mp hreturns
    obtain ⟨attempts', rfl, hcontends'⟩ := pushAttempts_false (hn n (Nat.le_refl n))
    have hcontends : env.Contends attempts' := by
      intro i hi
      have hchanged := hcontends' i hi
      rwa [Nat.zero_add] at hchanged
    obtain ⟨s'', hreturns', hgaveUp⟩ := h.push_returns_false hne hlast hcontends
    obtain ⟨rfl, -⟩ := Prod.mk.inj (hreturns.unique hreturns')
    have hseen : env.lastSeen 0 attempts' nullLink = nullLink := by
      unfold Interference.lastSeen
      split_ifs with hzero
      · rfl
      · by_contra hhead
        rw [Nat.zero_add] at hhead
        exact hgood ⟨hne, by omega, hcontends, hhead⟩
    rw [hseen] at hgaveUp
    exact (hgaveUp.listed (h.shortCircuit hlast) hlast).reusable hne

/-! ### One attempt for a single node -/

/-- The node `1`, which a thread holds, and the shared list of the node `5`. -/
def singleNode : AtomicPushSnatchList := ⟨5, fun _ => nullLink, id⟩

/-- Another thread replaces the shared list after the first load of the head. -/
def replaced : Interference [1] :=
    ⟨fun access => if access = 0 then 5 else 7, alone, fun _ _ _ _ => ⟨rfl, rfl⟩⟩

theorem listed_singleNode : Listed singleNode 1 [1] :=
  .of ⟨rfl, by decide, rfl⟩ ⟨List.mem_singleton_self 1, trivial⟩

theorem reusable_iff_singleNode :
    (∀ s', Returns (singleNode.push replaced.others 0 1) (s', false) → Reusable s' 1 [1]) ↔
      ¬((1 : Nat) ≠ nullLink ∧ (0 : Int) < 0 ∧ replaced.Contends (0 : Int).toNat ∧
        replaced.head ((0 : Int).toNat - 1) ≠ nullLink) :=
  reusable_iff listed_singleNode replaced 0

/-- **After one failed attempt the node that was not pushed links to the head that was seen.** -/
theorem not_reusable : ¬∀ (s : AtomicPushSnatchList) (list : Nat) (ps : List Nat)
    (env : Interference ps) (attempts : Int) (s' : AtomicPushSnatchList), Listed s list ps →
      Returns (s.push env.others attempts list) (s', false) → Reusable s' list ps := by
  intro hall
  have hcontends : replaced.Contends 1 := by
    intro i hi
    obtain rfl : i = 0 := by omega
    decide
  obtain ⟨s', hreturns, hgaveUp⟩ := listed_singleNode.push_returns_false (by decide) rfl hcontends
  have hreusable := hall singleNode 1 [1] replaced 1 s' listed_singleNode hreturns
  have hnull : s'.next 1 = nullLink := hreusable.linked.next_getLast rfl
  have hseen : s'.next 1 = 5 := hgaveUp.last
  rw [hnull] at hseen
  cases hseen

end Cuw3.AtomicPushSnatchList
