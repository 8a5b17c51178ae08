/-
  The push/snatch list under any number of threads, one atomic access at a time.

  The ghost state is the place of each node.  `SharedHolds` says how the shared list follows it,
  `WorkerHolds` how each thread does: the lists it holds (`HeldHolds`), its entries (`EntriesHold`)
  and the list it works on (`ActiveHolds`).  A node has one place by the type of the ghost state,
  which carries over to the program's own data (`Guarded.exclusive`).

  Nodes change their place in six steps only, and no link of a node is written but by the thread
  that works on it.  A head that was loaded may be pushed and snatched any number of times before
  the compare-exchange: where this succeeds, the tail links to the head of the list as it then is.
-/
import Cuw3.Graveyard.PushSnatchList
import Cuw3.Lib.Places
import Cuw3.Lib.Skips
import Mathlib.Data.List.Nodup
import Mathlib.Data.Set.Basic

namespace Cuw3.AtomicPushSnatchList

open Lib

variable {T : Type}

/-! ### Places -/

/-- Where a node can be: in the shared list, in a list that a thread holds, in what a thread works
on, an entry that a thread holds. -/
inductive Place (T : Type) where
  | shared
  | held (t : T) (list : Nat)
  | active (t : T)
  | entry (t : T)

/-- The nodes of a list that ends, without a cycle, and whose skip links go to the node itself or
forward. -/
structure Listed (s : AtomicPushSnatchList) (list : Nat) (ps : List Nat) : Prop where
  linked : Linked nullLink s.next list ps
  skips : Skips s.skip ps
  nodup : ps.Nodup

/-- What a thread works on. -/
inductive Work where
  | nothing
  | list (list : Nat)
  /-- A list that is pushed, up to its tail: the tail links to the head that was loaded. -/
  | upTo (list tail : Nat)
  /-- The two parts of a list that is bitten. -/
  | parts (part1 part2 : Nat)
  | node (node : Nat)

def Work.Nodes (s : AtomicPushSnatchList) : Work → List Nat → Prop
  | .nothing, ps => ps = []
  | .list p, ps => Linked nullLink s.next p ps
  | .upTo p tail, ps => Linked nullLink (Function.update s.next tail nullLink) p ps
  | .parts part1 part2, ps => ∃ qs rs, Linked nullLink s.next part1 qs ∧
      Linked nullLink s.next part2 rs ∧ ps = qs ++ rs
  | .node p, ps => ps = [p]

def Pc.work : Pc → Work
  | .idle => .nothing
  | .pushLoad list => .list list
  | .tailNext list _ _ _ => .list list
  | .tailSkip list _ _ _ _ => .list list
  | .pushSkip list _ _ => .list list
  | .pushNext list _ tail => .upTo list tail
  | .pushSwap list _ tail => .upTo list tail
  | .snatchLoad _ => .nothing
  | .snatchSwap _ => .nothing
  | .biteNext part1 _ _ _ => .list part1
  | .biteRest part1 _ => .list part1
  | .biteCut part1 _ _ => .list part1
  | .biteSkip part1 part2 _ _ => .parts part1 part2
  | .biteCurr part1 part2 _ _ => .parts part1 part2
  | .acquireNext snatched => .list snatched
  | .resetNext thread => .node thread
  | .resetSkip thread => .node thread

/-- The node is at the place, in the program's own data. -/
def At (σ : Machine T) (n : Nat) : Place T → Prop
  | .shared => ∃ ps, Linked nullLink σ.shared.next σ.shared.head ps ∧ n ∈ ps
  | .held t list => list ∈ (σ.locals t).held ∧
      ∃ ps, Linked nullLink σ.shared.next list ps ∧ n ∈ ps
  | .active t => ∃ ps, (σ.locals t).pc.work.Nodes σ.shared ps ∧ n ∈ ps
  | .entry t => n ∈ (σ.locals t).entries

/-- Every node is in at most one place, once, and the lists that no thread is pushing or biting are
well formed. -/
structure Exclusive (σ : Machine T) : Prop where
  unique : ∀ n place place', At σ n place → At σ n place' → place = place'
  shared : ∃ ps, Listed σ.shared σ.shared.head ps
  held : ∀ t, ∀ list ∈ (σ.locals t).held, list ≠ nullLink ∧ ∃ ps, Listed σ.shared list ps
  held_nodup : ∀ t, (σ.locals t).held.Nodup
  active : ∀ t, ∃ ps, (σ.locals t).pc.work.Nodes σ.shared ps ∧ ps.Nodup
  entry : ∀ t, nullLink ∉ (σ.locals t).entries
  entries_nodup : ∀ t, (σ.locals t).entries.Nodup

/-! ### The invariant -/

/-- The place of each node; `none` for what is not a node. -/
abbrev Custody (T : Type) : Type := Places Nat (Place T)

/-- The place belongs to the thread. -/
def Place.Of (t : T) : Place T → Prop
  | .shared => False
  | .held u _ => u = t
  | .active u => u = t
  | .entry u => u = t

structure SharedHolds (nodes : Set Nat) (g : Custody T) (s : AtomicPushSnatchList) : Prop where
  null : g nullLink = none
  nodes : ∀ n, g n = none ↔ n ∉ nodes
  list : ∃ ps, Listed s s.head ps ∧ ∀ n, g n = some .shared ↔ n ∈ ps

structure HeldHolds (g : Custody T) (s : AtomicPushSnatchList) (t : T) (held : List Nat) : Prop
    where
  list : ∀ list ∈ held, list ≠ nullLink ∧
    ∃ ps, Listed s list ps ∧ ∀ n, g n = some (.held t list) ↔ n ∈ ps
  mem : ∀ n list, g n = some (.held t list) → list ∈ held
  nodup : held.Nodup

structure EntriesHold (g : Custody T) (t : T) (entries : List Nat) : Prop where
  entry : ∀ n, g n = some (.entry t) ↔ n ∈ entries
  nodup : entries.Nodup

/-- A list that is pushed, up to its tail. -/
structure Opened (s : AtomicPushSnatchList) (list tail : Nat) (ps : List Nat) : Prop where
  linked : Linked nullLink (Function.update s.next tail nullLink) list ps
  skips : Skips s.skip ps
  last : ps.getLast? = some tail

/-- A list that was cut: in the first part, the nodes `done` have their skip link to the tail, the
nodes `todo` not yet. -/
structure Bitten (s : AtomicPushSnatchList) (part1 part2 tail : Nat) (done todo rest : List Nat) :
    Prop where
  linked : Linked nullLink s.next part1 (done ++ todo)
  last : (done ++ todo).getLast? = some tail
  skips : ∀ n ∈ done, s.skip n = tail
  listed : Listed s part2 rest
  nodup : (done ++ todo ++ rest).Nodup

/-- What is known between two accesses of a thread that works on the nodes `ps`.  Nothing is known
of a loaded head. -/
def PcHolds (s : AtomicPushSnatchList) (ps : List Nat) : Pc → Prop
  | .idle => ps = []
  | .pushLoad list => Listed s list ps ∧ list ≠ nullLink
  | .tailNext list _ node _ => Listed s list ps ∧ node ∈ ps
  | .tailSkip list _ node next _ => Listed s list ps ∧ node ∈ ps ∧ s.next node = next ∧
      next ≠ nullLink
  | .pushSkip list _ tail => Listed s list ps ∧ ps.getLast? = some tail
  | .pushNext list _ tail => Opened s list tail ps
  | .pushSwap list headOld tail => Opened s list tail ps ∧ s.next tail = headOld
  | .snatchLoad _ => ps = []
  | .snatchSwap _ => ps = []
  | .biteNext part1 tail _ _ => Listed s part1 ps ∧ tail ∈ ps
  | .biteRest part1 tail => Listed s part1 ps ∧ tail ∈ ps
  | .biteCut part1 part2 tail => Listed s part1 ps ∧ tail ∈ ps ∧ s.next tail = part2
  | .biteSkip part1 part2 tail curr => ∃ done todo rest,
      Bitten s part1 part2 tail done (curr :: todo) rest ∧ ps = done ++ curr :: todo ++ rest
  | .biteCurr part1 part2 tail curr => ∃ done todo rest,
      Bitten s part1 part2 tail (done ++ [curr]) todo rest ∧ ps = done ++ [curr] ++ todo ++ rest
  | .acquireNext snatched => Listed s snatched ps ∧ snatched ≠ nullLink
  | .resetNext thread => ps = [thread] ∧ thread ≠ nullLink
  | .resetSkip thread => ps = [thread] ∧ thread ≠ nullLink ∧ s.next thread = nullLink

def ActiveHolds (g : Custody T) (s : AtomicPushSnatchList) (t : T) (pc : Pc) : Prop :=
  ∃ ps, PcHolds s ps pc ∧ ∀ n, g n = some (.active t) ↔ n ∈ ps

structure WorkerHolds (g : Custody T) (s : AtomicPushSnatchList) (t : T) (worker : Worker) : Prop
    where
  held : HeldHolds g s t worker.held
  entries : EntriesHold g t worker.entries
  active : ActiveHolds g s t worker.pc

/-- The invariant. -/
abbrev Guarded (nodes : Set Nat) (σ : Machine T) : Prop :=
  σ.Holds (SharedHolds nodes) WorkerHolds

variable {nodes : Set Nat} {σ : Machine T} {g g' : Custody T} {s s' : AtomicPushSnatchList}
  {t u : T} {n node list part1 part2 tail : Nat} {ps qs ns held entries : List Nat}
  {place place' : Place T} {pc : Pc}

/-! ### Lists under writes -/

/-- The links of the node are the same. -/
def SameLinks (s s' : AtomicPushSnatchList) (n : Nat) : Prop :=
  s'.next n = s.next n ∧ s'.skip n = s.skip n

theorem sameLinks_setNext (h : n ≠ node) {next : Nat} : SameLinks s (s.setNext node next) n :=
  ⟨Function.update_of_ne h .., rfl⟩

theorem sameLinks_setSkip (h : n ≠ node) {skip : Nat} : SameLinks s (s.setSkip node skip) n :=
  ⟨rfl, Function.update_of_ne h ..⟩

theorem Listed.of (hlinked : Linked nullLink s.next list ps) (hskips : Skips s.skip ps) :
    Listed s list ps :=
  ⟨hlinked, hskips, hlinked.nodup⟩

theorem Listed.congr (h : Listed s list ps) (heq : ∀ n ∈ ps, SameLinks s s' n) :
    Listed s' list ps :=
  .of (h.linked.congr fun n hn => (heq n hn).1) (h.skips.congr fun n hn => (heq n hn).2)

theorem Opened.congr (h : Opened s list tail ps) (heq : ∀ n ∈ ps, SameLinks s s' n) :
    Opened s' list tail ps := by
  refine ⟨h.linked.congr fun n hn => ?_, h.skips.congr fun n hn => (heq n hn).2, h.last⟩
  by_cases hn' : n = tail
  · rw [hn', Function.update_self, Function.update_self]
  · rw [Function.update_of_ne hn', Function.update_of_ne hn', (heq n hn).1]

theorem Bitten.congr {done todo rest : List Nat} (h : Bitten s part1 part2 tail done todo rest)
    (heq : ∀ n ∈ done ++ todo ++ rest, SameLinks s s' n) :
    Bitten s' part1 part2 tail done todo rest := by
  refine ⟨h.linked.congr fun n hn => (heq n (List.mem_append_left _ hn)).1, h.last, fun n hn => ?_,
    h.listed.congr fun n hn => heq n (List.mem_append_right _ hn), h.nodup⟩
  rw [(heq n (List.mem_append_left _ (List.mem_append_left _ hn))).2]
  exact h.skips n hn

/-- A thread that works on nodes whose links stay is not disturbed. -/
theorem PcHolds.congr (h : PcHolds s ps pc) (heq : ∀ n ∈ ps, SameLinks s s' n) :
    PcHolds s' ps pc := by
  cases pc with
  | idle => exact h
  | pushLoad list => exact ⟨h.1.congr heq, h.2⟩
  | tailNext list headOld node first => exact ⟨h.1.congr heq, h.2⟩
  | tailSkip list headOld node next first =>
    obtain ⟨hlisted, hnode, hnext, hnull⟩ := h
    exact ⟨hlisted.congr heq, hnode, (heq node hnode).1.trans hnext, hnull⟩
  | pushSkip list headOld tail => exact ⟨h.1.congr heq, h.2⟩
  | pushNext list headOld tail => exact Opened.congr h heq
  | pushSwap list headOld tail =>
    have hmem := List.mem_of_getLast? h.1.last
    exact ⟨h.1.congr heq, (heq tail hmem).1.trans h.2⟩
  | snatchLoad caller => exact h
  | snatchSwap caller => exact h
  | biteNext part1 tail i amount => exact ⟨h.1.congr heq, h.2⟩
  | biteRest part1 tail => exact ⟨h.1.congr heq, h.2⟩
  | biteCut part1 part2 tail =>
    obtain ⟨hlisted, htail, hnext⟩ := h
    exact ⟨hlisted.congr heq, htail, (heq tail htail).1.trans hnext⟩
  | biteSkip part1 part2 tail curr =>
    obtain ⟨done, todo, rest, hbitten, rfl⟩ := h
    exact ⟨done, todo, rest, hbitten.congr heq, rfl⟩
  | biteCurr part1 part2 tail curr =>
    obtain ⟨done, todo, rest, hbitten, rfl⟩ := h
    exact ⟨done, todo, rest, hbitten.congr heq, rfl⟩
  | acquireNext snatched => exact ⟨h.1.congr heq, h.2⟩
  | resetNext thread => exact h
  | resetSkip thread =>
    obtain ⟨rfl, hnull, hnext⟩ := h
    exact ⟨rfl, hnull, (heq thread List.mem_cons_self).1.trans hnext⟩

/-! ### Threads under steps of others -/

theorem HeldHolds.keep (h : HeldHolds g s t held)
    (hplace : ∀ n list, g' n = some (.held t list) ↔ g n = some (.held t list))
    (hlinks : ∀ n list, g n = some (.held t list) → SameLinks s s' n) : HeldHolds g' s' t held := by
  refine ⟨fun list hlist => ?_, fun n list hn => h.mem n list ((hplace n list).mp hn), h.nodup⟩
  obtain ⟨hnull, ps, hlisted, hps⟩ := h.list list hlist
  refine ⟨hnull, ps, hlisted.congr fun n hn => hlinks n list ((hps n).mpr hn), fun n => ?_⟩
  rw [hplace, hps]

theorem EntriesHold.keep (h : EntriesHold g t entries)
    (hplace : ∀ n, g' n = some (.entry t) ↔ g n = some (.entry t)) : EntriesHold g' t entries :=
  ⟨fun n => (hplace n).trans (h.entry n), h.nodup⟩

theorem ActiveHolds.keep (h : ActiveHolds g s t pc)
    (hplace : ∀ n, g' n = some (.active t) ↔ g n = some (.active t))
    (hlinks : ∀ n, g n = some (.active t) → SameLinks s s' n) : ActiveHolds g' s' t pc := by
  obtain ⟨ps, hpc, hps⟩ := h
  refine ⟨ps, hpc.congr fun n hn => hlinks n ((hps n).mpr hn), fun n => ?_⟩
  rw [hplace, hps]

/-- A thread is not disturbed by a step that leaves its nodes and their links where they are. -/
theorem WorkerHolds.undisturbed {worker : Worker} (h : WorkerHolds g s t worker)
    (hplace : ∀ n place, place.Of t → (g' n = some place ↔ g n = some place))
    (hlinks : ∀ n place, place.Of t → g n = some place → SameLinks s s' n) :
    WorkerHolds g' s' t worker where
  held := h.held.keep (fun n list => hplace n (.held t list) rfl)
    fun n list => hlinks n (.held t list) rfl
  entries := h.entries.keep fun n => hplace n (.entry t) rfl
  active := h.active.keep (fun n => hplace n (.active t) rfl) fun n => hlinks n (.active t) rfl

theorem SharedHolds.keep (h : SharedHolds nodes g s) (hhead : s'.head = s.head)
    (hlinks : ∀ n, g n = some .shared → SameLinks s s' n) : SharedHolds nodes g s' := by
  obtain ⟨ps, hlisted, hps⟩ := h.list
  refine ⟨h.null, h.nodes, ps, ?_, hps⟩
  rw [hhead]
  exact hlisted.congr fun n hn => hlinks n ((hps n).mpr hn)

/-- Nodes that move between two other places do not matter for the shared list. -/
theorem SharedHolds.move (h : SharedHolds nodes g s) (hfrom : ∀ n ∈ ns, g n = some place)
    (hplace : place ≠ .shared) {target : Place T} (htarget : target ≠ .shared)
    (hhead : s'.head = s.head) (hlinks : ∀ n, g n = some .shared → SameLinks s s' n) :
    SharedHolds nodes (g.move ns target) s' := by
  obtain ⟨hnull, hnodes, ps, hlisted, hps⟩ := h.keep hhead hlinks
  refine ⟨(Places.move_none hfrom).mpr hnull, fun n => ?_, ps, hlisted, fun n => ?_⟩
  · rw [Places.move_none hfrom, hnodes]
  · rw [Places.move_other hfrom hplace.symm htarget.symm, hps]

/-! ### The acting thread -/

/-- The thread starts to hold a list. -/
theorem HeldHolds.take (h : HeldHolds g s t held) (hlisted : Listed s' list ps)
    (hnull : list ≠ nullLink) (hfrom : ∀ n ∈ ps, g n = some place)
    (hplace : ∀ list, place ≠ .held t list)
    (hlinks : ∀ n list, g n = some (.held t list) → SameLinks s s' n) :
    HeldHolds (g.move ps (.held t list)) s' t (list :: held) := by
  have hmem : list ∈ ps := by
    obtain ⟨qs, rfl, -⟩ := hlisted.linked.of_ne_null hnull
    exact List.mem_cons_self
  have hnew : list ∉ held := by
    intro hlist
    obtain ⟨-, qs, hqs, hat⟩ := h.list list hlist
    obtain ⟨rs, rfl, -⟩ := hqs.linked.of_ne_null hnull
    have hheld := (hat list).mpr List.mem_cons_self
    rw [hfrom list hmem] at hheld
    exact hplace list (Option.some_inj.mp hheld)
  have hnone : ∀ n, g n ≠ some (.held t list) := fun n hn => hnew (h.mem n list hn)
  have hother : ∀ n other, other ≠ list →
      ((g.move ps (.held t list)) n = some (.held t other) ↔ g n = some (.held t other)) := by
    intro n other hne
    exact Places.move_other hfrom (hplace other).symm (by simpa using hne)
  refine ⟨fun other hin => ?_, fun n other hn => ?_, List.nodup_cons.mpr ⟨hnew, h.nodup⟩⟩
  · rcases List.mem_cons.mp hin with rfl | hin
    · exact ⟨hnull, ps, hlisted, fun n => by simp [hnone n]⟩
    · have hne : other ≠ list := ne_of_mem_of_not_mem hin hnew
      obtain ⟨hother_null, qs, hqs, hat⟩ := h.list other hin
      refine ⟨hother_null, qs, hqs.congr fun n hn => hlinks n other ((hat n).mpr hn), fun n => ?_⟩
      rw [hother n other hne, hat]
  · by_cases hne : other = list
    · exact hne ▸ List.mem_cons_self
    · exact List.mem_cons_of_mem _ (h.mem n other ((hother n other hne).mp hn))

/-- The thread does not hold a list any more. -/
theorem HeldHolds.give (h : HeldHolds g s t held) (hlist : list ∈ held)
    (hfrom : ∀ n, g n = some (.held t list) ↔ n ∈ ps) (hplace : ∀ list, place ≠ .held t list) :
    HeldHolds (g.move ps place) s t (held.erase list) := by
  have hother : ∀ n other, other ≠ list →
      ((g.move ps place) n = some (.held t other) ↔ g n = some (.held t other)) := by
    intro n other hne
    exact Places.move_other (fun n hn => (hfrom n).mpr hn) (by simpa using hne) (hplace other).symm
  refine ⟨fun other hin => ?_, fun n other hn => ?_, h.nodup.erase list⟩
  · obtain ⟨hne, hin⟩ := h.nodup.mem_erase_iff.mp hin
    obtain ⟨hnull, qs, hqs, hat⟩ := h.list other hin
    refine ⟨hnull, qs, hqs, fun n => ?_⟩
    rw [hother n other hne, hat]
  · have hne : other ≠ list := by
      rintro rfl
      rw [Places.move_of_ne (hplace other).symm, hfrom] at hn
      exact hn.2 hn.1
    exact h.nodup.mem_erase_iff.mpr ⟨hne, h.mem n other ((hother n other hne).mp hn)⟩

/-- The thread starts to hold an entry. -/
theorem EntriesHold.take (h : EntriesHold g t entries) (hfrom : g n ≠ some (.entry t)) :
    EntriesHold (g.move [n] (.entry t)) t (n :: entries) := by
  refine ⟨fun m => ?_, List.nodup_cons.mpr ⟨fun hmem => hfrom ((h.entry n).mpr hmem), h.nodup⟩⟩
  rw [Places.move_eq, List.mem_singleton, List.mem_cons, h.entry]

/-- The thread does not hold an entry any more. -/
theorem EntriesHold.give (h : EntriesHold g t entries) (hplace : place ≠ .entry t) :
    EntriesHold (g.move [n] place) t (entries.erase n) := by
  refine ⟨fun m => ?_, h.nodup.erase n⟩
  rw [Places.move_of_ne hplace.symm, h.entry, h.nodup.mem_erase_iff, List.mem_singleton, and_comm]

/-! ### Between two accesses -/

section Pc

variable {headOld skip curr i amount : Nat} {first : Bool} {done todo rest : List Nat}

@[simp] theorem startPush_held : (startPush list held entries).held = held := by
  unfold startPush
  split <;> rfl

@[simp] theorem startPush_entries : (startPush list held entries).entries = entries := by
  unfold startPush
  split <;> rfl

theorem pcHolds_startPush (h : Listed s list ps) : PcHolds s ps
    (startPush list held entries).pc := by
  unfold startPush
  split
  next hnull =>
    subst hnull
    exact Linked.null_iff.mp h.linked
  next hnull => exact ⟨h, hnull⟩

theorem pcHolds_tailTurn (h : Listed s list ps) (hskip : skip ∈ ps)
    (hlast : node = skip → ps.getLast? = some node) :
    PcHolds s ps (tailTurn list headOld node skip first) := by
  unfold tailTurn
  split
  next hstop => exact ⟨h, hlast hstop.2⟩
  next => exact ⟨h, hskip⟩

theorem pcHolds_biteTurn (h : Listed s part1 ps) (htail : tail ∈ ps) :
    PcHolds s ps (biteTurn part1 tail i amount) := by
  unfold biteTurn
  split
  · exact ⟨h, htail⟩
  · exact ⟨h, htail⟩

/-- The short-circuit. -/
theorem Listed.setSkip (h : Listed s list ps) (hlast : ps.getLast? = some tail) :
    Opened (s.setSkip list tail) list tail ps := by
  have hmem := List.mem_of_getLast? hlast
  have hnext := h.linked.next_getLast hlast
  refine ⟨?_, ?_, hlast⟩
  · have heq : Function.update s.next tail nullLink = s.next := by
      rw [← hnext]
      exact Function.update_eq_self ..
    change Linked nullLink (Function.update s.next tail nullLink) list ps
    rw [heq]
    exact h.linked
  · cases ps with
    | nil => simp at hmem
    | cons p ps =>
      obtain ⟨rfl, -, -⟩ := h.linked
      exact h.skips.update_head (List.nodup_cons.mp h.nodup).1 hmem

/-- The tail of a list that is pushed may link anywhere. -/
theorem Opened.setNext (h : Opened s list tail ps) {next : Nat} :
    Opened (s.setNext tail next) list tail ps := by
  refine ⟨?_, h.skips, h.last⟩
  change Linked nullLink (Function.update (Function.update s.next tail next) tail nullLink) list ps
  rw [Function.update_idem]
  exact h.linked

/-- A list that is pushed, and the list its tail links to. -/
theorem Opened.append (h : Opened s list tail ps) (hqs : Listed s (s.next tail) qs) :
    Listed s list (ps ++ qs) :=
  .of (h.linked.append h.last hqs.linked) (h.skips.append hqs.skips)

/-- The cut after the nodes `todo`. -/
theorem Listed.cut {todo rest : List Nat} (h : Listed s part1 (todo ++ rest))
    (hlast : todo.getLast? = some tail) :
    Bitten (s.setNext tail nullLink) part1 (s.next tail) tail [] todo rest := by
  obtain ⟨hfirst, hsecond⟩ := h.linked.cut hlast
  exact ⟨hfirst, hlast, by simp, .of hsecond h.skips.suffix, h.nodup⟩

/-- The cut after the first part. -/
theorem Listed.setNext (h : Listed s part1 ps) (htail : tail ∈ ps) :
    ∃ todo rest, Bitten (s.setNext tail nullLink) part1 (s.next tail) tail [] todo rest ∧
      ps = todo ++ rest := by
  obtain ⟨before, rest, rfl⟩ := List.append_of_mem htail
  have hsplit : before ++ tail :: rest = (before ++ [tail]) ++ rest := by simp
  rw [hsplit] at h ⊢
  exact ⟨before ++ [tail], rest, h.cut List.getLast?_concat, rfl⟩

/-- One turn of the second loop of `bite`. -/
theorem Bitten.setSkip (h : Bitten s part1 part2 tail done (curr :: todo) rest) :
    Bitten (s.setSkip curr tail) part1 part2 tail (done ++ [curr]) todo rest := by
  have hsplit : done ++ [curr] ++ todo = done ++ curr :: todo := by simp
  have hnodup := h.nodup
  rw [List.append_assoc, List.nodup_append] at hnodup
  obtain ⟨-, hcurr, hdone⟩ := hnodup
  rw [List.cons_append, List.nodup_cons] at hcurr
  refine ⟨?_, ?_, fun n hn => ?_, h.listed.congr fun n hn => sameLinks_setSkip ?_, ?_⟩
  · rw [hsplit]
    exact h.linked
  · rw [hsplit]
    exact h.last
  · by_cases hne : n = curr
    · rw [hne]
      exact Function.update_self ..
    · rw [List.mem_append, List.mem_singleton, or_iff_left hne] at hn
      exact (Function.update_of_ne hne ..).trans (h.skips n hn)
  · rintro rfl
    exact hcurr.1 (List.mem_append_right _ hn)
  · rw [hsplit]
    exact h.nodup

/-- After the second loop the first part is a list of its own. -/
theorem Bitten.finish (h : Bitten s part1 part2 tail done [] rest) :
    Listed s part1 done ∧ part1 ≠ nullLink := by
  obtain ⟨hlinked, hlast, hskips, -, -⟩ := h
  rw [List.append_nil] at hlinked hlast
  refine ⟨.of hlinked (.of_tail hlast hskips), ?_⟩
  rintro rfl
  rw [Linked.null_iff.mp hlinked] at hlast
  cases hlast

end Pc

/-! ### Steps -/

theorem Place.of_unique (ht : place.Of t) (hu : place.Of u) : t = u := by
  cases place with
  | shared => exact ht.elim
  | held v list => exact ht.symm.trans hu
  | active v => exact ht.symm.trans hu
  | entry v => exact ht.symm.trans hu

variable [DecidableEq T] {worker : Worker}

/-- A thread moves nodes between the shared list and its own places, and writes links of nodes that
it works on. -/
theorem Guarded.move (target : Place T) (hA : ∀ u, WorkerHolds g σ.shared u (σ.locals u))
    (hfrom : ∀ n ∈ ns, g n = some place) (hplace : place = .shared ∨ place.Of t)
    (htarget : target = .shared ∨ target.Of t)
    (hlinks : ∀ n, g n ≠ some (.active t) → SameLinks σ.shared s' n)
    (hI : SharedHolds nodes (g.move ns target) s')
    (ht : WorkerHolds (g.move ns target) s' t worker) : Guarded nodes (σ.set t s' worker) := by
  refine Threads.Holds.step hA hI ht fun u hne h => ?_
  -- what the acting thread has to do with is not with the other thread
  have hother : ∀ place place' : Place T, place'.Of u → place = .shared ∨ place.Of t →
      place' ≠ place := by
    rintro place place' hu (rfl | ht) rfl
    · exact hu
    · exact hne (Place.of_unique hu ht)
  refine h.undisturbed (fun n place' hu => ?_) fun n place' hu hn => hlinks n ?_
  · exact Places.move_other hfrom (hother place place' hu hplace) (hother target place' hu htarget)
  · rw [hn]
    intro heq
    exact hother (.active t) place' hu (.inr rfl) (Option.some_inj.mp heq)

/-- A thread writes links of nodes that it works on, and moves none. -/
theorem Guarded.stay (hI : SharedHolds nodes g σ.shared)
    (hA : ∀ u, WorkerHolds g σ.shared u (σ.locals u)) (hhead : s'.head = σ.shared.head)
    (hlinks : ∀ n, g n ≠ some (.active t) → SameLinks σ.shared s' n) (hpc : ActiveHolds g s' t pc) :
    Guarded nodes (σ.set t s' ⟨pc, (σ.locals t).held, (σ.locals t).entries⟩) := by
  have hmove : g.move [] .shared = g := Places.move_nil
  have hfrom : ∀ n ∈ ([] : List Nat), g n = some .shared := by simp
  refine .move .shared hA hfrom (.inl rfl) (.inl rfl) hlinks ?_ ?_
  · rw [hmove]
    exact hI.keep hhead fun n hn => hlinks n (by simp [hn])
  · rw [hmove]
    exact ⟨(hA t).held.keep (fun _ _ => Iff.rfl) fun n list hn => hlinks n (by simp [hn]),
      (hA t).entries, hpc⟩

section Steps

variable (hI : SharedHolds nodes g σ.shared) (hA : ∀ u, WorkerHolds g σ.shared u (σ.locals u))
include hI hA

/-- A thread only reads. -/
theorem Guarded.read (hactive : ∀ n, g n = some (.active t) ↔ n ∈ ps)
    (hpc : PcHolds σ.shared ps pc) :
    Guarded nodes (σ.set t σ.shared ⟨pc, (σ.locals t).held, (σ.locals t).entries⟩) :=
  .stay hI hA rfl (fun _ _ => ⟨rfl, rfl⟩) ⟨ps, hpc, hactive⟩

/-- A thread writes links of one node that it works on. -/
theorem Guarded.write (node : Nat) (hactive : ∀ n, g n = some (.active t) ↔ n ∈ ps)
    (hnode : node ∈ ps)
    (hhead : s'.head = σ.shared.head) (hlinks : ∀ n, n ≠ node → SameLinks σ.shared s' n)
    (hpc : PcHolds s' ps pc) :
    Guarded nodes (σ.set t s' ⟨pc, (σ.locals t).held, (σ.locals t).entries⟩) := by
  refine .stay hI hA hhead (fun n hn => hlinks n ?_) ⟨ps, hpc, hactive⟩
  rintro rfl
  exact hn ((hactive n).mpr hnode)

/-- A thread starts to push a list that it holds. -/
theorem Guarded.push (hidle : (σ.locals t).pc = .idle)
    (hheld : list = nullLink ∨ list ∈ (σ.locals t).held) :
    Guarded nodes (σ.set t σ.shared
      (startPush list ((σ.locals t).held.erase list) (σ.locals t).entries)) := by
  obtain ⟨ps, hpc, hactive⟩ := (hA t).active
  rw [hidle] at hpc
  obtain rfl : ps = [] := hpc
  by_cases hnull : list = nullLink
  · -- nothing happens
    have hnot : list ∉ (σ.locals t).held := fun hin => ((hA t).held.list list hin).1 hnull
    rw [List.erase_of_not_mem hnot, startPush, if_pos hnull]
    exact .read hI hA hactive rfl
  · have hin := hheld.resolve_left hnull
    obtain ⟨-, ps, hlisted, hat⟩ := (hA t).held.list list hin
    have hfrom : ∀ n ∈ ps, g n = some (.held t list) := fun n hn => (hat n).mpr hn
    refine .move (.active t) hA hfrom (.inr rfl) (.inr rfl) (fun _ _ => ⟨rfl, rfl⟩)
      (hI.move hfrom (by simp) (by simp) rfl fun _ _ => ⟨rfl, rfl⟩) ⟨?_, ?_, ps, ?_, fun n => ?_⟩
    · rw [startPush_held]
      exact (hA t).held.give hin hat (by simp)
    · rw [startPush_entries]
      exact (hA t).entries.keep fun n => Places.move_other hfrom (by simp) (by simp)
    · exact pcHolds_startPush hlisted
    · simp [hactive]

/-- A thread starts to put an entry that it holds. -/
theorem Guarded.putThread (hidle : (σ.locals t).pc = .idle) (hentry : node ∈ (σ.locals t).entries) :
    Guarded nodes (σ.set t σ.shared
      ⟨.resetNext node, (σ.locals t).held, (σ.locals t).entries.erase node⟩) := by
  obtain ⟨ps, hpc, hactive⟩ := (hA t).active
  rw [hidle] at hpc
  obtain rfl : ps = [] := hpc
  have hat : g node = some (.entry t) := ((hA t).entries.entry node).mpr hentry
  have hfrom : ∀ n ∈ [node], g n = some (.entry t) := by simpa using hat
  have hnull : node ≠ nullLink := by
    rintro rfl
    rw [hI.null] at hat
    cases hat
  refine .move (.active t) hA hfrom (.inr rfl) (.inr rfl) (fun _ _ => ⟨rfl, rfl⟩)
    (hI.move hfrom (by simp) (by simp) rfl fun _ _ => ⟨rfl, rfl⟩) ⟨?_, ?_, [node], ?_, fun n => ?_⟩
  · exact (hA t).held.keep (fun n list => Places.move_other hfrom (by simp) (by simp))
      fun _ _ _ => ⟨rfl, rfl⟩
  · exact (hA t).entries.give (by simp)
  · exact ⟨rfl, hnull⟩
  · simp [hactive]

/-- The compare-exchange of `push`: the list is in front of the shared one. -/
theorem Guarded.pushSwap {headOld : Nat} (hactive : ∀ n, g n = some (.active t) ↔ n ∈ ps)
    (hpc : PcHolds σ.shared ps (.pushSwap list headOld tail)) (hhead : σ.shared.head = headOld) :
    Guarded nodes (σ.set t { σ.shared with head := list }
      ⟨.idle, (σ.locals t).held, (σ.locals t).entries⟩) := by
  obtain ⟨hopened, hnext⟩ := hpc
  obtain ⟨qs, hqs, hat⟩ := hI.list
  have hfrom : ∀ n ∈ ps, g n = some (.active t) := fun n hn => (hactive n).mpr hn
  refine .move .shared hA hfrom (.inr rfl) (.inl rfl) (fun _ _ => ⟨rfl, rfl⟩)
    ⟨?_, fun n => ?_, ps ++ qs, ?_, fun n => ?_⟩ ⟨?_, ?_, [], rfl, fun n => ?_⟩
  · exact (Places.move_none hfrom).mpr hI.null
  · rw [Places.move_none hfrom, hI.nodes]
  · -- the tail links to the head, whatever happened to the list since the load
    rw [hhead, ← hnext] at hqs
    exact (hopened.append hqs).congr fun _ _ => ⟨rfl, rfl⟩
  · rw [Places.move_eq, hat, List.mem_append]
  · exact (hA t).held.keep (fun n list => Places.move_other hfrom (by simp) (by simp))
      fun _ _ _ => ⟨rfl, rfl⟩
  · exact (hA t).entries.keep fun n => Places.move_other hfrom (by simp) (by simp)
  · rw [Places.move_of_ne (by simp), hactive]
    simp

/-- The exchange of `snatch`. -/
theorem Guarded.snatchSwap (hactive : ∀ n, g n ≠ some (.active t)) (caller : Caller) :
    Guarded nodes (σ.set t { σ.shared with head := nullLink }
      (snatched σ.shared.head (σ.locals t).held (σ.locals t).entries caller)) := by
  obtain ⟨ps, hps, hat⟩ := hI.list
  have hfrom : ∀ n ∈ ps, g n = some .shared := fun n hn => (hat n).mpr hn
  have hlisted : ∀ {list qs}, Listed σ.shared list qs →
      Listed { σ.shared with head := nullLink } list qs :=
    fun h => h.congr fun _ _ => ⟨rfl, rfl⟩
  have hshared : ∀ target : Place T, target ≠ .shared →
      SharedHolds nodes (g.move ps target) { σ.shared with head := nullLink } := by
    intro target htarget
    refine ⟨(Places.move_none hfrom).mpr hI.null, fun n => ?_, [],
      .of (Linked.nil_iff.mpr rfl) Skips.nil, fun n => ?_⟩
    · rw [Places.move_none hfrom, hI.nodes]
    · rw [Places.move_of_ne htarget.symm, hat]
      simp
  -- a list that the thread goes on to work on
  have hwork : ∀ pc, PcHolds { σ.shared with head := nullLink } ps pc →
      Guarded nodes (σ.set t { σ.shared with head := nullLink }
        ⟨pc, (σ.locals t).held, (σ.locals t).entries⟩) := by
    intro pc hpc
    refine .move (.active t) hA hfrom (.inl rfl) (.inr rfl) (fun _ _ => ⟨rfl, rfl⟩)
      (hshared _ (by simp)) ⟨?_, ?_, ps, hpc, fun n => by simp [hactive]⟩
    · exact (hA t).held.keep (fun n list => Places.move_other hfrom (by simp) (by simp))
        fun _ _ _ => ⟨rfl, rfl⟩
    · exact (hA t).entries.keep fun n => Places.move_other hfrom (by simp) (by simp)
  by_cases hnull : σ.shared.head = nullLink
  · unfold snatched
    rw [if_pos hnull]
    rw [hnull] at hps
    exact hwork .idle (Linked.null_iff.mp hps.linked)
  · have hhead : σ.shared.head ∈ ps := by
      obtain ⟨qs, rfl, -⟩ := hps.linked.of_ne_null hnull
      exact List.mem_cons_self
    unfold snatched
    rw [if_neg hnull]
    cases caller with
    | snatch =>
      refine .move (.held t σ.shared.head) hA hfrom (.inl rfl) (.inr rfl)
        (fun _ _ => ⟨rfl, rfl⟩) (hshared _ (by simp)) ⟨?_, ?_, [], rfl, fun n => ?_⟩
      · exact (hA t).held.take (hlisted hps) hnull hfrom (by simp) fun _ _ _ => ⟨rfl, rfl⟩
      · exact (hA t).entries.keep fun n => Places.move_other hfrom (by simp) (by simp)
      · rw [Places.move_of_ne (by simp)]
        simp [hactive]
    | snatchPart amount => exact hwork _ (pcHolds_biteTurn (hlisted hps) hhead)
    | acquire => exact hwork _ ⟨hlisted hps, hnull⟩

/-- The head of the second loop of `bite`. -/
theorem Guarded.biteSkips {curr : Nat} {done todo rest : List Nat}
    (hhead : s'.head = σ.shared.head)
    (hlinks : ∀ n, g n ≠ some (.active t) → SameLinks σ.shared s' n)
    (hactive : ∀ n, g n = some (.active t) ↔ n ∈ done ++ todo ++ rest)
    (hbitten : Bitten s' part1 part2 tail done todo rest)
    (hcurr : Linked nullLink s'.next curr todo) :
    Guarded nodes (σ.set t s'
      (biteSkips (σ.locals t).held (σ.locals t).entries part1 part2 tail curr)) := by
  by_cases hnull : curr = nullLink
  · -- the first part is held from now on, the second one pushed
    rw [hnull, Linked.null_iff] at hcurr
    subst hcurr
    obtain ⟨hlisted, hpart1⟩ := hbitten.finish
    have hnodup := hbitten.nodup
    rw [List.append_nil] at hactive hnodup
    have hfrom : ∀ n ∈ done, g n = some (.active t) :=
      fun n hn => (hactive n).mpr (List.mem_append_left _ hn)
    rw [AtomicPushSnatchList.biteSkips, if_neg (not_not.mpr hnull)]
    refine .move (.held t part1) hA hfrom (.inr rfl) (.inr rfl) hlinks
      (hI.move hfrom (by simp) (by simp) hhead fun n hn => hlinks n (by simp [hn]))
      ⟨?_, ?_, rest, pcHolds_startPush hbitten.listed, fun n => ?_⟩
    · rw [startPush_held]
      exact (hA t).held.take hlisted hpart1 hfrom (by simp) fun n list hn => hlinks n (by simp [hn])
    · rw [startPush_entries]
      exact (hA t).entries.keep fun n => Places.move_other hfrom (by simp) (by simp)
    · rw [Places.move_of_ne (by simp), hactive, List.mem_append]
      have hdisjoint := (List.nodup_append.mp hnodup).2.2
      exact ⟨fun h => h.1.resolve_left h.2, fun h => ⟨.inr h, fun h' => hdisjoint n h' n h rfl⟩⟩
  · rw [AtomicPushSnatchList.biteSkips, if_pos hnull]
    obtain ⟨todo, rfl, -⟩ := hcurr.of_ne_null hnull
    exact .stay hI hA hhead hlinks ⟨_, ⟨done, todo, rest, hbitten, rfl⟩, hactive⟩

/-- `acquire_distribute_` keeps the first node and pushes the others. -/
theorem Guarded.acquireNext (hactive : ∀ n, g n = some (.active t) ↔ n ∈ ps)
    (hpc : PcHolds σ.shared ps (.acquireNext node)) :
    Guarded nodes (σ.set t σ.shared (startPush (σ.shared.next node) (σ.locals t).held
      (node :: (σ.locals t).entries))) := by
  obtain ⟨hlisted, hnull⟩ := hpc
  obtain ⟨rest, rfl, hrest⟩ := hlisted.linked.of_ne_null hnull
  have hnot := (List.nodup_cons.mp hlisted.nodup).1
  have hfrom : ∀ n ∈ [node], g n = some (.active t) := by
    simpa using (hactive node).mpr List.mem_cons_self
  refine .move (.entry t) hA hfrom (.inr rfl) (.inr rfl) (fun _ _ => ⟨rfl, rfl⟩)
    (hI.move hfrom (by simp) (by simp) rfl fun _ _ => ⟨rfl, rfl⟩)
    ⟨?_, ?_, rest, pcHolds_startPush (.of hrest hlisted.skips.2), fun n => ?_⟩
  · rw [startPush_held]
    exact (hA t).held.keep (fun n list => Places.move_other hfrom (by simp) (by simp))
      fun _ _ _ => ⟨rfl, rfl⟩
  · rw [startPush_entries]
    exact (hA t).entries.take (by simp [hfrom node])
  · rw [Places.move_of_ne (by simp), hactive, List.mem_cons, List.mem_singleton]
    constructor
    · rintro ⟨rfl | hn, hne⟩
      · exact absurd rfl hne
      · exact hn
    · intro hn
      exact ⟨.inr hn, ne_of_mem_of_not_mem hn hnot⟩

end Steps

/-- One access of a thread. -/
theorem Guarded.next (h : Guarded nodes σ) (t : T) :
    Guarded nodes (σ.set t ((σ.locals t).next σ.shared).1 ((σ.locals t).next σ.shared).2) := by
  obtain ⟨g, hI, hA⟩ := h
  obtain ⟨ps, hpc, hactive⟩ := (hA t).active
  unfold Worker.next
  generalize hcase : (σ.locals t).pc = pc at hpc ⊢
  cases pc with
  | idle =>
    rw [← hcase] at hpc
    exact .read hI hA hactive hpc
  | pushLoad list =>
    obtain ⟨hlisted, hnull⟩ := hpc
    obtain ⟨qs, rfl, -⟩ := hlisted.linked.of_ne_null hnull
    exact .read hI hA hactive ⟨hlisted, List.mem_cons_self⟩
  | tailNext list headOld node first =>
    obtain ⟨hlisted, hnode⟩ := hpc
    dsimp only
    split
    next hnext => exact .read hI hA hactive ⟨hlisted, hnode, rfl, hnext⟩
    next hnext =>
      have hlast := hlisted.linked.getLast_of_next hnode (not_not.mp hnext)
      exact .read hI hA hactive (pcHolds_tailTurn hlisted hnode fun _ => hlast)
  | tailSkip list headOld node next first =>
    obtain ⟨hlisted, hnode, rfl, hnext⟩ := hpc
    have hmem := hlisted.skips.skipFrom_mem hlisted.linked hnode hnext
    have hne : skipFrom σ.shared.skip node (σ.shared.next node) ≠ node :=
      Skips.skipFrom_ne hlisted.linked hnode hnext
    exact .read hI hA hactive (pcHolds_tailTurn hlisted hmem fun heq => absurd heq.symm hne)
  | pushSkip list headOld tail =>
    obtain ⟨hlisted, hlast⟩ := hpc
    have hopened := hlisted.setSkip hlast
    refine .write hI hA list hactive ?_ rfl (fun n hn => sameLinks_setSkip hn) hopened
    cases ps with
    | nil => simp at hlast
    | cons p ps =>
      obtain ⟨rfl, -, -⟩ := hlisted.linked
      exact List.mem_cons_self
  | pushNext list headOld tail =>
    refine .write hI hA tail hactive (List.mem_of_getLast? hpc.last) rfl
      (fun n hn => sameLinks_setNext hn) ⟨Opened.setNext hpc, ?_⟩
    exact Function.update_self ..
  | pushSwap list headOld tail =>
    dsimp only
    split
    next hhead => exact .pushSwap hI hA hactive hpc hhead
    next => exact .read hI hA hactive hpc.1
  | snatchLoad caller =>
    dsimp only
    split
    next =>
      unfold snatched
      rw [if_pos rfl]
      exact .read hI hA hactive hpc
    next => exact .read hI hA hactive hpc
  | snatchSwap caller =>
    obtain rfl : ps = [] := hpc
    exact .snatchSwap hI hA (fun n hn => List.not_mem_nil ((hactive n).mp hn)) caller
  | biteNext part1 tail i amount =>
    obtain ⟨hlisted, htail⟩ := hpc
    dsimp only
    split
    next => exact .read hI hA hactive ⟨hlisted, htail⟩
    next hnext =>
      have hmem := (hlisted.linked.next_mem htail hnext).1
      exact .read hI hA hactive (pcHolds_biteTurn hlisted hmem)
  | biteRest part1 tail => exact .read hI hA hactive ⟨hpc.1, hpc.2, rfl⟩
  | biteCut part1 part2 tail =>
    obtain ⟨hlisted, htail, rfl⟩ := hpc
    obtain ⟨todo, rest, hbitten, rfl⟩ := hlisted.setNext htail
    refine .biteSkips hI hA rfl (fun n hn => sameLinks_setNext ?_) hactive hbitten hbitten.linked
    rintro rfl
    exact hn ((hactive n).mpr htail)
  | biteSkip part1 part2 tail curr =>
    obtain ⟨done, todo, rest, hbitten, rfl⟩ := hpc
    refine .write hI hA curr hactive (by simp) rfl (fun n hn => sameLinks_setSkip hn)
      ⟨done, todo, rest, hbitten.setSkip, by simp⟩
  | biteCurr part1 part2 tail curr =>
    obtain ⟨done, todo, rest, hbitten, rfl⟩ := hpc
    have hlinked := hbitten.linked
    rw [List.append_assoc] at hlinked
    obtain ⟨p, rfl, -, htodo⟩ := hlinked.suffix
    exact .biteSkips hI hA rfl (fun _ _ => ⟨rfl, rfl⟩) hactive hbitten htodo
  | acquireNext node => exact .acquireNext hI hA hactive hpc
  | resetNext thread =>
    obtain ⟨rfl, hnull⟩ := hpc
    refine .write hI hA thread hactive List.mem_cons_self rfl (fun n hn => sameLinks_setNext hn)
      ⟨rfl, hnull, ?_⟩
    exact Function.update_self ..
  | resetSkip thread =>
    obtain ⟨rfl, hnull, hnext⟩ := hpc
    have hlisted : Listed (σ.shared.resetSkip thread) thread [thread] := by
      refine .of ⟨rfl, hnull, hnext⟩ ⟨?_, Skips.nil⟩
      rw [show (σ.shared.resetSkip thread).skip thread = thread from Function.update_self ..]
      exact List.mem_cons_self
    have hstay : Guarded nodes (σ.set t (σ.shared.resetSkip thread)
        ⟨(startPush thread (σ.locals t).held (σ.locals t).entries).pc, _, _⟩) :=
      .write hI hA thread hactive List.mem_cons_self rfl (fun n hn => sameLinks_setSkip hn)
        (pcHolds_startPush hlisted)
    dsimp only
    unfold startPush at hstay ⊢
    rw [if_neg hnull] at hstay ⊢
    exact hstay

theorem Guarded.step {σ' : Machine T} (h : Guarded nodes σ) (hstep : Step σ σ') :
    Guarded nodes σ' := by
  cases hstep with
  | push t list hidle hheld =>
    obtain ⟨g, hI, hA⟩ := h
    exact .push hI hA hidle hheld
  | snatch t caller hidle =>
    obtain ⟨g, hI, hA⟩ := h
    obtain ⟨ps, hpc, hactive⟩ := (hA t).active
    rw [hidle] at hpc
    exact .read hI hA hactive hpc
  | putThread t thread hidle hheld =>
    obtain ⟨g, hI, hA⟩ := h
    exact .putThread hI hA hidle hheld
  | next t => exact h.next t

/-! ### In the program's own data -/

omit [DecidableEq T]

theorem Work.Nodes.unique {work : Work} (h : work.Nodes s ps) (h' : work.Nodes s qs) : ps = qs := by
  cases work with
  | nothing => exact Eq.trans h (Eq.symm h')
  | list p => exact Linked.unique h h'
  | upTo p tail => exact Linked.unique h h'
  | parts part1 part2 =>
    obtain ⟨ps1, ps2, h1, h2, rfl⟩ := h
    obtain ⟨qs1, qs2, h1', h2', rfl⟩ := h'
    rw [h1.unique h1', h2.unique h2']
  | node p => exact Eq.trans h (Eq.symm h')

/-- The nodes that a thread works on can be read off the links. -/
theorem PcHolds.work_nodes (h : PcHolds s ps pc) : pc.work.Nodes s ps ∧ ps.Nodup := by
  -- the parts of a list that is bitten, whatever is done of the second loop
  have hparts : ∀ {part1 part2 tail done todo rest},
      Bitten s part1 part2 tail done todo rest → ps = done ++ todo ++ rest →
        (Work.parts part1 part2).Nodes s ps ∧ ps.Nodup := by
    rintro part1 part2 tail done todo rest hbitten rfl
    exact ⟨⟨done ++ todo, rest, hbitten.linked, hbitten.listed.linked, rfl⟩, hbitten.nodup⟩
  cases pc with
  | idle =>
    obtain rfl : ps = [] := h
    exact ⟨rfl, List.nodup_nil⟩
  | pushLoad list => exact ⟨h.1.linked, h.1.nodup⟩
  | tailNext list headOld node first => exact ⟨h.1.linked, h.1.nodup⟩
  | tailSkip list headOld node next first => exact ⟨h.1.linked, h.1.nodup⟩
  | pushSkip list headOld tail => exact ⟨h.1.linked, h.1.nodup⟩
  | pushNext list headOld tail =>
    have hlinked := Opened.linked h
    exact ⟨hlinked, hlinked.nodup⟩
  | pushSwap list headOld tail => exact ⟨h.1.linked, h.1.linked.nodup⟩
  | snatchLoad caller =>
    obtain rfl : ps = [] := h
    exact ⟨rfl, List.nodup_nil⟩
  | snatchSwap caller =>
    obtain rfl : ps = [] := h
    exact ⟨rfl, List.nodup_nil⟩
  | biteNext part1 tail i amount => exact ⟨h.1.linked, h.1.nodup⟩
  | biteRest part1 tail => exact ⟨h.1.linked, h.1.nodup⟩
  | biteCut part1 part2 tail => exact ⟨h.1.linked, h.1.nodup⟩
  | biteSkip part1 part2 tail curr =>
    obtain ⟨done, todo, rest, hbitten, hps⟩ := h
    exact hparts hbitten hps
  | biteCurr part1 part2 tail curr =>
    obtain ⟨done, todo, rest, hbitten, hps⟩ := h
    exact hparts hbitten hps
  | acquireNext snatched => exact ⟨h.1.linked, h.1.nodup⟩
  | resetNext thread =>
    obtain ⟨rfl, -⟩ := h
    exact ⟨rfl, List.nodup_singleton _⟩
  | resetSkip thread =>
    obtain ⟨rfl, -⟩ := h
    exact ⟨rfl, List.nodup_singleton _⟩

/-- The ghost state is the place of each node. -/
theorem at_iff (hI : SharedHolds nodes g σ.shared)
    (hA : ∀ u, WorkerHolds g σ.shared u (σ.locals u)) : At σ n place ↔ g n = some place := by
  cases place with
  | shared =>
    obtain ⟨ps, hlisted, hat⟩ := hI.list
    rw [hat]
    constructor
    · rintro ⟨qs, hqs, hn⟩
      rwa [hlisted.linked.unique hqs]
    · exact fun hn => ⟨ps, hlisted.linked, hn⟩
  | held t list =>
    constructor
    · rintro ⟨hlist, qs, hqs, hn⟩
      obtain ⟨-, ps, hlisted, hat⟩ := (hA t).held.list list hlist
      rwa [hat, hlisted.linked.unique hqs]
    · intro hn
      have hlist := (hA t).held.mem n list hn
      obtain ⟨-, ps, hlisted, hat⟩ := (hA t).held.list list hlist
      exact ⟨hlist, ps, hlisted.linked, (hat n).mp hn⟩
  | active t =>
    obtain ⟨ps, hpc, hat⟩ := (hA t).active
    rw [hat]
    constructor
    · rintro ⟨qs, hqs, hn⟩
      rwa [(PcHolds.work_nodes hpc).1.unique hqs]
    · exact fun hn => ⟨ps, (PcHolds.work_nodes hpc).1, hn⟩
  | entry t => exact ((hA t).entries.entry n).symm

theorem Guarded.exclusive (h : Guarded nodes σ) :
    Exclusive σ ∧ ∀ n, (∃ place, At σ n place) ↔ n ∈ nodes := by
  obtain ⟨g, hI, hA⟩ := h
  constructor
  · refine ⟨fun n place place' hat hat' => ?_, ?_, fun t list hlist => ?_, fun t =>
      (hA t).held.nodup,
      fun t => ?_, fun t hnull => ?_, fun t => (hA t).entries.nodup⟩
    · rw [at_iff hI hA] at hat hat'
      exact Option.some_inj.mp (hat.symm.trans hat')
    · obtain ⟨ps, hlisted, -⟩ := hI.list
      exact ⟨ps, hlisted⟩
    · obtain ⟨hnull, ps, hlisted, -⟩ := (hA t).held.list list hlist
      exact ⟨hnull, ps, hlisted⟩
    · obtain ⟨ps, hpc, -⟩ := (hA t).active
      exact ⟨ps, PcHolds.work_nodes hpc⟩
    · rw [← (hA t).entries.entry, hI.null] at hnull
      cases hnull
  · intro n
    have hnodes := not_iff_not.mpr (hI.nodes n)
    rw [not_not] at hnodes
    simp only [at_iff hI hA, ← hnodes, ← Option.ne_none_iff_exists', ne_eq]

/-- Threads that are between two calls, with lists and entries of their own. -/
theorem Exclusive.guarded (h : Exclusive σ) (hidle : ∀ t, (σ.locals t).pc = .idle) :
    Guarded { n | ∃ place, At σ n place } σ := by
  classical
  let g : Custody T := fun n => if hat : ∃ place, At σ n place then some hat.choose else none
  have hplace : ∀ {n place}, g n = some place ↔ At σ n place := by
    intro n place
    by_cases hat : ∃ place, At σ n place
    · rw [show g n = some hat.choose from dif_pos hat, Option.some_inj]
      constructor
      · rintro rfl
        exact hat.choose_spec
      · exact h.unique n _ _ hat.choose_spec
    · rw [show g n = none from dif_neg hat]
      simp only [reduceCtorEq, false_iff]
      exact fun hn => hat ⟨place, hn⟩
  have hnull : ∀ place, ¬At σ nullLink place := by
    intro place hat
    cases place with
    | shared =>
      obtain ⟨ps, hps, hmem⟩ := hat
      exact hps.ne_null hmem rfl
    | held t list =>
      obtain ⟨-, ps, hps, hmem⟩ := hat
      exact hps.ne_null hmem rfl
    | active t =>
      obtain ⟨ps, hps, hmem⟩ := hat
      rw [hidle] at hps
      obtain rfl : ps = [] := hps
      cases hmem
    | entry t => exact h.entry t hat
  refine ⟨g, ⟨?_, fun n => ?_, ?_⟩, fun t => ⟨⟨fun list hlist => ?_, fun n list hn => ?_,
    h.held_nodup t⟩, ⟨fun n => hplace, h.entries_nodup t⟩, [], ?_, fun n => ?_⟩⟩
  · exact dif_neg fun hat => hnull _ hat.choose_spec
  · rw [Set.mem_ofPred_eq, ← not_iff_not, not_not, ← ne_eq, Option.ne_none_iff_exists']
    exact exists_congr fun place => hplace
  · obtain ⟨ps, hlisted⟩ := h.shared
    refine ⟨ps, hlisted, fun n => hplace.trans ⟨?_, fun hn => ⟨ps, hlisted.linked, hn⟩⟩⟩
    rintro ⟨qs, hqs, hn⟩
    rwa [hlisted.linked.unique hqs]
  · obtain ⟨hne, ps, hlisted⟩ := h.held t list hlist
    refine ⟨hne, ps, hlisted, fun n => hplace.trans ⟨?_, fun hn => ⟨hlist, ps, hlisted.linked, hn⟩⟩⟩
    rintro ⟨-, qs, hqs, hn⟩
    rwa [hlisted.linked.unique hqs]
  · exact (hplace.mp hn).1
  · rw [hidle]
    rfl
  · rw [hplace]
    change (∃ ps, (σ.locals t).pc.work.Nodes σ.shared ps ∧ n ∈ ps) ↔ n ∈ []
    rw [hidle]
    simp [Pc.work, Work.Nodes]

theorem Reachable.guarded [DecidableEq T] {σ₀ : Machine T} (h : Reachable σ₀ σ)
    (hstart : Guarded nodes σ₀) : Guarded nodes σ := by
  induction h with
  | start => exact hstart
  | step _ hstep ih => exact ih.step hstep

/-- **No interleaving of `push`, `snatch`, `snatch_part` and of the graveyard's `acquire`,
`put_thread` and `release_thread` loses or duplicates a node**: from threads that are between two
calls, with lists and entries of their own, every node stays in exactly one place, the shared list
and the lists that threads hold end and have skip links to the node itself or forward, and no entry
is with two threads. -/
theorem reachable_well_placed [DecidableEq T] {σ₀ : Machine T}
    (hidle : ∀ t, (σ₀.locals t).pc = .idle) (hstart : Exclusive σ₀) (h : Reachable σ₀ σ) :
    Exclusive σ ∧ (∀ n, (∃ place, At σ₀ n place) ↔ ∃! place, At σ n place) ∧
      ∀ t u entry, entry ∈ (σ.locals t).entries → entry ∈ (σ.locals u).entries → t = u := by
  obtain ⟨hexclusive, hnodes⟩ := (h.guarded (hstart.guarded hidle)).exclusive
  refine ⟨hexclusive, fun n => ?_, fun t u entry ht hu => ?_⟩
  · constructor
    · intro hat
      obtain ⟨place, hplace⟩ := (hnodes n).mpr hat
      exact ⟨place, hplace, fun other hother => hexclusive.unique n other place hother hplace⟩
    · rintro ⟨place, hplace, -⟩
      exact (hnodes n).mp ⟨place, hplace⟩
  · have heq := hexclusive.unique entry (.entry t) (.entry u) ht hu
    simpa using heq

/-- A shared list of two nodes, a thread that holds a list and one that holds an entry. -/
def twoThreads : Machine Bool where
  shared := ⟨1, fun n => if n = 1 then 2 else 0, fun n => if n = 1 then 2 else n⟩
  locals t := if t then ⟨.idle, [], [4]⟩ else ⟨.idle, [3], []⟩

theorem twoThreads_exclusive : Exclusive twoThreads := by
  let g : Custody Bool := fun n =>
    if n = 1 ∨ n = 2 then some .shared
    else if n = 3 then some (.held false 3)
    else if n = 4 then some (.entry true)
    else none
  have hguarded : Guarded { n | g n ≠ none } twoThreads := by
    refine ⟨g, ⟨rfl, fun n => by simp, [1, 2], ?_, fun n => ?_⟩, fun t => ?_⟩
    · exact .of ⟨rfl, by decide, rfl, by decide, rfl⟩ ⟨by decide, by decide, trivial⟩
    · grind
    · cases t with
      | false =>
        refine ⟨⟨fun list hlist => ?_, fun n list hn => ?_, by decide⟩, ⟨fun n => ?_, by decide⟩,
          [],
          rfl, fun n => ?_⟩
        · obtain rfl : list = 3 := by simpa [twoThreads] using hlist
          refine ⟨by decide, [3], .of ⟨rfl, by decide, rfl⟩ ⟨by decide, trivial⟩, fun n => ?_⟩
          grind
        · change list ∈ [3]
          grind
        · change _ ↔ n ∈ []
          grind
        · grind
      | true =>
        refine ⟨⟨fun list hlist => ?_, fun n list hn => ?_, by decide⟩, ⟨fun n => ?_, by decide⟩,
          [],
          rfl, fun n => ?_⟩
        · cases hlist
        · grind
        · change _ ↔ n ∈ [4]
          grind
        · grind
  exact hguarded.exclusive.1

/-- The second thread takes the first node of the shared list between two accesses of the first one,
which pushes its list in front of it. -/
theorem reachable_well_placed_twoThreads :
    ∃ σ, Reachable twoThreads σ ∧ (σ.locals false).pc = .tailNext 3 1 3 true ∧
      (σ.locals true).entries = [1, 4] ∧ Exclusive σ ∧ ∃! place, At σ 3 place := by
  have hstart : Reachable twoThreads twoThreads := .start
  have hloaded := (hstart.step (.push false 3 rfl (.inr (by decide)))).step (.next false)
  have hrun := (((hloaded.step (.snatch true .acquire rfl)).step (.next true)).step
    (.next true)).step
    (.next true)
  have hidle : ∀ t, (twoThreads.locals t).pc = .idle := by
    intro t
    cases t with
    | false => rfl
    | true => rfl
  obtain ⟨hexclusive, hnodes, -⟩ := reachable_well_placed hidle twoThreads_exclusive hrun
  refine ⟨_, hrun, rfl, rfl, hexclusive,
    (hnodes 3).mp ⟨.held false 3, by decide, [3], ?_, by decide⟩⟩
  exact ⟨rfl, by decide, rfl⟩

end Cuw3.AtomicPushSnatchList
