/-
  The versioned free list is a linearizable stack.

  `Lifo` is what a stack does at each event.  The nodes that the links spell from the head are such
  a stack (`run_lifo`): each successful compare-exchange is the point at which its call takes
  effect, and no other step changes the nodes.

  A `pop` may read a link that another thread is writing; what it read is right as long as the head
  was not updated since (`PcHolds`), and the version says whether it was (`Loaded.current_of_eq`).
-/
import Cuw3.Atomic.ListView
import Cuw3.Base.Equiv.Funcs
import Cuw3.Lib.Linked

namespace Cuw3.AtomicListView

open Lib

/-! ### Stacks -/

/-- What a stack does at an event. -/
inductive Lifo : Event → List Nat → List Nat → Prop where
  | silent (nodes : List Nat) : Lifo .silent nodes nodes
  | pushed (node : Nat) (nodes : List Nat) : Lifo (.pushed node) nodes (node :: nodes)
  | pushFailed (nodes : List Nat) : Lifo .pushFailed nodes nodes
  | popped (node : Nat) (nodes : List Nat) : Lifo (.popped node) (node :: nodes) nodes
  | popNull : Lifo .popNull [] []
  | popFailed (nodes : List Nat) : Lifo .popFailed nodes nodes

/-- What a stack does at one event after another. -/
inductive LifoRun (nodes : List Nat) : List Event → List Nat → Prop where
  | start : LifoRun nodes [] nodes
  | step {events nodes' nodes''} {event : Event} (h : LifoRun nodes events nodes')
      (hstep : Lifo event nodes' nodes'') : LifoRun nodes (events ++ [event]) nodes''

variable {T : Type}

/-- The links spell the nodes from the head. -/
def SharedList.Spells (nullLink : Nat) (list : SharedList T) (nodes : List Nat) : Prop :=
  Linked nullLink list.links list.head.next nodes

/-- The links spell one sequence of nodes only, in which no node comes twice. -/
theorem SharedList.Spells.unique {nullLink : Nat} {list : SharedList T} {nodes nodes' : List Nat}
    (h : list.Spells nullLink nodes) (h' : list.Spells nullLink nodes') : nodes = nodes' :=
  Linked.unique h h'

/-! ### The invariant -/

/-- The shared state: the nodes are nobody's, and the version counts the updates. -/
structure ListHolds (nullLink version : Nat) (nodes : List Nat) (list : SharedList T) : Prop where
  spells : list.Spells nullLink nodes
  free : ∀ node ∈ nodes, list.holder node = none
  version_eq : list.head.version = u32 (version + list.updates)

/-- The head was loaded from the list, and its next link is current if there was no update since. -/
structure Loaded (version : Nat) (list : SharedList T) (loaded : LoadedHead) : Prop where
  seen_le : loaded.seen ≤ list.updates
  version_eq : loaded.version = u32 (version + loaded.seen)
  current : loaded.seen = list.updates → loaded.next = list.head.next

/-- The thread holds the node, which is a node. -/
def Holds (nullLink : Nat) (list : SharedList T) (t : T) (node : Nat) : Prop :=
  list.holder node = some t ∧ node ≠ nullLink

/-- What a thread knows before its next access. -/
def PcHolds (nullLink version : Nat) (list : SharedList T) (t : T) : Pc → Prop
  | .idle => True
  | .pushLoad node _ => Holds nullLink list t node
  | .pushNext node loaded _ => Holds nullLink list t node ∧ Loaded version list loaded
  | .pushSwap node loaded _ => Holds nullLink list t node ∧ Loaded version list loaded ∧
      list.links node = loaded.next
  | .popLoad _ => True
  | .popNext loaded _ => Loaded version list loaded ∧ loaded.next ≠ nullLink
  | .popSwap loaded _ next => Loaded version list loaded ∧ loaded.next ≠ nullLink ∧
      (loaded.seen = list.updates → list.links loaded.next = next)

/-- The invariant, with the nodes of the list. -/
structure Inv (nullLink version : Nat) (nodes : List Nat) (σ : Machine T) : Prop where
  list : ListHolds nullLink version nodes σ.shared
  threads : ∀ t, PcHolds nullLink version σ.shared t (σ.locals t)

variable {nullLink version node : Nat} {nodes : List Nat} {list list' : SharedList T} {t u : T}
  {loaded : LoadedHead} {pc : Pc}

/-- A head that compares equal was not updated since it was loaded. -/
theorem Loaded.current_of_eq (h : Loaded version list loaded)
    (hlist : ListHolds nullLink version nodes list) (hpaced : list.updates < loaded.seen + 2 ^ 32)
    (heq : list.head = loaded.toListHead) : loaded.seen = list.updates := by
  have hle := h.seen_le
  have hversion : u32 (version + list.updates) = u32 (version + loaded.seen) := by
    rw [← hlist.version_eq, ← h.version_eq, heq]
  have hsame := u32_eq_of_lt hversion (by omega) (by omega)
  omega

/-- The first node of the list, from a head that is current. -/
theorem ListHolds.first_mem (h : ListHolds nullLink version nodes list)
    (hnext : loaded.next = list.head.next) (hne : loaded.next ≠ nullLink) :
    loaded.next ∈ nodes := by
  have hspells := h.spells
  unfold SharedList.Spells at hspells
  rw [← hnext] at hspells
  obtain ⟨rest, rfl, -⟩ := hspells.of_ne_null hne
  exact List.mem_cons_self

/-- What is held is not in the list. -/
theorem ListHolds.not_mem (h : ListHolds nullLink version nodes list)
    (hheld : list.holder node = some t) : node ∉ nodes := by
  intro hmem
  rw [h.free node hmem] at hheld
  cases hheld

theorem loaded_loadHead (h : ListHolds nullLink version nodes list) :
    Loaded version list list.loadHead :=
  ⟨Nat.le_refl _, h.version_eq, fun _ => rfl⟩

/-! ### What other threads notice -/

/-- After an update every loaded head is out of date. -/
theorem Loaded.updateHead (h : Loaded version list loaded) (head : ListHead) (node : Nat)
    (holder : Option T) : Loaded version (list.updateHead head node holder) loaded := by
  have hlt : loaded.seen < list.updates + 1 := Nat.lt_succ_of_le h.seen_le
  refine ⟨Nat.le_succ_of_le h.seen_le, h.version_eq, fun heq => ?_⟩
  exact absurd heq hlt.ne

/-- An update takes no node from another thread. -/
theorem PcHolds.updateHead (h : PcHolds nullLink version list u pc) {head : ListHead}
    {holder : Option T} (hother : list.holder node ≠ some u) :
    PcHolds nullLink version (list.updateHead head node holder) u pc := by
  have hholds : ∀ n, Holds nullLink list u n →
      Holds nullLink (list.updateHead head node holder) u n := by
    rintro n ⟨hn, hnull⟩
    have hne : n ≠ node := by
      rintro rfl
      exact hother hn
    refine ⟨?_, hnull⟩
    show Function.update list.holder node holder n = some u
    rw [Function.update_of_ne hne]
    exact hn
  cases pc with
  | idle => trivial
  | pushLoad n _ => exact hholds n h
  | pushNext n loaded _ => exact ⟨hholds n h.1, h.2.updateHead head node holder⟩
  | pushSwap n loaded _ => exact ⟨hholds n h.1, h.2.1.updateHead head node holder, h.2.2⟩
  | popLoad _ => trivial
  | popNext loaded _ => exact ⟨h.1.updateHead head node holder, h.2⟩
  | popSwap loaded _ next =>
    obtain ⟨hloaded, hnull, -⟩ := h
    refine ⟨hloaded.updateHead head node holder, hnull, fun heq => ?_⟩
    have hle := hloaded.seen_le
    have hsucc : loaded.seen = list.updates + 1 := heq
    omega

/-- A write to a node that another thread holds is no link that this thread relies on. -/
theorem PcHolds.setNext (h : PcHolds nullLink version list u pc)
    (hlist : ListHolds nullLink version nodes list) (hheld : list.holder node = some t)
    (hne : u ≠ t) (link : Nat) : PcHolds nullLink version (list.setNext node link) u pc := by
  cases pc with
  | idle => trivial
  | pushLoad _ _ => exact h
  | pushNext _ _ _ => exact ⟨h.1, h.2.1, h.2.2, h.2.3⟩
  | pushSwap n loaded _ =>
    obtain ⟨hholds, hloaded, hlink⟩ := h
    refine ⟨hholds, ⟨hloaded.1, hloaded.2, hloaded.3⟩, ?_⟩
    have hn : n ≠ node := by
      rintro rfl
      exact hne (Option.some.inj (hholds.1.symm.trans hheld))
    show Function.update list.links node link n = loaded.next
    rw [Function.update_of_ne hn]
    exact hlink
  | popLoad _ => trivial
  | popNext _ _ => exact ⟨⟨h.1.1, h.1.2, h.1.3⟩, h.2⟩
  | popSwap loaded _ next =>
    obtain ⟨hloaded, hnull, hlink⟩ := h
    refine ⟨⟨hloaded.1, hloaded.2, hloaded.3⟩, hnull, fun heq => ?_⟩
    -- the node that was read is still in the list, so nobody holds it
    have hmem := hlist.first_mem (hloaded.current heq) hnull
    have hn : loaded.next ≠ node := by
      intro heq'
      exact hlist.not_mem hheld (heq' ▸ hmem)
    show Function.update list.links node link loaded.next = next
    rw [Function.update_of_ne hn]
    exact hlink heq

/-- A node passed on by an idle thread is none that a thread is pushing. -/
theorem PcHolds.pass (h : PcHolds nullLink version list u pc) (hheld : list.holder node = some t)
    (hne : u ≠ t) (holder : Option T) :
    PcHolds nullLink version { list with holder := Function.update list.holder node holder } u
      pc := by
  have hholds : ∀ n, Holds nullLink list u n → Function.update list.holder node holder n = some u ∧
      n ≠ nullLink := by
    rintro n ⟨hn, hnull⟩
    have hn' : n ≠ node := by
      rintro rfl
      exact hne (Option.some.inj (hn.symm.trans hheld))
    rw [Function.update_of_ne hn']
    exact ⟨hn, hnull⟩
  cases pc with
  | idle => trivial
  | pushLoad n _ => exact hholds n h
  | pushNext n _ _ => exact ⟨hholds n h.1, h.2.1, h.2.2, h.2.3⟩
  | pushSwap n _ _ => exact ⟨hholds n h.1, ⟨h.2.1.1, h.2.1.2, h.2.1.3⟩, h.2.2⟩
  | popLoad _ => trivial
  | popNext _ _ => exact ⟨⟨h.1.1, h.1.2, h.1.3⟩, h.2⟩
  | popSwap _ _ _ => exact ⟨⟨h.1.1, h.1.2, h.1.3⟩, h.2⟩

/-! ### What one access does -/

/-- A turn of the loop of `push` starts from a head just loaded. -/
theorem pushTurn_holds (h : ListHolds nullLink version nodes list)
    (hnode : Holds nullLink list t node) {curr : Int} {event : Event}
    (hturn : pushTurn node list.loadHead curr = (pc, event)) :
    PcHolds nullLink version list t pc ∧ Lifo event nodes nodes := by
  unfold pushTurn at hturn
  split_ifs at hturn
  · cases hturn
    exact ⟨trivial, .pushFailed nodes⟩
  · cases hturn
    exact ⟨⟨hnode, loaded_loadHead h⟩, .silent nodes⟩

/-- A turn of the loop of `pop` ends the call when the list is empty at that moment. -/
theorem popTurn_holds (h : ListHolds nullLink version nodes list) {curr : Int} {event : Event}
    (hturn : popTurn nullLink list.loadHead curr = (pc, event)) :
    PcHolds nullLink version list t pc ∧ Lifo event nodes nodes := by
  unfold popTurn at hturn
  split_ifs at hturn with hcurr hnull
  · cases hturn
    exact ⟨trivial, .popFailed nodes⟩
  · cases hturn
    have hspells := h.spells
    unfold SharedList.Spells at hspells
    have hnull : list.head.next = nullLink := hnull
    rw [hnull, Linked.null_iff] at hspells
    rw [hspells]
    exact ⟨trivial, .popNull⟩
  · cases hturn
    exact ⟨⟨loaded_loadHead h, hnull⟩, .silent nodes⟩

theorem version_succ (h : ListHolds nullLink version nodes list)
    (heq : list.head = loaded.toListHead) :
    u32 (loaded.version + 1) = u32 (version + (list.updates + 1)) := by
  have hversion : loaded.version = list.head.version := by rw [heq]
  rw [hversion, h.version_eq, u32_succ_u32, Nat.add_assoc]

/-- The compare-exchange of `push` puts the node in front. -/
theorem ListHolds.push (h : ListHolds nullLink version nodes list)
    (hnode : Holds nullLink list t node) (hlink : list.links node = loaded.next)
    (heq : list.head = loaded.toListHead) : ListHolds nullLink version (node :: nodes)
      (list.updateHead ⟨u32 (loaded.version + 1), node⟩ node none) := by
  refine ⟨⟨rfl, hnode.2, ?_⟩, ?_, version_succ h heq⟩
  · show Linked nullLink list.links (list.links node) nodes
    have hnext : loaded.next = list.head.next := by rw [heq]
    rw [hlink, hnext]
    exact h.spells
  · intro n hn
    show Function.update list.holder node none n = none
    by_cases hne : n = node
    · rw [hne, Function.update_self]
    · rw [Function.update_of_ne hne]
      exact h.free n ((List.mem_cons.mp hn).resolve_left hne)

/-- The compare-exchange of `pop` takes the first node. -/
theorem ListHolds.pop (h : ListHolds nullLink version nodes list) (hnull : loaded.next ≠ nullLink)
    {next : Nat} (hlink : list.links loaded.next = next) (heq : list.head = loaded.toListHead)
    (holder : Option T) : ∃ rest, nodes = loaded.next :: rest ∧ ListHolds nullLink version rest
      (list.updateHead ⟨u32 (loaded.version + 1), next⟩ loaded.next holder) := by
  have hspells := h.spells
  have hnodup := h.spells.nodup
  have hnext : list.head.next = loaded.next := by rw [heq]
  unfold SharedList.Spells at hspells
  rw [hnext] at hspells
  obtain ⟨rest, rfl, hrest⟩ := hspells.of_ne_null hnull
  refine ⟨rest, rfl, ⟨?_, ?_, version_succ h heq⟩⟩
  · rw [hlink] at hrest
    exact hrest
  · intro n hn
    have hne : n ≠ loaded.next := by
      rintro rfl
      exact (List.nodup_cons.mp hnodup).1 hn
    show Function.update list.holder loaded.next holder n = none
    rw [Function.update_of_ne hne]
    exact h.free n (List.mem_cons_of_mem _ hn)

theorem ListHolds.setNext (h : ListHolds nullLink version nodes list)
    (hheld : list.holder node = some t) (link : Nat) :
    ListHolds nullLink version nodes (list.setNext node link) :=
  ⟨Linked.update h.spells (h.not_mem hheld) link, h.free, h.version_eq⟩

/-! ### Steps -/

variable [DecidableEq T] {σ σ' : Machine T} {event : Event}

/-- A step that leaves the shared state alone. -/
theorem Inv.stay (h : Inv nullLink version nodes σ)
    (hpc : PcHolds nullLink version σ.shared t pc) :
    Inv nullLink version nodes (σ.set t σ.shared pc) :=
  ⟨h.list, Threads.forall_set h.threads hpc fun _ _ hu => hu⟩

/-- The update of the head by `t`, which takes or gives `node`. -/
theorem Inv.updateHead (h : Inv nullLink version nodes σ) {head : ListHead} {holder : Option T}
    {nodes' : List Nat} (hnode : ∀ u, u ≠ t → σ.shared.holder node ≠ some u)
    (hlist : ListHolds nullLink version nodes' (σ.shared.updateHead head node holder)) :
    Inv nullLink version nodes' (σ.set t (σ.shared.updateHead head node holder) .idle) :=
  ⟨hlist, Threads.forall_set h.threads trivial fun u hu hholds => hholds.updateHead (hnode u hu)⟩

/-- A write of `t` to the link of a node it holds. -/
theorem Inv.setNext (h : Inv nullLink version nodes σ) (hheld : σ.shared.holder node = some t)
    {link : Nat} (hpc : PcHolds nullLink version (σ.shared.setNext node link) t pc) :
    Inv nullLink version nodes (σ.set t (σ.shared.setNext node link) pc) :=
  ⟨h.list.setNext hheld link, Threads.forall_set h.threads hpc fun _ hu hholds =>
    hholds.setNext h.list hheld hu link⟩

theorem Inv.next (h : Inv nullLink version nodes σ) (hpaced : (σ.locals t).Paced σ.shared)
    (hnext : (σ.locals t).next nullLink t σ.shared = (list', pc, event)) :
    ∃ nodes', Lifo event nodes nodes' ∧ Inv nullLink version nodes' (σ.set t list' pc) := by
  have ht := h.threads t
  cases hpc : σ.locals t with
  | idle =>
    rw [hpc] at hnext
    cases hnext
    exact ⟨nodes, .silent nodes, h.stay trivial⟩
  | pushLoad node curr =>
    rw [hpc] at hnext ht
    obtain ⟨rfl, hturn⟩ := Prod.mk.inj hnext
    obtain ⟨hturn, hlifo⟩ := pushTurn_holds h.list ht hturn
    exact ⟨nodes, hlifo, h.stay hturn⟩
  | pushNext node loaded curr =>
    rw [hpc] at hnext ht
    cases hnext
    obtain ⟨hnode, hloaded⟩ := ht
    refine ⟨nodes, .silent nodes, h.setNext hnode.1 ⟨hnode, ?_, Function.update_self ..⟩⟩
    exact ⟨hloaded.1, hloaded.2, hloaded.3⟩
  | pushSwap node loaded curr =>
    rw [hpc] at hnext ht hpaced
    obtain ⟨hnode, hloaded, hlink⟩ := ht
    unfold Pc.next at hnext
    dsimp only at hnext
    split_ifs at hnext with heq
    · cases hnext
      have hlist := h.list.push hnode hlink heq
      refine ⟨node :: nodes, .pushed node nodes, h.updateHead (fun u hu hheld => ?_) hlist⟩
      exact hu (Option.some.inj (hheld.symm.trans hnode.1))
    · obtain ⟨rfl, hturn⟩ := Prod.mk.inj hnext
      obtain ⟨hturn, hlifo⟩ := pushTurn_holds h.list hnode hturn
      exact ⟨nodes, hlifo, h.stay hturn⟩
  | popLoad curr =>
    rw [hpc] at hnext
    obtain ⟨rfl, hturn⟩ := Prod.mk.inj hnext
    obtain ⟨hturn, hlifo⟩ := popTurn_holds h.list hturn
    exact ⟨nodes, hlifo, h.stay hturn⟩
  | popNext loaded curr =>
    rw [hpc] at hnext ht
    cases hnext
    exact ⟨nodes, .silent nodes, h.stay ⟨ht.1, ht.2, fun _ => rfl⟩⟩
  | popSwap loaded curr next =>
    rw [hpc] at hnext ht hpaced
    obtain ⟨hloaded, hnull, hlink⟩ := ht
    unfold Pc.next at hnext
    dsimp only at hnext
    split_ifs at hnext with heq
    · cases hnext
      -- the head has the version that was loaded, so the link that was read is current
      have hcurrent := hloaded.current_of_eq h.list hpaced heq
      obtain ⟨rest, rfl, hlist⟩ := h.list.pop hnull (hlink hcurrent) heq (some t)
      refine ⟨rest, .popped _ rest, h.updateHead (fun u _ hheld => ?_) hlist⟩
      exact h.list.not_mem hheld List.mem_cons_self
    · obtain ⟨rfl, hturn⟩ := Prod.mk.inj hnext
      obtain ⟨hturn, hlifo⟩ := popTurn_holds h.list hturn
      exact ⟨nodes, hlifo, h.stay hturn⟩

/-- **A step does to the nodes of the list what it shows.** -/
theorem Inv.step (h : Inv nullLink version nodes σ) (hstep : Step nullLink σ t event σ') :
    ∃ nodes', Lifo event nodes nodes' ∧ Inv nullLink version nodes' σ' := by
  cases hstep with
  | push node attempts hidle hheld hnode =>
    exact ⟨nodes, .silent nodes, h.stay ⟨hheld, hnode⟩⟩
  | pop attempts hidle => exact ⟨nodes, .silent nodes, h.stay trivial⟩
  | next _ list pc hpaced hnext => exact h.next hpaced hnext
  | write node link hidle hheld => exact ⟨nodes, .silent nodes, h.setNext hheld trivial⟩
  | pass u node hidle hheld =>
    refine ⟨nodes, .silent nodes, ⟨h.list.spells, ?_, h.list.version_eq⟩, ?_⟩
    · intro n hn
      have hne : n ≠ node := by
        rintro rfl
        exact h.list.not_mem hheld hn
      show Function.update σ.shared.holder node (some u) n = none
      rw [Function.update_of_ne hne]
      exact h.list.free n hn
    · exact Threads.forall_set h.threads trivial fun v hv hholds => hholds.pass hheld hv (some u)

/-! ### Runs -/

/-- All threads are idle, the list has the nodes, and nobody holds one of them. -/
structure Starts (nullLink : Nat) (nodes : List Nat) (σ : Machine T) : Prop where
  idle : ∀ t, σ.locals t = .idle
  spells : σ.shared.Spells nullLink nodes
  free : ∀ node ∈ nodes, σ.shared.holder node = none
  version_lt : σ.shared.head.version < 2 ^ 32
  updates_eq : σ.shared.updates = 0

omit [DecidableEq T] in
theorem Starts.inv (h : Starts nullLink nodes σ) :
    Inv nullLink σ.shared.head.version nodes σ := by
  refine ⟨⟨h.spells, h.free, ?_⟩, fun t => ?_⟩
  · rw [h.updates_eq, Nat.add_zero, u32_of_lt h.version_lt]
  · rw [h.idle t]
    trivial

theorem Run.inv {events : List (T × Event)} (h : Run nullLink σ events σ')
    (hinv : Inv nullLink version nodes σ) : ∃ nodes', LifoRun nodes (events.map Prod.snd) nodes' ∧
      Inv nullLink version nodes' σ' := by
  induction h with
  | start => exact ⟨nodes, .start, hinv⟩
  | step _ hstep ih =>
    obtain ⟨nodes', hruns, hinv'⟩ := ih
    obtain ⟨nodes'', hlifo, hinv''⟩ := hinv'.step hstep
    rw [List.map_append]
    exact ⟨nodes'', hruns.step hlifo, hinv''⟩

/-- **The nodes that the links spell from the head are a stack throughout the run**: they are what a
stack holds after the events so far, and the next step does to them what it shows. -/
theorem run_lifo {events : List (T × Event)} (hstart : Starts nullLink nodes σ)
    (h : Run nullLink σ events σ') :
    ∃ nodes', LifoRun nodes (events.map Prod.snd) nodes' ∧ σ'.shared.Spells nullLink nodes' ∧
      ∀ t event σ'', Step nullLink σ' t event σ'' →
        ∃ nodes'', Lifo event nodes' nodes'' ∧ σ''.shared.Spells nullLink nodes'' := by
  obtain ⟨nodes', hruns, hinv⟩ := h.inv hstart.inv
  refine ⟨nodes', hruns, hinv.list.spells, fun t event σ'' hstep => ?_⟩
  obtain ⟨nodes'', hlifo, hinv'⟩ := hinv.step hstep
  exact ⟨nodes'', hlifo, hinv'.list.spells⟩

/-- A list of the one node `1`, which nobody holds. -/
def oneNode : SharedList Bool := ⟨⟨7, 1⟩, fun _ => 0, 0, fun _ => none⟩

/-- All threads idle. -/
def atRest : Machine Bool := ⟨oneNode, fun _ => .idle⟩

/-- The thread `true` has popped the node. -/
def afterPop : Machine Bool :=
  (((atRest.set true oneNode (.popLoad 1)).set true oneNode (.popNext ⟨⟨7, 1⟩, 0⟩ 1)).set true
    oneNode (.popSwap ⟨⟨7, 1⟩, 0⟩ 1 0)).set true (oneNode.updateHead ⟨8, 0⟩ 1 (some true)) .idle

theorem run_afterPop : Run 0 atRest
    [(true, .silent), (true, .silent), (true, .silent), (true, .popped 1)] afterPop := by
  have hcall : Run 0 atRest [(true, .silent)] _ := Run.start.step (.pop true 1 rfl)
  have hload := hcall.step (.next true _ _ _ trivial rfl)
  have hnext := hload.step (.next true _ _ _ trivial rfl)
  exact hnext.step (.next true _ _ _ (show 0 < 0 + 2 ^ 32 by decide) rfl)

theorem run_lifo_afterPop : ∃ nodes',
    LifoRun [1] [.silent, .silent, .silent, .popped 1] nodes' ∧ afterPop.shared.Spells 0 nodes' ∧
      ∀ t event σ'', Step 0 afterPop t event σ'' →
        ∃ nodes'', Lifo event nodes' nodes'' ∧ σ''.shared.Spells 0 nodes'' := by
  have hspells : oneNode.Spells 0 [1] := ⟨rfl, by decide, rfl⟩
  have hstart : Starts 0 [1] atRest :=
    ⟨fun _ => rfl, hspells, fun _ _ => rfl, by decide, rfl⟩
  exact run_lifo hstart run_afterPop

end Cuw3.AtomicListView
