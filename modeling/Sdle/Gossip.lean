import Sdle.Lib.Knowledge
import Sdle.Membership
import Sdle.Requests

/-!
# What gossip spreads (`server.rs`)

A peer learns the addresses of other servers from the table of the server that it joined, from a
`Hello` and from the tables that other peers gossip; it connects to the servers of its table only.

* `only_announced` — **gossip makes nothing up**: who is in a table or in a gossiped table, is on a
  ring, or is sent to, was known at the beginning or has announced itself by a `Hello`, and at this
  address.
-/

set_option autoImplicit false

namespace Sdle

open Tasks Peer

variable {hash : String → U128}

/-! ## Facts -/

/-- What is known about servers. -/
inductive Fact where
  | server (uuid : Uuid)
  | address (uuid : Uuid) (addr : String)
  | registered (uuid : Uuid)

/-- The facts of a table. -/
def MembershipTable.facts (table : MembershipTable) : Set Fact
  | .server u => (table.find? u).isSome = true
  | .address u addr => table.find? u = some addr
  | .registered _ => False

/-- The facts of a message. -/
def Msg.facts : Msg → Set Fact
  | .hello u addr => {.server u, .address u addr}
  | .gossip table => table.facts
  | _ => ∅

/-- What an operation passes on: to the ring, to the table, or to another peer, which has to be known
as well. -/
def lore : Lore PeerSig Fact where
  passes
    | .addNode u => {.server u}
    | .membershipInsert u addr => {.server u, .address u addr}
    | .send u msg => insert (.server u) msg.facts
    | _ => ∅
  tells o a :=
    match o, a with
    | .membership, table => MembershipTable.facts table
    | _, _ => ∅

/-- The facts of the proxy, and those in flight from it. -/
def World.proxyFacts (w : World hash) : Set Fact :=
  {f | ∃ u, (u ∈ w.proxyRing.servers ∨ ∃ r ∈ w.requests, r.peer = u) ∧ f = .registered u}

/-- The facts of a cluster. -/
def World.facts (w : World hash) : Set Fact :=
  {f | ∃ u, f ∈ (w.node u).membership.facts} ∪ {f | ∃ p ∈ w.net, f ∈ p.msg.facts} ∪ w.proxyFacts

/-- The facts that come from outside. -/
def Arrival.facts : Arrival → Set Fact
  | .message _ _ msg => if external msg then msg.facts else ∅
  | .ready u => {.registered u}
  | _ => ∅

/-! ## What the operations do to the facts -/

section Effects

theorem mem_servers_addNode {ring : HashRing} {u v : Uuid} (h : v ∈ (ring.addNode hash u).servers) :
    v = u ∨ v ∈ ring.servers := by
  obtain ⟨k, hk⟩ := HashRing.mem_servers.1 h
  rw [HashRing.getElem?_addNode] at hk
  split at hk
  · exact Or.inl (Option.some.inj hk).symm
  · exact Or.inr (HashRing.mem_servers.2 ⟨k, hk⟩)

theorem mem_servers_removeNode {ring : HashRing} {u v : Uuid}
    (h : v ∈ (ring.removeNode hash u).servers) : v ∈ ring.servers := by
  obtain ⟨k, hk⟩ := HashRing.mem_servers.1 h
  rw [HashRing.getElem?_removeNode] at hk
  split at hk
  · cases hk
  · exact HashRing.mem_servers.2 ⟨k, hk⟩

theorem facts_insert (table : MembershipTable) (u : Uuid) (addr : String) :
    MembershipTable.facts (table.insert u addr) ⊆ table.facts ∪ {.server u, .address u addr} := by
  rintro (v | ⟨v, addr'⟩ | v) h
  · change (FinMap.find? (table.insert u addr) v).isSome = true at h
    rw [FinMap.find?_insert] at h
    split at h
    · rename_i hv
      rw [hv]
      exact Or.inr (Or.inl rfl)
    · exact Or.inl h
  · change FinMap.find? (table.insert u addr) v = some addr' at h
    rw [FinMap.find?_insert] at h
    split at h
    · rename_i hv
      rw [hv, ← Option.some.inj h]
      exact Or.inr (Or.inr rfl)
    · exact Or.inl h
  · exact h.elim

theorem facts_after (t : Tid) (o : Op) (a : Ans o) (n : Node hash) :
    (n.after t o a).membership.facts ⊆ n.membership.facts ∪ lore.passes o := by
  rw [membership_after]
  cases o with
  | membershipInsert u addr => exact facts_insert n.membership u addr
  | _ => exact Set.subset_union_left

theorem facts_effect (t : Tid) (o : Op) (a : Ans o) (w : World hash) :
    (effect t o a w).facts ⊆ w.facts ∪ lore.passes o := by
  rintro f ((⟨u, hf⟩ | ⟨p, hp, hf⟩) | ⟨u, hu, rfl⟩)
  · rw [node_effect] at hf
    split at hf
    · exact (facts_after t o a _ hf).imp_left fun hf => Or.inl (Or.inl ⟨u, hf⟩)
    · exact Or.inl (Or.inl (Or.inl ⟨u, hf⟩))
  · rw [net_effect] at hp
    rcases List.mem_append.1 hp with hp | hp
    · right
      cases o with
      | send u msg =>
        cases a with
        | true =>
          cases List.mem_singleton.1 hp
          exact Or.inr hf
        | false => cases hp
      | _ => cases hp
    · exact Or.inl (Or.inl (Or.inr ⟨p, hp, hf⟩))
  · rw [proxyRing_effect, requests_effect] at hu
    exact Or.inl (Or.inr ⟨u, hu, rfl⟩)

/-- What a task is told is there. -/
theorem tells_answer {t : Tid} {o : Op} {a : Ans o} {c : Choice} {w : World hash}
    (h : answer t o c w = some a) : lore.tells o a ⊆ w.facts := by
  cases o with
  | membership =>
    cases h
    exact fun f hf => Or.inl (Or.inl ⟨t.peer, hf⟩)
  | _ => exact Set.empty_subset _

theorem facts_arrive {e : Arrival} {w w' : World hash} {r : Option (Tid × Code Unit)}
    (h : arrive e w = some (r, w')) : w'.facts ⊆ w.facts ∪ e.facts := by
  rintro f ((⟨u, hf⟩ | ⟨p, hp, hf⟩) | ⟨u, hu, rfl⟩)
  · rw [node_arrive h] at hf
    exact Or.inl (Or.inl (Or.inl ⟨u, hf⟩))
  · rcases net_arrive h hp with hp | ⟨src, dst, msg, rfl, hext, rfl⟩
    · exact Or.inl (Or.inl (Or.inr ⟨p, hp, hf⟩))
    · right
      rw [Arrival.facts, if_pos hext]
      exact hf
  · rcases hu with hu | ⟨q, hq, rfl⟩
    · by_cases he : ∀ v, e ≠ .ready v
      · rw [proxyRing_arrive h he] at hu
        exact Or.inl (Or.inr ⟨u, Or.inl hu, rfl⟩)
      · obtain ⟨v, hv⟩ := not_forall.1 he
        obtain rfl := not_not.1 hv
        cases h
        rcases mem_servers_addNode hu with rfl | hu
        · exact Or.inr rfl
        · exact Or.inl (Or.inr ⟨u, Or.inl hu, rfl⟩)
    · rcases requests_arrive h hq with hq | ⟨client, msg, u, rfl, hu, rfl⟩
      · exact Or.inl (Or.inr ⟨_, Or.inr ⟨q, hq, rfl⟩, rfl⟩)
      · obtain ⟨list, -, hcoord⟩ := Option.bind_eq_some_iff.1 hu
        have hmem := HashRing.mem_getPreferenceList hash _ _ _ (List.mem_of_mem_head? hcoord)
        exact Or.inl (Or.inr ⟨u, Or.inl hmem, rfl⟩)

end Effects

/-! ## What the programs pass on -/

section Programs

variable {α β : Type} {g : Set Fact}

/-- The program repeats only what it knows. -/
abbrev Honest (R : α → Set Fact) (p : Code α) (g : Set Fact) : Prop := p.Repeats lore R g

/-- The same for a program whose result tells nothing, whatever else is known. -/
abbrev Echoes (p : Code α) (g : Set Fact) : Prop := p.Repeats lore (fun _ => ∅) g

theorem echoes_pure (a : α) : Echoes (pure a) g := Prog.repeats_pure (Set.empty_subset _)

theorem honest_perform {o : Op} (ho : lore.passes o ⊆ g) : Honest (lore.tells o) (perform o) g :=
  Prog.repeats_op ho fun _ => Prog.repeats_pure Set.subset_union_right

theorem Echoes.bind {p : Code α} {f : α → Code β} {Q : β → Set Fact} (hp : Echoes p g)
    (hf : ∀ a, Honest Q (f a) g) : Honest Q (p >>= f) g :=
  Prog.Repeats.bind hp fun a => (hf a).mono Set.subset_union_left

theorem echoes_perform {o : Op} (ho : lore.passes o ⊆ g) : Echoes (perform o) g :=
  (honest_perform ho).weaken fun _ => Set.empty_subset _

/-- An operation that passes nothing on. -/
theorem echoes_silent {o : Op} (ho : lore.passes o = ∅) : Echoes (perform o) g :=
  echoes_perform (ho ▸ Set.empty_subset _)

theorem honest_locked {R : α → Set Fact} {m : Mutex} {body : Code α} (h : Honest R body g) :
    Honest R (locked m body) g := by
  apply (echoes_silent rfl).bind
  intro _
  apply h.bind
  intro a
  apply (echoes_silent rfl).bind
  intro _
  exact Prog.repeats_pure Set.subset_union_right

theorem honest_ite {c : Prop} [Decidable c] {R : α → Set Fact} {p q : Code α} (hp : c → Honest R p g)
    (hq : ¬ c → Honest R q g) : Honest R (if c then p else q) g := by
  split
  · exact hp ‹_›
  · exact hq ‹_›

/-- The operation passes nothing on. -/
abbrev Mute (o : Op) : Prop := lore.passes o = ∅

/-- A program that performs only operations that pass nothing on. -/
theorem echoes_of_only {p : Code α} (h : p.Only Mute) : Echoes p g := by
  induction p generalizing g with
  | pure a => exact echoes_pure a
  | op o k ih =>
    apply Prog.repeats_op
    · rw [h.1]
      exact Set.empty_subset _
    · exact fun a => ih a (h.2 a)

/-- A guarded operation that passes nothing on. -/
theorem echoes_read {m : Mutex} {o : Op} (ho : lore.passes o = ∅) : Echoes (locked m (perform o)) g :=
  honest_locked (echoes_silent ho)

theorem honest_membership :
    Honest MembershipTable.facts (locked .membership (perform .membership)) g :=
  honest_locked (honest_perform (Set.empty_subset _))

/-- A peer connects to servers of its table. -/
theorem honest_connectToPeer (u : Uuid) :
    Honest (fun connected => {f | connected = true ∧ f = .server u}) (connectToPeer u) g := by
  apply honest_membership.bind
  intro table
  split
  · exact Prog.repeats_pure fun f hf => absurd hf.1 (by simp)
  · rename_i addr haddr
    apply Prog.repeats_op (Set.empty_subset _)
    intro connected
    apply Prog.repeats_pure
    rintro _ ⟨-, rfl⟩
    exact Or.inl (Or.inr (Option.isSome_iff_exists.2 ⟨addr, haddr⟩))

theorem echoes_markPeerFailed (u : Uuid) : Echoes (markPeerFailed u) g := echoes_read rfl

theorem echoes_clearPeerFailure (u : Uuid) : Echoes (clearPeerFailure u) g := by
  apply honest_locked
  apply (echoes_silent rfl).bind
  intro table
  exact honest_ite (fun _ => echoes_silent rfl) fun _ => echoes_pure _

theorem echoes_closeConn (u : Uuid) : Echoes (closeConn u) g := by
  apply (echoes_read rfl).bind
  intro table
  split
  · exact echoes_pure _
  · exact echoes_silent rfl

theorem echoes_sendTo (u : Uuid) {msg : Msg} (hmsg : msg.facts ⊆ g) : Echoes (sendTo u msg) g := by
  have hfailed : ∀ {h : Set Fact},
      Echoes (markPeerFailed u >>= fun _ => (pure false : Code Bool)) h := by
    intro h
    exact (echoes_markPeerFailed u).bind fun _ => echoes_pure _
  apply (honest_connectToPeer u).bind
  intro connected
  apply honest_ite _ fun _ => hfailed
  intro hconnected
  apply (echoes_silent rfl).bind
  intro sent
  apply honest_ite _ fun _ => hfailed
  intro _
  have hpasses : lore.passes (.send u msg) ⊆
      g ∪ {f | connected = true ∧ f = .server u} := by
    rintro f (rfl | hf)
    · exact Or.inr ⟨hconnected, rfl⟩
    · exact Or.inl (hmsg hf)
  apply (echoes_perform hpasses).bind
  intro sent
  apply honest_ite
  · intro _
    exact (echoes_clearPeerFailure u).bind fun _ => echoes_closeConn u
  · intro _
    exact (echoes_markPeerFailed u).bind fun _ => (echoes_closeConn u).bind fun _ => echoes_pure _

/-- A message that names no server. -/
theorem echoes_sendTo_of_empty (u : Uuid) {msg : Msg} (hmsg : msg.facts = ∅) :
    Echoes (sendTo u msg) g := echoes_sendTo u (hmsg ▸ Set.empty_subset _)

theorem echoes_sendGossip (self : Uuid) : Echoes (sendGossip self) g := by
  apply honest_membership.bind
  intro table
  apply (echoes_read rfl).bind
  intro peers
  apply (echoes_silent rfl).bind
  intro chosen
  split
  · exact echoes_pure _
  · rename_i p
    apply honest_ite fun _ => echoes_pure _
    intro _
    exact (echoes_sendTo p Set.subset_union_right).bind fun _ => echoes_pure _

theorem echoes_sendGossipTo (u : Uuid) : Echoes (sendGossipTo u) g := by
  apply (echoes_read rfl).bind
  intro table
  apply honest_ite _ fun _ => echoes_pure _
  intro _
  apply honest_membership.bind
  intro snapshot
  exact (echoes_sendTo u Set.subset_union_right).bind fun _ => echoes_pure _

theorem echoes_sendEach {msg : Msg} (hmsg : msg.facts = ∅) :
    ∀ us : List Uuid, Echoes (sendEach msg us) g
  | [] => echoes_pure _
  | u :: us => (echoes_sendTo_of_empty u hmsg).bind fun _ => echoes_sendEach hmsg us

theorem echoes_sendRetrying (u : Uuid) {msg : Msg} (hmsg : msg.facts = ∅) :
    ∀ n : ℕ, Echoes (sendRetrying u msg n) g
  | 0 => echoes_pure _
  | n + 1 => (echoes_sendTo_of_empty u hmsg).bind fun _ =>
      honest_ite (fun _ => echoes_pure _) fun _ => echoes_sendRetrying u hmsg n

theorem echoes_leaveRows : ∀ rows : List (U128 × ShoppingList), Echoes (leaveRows rows) g
  | [] => echoes_pure _
  | (h, list) :: rows => by
    apply (echoes_silent rfl).bind
    intro ring
    split
    · exact echoes_leaveRows rows
    · exact (echoes_sendRetrying _ rfl _).bind fun _ => echoes_leaveRows rows

theorem echoes_leave (self : Uuid) : Echoes (leave self) g := by
  apply honest_locked
  apply (echoes_silent rfl).bind
  intro _
  apply honest_locked
  apply (echoes_silent rfl).bind
  intro rows
  split
  · exact echoes_pure _
  · exact echoes_leaveRows _

theorem mute_nextAvailable (start : Uuid) :
    ∀ (n : ℕ) (current : Uuid), (nextAvailable start n current).Only Mute
  | 0, _ => ⟨rfl, fun e => e.elim⟩
  | n + 1, current => by
    have havailable : ∀ u, (isPeerAvailable u).Only Mute := by
      intro u
      refine Prog.only_bind (only_locked rfl rfl (only_perform rfl)) fun _ =>
        only_ite ?_ (only_pure _)
      exact only_locked rfl rfl (Prog.only_bind (only_perform rfl) fun _ => only_pure _)
    refine Prog.only_bind (only_locked rfl rfl (Prog.only_bind (only_perform rfl) fun ring => ?_))
      fun next => ?_
    · split
      · exact ⟨rfl, fun e => e.elim⟩
      · exact only_pure _
    · split
      · exact only_pure _
      · exact Prog.only_bind (havailable _) fun _ =>
          only_ite (only_pure _) (only_ite (only_pure _) (mute_nextAvailable start n _))

theorem echoes_replicateTo (rid : String) (list : ShoppingList) (write : Bool) (last : Uuid) :
    ∀ replicas : List Uuid, Echoes (replicateTo rid list write last replicas) g
  | [] => echoes_pure _
  | replica :: replicas => by
    apply (echoes_sendTo_of_empty replica rfl).bind
    intro sent
    apply honest_ite fun _ => echoes_replicateTo rid list write last replicas
    intro _
    have hnext : Echoes (getNextAvailableNode last) g :=
      (echoes_silent rfl).bind fun n => echoes_of_only (mute_nextAvailable last n last)
    apply hnext.bind
    intro next
    split
    · exact echoes_pure _
    · exact (echoes_sendTo_of_empty _ rfl).bind fun _ =>
        echoes_replicateTo rid list write last replicas

theorem echoes_sendReplicate (list : ShoppingList) (replicas : List Uuid) (write : Bool) :
    Echoes (sendReplicate list replicas write) g := by
  apply (echoes_silent rfl).bind
  intro u
  apply (echoes_read rfl).bind
  intro _
  split
  · exact (echoes_silent rfl).bind fun e => e.elim
  · apply (echoes_replicateTo _ _ _ _ _).bind
    intro _
    apply (echoes_silent rfl).bind
    intro result
    exact (echoes_read rfl).bind fun _ => echoes_pure _

theorem echoes_sendReadReplicate (list : ShoppingList) (replicas : List Uuid) :
    Echoes (sendReadReplicate list replicas) g := by
  apply (echoes_silent rfl).bind
  intro u
  apply (echoes_read rfl).bind
  intro _
  apply (echoes_sendEach rfl replicas).bind
  intro _
  apply (echoes_silent rfl).bind
  intro result
  apply (echoes_read rfl).bind
  intro q
  exact honest_ite (fun _ => echoes_pure _) fun _ => echoes_pure _

theorem echoes_getReplicas (id : Uuid) : Echoes (getReplicas hash id) g :=
  honest_locked ((echoes_silent rfl).bind fun _ => echoes_pure _)

theorem echoes_sendToProxy (client : ClientId) (msg : Msg) : Echoes (sendToProxy client msg) g :=
  echoes_read rfl

theorem echoes_handleIncomingPut (client : ClientId) (list : ShoppingList) :
    Echoes (handleIncomingPut hash client list) g := by
  apply (echoes_getReplicas list.id).bind
  intro replicas
  apply honest_ite fun _ => echoes_pure _
  intro _
  apply (echoes_sendReplicate list replicas true).bind
  intro reached
  apply honest_ite
  · intro _
    apply honest_locked
    apply (echoes_silent rfl).bind
    intro written
    split
    · exact echoes_pure _
    · exact (echoes_sendToProxy _ _).bind fun _ => echoes_pure _
  · intro _
    exact (echoes_sendToProxy _ _).bind fun _ => echoes_pure _

theorem echoes_readList (client : ClientId) (list l : ShoppingList) :
    Echoes (readList hash client list l) g := by
  apply (echoes_getReplicas list.id).bind
  intro replicas
  apply honest_ite fun _ => echoes_pure _
  intro _
  apply (echoes_sendReadReplicate list replicas).bind
  intro merged
  split
  · apply (echoes_read rfl).bind
    intro written
    split
    · exact echoes_pure _
    · exact (echoes_sendToProxy _ _).bind fun _ => echoes_pure _
  · exact (echoes_sendToProxy _ _).bind fun _ => echoes_pure _

theorem echoes_handleIncomingProxy (client : ClientId) (msg : Msg) :
    Echoes (handleIncomingProxy hash client msg) g := by
  cases msg with
  | getList list =>
    apply (echoes_read rfl).bind
    intro stored
    split
    · exact echoes_pure _
    · exact echoes_handleIncomingPut client list
    · exact echoes_readList client list _
  | putList list => exact echoes_handleIncomingPut client list
  | _ => exact echoes_pure _

theorem echoes_addEach : ∀ {nodes : List Uuid}, (∀ u ∈ nodes, .server u ∈ g) →
    Echoes (addEach nodes) g
  | [], _ => echoes_pure _
  | u :: nodes, h => by
    apply (echoes_perform (Set.singleton_subset_iff.2 (h u List.mem_cons_self))).bind
    exact fun _ => echoes_addEach fun v hv => h v (List.mem_cons_of_mem _ hv)

theorem echoes_sendOldLists (u : Uuid) : ∀ ls : List ShoppingList, Echoes (sendOldLists u ls) g
  | [] => echoes_pure _
  | _ :: ls => (echoes_sendTo_of_empty u rfl).bind fun _ => echoes_sendOldLists u ls

theorem echoes_addEntries (self : Uuid) (predecessors : List Uuid) :
    ∀ {entries : List (Sigma fun _ : Uuid => String)},
      (∀ e ∈ entries, .server e.1 ∈ g ∧ .address e.1 e.2 ∈ g) →
      Echoes (addEntries self predecessors entries) g
  | [], _ => echoes_pure _
  | ⟨u, addr⟩ :: entries, h => by
    have hrest : Echoes (addEntries self predecessors entries) g :=
      echoes_addEntries self predecessors fun e he => h e (List.mem_cons_of_mem _ he)
    obtain ⟨hserver, haddress⟩ := h ⟨u, addr⟩ List.mem_cons_self
    have hinsert : lore.passes (.membershipInsert u addr) ⊆ g := by
      rintro f (rfl | rfl)
      · exact hserver
      · exact haddress
    apply (echoes_perform hinsert).bind
    intro _
    apply honest_ite _ fun _ => hrest
    intro _
    apply (echoes_read rfl).bind
    intro ring
    split
    · exact hrest
    · apply (echoes_read rfl).bind
      intro old
      split
      · exact echoes_pure _
      · exact (echoes_sendOldLists u _).bind fun _ => hrest

theorem echoes_handleGossip (self : Uuid) {table : MembershipTable} (h : table.facts ⊆ g) :
    Echoes (handleGossip self table) g := by
  have hentry : ∀ e ∈ table.entries, .server e.1 ∈ g ∧ .address e.1 e.2 ∈ g := by
    rintro ⟨u, addr⟩ he
    have haddr : table.find? u = some addr := (FinMap.mem_entries _ _ _).1 he
    exact ⟨h (Option.isSome_iff_exists.2 ⟨addr, haddr⟩), h haddr⟩
  have hnodes : ∀ u ∈ table.keys, .server u ∈ g := by
    intro u hu
    exact h ((FinMap.find?_isSome _ _).2 (AList.mem_keys.2 hu))
  have hadd : Echoes (addNodes table.keys) g := honest_locked (echoes_addEach hnodes)
  apply hadd.bind
  intro _
  apply honest_locked
  apply (echoes_silent rfl).bind
  intro membership
  apply (echoes_read rfl).bind
  intro ring
  exact echoes_addEntries self _ fun e he => hentry e (List.mem_of_mem_filter he)

theorem echoes_handleMergeList (list : ShoppingList) : Echoes (handleMergeList list) g := by
  apply honest_locked
  apply (echoes_silent rfl).bind
  intro stored
  split
  · exact echoes_pure _
  · exact (echoes_silent rfl).bind fun _ => echoes_pure _
  · exact (echoes_silent rfl).bind fun _ => echoes_pure _

/-- **A handler repeats only what its message says and what it reads.** -/
theorem echoes_handleIncoming (self src : Uuid) {msg : Msg} (h : msg.facts ⊆ g) :
    Echoes (handleIncoming self src msg) g := by
  cases msg with
  | leave => exact echoes_leave self
  | gossip table => exact echoes_handleGossip self h
  | hello u addr =>
    apply (honest_locked (echoes_perform h)).bind
    intro _
    exact (echoes_sendGossipTo u).bind fun _ => echoes_sendGossip self
  | replicateList id list write =>
    cases write with
    | true =>
      apply (echoes_read rfl).bind
      intro written
      split
      · exact (echoes_sendTo_of_empty _ rfl).bind fun _ => echoes_pure _
      · exact echoes_pure _
    | false =>
      apply (echoes_read rfl).bind
      intro stored
      split
      · exact (echoes_sendTo_of_empty _ rfl).bind fun _ => echoes_pure _
      · exact echoes_pure _
      · exact echoes_pure _
  | ack rid => exact echoes_read rfl
  | ackList rid list => exact echoes_read rfl
  | handoff rid list original =>
    apply (echoes_read rfl).bind
    intro _
    exact (echoes_sendTo_of_empty _ rfl).bind fun _ => echoes_pure _
  | mergeList list => exact echoes_handleMergeList list
  | _ => exact echoes_pure _

theorem echoes_deliverHints : ∀ hints : List (Uuid × ShoppingList), Echoes (deliverHints hints) g
  | [] => echoes_pure _
  | (dest, list) :: hints => by
    apply (echoes_silent rfl).bind
    intro id
    apply (echoes_sendTo_of_empty dest rfl).bind
    intro sent
    apply honest_ite
    · intro _
      exact (echoes_read rfl).bind fun _ => echoes_deliverHints hints
    · exact fun _ => echoes_deliverHints hints

theorem echoes_hintedHandoff : Echoes hintedHandoff g := by
  apply (echoes_read rfl).bind
  intro hints
  split
  · exact echoes_pure _
  · exact echoes_deliverHints _

theorem echoes_failureDetection : Echoes failureDetection g :=
  honest_locked ((echoes_silent rfl).bind fun _ => echoes_sendEach rfl _)

end Programs

/-! ## Runs -/

/-- A task starts with what its message says. -/
theorem echoes_starts {e : Arrival} {t : Tid} {p : Code Unit} {w w' : World hash}
    (h : arrive e w = some (some (t, p), w')) : Echoes p (w.facts ∪ e.facts) := by
  cases e with
  | ready u => cases h
  | request client msg =>
    simp only [arrive] at h
    split at h <;> cases h
  | take r =>
    simp only [arrive] at h
    split at h <;> cases h
    exact echoes_handleIncomingProxy r.clientId r.msg
  | deliver q =>
    have hq := mem_net_of_deliver h
    simp only [arrive, if_pos hq] at h
    cases h
    apply echoes_handleIncoming
    exact fun f hf => Or.inl (Or.inl (Or.inr ⟨q, hq, hf⟩))
  | lose q =>
    simp only [arrive] at h
    split at h <;> cases h
  | message src dst msg =>
    simp only [arrive] at h
    split at h <;> cases h
  | tickGossip u =>
    cases h
    exact echoes_sendGossip u
  | tickHintedHandoff u =>
    cases h
    exact echoes_hintedHandoff
  | tickFailureDetection u =>
    cases h
    exact echoes_failureDetection

/-- What the cluster knew at the beginning or has been told from outside. -/
abbrev Told (w₀ : World hash) (evs : History hash) : Set Fact :=
  brought (m := cluster hash) World.facts Arrival.facts w₀ evs

/-- **Facts are only repeated**, in every run. -/
theorem facts_told {D : Discipline (cluster hash)} {w₀ : World hash} {evs : History hash}
    {c : Config (cluster hash)} (hrun : Run (cluster hash) D (quiet w₀) evs c) :
    c.state.facts ⊆ Told w₀ evs ∧
      ∀ (t : Tid) (o : Op) (a : Ans o), (.did t o a : Event (cluster hash)) ∈ evs →
        lore.passes o ⊆ Told w₀ evs := by
  apply Run.known (L := lore) _ _ _ hrun
  · intro t o c a w w' hact
    obtain ⟨hans, rfl⟩ := act_eq hact
    exact ⟨tells_answer hans, facts_effect t o a w⟩
  · intro e r w w' harr
    exact facts_arrive harr
  · intro e t p w w' harr
    exact echoes_starts harr

/-- Only a task of the peer puts a server on its ring. -/
theorem mem_ring_of_run {D : Discipline (cluster hash)} {w₀ : World hash} {evs : History hash}
    {c : Config (cluster hash)} (hrun : Run (cluster hash) D (quiet w₀) evs c) {p u : Uuid} :
    u ∈ (c.state.node p).hashring.servers → u ∈ (w₀.node p).hashring.servers ∨
      ∃ t : Tid, (.did t (.addNode u) () : Event (cluster hash)) ∈ evs := by
  refine Run.invariant (fun evs w => u ∈ (w.node p).hashring.servers →
    u ∈ (w₀.node p).hashring.servers ∨ ∃ t : Tid, (.did t (.addNode u) () : Event (cluster hash)) ∈ evs)
    ?did ?ended ?arrived Or.inl hrun
  case did =>
    intro evs w t o c a w' ih hact _ h
    obtain ⟨-, rfl⟩ := act_eq hact
    have hearlier : u ∈ (w.node p).hashring.servers → u ∈ (w₀.node p).hashring.servers ∨
        ∃ t' : Tid, (.did t' (.addNode u) () : Event (cluster hash)) ∈ .did t o a :: evs :=
      fun h => (ih h).imp_right fun ⟨t', ht'⟩ => ⟨t', List.mem_cons_of_mem _ ht'⟩
    rw [node_effect] at h
    split at h
    · rw [hashring_after] at h
      cases o with
      | addNode v =>
        rcases mem_servers_addNode h with rfl | h
        · exact Or.inr ⟨t, List.mem_cons_self⟩
        · exact hearlier h
      | removeNode v => exact hearlier (mem_servers_removeNode h)
      | _ => exact hearlier h
    · exact hearlier h
  case ended =>
    intro evs w t ih h
    exact (ih h).imp_right fun ⟨t', ht'⟩ => ⟨t', List.mem_cons_of_mem _ ht'⟩
  case arrived =>
    intro evs w e r w' ih harr _ h
    rw [node_arrive harr] at h
    exact (ih h).imp_right fun ⟨t', ht'⟩ => ⟨t', List.mem_cons_of_mem _ ht'⟩

/-- The server is in a table of the beginning with this address, or has announced it by a `Hello`. -/
def Announced (w₀ : World hash) (evs : History hash) (u : Uuid) (addr : String) : Prop :=
  (∃ p, (w₀.node p).membership.find? u = some addr) ∨
    ∃ src dst, (.arrived (.message src dst (.hello u addr)) : Event (cluster hash)) ∈ evs

section Told

variable {w₀ : World hash} {evs : History hash} {u : Uuid} {addr : String}

/-- What comes from outside is a registration or a `Hello`. -/
theorem facts_outside {e : Arrival} {f : Fact} (hf : f ∈ e.facts) :
    (∃ u, e = .ready u ∧ f = .registered u) ∨
      ∃ src dst u addr, e = .message src dst (.hello u addr) ∧ (f = .server u ∨ f = .address u addr) := by
  cases e with
  | ready u => exact Or.inl ⟨u, rfl, hf⟩
  | message src dst msg =>
    cases msg with
    | hello u addr => exact Or.inr ⟨src, dst, u, addr, rfl, hf⟩
    | _ => cases hf
  | _ => cases hf

/-- What was known at the beginning was in a table, or on the ring of the proxy. -/
theorem facts_settled (hw : w₀.Settled) {f : Fact} (hf : f ∈ w₀.facts) :
    (∃ p, f ∈ (w₀.node p).membership.facts) ∨ ∃ u ∈ w₀.proxyRing.servers, f = .registered u := by
  rcases hf with (hf | ⟨p, hp, -⟩) | ⟨u, hu | ⟨r, hr, -⟩, rfl⟩
  · exact Or.inl hf
  · rw [hw.net] at hp
    cases hp
  · exact Or.inr ⟨u, hu, rfl⟩
  · rw [hw.requests] at hr
    cases hr

theorem announced_of_told (hw : w₀.Settled) (h : .address u addr ∈ Told w₀ evs) :
    Announced w₀ evs u addr := by
  rcases h with h | ⟨e, he, hf⟩
  · rcases facts_settled hw h with hp | ⟨v, -, heq⟩
    · exact Or.inl hp
    · cases heq
  · rcases facts_outside hf with ⟨v, -, heq⟩ | ⟨src, dst, v, addr', rfl, heq | heq⟩
    · cases heq
    · cases heq
    · cases heq
      exact Or.inr ⟨src, dst, he⟩

theorem announced_of_server (hw : w₀.Settled) (h : .server u ∈ Told w₀ evs) :
    ∃ addr, Announced w₀ evs u addr := by
  rcases h with h | ⟨e, he, hf⟩
  · rcases facts_settled hw h with ⟨p, hp⟩ | ⟨v, -, heq⟩
    · obtain ⟨addr, haddr⟩ := Option.isSome_iff_exists.1 hp
      exact ⟨addr, Or.inl ⟨p, haddr⟩⟩
    · cases heq
  · rcases facts_outside hf with ⟨v, -, heq⟩ | ⟨src, dst, v, addr, rfl, heq | heq⟩
    · cases heq
    · cases heq
      exact ⟨addr, Or.inr ⟨src, dst, he⟩⟩
    · cases heq

theorem registered_of_told (hw : w₀.Settled) (h : .registered u ∈ Told w₀ evs) :
    u ∈ w₀.proxyRing.servers ∨ (.arrived (.ready u) : Event (cluster hash)) ∈ evs := by
  rcases h with h | ⟨e, he, hf⟩
  · rcases facts_settled hw h with ⟨p, hp⟩ | ⟨v, hv, heq⟩
    · exact hp.elim
    · cases heq
      exact Or.inl hv
  · rcases facts_outside hf with ⟨v, rfl, heq⟩ | ⟨src, dst, v, addr, rfl, heq | heq⟩
    · cases heq
      exact Or.inr he
    · cases heq
    · cases heq

end Told

section Told

variable {D : Discipline (cluster hash)} {w₀ : World hash} {evs : History hash}
  {c : Config (cluster hash)} {u : Uuid} {addr : String}

theorem announced_of_table (hw : w₀.Settled) (hrun : Run (cluster hash) D (quiet w₀) evs c) {p : Uuid}
    (h : (c.state.node p).membership.find? u = some addr) : Announced w₀ evs u addr :=
  announced_of_told hw ((facts_told hrun).1 (Or.inl (Or.inl ⟨p, h⟩)))

theorem announced_of_gossip (hw : w₀.Settled) (hrun : Run (cluster hash) D (quiet w₀) evs c) {q : Packet}
    (hq : q ∈ c.state.net) {table : MembershipTable} (hmsg : q.msg = .gossip table)
    (h : table.find? u = some addr) : Announced w₀ evs u addr := by
  apply announced_of_told hw
  apply (facts_told hrun).1
  refine Or.inl (Or.inr ⟨q, hq, ?_⟩)
  rw [hmsg]
  exact h

/-- Whoever is put on a ring has announced itself. -/
theorem announced_of_added (hw : w₀.Settled) (hrun : Run (cluster hash) D (quiet w₀) evs c) {t : Tid}
    {a : Unit} (h : (.did t (.addNode u) a : Event (cluster hash)) ∈ evs) :
    ∃ addr, Announced w₀ evs u addr :=
  announced_of_server hw ((facts_told hrun).2 t (.addNode u) a h rfl)

end Told

/-- **Gossip makes nothing up**, in every run: whoever is in a table or in a gossiped table, was there
at the beginning or has announced itself, and at this address; rings and sends name such servers only;
and the proxy routes to servers that have registered. -/
theorem only_announced {D : Discipline (cluster hash)} {w₀ : World hash} (hw : w₀.Settled)
    {evs : History hash} {c : Config (cluster hash)} (hrun : Run (cluster hash) D (quiet w₀) evs c) :
    (∀ p u addr, (c.state.node p).membership.find? u = some addr → Announced w₀ evs u addr) ∧
    (∀ q ∈ c.state.net, ∀ table, q.msg = .gossip table →
      ∀ u addr, table.find? u = some addr → Announced w₀ evs u addr) ∧
    (∀ p u, u ∈ (c.state.node p).hashring.servers →
      u ∈ (w₀.node p).hashring.servers ∨ ∃ addr, Announced w₀ evs u addr) ∧
    (∀ (t : Tid) u msg sent, (.did t (.send u msg) sent : Event (cluster hash)) ∈ evs →
      ∃ addr, Announced w₀ evs u addr) ∧
    ∀ u, (u ∈ c.state.proxyRing.servers ∨ ∃ r ∈ c.state.requests, r.peer = u) →
      u ∈ w₀.proxyRing.servers ∨ (.arrived (.ready u) : Event (cluster hash)) ∈ evs := by
  obtain ⟨hholds, hpassed⟩ := facts_told hrun
  refine ⟨fun p u addr h => ?_, fun q hq table hmsg u addr h => ?_, fun p u h => ?_,
    fun t u msg sent h => ?_, fun u h => ?_⟩
  · exact announced_of_table hw hrun h
  · exact announced_of_gossip hw hrun hq hmsg h
  · refine (mem_ring_of_run hrun h).imp_right fun ⟨t, ht⟩ => ?_
    exact announced_of_added hw hrun ht
  · exact announced_of_server hw (hpassed t _ _ h (Or.inl rfl))
  · exact registered_of_told hw (hholds (Or.inr ⟨u, h, rfl⟩))

/-- Server 4 says hello to server 1, which sends it its table. -/
def helloAnswered : List (Move (cluster md5)) :=
  .arrive (.message (.ofTail 4) (.ofTail 1) (.hello (.ofTail 4) "tcp://4")) ::
  .arrive (.deliver ⟨0, .ofTail 4, .ofTail 1, .hello (.ofTail 4) "tcp://4"⟩) ::
  List.replicate 15 (.turn (.incoming (.ofTail 1) 0) .yes)

/-- The message gossips the address of server 4. -/
def tellsOfFour (msg : Msg) : Bool :=
  match msg with
  | .gossip table => table.find? (.ofTail 4) = some "tcp://4"
  | _ => false

theorem tellsOfFour_eq {msg : Msg} (h : tellsOfFour msg = true) :
    ∃ table, msg = .gossip table ∧ table.find? (.ofTail 4) = some "tcp://4" := by
  unfold tellsOfFour at h
  split at h
  · exact ⟨_, rfl, of_decide_eq_true h⟩
  · cases h

theorem only_announced_hello :
    ∃ evs c, Run (cluster md5) anyStep (quiet (World.joined md5 [.ofTail 1, .ofTail 2, .ofTail 3])) evs c ∧
      ∃ q ∈ c.state.net, ∃ table, q.msg = .gossip table ∧ table.find? (.ofTail 4) = some "tcp://4" ∧
        Announced (World.joined md5 [.ofTail 1, .ofTail 2, .ofTail 3]) evs (.ofTail 4) "tcp://4" := by
  obtain ⟨evs, c, hrun, hcheck⟩ := exists_run (D := anyStep) (fun _ _ _ => true)
    (fun _ _ _ _ => trivial) (quiet (World.joined md5 [.ofTail 1, .ofTail 2, .ofTail 3]))
    helloAnswered
    (fun _ c => c.state.net.any fun q => tellsOfFour q.msg) (by decide +kernel)
  obtain ⟨q, hq, hgossip⟩ := List.any_eq_true.1 hcheck
  obtain ⟨table, hmsg, htable⟩ := tellsOfFour_eq hgossip
  exact ⟨evs, c, hrun, q, hq, table, hmsg, htable,
    (only_announced (settled_joined md5 _) hrun).2.1 q hq table hmsg _ _ htable⟩

end Sdle
