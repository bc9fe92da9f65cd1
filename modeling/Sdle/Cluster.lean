import Sdle.Peer
import Sdle.ServerStorage

/-!
# The server cluster (`server.rs`, `proxy.rs`)

Any number of peers, the proxy that routes client requests to them, and the messages in flight.
Every handler runs as a task of its own, one operation at a time, except that a peer handles the
requests of the proxy one after another (`listen_proxy` awaits each handler) and each background
loop runs one round at a time.

A message is addressed by the id of the peer (the entry of a peer in a membership table is the
address that the peer is bound to).  It carries a serial number, and may be delivered in any order,
late, or never.  `Uuid::new_v4` never returns an id twice.  A request's channel is named by the
request id: `fired` lists the requests whose channel has been sent to.
-/

set_option autoImplicit false

namespace Sdle

open Tasks Peer

/-- The name of a task: which handler or loop of which peer. -/
inductive Tid where
  | incoming (peer : Uuid) (serial : ℕ)
  | proxied (peer : Uuid)
  | gossip (peer : Uuid)
  | hintedHandoff (peer : Uuid)
  | failureDetection (peer : Uuid)
  deriving DecidableEq

/-- The peer that a task belongs to. -/
def Tid.peer : Tid → Uuid
  | .incoming p _ => p
  | .proxied p => p
  | .gossip p => p
  | .hintedHandoff p => p
  | .failureDetection p => p

variable (hash : String → U128)

/-- The state of a `Peer`. -/
structure Node where
  storage : ServerStorage hash
  membership : MembershipTable
  hashring : HashRing
  failure : FailureTable
  inFlight : FinMap String QuoromState
  fired : List String
  locks : Mutex → Option Tid

/-- A message on its way between peers. -/
structure Packet where
  serial : ℕ
  src : Uuid
  dst : Uuid
  msg : Msg
  deriving DecidableEq

/-- A client request that the proxy has routed to a peer. -/
structure Request where
  serial : ℕ
  peer : Uuid
  clientId : ClientId
  msg : Msg
  deriving DecidableEq

/-- The cluster. -/
structure World where
  node : Uuid → Node hash
  net : List Packet
  /-- the requests that the peers have not taken yet -/
  requests : List Request
  /-- the serial number of the next packet or request -/
  serial : ℕ
  /-- the UUIDs that `Uuid::new_v4` has returned -/
  drawn : List Uuid
  proxyRing : HashRing

/-- What the environment decides for an operation. -/
inductive Choice where
  | yes
  | no
  | nat (n : ℕ)
  | uuid (u : Uuid)

/-- What arrives from outside: a server registers at the proxy, a client sends a request, a peer
takes a request, a packet is delivered or lost, a message comes from a tool or a joining server, or
the timer of a loop fires. -/
inductive Arrival where
  | ready (server : Uuid)
  | request (clientId : ClientId) (msg : Msg)
  | take (request : Request)
  | deliver (packet : Packet)
  | lose (packet : Packet)
  | message (src dst : Uuid) (msg : Msg)
  | tickGossip (peer : Uuid)
  | tickHintedHandoff (peer : Uuid)
  | tickFailureDetection (peer : Uuid)

variable {hash}

namespace Node

/-- What an `Ack` or `AckList` does to the request it names: `update` the state and, when that
reaches the quorum, send on the channel. -/
def answered (n : Node hash) (requestId : String) (update : QuoromState → QuoromState) : Node hash :=
  match n.inFlight.find? requestId with
  | none => n
  | some q =>
    let q := update q
    if q.isQuoromReached && q.responder then
      { n with
        inFlight := n.inFlight.insert requestId { q with responder := false }
        fired := requestId :: n.fired }
    else { n with inFlight := n.inFlight.insert requestId q }

end Node

variable (hash) in
/-- `Peer::new`. -/
protected def Node.new (uuid : Uuid) (addr : String) : Node hash where
  storage := .empty
  membership := (∅ : FinMap Uuid String).insert uuid addr
  hashring := (HashRing.new VNODES REPLICAS).addNode hash uuid
  failure := ∅
  inFlight := ∅
  fired := []
  locks _ := none

variable (hash) in
/-- Peers that have just been created, and `Proxy::new`. -/
protected def World.new (addr : Uuid → String) : World hash where
  node u := .new hash u (addr u)
  net := []
  requests := []
  serial := 0
  drawn := []
  proxyRing := .new VNODES REPLICAS

variable (hash) in
/-- Peers that all know the given servers, as does the proxy. -/
def World.joined (servers : List Uuid) : World hash :=
  let members := servers.foldl (fun m u => m.insert u u.toString) (∅ : FinMap Uuid String)
  let ring := servers.foldl (fun ring u => ring.addNode hash u) (.new VNODES REPLICAS)
  { World.new hash Uuid.toString with
    node u := { Node.new hash u u.toString with membership := members, hashring := ring }
    proxyRing := ring }

/-- Change the state of a peer. -/
def World.setNode (w : World hash) (u : Uuid) (n : Node hash) : World hash :=
  { w with node := Function.update w.node u n }

/-- A message leaves a peer. -/
def World.post (w : World hash) (src dst : Uuid) (msg : Msg) : World hash :=
  { w with net := ⟨w.serial, src, dst, msg⟩ :: w.net, serial := w.serial + 1 }

/-- A call that the environment lets fail or answers. -/
def Choice.attempt {α : Type} (c : Choice) (a : α) : Option (Option α) :=
  match c with
  | .yes => some (some a)
  | .no => some none
  | _ => none

theorem Choice.attempt_eq_some {α : Type} {c : Choice} {a b : α}
    (h : c.attempt a = some (some b)) : a = b := by
  cases c with
  | yes => exact Option.some.inj (Option.some.inj h)
  | no => cases h
  | nat n => cases h
  | uuid u => cases h

/-- A socket call that the environment lets work or fail. -/
def Choice.flip (c : Choice) : Option Bool :=
  match c with
  | .yes => some true
  | .no => some false
  | _ => none

/-- The answer to an operation of a task, or nothing where it is blocked. -/
def answer (t : Tid) (o : Op) (c : Choice) (w : World hash) : Option (Ans o) :=
  let n := w.node t.peer
  match o with
  | .lock m => if n.locks m = none then some () else none
  | .unlock _ => some ()
  | .getShoppingList id => c.attempt (n.storage.getShoppingList id)
  | .writeShoppingList _ => c.attempt ()
  | .writeShoppingListHandoff _ _ => c.attempt ()
  | .getHintedHandoffs => c.attempt n.storage.getHintedHandoffs
  | .getOldData u h => c.attempt (n.storage.getOldData u h)
  | .getAllRows => c.attempt n.storage.getAllRows
  | .deleteShoppingList _ => c.attempt ()
  | .membership => some n.membership
  | .membershipInsert _ _ => some ()
  | .hashring => some n.hashring
  | .addNode _ => some ()
  | .removeNode _ => some ()
  | .failure => some n.failure
  | .markFailure _ => some ()
  | .clearFailure _ => some ()
  | .insertInFlight _ _ => some ()
  | .removeInFlight r => some (n.inFlight.find? r)
  | .ack _ => some ()
  | .ackList _ _ => some ()
  | .socket => c.flip
  | .sendEmpty _ => c.flip
  | .send _ _ => c.flip
  | .disconnect _ => c.flip
  | .sendProxy _ _ => c.flip
  | .newUuid =>
    match c with
    | .uuid u => if u ∈ w.drawn then none else some u
    | _ => none
  | .choose us =>
    match c with
    | .uuid u => if u ∈ us then some (some u) else none
    | _ => if us = [] then some none else none
  | .await r =>
    match c with
    | .yes => if r ∈ n.fired then some true else none
    | _ => some false
  | .turns =>
    match c with
    | .nat k => some k
    | _ => none
  | .stop => none

/-- What an operation with its answer does to the peer. -/
def Node.after (t : Tid) (o : Op) (a : Ans o) (n : Node hash) : Node hash :=
  match o, a with
  | .lock m, _ => { n with locks := Function.update n.locks m (some t) }
  | .unlock m, _ => { n with locks := Function.update n.locks m none }
  | .writeShoppingList l, some _ => { n with storage := n.storage.writeShoppingList l }
  | .writeShoppingListHandoff l d, some _ =>
    { n with storage := n.storage.writeShoppingListHandoff l d }
  | .deleteShoppingList id, some _ => { n with storage := n.storage.deleteShoppingList id }
  | .membershipInsert u addr, _ => { n with membership := n.membership.insert u addr }
  | .addNode u, _ => { n with hashring := n.hashring.addNode hash u }
  | .removeNode u, _ => { n with hashring := n.hashring.removeNode hash u }
  | .markFailure u, _ => { n with failure := FailureTable.markFailure n.failure u }
  | .clearFailure u, _ => { n with failure := FailureTable.clearFailure n.failure u }
  | .insertInFlight r q, _ => { n with inFlight := n.inFlight.insert r q }
  | .removeInFlight r, _ => { n with inFlight := n.inFlight.erase r }
  | .ack r, _ => n.answered r QuoromState.incrementReceived
  | .ackList r l, _ => n.answered r fun q => q.addList l
  | _, _ => n

/-- What an operation with its answer does to the cluster. -/
def effect (t : Tid) (o : Op) (a : Ans o) (w : World hash) : World hash :=
  match o, a with
  | .send u msg, true => w.post t.peer u msg
  | .newUuid, u => { w with drawn := u :: w.drawn }
  | o, a => w.setNode t.peer ((w.node t.peer).after t o a)

/-- An operation of a task. -/
def act (t : Tid) (o : Op) (c : Choice) (w : World hash) : Option (Ans o × World hash) :=
  (answer t o c w).map fun a => (a, effect t o a w)

/-- The list that the proxy routes by. -/
def routed : Msg → Option Uuid
  | .getList l => some l.id
  | .putList l => some l.id
  | .mergeList l => some l.id
  | _ => none

/-- The messages that reach a peer's router from outside the cluster. -/
def external : Msg → Bool
  | .hello _ _ => true
  | .ping => true
  | .mergeList _ => true
  | .leave => true
  | _ => false

/-- What an arrival does. -/
def arrive (e : Arrival) (w : World hash) : Option (Option (Tid × Code Unit) × World hash) :=
  match e with
  | .ready u => some (none, { w with proxyRing := w.proxyRing.addNode hash u })
  | .request client msg =>
    match (routed msg).bind (w.proxyRing.getCoordinator hash) with
    | none => some (none, w)
    | some u =>
      some (none, { w with
        requests := ⟨w.serial, u, client, msg⟩ :: w.requests
        serial := w.serial + 1 })
  | .take r =>
    if r ∈ w.requests then
      some (some (.proxied r.peer, handleIncomingProxy hash r.clientId r.msg),
        { w with requests := w.requests.erase r })
    else none
  | .deliver p =>
    if p ∈ w.net then
      some (some (.incoming p.dst p.serial, handleIncoming p.dst p.src p.msg),
        { w with net := w.net.erase p })
    else none
  | .lose p => if p ∈ w.net then some (none, { w with net := w.net.erase p }) else none
  | .message src dst msg => if external msg then some (none, w.post src dst msg) else none
  | .tickGossip u => some (some (.gossip u, sendGossip u), w)
  | .tickHintedHandoff u => some (some (.hintedHandoff u, hintedHandoff), w)
  | .tickFailureDetection u => some (some (.failureDetection u, failureDetection), w)

variable (hash) in
/-- The cluster as a machine. -/
abbrev cluster : Machine PeerSig where
  State := World hash
  Tid := Tid
  Choice := Choice
  Arrival := Arrival
  act := act
  arrive := arrive

/-- Any step. -/
def anyStep : Discipline (cluster hash) := fun _ _ _ => True

/-- Storage and sockets work. -/
def succeeds (o : Op) (a : Ans o) : Bool :=
  match o, a with
  | .getShoppingList _, a => a.isSome
  | .writeShoppingList _, a => a.isSome
  | .writeShoppingListHandoff _ _, a => a.isSome
  | .getHintedHandoffs, a => a.isSome
  | .getOldData _ _, a => a.isSome
  | .getAllRows, a => a.isSome
  | .deleteShoppingList _, a => a.isSome
  | .socket, a => a
  | .sendEmpty _, a => a
  | .send _ _, a => a
  | .disconnect _, a => a
  | .sendProxy _ _, a => a
  | _, _ => true

/-- No server joins or leaves, the clients only get and put lists, no message is lost, and storage
and sockets work. -/
def calm (ev : Event (cluster hash)) : Bool :=
  match ev with
  | .did _ o a => succeeds o a
  | .arrived (.ready _) => false
  | .arrived (.request _ (.getList _)) => true
  | .arrived (.request _ (.putList _)) => true
  | .arrived (.request _ _) => false
  | .arrived (.lose _) => false
  | .arrived (.message _ _ _) => false
  | _ => true

/-! ## What an operation can do -/

theorem act_eq {t : Tid} {o : Op} {c : Choice} {w w' : World hash} {a : Ans o}
    (h : act t o c w = some (a, w')) : answer t o c w = some a ∧ w' = effect t o a w := by
  obtain ⟨a', ha, heq⟩ := Option.map_eq_some_iff.1 h
  cases heq
  exact ⟨ha, rfl⟩

@[simp] theorem setNode_node (w : World hash) (u v : Uuid) (n : Node hash) :
    (w.setNode u n).node v = if v = u then n else w.node v := by
  unfold World.setNode
  by_cases h : v = u
  · subst h
    simp
  · simp [h]

/-- The storage after an operation. -/
def storageAfter (o : Op) (a : Ans o) (s : ServerStorage hash) : ServerStorage hash :=
  match o, a with
  | .writeShoppingList l, some _ => s.writeShoppingList l
  | .writeShoppingListHandoff l d, some _ => s.writeShoppingListHandoff l d
  | .deleteShoppingList id, some _ => s.deleteShoppingList id
  | _, _ => s

/-- The mutexes of a peer after an operation. -/
def locksAfter (t : Tid) (o : Op) (locks : Mutex → Option Tid) : Mutex → Option Tid :=
  match o with
  | .lock m => Function.update locks m (some t)
  | .unlock m => Function.update locks m none
  | _ => locks

/-- An answer changes nothing of the peer but its requests in flight. -/
theorem frame_answered {β : Type} (f : Node hash → β)
    (hf : ∀ (n : Node hash) inFlight fired, f { n with inFlight := inFlight, fired := fired } = f n)
    (n : Node hash) (r : String) (update : QuoromState → QuoromState) :
    f (n.answered r update) = f n := by
  unfold Node.answered
  split
  · rfl
  · dsimp only
    split
    · exact hf n _ _
    · exact hf n _ n.fired

theorem locks_after (t : Tid) (o : Op) (a : Ans o) (n : Node hash) :
    (n.after t o a).locks = locksAfter t o n.locks := by
  cases o with
  | writeShoppingList l => cases a <;> rfl
  | writeShoppingListHandoff l d => cases a <;> rfl
  | deleteShoppingList id => cases a <;> rfl
  | ack r => exact frame_answered Node.locks (fun _ _ _ => rfl) n r _
  | ackList r l => exact frame_answered Node.locks (fun _ _ _ => rfl) n r _
  | _ => rfl

theorem storage_after (t : Tid) (o : Op) (a : Ans o) (n : Node hash) :
    (n.after t o a).storage = storageAfter o a n.storage := by
  cases o with
  | writeShoppingList l => cases a <;> rfl
  | writeShoppingListHandoff l d => cases a <;> rfl
  | deleteShoppingList id => cases a <;> rfl
  | ack r => exact frame_answered Node.storage (fun _ _ _ => rfl) n r _
  | ackList r l => exact frame_answered Node.storage (fun _ _ _ => rfl) n r _
  | _ => rfl

/-- An operation changes its own peer only. -/
theorem node_effect (t : Tid) (o : Op) (a : Ans o) (w : World hash) (u : Uuid) :
    (effect t o a w).node u = if u = t.peer then (w.node u).after t o a else w.node u := by
  have hset : ∀ n : Node hash, n = (w.node t.peer).after t o a →
      (w.setNode t.peer n).node u = if u = t.peer then (w.node u).after t o a else w.node u := by
    rintro _ rfl
    rw [setNode_node]
    split
    · rename_i h
      rw [h]
    · rfl
  unfold effect
  split
  · exact (ite_self _).symm
  · exact (ite_self _).symm
  · exact hset _ rfl

theorem storage_effect (t : Tid) (o : Op) (a : Ans o) (w : World hash) (u : Uuid) :
    ((effect t o a w).node u).storage =
      if u = t.peer then storageAfter o a (w.node u).storage else (w.node u).storage := by
  rw [node_effect]
  split
  · exact storage_after t o a _
  · rfl

/-- The packet that an operation sends. -/
def packetOf (t : Tid) (o : Op) (a : Ans o) (w : World hash) : Option Packet :=
  match o, a with
  | .send u msg, true => some ⟨w.serial, t.peer, u, msg⟩
  | _, _ => none

theorem net_effect (t : Tid) (o : Op) (a : Ans o) (w : World hash) :
    (effect t o a w).net = (packetOf t o a w).toList ++ w.net := by
  cases o with
  | send u msg => cases a <;> rfl
  | _ => rfl

theorem requests_effect (t : Tid) (o : Op) (a : Ans o) (w : World hash) :
    (effect t o a w).requests = w.requests := by
  cases o with
  | send u msg => cases a <;> rfl
  | _ => rfl

theorem proxyRing_effect (t : Tid) (o : Op) (a : Ans o) (w : World hash) :
    (effect t o a w).proxyRing = w.proxyRing := by
  cases o with
  | send u msg => cases a <;> rfl
  | _ => rfl

theorem serial_effect (t : Tid) (o : Op) (a : Ans o) (w : World hash) :
    (effect t o a w).serial = w.serial + (packetOf t o a w).toList.length := by
  cases o with
  | send u msg => cases a <;> rfl
  | _ => rfl

/-- The UUIDs that an operation draws. -/
def drawnBy (o : Op) (a : Ans o) : List Uuid :=
  match o, a with
  | .newUuid, u => [u]
  | _, _ => []

theorem drawn_effect (t : Tid) (o : Op) (a : Ans o) (w : World hash) :
    (effect t o a w).drawn = drawnBy o a ++ w.drawn := by
  cases o with
  | send u msg => cases a <;> rfl
  | _ => rfl

/-- The lists that an operation hands to a request in flight with an answer. -/
def answerTo (requestId : String) : Op → Option (List ShoppingList)
  | .ack r => if r = requestId then some [] else none
  | .ackList r l => if r = requestId then some [l] else none
  | _ => none

/-- What happens to a request in flight: it keeps its state, or collects an answer. -/
def Answered (o : Op) (requestId : String) (q q' : QuoromState) : Prop :=
  q'.needed = q.needed ∧
    match answerTo requestId o with
    | none => q'.lists = q.lists ∧ q'.received = q.received
    | some ls => q'.lists = q.lists ++ ls ∧ q'.received = q.received + 1

theorem inFlight_answered (n : Node hash) (r rid : String) (f : QuoromState → QuoromState)
    {q : QuoromState} (h : (n.answered r f).inFlight.find? rid = some q) :
    ∃ q₀, n.inFlight.find? rid = some q₀ ∧
      (r ≠ rid ∧ q = q₀ ∨
        r = rid ∧ q.needed = (f q₀).needed ∧ q.lists = (f q₀).lists ∧
          q.received = (f q₀).received) := by
  unfold Node.answered at h
  by_cases hr : r = rid
  · subst hr
    split at h
    · rename_i hnone
      rw [hnone] at h
      cases h
    · rename_i q₀ hq₀
      refine ⟨q₀, hq₀, Or.inr ⟨rfl, ?_⟩⟩
      dsimp only at h
      split at h <;>
      · rw [FinMap.find?_insert, if_pos rfl] at h
        rw [← Option.some.inj h]
        exact ⟨rfl, rfl, rfl⟩
  · split at h
    · exact ⟨q, h, Or.inl ⟨hr, rfl⟩⟩
    · dsimp only at h
      split at h <;>
      · rw [FinMap.find?_insert_ne _ _ (Ne.symm hr)] at h
        exact ⟨q, h, Or.inl ⟨hr, rfl⟩⟩

theorem inFlight_after {t : Tid} {o : Op} {a : Ans o} {n : Node hash} {rid : String}
    {q : QuoromState} (h : (n.after t o a).inFlight.find? rid = some q) :
    o = .insertInFlight rid q ∨ ∃ q₀, n.inFlight.find? rid = some q₀ ∧ Answered o rid q₀ q := by
  have hsame : answerTo rid o = none → n.inFlight.find? rid = some q →
      ∃ q₀, n.inFlight.find? rid = some q₀ ∧ Answered o rid q₀ q := by
    intro ho h
    refine ⟨q, h, rfl, ?_⟩
    rw [ho]
    exact ⟨rfl, rfl⟩
  cases o with
  | insertInFlight r q' =>
    simp only [Node.after, FinMap.find?_insert] at h
    split at h
    · rename_i hr
      left
      rw [hr, Option.some.inj h]
    · exact Or.inr (hsame rfl h)
  | removeInFlight r =>
    simp only [Node.after, FinMap.find?_erase] at h
    split at h
    · cases h
    · exact Or.inr (hsame rfl h)
  | ack r =>
    obtain ⟨q₀, hq₀, ⟨hr, rfl⟩ | ⟨hr, hn, hl, hrec⟩⟩ := inFlight_answered n r rid _ h
    · exact Or.inr (hsame (if_neg hr) hq₀)
    · refine Or.inr ⟨q₀, hq₀, hn, ?_⟩
      simp only [answerTo, if_pos hr]
      exact ⟨by rw [hl, List.append_nil]; rfl, hrec⟩
  | ackList r l =>
    obtain ⟨q₀, hq₀, ⟨hr, rfl⟩ | ⟨hr, hn, hl, hrec⟩⟩ := inFlight_answered n r rid _ h
    · exact Or.inr (hsame (if_neg hr) hq₀)
    · refine Or.inr ⟨q₀, hq₀, hn, ?_⟩
      simp only [answerTo, if_pos hr]
      exact ⟨hl, hrec⟩
  | writeShoppingList l => cases a <;> exact Or.inr (hsame rfl h)
  | writeShoppingListHandoff l d => cases a <;> exact Or.inr (hsame rfl h)
  | deleteShoppingList id => cases a <;> exact Or.inr (hsame rfl h)
  | _ => exact Or.inr (hsame rfl h)

/-- A channel is sent to when an answer reaches the quorum. -/
theorem fired_after {t : Tid} {o : Op} {a : Ans o} {n : Node hash} {rid : String}
    (h : rid ∈ (n.after t o a).fired) :
    rid ∈ n.fired ∨ ∃ ls q, answerTo rid o = some ls ∧
      (n.after t o a).inFlight.find? rid = some q ∧ q.needed ≤ q.received := by
  have hanswered : ∀ (r : String) (f : QuoromState → QuoromState), rid ∈ (n.answered r f).fired →
      rid ∈ n.fired ∨ r = rid ∧ ∃ q, (n.answered r f).inFlight.find? rid = some q ∧
        q.needed ≤ q.received := by
    intro r f h
    unfold Node.answered at h ⊢
    split at h
    · exact Or.inl h
    · rename_i q₀ hq₀
      dsimp only at h ⊢
      split at h
      · rename_i hreached
        rcases List.mem_cons.1 h with rfl | h
        · refine Or.inr ⟨rfl, { f q₀ with responder := false }, ?_, ?_⟩
          · rw [if_pos hreached, FinMap.find?_insert, if_pos rfl]
          · exact of_decide_eq_true (Bool.and_eq_true_iff.1 hreached).1
        · exact Or.inl h
      · exact Or.inl h
  cases o with
  | ack r =>
    refine (hanswered r _ h).imp_right ?_
    rintro ⟨hr, q, hq, hle⟩
    exact ⟨_, q, if_pos hr, hq, hle⟩
  | ackList r l =>
    refine (hanswered r _ h).imp_right ?_
    rintro ⟨hr, q, hq, hle⟩
    exact ⟨_, q, if_pos hr, hq, hle⟩
  | writeShoppingList l => cases a <;> exact Or.inl h
  | writeShoppingListHandoff l d => cases a <;> exact Or.inl h
  | deleteShoppingList id => cases a <;> exact Or.inl h
  | _ => exact Or.inl h

theorem fired_effect {t : Tid} {o : Op} {a : Ans o} {w : World hash} {u : Uuid} {rid : String}
    (h : rid ∈ ((effect t o a w).node u).fired) :
    rid ∈ (w.node u).fired ∨ ∃ ls q, u = t.peer ∧ answerTo rid o = some ls ∧
      ((effect t o a w).node u).inFlight.find? rid = some q ∧ q.needed ≤ q.received := by
  rw [node_effect] at h ⊢
  split at h
  · rename_i hu
    rw [if_pos hu]
    rcases fired_after h with h | ⟨ls, q, hans, hq, hle⟩
    · exact Or.inl h
    · exact Or.inr ⟨ls, q, hu, hans, hq, hle⟩
  · exact Or.inl h

/-- A channel that has been sent to stays so. -/
theorem fired_stays {t : Tid} {o : Op} {a : Ans o} {w : World hash} {u : Uuid} {rid : String}
    (h : rid ∈ (w.node u).fired) : rid ∈ ((effect t o a w).node u).fired := by
  have hanswered : ∀ (r : String) (f : QuoromState → QuoromState),
      rid ∈ ((w.node u).answered r f).fired := by
    intro r f
    unfold Node.answered
    split
    · exact h
    · dsimp only
      split
      · exact List.mem_cons_of_mem _ h
      · exact h
  rw [node_effect]
  split
  · cases o with
    | ack r => exact hanswered r _
    | ackList r l => exact hanswered r _
    | writeShoppingList l => cases a <;> exact h
    | writeShoppingListHandoff l d => cases a <;> exact h
    | deleteShoppingList id => cases a <;> exact h
    | _ => exact h
  · exact h

/-- `Uuid::new_v4` repeats no id. -/
theorem newUuid_fresh {t : Tid} {c : Choice} {w : World hash} {u : Uuid}
    (ha : answer t .newUuid c w = some u) : u ∉ w.drawn := by
  cases c with
  | uuid v =>
    simp only [answer] at ha
    split at ha
    · cases ha
    · cases ha
      assumption
  | _ => cases ha

/-- A coordinator that finds its request answered has been sent to. -/
theorem fired_of_await {t : Tid} {c : Choice} {w : World hash} {rid : String}
    (ha : answer t (.await rid) c w = some true) : rid ∈ (w.node t.peer).fired := by
  cases c with
  | yes =>
    simp only [answer] at ha
    split at ha
    · assumption
    · cases ha
  | _ => cases ha

/-- A request in flight was just inserted by its own peer, or was in flight before. -/
theorem inFlight_effect {t : Tid} {o : Op} {a : Ans o} {w : World hash} {u : Uuid} {rid : String}
    {q : QuoromState} (h : ((effect t o a w).node u).inFlight.find? rid = some q) :
    u = t.peer ∧ o = .insertInFlight rid q ∨
      ∃ q₀, (w.node u).inFlight.find? rid = some q₀ ∧
        (u = t.peer ∧ Answered o rid q₀ q ∨ u ≠ t.peer ∧ q = q₀) := by
  rw [node_effect] at h
  split at h
  · rename_i hu
    rcases inFlight_after h with ho | ⟨q₀, hq₀, hans⟩
    · exact Or.inl ⟨hu, ho⟩
    · exact Or.inr ⟨q₀, hq₀, Or.inl ⟨hu, hans⟩⟩
  · rename_i hu
    exact Or.inr ⟨q, h, Or.inr ⟨hu, rfl⟩⟩

/-- Nothing that arrives touches a peer. -/
theorem node_arrive {e : Arrival} {w w' : World hash} {r : Option (Tid × Code Unit)}
    (h : arrive e w = some (r, w')) : w'.node = w.node := by
  unfold arrive at h
  cases e with
  | request client msg =>
    simp only at h
    split at h <;> (cases h; rfl)
  | take r =>
    simp only at h
    split at h <;> (cases h; try rfl)
  | deliver p =>
    simp only at h
    split at h <;> (cases h; try rfl)
  | lose p =>
    simp only at h
    split at h <;> (cases h; try rfl)
  | message src dst msg =>
    simp only at h
    split at h <;> (cases h; try rfl)
  | _ => cases h; rfl

/-- What arrives as a packet comes from outside the cluster. -/
theorem net_arrive {e : Arrival} {w w' : World hash} {r : Option (Tid × Code Unit)} {p : Packet}
    (h : arrive e w = some (r, w')) (hp : p ∈ w'.net) :
    p ∈ w.net ∨ ∃ src dst msg, e = .message src dst msg ∧ external msg = true ∧
      p = ⟨w.serial, src, dst, msg⟩ := by
  unfold arrive at h
  cases e with
  | request client msg =>
    simp only at h
    split at h <;> (cases h; exact Or.inl hp)
  | take r =>
    simp only at h
    split at h <;> cases h
    exact Or.inl hp
  | deliver p =>
    simp only at h
    split at h <;> cases h
    exact Or.inl (List.mem_of_mem_erase hp)
  | lose p =>
    simp only at h
    split at h <;> cases h
    exact Or.inl (List.mem_of_mem_erase hp)
  | message src dst msg =>
    simp only at h
    split at h <;> cases h
    rename_i hext
    rcases List.mem_cons.1 hp with rfl | hp
    · exact Or.inr ⟨src, dst, msg, rfl, hext, rfl⟩
    · exact Or.inl hp
  | _ => cases h; exact Or.inl hp

/-- A packet stays on its way until it is delivered or lost. -/
theorem mem_net_arrive {e : Arrival} {w w' : World hash} {r : Option (Tid × Code Unit)} {p : Packet}
    (h : arrive e w = some (r, w')) (hp : p ∈ w.net) :
    p ∈ w'.net ∨ e = .deliver p ∨ e = .lose p := by
  unfold arrive at h
  cases e with
  | request client msg =>
    simp only at h
    split at h <;> (cases h; exact Or.inl hp)
  | take r =>
    simp only at h
    split at h <;> cases h
    exact Or.inl hp
  | deliver q =>
    simp only at h
    split at h <;> cases h
    by_cases hq : p = q
    · exact Or.inr (Or.inl (by rw [hq]))
    · exact Or.inl ((List.mem_erase_of_ne hq).2 hp)
  | lose q =>
    simp only at h
    split at h <;> cases h
    by_cases hq : p = q
    · exact Or.inr (Or.inr (by rw [hq]))
    · exact Or.inl ((List.mem_erase_of_ne hq).2 hp)
  | message src dst msg =>
    simp only at h
    split at h <;> cases h
    exact Or.inl (List.mem_cons_of_mem _ hp)
  | _ => cases h; exact Or.inl hp

theorem serial_arrive {e : Arrival} {w w' : World hash} {r : Option (Tid × Code Unit)}
    (h : arrive e w = some (r, w')) : w.serial ≤ w'.serial := by
  unfold arrive at h
  cases e with
  | request client msg =>
    simp only at h
    split at h <;> cases h
    · exact Nat.le_refl _
    · exact Nat.le_succ _
  | take r =>
    simp only at h
    split at h <;> cases h
    exact Nat.le_refl _
  | deliver q =>
    simp only at h
    split at h <;> cases h
    exact Nat.le_refl _
  | lose q =>
    simp only at h
    split at h <;> cases h
    exact Nat.le_refl _
  | message src dst msg =>
    simp only at h
    split at h <;> cases h
    exact Nat.le_succ _
  | _ => cases h; exact Nat.le_refl _

/-- A new request comes from a client, and the proxy routes it. -/
theorem requests_arrive {e : Arrival} {w w' : World hash} {r : Option (Tid × Code Unit)}
    {q : Request} (h : arrive e w = some (r, w')) (hq : q ∈ w'.requests) :
    q ∈ w.requests ∨ ∃ client msg u, e = .request client msg ∧
      (routed msg).bind (w.proxyRing.getCoordinator hash) = some u ∧
      q = ⟨w.serial, u, client, msg⟩ := by
  unfold arrive at h
  cases e with
  | request client msg =>
    simp only at h
    split at h
    · cases h
      exact Or.inl hq
    · rename_i u hu
      cases h
      rcases List.mem_cons.1 hq with rfl | hq
      · exact Or.inr ⟨client, msg, u, rfl, hu, rfl⟩
      · exact Or.inl hq
  | take r =>
    simp only at h
    split at h <;> cases h
    exact Or.inl (List.mem_of_mem_erase hq)
  | deliver p =>
    simp only at h
    split at h <;> cases h
    exact Or.inl hq
  | lose p =>
    simp only at h
    split at h <;> cases h
    exact Or.inl hq
  | message src dst msg =>
    simp only at h
    split at h <;> cases h
    exact Or.inl hq
  | _ => cases h; exact Or.inl hq

theorem drawn_arrive {e : Arrival} {w w' : World hash} {r : Option (Tid × Code Unit)}
    (h : arrive e w = some (r, w')) : w'.drawn = w.drawn := by
  unfold arrive at h
  cases e with
  | request client msg =>
    simp only at h
    split at h <;> (cases h; rfl)
  | take r =>
    simp only at h
    split at h <;> (cases h; try rfl)
  | deliver p =>
    simp only at h
    split at h <;> (cases h; try rfl)
  | lose p =>
    simp only at h
    split at h <;> (cases h; try rfl)
  | message src dst msg =>
    simp only at h
    split at h <;> (cases h; try rfl)
  | _ => cases h; rfl

/-- Only a server that registers changes the proxy's ring. -/
theorem proxyRing_arrive {e : Arrival} {w w' : World hash} {r : Option (Tid × Code Unit)}
    (h : arrive e w = some (r, w')) (he : ∀ u, e ≠ .ready u) : w'.proxyRing = w.proxyRing := by
  unfold arrive at h
  cases e with
  | ready u => exact absurd rfl (he u)
  | request client msg =>
    simp only at h
    split at h <;> (cases h; rfl)
  | take r =>
    simp only at h
    split at h <;> (cases h; try rfl)
  | deliver p =>
    simp only at h
    split at h <;> (cases h; try rfl)
  | lose p =>
    simp only at h
    split at h <;> (cases h; try rfl)
  | message src dst msg =>
    simp only at h
    split at h <;> (cases h; try rfl)
  | _ => cases h; rfl

theorem mem_requests_of_take {q : Request} {w w' : World hash} {r : Option (Tid × Code Unit)}
    (h : arrive (.take q) w = some (r, w')) : q ∈ w.requests := by
  simp only [arrive] at h
  split at h
  · assumption
  · cases h

theorem mem_net_of_deliver {p : Packet} {w w' : World hash} {r : Option (Tid × Code Unit)}
    (h : arrive (.deliver p) w = some (r, w')) : p ∈ w.net := by
  simp only [arrive] at h
  split at h
  · assumption
  · cases h

/-- A message that has been delivered has been handled by now, or is being handled. -/
theorem executes_of_delivered {D : Discipline (cluster hash)} {w₀ : World hash}
    {evs : List (Event (cluster hash))} {c : Config (cluster hash)}
    (hrun : Run (cluster hash) D (quiet w₀) evs c) {p : Packet} (hp : .arrived (.deliver p) ∈ evs) :
    ∃ tr, Executes evs c.pool (.incoming p.dst p.serial) (handleIncoming p.dst p.src p.msg) tr := by
  refine hrun.executions.2.2 (.deliver p) _ _ hp fun σ r harrive => ?_
  change arrive (.deliver p) σ = some r at harrive
  simp only [arrive] at harrive
  split at harrive
  · cases harrive
    rfl
  · cases harrive

/-! ## What a task alone does -/

section Does

variable {t : Tid} {w w' : World hash} {tr : List (Sigma Ans)} {α : Type} {a : α}

/-- A program that starts with an operation. -/
theorem does_perform {o : Op} {f : Ans o → Code α}
    (h : Prog.Does (cluster hash) t (perform o >>= f) w tr a w') :
    ∃ b tr', (∃ c, answer t o c w = some b) ∧ tr = ⟨o, b⟩ :: tr' ∧
      Prog.Does (cluster hash) t (f b) (effect t o b w) tr' a w' := by
  obtain ⟨c, b, w₁, tr', hact, rfl, hrest⟩ := Prog.does_op h
  obtain ⟨hanswer, rfl⟩ := act_eq hact
  exact ⟨b, tr', ⟨c, hanswer⟩, rfl, hrest⟩

theorem does_return (t : Tid) (a : α) (w : World hash) :
    Prog.Does (cluster hash) t (pure a) w [] a w := Prog.Does.pure (m := cluster hash) a w

theorem does_operation {o : Op} {f : Ans o → Code α} {c : Choice} {b : Ans o} {w₁ : World hash}
    (hact : act t o c w = some (b, w₁)) (h : Prog.Does (cluster hash) t (f b) w₁ tr a w') :
    Prog.Does (cluster hash) t (perform o >>= f) w (⟨o, b⟩ :: tr) a w' :=
  Prog.Does.op (m := cluster hash) hact h

/-- What a guarded block does alone. -/
theorem does_locked {m : Mutex} {body : Code α}
    (h : Prog.Does (cluster hash) t (locked m body) w tr a w') :
    ∃ tr' w₁, tr = ⟨.lock m, ()⟩ :: (tr' ++ [⟨.unlock m, ()⟩]) ∧
      Prog.Does (cluster hash) t body (effect t (.lock m) () w) tr' a w₁ ∧
      w' = effect t (.unlock m) () w₁ := by
  obtain ⟨_, tr₁, -, rfl, hrest⟩ := does_perform h
  obtain ⟨tr', b, w₁, tr₂, rfl, hbody, hlast⟩ := Prog.does_bind hrest
  obtain ⟨_, tr₃, -, rfl, hend⟩ := does_perform hlast
  obtain ⟨rfl, rfl, rfl⟩ := Prog.does_pure hend
  exact ⟨tr', w₁, rfl, hbody, rfl⟩

end Does

/-! ## Histories -/

variable (hash) in
/-- What has happened in a cluster, the newest event first. -/
abbrev History := List (Event (cluster hash))

/-- The list that a peer stores in a step by `write_shopping_list`: for a `ReplicateList`, a
`MergeList`, or as a coordinator. -/
def stored (peer : Uuid) : Event (cluster hash) → Option ShoppingList
  | .did t (.writeShoppingList l) (some _) => if t.peer = peer then some l else none
  | _ => none

/-- The list and the destination that a peer stores in a step as a hint. -/
def hinted (peer : Uuid) : Event (cluster hash) → Option (ShoppingList × Uuid)
  | .did t (.writeShoppingListHandoff l d) (some _) => if t.peer = peer then some (l, d) else none
  | _ => none

/-- The hint that a round of hinted handoff of a peer sends in a step, and to whom. -/
def deliveredHint (peer : Uuid) : Event (cluster hash) → Option (Uuid × ShoppingList)
  | .did (.hintedHandoff u) (.send d (.replicateList _ l true)) true =>
    if u = peer then some (d, l) else none
  | _ => none

end Sdle
