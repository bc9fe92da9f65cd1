import Sdle.Lib.Tasks
import Sdle.HashRing
import Sdle.Message

/-!
# The code of a peer (`server.rs`)

Every handler and background loop of `Peer` as a program over the operations of `Peer.Op`.  A mutex
guard is a `lock` and the `unlock` where the guard is dropped.  What a guard protects is read or
written by operations between the two.  The operations that touch the outside (sockets, timers,
random numbers, SQLite errors) are answered by the environment; `none` or `false` is the `Err`.

The text of an error is only printed, so that `Err` carries nothing.  A program that panics stops
at the operation `stop`, which is never answered, with its guards: a poisoned mutex is one that
nobody gets again.
-/

set_option autoImplicit false

namespace Sdle

open Tasks

def MAX_RETRIES : ℕ := 3

namespace Peer

/-- The mutexes of a `Peer`. -/
inductive Mutex where
  | storage
  | router
  | proxyDealer
  | membership
  | hashring
  | failure
  | inFlight
  deriving DecidableEq

/-- What the code of a peer does to its own state and to the outside. -/
inductive Op where
  | lock (m : Mutex)
  | unlock (m : Mutex)
  -- storage
  | getShoppingList (id : Uuid)
  | writeShoppingList (list : ShoppingList)
  | writeShoppingListHandoff (list : ShoppingList) (serverId : Uuid)
  | getHintedHandoffs
  | getOldData (nodeId : Uuid) (prevNodeHash : U128)
  | getAllRows
  | deleteShoppingList (id : Uuid)
  -- membership, hashring, failure
  | membership
  | membershipInsert (uuid : Uuid) (addr : String)
  | hashring
  | addNode (uuid : Uuid)
  | removeNode (uuid : Uuid)
  | failure
  | markFailure (uuid : Uuid)
  | clearFailure (uuid : Uuid)
  -- in_flight
  | insertInFlight (requestId : String) (state : QuoromState)
  | removeInFlight (requestId : String)
  | ack (requestId : String)
  | ackList (requestId : String) (list : ShoppingList)
  -- sockets
  | socket
  | sendEmpty (uuid : Uuid)
  | send (uuid : Uuid) (msg : Msg)
  | disconnect (uuid : Uuid)
  | sendProxy (clientId : ClientId) (msg : Msg)
  -- random numbers, timers, loops
  | newUuid
  | choose (peers : List Uuid)
  | await (requestId : String)
  | turns
  | stop

/-- The answers. -/
abbrev Ans : Op → Type
  | .getShoppingList _ => Option (Option ShoppingList)
  | .writeShoppingList _ => Option Unit
  | .writeShoppingListHandoff _ _ => Option Unit
  | .getHintedHandoffs => Option (List (Uuid × ShoppingList))
  | .getOldData _ _ => Option (List ShoppingList)
  | .getAllRows => Option (List (U128 × ShoppingList))
  | .deleteShoppingList _ => Option Unit
  | .membership => MembershipTable
  | .hashring => HashRing
  | .failure => FailureTable
  | .removeInFlight _ => Option QuoromState
  | .socket => Bool
  | .sendEmpty _ => Bool
  | .send _ _ => Bool
  | .disconnect _ => Bool
  | .sendProxy _ _ => Bool
  | .newUuid => Uuid
  | .choose _ => Option Uuid
  | .await _ => Bool
  | .turns => ℕ
  | .stop => Empty
  | _ => Unit

/-- The signature of a peer's programs. -/
abbrev PeerSig : Sig := ⟨Op, Ans⟩

/-- A program of a peer. -/
abbrev Code := Prog PeerSig

/-- One operation. -/
def perform (o : Op) : Code (Ans o) := @Prog.perform PeerSig o

/-- A block that holds a guard. -/
def locked {α : Type} (m : Mutex) (body : Code α) : Code α := do
  perform (.lock m)
  let a ← body
  perform (.unlock m)
  pure a

variable (hash : String → U128) (self : Uuid)

/-! ## Failure detection -/

/-- `Peer::mark_peer_failed`. -/
def markPeerFailed (uuid : Uuid) : Code Unit :=
  locked .failure (perform (.markFailure uuid))

/-- `Peer::clear_peer_failure`. -/
def clearPeerFailure (uuid : Uuid) : Code Unit :=
  locked .failure do
    let table ← perform .failure
    if (table.find? uuid).isSome then perform (.clearFailure uuid) else pure ()

/-- `Peer::is_peer_available`. -/
def isPeerAvailable (uuid : Uuid) : Code Bool := do
  let table ← locked .membership (perform .membership)
  if (table.find? uuid).isSome then
    locked .failure do
      let failureTable ← perform .failure
      pure (FailureTable.isAvailable failureTable uuid)
  else pure false

/-! ## Network -/

/-- `Peer::connect_to_peer`: is there a socket? -/
def connectToPeer (uuid : Uuid) : Code Bool := do
  let table ← locked .membership (perform .membership)
  match table.find? uuid with
  | none => pure false
  | some _ => perform .socket

/-- `Peer::close_conn`. -/
def closeConn (uuid : Uuid) : Code Bool := do
  let table ← locked .membership (perform .membership)
  match table.find? uuid with
  | none => pure false
  | some _ => perform (.disconnect uuid)

/-- `Peer::send_to`. -/
def sendTo (uuid : Uuid) (msg : Msg) : Code Bool := do
  if ← connectToPeer uuid then
    if ← perform (.sendEmpty uuid) then
      if ← perform (.send uuid msg) then
        -- success! clear any previous failures
        clearPeerFailure uuid
        -- the message is out, but an error of `close_conn` is still returned
        closeConn uuid
      else
        markPeerFailed uuid
        let _ ← closeConn uuid
        pure false
    else
      markPeerFailed uuid
      pure false
  else
    markPeerFailed uuid
    pure false

/-- `Peer::send_to_proxy`. -/
def sendToProxy (clientId : ClientId) (msg : Msg) : Code Bool :=
  locked .proxyDealer (perform (.sendProxy clientId msg))

/-- `Peer::send_gossip`. -/
def sendGossip : Code Unit := do
  let table ← locked .membership (perform .membership)
  let peers ← locked .membership (perform .membership)
  match ← perform (.choose peers.keys) with
  | none => pure ()
  | some p =>
    if p = self then pure ()  -- only other peers
    else let _ ← sendTo p (.gossip table)

/-- `Peer::send_gossip_to`. -/
def sendGossipTo (uuid : Uuid) : Code Unit := do
  let table ← locked .membership (perform .membership)
  if (table.find? uuid).isSome then
    let tableSnapshot ← locked .membership (perform .membership)
    let _ ← sendTo uuid (.gossip tableSnapshot)
  else pure ()

/-! ## Leaving -/

/-- The retry loop of `Peer::leave`, with `n` attempts left. -/
def sendRetrying (uuid : Uuid) (msg : Msg) : ℕ → Code Unit
  | 0 => pure ()
  | n + 1 => do
    if ← sendTo uuid msg then pure () else sendRetrying uuid msg n

/-- The loop of `Peer::leave` over the rows. -/
def leaveRows : List (U128 × ShoppingList) → Code Unit
  | [] => pure ()
  | (h, list) :: rows => do
    let hashring ← perform .hashring
    match (hashring.getPreferenceListHash h).head? with
    | none => leaveRows rows
    | some id => do
      sendRetrying id (.replicateList "" list true) MAX_RETRIES
      leaveRows rows

/-- `Peer::leave`. -/
def leave : Code Unit :=
  locked .hashring do
    perform (.removeNode self)
    locked .storage do
      match ← perform .getAllRows with
      | none => pure ()
      | some rows => leaveRows rows

/-! ## Utilities -/

/-- The loop of `Peer::add_nodes`. -/
def addEach : List Uuid → Code Unit
  | [] => pure ()
  | n :: nodes => do
    perform (.addNode n)
    addEach nodes

/-- `Peer::add_nodes`. -/
def addNodes (nodes : List Uuid) : Code Unit := locked .hashring (addEach nodes)

/-- `Peer::get_replicas`. -/
def getReplicas (listId : Uuid) : Code (List Uuid) :=
  locked .hashring do
    let hashring ← perform .hashring
    -- skip 'ourselves'
    pure ((hashring.getPreferenceList hash listId).drop 1)

/-- The loop of `Peer::get_next_available_node`, for as many turns as the run has room for. -/
def nextAvailable (start : Uuid) : ℕ → Uuid → Code (Option Uuid)
  | 0, _ => do
    let e ← perform .stop
    nomatch e
  | n + 1, current => do
    let next ← locked .hashring do
      let ring ← perform .hashring
      match ring.nextNode current with
      | none => do
        -- the overflow panic
        let e ← perform .stop
        nomatch e
      | some next => pure next
    match next with
    | none => pure none
    | some next => do
      if ← isPeerAvailable next then pure (some next)
      else if next = start then pure none
      else nextAvailable start n next

/-- `Peer::get_next_available_node`. -/
def getNextAvailableNode (start : Uuid) : Code (Option Uuid) := do
  let n ← perform .turns
  nextAvailable start n start

/-! ## Replication -/

/-- The loop of `Peer::send_replicate` over the replicas. -/
def replicateTo (requestId : String) (shoppingList : ShoppingList) (write : Bool) (last : Uuid) :
    List Uuid → Code Unit
  | [] => pure ()
  | replica :: replicas => do
    if ← sendTo replica (.replicateList requestId shoppingList write) then
      replicateTo requestId shoppingList write last replicas
    else
      match ← getNextAvailableNode last with
      | none => pure ()  -- no fallback node: quorum will fail
      | some next => do
        let _ ← sendTo next (.handoff requestId shoppingList replica)
        replicateTo requestId shoppingList write last replicas

/-- `Peer::send_replicate`. -/
def sendReplicate (shoppingList : ShoppingList) (replicas : List Uuid) (write : Bool) :
    Code Bool := do
  let requestId := Uuid.toString (← perform .newUuid)
  locked .inFlight (perform (.insertInFlight requestId
    { needed := if write then WRITE_NODES else READ_NODES
      received := 0
      responder := true
      lists := [shoppingList] }))
  match replicas.getLast? with
  | none => do
    let e ← perform .stop
    nomatch e
  | some last => do
    replicateTo requestId shoppingList write last replicas
    let result ← perform (.await requestId)
    let _ ← locked .inFlight (perform (.removeInFlight requestId))
    pure result

/-- `Peer::send_write_replicate`. -/
def sendWriteReplicate (shoppingList : ShoppingList) (replicas : List Uuid) : Code Bool :=
  sendReplicate shoppingList replicas true

/-- Send one message to several peers and ignore the errors. -/
def sendEach (msg : Msg) : List Uuid → Code Unit
  | [] => pure ()
  | u :: us => do
    let _ ← sendTo u msg
    sendEach msg us

/-- `Peer::send_read_replicate`. -/
def sendReadReplicate (shoppingList : ShoppingList) (replicas : List Uuid) :
    Code (Option ShoppingList) := do
  let requestId := Uuid.toString (← perform .newUuid)
  locked .inFlight (perform (.insertInFlight requestId
    { needed := READ_NODES
      received := 0
      responder := true
      lists := [shoppingList] }))
  sendEach (.replicateList requestId shoppingList false) replicas
  let result ← perform (.await requestId)
  let quoromState ← locked .inFlight (perform (.removeInFlight requestId))
  if result then pure (quoromState.bind QuoromState.mergeLists) else pure none

/-! ## Handling messages -/

/-- `Peer::handle_incoming_put`. -/
def handleIncomingPut (clientId : ClientId) (list : ShoppingList) : Code Unit := do
  let replicas ← getReplicas hash list.id
  if replicas.isEmpty then pure ()
  else if ← sendWriteReplicate list replicas then
    -- only store if we get replicas to store
    locked .storage do
      match ← perform (.writeShoppingList list) with
      | none => pure ()
      | some _ => do
        let _ ← sendToProxy clientId (.ackList "" list)
  else
    let _ ← sendToProxy clientId (.nack "")

/-- The arm of `handle_incoming_proxy` for a `GetList` whose list is stored here. -/
def readList (clientId : ClientId) (list l : ShoppingList) : Code Unit := do
  let replicas ← getReplicas hash list.id
  if replicas.isEmpty then pure ()
  else
    match ← sendReadReplicate list replicas with
    | some s => do
      let l := { l with list := l.list.merge s.list }
      match ← locked .storage (perform (.writeShoppingList l)) with
      | none => pure ()
      | some _ => do
        let _ ← sendToProxy clientId (.ackList "" l)
    | none => do
      let _ ← sendToProxy clientId (.nack "")

/-- `Peer::handle_incoming_proxy`. -/
def handleIncomingProxy (clientId : ClientId) (msg : Msg) : Code Unit :=
  match msg with
  | .getList list => do
    match ← locked .storage (perform (.getShoppingList list.id)) with
    | none => pure ()
    -- if not stored write it
    | some none => handleIncomingPut hash clientId list
    | some (some l) => readList hash clientId list l
  | .putList list => handleIncomingPut hash clientId list
  | _ => pure ()

/-- The inner loop of the `Gossip` arm: hand the old lists over to a new predecessor. -/
def sendOldLists (u : Uuid) : List ShoppingList → Code Unit
  | [] => pure ()
  | l :: ls => do
    let _ ← sendTo u (.replicateList "" l true)
    sendOldLists u ls

/-- The outer loop of the `Gossip` arm over the new entries. -/
def addEntries (predecessors : List Uuid) : List (Sigma fun _ : Uuid => String) → Code Unit
  | [] => pure ()
  | ⟨u, addr⟩ :: entries => do
    perform (.membershipInsert u addr)
    if u ∈ predecessors then
      let hashring ← locked .hashring (perform .hashring)
      match hashring.prevNodeHash self with
      | none => addEntries predecessors entries
      | some h => do
        match ← locked .storage (perform (.getOldData self h)) with
        | none => pure ()
        | some oldLists => do
          sendOldLists u oldLists
          addEntries predecessors entries
    else addEntries predecessors entries

/-- The `Gossip` arm of `handle_incoming`. -/
def handleGossip (table : MembershipTable) : Code Unit := do
  addNodes table.keys
  locked .membership do
    let membership ← perform .membership
    let newEntries := table.entries.filter fun e => (membership.find? e.1).isNone
    let hashring ← locked .hashring (perform .hashring)
    addEntries self (hashring.getPredecessors self) newEntries

/-- The `MergeList` arm of `handle_incoming`. -/
def handleMergeList (list : ShoppingList) : Code Unit :=
  locked .storage do
    match ← perform (.getShoppingList list.id) with
    | none => pure ()
    | some (some existing) => do
      let _ ← perform (.writeShoppingList { existing with list := existing.list.merge list.list })
    | some none => do
      -- no existing list, just store it
      let _ ← perform (.writeShoppingList list)

/-- `Peer::handle_incoming`. -/
def handleIncoming (identity : Uuid) (msg : Msg) : Code Unit :=
  match msg with
  | .leave => leave self
  | .gossip table => handleGossip self table
  | .hello uuid addr => do
    locked .membership (perform (.membershipInsert uuid addr))
    -- send gossip to new node
    sendGossipTo uuid
    -- send random gossip immediately
    sendGossip self
  | .replicateList id list true => do
    match ← locked .storage (perform (.writeShoppingList list)) with
    | some _ => let _ ← sendTo identity (.ack id)
    | none => pure ()
  | .replicateList id list false => do
    match ← locked .storage (perform (.getShoppingList list.id)) with
    | some (some l) => let _ ← sendTo identity (.ackList id l)
    | some none => pure ()
    | none => pure ()
  | .ack requestId => locked .inFlight (perform (.ack requestId))
  | .ackList requestId list => locked .inFlight (perform (.ackList requestId list))
  | .handoff requestId list originalNode => do
    -- just to be sure
    let _ ← locked .storage (perform (.writeShoppingListHandoff list originalNode))
    let _ ← sendTo identity (.ack requestId)
  | .mergeList list => handleMergeList list
  | .listResponse _ => pure ()
  | _ => pure ()

/-! ## Background loops -/

/-- The loop of `hinted_handoff` over the hints. -/
def deliverHints : List (Uuid × ShoppingList) → Code Unit
  | [] => pure ()
  | (dest, list) :: handoffs => do
    let id := Uuid.toString (← perform .newUuid)
    if ← sendTo dest (.replicateList id list true) then
      let _ ← locked .storage (perform (.deleteShoppingList list.id))
      deliverHints handoffs
    else deliverHints handoffs

/-- One round of `Peer::hinted_handoff`. -/
def hintedHandoff : Code Unit := do
  match ← locked .storage (perform .getHintedHandoffs) with
  | none => pure ()
  | some handoffs => deliverHints handoffs

/-- One round of `Peer::failure_detection`. -/
def failureDetection : Code Unit :=
  locked .failure do
    let table ← perform .failure
    sendEach .ping table.keys

end Peer

end Sdle
