import Sdle.Peer

/-!
# The operations of a peer's programs

Which operations sending and replicating perform, whatever they are answered, and the traces of a
guarded block.

* `Routine` — the operations of sending and replicating: none of them touches the storage, the
  membership table or the ring, or answers a client.
* `Network` — those that touch no request in flight either: `network_sendTo`, `network_replicateTo`.
* `only_sendTo`, `only_sendReplicate`, `only_sendReadReplicate` — that they perform no others.
-/

set_option autoImplicit false

namespace Sdle

open Tasks Peer

variable {hash : String → U128}

deriving instance DecidableEq for Peer.Op

/-- What a program did, with the answers it got. -/
abbrev Trace := List (Sigma Peer.Ans)

/-- The operations of sending and replicating. -/
def Routine : Op → Prop
  | .getShoppingList _ => False
  | .writeShoppingList _ => False
  | .writeShoppingListHandoff _ _ => False
  | .getHintedHandoffs => False
  | .getOldData _ _ => False
  | .getAllRows => False
  | .deleteShoppingList _ => False
  | .membershipInsert _ _ => False
  | .addNode _ => False
  | .removeNode _ => False
  | .sendProxy _ _ => False
  | _ => True

section Only

variable {α β : Type}

theorem only_pure {fine : Op → Prop} (a : α) : Prog.Only (S := PeerSig) fine (pure a) := trivial

theorem only_perform {fine : Op → Prop} {o : Op} (ho : fine o) : (perform o).Only fine :=
  ⟨ho, fun _ => trivial⟩

theorem only_locked {fine : Op → Prop} {m : Mutex} {body : Code α} (hlock : fine (.lock m))
    (hunlock : fine (.unlock m)) (h : body.Only fine) : (locked m body).Only fine := by
  refine ⟨hlock, fun _ => ?_⟩
  change (body >>= fun a => perform (.unlock m) >>= fun _ => pure a).Only fine
  exact Prog.only_bind h fun a => ⟨hunlock, fun _ => only_pure a⟩

theorem only_ite {fine : Op → Prop} {c : Prop} [Decidable c] {p q : Code α} (hp : p.Only fine)
    (hq : q.Only fine) : (if c then p else q : Code α).Only fine := by
  split
  · exact hp
  · exact hq

/-- The operations of sending to other peers: they neither draw an id nor touch the requests in
flight. -/
def Network : Op → Prop
  | .lock _ | .unlock _ => True
  | .membership | .hashring | .failure => True
  | .markFailure _ | .clearFailure _ => True
  | .socket | .sendEmpty _ | .send _ _ | .disconnect _ => True
  | .turns | .stop => True
  | _ => False

theorem Network.routine {o : Op} (h : Network o) : Routine o := by
  cases o <;> trivial

theorem only_read {m : Mutex} {o : Op} (ho : Routine o) :
    (locked m (perform o)).Only Routine := only_locked trivial trivial (only_perform ho)

/-- What `send_to` does: it is routine, and it sends nothing but its message. -/
def Sends (u : Uuid) (msg : Msg) (o : Op) : Prop :=
  Routine o ∧ ∀ v m, o = .send v m → v = u ∧ m = msg

/-- The operations of `send_to`. -/
def Transmits (u : Uuid) (msg : Msg) (o : Op) : Prop :=
  Network o ∧ ∀ v m, o = .send v m → v = u ∧ m = msg

theorem transmits_send (u : Uuid) (msg : Msg) : Transmits u msg (.send u msg) := by
  refine ⟨trivial, fun v m h => ?_⟩
  cases h
  exact ⟨rfl, rfl⟩

theorem Network.transmits {u : Uuid} {msg : Msg} {o : Op} (ho : Network o)
    (hne : ∀ v m, o ≠ .send v m) : Transmits u msg o :=
  ⟨ho, fun v m h => absurd h (hne v m)⟩

section SendTo

variable {u : Uuid} {msg : Msg}

theorem transmits_read {m : Mutex} {o : Op} (ho : Network o) (hne : ∀ v m, o ≠ .send v m) :
    (locked m (perform o)).Only (Transmits u msg) :=
  only_locked (Network.transmits trivial nofun) (Network.transmits trivial nofun)
    (only_perform (ho.transmits hne))

theorem transmits_closeConn : (closeConn u).Only (Transmits u msg) := by
  refine Prog.only_bind (transmits_read trivial nofun) fun table => ?_
  split
  · exact only_pure _
  · exact only_perform (Network.transmits trivial nofun)

theorem transmits_sendTo (u : Uuid) (msg : Msg) : (sendTo u msg).Only (Transmits u msg) := by
  have hmark : (markPeerFailed u).Only (Transmits u msg) := transmits_read trivial nofun
  have hfailed : (markPeerFailed u >>= fun _ => (pure false : Code Bool)).Only (Transmits u msg) :=
    Prog.only_bind hmark fun _ => only_pure _
  refine Prog.only_bind (p := connectToPeer u) ?_ fun connected => only_ite ?_ hfailed
  · refine Prog.only_bind (transmits_read trivial nofun) fun table => ?_
    split
    · exact only_pure _
    · exact only_perform (Network.transmits trivial nofun)
  refine Prog.only_bind (only_perform (Network.transmits trivial nofun)) fun _ => only_ite ?_ hfailed
  refine Prog.only_bind (only_perform (transmits_send u msg)) fun _ => only_ite ?_ ?_
  · refine Prog.only_bind (p := clearPeerFailure u) ?_ fun _ => transmits_closeConn
    refine only_locked (Network.transmits trivial nofun) (Network.transmits trivial nofun) ?_
    exact Prog.only_bind (only_perform (Network.transmits trivial nofun)) fun _ =>
      only_ite (only_perform (Network.transmits trivial nofun)) (only_pure _)
  · exact Prog.only_bind hmark fun _ => Prog.only_bind transmits_closeConn fun _ => only_pure _

theorem sends_sendTo (u : Uuid) (msg : Msg) : (sendTo u msg).Only (Sends u msg) :=
  (transmits_sendTo u msg).mono fun _ h => ⟨h.1.routine, h.2⟩

end SendTo

/-! ### Replicating -/

theorem network_sendTo (u : Uuid) (m : Msg) : (sendTo u m).Only Network :=
  (transmits_sendTo u m).mono fun _ h => h.1

theorem network_sendEach (m : Msg) : ∀ us : List Uuid, (sendEach m us).Only Network
  | [] => only_pure _
  | u :: us => Prog.only_bind (network_sendTo u m) fun _ => network_sendEach m us

theorem network_nextAvailable (start : Uuid) :
    ∀ (n : ℕ) (current : Uuid), (nextAvailable start n current).Only Network
  | 0, _ => ⟨trivial, fun a => a.elim⟩
  | n + 1, current => by
    refine Prog.only_bind (only_locked trivial trivial (Prog.only_bind (only_perform trivial) fun ring => ?_))
      fun next => ?_
    · split
      · exact ⟨trivial, fun a => a.elim⟩
      · exact only_pure _
    · split
      · exact only_pure _
      · refine Prog.only_bind (p := isPeerAvailable _) ?_ fun _ => only_ite (only_pure _)
          (only_ite (only_pure _) (network_nextAvailable start n _))
        refine Prog.only_bind (only_locked trivial trivial (only_perform trivial)) fun _ =>
          only_ite ?_ (only_pure _)
        exact only_locked trivial trivial (Prog.only_bind (only_perform trivial) fun _ => only_pure _)

theorem network_replicateTo (rid : String) (l : ShoppingList) (write : Bool) (last : Uuid) :
    ∀ replicas : List Uuid, (replicateTo rid l write last replicas).Only Network
  | [] => only_pure _
  | r :: rs => by
    refine Prog.only_bind (network_sendTo _ _) fun _ =>
      only_ite (network_replicateTo rid l write last rs) ?_
    refine Prog.only_bind (p := getNextAvailableNode last) ?_ fun next => ?_
    · exact Prog.only_bind (only_perform trivial) fun n => network_nextAvailable last n last
    split
    · exact only_pure _
    · exact Prog.only_bind (network_sendTo _ _) fun _ => network_replicateTo rid l write last rs

theorem only_sendTo (u : Uuid) (m : Msg) : (sendTo u m).Only Routine :=
  (network_sendTo u m).mono fun _ => Network.routine

theorem only_sendEach (m : Msg) (us : List Uuid) : (sendEach m us).Only Routine :=
  (network_sendEach m us).mono fun _ => Network.routine

theorem only_nextAvailable (start : Uuid) (n : ℕ) (current : Uuid) :
    (nextAvailable start n current).Only Routine :=
  (network_nextAvailable start n current).mono fun _ => Network.routine

theorem only_replicateTo (rid : String) (l : ShoppingList) (write : Bool) (last : Uuid)
    (replicas : List Uuid) : (replicateTo rid l write last replicas).Only Routine :=
  (network_replicateTo rid l write last replicas).mono fun _ => Network.routine

theorem only_sendReplicate (l : ShoppingList) (replicas : List Uuid) (write : Bool) :
    (sendReplicate l replicas write).Only Routine := by
  refine Prog.only_bind (only_perform trivial) fun u => ?_
  refine Prog.only_bind (only_read trivial) fun _ => ?_
  split
  · exact ⟨trivial, fun a => a.elim⟩
  · refine Prog.only_bind (only_replicateTo _ _ _ _ _) fun _ => ?_
    refine Prog.only_bind (only_perform trivial) fun _ => ?_
    exact Prog.only_bind (only_read trivial) fun _ => only_pure _

theorem only_sendReadReplicate (l : ShoppingList) (replicas : List Uuid) :
    (sendReadReplicate l replicas).Only Routine := by
  refine Prog.only_bind (only_perform trivial) fun u => ?_
  refine Prog.only_bind (only_read trivial) fun _ => ?_
  refine Prog.only_bind (only_sendEach _ _) fun _ => ?_
  refine Prog.only_bind (only_perform trivial) fun _ => ?_
  refine Prog.only_bind (only_read trivial) fun _ => ?_
  exact only_ite (only_pure _) (only_pure _)

end Only

/-! ## Traces of guarded blocks -/

section Ends

variable {α : Type}

theorem ends_perform {o : Op} {tr : Trace} {a : Ans o} (h : (perform o).Ends tr a) :
    tr = [⟨o, a⟩] := by
  obtain ⟨a', tr', rfl, hrest⟩ := Prog.ends_op h
  obtain ⟨rfl, rfl⟩ := Prog.ends_pure hrest
  rfl

theorem ends_locked {m : Mutex} {body : Code α} {tr : Trace} {a : α}
    (h : (locked m body).Ends tr a) :
    ∃ tr', tr = ⟨.lock m, ()⟩ :: (tr' ++ [⟨.unlock m, ()⟩]) ∧ body.Ends tr' a := by
  obtain ⟨_, tr₁, rfl, hrest⟩ := Prog.ends_op h
  change (body >>= fun a => perform (.unlock m) >>= fun _ => pure a).Ends tr₁ a at hrest
  obtain ⟨tr', b, tr₂, rfl, hbody, hlast⟩ := Prog.ends_bind hrest
  obtain ⟨_, tr₃, rfl, hend⟩ := Prog.ends_op hlast
  obtain ⟨rfl, rfl⟩ := Prog.ends_pure hend
  exact ⟨tr', rfl, hbody⟩

theorem ends_read {m : Mutex} {o : Op} {tr : Trace} {a : Ans o}
    (h : (locked m (perform o)).Ends tr a) : tr = [⟨.lock m, ()⟩, ⟨o, a⟩, ⟨.unlock m, ()⟩] := by
  obtain ⟨tr', rfl, hbody⟩ := ends_locked h
  rw [ends_perform hbody]
  rfl

/-- What is done to read the replicas. -/
def readsRing (ring : HashRing) : Trace :=
  [⟨.lock .hashring, ()⟩, ⟨.hashring, ring⟩, ⟨.unlock .hashring, ()⟩]

theorem ends_getReplicas {id : Uuid} {tr : Trace} {replicas : List Uuid}
    (h : (getReplicas hash id).Ends tr replicas) :
    ∃ ring : HashRing, tr = readsRing ring ∧
      replicas = (ring.getPreferenceList hash id).drop 1 := by
  obtain ⟨tr', rfl, hbody⟩ := ends_locked h
  obtain ⟨ring, tr₁, rfl, hend⟩ := Prog.ends_op hbody
  obtain ⟨rfl, rfl⟩ := Prog.ends_pure hend
  exact ⟨ring, rfl, rfl⟩

end Ends

end Sdle
