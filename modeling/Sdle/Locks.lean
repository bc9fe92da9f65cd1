import Sdle.Cluster
import Mathlib.Data.Finset.Insert

/-!
# Which handlers request a mutex they already hold

A task that requests a mutex it holds itself waits for ever.  `guards` follows the set of held
mutexes along a program, whatever its operations are answered; `Balanced` programs never request a
held mutex and give back exactly what they take.

* `nested_sendTo` — sending takes `membership` and `failure`, so that it is fine under every other
  guard and deadlocks under one of these two (`not_wp_sendTo_of_failure`).
* `no_relock_iff` — **which executions deadlock on themselves**: the rounds of failure detection
  with a failure table that is not empty, and the handling of a `Gossip` that brings a new
  predecessor while there are old lists to hand over to it.  No other handler or loop does, in any
  state.
-/

set_option autoImplicit false

namespace Sdle

open Tasks Peer

variable {hash : String → U128}

/-! ## Held mutexes -/

/-- The mutexes that a program holds. -/
def guards : Monitor PeerSig Tid (Finset Mutex) where
  allow _ held o :=
    match o with
    | .lock m => m ∉ held
    | _ => True
  expect _ _ _ _ := True
  next _ held o _ :=
    match o with
    | .lock m => insert m held
    | .unlock m => held.erase m
    | _ => held

/-- The program never requests a mutex it holds, and ends with those it started with. -/
def Balanced {α : Type} (held : Finset Mutex) (p : Code α) : Prop :=
  ∀ t, p.Obeys guards t (fun _ held' => held' = held) held

/-! ## Nested mutexes -/

/-- The mutexes that a program holds, where `ok` says which may be requested under which.  A request
for a mutex that is held is never granted. -/
def nesting (ok : Finset Mutex → Mutex → Prop) : Monitor PeerSig Tid (Finset Mutex) where
  allow _ held o :=
    match o with
    | .lock m => ok held m
    | .unlock m => m ∈ held
    | _ => True
  expect _ held o _ :=
    match o with
    | .lock m => m ∉ held
    | _ => True
  next := guards.next

/-- The program requests mutexes as `ok` says, and ends with those it started with. -/
def Nested {α : Type} (ok : Finset Mutex → Mutex → Prop) (held : Finset Mutex) (p : Code α) : Prop :=
  ∀ t, p.Obeys (nesting ok) t (fun _ held' => held' = held) held

section Nested

variable {α β : Type} {ok : Finset Mutex → Mutex → Prop} {held : Finset Mutex}

theorem nested_pure (a : α) : Nested ok held (pure a : Code α) := fun _ => rfl

theorem nested_bind {p : Code α} {f : α → Code β} (hp : Nested ok held p)
    (hf : ∀ a, Nested ok held (f a)) : Nested ok held (p >>= f) := by
  intro t
  refine Prog.Obeys.call (hp t) ?_
  rintro a _ rfl
  exact hf a t

theorem nested_locked {m : Mutex} {body : Code α} (hm : ok held m)
    (hbody : m ∉ held → Nested ok (insert m held) body) : Nested ok held (locked m body) := by
  intro t
  refine ⟨hm, fun _ hfree => ?_⟩
  change Prog.Obeys (nesting ok) t _ (body >>= fun a => perform (.unlock m) >>= fun _ => pure a) _
  refine Prog.Obeys.call (hbody hfree t) ?_
  rintro a _ rfl
  exact ⟨Finset.mem_insert_self _ _, fun _ _ => Finset.erase_insert hfree⟩

/-- Nothing comes after the request for a mutex that is held. -/
theorem nested_blocked {m : Mutex} {k : Unit → Code α} (hm : ok held m) (hheld : m ∈ held) :
    Nested ok held (.op (.lock m) k) :=
  fun _ => ⟨hm, fun _ hfree => absurd hheld hfree⟩

/-- Programs that request no mutex they hold are balanced. -/
theorem balanced_of_nested (hok : ∀ held m, ok held m → m ∉ held) {p : Code α}
    (hp : Nested ok held p) : Balanced held p := by
  have key : ∀ (p : Code α) (g : Finset Mutex) (t : Tid) (Q : α → Finset Mutex → Prop),
      p.Obeys (nesting ok) t Q g → p.Obeys guards t Q g := by
    intro p
    induction p with
    | pure a => exact fun g t Q h => h
    | op o k ih =>
      rintro g t Q ⟨hallow, hk⟩
      cases o with
      | lock m => exact ⟨hok g m hallow, fun a _ => ih a _ t Q (hk a (hok g m hallow))⟩
      | _ => exact ⟨trivial, fun a _ => ih a _ t Q (hk a trivial)⟩
  exact fun t => key p held t _ (hp t)

/-- An operation that neither takes nor drops a guard. -/
def Plain : Op → Prop
  | .lock _ => False
  | .unlock _ => False
  | _ => True

theorem nested_perform {o : Op} (ho : Plain o) : Nested ok held (perform o) := by
  intro t
  cases o <;> first | exact ho.elim | exact ⟨trivial, fun _ _ => rfl⟩

theorem nested_stop {f : Empty → Code α} : Nested ok held (perform .stop >>= f) :=
  fun _ => ⟨trivial, fun a _ => a.elim⟩

theorem nested_ite {c : Prop} [Decidable c] {p q : Code α} (hp : Nested ok held p)
    (hq : Nested ok held q) : Nested ok held (if c then p else q) := by
  split
  · exact hp
  · exact hq

/-! ## The helpers -/

theorem nested_read {m : Mutex} {o : Op} (hm : ok held m) (ho : Plain o) :
    Nested ok held (locked m (perform o)) :=
  nested_locked hm fun _ => nested_perform ho

theorem nested_markPeerFailed (u : Uuid) (hf : ok held .failure) :
    Nested ok held (markPeerFailed u) := nested_read hf trivial

theorem nested_clearPeerFailure (u : Uuid) (hf : ok held .failure) :
    Nested ok held (clearPeerFailure u) :=
  nested_locked hf fun _ => nested_bind (nested_perform trivial) fun _ =>
    nested_ite (nested_perform trivial) (nested_pure _)

theorem nested_isPeerAvailable (u : Uuid) (hm : ok held .membership) (hf : ok held .failure) :
    Nested ok held (isPeerAvailable u) :=
  nested_bind (nested_read hm trivial) fun _ =>
    nested_ite
      (nested_locked hf fun _ => nested_bind (nested_perform trivial) fun _ => nested_pure _)
      (nested_pure _)

theorem nested_connectToPeer (u : Uuid) (hm : ok held .membership) :
    Nested ok held (connectToPeer u) := by
  refine nested_bind (nested_read hm trivial) fun table => ?_
  split
  · exact nested_pure _
  · exact nested_perform trivial

theorem nested_closeConn (u : Uuid) (hm : ok held .membership) : Nested ok held (closeConn u) := by
  refine nested_bind (nested_read hm trivial) fun table => ?_
  split
  · exact nested_pure _
  · exact nested_perform trivial

/-- Sending requests `membership`, and then `failure`. -/
theorem nested_sendTo (u : Uuid) (msg : Msg) (hm : ok held .membership)
    (hf : Mutex.membership ∉ held → ok held .failure) : Nested ok held (sendTo u msg) := by
  by_cases hheld : Mutex.membership ∈ held
  · exact nested_blocked hm hheld
  have hf := hf hheld
  have hmark : Nested ok held (markPeerFailed u >>= fun _ => (pure false : Code Bool)) :=
    nested_bind (nested_markPeerFailed u hf) fun _ => nested_pure _
  refine nested_bind (nested_connectToPeer u hm) fun connected => nested_ite ?_ hmark
  refine nested_bind (nested_perform trivial) fun _ => nested_ite ?_ hmark
  refine nested_bind (nested_perform trivial) fun _ => nested_ite ?_ ?_
  · exact nested_bind (nested_clearPeerFailure u hf) fun _ => nested_closeConn u hm
  · exact nested_bind (nested_markPeerFailed u hf) fun _ =>
      nested_bind (nested_closeConn u hm) fun _ => nested_pure _

theorem nested_sendToProxy (client : ClientId) (msg : Msg) (hp : ok held .proxyDealer) :
    Nested ok held (sendToProxy client msg) := nested_read hp trivial

theorem nested_sendEach (msg : Msg) (hm : ok held .membership)
    (hf : Mutex.membership ∉ held → ok held .failure) :
    ∀ us : List Uuid, Nested ok held (sendEach msg us)
  | [] => nested_pure _
  | u :: us => nested_bind (nested_sendTo u msg hm hf) fun _ => nested_sendEach msg hm hf us

theorem nested_sendGossip (self : Uuid) (hm : ok held .membership)
    (hf : Mutex.membership ∉ held → ok held .failure) : Nested ok held (sendGossip self) := by
  refine nested_bind (nested_read hm trivial) fun table => ?_
  refine nested_bind (nested_read hm trivial) fun peers => ?_
  refine nested_bind (nested_perform trivial) fun choice => ?_
  split
  · exact nested_pure _
  · exact nested_ite (nested_pure _)
      (nested_bind (nested_sendTo _ _ hm hf) fun _ => nested_pure _)

theorem nested_sendGossipTo (u : Uuid) (hm : ok held .membership)
    (hf : Mutex.membership ∉ held → ok held .failure) : Nested ok held (sendGossipTo u) := by
  refine nested_bind (nested_read hm trivial) fun table => nested_ite ?_ (nested_pure _)
  exact nested_bind (nested_read hm trivial) fun _ =>
    nested_bind (nested_sendTo _ _ hm hf) fun _ => nested_pure _

theorem nested_sendRetrying (u : Uuid) (msg : Msg) (hm : ok held .membership)
    (hf : Mutex.membership ∉ held → ok held .failure) : ∀ n : ℕ, Nested ok held (sendRetrying u msg n)
  | 0 => nested_pure _
  | n + 1 => nested_bind (nested_sendTo u msg hm hf) fun _ =>
      nested_ite (nested_pure _) (nested_sendRetrying u msg hm hf n)

theorem nested_leaveRows (hm : ok held .membership)
    (hf : Mutex.membership ∉ held → ok held .failure) :
    ∀ rows : List (U128 × ShoppingList), Nested ok held (leaveRows rows)
  | [] => nested_pure _
  | (h, list) :: rows => by
    refine nested_bind (nested_perform trivial) fun ring => ?_
    split
    · exact nested_leaveRows hm hf rows
    · exact nested_bind (nested_sendRetrying _ _ hm hf _) fun _ => nested_leaveRows hm hf rows

theorem nested_addEach : ∀ nodes : List Uuid, Nested ok held (addEach nodes)
  | [] => nested_pure _
  | _ :: nodes => nested_bind (nested_perform trivial) fun _ => nested_addEach nodes

theorem nested_getReplicas (id : Uuid) (hr : ok held .hashring) :
    Nested ok held (getReplicas hash id) :=
  nested_locked hr fun _ => nested_bind (nested_perform trivial) fun _ => nested_pure _

/-! ## The handlers and loops -/

section Handlers

/- Any mutex may be requested where none is held. -/
variable (h₀ : ∀ m, ok ∅ m)

include h₀

theorem nested_nextAvailable (start : Uuid) :
    ∀ (n : ℕ) (current : Uuid), Nested ok ∅ (nextAvailable start n current)
  | 0, _ => nested_stop
  | n + 1, current => by
    refine nested_bind (nested_locked (h₀ _) fun _ =>
      nested_bind (nested_perform trivial) fun ring => ?_) fun next => ?_
    · split
      · exact nested_stop
      · exact nested_pure _
    · split
      · exact nested_pure _
      · exact nested_bind (nested_isPeerAvailable _ (h₀ _) (h₀ _)) fun _ =>
          nested_ite (nested_pure _) (nested_ite (nested_pure _)
            (nested_nextAvailable start n _))

theorem nested_replicateTo (rid : String) (l : ShoppingList) (write : Bool) (last : Uuid) :
    ∀ replicas : List Uuid, Nested ok ∅ (replicateTo rid l write last replicas)
  | [] => nested_pure _
  | r :: rs => by
    refine nested_bind (nested_sendTo _ _ (h₀ _) fun _ => h₀ _) fun _ =>
      nested_ite (nested_replicateTo rid l write last rs) ?_
    refine nested_bind (nested_bind (nested_perform trivial) fun n =>
      nested_nextAvailable h₀ last n last) fun next => ?_
    split
    · exact nested_pure _
    · exact nested_bind (nested_sendTo _ _ (h₀ _) fun _ => h₀ _) fun _ =>
        nested_replicateTo rid l write last rs

theorem nested_sendReplicate (l : ShoppingList) (replicas : List Uuid) (write : Bool) :
    Nested ok ∅ (sendReplicate l replicas write) := by
  refine nested_bind (nested_perform trivial) fun u => ?_
  refine nested_bind (nested_read (h₀ _) trivial) fun _ => ?_
  split
  · exact nested_stop
  · refine nested_bind (nested_replicateTo h₀ _ _ _ _ _) fun _ => ?_
    refine nested_bind (nested_perform trivial) fun _ => ?_
    exact nested_bind (nested_read (h₀ _) trivial) fun _ => nested_pure _

theorem nested_sendReadReplicate (l : ShoppingList) (replicas : List Uuid) :
    Nested ok ∅ (sendReadReplicate l replicas) := by
  refine nested_bind (nested_perform trivial) fun u => ?_
  refine nested_bind (nested_read (h₀ _) trivial) fun _ => ?_
  refine nested_bind (nested_sendEach _ (h₀ _) (fun _ => h₀ _) _) fun _ => ?_
  refine nested_bind (nested_perform trivial) fun _ => ?_
  refine nested_bind (nested_read (h₀ _) trivial) fun _ => ?_
  exact nested_ite (nested_pure _) (nested_pure _)

/-- `handle_incoming_put` holds `storage` while it answers the client. -/
theorem nested_handleIncomingPut (hput : ok (insert .storage ∅) .proxyDealer) (client : ClientId)
    (l : ShoppingList) : Nested ok ∅ (handleIncomingPut hash client l) := by
  refine nested_bind (nested_getReplicas _ (h₀ _)) fun replicas => nested_ite (nested_pure _) ?_
  refine nested_bind (nested_sendReplicate h₀ _ _ _) fun _ => nested_ite ?_ ?_
  · refine nested_locked (h₀ _) fun _ => nested_bind (nested_perform trivial) fun w => ?_
    split
    · exact nested_pure _
    · exact nested_bind (nested_sendToProxy _ _ hput) fun _ => nested_pure _
  · exact nested_bind (nested_sendToProxy _ _ (h₀ _)) fun _ => nested_pure _

theorem nested_readList (client : ClientId) (list l : ShoppingList) :
    Nested ok ∅ (readList hash client list l) := by
  refine nested_bind (nested_getReplicas _ (h₀ _)) fun replicas => nested_ite (nested_pure _) ?_
  refine nested_bind (nested_sendReadReplicate h₀ _ _) fun s => ?_
  split
  · refine nested_bind (nested_read (h₀ _) trivial) fun w => ?_
    split
    · exact nested_pure _
    · exact nested_bind (nested_sendToProxy _ _ (h₀ _)) fun _ => nested_pure _
  · exact nested_bind (nested_sendToProxy _ _ (h₀ _)) fun _ => nested_pure _

theorem nested_handleIncomingProxy (hput : ok (insert .storage ∅) .proxyDealer) (client : ClientId)
    (msg : Msg) : Nested ok ∅ (handleIncomingProxy hash client msg) := by
  cases msg with
  | getList list =>
    refine nested_bind (nested_read (h₀ _) trivial) fun stored => ?_
    split
    · exact nested_pure _
    · exact nested_handleIncomingPut h₀ hput _ _
    · exact nested_readList h₀ _ _ _
  | putList list => exact nested_handleIncomingPut h₀ hput _ _
  | _ => exact nested_pure _

theorem nested_handleMergeList (list : ShoppingList) : Nested ok ∅ (handleMergeList list) := by
  refine nested_locked (h₀ _) fun _ => nested_bind (nested_perform trivial) fun stored => ?_
  split
  · exact nested_pure _
  · exact nested_bind (nested_perform trivial) fun _ => nested_pure _
  · exact nested_bind (nested_perform trivial) fun _ => nested_pure _

/-- `leave` holds `hashring` and `storage` while it sends. -/
theorem nested_leave (hs : ok (insert .hashring ∅) .storage)
    (hm : ok (insert .storage (insert .hashring ∅)) .membership)
    (hf : ok (insert .storage (insert .hashring ∅)) .failure) (self : Uuid) :
    Nested ok ∅ (leave self) := by
  refine nested_locked (h₀ _) fun _ => nested_bind (nested_perform trivial) fun _ => ?_
  refine nested_locked hs fun _ => nested_bind (nested_perform trivial) fun rows => ?_
  split
  · exact nested_pure _
  · exact nested_leaveRows hm (fun _ => hf) _

/-- The messages that are handled with at most one guard at a time. -/
theorem nested_handleIncoming (self identity : Uuid) (msg : Msg)
    (hgossip : ∀ table, msg ≠ .gossip table) (hleave : msg ≠ .leave) :
    Nested ok ∅ (handleIncoming self identity msg) := by
  cases msg with
  | leave => exact absurd rfl hleave
  | gossip table => exact absurd rfl (hgossip table)
  | hello u addr =>
    exact nested_bind (nested_read (h₀ _) trivial) fun _ =>
      nested_bind (nested_sendGossipTo _ (h₀ _) fun _ => h₀ _) fun _ =>
        nested_sendGossip _ (h₀ _) fun _ => h₀ _
  | replicateList id list write =>
    cases write with
    | true =>
      refine nested_bind (nested_read (h₀ _) trivial) fun storing => ?_
      split
      · exact nested_bind (nested_sendTo _ _ (h₀ _) fun _ => h₀ _) fun _ => nested_pure _
      · exact nested_pure _
    | false =>
      refine nested_bind (nested_read (h₀ _) trivial) fun stored => ?_
      split
      · exact nested_bind (nested_sendTo _ _ (h₀ _) fun _ => h₀ _) fun _ => nested_pure _
      · exact nested_pure _
      · exact nested_pure _
  | ack rid => exact nested_read (h₀ _) trivial
  | ackList rid list => exact nested_read (h₀ _) trivial
  | handoff rid list d =>
    exact nested_bind (nested_read (h₀ _) trivial) fun _ =>
      nested_bind (nested_sendTo _ _ (h₀ _) fun _ => h₀ _) fun _ => nested_pure _
  | mergeList list => exact nested_handleMergeList h₀ list
  | _ => exact nested_pure _

theorem nested_deliverHints :
    ∀ hints : List (Uuid × ShoppingList), Nested ok ∅ (deliverHints hints)
  | [] => nested_pure _
  | (_, _) :: hints => by
    refine nested_bind (nested_perform trivial) fun u => ?_
    refine nested_bind (nested_sendTo _ _ (h₀ _) fun _ => h₀ _) fun _ =>
      nested_ite ?_ (nested_deliverHints hints)
    exact nested_bind (nested_read (h₀ _) trivial) fun _ => nested_deliverHints hints

theorem nested_hintedHandoff : Nested ok ∅ hintedHandoff := by
  refine nested_bind (nested_read (h₀ _) trivial) fun hints => ?_
  split
  · exact nested_pure _
  · exact nested_deliverHints h₀ _

end Handlers

end Nested

/-! ## Balanced programs -/

/-- No mutex is requested by a program that holds it. -/
def Unheld (held : Finset Mutex) (m : Mutex) : Prop := m ∉ held

theorem unheld_empty (m : Mutex) : Unheld ∅ m := Finset.notMem_empty m

theorem balanced_of_unheld {α : Type} {held : Finset Mutex} {p : Code α} (hp : Nested Unheld held p) :
    Balanced held p := balanced_of_nested (fun _ _ h => h) hp

/-- Every message but a `Gossip` is handled without requesting a held mutex. -/
theorem balanced_handleIncoming (self identity : Uuid) (msg : Msg)
    (hmsg : ∀ table, msg ≠ .gossip table) : Balanced ∅ (handleIncoming self identity msg) := by
  by_cases hleave : msg = .leave
  · subst hleave
    exact balanced_of_unheld (nested_leave unheld_empty (by unfold Unheld; decide)
      (by unfold Unheld; decide) (by unfold Unheld; decide) self)
  · exact balanced_of_unheld (nested_handleIncoming unheld_empty self identity msg hmsg hleave)

theorem balanced_handleIncomingProxy (client : ClientId) (msg : Msg) :
    Balanced ∅ (handleIncomingProxy hash client msg) :=
  balanced_of_unheld (nested_handleIncomingProxy unheld_empty (by unfold Unheld; decide) client msg)

theorem balanced_sendGossip (self : Uuid) : Balanced ∅ (sendGossip self) :=
  balanced_of_unheld (nested_sendGossip self (unheld_empty _) fun _ => unheld_empty _)

theorem balanced_hintedHandoff : Balanced ∅ hintedHandoff :=
  balanced_of_unheld (nested_hintedHandoff unheld_empty)

/-! ## A task alone -/

/-- The operation does not request a mutex that the task holds. -/
def NoRelock (t : Tid) (o : Op) (w : World hash) : Prop :=
  ∀ m, o = .lock m → (w.node t.peer).locks m ≠ some t

section Alone

variable {α : Type} {t : Tid} {Q : α → World hash → Prop} {w : World hash} {m : Mutex}

theorem setNode_self (w : World hash) (u : Uuid) : w.setNode u (w.node u) = w := by
  unfold World.setNode
  rw [Function.update_eq_self]

theorem effect_membership (t : Tid) (a : MembershipTable) (w : World hash) :
    effect t .membership a w = w := setNode_self w t.peer

theorem effect_failure (t : Tid) (a : FailureTable) (w : World hash) :
    effect t .failure a w = w := setNode_self w t.peer

theorem setNode_setNode (w : World hash) (u : Uuid) (n n' : Node hash) :
    (w.setNode u n).setNode u n' = w.setNode u n' := by
  unfold World.setNode
  simp

/-- A balanced program, started without a guard, never requests a held mutex. -/
theorem wp_of_guards {R : α → Finset Mutex → Prop} {p : Code α} {held : Finset Mutex}
    (hp : p.Obeys guards t R held) (hheld : ∀ m, m ∈ held ↔ (w.node t.peer).locks m = some t) :
    p.wp (cluster hash) t (NoRelock t) (fun _ _ => True) w := by
  refine Prog.wp_of_obeys (m := cluster hash) (M := guards)
    (fun (held : Finset Mutex) (w : World hash) => ∀ m, m ∈ held ↔ (w.node t.peer).locks m = some t)
    (fun held w o c a w' hheld _ hact => ⟨trivial, fun m => ?_⟩) (fun held w o hheld hallow => ?_)
    p held w hheld hp
  · obtain ⟨-, rfl⟩ := act_eq hact
    rw [node_effect, if_pos rfl, locks_after]
    cases o with
    | lock m' =>
      by_cases h : m = m'
      · simp [guards, locksAfter, h]
      · simp [guards, locksAfter, h, hheld m]
    | unlock m' =>
      by_cases h : m = m'
      · simp [guards, locksAfter, h]
      · simp [guards, locksAfter, h, hheld m]
    | _ => exact hheld m
  · rintro m rfl hm
    exact hallow ((hheld m).2 hm)

theorem wp_balanced {p : Code α} (hp : Balanced ∅ p) (hfree : ∀ m, (w.node t.peer).locks m ≠ some t) :
    p.wp (cluster hash) t (NoRelock t) (fun _ _ => True) w :=
  wp_of_guards (hp t) fun m => by simp [hfree m]

/-- The first operation of a program, through its answers and their effects. -/
theorem wp_op {o : Op} {k : Ans o → Code α} :
    Prog.wp (cluster hash) t (NoRelock t) Q (.op o k) w ↔
      NoRelock t o w ∧
        ∀ c a, answer t o c w = some a → (k a).wp (cluster hash) t (NoRelock t) Q (effect t o a w) := by
  refine and_congr_right fun _ => ⟨fun h c a ha => ?_, fun h c a w' hact => ?_⟩
  · exact h c a _ (show act t o c w = _ by rw [act, ha]; rfl)
  · obtain ⟨ha, rfl⟩ := act_eq (show act t o c w = _ from hact)
    exact h c a ha

/-- An operation that is neither a lock request nor refused, and has one answer. -/
theorem wp_perform_bind {o : Op} (ho : ∀ m, o ≠ .lock m) (a₀ : Ans o)
    (ha₀ : ∀ c a, answer t o c w = some a ↔ a = a₀) {f : Ans o → Code α} :
    (perform o >>= f).wp (cluster hash) t (NoRelock t) Q w ↔
      (f a₀).wp (cluster hash) t (NoRelock t) Q (effect t o a₀ w) := by
  change Prog.wp (cluster hash) t (NoRelock t) Q (.op o f) w ↔ _
  rw [wp_op]
  constructor
  · rintro ⟨-, h⟩
    exact h .yes a₀ ((ha₀ _ _).2 rfl)
  · intro h
    refine ⟨fun m hm => absurd hm (ho m), fun c a ha => ?_⟩
    rw [(ha₀ c a).1 ha]
    exact h

/-- What a guarded block does when the mutex is free. -/
theorem wp_locked {body : Code α} (hfree : (w.node t.peer).locks m = none) :
    (locked m body).wp (cluster hash) t (NoRelock t) Q w ↔
      body.wp (cluster hash) t (NoRelock t) (fun a w' => Q a (effect t (.unlock m) () w'))
        (effect t (.lock m) () w) := by
  have hstart : (locked m body).wp (cluster hash) t (NoRelock t) Q w ↔
      (body >>= fun a => perform (.unlock m) >>= fun _ => pure a).wp (cluster hash) t (NoRelock t) Q
        (effect t (.lock m) () w) := by
    unfold locked
    change Prog.wp (cluster hash) t (NoRelock t) Q (.op (.lock m) _) w ↔ _
    rw [wp_op]
    constructor
    · rintro ⟨-, h⟩
      exact h .yes () (by simp [answer, hfree])
    · intro h
      refine ⟨?_, fun _ _ _ => h⟩
      rintro m' hm'
      cases hm'
      simp [hfree]
  rw [hstart, Prog.wp_bind]
  refine iff_of_eq (congrFun (congrArg (fun R => Prog.wp (cluster hash) t (NoRelock t) R body) ?_) _)
  funext a w'
  refine propext ?_
  rw [wp_perform_bind (by simp) () (by simp [answer])]
  rfl

/-- A block whose mutex the task holds deadlocks. -/
theorem not_wp_locked {body : Code α} (hheld : (w.node t.peer).locks m = some t) :
    ¬ (locked m body).wp (cluster hash) t (NoRelock t) Q w :=
  fun h => h.1 m rfl hheld

theorem effect_unlock_lock (hfree : (w.node t.peer).locks m = none) :
    effect t (.unlock m) () (effect t (.lock m) () w) = w := by
  have hnode : ((effect t (.lock m) () w).node t.peer).after t (.unlock m) () = w.node t.peer := by
    rw [node_effect, if_pos rfl]
    simp only [Node.after, Function.update_idem]
    rw [← hfree, Function.update_eq_self]
  calc effect t (.unlock m) () (effect t (.lock m) () w)
      = (effect t (.lock m) () w).setNode t.peer
          (((effect t (.lock m) () w).node t.peer).after t (.unlock m) ()) := rfl
    _ = w.setNode t.peer (w.node t.peer) := by
        rw [hnode]
        exact setNode_setNode w t.peer _ _
    _ = w := setNode_self w t.peer

/-- Reading what a free mutex guards leaves the state as it was. -/
theorem wp_locked_read {o : Op} (hfree : (w.node t.peer).locks m = none) (ho : Plain o)
    (hread : ∀ (a : Ans o) (w' : World hash), effect t o a w' = w') {Q : Ans o → World hash → Prop} :
    (locked m (perform o)).wp (cluster hash) t (NoRelock t) Q w ↔
      ∀ c a, answer t o c (effect t (.lock m) () w) = some a → Q a w := by
  rw [wp_locked hfree]
  change Prog.wp (cluster hash) t (NoRelock t) _ (.op o .pure) _ ↔ _
  rw [wp_op]
  have hq : ∀ a : Ans o, Q a (effect t (.unlock m) () (effect t o a (effect t (.lock m) () w))) ↔
      Q a w := by
    intro a
    rw [hread, effect_unlock_lock hfree]
  constructor
  · rintro ⟨-, h⟩ c a ha
    exact (hq a).1 (h c a ha)
  · intro h
    refine ⟨?_, fun c a ha => (hq a).2 (h c a ha)⟩
    rintro m' rfl
    exact ho.elim

/-! ## Sending under a guard of `membership` or `failure` -/

variable {u : Uuid} {msg : Msg}

theorem not_wp_sendTo_of_membership (hheld : (w.node t.peer).locks .membership = some t)
    {Q : Bool → World hash → Prop} :
    ¬ (sendTo u msg).wp (cluster hash) t (NoRelock t) Q w := by
  unfold sendTo connectToPeer
  rw [Prog.wp_bind, Prog.wp_bind]
  exact not_wp_locked hheld

theorem not_wp_markPeerFailed (hheld : (w.node t.peer).locks .failure = some t)
    {Q : Unit → World hash → Prop} :
    ¬ (markPeerFailed u).wp (cluster hash) t (NoRelock t) Q w :=
  not_wp_locked hheld

/-- With `failure` held a send deadlocks whatever happens to it: already when it fails at once. -/
theorem not_wp_sendTo_of_failure (hfree : (w.node t.peer).locks .membership = none)
    (hheld : (w.node t.peer).locks .failure = some t) {Q : Bool → World hash → Prop} :
    ¬ (sendTo u msg).wp (cluster hash) t (NoRelock t) Q w := by
  intro h
  have hfail : ∀ {w' : World hash} {Q' : Bool → World hash → Prop}, w' = w →
      ¬ (if false = true then (perform (.sendEmpty u) : Code Bool)
        else markPeerFailed u >>= fun _ => pure false).wp (cluster hash) t (NoRelock t) Q' w' := by
    rintro _ Q' rfl h'
    rw [if_neg (by decide), Prog.wp_bind] at h'
    exact not_wp_markPeerFailed hheld h'
  unfold sendTo connectToPeer at h
  rw [Prog.wp_bind, Prog.wp_bind] at h
  have h := (wp_locked_read hfree (show Plain .membership from trivial) fun _ _ => setNode_self _ _).1 h .yes _ rfl
  split at h
  · exact hfail rfl h
  · exact hfail (setNode_self _ _) ((wp_op.1 h).2 .no false rfl)

/-! ## Gossip -/

/-- The ring of a peer once it has added the servers of a table. -/
def ringWith (n : Node hash) (nodes : List Uuid) : HashRing :=
  nodes.foldl (fun ring u => ring.addNode hash u) n.hashring

theorem wp_addEach {Q : Unit → World hash → Prop} :
    ∀ (nodes : List Uuid) (w : World hash),
      (addEach nodes).wp (cluster hash) t (NoRelock t) Q w ↔
        Q () (w.setNode t.peer { w.node t.peer with hashring := ringWith (w.node t.peer) nodes })
  | [], w => by
    change Q () w ↔ Q () (w.setNode t.peer (w.node t.peer))
    rw [setNode_self]
  | u :: nodes, w => by
    rw [addEach, wp_perform_bind (by simp) () (by simp [answer]), wp_addEach nodes, node_effect,
      if_pos rfl]
    change Q () ((w.setNode t.peer _).setNode t.peer _) ↔ _
    rw [setNode_setNode]
    rfl

/-- Adding the servers of a table only changes the ring. -/
theorem wp_addNodes {Q : Unit → World hash → Prop} (nodes : List Uuid)
    (hfree : (w.node t.peer).locks .hashring = none) :
    (addNodes nodes).wp (cluster hash) t (NoRelock t) Q w ↔
      Q () (w.setNode t.peer { w.node t.peer with hashring := ringWith (w.node t.peer) nodes }) := by
  unfold addNodes
  rw [wp_locked hfree, wp_addEach]
  have hlast : ∀ n : Node hash,
      effect t (.unlock .hashring) () ((effect t (.lock .hashring) () w).setNode t.peer n) =
        w.setNode t.peer (n.after t (.unlock .hashring) ()) := by
    intro n
    change ((w.setNode t.peer _).setNode t.peer n).setNode t.peer
      ((((w.setNode t.peer _).setNode t.peer n).node t.peer).after t (.unlock .hashring) ()) = _
    rw [setNode_setNode, setNode_setNode, setNode_node, if_pos rfl]
  rw [hlast, node_effect, if_pos rfl]
  have hnode : (({ (w.node t.peer).after t (.lock .hashring) () with
      hashring := ringWith ((w.node t.peer).after t (.lock .hashring) ()) nodes } : Node hash).after t
        (.unlock .hashring) ()) =
      { w.node t.peer with hashring := ringWith (w.node t.peer) nodes } := by
    have hlocks : Function.update (Function.update (w.node t.peer).locks .hashring (some t))
        .hashring none = (w.node t.peer).locks := by
      rw [Function.update_idem, ← hfree, Function.update_eq_self]
    simp only [Node.after, ringWith, hlocks]
  rw [hnode]

/-- The peer has old lists to hand over to a predecessor. -/
def HasOldData (n : Node hash) (self : Uuid) (ring : HashRing) : Prop :=
  ∃ h, ring.prevNodeHash self = some h ∧ n.storage.getOldData self h ≠ []

/-- The loop over the new entries deadlocks at the first predecessor among them, if there are old
lists to hand over. -/
theorem wp_addEntries {Q : Unit → World hash → Prop} (hQ : ∀ a w', Q a w')
    (predecessors : List Uuid) :
    ∀ (es : List (Sigma fun _ : Uuid => String)) (w : World hash),
      (w.node t.peer).locks .membership = some t → (w.node t.peer).locks .hashring = none →
      (w.node t.peer).locks .storage = none →
      ((addEntries t.peer predecessors es).wp (cluster hash) t (NoRelock t) Q w ↔
        ¬ ((∃ e ∈ es, e.1 ∈ predecessors) ∧
          HasOldData (w.node t.peer) t.peer (w.node t.peer).hashring))
  | [], w, _, _, _ => by
    simp only [List.not_mem_nil, false_and, exists_false, not_false_eq_true, iff_true]
    exact hQ () w
  | ⟨u, addr⟩ :: es, w, hm, hr, hs => by
    rw [addEntries, wp_perform_bind (by simp) () (by simp [answer])]
    have ih := wp_addEntries hQ predecessors es
      (effect t (.membershipInsert u addr) () w) (by rw [node_effect, if_pos rfl]; exact hm)
      (by rw [node_effect, if_pos rfl]; exact hr) (by rw [node_effect, if_pos rfl]; exact hs)
    have hnode : (effect t (.membershipInsert u addr) () w).node t.peer =
        (w.node t.peer).after t (.membershipInsert u addr) () := by
      rw [node_effect, if_pos rfl]
    generalize effect t (.membershipInsert u addr) () w = w₁ at ih hnode ⊢
    have hr₁ : (w₁.node t.peer).locks .hashring = none := by rw [hnode]; exact hr
    have hs₁ : (w₁.node t.peer).locks .storage = none := by rw [hnode]; exact hs
    have hm₁ : (w₁.node t.peer).locks .membership = some t := by rw [hnode]; exact hm
    have hold : HasOldData (w₁.node t.peer) t.peer (w₁.node t.peer).hashring ↔
        HasOldData (w.node t.peer) t.peer (w.node t.peer).hashring := by
      rw [hnode]
      rfl
    rw [← hold]
    by_cases hu : u ∈ predecessors
    · have hring : ∀ (c : Choice) (a : HashRing),
          answer t .hashring c (effect t (.lock .hashring) () w₁) = some a ↔
            a = (w₁.node t.peer).hashring := by
        intro c a
        simp only [answer, node_effect, if_pos, Node.after, Option.some.injEq]
        exact eq_comm
      rw [if_pos hu, Prog.wp_bind, wp_locked_read hr₁ (show Plain .hashring from trivial) fun _ _ => setNode_self _ _]
      simp only [hring]
      constructor
      · intro h
        have h := h .yes _ rfl
        rintro ⟨-, p, hp, hne⟩
        rw [hp] at h
        simp only at h
        rw [Prog.wp_bind, wp_locked_read hs₁ (show Plain (.getOldData t.peer p) from trivial)
          fun _ _ => setNode_self _ _] at h
        have h := h .yes (some ((w₁.node t.peer).storage.getOldData t.peer p)) (by
          simp [answer, node_effect, Node.after, Choice.attempt])
        simp only at h
        obtain ⟨l, ls, hl⟩ := List.exists_cons_of_ne_nil hne
        rw [hl, Prog.wp_bind, sendOldLists, Prog.wp_bind] at h
        exact not_wp_sendTo_of_membership hm₁ h
      · rintro h _ _ rfl
        split
        · rename_i hp
          rw [ih]
          rintro ⟨-, p, hp', -⟩
          rw [hp] at hp'
          cases hp'
        · rename_i p hp
          rw [Prog.wp_bind, wp_locked_read hs₁ (show Plain (.getOldData t.peer p) from trivial)
            fun _ _ => setNode_self _ _]
          intro c a ha
          cases a with
          | none => exact hQ () _
          | some old =>
            have hempty : old = [] := by
              have hold' : old = (w₁.node t.peer).storage.getOldData t.peer p := by
                simp only [answer, node_effect, if_pos, Node.after] at ha
                cases c <;> simp [Choice.attempt] at ha
                exact ha.symm
              by_contra hne
              exact h ⟨⟨⟨u, addr⟩, List.mem_cons_self, hu⟩, p, hp, hold' ▸ hne⟩
            rw [hempty]
            change (addEntries t.peer predecessors es).wp _ _ _ _ _
            rw [ih]
            rintro ⟨-, hdata⟩
            exact h ⟨⟨⟨u, addr⟩, List.mem_cons_self, hu⟩, hdata⟩
    · rw [if_neg hu, ih]
      simp [hu]

/-- The handling of a `Gossip`, up to the loop over the new entries. -/
theorem wp_handleGossip (table : MembershipTable)
    (hfree : ∀ m, (w.node t.peer).locks m = none) :
    (handleGossip t.peer table).wp (cluster hash) t (NoRelock t) (fun _ _ => True) w ↔
      ¬ ((∃ e ∈ table.entries.filter fun e => ((w.node t.peer).membership.find? e.1).isNone,
          e.1 ∈ (ringWith (w.node t.peer) table.keys).getPredecessors t.peer) ∧
        HasOldData (w.node t.peer) t.peer (ringWith (w.node t.peer) table.keys)) := by
  have hfree₁ : ∀ m, ((w.setNode t.peer { w.node t.peer with
      hashring := ringWith (w.node t.peer) table.keys }).node t.peer).locks m = none := by
    intro m
    rw [setNode_node, if_pos rfl]
    exact hfree m
  unfold handleGossip
  rw [Prog.wp_bind, wp_addNodes _ (hfree _), wp_locked (hfree₁ _),
    wp_perform_bind (by simp) (w.node t.peer).membership (by
      simp [answer, node_effect, Node.after, eq_comm]), effect_membership, Prog.wp_bind]
  have hnode : (effect t (.lock .membership) () (w.setNode t.peer { w.node t.peer with
      hashring := ringWith (w.node t.peer) table.keys })).node t.peer =
      ({ w.node t.peer with hashring := ringWith (w.node t.peer) table.keys } : Node hash).after t
        (.lock .membership) () := by
    rw [node_effect, if_pos rfl, setNode_node, if_pos rfl]
  generalize effect t (.lock .membership) () (w.setNode t.peer { w.node t.peer with
      hashring := ringWith (w.node t.peer) table.keys }) = w₂ at hnode ⊢
  have hr₂ : (w₂.node t.peer).locks .hashring = none := by
    rw [hnode]
    exact hfree _
  have hs₂ : (w₂.node t.peer).locks .storage = none := by
    rw [hnode]
    exact hfree _
  have hm₂ : (w₂.node t.peer).locks .membership = some t := by
    rw [hnode]
    rfl
  have hring : ∀ (c : Choice) (a : HashRing),
      answer t .hashring c (effect t (.lock .hashring) () w₂) = some a ↔
        a = ringWith (w.node t.peer) table.keys := by
    intro c a
    simp only [answer, node_effect, if_pos, hnode, Node.after, Option.some.injEq]
    exact eq_comm
  rw [wp_locked_read hr₂ (show Plain .hashring from trivial) fun _ _ => setNode_self _ _]
  simp only [hring]
  have hloop := wp_addEntries (Q := fun _ _ => True) (fun _ _ => trivial)
    ((ringWith (w.node t.peer) table.keys).getPredecessors t.peer)
    (table.entries.filter fun e => ((w.node t.peer).membership.find? e.1).isNone) w₂ hm₂ hr₂ hs₂
  rw [hnode] at hloop
  constructor
  · intro h
    exact hloop.1 (h .yes _ rfl)
  · rintro h _ _ rfl
    exact hloop.2 h

end Alone

/-! ## All executions of a peer -/

/-- What a peer executes: the handler of a message from a peer or from the proxy, or one round of a
background loop. -/
inductive Execution where
  | incoming (identity : Uuid) (msg : Msg)
  | proxied (clientId : ClientId) (msg : Msg)
  | gossip
  | hintedHandoff
  | failureDetection

/-- The code that is executed. -/
def Execution.code (hash : String → U128) (self : Uuid) : Execution → Code Unit
  | .incoming identity msg => handleIncoming self identity msg
  | .proxied clientId msg => handleIncomingProxy hash clientId msg
  | .gossip => sendGossip self
  | .hintedHandoff => Peer.hintedHandoff
  | .failureDetection => Peer.failureDetection

/-- The executions that deadlock on themselves, in a state of the peer. -/
def Execution.Deadlocks (n : Node hash) (self : Uuid) : Execution → Prop
  | .incoming _ (.gossip table) =>
    (∃ e ∈ table.entries.filter fun e => (n.membership.find? e.1).isNone,
      e.1 ∈ (ringWith n table.keys).getPredecessors self) ∧
      HasOldData n self (ringWith n table.keys)
  | .failureDetection => n.failure.keys ≠ []
  | _ => False

/-- A round of failure detection pings under the guard of the failure table. -/
theorem wp_failureDetection {t : Tid} {w : World hash}
    (hfree : ∀ m, (w.node t.peer).locks m = none) :
    failureDetection.wp (cluster hash) t (NoRelock t) (fun _ _ => True) w ↔
      ¬ (w.node t.peer).failure.keys ≠ [] := by
  unfold failureDetection
  rw [wp_locked (hfree _), wp_perform_bind (by simp) (w.node t.peer).failure (by
    simp [answer, node_effect, Node.after, eq_comm]), effect_failure]
  have hm : ((effect t (.lock .failure) () w).node t.peer).locks .membership = none := by
    rw [node_effect, if_pos rfl]
    exact hfree _
  have hf : ((effect t (.lock .failure) () w).node t.peer).locks .failure = some t := by
    rw [node_effect, if_pos rfl]
    rfl
  cases hk : (w.node t.peer).failure.keys with
  | nil => simp [sendEach, Prog.wp, pure]
  | cons u us =>
    simp only [ne_eq, reduceCtorEq, not_false_eq_true, not_true_eq_false, iff_false]
    intro h
    rw [sendEach, Prog.wp_bind] at h
    exact not_wp_sendTo_of_failure hm hf h

/-- **Which executions deadlock on themselves**, started alone in any state of the peer. -/
theorem no_relock_iff (t : Tid) (e : Execution) (w : World hash)
    (hfree : ∀ m, (w.node t.peer).locks m = none) :
    (∀ o k w', Prog.Reaches (cluster hash) t (e.code hash t.peer) w (.op o k) w' →
        NoRelock t o w') ↔
      ¬ e.Deadlocks (w.node t.peer) t.peer := by
  rw [← Prog.wp_iff]
  have hbalanced : ∀ {p : Code Unit}, Balanced ∅ p → e.code hash t.peer = p →
      ¬ e.Deadlocks (w.node t.peer) t.peer →
      ((e.code hash t.peer).wp (cluster hash) t (NoRelock t) (fun _ _ => True) w ↔
        ¬ e.Deadlocks (w.node t.peer) t.peer) := by
    rintro _ hp rfl hd
    exact iff_of_true (wp_balanced hp fun m => by simp [hfree m]) hd
  cases e with
  | incoming identity msg =>
    by_cases hmsg : ∃ table, msg = .gossip table
    · obtain ⟨table, rfl⟩ := hmsg
      exact wp_handleGossip table hfree
    · have hmsg : ∀ table, msg ≠ .gossip table := fun table h => hmsg ⟨table, h⟩
      refine hbalanced (balanced_handleIncoming _ identity msg hmsg) rfl ?_
      cases msg with
      | gossip table => exact absurd rfl (hmsg table)
      | _ => exact not_false
  | proxied client msg => exact hbalanced (balanced_handleIncomingProxy client msg) rfl not_false
  | gossip => exact hbalanced (balanced_sendGossip _) rfl not_false
  | hintedHandoff => exact hbalanced balanced_hintedHandoff rfl not_false
  | failureDetection => exact wp_failureDetection hfree

/-- A new cluster in which the first server has marked the second as failed. -/
def oneFailure : World md5 :=
  let w := World.new md5 Uuid.toString
  effect (.gossip (.ofTail 1)) (.markFailure (.ofTail 2)) () w

theorem no_relock_iff_oneFailure :
    (∀ o k w', Prog.Reaches (cluster md5) (.failureDetection (.ofTail 1))
        (Execution.failureDetection.code md5 (.ofTail 1)) oneFailure (.op o k) w' →
        NoRelock (.failureDetection (.ofTail 1)) o w') ↔
      ¬ Execution.failureDetection.Deadlocks (oneFailure.node (.ofTail 1)) (.ofTail 1) :=
  no_relock_iff (.failureDetection (.ofTail 1)) .failureDetection oneFailure fun _ => rfl

/-- The next round of failure detection requests the failure table while it holds it. -/
theorem oneFailure_relocks :
    ¬ ∀ o k w', Prog.Reaches (cluster md5) (.failureDetection (.ofTail 1))
        (Execution.failureDetection.code md5 (.ofTail 1)) oneFailure (.op o k) w' →
        NoRelock (.failureDetection (.ofTail 1)) o w' := by
  intro h
  refine (wp_failureDetection (t := .failureDetection (.ofTail 1)) fun _ => rfl).1
    (Prog.wp_iff.2 h) ?_
  decide +kernel

end Sdle
