import Sdle.Lib.Rest
import Sdle.LockOrder
import Sdle.Residence

/-!
# A cluster that comes to rest (`server.rs`)

The servers of a steady cluster, without its rounds of failure detection: these request a mutex that
they hold (`no_relock_iff`), and so do a `Leave` and a `Gossip` with news, which a steady cluster does
not have.

* `orderly_started` — every task requests mutexes upwards and never panics.
* `some_task_moves` — as long as a task runs, some task can make a step.
* `comes_to_rest` — **no deadlock, no panic**: in every state that can be reached, all tasks can be
  run to their ends, and no mutex stays locked.
-/

set_option autoImplicit false

namespace Sdle

open Tasks Peer WaitsFor HashRing

variable {hash : String → U128}

/-! ## Programs that do not panic -/

/-- The operation is no panic. -/
def GoesOn (o : Op) : Prop := o ≠ .stop

theorem goesOn_read {m : Mutex} {o : Op} (ho : GoesOn o) : (locked m (perform o)).Only GoesOn :=
  only_locked (by simp [GoesOn]) (by simp [GoesOn]) (only_perform ho)

section Programs

variable {α : Type}

theorem goesOn_locked {m : Mutex} {body : Code α} (h : body.Only GoesOn) : (locked m body).Only GoesOn :=
  only_locked (by simp [GoesOn]) (by simp [GoesOn]) h

end Programs

theorem goesOn_connectToPeer (u : Uuid) : (connectToPeer u).Only GoesOn := by
  refine Prog.only_bind (goesOn_read (by simp [GoesOn])) fun table => ?_
  split
  · exact only_pure _
  · exact only_perform (by simp [GoesOn])

theorem goesOn_closeConn (u : Uuid) : (closeConn u).Only GoesOn := by
  refine Prog.only_bind (goesOn_read (by simp [GoesOn])) fun table => ?_
  split
  · exact only_pure _
  · exact only_perform (by simp [GoesOn])

theorem goesOn_markPeerFailed (u : Uuid) : (markPeerFailed u).Only GoesOn := goesOn_read (by simp [GoesOn])

theorem goesOn_clearPeerFailure (u : Uuid) : (clearPeerFailure u).Only GoesOn := by
  apply goesOn_locked
  refine Prog.only_bind (only_perform (by simp [GoesOn])) fun table => ?_
  exact only_ite (only_perform (by simp [GoesOn])) (only_pure _)

theorem goesOn_sendTo (u : Uuid) (msg : Msg) : (sendTo u msg).Only GoesOn := by
  have hfailed : (markPeerFailed u >>= fun _ => (pure false : Code Bool)).Only GoesOn :=
    Prog.only_bind (goesOn_markPeerFailed u) fun _ => only_pure _
  refine Prog.only_bind (goesOn_connectToPeer u) fun connected => only_ite ?_ hfailed
  refine Prog.only_bind (only_perform (by simp [GoesOn])) fun sent => only_ite ?_ hfailed
  refine Prog.only_bind (only_perform (by simp [GoesOn])) fun sent => only_ite ?_ ?_
  · exact Prog.only_bind (goesOn_clearPeerFailure u) fun _ => goesOn_closeConn u
  · exact Prog.only_bind (goesOn_markPeerFailed u) fun _ =>
      Prog.only_bind (goesOn_closeConn u) fun _ => only_pure _

theorem goesOn_sendToProxy (client : ClientId) (msg : Msg) : (sendToProxy client msg).Only GoesOn :=
  goesOn_read (by simp [GoesOn])

theorem goesOn_sendEach (msg : Msg) : ∀ us : List Uuid, (sendEach msg us).Only GoesOn
  | [] => only_pure _
  | u :: us => Prog.only_bind (goesOn_sendTo u msg) fun _ => goesOn_sendEach msg us

theorem goesOn_sendGossip (self : Uuid) : (sendGossip self).Only GoesOn := by
  refine Prog.only_bind (goesOn_read (by simp [GoesOn])) fun table => ?_
  refine Prog.only_bind (goesOn_read (by simp [GoesOn])) fun peers => ?_
  refine Prog.only_bind (only_perform (by simp [GoesOn])) fun chosen => ?_
  split
  · exact only_pure _
  · exact only_ite (only_pure _) (Prog.only_bind (goesOn_sendTo _ _) fun _ => only_pure _)

theorem goesOn_sendGossipTo (u : Uuid) : (sendGossipTo u).Only GoesOn := by
  refine Prog.only_bind (goesOn_read (by simp [GoesOn])) fun table => only_ite ?_ (only_pure _)
  exact Prog.only_bind (goesOn_read (by simp [GoesOn])) fun _ =>
    Prog.only_bind (goesOn_sendTo _ _) fun _ => only_pure _

theorem goesOn_sendReadReplicate (list : ShoppingList) (replicas : List Uuid) :
    (sendReadReplicate list replicas).Only GoesOn := by
  refine Prog.only_bind (only_perform (by simp [GoesOn])) fun u => ?_
  refine Prog.only_bind (goesOn_read (by simp [GoesOn])) fun _ => ?_
  refine Prog.only_bind (goesOn_sendEach _ replicas) fun _ => ?_
  refine Prog.only_bind (only_perform (by simp [GoesOn])) fun result => ?_
  exact Prog.only_bind (goesOn_read (by simp [GoesOn])) fun q => only_ite (only_pure _) (only_pure _)

theorem goesOn_addEach : ∀ nodes : List Uuid, (addEach nodes).Only GoesOn
  | [] => only_pure _
  | _ :: nodes => Prog.only_bind (only_perform (by simp [GoesOn])) fun _ => goesOn_addEach nodes

theorem goesOn_deliverHints : ∀ hints : List (Uuid × ShoppingList), (deliverHints hints).Only GoesOn
  | [] => only_pure _
  | (dest, list) :: hints => by
    refine Prog.only_bind (only_perform (by simp [GoesOn])) fun id => ?_
    refine Prog.only_bind (goesOn_sendTo _ _) fun sent => only_ite ?_ (goesOn_deliverHints hints)
    exact Prog.only_bind (goesOn_read (by simp [GoesOn])) fun _ => goesOn_deliverHints hints

theorem goesOn_hintedHandoff : hintedHandoff.Only GoesOn := by
  refine Prog.only_bind (goesOn_read (by simp [GoesOn])) fun hints => ?_
  split
  · exact only_pure _
  · exact goesOn_deliverHints _

theorem goesOn_handleMergeList (list : ShoppingList) : (handleMergeList list).Only GoesOn := by
  apply goesOn_locked
  refine Prog.only_bind (only_perform (by simp [GoesOn])) fun stored => ?_
  split
  · exact only_pure _
  · exact Prog.only_bind (only_perform (by simp [GoesOn])) fun _ => only_pure _
  · exact Prog.only_bind (only_perform (by simp [GoesOn])) fun _ => only_pure _

/-- The answer to a message. -/
theorem goesOn_answer (u : Uuid) (msg : Msg) :
    (sendTo u msg >>= fun _ => (pure () : Code Unit)).Only GoesOn :=
  Prog.only_bind (goesOn_sendTo u msg) fun _ => only_pure _

theorem goesOn_handleIncoming (self src : Uuid) {msg : Msg} (hleave : msg ≠ .leave)
    (hgossip : ∀ table, msg ≠ .gossip table) : (handleIncoming self src msg).Only GoesOn := by
  cases msg with
  | leave => exact absurd rfl hleave
  | gossip table => exact absurd rfl (hgossip table)
  | hello u addr =>
    refine Prog.only_bind (goesOn_read (by simp [GoesOn])) fun _ => ?_
    exact Prog.only_bind (goesOn_sendGossipTo u) fun _ => goesOn_sendGossip self
  | replicateList id list write =>
    cases write with
    | true =>
      refine Prog.only_bind (goesOn_read (by simp [GoesOn])) fun written => ?_
      split
      · exact goesOn_answer _ _
      · exact only_pure _
    | false =>
      refine Prog.only_bind (goesOn_read (by simp [GoesOn])) fun stored => ?_
      split
      · exact goesOn_answer _ _
      · exact only_pure _
      · exact only_pure _
  | ack rid => exact goesOn_read (by simp [GoesOn])
  | ackList rid list => exact goesOn_read (by simp [GoesOn])
  | handoff rid list original =>
    exact Prog.only_bind (goesOn_read (by simp [GoesOn])) fun _ => goesOn_answer _ _
  | mergeList list => exact goesOn_handleMergeList list
  | _ => exact only_pure _

/-! ## KeepsOrder programs -/

/-- A mutex is requested under lower ones only. -/
def Above (held : Finset Mutex) (m : Mutex) : Prop := ∀ A ∈ held, A.rank < m.rank

instance (held : Finset Mutex) (m : Mutex) : Decidable (Above held m) :=
  inferInstanceAs (Decidable (∀ A ∈ held, _))

theorem above_empty (m : Mutex) : Above ∅ m := fun _ h => absurd h (Finset.notMem_empty _)

theorem Above.notMem {held : Finset Mutex} {m : Mutex} (h : Above held m) : m ∉ held :=
  fun hm => absurd (h m hm) (lt_irrefl _)

/-- The tasks of a peer that knows the servers of its ring: they request mutexes upwards, and never
panic.  Nobody counts as failed, and a loop has room for a turn. -/
def orderly (ring : HashRing) : Monitor PeerSig Tid (Finset Mutex) where
  allow _ held o :=
    match o with
    | .lock m => Above held m
    | .unlock m => m ∈ held
    | .stop => False
    | _ => True
  expect _ _ o a :=
    match o, a with
    | .membership, table => {v | v ∈ ring.servers} ⊆ MembershipTable.names table
    | .hashring, r => r = ring
    | .failure, table => ∀ u, FailureTable.isAvailable table u = true
    | .turns, n => 0 < n
    | _, _ => True
  next := guards.next

/-- The program is orderly, and ends with the mutexes it started with. -/
def KeepsOrder {α : Type} (ring : HashRing) (held : Finset Mutex) (p : Code α) : Prop :=
  ∀ t, p.Obeys (orderly ring) t (fun _ held' => held' = held) held

section KeepsOrder

variable {α β : Type} {ring : HashRing} {held : Finset Mutex} {t : Tid}

/-- A nested program without panics. -/
theorem orderly_of_nested {p : Code α} (h : Nested Above held p) (hp : p.Only GoesOn) :
    KeepsOrder ring held p := by
  have key : ∀ (p : Code α) (g : Finset Mutex) (t : Tid) (Q : α → Finset Mutex → Prop), p.Only GoesOn →
      p.Obeys (nesting Above) t Q g → p.Obeys (orderly ring) t Q g := by
    intro p
    induction p with
    | pure a => exact fun g t Q _ h => h
    | op o k ih =>
      rintro g t Q ⟨hgoes, honly⟩ ⟨hallow, hk⟩
      cases o with
      | lock m => exact ⟨hallow, fun a _ => ih a _ t Q (honly a) (hk a (Above.notMem hallow))⟩
      | unlock m => exact ⟨hallow, fun a _ => ih a _ t Q (honly a) (hk a trivial)⟩
      | stop => exact absurd rfl hgoes
      | _ => exact ⟨trivial, fun a _ => ih a _ t Q (honly a) (hk a trivial)⟩
  exact fun t => key p held t _ hp (h t)

theorem orderly_pure (a : α) : KeepsOrder ring held (pure a : Code α) := fun _ => rfl

theorem orderly_bind {p : Code α} {f : α → Code β} (hp : KeepsOrder ring held p)
    (hf : ∀ a, KeepsOrder ring held (f a)) : KeepsOrder ring held (p >>= f) := by
  intro t
  apply Prog.Obeys.call (hp t)
  rintro a _ rfl
  exact hf a t

theorem orderly_ite {c : Prop} [Decidable c] {p q : Code α} (hp : KeepsOrder ring held p)
    (hq : KeepsOrder ring held q) : KeepsOrder ring held (if c then p else q) := by
  split
  · exact hp
  · exact hq

theorem orderly_sendTo (u : Uuid) (msg : Msg) : KeepsOrder ring ∅ (sendTo u msg) :=
  orderly_of_nested (nested_sendTo u msg (above_empty _) fun _ => above_empty _) (goesOn_sendTo u msg)

theorem orderly_sendToProxy (client : ClientId) (msg : Msg) : KeepsOrder ring ∅ (sendToProxy client msg) :=
  orderly_of_nested (nested_sendToProxy client msg (above_empty _)) (goesOn_sendToProxy client msg)

/-- A block that holds a guard, with what is known of its result. -/
theorem orderly_locked {m : Mutex} {body : Code α} {R : α → Prop} (hm : Above held m)
    (h : body.Obeys (orderly ring) t (fun a held' => held' = insert m held ∧ R a) (insert m held)) :
    (locked m body).Obeys (orderly ring) t (fun a held' => held' = held ∧ R a) held := by
  refine ⟨hm, fun _ _ => ?_⟩
  apply Prog.Obeys.call h
  rintro a _ ⟨rfl, ha⟩
  exact ⟨Finset.mem_insert_self _ _, fun _ _ => ⟨Finset.erase_insert hm.notMem, ha⟩⟩

/-- An operation, with what its answer may be expected to be. -/
theorem orderly_perform {o : Op} (ho : Plain o) (hgoes : GoesOn o) :
    (perform o).Obeys (orderly ring) t
      (fun a held' => held' = held ∧ (orderly ring).expect t held o a) held := by
  cases o with
  | lock m => exact ho.elim
  | unlock m => exact ho.elim
  | stop => exact absurd rfl hgoes
  | _ => exact ⟨trivial, fun a ha => ⟨rfl, ha⟩⟩

theorem orderly_read {m : Mutex} {o : Op} (hm : Above held m) (ho : Plain o) (hgoes : GoesOn o) :
    (locked m (perform o)).Obeys (orderly ring) t
      (fun a held' => held' = held ∧ (orderly ring).expect t held o a) held :=
  orderly_locked hm (orderly_perform ho hgoes)

/-- A guarded operation of which nothing is to be known. -/
theorem orderly_guarded {m : Mutex} {o : Op} (hm : Above held m) (ho : Plain o) (hgoes : GoesOn o) :
    KeepsOrder ring held (locked m (perform o)) :=
  orderly_of_nested (nested_read hm ho) (goesOn_read hgoes)

/-! ## The search and what uses it -/

/-- The servers of the ring are available. -/
theorem orderly_isPeerAvailable {v : Uuid} (hv : v ∈ ring.servers) :
    (isPeerAvailable v).Obeys (orderly ring) t (fun b held' => held' = ∅ ∧ b = true) ∅ := by
  apply (orderly_read (o := .membership) (above_empty _) trivial (by simp [GoesOn])).call
  rintro table _ ⟨rfl, htable⟩
  have hknown : (FinMap.find? table v).isSome = true := htable hv
  rw [if_pos hknown]
  apply orderly_locked (above_empty _)
  apply (orderly_perform (o := .failure) trivial (by simp [GoesOn])).call
  rintro failure _ ⟨rfl, hfailure⟩
  exact ⟨rfl, hfailure v⟩

theorem mem_servers_of_nextNode {u v : Uuid} (h : ring.nextNode u = some (some v)) : v ∈ ring.servers :=
  (ring.nextNode_ne h).2

/-- The search ends with its first turn. -/
theorem orderly_nextAvailable {start : Uuid} (hsafe : ring.nextNode start ≠ none) (n : ℕ) :
    KeepsOrder ring ∅ (nextAvailable start (n + 1) start) := by
  intro t
  apply Prog.Obeys.call (R := fun next held' => held' = ∅ ∧ ring.nextNode start = some next)
  · apply orderly_locked (above_empty _)
    apply (orderly_perform (o := .hashring) trivial (by simp [GoesOn])).call
    rintro r _ ⟨rfl, hr⟩
    obtain rfl : r = ring := hr
    split
    · exact absurd ‹_› hsafe
    · exact ⟨rfl, ‹_›⟩
  · rintro next _ ⟨rfl, hnext⟩
    cases next with
    | none => rfl
    | some v =>
      apply (orderly_isPeerAvailable (mem_servers_of_nextNode hnext)).call
      rintro _ _ ⟨rfl, rfl⟩
      rfl

theorem orderly_getNextAvailableNode {start : Uuid} (hsafe : ring.nextNode start ≠ none) :
    KeepsOrder ring ∅ (getNextAvailableNode start) := by
  refine fun t => ⟨trivial, fun n hn => ?_⟩
  obtain ⟨n, rfl⟩ := Nat.exists_eq_succ_of_ne_zero (Nat.pos_iff_ne_zero.1 hn)
  exact orderly_nextAvailable hsafe n t

theorem orderly_replicateTo (rid : String) (list : ShoppingList) (write : Bool) {last : Uuid}
    (hsafe : ring.nextNode last ≠ none) :
    ∀ replicas : List Uuid, KeepsOrder ring ∅ (replicateTo rid list write last replicas)
  | [] => orderly_pure _
  | replica :: replicas => by
    have hrest := orderly_replicateTo rid list write hsafe replicas
    apply orderly_bind (orderly_sendTo _ _)
    intro sent
    apply orderly_ite hrest
    apply orderly_bind (orderly_getNextAvailableNode hsafe)
    intro next
    split
    · exact orderly_pure _
    · exact orderly_bind (orderly_sendTo _ _) fun _ => hrest

/-- There are replicas, so that the last one is there. -/
theorem orderly_sendReplicate (hsafe : ∀ u ∈ ring.servers, ring.nextNode u ≠ none) (list : ShoppingList)
    {replicas : List Uuid} (hne : replicas ≠ []) (hsub : ∀ v ∈ replicas, v ∈ ring.servers)
    (write : Bool) : KeepsOrder ring ∅ (sendReplicate list replicas write) := by
  refine fun t => ⟨trivial, fun u _ => ?_⟩
  apply orderly_bind (orderly_guarded (o := .insertInFlight _ _) (above_empty _) trivial (by simp [GoesOn]))
  intro _
  rw [List.getLast?_eq_getLast_of_ne_nil hne]
  apply orderly_bind
  · exact orderly_replicateTo _ _ _ (hsafe _ (hsub _ (List.getLast_mem hne))) replicas
  · intro _ t
    refine ⟨trivial, fun result _ => ?_⟩
    exact orderly_bind (orderly_guarded (o := .removeInFlight _) (above_empty _) trivial (by simp [GoesOn]))
      (fun _ => orderly_pure _) t

theorem orderly_getReplicas (id : Uuid) :
    (getReplicas hash id).Obeys (orderly ring) t
      (fun replicas held' => held' = ∅ ∧ ∀ v ∈ replicas, v ∈ ring.servers) ∅ := by
  apply orderly_locked (above_empty _)
  apply (orderly_perform (o := .hashring) trivial (by simp [GoesOn])).call
  rintro r _ ⟨rfl, hr⟩
  obtain rfl : r = ring := hr
  exact ⟨rfl, fun v hv => mem_getPreferenceList hash _ _ _ (List.mem_of_mem_drop hv)⟩

/-- `handle_incoming_put` holds `storage` while it answers the client. -/
theorem orderly_handleIncomingPut (hsafe : ∀ u ∈ ring.servers, ring.nextNode u ≠ none)
    (client : ClientId) (list : ShoppingList) :
    KeepsOrder ring ∅ (handleIncomingPut hash client list) := by
  intro t
  apply (orderly_getReplicas list.id).call
  rintro replicas _ ⟨rfl, hsub⟩
  split
  · rfl
  · rename_i hne
    have hne : replicas ≠ [] := by simpa using hne
    apply orderly_bind (orderly_sendReplicate hsafe list hne hsub true)
    intro reached
    apply orderly_ite
    · apply orderly_of_nested
      · refine nested_locked (above_empty _) fun _ => nested_bind (nested_perform trivial) fun w => ?_
        split
        · exact nested_pure _
        · exact nested_bind (nested_sendToProxy _ _ (by decide)) fun _ => nested_pure _
      · apply goesOn_locked
        refine Prog.only_bind (only_perform (by simp [GoesOn])) fun w => ?_
        split
        · exact only_pure _
        · exact Prog.only_bind (goesOn_sendToProxy _ _) fun _ => only_pure _
    · exact orderly_bind (orderly_sendToProxy _ _) fun _ => orderly_pure _

theorem goesOn_getReplicas (id : Uuid) : (getReplicas hash id).Only GoesOn :=
  goesOn_locked (Prog.only_bind (only_perform (by simp [GoesOn])) fun _ => only_pure _)

theorem goesOn_readList (client : ClientId) (list l : ShoppingList) :
    (readList hash client list l).Only GoesOn := by
  refine Prog.only_bind (goesOn_getReplicas _) fun replicas => only_ite (only_pure _) ?_
  refine Prog.only_bind (goesOn_sendReadReplicate _ _) fun merged => ?_
  split
  · refine Prog.only_bind (goesOn_read (by simp [GoesOn])) fun written => ?_
    split
    · exact only_pure _
    · exact Prog.only_bind (goesOn_sendToProxy _ _) fun _ => only_pure _
  · exact Prog.only_bind (goesOn_sendToProxy _ _) fun _ => only_pure _

theorem orderly_handleIncomingProxy (hsafe : ∀ u ∈ ring.servers, ring.nextNode u ≠ none)
    (client : ClientId) (msg : Msg) : KeepsOrder ring ∅ (handleIncomingProxy hash client msg) := by
  cases msg with
  | getList list =>
    apply orderly_bind (orderly_guarded (o := .getShoppingList _) (above_empty _) trivial (by simp [GoesOn]))
    intro stored
    split
    · exact orderly_pure _
    · exact orderly_handleIncomingPut hsafe client list
    · exact orderly_of_nested (nested_readList above_empty client list _) (goesOn_readList client list _)
  | putList list => exact orderly_handleIncomingPut hsafe client list
  | _ => exact orderly_pure _

/-- A `Gossip` without news keeps `membership` for the read of the ring only. -/
theorem orderly_handleGossip (self : Uuid) {table : MembershipTable}
    (h : table.names ⊆ {v | v ∈ ring.servers}) : KeepsOrder ring ∅ (handleGossip self table) := by
  have hadd : KeepsOrder ring ∅ (addNodes table.keys) :=
    orderly_of_nested (nested_locked (above_empty _) fun _ => nested_addEach _)
      (goesOn_locked (goesOn_addEach _))
  apply orderly_bind hadd
  intro _ t
  have hguarded : (locked .membership (perform .membership >>= fun membership =>
      locked .hashring (perform .hashring) >>= fun hashring : HashRing =>
        addEntries self (hashring.getPredecessors self)
          (table.entries.filter fun e => (membership.find? e.1).isNone))).Obeys (orderly ring) t
      (fun _ held' => held' = ∅ ∧ True) ∅ := by
    apply orderly_locked (above_empty _)
    apply (orderly_perform (o := .membership) trivial (by simp [GoesOn])).call
    rintro membership _ ⟨rfl, hknown⟩
    rw [no_new_entries h hknown]
    apply (orderly_read (o := .hashring) (by decide) trivial (by simp [GoesOn])).call
    rintro hashring _ ⟨rfl, -⟩
    exact ⟨rfl, trivial⟩
  exact Prog.Obeys.mono (fun _ _ h => h.1) _ _ hguarded

theorem orderly_handleIncoming (self src : Uuid) {msg : Msg} (hleave : msg ≠ .leave)
    (hnews : ∀ table, msg = .gossip table → table.names ⊆ {v | v ∈ ring.servers}) :
    KeepsOrder ring ∅ (handleIncoming self src msg) := by
  by_cases hgossip : ∃ table, msg = .gossip table
  · obtain ⟨table, rfl⟩ := hgossip
    exact orderly_handleGossip self (hnews table rfl)
  · have hgossip : ∀ table, msg ≠ .gossip table := fun table h => hgossip ⟨table, h⟩
    exact orderly_of_nested (nested_handleIncoming above_empty self src msg hgossip hleave)
      (goesOn_handleIncoming self src hleave hgossip)

end KeepsOrder

/-! ## Runs -/

/-- The loops have room for a turn. -/
def Roomy (o : Op) (a : Ans o) : Prop :=
  match o, a with
  | .turns, n => 0 < n
  | _, _ => True

/-- The storage and the socket of the proxy work, and so do the loops. -/
def Works (o : Op) (a : Ans o) : Prop :=
  match o, a with
  | .getShoppingList _, row => row.isSome = true
  | .writeShoppingList _, written => written.isSome = true
  | .sendProxy _ _, sent => sent = true
  | .turns, n => 0 < n
  | _, _ => True

theorem Works.roomy {o : Op} {a : Ans o} (h : Works o a) : Roomy o a := by
  cases o with
  | turns => exact h
  | _ => trivial

/-- A task makes a step in which nothing fails. -/
def Smooth : Event (cluster hash) → Prop
  | .did _ o a => Works o a
  | .ended _ => True
  | .arrived _ => False

theorem Smooth.internal {ev : Event (cluster hash)} (h : Smooth ev) : Internal ev := by
  rintro e rfl
  exact h

/-- Nobody joins or leaves, and no round of failure detection starts. -/
def restful : Discipline (cluster hash) := fun evs w ev =>
  stableMembership evs w ev ∧
    match ev with
    | .did _ o a => Roomy o a
    | .arrived (.tickFailureDetection _) => False
    | _ => True

theorem Smooth.restful {ev : Event (cluster hash)} (h : Smooth ev) (evs : History hash) (w : World hash) :
    restful evs w ev := by
  cases ev with
  | did t o a => exact ⟨trivial, Works.roomy h⟩
  | ended t => exact ⟨trivial, trivial⟩
  | arrived e => exact h.elim

section Runs

variable {ring : HashRing} {w₀ w : World hash} {evs : History hash} {c : Config (cluster hash)}
  {t : Tid}

/-- Every task is orderly when it starts. -/
theorem orderly_started (hsafe : ∀ u ∈ ring.servers, ring.nextNode u ≠ none) {e : Arrival}
    {p : Code Unit} {w' : World hash} (h : arrive e w = some (some (t, p), w'))
    (hnet : ∀ q ∈ w.net, q.msg ≠ .leave ∧
      ∀ table, q.msg = .gossip table → table.names ⊆ {v | v ∈ ring.servers})
    (hD : restful evs w (.arrived e)) : KeepsOrder ring ∅ p := by
  cases e with
  | ready u => cases h
  | request client msg =>
    simp only [arrive] at h
    split at h <;> cases h
  | take r =>
    simp only [arrive] at h
    split at h <;> cases h
    exact orderly_handleIncomingProxy hsafe r.clientId r.msg
  | deliver q =>
    have hq := mem_net_of_deliver h
    simp only [arrive, if_pos hq] at h
    cases h
    obtain ⟨hleave, hnews⟩ := hnet q hq
    exact orderly_handleIncoming q.dst q.src hleave hnews
  | lose q =>
    simp only [arrive] at h
    split at h <;> cases h
  | message src dst msg =>
    simp only [arrive] at h
    split at h <;> cases h
  | tickGossip u =>
    cases h
    exact orderly_of_nested (nested_sendGossip u (above_empty _) fun _ => above_empty _)
      (goesOn_sendGossip u)
  | tickHintedHandoff u =>
    cases h
    exact orderly_of_nested (nested_hintedHandoff above_empty) goesOn_hintedHandoff
  | tickFailureDetection u => exact hD.2.elim

/-- Only the tasks of a peer hold its mutexes. -/
def OwnLocks (w : World hash) : Prop := ∀ u m t, (w.node u).locks m = some t → t.peer = u

theorem ownLocks_effect (h : OwnLocks w) (t : Tid) (o : Op) (a : Ans o) : OwnLocks (effect t o a w) := by
  intro u m t' ht'
  rw [node_effect] at ht'
  split at ht'
  · rename_i hu
    rw [locks_after] at ht'
    cases o with
    | lock m' =>
      rw [locksAfter, Function.update_apply] at ht'
      split at ht'
      · cases ht'
        exact hu.symm
      · exact h u m t' ht'
    | unlock m' =>
      rw [locksAfter, Function.update_apply] at ht'
      split at ht'
      · cases ht'
      · exact h u m t' ht'
    | _ => exact h u m t' ht'
  · exact h u m t' ht'

/-- Every server counts as available: an entry of a failure table says that it has failed, which is
what `is_available` asks for. -/
def AllAvailable (w : World hash) : Prop :=
  ∀ u v, FailureTable.isAvailable (w.node u).failure v = true

theorem allAvailable_effect (h : AllAvailable w) (t : Tid) (o : Op) (a : Ans o) :
    AllAvailable (effect t o a w) := by
  intro u v
  rw [node_effect]
  split
  · have hv := h u v
    rw [failure_after]
    cases o with
    | markFailure x =>
      unfold FailureTable.isAvailable at hv ⊢
      simp only [FailureTable.markFailure, FinMap.find?_insert]
      split <;> rename_i heq
      · rfl
      · split at heq
        · cases heq
          rfl
        · rw [heq] at hv
          exact hv
    | clearFailure x =>
      unfold FailureTable.isAvailable at hv ⊢
      simp only [FailureTable.clearFailure, FinMap.find?_erase]
      split <;> rename_i heq
      · rfl
      · split at heq
        · cases heq
        · rw [heq] at hv
          exact hv
    | _ => exact hv
  · exact h u v

/-- What each task holds, and that what is left of its program is orderly. -/
structure InOrder (ring : HashRing) (held : Tid → Finset Mutex) (c : Config (cluster hash)) : Prop where
  heldBy : HeldBy held c.state
  own : OwnLocks c.state
  live : ∀ t p, c.pool t = some p → p.Obeys (orderly ring) t (fun _ held' => held' = ∅) (held t)
  idle : ∀ t, c.pool t = none → held t = ∅

theorem inOrder_of_run (hw : w₀.Settled) (hlocks : Unlocked w₀) (hfailure : ∀ u, (w₀.node u).failure = ∅)
    (hsteady : w₀.Steady ring) (hwhole : ring.Whole hash)
    (hsafe : ∀ u ∈ ring.servers, ring.nextNode u ≠ none)
    (hrun : Run (cluster hash) restful (quiet w₀) evs c) : ∃ held, InOrder ring held c := by
  have hrun := hrun.with (fun _ (w : World hash) => World.Steady ring w ∧
      (∀ u, {v | v ∈ ring.servers} ⊆ w.knows u) ∧ ∀ q ∈ w.net, q.msg ≠ .leave ∧
        ∀ table, q.msg = .gossip table → table.names ⊆ {v | v ∈ ring.servers})
    fun evs c h => by
      have h : Run (cluster hash) stableMembership (quiet w₀) evs c := h.mono fun _ _ _ hD => hD.1
      exact ⟨steady_of_run hw hsteady hwhole h, no_news hw hsteady h⟩
  have hsound := Run.sound (orderly ring) ∅ (fun _ held' => held' = ∅)
    (fun _ held w => HeldBy held w ∧ OwnLocks w ∧ AllAvailable w)
    ?did ?ended ?arrived ?started ?init hrun
  · obtain ⟨held, ⟨hheld, hown, -⟩, hpool⟩ := hsound
    exact ⟨held, hheld, hown, fun t => (hpool t).1, fun t => (hpool t).2⟩
  case did =>
    rintro evs held w t o ch a w' ⟨hheld, hown, havailable⟩ hallow hact ⟨hD, hsteady, hknows, -⟩
    obtain ⟨hans, rfl⟩ := @act_eq hash _ _ _ _ _ _ hact
    refine ⟨?_, ?_, ownLocks_effect hown t o a, allAvailable_effect havailable t o a⟩
    · cases o with
      | membership =>
        cases hans
        exact hknows t.peer
      | hashring =>
        cases hans
        exact hsteady.hashring t.peer
      | failure =>
        cases hans
        exact havailable t.peer
      | turns => exact hD.2
      | _ => trivial
    · refine heldBy_did hheld ?_ hans
      cases o with
      | lock m => exact fun A hA => Or.inr (hallow A hA)
      | unlock m => exact hallow
      | _ => trivial
  case ended =>
    rintro evs held w t ⟨hheld, hown, havailable⟩ hend
    rw [← hend, Function.update_eq_self]
    exact ⟨hheld, hown, havailable⟩
  case arrived =>
    rintro evs held w e w' ⟨hheld, hown, havailable⟩ harr -
    refine ⟨fun t m => ?_, fun u m t => ?_, fun u v => ?_⟩ <;> rw [node_arrive harr]
    · exact hheld t m
    · exact hown u m t
    · exact havailable u v
  case started =>
    rintro evs held w e t p w' ⟨hheld, hown, havailable⟩ harr hidle ⟨hD, -, -, hnet⟩
    refine ⟨∅, orderly_started hsafe harr hnet hD t, ?_⟩
    rw [← hidle, Function.update_eq_self]
    refine ⟨fun t m => ?_, fun u m t => ?_, fun u v => ?_⟩ <;> rw [node_arrive harr]
    · exact hheld t m
    · exact hown u m t
    · exact havailable u v
  case init =>
    refine ⟨fun t m => ?_, fun u m t h => ?_, fun u v => ?_⟩
    · rw [hlocks]
      simp
    · rw [hlocks] at h
      cases h
    · rw [hfailure]
      rfl

/-- An operation is answered, unless it waits for a mutex or there is no UUID left to draw. -/
theorem exists_answer {o : Op} (hgoes : GoesOn o)
    (hfree : ∀ m, o = .lock m → (w.node t.peer).locks m = none) (hfresh : ∃ u, u ∉ w.drawn) :
    ∃ ch a, answer t o ch w = some a ∧ Works o a := by
  cases o with
  | lock m => exact ⟨.yes, (), if_pos (hfree m rfl), trivial⟩
  | newUuid =>
    obtain ⟨u, hu⟩ := hfresh
    exact ⟨.uuid u, u, if_neg hu, trivial⟩
  | choose us =>
    cases us with
    | nil => exact ⟨.yes, none, rfl, trivial⟩
    | cons u us => exact ⟨.uuid u, some u, if_pos List.mem_cons_self, trivial⟩
  | await r => exact ⟨.no, false, rfl, trivial⟩
  | turns => exact ⟨.nat 1, 1, rfl, Nat.one_pos⟩
  | stop => exact absurd rfl hgoes
  | getShoppingList id => exact ⟨.yes, _, rfl, rfl⟩
  | writeShoppingList l => exact ⟨.yes, _, rfl, rfl⟩
  | sendProxy client m => exact ⟨.yes, _, rfl, rfl⟩
  | _ => exact ⟨.yes, _, rfl, trivial⟩

/-- A task that cannot make a step waits for a mutex that another task of its peer holds. -/
theorem waits_of_stuck {held : Tid → Finset Mutex} (h : InOrder ring held c)
    (hfresh : ∃ u, u ∉ World.drawn c.state) (hlive : c.pool t ≠ none)
    (hstuck : ∀ ev c', Smooth ev → ¬ Step (cluster hash) c ev c') :
    ∃ m, RequestsMutex c t m ∧ ∃ t', t'.peer = t.peer ∧ c.pool t' ≠ none ∧ t' ≠ t ∧ m ∈ held t' := by
  obtain ⟨p, hp⟩ := Option.ne_none_iff_exists'.1 hlive
  have hobeys := h.live t p hp
  cases p with
  | pure a =>
    have hend : Step (cluster hash) c (.ended t) ⟨Function.update c.pool t none, c.state⟩ := .ended hp
    exact absurd hend (hstuck _ _ trivial)
  | op o k =>
    have hallow := hobeys.1
    have hgoes : GoesOn o := by
      rintro rfl
      exact hallow
    by_cases hfree : ∀ m, o = .lock m → (World.node c.state t.peer).locks m = none
    · obtain ⟨ch, a, hans, hworks⟩ := exists_answer hgoes hfree hfresh
      have hact : act t o ch c.state = some (a, effect t o a c.state) := by
        unfold act
        rw [hans]
        rfl
      have hdid : Step (cluster hash) c (.did t o a)
          ⟨Function.update c.pool t (some (k a)), effect t o a c.state⟩ := .did hp hact
      exact absurd hdid (hstuck _ _ hworks)
    · obtain ⟨m, hm⟩ := not_forall.1 hfree
      obtain ⟨rfl, hheld⟩ := Classical.not_imp.1 hm
      obtain ⟨t', ht'⟩ := Option.ne_none_iff_exists'.1 hheld
      have hpeer : t'.peer = t.peer := h.own _ _ _ ht'
      have hmem : m ∈ held t' := (h.heldBy t' m).2 (hpeer ▸ ht')
      refine ⟨m, ⟨k, hp⟩, t', hpeer, fun hidle => ?_, ?_, hmem⟩
      · rw [h.idle t' hidle] at hmem
        exact Finset.notMem_empty m hmem
      · rintro rfl
        exact Above.notMem hallow hmem

/-- **As long as a task runs, some task can make a step.** -/
theorem some_task_moves {held : Tid → Finset Mutex} (h : InOrder ring held c)
    (hfresh : ∃ u, u ∉ World.drawn c.state) (hlive : c.pool t ≠ none) :
    ∃ ev c', Smooth ev ∧ Step (cluster hash) c ev c' := by
  by_contra hstuck
  have hstuck : ∀ ev c', Smooth ev → ¬ Step (cluster hash) c ev c' :=
    fun ev c' hev hstep => hstuck ⟨ev, c', hev, hstep⟩
  -- otherwise the tasks of the peer would wait for each other
  refine not_circularWait (n := 6) (fun t' m => t'.peer = t.peer ∧ m ∈ held t') (RequestsMutex c)
    Mutex.rank ?_ ?_ ?_ {t' | t'.peer = t.peer ∧ c.pool t' ≠ none} ⟨⟨t, rfl, hlive⟩, ?_⟩
  · intro m
    cases m <;> decide
  · rintro t₁ t₂ m ⟨hpeer₁, h₁⟩ ⟨hpeer₂, h₂⟩
    have h₁ := (h.heldBy t₁ m).1 h₁
    have h₂ := (h.heldBy t₂ m).1 h₂
    rw [hpeer₁] at h₁
    rw [hpeer₂] at h₂
    exact Option.some.inj (h₁.symm.trans h₂)
  · rintro t' A B ⟨-, hA⟩ ⟨k, hk⟩ -
    exact (h.live t' _ hk).1 A hA
  · rintro t' ⟨hpeer, hlive'⟩
    obtain ⟨m, hreq, t'', hpeer', hlive'', hne, hmem⟩ := waits_of_stuck h hfresh hlive' hstuck
    have hpeer'' := hpeer'.trans hpeer
    exact ⟨m, hreq, t'', ⟨hpeer'', hlive''⟩, hne, hpeer'', hmem⟩

/-- Where no task runs, no mutex is locked. -/
theorem unlocked_of_idle {held : Tid → Finset Mutex} (h : InOrder ring held c)
    (hidle : ∀ t, c.pool t = none) : Unlocked c.state := by
  intro u m
  by_contra hlocked
  obtain ⟨t, ht⟩ := Option.ne_none_iff_exists'.1 hlocked
  have hmem : m ∈ held t := (h.heldBy t m).2 (h.own u m t ht ▸ ht)
  rw [h.idle t (hidle t)] at hmem
  exact Finset.notMem_empty m hmem

/-- A cluster in which the tasks may always go on without a failure can come to rest. -/
theorem rest_of_smooth {D : Discipline (cluster hash)} (hD : ∀ evs w ev, D evs w ev → restful evs w ev)
    (hsmooth : ∀ evs w ev, Smooth ev → D evs w ev) (hw : w₀.Settled) (hlocks : Unlocked w₀)
    (hfailure : ∀ u, (w₀.node u).failure = ∅) (hsteady : w₀.Steady ring) (hwhole : ring.Whole hash)
    (hsafe : ∀ u ∈ ring.servers, ring.nextNode u ≠ none) (hrun : Run (cluster hash) D (quiet w₀) evs c) :
    ∃ since c', Run (cluster hash) (fun evs' => D (evs' ++ evs)) c since c' ∧
      (∀ ev ∈ since, Internal ev) ∧
      (((∀ t, c'.pool t = none) ∧ Unlocked c'.state) ∨ ∀ u, u ∈ World.drawn c'.state) := by
  refine Run.rest (fun c' : Config (cluster hash) =>
    ((∀ t, c'.pool t = none) ∧ Unlocked c'.state) ∨ ∀ u, u ∈ World.drawn c'.state)
    ⟨∅, fun t ht => absurd rfl ht⟩ (fun evs c hrun => ?_) hrun
  obtain ⟨held, horder⟩ := inOrder_of_run hw hlocks hfailure hsteady hwhole hsafe (hrun.mono hD)
  by_cases hfresh : ∃ u, u ∉ World.drawn c.state
  · by_cases hidle : ∀ t, c.pool t = none
    · exact Or.inl (Or.inl ⟨hidle, unlocked_of_idle horder hidle⟩)
    · obtain ⟨t, ht⟩ := not_forall.1 hidle
      obtain ⟨ev, c', hev, hstep⟩ := some_task_moves horder hfresh ht
      exact Or.inr ⟨ev, c', hev.internal, hsmooth evs c.state ev hev, hstep⟩
  · exact Or.inl (Or.inr (not_exists_not.1 hfresh))

/-- **The cluster can always come to rest**: whatever a steady cluster has done so far, the tasks that
run can all be run to their ends, as long as there are UUIDs left, and then no mutex is locked. -/
theorem comes_to_rest (hw : w₀.Settled) (hlocks : Unlocked w₀) (hfailure : ∀ u, (w₀.node u).failure = ∅)
    (hsteady : w₀.Steady ring) (hwhole : ring.Whole hash)
    (hsafe : ∀ u ∈ ring.servers, ring.nextNode u ≠ none)
    (hrun : Run (cluster hash) restful (quiet w₀) evs c) :
    ∃ since c', Run (cluster hash) restful c since c' ∧ (∀ ev ∈ since, Internal ev) ∧
      (((∀ t, c'.pool t = none) ∧ Unlocked c'.state) ∨ ∀ u, u ∈ World.drawn c'.state) :=
  rest_of_smooth (fun _ _ _ h => h) (fun evs w _ h => h.restful evs w) hw hlocks hfailure hsteady hwhole
    hsafe hrun

end Runs

def isRestful (ev : Event (cluster hash)) : Bool :=
  isStable ev &&
    match ev with
    | .did _ .turns n => decide (0 < n)
    | .arrived (.tickFailureDetection _) => false
    | _ => true

theorem restful_of_isRestful {evs : History hash} {w : World hash} {ev : Event (cluster hash)}
    (h : isRestful ev = true) : restful evs w ev := by
  obtain ⟨hstable, hrest⟩ := Bool.and_eq_true_iff.1 h
  refine ⟨stable_of_isStable hstable, ?_⟩
  cases ev with
  | did t o a =>
    cases o with
    | turns =>
      have hpos : (0 : ℕ) < a := of_decide_eq_true hrest
      exact hpos
    | _ => trivial
  | ended t => trivial
  | arrived e =>
    cases e with
    | tickFailureDetection u => cases hrest
    | _ => trivial

/-- A coordinator in the middle of a write, which waits for a quorum. -/
theorem comes_to_rest_putReplicated :
    ∃ evs c, Run (cluster md5) restful
        (quiet (World.joined md5 [.ofTail 1, .ofTail 2, .ofTail 3])) evs c ∧
      c.pool (.proxied (.ofTail 1)) ≠ none ∧
      ∃ since c', Run (cluster md5) restful c since c' ∧ (∀ ev ∈ since, Internal ev) ∧
        (((∀ t, c'.pool t = none) ∧ Unlocked c'.state) ∨ ∀ u, u ∈ World.drawn c'.state) := by
  obtain ⟨evs, c, hrun, hcheck⟩ := exists_run (D := restful) (fun _ _ ev => isRestful ev)
    (fun _ _ _ => restful_of_isRestful)
    (quiet (World.joined md5 [.ofTail 1, .ofTail 2, .ofTail 3])) putReplicated
    (fun _ c => (c.pool (.proxied (.ofTail 1))).isSome) (by decide +kernel)
  refine ⟨evs, c, hrun, fun hidle => ?_, comes_to_rest (settled_joined md5 _) (fun _ _ => rfl)
    (fun _ => rfl) steady_three whole_three (by decide +kernel) hrun⟩
  rw [hidle] at hcheck
  cases hcheck

end Sdle
