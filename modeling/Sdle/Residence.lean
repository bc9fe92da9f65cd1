import Sdle.Rumours
import Sdle.Handoff
import Sdle.Provenance

/-!
# Where the lists are (`server.rs`)

A cluster whose servers all know each other, and which nobody joins or leaves.  Messages get lost,
calls fail, requests time out, coordinators fall back to other servers and hints are handed over.

* `still_of_run` — gossip in such a cluster moves no list.
* `steady_of_run` — and it changes neither a ring nor what is in a table.
* `rows_placed` — **every list stays where it belongs**: a row without a hint lies on a server of the
  preference list of its key, and a hint names a replica of this list.
-/

set_option autoImplicit false

namespace Sdle

open Tasks Peer ServerStorage HashRing

variable {hash : String → U128}

/-! ## A steady cluster -/

/-- No server registers, and no message comes from outside the cluster. -/
def stableMembership : Discipline (cluster hash) := fun _ _ ev =>
  match ev with
  | .arrived (.ready _) => False
  | .arrived (.message _ _ _) => False
  | _ => True

def isStable : Event (cluster hash) → Bool
  | .arrived (.ready _) => false
  | .arrived (.message _ _ _) => false
  | _ => true

theorem stable_of_isStable {evs : History hash} {w : World hash} {ev : Event (cluster hash)}
    (h : isStable ev = true) : stableMembership evs w ev := by
  unfold stableMembership
  split
  · cases h
  · cases h
  · trivial

/-- Everybody knows the servers of the ring. -/
structure World.Steady (ring : HashRing) (w : World hash) : Prop where
  hashring : ∀ u, (w.node u).hashring = ring
  table : ∀ u, w.knows u = {v | v ∈ ring.servers}
  proxyRing : w.proxyRing = ring

variable (hash) in
/-- Every server of the ring has all its vnodes: no two collide. -/
def HashRing.Whole (ring : HashRing) : Prop :=
  ∀ u ∈ ring.servers, ∀ i < ring.virtualNodes, ring.ring[hash (vnodeKey u i)]? = some u

theorem addNode_of_whole {ring : HashRing} (h : ring.Whole hash) {u : Uuid} (hu : u ∈ ring.servers) :
    ring.addNode hash u = ring := by
  refine eq_of_getElem? rfl rfl fun k => ?_
  rw [getElem?_addNode]
  split
  · rename_i hk
    obtain ⟨i, hi, rfl⟩ := hk
    exact (h u hu i hi).symm
  · rfl

/-! ## Nothing moves -/

/-- The operation reads no rows that are to be moved and takes nobody off the ring. -/
def Still : Op → Prop
  | .getOldData _ _ | .getAllRows | .removeNode _ => False
  | _ => True

theorem Routine.still {o : Op} (h : Routine o) : Still o := by
  cases o <;> first
    | exact h.elim
    | trivial

section Programs

variable {α : Type}

theorem still_guarded {m : Mutex} {o : Op} (ho : Still o) : (locked m (perform o)).Only Still :=
  only_locked trivial trivial (only_perform ho)

theorem still_of_routine {p : Code α} (h : p.Only Routine) : p.Only Still := h.mono fun _ => Routine.still

theorem still_getReplicas (id : Uuid) : (getReplicas hash id).Only Still :=
  only_locked trivial trivial (Prog.only_bind (only_perform trivial) fun _ => only_pure _)

theorem still_handleIncomingPut (client : ClientId) (list : ShoppingList) :
    (handleIncomingPut hash client list).Only Still := by
  apply Prog.only_bind (still_getReplicas list.id)
  intro replicas
  apply only_ite (only_pure _)
  apply Prog.only_bind (still_of_routine (only_sendReplicate list replicas true))
  intro reached
  apply only_ite
  · apply only_locked trivial trivial
    refine Prog.only_bind (only_perform trivial) fun written => ?_
    split
    · exact only_pure _
    · exact Prog.only_bind (still_guarded trivial) fun _ => only_pure _
  · exact Prog.only_bind (still_guarded trivial) fun _ => only_pure _

theorem still_readList (client : ClientId) (list l : ShoppingList) :
    (readList hash client list l).Only Still := by
  apply Prog.only_bind (still_getReplicas list.id)
  intro replicas
  apply only_ite (only_pure _)
  apply Prog.only_bind (still_of_routine (only_sendReadReplicate list replicas))
  intro merged
  split
  · refine Prog.only_bind (still_guarded trivial) fun written => ?_
    split
    · exact only_pure _
    · exact Prog.only_bind (still_guarded trivial) fun _ => only_pure _
  · exact Prog.only_bind (still_guarded trivial) fun _ => only_pure _

theorem still_handleIncomingProxy (client : ClientId) (msg : Msg) :
    (handleIncomingProxy hash client msg).Only Still := by
  cases msg with
  | getList list =>
    refine Prog.only_bind (still_guarded trivial) fun stored => ?_
    split
    · exact only_pure _
    · exact still_handleIncomingPut client list
    · exact still_readList client list _
  | putList list => exact still_handleIncomingPut client list
  | _ => exact only_pure _

/-- The answer to a message. -/
theorem still_answer (u : Uuid) (msg : Msg) :
    (sendTo u msg >>= fun _ => (pure () : Code Unit)).Only Still :=
  Prog.only_bind (still_of_routine (only_sendTo u msg)) fun _ => only_pure _

theorem still_handleIncoming (self src : Uuid) {msg : Msg} (hleave : msg ≠ .leave)
    (hgossip : ∀ table, msg ≠ .gossip table) : (handleIncoming self src msg).Only Still := by
  cases msg with
  | leave => exact absurd rfl hleave
  | gossip table => exact absurd rfl (hgossip table)
  | hello u addr =>
    refine Prog.only_bind (still_guarded trivial) fun _ => ?_
    apply Prog.only_bind (still_of_routine (only_sendGossipTo u))
    intro _
    exact still_of_routine (only_sendGossip self)
  | replicateList id list write =>
    cases write with
    | true =>
      refine Prog.only_bind (still_guarded trivial) fun written => ?_
      split
      · exact still_answer _ _
      · exact only_pure _
    | false =>
      refine Prog.only_bind (still_guarded trivial) fun stored => ?_
      split
      · exact still_answer _ _
      · exact only_pure _
      · exact only_pure _
  | ack rid => exact still_guarded trivial
  | ackList rid list => exact still_guarded trivial
  | handoff rid list original =>
    exact Prog.only_bind (still_guarded trivial) fun _ => still_answer _ _
  | mergeList list =>
    apply only_locked trivial trivial
    refine Prog.only_bind (only_perform trivial) fun stored => ?_
    split
    · exact only_pure _
    · exact Prog.only_bind (only_perform trivial) fun _ => only_pure _
    · exact Prog.only_bind (only_perform trivial) fun _ => only_pure _
  | _ => exact only_pure _

theorem still_deliverHints : ∀ hints : List (Uuid × ShoppingList), (deliverHints hints).Only Still
  | [] => only_pure _
  | (dest, list) :: hints => by
    refine Prog.only_bind (only_perform trivial) fun id => ?_
    apply Prog.only_bind (still_of_routine (only_sendTo _ _))
    intro sent
    apply only_ite
    · exact Prog.only_bind (still_guarded trivial) fun _ => still_deliverHints hints
    · exact still_deliverHints hints

theorem still_hintedHandoff : hintedHandoff.Only Still := by
  refine Prog.only_bind (still_guarded trivial) fun hints => ?_
  split
  · exact only_pure _
  · exact still_deliverHints _

theorem still_failureDetection : failureDetection.Only Still :=
  only_locked trivial trivial
    (Prog.only_bind (only_perform trivial) fun _ => still_of_routine (only_sendEach _ _))

theorem still_addEach : ∀ nodes : List Uuid, (addEach nodes).Only Still
  | [] => only_pure _
  | _ :: nodes => ⟨trivial, fun _ => still_addEach nodes⟩

/-- The peers know at least these servers. -/
def knowing (K : Set Uuid) : Monitor PeerSig Tid Unit where
  allow _ _ o := Still o
  expect _ _ o a :=
    match o, a with
    | .membership, table => K ⊆ MembershipTable.names table
    | _, _ => True
  next _ g _ _ := g

variable {K : Set Uuid} {t : Tid}

theorem knowing_of_only {p : Code α} (h : p.Only Still) :
    p.Obeys (knowing K) t (fun _ _ => True) () :=
  Prog.Only.obeys (fun _ => True) (fun _ _ _ ho => ho) (fun _ _ _ _ _ => trivial) p () trivial h

/-- A table of servers that are known has no new entries. -/
theorem no_new_entries {table membership : MembershipTable} (h : table.names ⊆ K)
    (hknown : K ⊆ membership.names) :
    (table.entries.filter fun e => (membership.find? e.1).isNone) = [] := by
  rw [List.filter_eq_nil_iff]
  rintro ⟨u, addr⟩ he
  have hu : u ∈ table.names := by
    change (table.find? u).isSome = true
    rw [(FinMap.mem_entries _ _ _).1 he]
    rfl
  have hsome : (FinMap.find? membership u).isSome = true := hknown (h hu)
  intro hnew
  rw [Option.isNone_iff_eq_none.1 hnew] at hsome
  cases hsome

/-- **A gossip without news moves nothing.** -/
theorem knowing_handleGossip (self : Uuid) {table : MembershipTable} (h : table.names ⊆ K) :
    (handleGossip self table).Obeys (knowing K) t (fun _ _ => True) () := by
  have hadd : (addNodes table.keys).Obeys (knowing K) t (fun _ _ => True) () :=
    knowing_of_only (only_locked trivial trivial (still_addEach _))
  apply hadd.call
  rintro _ ⟨⟩ -
  refine ⟨trivial, fun _ _ => ⟨trivial, fun membership hknown => ?_⟩⟩
  have hnone := no_new_entries h hknown
  have hentries : (locked .hashring (perform .hashring) >>= fun ring : HashRing =>
      addEntries self (ring.getPredecessors self)
        (table.entries.filter fun e => (membership.find? e.1).isNone)).Only Still := by
    refine Prog.only_bind (still_guarded trivial) fun ring => ?_
    rw [hnone]
    exact only_pure _
  have hguarded := Prog.only_bind hentries fun _ =>
    Prog.only_bind (only_perform (o := .unlock .membership) trivial) fun _ => only_pure ()
  exact knowing_of_only hguarded

/-- What starts moves nothing, where nobody is told to leave and gossip brings no news. -/
theorem knowing_starts {e : Arrival} {p : Code Unit} {w w' : World hash}
    (h : arrive e w = some (some (t, p), w'))
    (hnet : ∀ q ∈ w.net, q.msg ≠ .leave ∧ ∀ table, q.msg = .gossip table → table.names ⊆ K) :
    p.Obeys (knowing K) t (fun _ _ => True) () := by
  cases e with
  | ready u => cases h
  | request client msg =>
    simp only [arrive] at h
    split at h <;> cases h
  | take r =>
    simp only [arrive] at h
    split at h <;> cases h
    exact knowing_of_only (still_handleIncomingProxy r.clientId r.msg)
  | deliver q =>
    have hq := mem_net_of_deliver h
    simp only [arrive, if_pos hq] at h
    cases h
    obtain ⟨hleave, hgossip⟩ := hnet q hq
    by_cases hmsg : ∃ table, q.msg = .gossip table
    · obtain ⟨table, htable⟩ := hmsg
      rw [htable]
      exact knowing_handleGossip q.dst (hgossip table htable)
    · exact knowing_of_only (still_handleIncoming q.dst q.src hleave fun table h => hmsg ⟨table, h⟩)
  | lose q =>
    simp only [arrive] at h
    split at h <;> cases h
  | message src dst msg =>
    simp only [arrive] at h
    split at h <;> cases h
  | tickGossip u =>
    cases h
    exact knowing_of_only (still_of_routine (only_sendGossip u))
  | tickHintedHandoff u =>
    cases h
    exact knowing_of_only still_hintedHandoff
  | tickFailureDetection u =>
    cases h
    exact knowing_of_only still_failureDetection

end Programs

/-! ## Rings and tables stay -/

section Steady

variable {ring : HashRing} {w₀ : World hash} {evs : History hash} {c : Config (cluster hash)}

/-- No server has announced itself. -/
theorem named_of_announced (hsteady : w₀.Steady ring)
    (hrun : Run (cluster hash) stableMembership (quiet w₀) evs c) {u : Uuid} {addr : String}
    (h : Announced w₀ evs u addr) : u ∈ ring.servers := by
  rcases h with ⟨p, hp⟩ | ⟨src, dst, hmem⟩
  · have hknown : u ∈ w₀.knows p := Option.isSome_iff_exists.2 ⟨addr, hp⟩
    rw [hsteady.table p] at hknown
    exact hknown
  · obtain ⟨_, _, hD⟩ := hrun.disc_of_mem hmem
    exact hD.elim

/-- Nobody is told to leave. -/
theorem no_leave (hw : w₀.Settled) (hrun : Run (cluster hash) stableMembership (quiet w₀) evs c) :
    ∀ q ∈ c.state.net, q.msg ≠ .leave := by
  refine (cluster_invariant (fun _ w => ∀ q ∈ w.net, q.msg ≠ .leave) ?did (fun _ _ _ h => h) ?arrived
    ?init hrun).1
  case did =>
    intro evs w t o ch a hnet _ hallow _ _ q hq
    rw [net_effect] at hq
    rcases List.mem_append.1 hq with hq | hq
    · cases o with
      | send u msg =>
        cases a with
        | true =>
          cases List.mem_singleton.1 hq
          rintro rfl
          rcases hallow with hcontrol | hsends
          · cases hcontrol
          · unfold Phase.sends at hsends
            split at hsends <;> simp at hsends
        | false => cases hq
      | _ => cases hq
    · exact hnet q hq
  case arrived =>
    intro evs w e r w' hnet _ harr _ hD q hq
    rcases net_arrive harr hq with hq | ⟨src, dst, msg, rfl, -, -⟩
    · exact hnet q hq
    · exact hD.elim
  case init =>
    intro q hq
    rw [hw.net] at hq
    cases hq

/-- Everybody knows whoever is in a gossiped table. -/
theorem no_news (hw : w₀.Settled) (hsteady : w₀.Steady ring)
    (hrun : Run (cluster hash) stableMembership (quiet w₀) evs c) :
    (∀ u, {v | v ∈ ring.servers} ⊆ World.knows c.state u) ∧
      ∀ q ∈ World.net c.state, q.msg ≠ .leave ∧
        ∀ table, q.msg = .gossip table → table.names ⊆ {v | v ∈ ring.servers} := by
  refine ⟨fun u => ?_, fun q hq => ⟨no_leave hw hrun q hq, fun table hmsg v hv => ?_⟩⟩
  · rw [← hsteady.table u]
    exact knows_of_run hrun u
  · obtain ⟨addr, haddr⟩ := Option.isSome_iff_exists.1 hv
    exact named_of_announced hsteady hrun (announced_of_gossip hw hrun hq hmsg haddr)

/-- **Gossip in a steady cluster moves no list.** -/
theorem still_of_run (hw : w₀.Settled) (hsteady : w₀.Steady ring)
    (hrun : Run (cluster hash) stableMembership (quiet w₀) evs c) :
    ∀ (t : Tid) (o : Op) (a : Ans o), (.did t o a : Event (cluster hash)) ∈ evs → Still o := by
  have hrun := hrun.with (fun _ (w : World hash) => (∀ u, {v | v ∈ ring.servers} ⊆ w.knows u) ∧
      ∀ q ∈ w.net, q.msg ≠ .leave ∧
        ∀ table, q.msg = .gossip table → table.names ⊆ {v | v ∈ ring.servers})
    fun _ _ h => no_news hw hsteady h
  have hsound := Run.sound (knowing {v | v ∈ ring.servers}) () (fun _ _ => True)
    (fun evs _ _ => ∀ (t : Tid) (o : Op) (a : Ans o), (.did t o a : Event (cluster hash)) ∈ evs → Still o)
    ?did ?ended ?arrived ?started (fun _ _ _ h => absurd h List.not_mem_nil) hrun
  · obtain ⟨_, hinv, -⟩ := hsound
    exact hinv
  case did =>
    rintro evs gs w t o ch a w' ih hallow hact ⟨-, hknows, -⟩
    obtain ⟨hans, -⟩ := @act_eq hash _ _ _ _ _ _ hact
    refine ⟨?_, fun t' o' a' hmem => ?_⟩
    · cases o with
      | membership =>
        cases hans
        exact hknows t.peer
      | _ => trivial
    · rcases List.mem_cons.1 hmem with heq | hmem
      · cases heq
        exact hallow
      · exact ih t' o' a' hmem
  case ended =>
    intro evs gs w t ih _ t' o' a' hmem
    rcases List.mem_cons.1 hmem with heq | hmem
    · cases heq
    · exact ih t' o' a' hmem
  case arrived =>
    intro evs gs w e w' ih _ _ t' o' a' hmem
    rcases List.mem_cons.1 hmem with heq | hmem
    · cases heq
    · exact ih t' o' a' hmem
  case started =>
    rintro evs gs w e t p w' ih harr - ⟨-, -, hnet⟩
    have hobeys := knowing_starts harr hnet
    refine ⟨(), hobeys, fun t' o' a' hmem => ?_⟩
    rcases List.mem_cons.1 hmem with heq | hmem
    · cases heq
    · exact ih t' o' a' hmem

/-- **A steady cluster stays steady.** -/
theorem steady_of_run (hw : w₀.Settled) (hsteady : w₀.Steady ring) (hwhole : ring.Whole hash)
    (hrun : Run (cluster hash) stableMembership (quiet w₀) evs c) : World.Steady ring c.state := by
  have hstill := still_of_run hw hsteady hrun
  have hadded : ∀ (t : Tid) u (a : Unit), (.did t (.addNode u) a : Event (cluster hash)) ∈ evs →
      u ∈ ring.servers := by
    intro t u a hmem
    obtain ⟨addr, haddr⟩ := announced_of_added hw hrun hmem
    exact named_of_announced hsteady hrun haddr
  refine ⟨fun u => ?_, fun u => ?_, ?_⟩
  · -- every call on a ring so far has put a server on it that was there
    refine Run.invariant (fun evs (w : World hash) =>
      (∀ (t : Tid) (o : Op) (a : Ans o), (.did t o a : Event (cluster hash)) ∈ evs →
        Still o ∧ ∀ v, o = .addNode v → v ∈ ring.servers) → (w.node u).hashring = ring)
      ?did ?ended ?arrived (fun _ => hsteady.hashring u) hrun fun t o a hmem =>
        ⟨hstill t o a hmem, by rintro v rfl; exact hadded t v a hmem⟩
    case did =>
      intro evs w t o ch a w' ih hact _ hfine
      obtain ⟨-, rfl⟩ := @act_eq hash _ _ _ _ _ _ hact
      have hring := ih fun t' o' a' hmem => hfine t' o' a' (List.mem_cons_of_mem _ hmem)
      obtain ⟨hstill, hadd⟩ := hfine t o a List.mem_cons_self
      rw [node_effect]
      split
      · rw [hashring_after, hring]
        cases o with
        | addNode v => exact addNode_of_whole hwhole (hadd v rfl)
        | removeNode v => exact hstill.elim
        | _ => rfl
      · exact hring
    case ended =>
      intro evs w t ih hfine
      exact ih fun t' o' a' hmem => hfine t' o' a' (List.mem_cons_of_mem _ hmem)
    case arrived =>
      intro evs w e r w' ih harr _ hfine
      rw [node_arrive harr]
      exact ih fun t' o' a' hmem => hfine t' o' a' (List.mem_cons_of_mem _ hmem)
  · apply Set.Subset.antisymm
    · intro v hv
      obtain ⟨addr, haddr⟩ := Option.isSome_iff_exists.1 hv
      exact named_of_announced hsteady hrun (announced_of_table hw hrun haddr)
    · rw [← hsteady.table u]
      exact knows_of_run hrun u
  · refine Run.invariant (fun _ (w : World hash) => w.proxyRing = ring) ?_ (fun _ _ _ h => h) ?_
      hsteady.proxyRing hrun
    · intro evs w t o ch a w' ih hact _
      obtain ⟨-, rfl⟩ := @act_eq hash _ _ _ _ _ _ hact
      exact (proxyRing_effect t o a w).trans ih
    · intro evs w e r w' ih harr hD
      refine (proxyRing_arrive harr ?_).trans ih
      rintro u rfl
      exact hD.elim

end Steady

/-! ## Servers that have all been joined -/

section Joined

variable {servers : List Uuid}

theorem mem_names_foldl (m : FinMap Uuid String) (v : Uuid) :
    v ∈ MembershipTable.names (servers.foldl (fun m u => m.insert u u.toString) m) ↔
      v ∈ servers ∨ v ∈ MembershipTable.names m := by
  induction servers generalizing m with
  | nil => simp
  | cons u servers ih =>
    rw [List.foldl_cons, ih]
    have hinsert : v ∈ MembershipTable.names (m.insert u u.toString) ↔
        v = u ∨ v ∈ MembershipTable.names m := by
      change (FinMap.find? (m.insert u u.toString) v).isSome = true ↔ _
      rw [FinMap.find?_insert]
      split
      · simp [*]
      · exact (or_iff_right ‹_›).symm
    rw [hinsert, List.mem_cons]
    tauto

theorem mem_servers_foldl {ring : HashRing} {v : Uuid}
    (h : v ∈ (servers.foldl (fun ring u => ring.addNode hash u) ring).servers) :
    v ∈ servers ∨ v ∈ ring.servers := by
  induction servers generalizing ring with
  | nil => exact Or.inr h
  | cons u servers ih =>
    rcases ih h with h | h
    · exact Or.inl (List.mem_cons_of_mem u h)
    · rcases mem_servers_addNode h with rfl | h
      · exact Or.inl List.mem_cons_self
      · exact Or.inr h

/-- Servers that keep a vnode each are steady once they have all been joined. -/
theorem steady_joined (h : ∀ u ∈ servers, u ∈ (World.joined hash servers).proxyRing.servers) :
    (World.joined hash servers).Steady (World.joined hash servers).proxyRing := by
  refine ⟨fun _ => rfl, fun u => Set.ext fun v => ?_, rfl⟩
  change v ∈ MembershipTable.names (servers.foldl (fun m u => m.insert u u.toString) ∅) ↔ _
  rw [mem_names_foldl]
  constructor
  · rintro (hv | hv)
    · exact h v hv
    · cases hv
  · intro hv
    rcases mem_servers_foldl hv with hv | hv
    · exact Or.inl hv
    · cases hv

end Joined

theorem steady_three : (World.joined md5 [.ofTail 1, .ofTail 2, .ofTail 3]).Steady
    (World.joined md5 [.ofTail 1, .ofTail 2, .ofTail 3]).proxyRing := steady_joined (by decide +kernel)

theorem whole_three : (World.joined md5 [.ofTail 1, .ofTail 2, .ofTail 3]).proxyRing.Whole md5 := by
  unfold Whole
  decide +kernel

/-! ## Where a list belongs -/

/-- The preference list of a list. -/
abbrev HashRing.homes (hash : String → U128) (ring : HashRing) (id : Uuid) : List Uuid :=
  ring.getPreferenceListHash (key hash id)

/-- A row belongs here: its server is in the preference list of the key, or is asked to keep the row
for one of its replicas. -/
def Row.Placed (ring : HashRing) (u : Uuid) (k : U128) (r : Row) : Prop :=
  match r.hintedHandoff with
  | none => u ∈ ring.getPreferenceListHash k
  | some d => d ∈ (ring.getPreferenceListHash k).drop 1

/-- All rows of a server belong there. -/
def ServerStorage.Placed (ring : HashRing) (u : Uuid) (s : ServerStorage hash) : Prop :=
  ∀ k r, s.rows.find? k = some r → r.Placed ring u k

variable (hash) in
/-- What a message moves belongs where it goes. -/
def Msg.Placed (ring : HashRing) (dst : Uuid) : Msg → Prop
  | .replicateList _ l true => dst ∈ ring.homes hash l.id
  | .handoff _ l d => d ∈ (ring.homes hash l.id).drop 1
  | .mergeList _ => False
  | _ => True

variable (hash) in
/-- A request is coordinated where it belongs, and its row has the key of the list asked for. -/
structure Job.Placed (ring : HashRing) (u : Uuid) (job : Job) : Prop where
  coordinator : (ring.homes hash job.list.id).head? = some u
  base : ∀ l ∈ job.base, key hash l.id = key hash job.list.id

variable (hash) in
/-- The hints in hand name replicas. -/
def HintsPlaced (ring : HashRing) (todo : List (Uuid × ShoppingList)) : Prop :=
  ∀ e ∈ todo, e.1 ∈ (ring.homes hash e.2.id).drop 1

variable (hash) in
/-- What a task of this server has in hand belongs there. -/
def Phase.Placed (ring : HashRing) (u : Uuid) : Phase → Prop
  | .store _ _ l => u ∈ ring.homes hash l.id
  | .hint _ _ l d => d ∈ (ring.homes hash l.id).drop 1
  | .mergeIn _ => False
  | .mergeOut _ => False
  | .moving ls => ls = []
  | .hints todo => HintsPlaced hash ring todo
  | .hinting _ todo => HintsPlaced hash ring todo
  | .delivered _ _ todo => HintsPlaced hash ring todo
  | .asked _ l => (ring.homes hash l.id).head? = some u
  | .start job => job.Placed hash ring u
  | .chosen job replicas => job.Placed hash ring u ∧ replicas = (ring.homes hash job.list.id).drop 1
  | .named job replicas _ => job.Placed hash ring u ∧ replicas = (ring.homes hash job.list.id).drop 1
  | .spreading job replicas _ todo => job.Placed hash ring u ∧
      replicas = (ring.homes hash job.list.id).drop 1 ∧ todo ⊆ replicas
  | .decided job _ _ => job.Placed hash ring u
  | .writing _ l => u ∈ ring.homes hash l.id
  | _ => True

section Placed

variable {ring : HashRing} {u : Uuid} {t : Tid} {o : Op} {a : Ans o} {g : Phase} {w : World hash}

theorem Job.Placed.home {job : Job} (h : job.Placed hash ring u) : u ∈ ring.homes hash job.list.id :=
  List.mem_of_mem_head? h.coordinator

/-- A hint comes from a row. -/
theorem hintsPlaced_of_rows {s : ServerStorage hash} (h : s.Placed ring u) :
    HintsPlaced hash ring s.getHintedHandoffs := by
  rintro ⟨d, l⟩ he
  exact h _ _ ((mem_getHintedHandoffs s d l).1 he)

theorem placed_next (hring : (w.node t.peer).hashring = ring)
    (hrows : (w.node t.peer).storage.Placed ring t.peer) (hstill : Still o) {ch : Choice}
    (hallow : g.allow o) (hans : answer t o ch w = some a) (h : g.Placed hash ring t.peer) :
    (g.next hash o a).Placed hash ring t.peer := by
  have hgo : Phase.Goes hash g o a (g.next hash o a) := Phase.goes_next hallow
  generalize g.next hash o a = g' at hgo
  cases hgo with
  | stay => exact h
  | drop => trivial
  | merged => exact h.elim
  | unmerged => exact h.elim
  | @based client l base =>
    refine ⟨h, fun l' hl' => ?_⟩
    have hrow : (w.node t.peer).storage.getShoppingList l.id = base := Choice.attempt_eq_some hans
    obtain rfl : base = some l' := hl'
    obtain ⟨hint, hfind⟩ := (getShoppingList_eq_some _ _ _).1 hrow
    exact (w.node t.peer).storage.keyed _ _ hfind
  | @read hints =>
    cases hints with
    | none => exact fun e he => by cases he
    | some hints =>
      obtain rfl : (w.node t.peer).storage.getHintedHandoffs = hints := Choice.attempt_eq_some hans
      exact hintsPlaced_of_rows hrows
  | old => exact hstill.elim
  | all => exact hstill.elim
  | choice =>
    cases hans
    rw [hring]
    exact ⟨h, rfl⟩
  | opened => exact ⟨h.1, h.2, fun _ hx => hx⟩
  | spread => exact ⟨h.1, h.2.1, fun _ hx => h.2.2 (List.mem_of_mem_erase hx)⟩
  | hinted from_ =>
    rcases from_ with rfl | ⟨rid, e, rfl⟩ | ⟨d, l, rfl⟩
    · exact h
    · exact fun x hx => h x (List.mem_cons_of_mem _ hx)
    · exact h
  | sent => exact fun x hx => h x (List.mem_cons_of_mem _ hx)
  | unsent => exact fun x hx => h x (List.mem_cons_of_mem _ hx)
  | decided => exact h.1
  | write => exact h.home
  | join base =>
    change t.peer ∈ ring.getPreferenceListHash (key hash _)
    rw [h.base _ base]
    exact h.home
  | found => trivial
  | kept => trivial
  | wrote => trivial
  | noted => trivial
  | refused => trivial
  | _ => exact h

/-- What is sent belongs where it goes. -/
theorem placed_sent {v : Uuid} {m : Msg} (hallow : g.allow (.send v m)) (h : g.Placed hash ring u) :
    m.Placed hash ring v := by
  rcases hallow with hcontrol | hsends
  · cases m <;> trivial
  · cases g with
    | ackTo src rid =>
      obtain ⟨-, rfl⟩ := hsends
      trivial
    | ackListTo src rid l =>
      obtain ⟨-, rfl⟩ := hsends
      trivial
    | moving ls =>
      obtain ⟨l, hl, -⟩ := hsends
      rw [show ls = [] from h] at hl
      cases hl
    | hinting rid todo =>
      rcases todo with _ | ⟨⟨d, l⟩, todo⟩
      · exact hsends.elim
      · obtain ⟨rfl, rfl⟩ := hsends
        exact List.mem_of_mem_drop (h _ List.mem_cons_self)
    | spreading job replicas rid todo =>
      obtain ⟨-, rfl, htodo⟩ := h
      rcases hsends with ⟨hv, rfl⟩ | ⟨-, r, hr, rfl⟩
      · cases hw : job.write with
        | true => exact List.mem_of_mem_drop (htodo hv)
        | false => trivial
      · exact hr
    | _ => exact hsends.elim

/-- What is stored belongs here. -/
theorem placed_stored (hallow : g.allow o) (h : g.Placed hash ring u) {s : ServerStorage hash}
    (hs : s.Placed ring u) : (storageAfter o a s).Placed ring u := by
  intro k r hr
  cases o with
  | writeShoppingList l =>
    cases a with
    | none => exact hs k r hr
    | some _ =>
      rw [show storageAfter (.writeShoppingList l) (some _) s = s.upsert l none from rfl, rows_upsert] at hr
      split at hr
      · rename_i hk
        cases hr
        subst hk
        change u ∈ ring.homes hash l.id
        cases g with
        | store src rid l' =>
          obtain rfl : l = l' := hallow
          exact h
        | writing job l' =>
          obtain rfl : l = l' := hallow
          exact h
        | mergeOut l' => exact h.elim
        | _ => exact hallow.elim
      · exact hs k r hr
  | writeShoppingListHandoff l d =>
    cases a with
    | none => exact hs k r hr
    | some _ =>
      obtain ⟨src, rid, rfl⟩ := hallow
      rw [show storageAfter (.writeShoppingListHandoff l d) (some _) s = s.upsert l (some d) from rfl,
        rows_upsert] at hr
      split at hr
      · rename_i hk
        cases hr
        subst hk
        exact h
      · exact hs k r hr
  | deleteShoppingList id =>
    cases a with
    | none => exact hs k r hr
    | some _ =>
      change (s.deleteShoppingList id).rows.find? k = some r at hr
      rw [rows_delete] at hr
      split at hr
      · cases hr
      · exact hs k r hr
  | _ => exact hs k r hr

end Placed

/-! ## Runs -/

/-- Everything is where it belongs. -/
structure World.Placed (ring : HashRing) (evs : History hash) (w : World hash) : Prop where
  rows : ∀ u, (w.node u).storage.Placed ring u
  net : ∀ q ∈ w.net, q.msg.Placed hash ring q.dst
  requests : ∀ r ∈ w.requests, (routed r.msg).bind (ring.getCoordinator hash) = some r.peer
  phases : ∀ t, (phases evs t).Placed hash ring t.peer

section Runs

variable {ring : HashRing} {w : World hash} {evs : History hash}

theorem placed_did (hsteady : w.Steady ring) (hplaced : w.Placed ring evs) {t : Tid} {o : Op} {a : Ans o}
    {ch : Choice} (hstill : Still o) (hallow : (phases evs t).allow o) (hans : answer t o ch w = some a) :
    (effect t o a w).Placed ring (.did t o a :: evs) := by
  refine ⟨fun u => ?_, fun q hq => ?_, fun r hr => ?_, fun t' => ?_⟩
  · rw [storage_effect]
    split
    · rename_i hu
      subst hu
      exact placed_stored hallow (hplaced.phases t) (hplaced.rows t.peer)
    · exact hplaced.rows u
  · rw [net_effect] at hq
    rcases List.mem_append.1 hq with hq | hq
    · cases o with
      | send v msg =>
        cases a with
        | true =>
          cases List.mem_singleton.1 hq
          exact placed_sent hallow (hplaced.phases t)
        | false => cases hq
      | _ => cases hq
    · exact hplaced.net q hq
  · rw [requests_effect] at hr
    exact hplaced.requests r hr
  · rw [phases_did]
    split
    · rename_i ht
      subst ht
      exact placed_next (hsteady.hashring _) (hplaced.rows _) hstill hallow hans (hplaced.phases _)
    · exact hplaced.phases t'

theorem placed_arrived (hsteady : w.Steady ring) (hplaced : w.Placed ring evs) {e : Arrival}
    {r : Option (Tid × Code Unit)} {w' : World hash} (harr : arrive e w = some (r, w'))
    (hstable : ∀ src dst msg, e ≠ .message src dst msg) : w'.Placed ring (.arrived e :: evs) := by
  refine ⟨fun u => ?_, fun q hq => ?_, fun q hq => ?_, fun t => ?_⟩
  · rw [node_arrive harr]
    exact hplaced.rows u
  · rcases net_arrive harr hq with hq | ⟨src, dst, msg, rfl, -, -⟩
    · exact hplaced.net q hq
    · exact absurd rfl (hstable src dst msg)
  · rcases requests_arrive harr hq with hq | ⟨client, msg, u, rfl, hu, rfl⟩
    · exact hplaced.requests q hq
    · rw [hsteady.proxyRing] at hu
      exact hu
  · rcases phases_arrived evs e t with hsame | ⟨g, hbegun, hg⟩
    · rw [hsame]
      exact hplaced.phases t
    · rw [hg]
      cases e with
      | take q =>
        cases hbegun
        have hq := hplaced.requests q (mem_requests_of_take harr)
        cases hm : q.msg with
        | getList l =>
          rw [hm] at hq
          exact hq
        | putList l =>
          rw [hm] at hq
          exact ⟨hq, fun _ hbase => by cases hbase⟩
        | _ => trivial
      | deliver q =>
        cases hbegun
        have hq := hplaced.net q (mem_net_of_deliver harr)
        cases hm : q.msg with
        | replicateList rid l write =>
          rw [hm] at hq
          cases write with
          | true => exact hq
          | false => trivial
        | handoff rid l d =>
          rw [hm] at hq
          exact hq
        | mergeList l =>
          rw [hm] at hq
          exact hq
        | gossip table => rfl
        | leave => rfl
        | _ => trivial
      | tickGossip u => cases hbegun; trivial
      | tickHintedHandoff u => cases hbegun; trivial
      | tickFailureDetection u => cases hbegun; trivial
      | _ => cases hbegun

theorem placed_ended (hplaced : w.Placed ring evs) (t : Tid) : w.Placed ring (.ended t :: evs) := by
  refine ⟨hplaced.rows, hplaced.net, hplaced.requests, fun t' => ?_⟩
  rw [phases_ended]
  split
  · trivial
  · exact hplaced.phases t'

/-- In the beginning nothing is on its way. -/
theorem placed_settled (hw : w.Settled) (hrows : ∀ u, (w.node u).storage.Placed ring u) :
    w.Placed ring [] := by
  refine ⟨hrows, fun q hq => ?_, fun r hr => ?_, fun _ => trivial⟩
  · rw [hw.net] at hq
    cases hq
  · rw [hw.requests] at hr
    cases hr

/-- **Every list stays where it belongs**, in every run of a steady cluster: what a server stores
without a hint has a key for which it is in the preference list, a hint names a replica of the list that
it keeps, and whatever is on its way belongs where it goes. -/
theorem rows_placed {w₀ : World hash} {c : Config (cluster hash)} (hw : w₀.Settled)
    (hsteady : w₀.Steady ring) (hwhole : ring.Whole hash)
    (hrows : ∀ u, (w₀.node u).storage.Placed ring u)
    (hrun : Run (cluster hash) stableMembership (quiet w₀) evs c) :
    World.Steady ring c.state ∧ (∀ u, (World.node c.state u).storage.Placed ring u) ∧
      ∀ q ∈ World.net c.state, q.msg.Placed hash ring q.dst := by
  have hstill := still_of_run hw hsteady hrun
  have hwith := hrun.with (fun _ (w : World hash) => World.Steady ring w)
    fun _ _ h => steady_of_run hw hsteady hwhole h
  have hplaced := (cluster_invariant
    (fun evs w => (∀ (t : Tid) (o : Op) (a : Ans o), (.did t o a : Event (cluster hash)) ∈ evs → Still o) →
      World.Placed ring evs w) ?did ?ended ?arrived ?init hwith).1 hstill
  · exact ⟨steady_of_run hw hsteady hwhole hrun, hplaced.rows, hplaced.net⟩
  case did =>
    rintro evs w t o ch a hplaced - hallow hans ⟨-, hsteady⟩ hstill
    apply placed_did hsteady _ (hstill t o a List.mem_cons_self) hallow hans
    exact hplaced fun t' o' a' hmem => hstill t' o' a' (List.mem_cons_of_mem _ hmem)
  case ended =>
    intro evs w t hplaced hstill
    apply placed_ended
    exact hplaced fun t' o' a' hmem => hstill t' o' a' (List.mem_cons_of_mem _ hmem)
  case arrived =>
    rintro evs w e r w' hplaced - harr - ⟨hD, hsteady⟩ hstill
    refine placed_arrived hsteady (hplaced fun t' o' a' hmem => ?_) harr ?_
    · exact hstill t' o' a' (List.mem_cons_of_mem _ hmem)
    · rintro src dst msg rfl
      exact hD.elim
  case init => exact fun _ => placed_settled hw hrows

end Runs

/-- The list that a client has put is where it belongs. -/
theorem rows_placed_putReplicated :
    ∃ evs c, Run (cluster md5) stableMembership
        (quiet (World.joined md5 [.ofTail 1, .ofTail 2, .ofTail 3])) evs c ∧
      (∃ r, (World.node c.state (.ofTail 3)).storage.rows.find? (key md5 (.ofTail 101)) = some r ∧
        r.hintedHandoff = none) ∧
      .ofTail 3 ∈ (World.proxyRing c.state).homes md5 (.ofTail 101) := by
  obtain ⟨evs, c, hrun, hcheck⟩ := exists_run (D := stableMembership)
    (fun _ _ ev => isStable ev) (fun _ _ _ => stable_of_isStable)
    (quiet (World.joined md5 [.ofTail 1, .ofTail 2, .ofTail 3])) putReplicated
    (fun _ c => ((World.node c.state (.ofTail 3)).storage.rows.find? (key md5 (.ofTail 101))).any
      fun r => r.hintedHandoff = none)
    (by decide +kernel)
  obtain ⟨r, hr, hnone⟩ := (Option.any_eq_true _ _).1 hcheck
  have hnone := of_decide_eq_true hnone
  obtain ⟨hsteady, hrows, -⟩ := rows_placed (settled_joined md5 _)
    steady_three whole_three (fun _ _ _ h => by cases h) hrun
  refine ⟨evs, c, hrun, ⟨r, hr, hnone⟩, ?_⟩
  have hplaced := hrows _ _ r hr
  unfold Row.Placed at hplaced
  rw [hnone] at hplaced
  rw [hsteady.proxyRing]
  exact hplaced

end Sdle
