import Sdle.Cluster
import Sdle.Operations
import Sdle.Placement

/-!
# Ring and membership table (`server.rs`)

A peer grows its hash ring and its membership table separately: joining replaces the table, a
`Hello` inserts into the table, and a `Gossip` adds to the ring first and to the table after that,
unless it returns early.

* `Kept` — ring and table are what the operations of the history made of them.
* `ends_handleGossip` — what the handling of a `Gossip` has done when it ends.
* `ring_agrees_iff` — **when ring and membership agree**, between handlers.
-/

set_option autoImplicit false

namespace Sdle

open Tasks Peer HashRing

variable {hash : String → U128}

/-- `Peer::join` once it has stopped waiting, with the message that it got last. -/
def Node.join (n : Node hash) : Option Msg → Option (Node hash)
  | some (.gossip table) => some { n with membership := table }
  | _ => none

/-- The ring and the table name the same servers. -/
def Node.Agrees (n : Node hash) : Prop :=
  ∀ v, v ∈ n.hashring.servers ↔ (n.membership.find? v).isSome = true

/-! ## Histories of one peer -/

/-- The peer handles messages from peers only, and only `Hello` and `Gossip`. -/
def MembershipOnly (self : Uuid) : Discipline (cluster hash) := fun _ _ ev =>
  match ev with
  | .arrived (.take r) => r.peer ≠ self
  | .arrived (.deliver p) => p.dst = self →
    (∃ v addr, p.msg = .hello v addr) ∨ ∃ table, p.msg = .gossip table
  | .arrived (.tickGossip u) => u ≠ self
  | .arrived (.tickHintedHandoff u) => u ≠ self
  | .arrived (.tickFailureDetection u) => u ≠ self
  | _ => True

/-- The test for `MembershipOnly`. -/
def membershipOnly (self : Uuid) (_ : History hash) (_ : World hash) (ev : Event (cluster hash)) : Bool :=
  match ev with
  | .arrived (.take r) => decide (r.peer ≠ self)
  | .arrived (.deliver p) =>
    match p.msg with
    | .hello _ _ => true
    | .gossip _ => true
    | _ => decide (p.dst ≠ self)
  | .arrived (.tickGossip u) => decide (u ≠ self)
  | .arrived (.tickHintedHandoff u) => decide (u ≠ self)
  | .arrived (.tickFailureDetection u) => decide (u ≠ self)
  | _ => true

theorem membershipOnly_of_test (self : Uuid) (evs : History hash) (w : World hash)
    (ev : Event (cluster hash)) (h : membershipOnly self evs w ev = true) :
    MembershipOnly self evs w ev := by
  cases ev with
  | arrived e =>
    cases e with
    | deliver p =>
      intro hdst
      obtain ⟨serial, src, dst, msg⟩ := p
      cases msg with
      | hello v addr => exact Or.inl ⟨v, addr, rfl⟩
      | gossip table => exact Or.inr ⟨table, rfl⟩
      | _ => exact absurd hdst (of_decide_eq_true h)
    | take r => exact (of_decide_eq_true h : r.peer ≠ self)
    | tickGossip u => exact (of_decide_eq_true h : u ≠ self)
    | tickHintedHandoff u => exact (of_decide_eq_true h : u ≠ self)
    | tickFailureDetection u => exact (of_decide_eq_true h : u ≠ self)
    | _ => trivial
  | _ => trivial

section Histories

variable (self : Uuid) (evs : History hash)

/-- The packet was delivered to the peer. -/
def DeliveredTo (p : Packet) : Prop :=
  (.arrived (.deliver p) : Event (cluster hash)) ∈ evs ∧ p.dst = self

/-- A `Hello` of this server has come. -/
def Greeted (v : Uuid) : Prop := ∃ p addr, DeliveredTo self evs p ∧ p.msg = .hello v addr

/-- This packet is a `Gossip` with this server, and has come. -/
def GossipedIn (p : Packet) (v : Uuid) : Prop :=
  DeliveredTo self evs p ∧ ∃ table, p.msg = .gossip table ∧ (table.find? v).isSome = true

/-- A `Gossip` with this server has come. -/
def Gossiped (v : Uuid) : Prop := ∃ p, GossipedIn self evs p v

/-- The storage did not give the task the old data it asked for. -/
def FailedIn (t : Tid) : Prop :=
  ∃ u h, (.did t (.getOldData u h) none : Event (cluster hash)) ∈ evs

end Histories

/-- The packet that a step delivers to the peer. -/
def delivered (self : Uuid) : Event (cluster hash) → Option Packet
  | .arrived (.deliver p) => if p.dst = self then some p else none
  | _ => none

theorem mem_delivered {self : Uuid} {evs : History hash} {p : Packet} :
    p ∈ evs.filterMap (delivered self) ↔ DeliveredTo self evs p := by
  rw [List.mem_filterMap]
  constructor
  · rintro ⟨ev, hmem, hev⟩
    unfold delivered at hev
    split at hev
    · split at hev
      · rename_i hdst
        cases hev
        exact ⟨hmem, hdst⟩
      · cases hev
    · cases hev
  · rintro ⟨hmem, hdst⟩
    exact ⟨_, hmem, if_pos hdst⟩

/-- The task that the storage did not give its old data in a step. -/
def oldDataFailed : Event (cluster hash) → Option Tid
  | .did t (.getOldData _ _) none => some t
  | _ => none

theorem mem_oldDataFailed {evs : History hash} {t : Tid} (h : FailedIn evs t) :
    t ∈ evs.filterMap oldDataFailed := by
  obtain ⟨u, k, hmem⟩ := h
  exact List.mem_filterMap.2 ⟨_, hmem, rfl⟩

/-! ## What the operations make of the ring and the table -/

theorem membership_after (t : Tid) (o : Op) (a : Ans o) (n : Node hash) :
    (n.after t o a).membership =
      match o with
      | .membershipInsert u addr => n.membership.insert u addr
      | _ => n.membership := by
  cases o with
  | writeShoppingList l => cases a <;> rfl
  | writeShoppingListHandoff l d => cases a <;> rfl
  | deleteShoppingList id => cases a <;> rfl
  | ack r => exact frame_answered Node.membership (fun _ _ _ => rfl) n r _
  | ackList r l => exact frame_answered Node.membership (fun _ _ _ => rfl) n r _
  | _ => rfl

/-- The call on the ring that an operation makes. -/
def callOf : Op → Option Change
  | .addNode v => some (.addNode v)
  | .removeNode v => some (.removeNode v)
  | _ => none

theorem hashring_after (t : Tid) (o : Op) (a : Ans o) (n : Node hash) :
    (n.after t o a).hashring = (callOf o).elim n.hashring fun c => c.apply hash n.hashring := by
  cases o with
  | writeShoppingList l => cases a <;> rfl
  | writeShoppingListHandoff l d => cases a <;> rfl
  | deleteShoppingList id => cases a <;> rfl
  | ack r => exact frame_answered Node.hashring (fun _ _ _ => rfl) n r _
  | ackList r l => exact frame_answered Node.hashring (fun _ _ _ => rfl) n r _
  | _ => rfl

theorem failure_after (t : Tid) (o : Op) (a : Ans o) (n : Node hash) :
    (n.after t o a).failure =
      match o with
      | .markFailure u => n.failure.markFailure u
      | .clearFailure u => n.failure.clearFailure u
      | _ => n.failure := by
  cases o with
  | writeShoppingList l => cases a <;> rfl
  | writeShoppingListHandoff l d => cases a <;> rfl
  | deleteShoppingList id => cases a <;> rfl
  | ack r => exact frame_answered Node.failure (fun _ _ _ => rfl) n r _
  | ackList r l => exact frame_answered Node.failure (fun _ _ _ => rfl) n r _
  | _ => rfl

/-- A task of the peer has made this call on the ring. -/
def Called (self : Uuid) (evs : History hash) (c : Change) : Prop :=
  ∃ (t : Tid) (o : Op) (a : Ans o), t.peer = self ∧
    (.did t o a : Event (cluster hash)) ∈ evs ∧ callOf o = some c

/-- A task of the peer has put this server into the table. -/
def Inserted (self : Uuid) (evs : History hash) (v : Uuid) : Prop :=
  ∃ (t : Tid) (addr : String), t.peer = self ∧
    (.did t (.membershipInsert v addr) () : Event (cluster hash)) ∈ evs

/-- The ring and the table are what the history made of them. -/
structure Grown (peer : Uuid) (table : MembershipTable) (evs : History hash) (w : World hash) :
    Prop where
  ring : ∃ calls, (w.node peer).hashring = changed hash (.new VNODES REPLICAS) calls ∧
    ∀ c, c ∈ calls ↔ c = .addNode peer ∨ Called peer evs c
  members : ∀ v, ((w.node peer).membership.find? v).isSome = true ↔
    (table.find? v).isSome = true ∨ Inserted peer evs v
  told : ∀ (t : Tid) (a : MembershipTable) v, t.peer = peer →
    (.did t .membership a : Event (cluster hash)) ∈ evs → (a.find? v).isSome = true →
    ((w.node peer).membership.find? v).isSome = true

section Grown

variable {self : Uuid} {table : MembershipTable} {evs : History hash} {w : World hash}

theorem called_cons {ev : Event (cluster hash)} {c : Change} :
    Called self (ev :: evs) c ↔
      (∃ t o a, ev = .did t o a ∧ t.peer = self ∧ callOf o = some c) ∨ Called self evs c := by
  constructor
  · rintro ⟨t, o, a, ht, hmem, ho⟩
    rcases List.mem_cons.1 hmem with rfl | hmem
    · exact Or.inl ⟨t, o, a, rfl, ht, ho⟩
    · exact Or.inr ⟨t, o, a, ht, hmem, ho⟩
  · rintro (⟨t, o, a, rfl, ht, ho⟩ | ⟨t, o, a, ht, hmem, ho⟩)
    · exact ⟨t, o, a, ht, List.mem_cons_self, ho⟩
    · exact ⟨t, o, a, ht, List.mem_cons_of_mem _ hmem, ho⟩

theorem inserted_cons {ev : Event (cluster hash)} {v : Uuid} :
    Inserted self (ev :: evs) v ↔
      (∃ t addr, ev = .did t (.membershipInsert v addr) () ∧ t.peer = self) ∨
        Inserted self evs v := by
  constructor
  · rintro ⟨t, addr, ht, hmem⟩
    rcases List.mem_cons.1 hmem with rfl | hmem
    · exact Or.inl ⟨t, addr, rfl, ht⟩
    · exact Or.inr ⟨t, addr, ht, hmem⟩
  · rintro (⟨t, addr, rfl, ht⟩ | ⟨t, addr, ht, hmem⟩)
    · exact ⟨t, addr, ht, List.mem_cons_self⟩
    · exact ⟨t, addr, ht, List.mem_cons_of_mem _ hmem⟩

/-- An event that is not an operation of the peer. -/
theorem Grown.other (h : Grown self table evs w) {ev : Event (cluster hash)} {w' : World hash}
    (hev : ∀ t o a, ev = .did t o a → t.peer ≠ self) (hnode : w'.node self = w.node self) :
    Grown self table (ev :: evs) w' := by
  refine ⟨?_, fun v => ?_, fun t a v ht hmem ha => ?_⟩
  · obtain ⟨calls, hring, hcalls⟩ := h.ring
    refine ⟨calls, by rw [hnode, hring], fun c => (hcalls c).trans (or_congr_right ?_)⟩
    rw [called_cons]
    refine (or_iff_right ?_).symm
    rintro ⟨t, o, a, heq, ht, -⟩
    exact hev t o a heq ht
  · rw [hnode, h.members, inserted_cons]
    refine or_congr_right (or_iff_right ?_).symm
    rintro ⟨t, addr, heq, ht⟩
    exact hev t _ _ heq ht
  · rw [hnode]
    rcases List.mem_cons.1 hmem with heq | hmem
    · exact absurd ht (hev t _ _ heq.symm)
    · exact h.told t a v ht hmem ha

/-- An operation of the peer. -/
theorem Grown.own (h : Grown self table evs w) {t : Tid} {o : Op} {a : Ans o} {c : Choice}
    (ht : t.peer = self) (hans : answer t o c w = some a) :
    Grown self table (.did t o a :: evs) (effect t o a w) := by
  have hnode : (effect t o a w).node self = (w.node self).after t o a := by
    rw [node_effect, if_pos ht.symm]
  refine ⟨?_, fun v => ?_, fun t' a' v ht' hmem ha => ?_⟩
  · obtain ⟨calls, hring, hcalls⟩ := h.ring
    refine ⟨calls ++ (callOf o).toList, ?_, fun d => ?_⟩
    · rw [hnode, hashring_after, hring]
      cases callOf o with
      | none => rw [Option.toList_none, List.append_nil]; rfl
      | some d => exact (changed_append _ _ _).symm
    · rw [List.mem_append, hcalls, called_cons, Option.mem_toList, or_assoc]
      refine or_congr_right (or_comm.trans (or_congr_left ⟨fun hd => ⟨t, o, a, rfl, ht, hd⟩, ?_⟩))
      rintro ⟨t', o', a', heq, -, hd⟩
      cases heq
      exact hd
  · have hgrown := h.members v
    rw [hnode, membership_after, inserted_cons]
    cases o with
    | membershipInsert u addr =>
      dsimp only
      rw [FinMap.find?_insert]
      by_cases hu : v = u
      · rw [if_pos hu]
        exact iff_of_true rfl (Or.inr (Or.inl ⟨t, addr, by rw [hu], ht⟩))
      · rw [if_neg hu, hgrown]
        refine or_congr_right (or_iff_right ?_).symm
        rintro ⟨t', addr', heq, -⟩
        cases heq
        exact hu rfl
    | _ =>
      refine hgrown.trans (or_congr_right (or_iff_right ?_).symm)
      rintro ⟨t', addr, heq, -⟩
      cases heq
  · have hold : ((w.node self).membership.find? v).isSome = true →
        (((effect t o a w).node self).membership.find? v).isSome = true := by
      rw [hnode, membership_after]
      cases o with
      | membershipInsert u addr =>
        intro hv
        dsimp only
        rw [FinMap.find?_insert]
        split
        · rfl
        · exact hv
      | _ => exact id
    rcases List.mem_cons.1 hmem with heq | hmem
    · cases heq
      have ha' : (w.node t.peer).membership = a' := Option.some.inj hans
      rw [← ha', ht] at ha
      exact hold ha
    · exact hold (h.told t' a' v ht' hmem ha)

end Grown

/-- **Ring and table are what the history made of them**, in every run of a peer that has joined. -/
theorem grown_of_run {w : World hash} {self : Uuid} {addr : String} {store : ServerStorage hash}
    {reply : Option Msg} {D : Discipline (cluster hash)} {evs : History hash}
    {c : Config (cluster hash)}
    (hjoin : ({ Node.new hash self addr with storage := store } : Node hash).join reply =
      some (w.node self)) (hrun : Run (cluster hash) D (quiet w) evs c) :
    Grown self (w.node self).membership evs c.state := by
  refine Run.invariant (fun evs w' => Grown self (w.node self).membership evs w')
    (fun evs w₁ t o a ch w₂ h hact _ => ?did) (fun evs w₁ t h => ?ended)
    (fun evs w₁ e r w₂ h harrive _ => ?arrived) ?init hrun
  case did =>
    obtain ⟨hans, rfl⟩ := act_eq hact
    by_cases ht : t.peer = self
    · exact h.own ht hans
    · refine h.other (fun t' o' a' heq => ?_) ?_
      · cases heq
        exact ht
      · rw [node_effect, if_neg fun h => ht h.symm]
  case ended => exact h.other (fun t o a heq => nomatch heq) rfl
  case arrived =>
    exact h.other (fun t o a heq => nomatch heq) (by rw [node_arrive harrive])
  case init =>
    refine ⟨⟨[.addNode self], ?_, fun c => ?_⟩, fun v => ?_, fun t a v _ hmem => absurd hmem List.not_mem_nil⟩
    · unfold Node.join at hjoin
      split at hjoin
      · change (w.node self).hashring = _
        rw [← Option.some.inj hjoin]
        rfl
      · cases hjoin
    · rw [List.mem_singleton]
      refine (or_iff_left ?_).symm
      rintro ⟨t, o, a, -, hmem, -⟩
      exact absurd hmem List.not_mem_nil
    · refine (or_iff_left ?_).symm
      rintro ⟨t, addr, -, hmem⟩
      exact absurd hmem List.not_mem_nil

/-! ## What the handlers do -/

/-- The operation puts only these servers on the ring and only those into the table. -/
def Names (ring table : Uuid → Prop) : Op → Prop
  | .addNode v => ring v
  | .membershipInsert v _ => table v
  | .removeNode _ => False
  | _ => True

theorem Routine.names {ring table : Uuid → Prop} {o : Op} (h : Routine o) : Names ring table o := by
  cases o <;> first
    | exact h.elim
    | trivial

theorem only_sendGossipTo (u : Uuid) : (sendGossipTo u).Only Routine := by
  refine Prog.only_bind (only_read trivial) fun table => only_ite ?_ (only_pure _)
  exact Prog.only_bind (only_read trivial) fun _ =>
    Prog.only_bind (only_sendTo _ _) fun _ => only_pure _

theorem only_sendGossip (self : Uuid) : (sendGossip self).Only Routine := by
  refine Prog.only_bind (only_read trivial) fun table => ?_
  refine Prog.only_bind (only_read trivial) fun peers => ?_
  refine Prog.only_bind (only_perform trivial) fun p => ?_
  split
  · exact only_pure _
  · exact only_ite (only_pure _) (Prog.only_bind (only_sendTo _ _) fun _ => only_pure _)

theorem only_hello (self identity v : Uuid) (addr : String) :
    (handleIncoming self identity (.hello v addr)).Only (Names (fun _ => False) (· = v)) := by
  refine Prog.only_bind (only_locked trivial trivial (only_perform rfl)) fun _ => ?_
  refine Prog.only_bind ((only_sendGossipTo v).mono fun o h => h.names) fun _ => ?_
  exact (only_sendGossip self).mono fun o h => h.names

theorem only_addEach {ring table : Uuid → Prop} :
    ∀ nodes : List Uuid, (∀ v ∈ nodes, ring v) → (addEach nodes).Only (Names ring table)
  | [], _ => only_pure _
  | v :: nodes, h => ⟨h v List.mem_cons_self,
      fun _ => only_addEach nodes fun u hu => h u (List.mem_cons_of_mem _ hu)⟩

theorem only_sendOldLists (u : Uuid) : ∀ ls : List ShoppingList, (sendOldLists u ls).Only Routine
  | [] => only_pure _
  | _ :: ls => Prog.only_bind (only_sendTo _ _) fun _ => only_sendOldLists u ls

theorem only_addEntries {ring table : Uuid → Prop} (self : Uuid) (predecessors : List Uuid) :
    ∀ es : List (Sigma fun _ : Uuid => String), (∀ e ∈ es, table e.1) →
      (addEntries self predecessors es).Only (Names ring table)
  | [], _ => only_pure _
  | ⟨u, addr⟩ :: es, h => by
    have hrest := @only_addEntries ring table self predecessors es
      fun e he => h e (List.mem_cons_of_mem _ he)
    refine Prog.only_bind (only_perform (h ⟨u, addr⟩ List.mem_cons_self)) fun _ => only_ite ?_ hrest
    refine Prog.only_bind (only_locked trivial trivial (only_perform trivial)) fun ring => ?_
    split
    · exact hrest
    · refine Prog.only_bind (only_locked trivial trivial (only_perform trivial)) fun old => ?_
      split
      · exact only_pure _
      · exact Prog.only_bind ((only_sendOldLists u _).mono fun o h => h.names) fun _ => hrest

theorem only_handleGossip (self : Uuid) (table : MembershipTable) :
    (handleGossip self table).Only
      (Names (fun v => (table.find? v).isSome = true) fun v => (table.find? v).isSome = true) := by
  have hentry : ∀ e ∈ table.entries, (table.find? e.1).isSome = true := by
    rintro ⟨v, addr⟩ he
    rw [(FinMap.mem_entries _ _ _).1 he]
    rfl
  refine Prog.only_bind (only_locked trivial trivial (only_addEach _ fun v hv => ?_)) fun _ => ?_
  · exact (FinMap.find?_isSome _ _).2 (AList.mem_keys.2 hv)
  · refine only_locked trivial trivial (Prog.only_bind (only_perform trivial) fun membership => ?_)
    refine Prog.only_bind (only_locked trivial trivial (only_perform trivial)) fun ring => ?_
    exact only_addEntries self _ _ fun e he => hentry e (List.mem_of_mem_filter he)

/-- Putting servers on the ring puts each of them on the ring. -/
theorem ends_addEach : ∀ {nodes : List Uuid} {tr : Trace}, (addEach nodes).Ends tr () →
    ∀ v ∈ nodes, (⟨.addNode v, ()⟩ : Sigma Peer.Ans) ∈ tr
  | [], _, _, v, hv => absurd hv List.not_mem_nil
  | u :: nodes, tr, h, v, hv => by
    obtain ⟨_, tr', rfl, hrest⟩ := Prog.ends_op h
    rcases List.mem_cons.1 hv with rfl | hv
    · exact List.mem_cons_self
    · exact List.mem_cons_of_mem _ (ends_addEach hrest v hv)

/-- The loop over the new entries inserts them all, unless the storage fails. -/
theorem ends_addEntries {self : Uuid} {predecessors : List Uuid} :
    ∀ {es : List (Sigma fun _ : Uuid => String)} {tr : Trace},
      (addEntries self predecessors es).Ends tr () →
        (∃ u h, (⟨.getOldData u h, none⟩ : Sigma Peer.Ans) ∈ tr) ∨
          ∀ e ∈ es, (⟨.membershipInsert e.1 e.2, ()⟩ : Sigma Peer.Ans) ∈ tr
  | [], _, _ => Or.inr fun e he => absurd he List.not_mem_nil
  | ⟨u, addr⟩ :: es, tr, h => by
    obtain ⟨_, tr', rfl, hrest⟩ := Prog.ends_op h
    have hloop : ∀ {tr₁ tr₂ : Trace}, tr₁ ⊆ tr₂ → (addEntries self predecessors es).Ends tr₁ () →
        (∃ u h, (⟨.getOldData u h, none⟩ : Sigma Peer.Ans) ∈ tr₂) ∨
          ∀ e ∈ ⟨u, addr⟩ :: es, (⟨.membershipInsert e.1 e.2, ()⟩ : Sigma Peer.Ans) ∈
            (⟨.membershipInsert u addr, ()⟩ : Sigma Peer.Ans) :: tr₂ := by
      intro tr₁ tr₂ hsub hends
      rcases ends_addEntries hends with ⟨x, k, hmem⟩ | hall
      · exact Or.inl ⟨x, k, hsub hmem⟩
      · refine Or.inr fun e he => ?_
        rcases List.mem_cons.1 he with rfl | he
        · exact List.mem_cons_self
        · exact List.mem_cons_of_mem _ (hsub (hall e he))
    have hcons : ∀ {tr₂ : Trace}, ((∃ u h, (⟨.getOldData u h, none⟩ : Sigma Peer.Ans) ∈ tr₂) ∨
        ∀ e ∈ ⟨u, addr⟩ :: es, (⟨.membershipInsert e.1 e.2, ()⟩ : Sigma Peer.Ans) ∈
          (⟨.membershipInsert u addr, ()⟩ : Sigma Peer.Ans) :: tr₂) →
        (∃ x k, (⟨.getOldData x k, none⟩ : Sigma Peer.Ans) ∈
          (⟨.membershipInsert u addr, ()⟩ : Sigma Peer.Ans) :: tr₂) ∨
        ∀ e ∈ ⟨u, addr⟩ :: es, (⟨.membershipInsert e.1 e.2, ()⟩ : Sigma Peer.Ans) ∈
          (⟨.membershipInsert u addr, ()⟩ : Sigma Peer.Ans) :: tr₂ :=
      Or.imp_left fun ⟨x, k, hmem⟩ => ⟨x, k, List.mem_cons_of_mem _ hmem⟩
    refine hcons ?_
    change (if u ∈ predecessors then _ else _ : Code Unit).Ends tr' () at hrest
    split at hrest
    · obtain ⟨tr₁, ring, tr₂, rfl, -, hrest⟩ := Prog.ends_bind hrest
      split at hrest
      · exact hloop (List.subset_append_right _ _) hrest
      · obtain ⟨tr₃, old, tr₄, rfl, hold, hrest⟩ := Prog.ends_bind hrest
        split at hrest
        · left
          rw [ends_read hold]
          exact ⟨_, _, List.mem_append_right _ (List.mem_append_left _
            (List.mem_cons_of_mem _ List.mem_cons_self))⟩
        · obtain ⟨tr₅, _, tr₆, rfl, -, hrest⟩ := Prog.ends_bind hrest
          refine hloop ?_ hrest
          exact fun x hx => List.mem_append_right _ (List.mem_append_right _ (List.mem_append_right _ hx))
    · exact hloop (List.Subset.refl _) hrest

/-- **What the handling of a `Gossip` has done when it ends.** -/
theorem ends_handleGossip {self : Uuid} {table : MembershipTable} {tr : Trace}
    (h : (handleGossip self table).Ends tr ()) {v : Uuid} (hv : (table.find? v).isSome = true) :
    (⟨.addNode v, ()⟩ : Sigma Peer.Ans) ∈ tr ∧
      ((∃ u k, (⟨.getOldData u k, none⟩ : Sigma Peer.Ans) ∈ tr) ∨
        (∃ m : MembershipTable, (⟨.membership, m⟩ : Sigma Peer.Ans) ∈ tr ∧ (m.find? v).isSome = true) ∨
        ∃ addr, (⟨.membershipInsert v addr, ()⟩ : Sigma Peer.Ans) ∈ tr) := by
  obtain ⟨tr₁, _, tr₂, rfl, hadd, hrest⟩ := Prog.ends_bind h
  obtain ⟨tr₃, rfl, heach⟩ := ends_locked hadd
  obtain ⟨tr₄, rfl, hbody⟩ := ends_locked hrest
  obtain ⟨tr₅, m, tr₆, rfl, hread, hnew⟩ := Prog.ends_bind hbody
  obtain ⟨tr₇, ring, tr₈, rfl, -, hloop⟩ := Prog.ends_bind hnew
  rw [ends_perform hread]
  refine ⟨?_, ?_⟩
  · have hmem := ends_addEach heach v (AList.mem_keys.1 ((FinMap.find?_isSome _ _).1 hv))
    simp [hmem]
  · rcases ends_addEntries hloop with ⟨u, k, hmem⟩ | hall
    · exact Or.inl ⟨u, k, by simp [hmem]⟩
    · right
      by_cases hold : (m.find? v).isSome = true
      · exact Or.inl ⟨m, by simp, hold⟩
      · obtain ⟨addr, haddr⟩ := Option.isSome_iff_exists.1 hv
        have hentry : (⟨v, addr⟩ : Sigma fun _ : Uuid => String) ∈
            table.entries.filter fun e => (m.find? e.1).isNone := by
          refine List.mem_filter.2 ⟨(FinMap.mem_entries _ _ _).2 haddr, ?_⟩
          simpa using hold
        have hmem := hall _ hentry
        exact Or.inr ⟨addr, by simp [hmem]⟩

theorem ends_hello {self identity v : Uuid} {addr : String} {tr : Trace}
    (h : (handleIncoming self identity (.hello v addr)).Ends tr ()) :
    (⟨.membershipInsert v addr, ()⟩ : Sigma Peer.Ans) ∈ tr := by
  obtain ⟨tr₁, _, tr₂, rfl, hins, -⟩ := Prog.ends_bind h
  rw [ends_read hins]
  simp

/-! ## Between handlers -/

section Idle

variable {self : Uuid} {w : World hash} {evs : History hash} {c : Config (cluster hash)}

/-- What starts a task of the peer. -/
theorem starts_membership {e : Arrival} {t : Tid} {p : Code Unit}
    (h : Starts (cluster hash) e t p) (ht : t.peer = self) {evs' : History hash} {σ : World hash}
    (hD : MembershipOnly self evs' σ (.arrived e)) :
    ∃ q : Packet, e = .deliver q ∧ q.dst = self ∧ t = .incoming self q.serial ∧
      p = handleIncoming self q.src q.msg := by
  obtain ⟨σ₁, σ₂, harrive⟩ := h
  change arrive e σ₁ = some (some (t, p), σ₂) at harrive
  cases e with
  | deliver q =>
    simp only [arrive] at harrive
    split at harrive
    · simp only [Option.some.injEq, Prod.mk.injEq] at harrive
      obtain ⟨⟨rfl, rfl⟩, -⟩ := harrive
      have hdst : q.dst = self := ht
      exact ⟨q, rfl, hdst, by rw [hdst], by rw [hdst]⟩
    · cases harrive
  | take r =>
    simp only [arrive] at harrive
    split at harrive
    · simp only [Option.some.injEq, Prod.mk.injEq] at harrive
      obtain ⟨⟨rfl, -⟩, -⟩ := harrive
      exact absurd ht hD
    · cases harrive
  | tickGossip u =>
    simp only [arrive, Option.some.injEq, Prod.mk.injEq] at harrive
    obtain ⟨⟨rfl, -⟩, -⟩ := harrive
    exact absurd ht hD
  | tickHintedHandoff u =>
    simp only [arrive, Option.some.injEq, Prod.mk.injEq] at harrive
    obtain ⟨⟨rfl, -⟩, -⟩ := harrive
    exact absurd ht hD
  | tickFailureDetection u =>
    simp only [arrive, Option.some.injEq, Prod.mk.injEq] at harrive
    obtain ⟨⟨rfl, -⟩, -⟩ := harrive
    exact absurd ht hD
  | ready u => cases harrive
  | request client msg =>
    simp only [arrive] at harrive
    split at harrive <;> cases harrive
  | lose q =>
    simp only [arrive] at harrive
    split at harrive <;> cases harrive
  | message src dst msg =>
    simp only [arrive] at harrive
    split at harrive <;> cases harrive

/-- What a task of the peer has done belongs to the handling of a message. -/
theorem handling_of_did (hrun : Run (cluster hash) (MembershipOnly self) (quiet w) evs c) {t : Tid} {o : Op}
    {a : Ans o} (ht : t.peer = self) (hmem : (.did t o a : Event (cluster hash)) ∈ evs) :
    ∃ q : Packet, DeliveredTo self evs q ∧
      ((∃ v addr, q.msg = .hello v addr ∧ Names (fun _ => False) (· = v) o) ∨
        ∃ table, q.msg = .gossip table ∧
          Names (fun v => (table.find? v).isSome = true) (fun v => (table.find? v).isSome = true) o) := by
  obtain ⟨e, p, tr, he, hstart, ⟨-, p', hleads, -⟩, hotr⟩ := hrun.executions.2.1 t o a hmem
  obtain ⟨evs', σ, hD⟩ := hrun.disc_of_mem he
  obtain ⟨q, rfl, hdst, rfl, rfl⟩ := starts_membership hstart ht hD
  refine ⟨q, ⟨he, hdst⟩, ?_⟩
  rcases hD hdst with ⟨v, addr, hmsg⟩ | ⟨table, hmsg⟩
  · rw [hmsg] at hleads
    exact Or.inl ⟨v, addr, hmsg, (only_hello self q.src v addr).leads hleads _ hotr⟩
  · rw [hmsg] at hleads
    exact Or.inr ⟨table, hmsg, (only_handleGossip self table).leads hleads _ hotr⟩

/-- The handling of a delivered message, when the peer is idle. -/
theorem handling_of_delivered (hrun : Run (cluster hash) (MembershipOnly self) (quiet w) evs c)
    (hidle : ∀ t, t.peer = self → c.pool t = none) {q : Packet} (hq : DeliveredTo self evs q) :
    ∃ tr : Trace, (handleIncoming self q.src q.msg).Ends tr () ∧
      ∀ x ∈ tr, (.did (.incoming self q.serial) x.1 x.2 : Event (cluster hash)) ∈ evs := by
  obtain ⟨hmem, hdst⟩ := hq
  obtain ⟨tr, hexec⟩ := executes_of_delivered hrun hmem
  rw [hdst] at hexec
  exact ⟨tr, hexec.ends (hidle _ rfl), hexec.1⟩

/-- Only the handling of a delivered message can be going on. -/
theorem idle_of_delivered (hrun : Run (cluster hash) (MembershipOnly self) (quiet w) evs c)
    (h : ∀ q, DeliveredTo self evs q → c.pool (.incoming self q.serial) = none) {t : Tid}
    (ht : t.peer = self) : c.pool t = none := by
  refine Option.eq_none_iff_forall_not_mem.2 fun p hp => ?_
  obtain ⟨e, p', tr, he, hstart, -⟩ := hrun.executions.1 t p hp
  obtain ⟨evs', σ, hD⟩ := hrun.disc_of_mem he
  obtain ⟨q, rfl, hdst, rfl, -⟩ := starts_membership hstart ht hD
  rw [h q ⟨he, hdst⟩] at hp
  cases hp

theorem called_iff (hrun : Run (cluster hash) (MembershipOnly self) (quiet w) evs c)
    (hidle : ∀ t, t.peer = self → c.pool t = none) (d : Change) :
    Called self evs d ↔ ∃ v, d = .addNode v ∧ Gossiped self evs v := by
  constructor
  · rintro ⟨t, o, a, ht, hmem, hcall⟩
    obtain ⟨q, hq, ⟨v, addr, hmsg, hnames⟩ | ⟨table, hmsg, hnames⟩⟩ := handling_of_did hrun ht hmem
    · cases o <;> first
        | exact hnames.elim
        | cases hcall
    · cases o with
      | addNode v =>
        cases hcall
        exact ⟨v, rfl, q, hq, table, hmsg, hnames⟩
      | removeNode v => exact hnames.elim
      | _ => cases hcall
  · rintro ⟨v, rfl, q, hq, table, hmsg, hv⟩
    obtain ⟨tr, hends, htr⟩ := handling_of_delivered hrun hidle hq
    rw [hmsg] at hends
    exact ⟨_, .addNode v, (), rfl, htr _ (ends_handleGossip hends hv).1, rfl⟩

theorem greeted_or_gossiped (hrun : Run (cluster hash) (MembershipOnly self) (quiet w) evs c) {v : Uuid}
    (h : Inserted self evs v) : Greeted self evs v ∨ Gossiped self evs v := by
  obtain ⟨t, addr, ht, hmem⟩ := h
  obtain ⟨q, hq, ⟨u, addr', hmsg, hnames⟩ | ⟨table, hmsg, hnames⟩⟩ := handling_of_did hrun ht hmem
  · have hu : v = u := hnames
    exact Or.inl ⟨q, addr', hq, hu ▸ hmsg⟩
  · exact Or.inr ⟨q, hq, table, hmsg, hnames⟩

/-- Where no call removes a server, those added have joined. -/
theorem joined_iff_mem {calls : List Change} (hadd : ∀ d ∈ calls, ∃ u, d = .addNode u) (v : Uuid) :
    Joined calls v ↔ .addNode v ∈ calls := by
  induction calls using List.reverseRecOn with
  | nil => exact iff_of_false (fun h => nomatch h) List.not_mem_nil
  | append_singleton calls d ih =>
    obtain ⟨u, rfl⟩ := hadd d (List.mem_append_right _ List.mem_cons_self)
    rw [joined_append, ih fun d hd => hadd d (List.mem_append_left _ hd), List.mem_append,
      List.mem_singleton]
    constructor
    · rintro (heq | ⟨-, hmem⟩)
      · exact Or.inr heq.symm
      · exact Or.inl hmem
    · rintro (hmem | heq)
      · by_cases hu : u = v
        · exact Or.inl (congrArg _ hu)
        · exact Or.inr ⟨hu, hmem⟩
      · exact Or.inl heq.symm

/-- **The servers on the ring**, when the peer is idle. -/
theorem mem_ring_iff {calls : List Change}
    (hcalls : ∀ d, d ∈ calls ↔ d = .addNode self ∨ Called self evs d)
    (hrun : Run (cluster hash) (MembershipOnly self) (quiet w) evs c)
    (hidle : ∀ t, t.peer = self → c.pool t = none)
    (hinj : Set.InjOn hash (vnodeKeys {v | v = self ∨ Gossiped self evs v} VNODES)) (v : Uuid) :
    v ∈ (changed hash (.new VNODES REPLICAS) calls).servers ↔ v = self ∨ Gossiped self evs v := by
  have hadd : ∀ d, d ∈ calls ↔ ∃ u, d = .addNode u ∧ (u = self ∨ Gossiped self evs u) := by
    intro d
    rw [hcalls, called_iff hrun hidle]
    constructor
    · rintro (rfl | ⟨u, rfl, hu⟩)
      · exact ⟨self, rfl, Or.inl rfl⟩
      · exact ⟨u, rfl, Or.inr hu⟩
    · rintro ⟨u, rfl, rfl | hu⟩
      · exact Or.inl rfl
      · exact Or.inr ⟨u, rfl, hu⟩
  have hN : ∀ d ∈ calls, d.node ∈ {v | v = self ∨ Gossiped self evs v} := by
    intro d hd
    obtain ⟨u, rfl, hu⟩ := (hadd d).1 hd
    exact hu
  rw [mem_servers]
  constructor
  · rintro ⟨k, hk⟩
    obtain ⟨hjoined, -⟩ := (getElem?_changed hinj hN k v).1 hk
    rw [joined_iff_mem (fun d hd => ((hadd d).1 hd).imp fun u h => h.1)] at hjoined
    obtain ⟨u, heq, hu⟩ := (hadd _).1 hjoined
    cases heq
    exact hu
  · intro hv
    refine ⟨hash (vnodeKey v 0), (getElem?_changed hinj hN _ v).2 ⟨?_, 0, by decide, rfl⟩⟩
    rw [joined_iff_mem (fun d hd => ((hadd d).1 hd).imp fun u h => h.1)]
    exact (hadd _).2 ⟨v, rfl, hv⟩

/-- **The servers in the table**, when the peer is idle and no `Gossip` that matters was given up. -/
theorem mem_table_iff {table : MembershipTable} (hgrown : Grown self table evs c.state)
    (hrun : Run (cluster hash) (MembershipOnly self) (quiet w) evs c)
    (hidle : ∀ t, t.peer = self → c.pool t = none) {v : Uuid}
    (hstored : Gossiped self evs v → (table.find? v).isSome = true ∨ Greeted self evs v ∨
      ∃ p, GossipedIn self evs p v ∧ ¬ FailedIn evs (.incoming self p.serial)) :
    ((c.state.node self).membership.find? v).isSome = true ↔
      (table.find? v).isSome = true ∨ Greeted self evs v ∨ Gossiped self evs v := by
  have hgreeted : Greeted self evs v → ((c.state.node self).membership.find? v).isSome = true := by
    rintro ⟨q, addr, hq, hmsg⟩
    obtain ⟨tr, hends, htr⟩ := handling_of_delivered hrun hidle hq
    rw [hmsg] at hends
    exact (hgrown.members v).2 (Or.inr ⟨_, addr, rfl, htr _ (ends_hello hends)⟩)
  constructor
  · intro h
    exact ((hgrown.members v).1 h).imp_right (greeted_or_gossiped hrun)
  · rintro (h | h | h)
    · exact (hgrown.members v).2 (Or.inl h)
    · exact hgreeted h
    · rcases hstored h with h | h | ⟨q, ⟨hq, named, hmsg, hv⟩, hnot⟩
      · exact (hgrown.members v).2 (Or.inl h)
      · exact hgreeted h
      · obtain ⟨tr, hends, htr⟩ := handling_of_delivered hrun hidle hq
        rw [hmsg] at hends
        rcases (ends_handleGossip hends hv).2 with ⟨u, k, hmem⟩ | ⟨m, hmem, hm⟩ | ⟨addr, hmem⟩
        · exact absurd ⟨u, k, htr _ hmem⟩ hnot
        · exact hgrown.told _ m v rfl (htr _ hmem) hm
        · exact (hgrown.members v).2 (Or.inr ⟨_, addr, rfl, htr _ hmem⟩)

/-- **Ring and membership agree** between handlers exactly when every server that the table of the
join or a `Hello` names has been in a `Gossip`, and the peer itself has been named. -/
theorem ring_agrees_iff {addr : String} {store : ServerStorage hash} {reply : Option Msg}
    (hjoin : ({ Node.new hash self addr with storage := store } : Node hash).join reply =
      some (w.node self))
    (hrun : Run (cluster hash) (MembershipOnly self) (quiet w) evs c)
    (hidle : ∀ t, t.peer = self → c.pool t = none)
    (hinj : Set.InjOn hash (vnodeKeys {v | v = self ∨ Gossiped self evs v} VNODES))
    (hstored : ∀ v, Gossiped self evs v → ((w.node self).membership.find? v).isSome = true ∨
      Greeted self evs v ∨ ∃ p, GossipedIn self evs p v ∧ ¬ FailedIn evs (.incoming self p.serial)) :
    (c.state.node self).Agrees ↔
      (∀ v, ((w.node self).membership.find? v).isSome = true ∨ Greeted self evs v →
        v = self ∨ Gossiped self evs v) ∧
      (((w.node self).membership.find? self).isSome = true ∨ Greeted self evs self ∨
        Gossiped self evs self) := by
  have hgrown := grown_of_run hjoin hrun
  obtain ⟨calls, hring, hcalls⟩ := hgrown.ring
  unfold Node.Agrees
  rw [hring]
  simp only [mem_ring_iff hcalls hrun hidle hinj, fun v => mem_table_iff hgrown hrun hidle (hstored v)]
  constructor
  · intro h
    exact ⟨fun v hv => (h v).2 (hv.imp_right Or.inl), (h self).1 (Or.inl rfl)⟩
  · rintro ⟨hnamed, hself⟩ v
    constructor
    · rintro (rfl | hv)
      · exact hself
      · exact Or.inr (Or.inr hv)
    · rintro (hv | hv | hv)
      · exact hnamed v (Or.inl hv)
      · exact hnamed v (Or.inr hv)
      · exact Or.inr hv

end Idle

/-- The table of these servers. -/
def tableOf (servers : List Uuid) : MembershipTable :=
  servers.foldl (fun table v => table.insert v v.toString) ∅

theorem isSome_tableOf {servers : List Uuid} {v : Uuid} :
    (FinMap.find? (tableOf servers) v).isSome = true ↔ v ∈ servers := by
  suffices h : ∀ (us : List Uuid) (table : MembershipTable),
      (FinMap.find? (us.foldl (fun table v => table.insert v v.toString) table) v).isSome = true ↔
        v ∈ us ∨ (table.find? v).isSome = true from
    (h servers ∅).trans (or_iff_left (by simp))
  intro us
  induction us with
  | nil => exact fun table => (or_iff_right List.not_mem_nil).symm
  | cons u us ih =>
    intro table
    rw [List.foldl_cons, ih, FinMap.find?_insert, List.mem_cons]
    by_cases hv : v = u
    · simp [hv]
    · simp [hv]

/-- Server 1 has joined, and the answer was this table. -/
def joinedWith (table : MembershipTable) : World md5 :=
  (World.new md5 Uuid.toString).setNode (.ofTail 1)
    { Node.new md5 (.ofTail 1) (Uuid.ofTail 1).toString with membership := table }

/-- Server 1 has joined server 2, which has met server 4 since. -/
def joinedSecond : World md5 :=
  (joinedWith (tableOf [.ofTail 1, .ofTail 2])).setNode (.ofTail 2)
    { Node.new md5 (.ofTail 2) (Uuid.ofTail 2).toString with
      membership := tableOf [.ofTail 1, .ofTail 2, .ofTail 4] }

/-- The `Hello` of server 3. -/
def helloOfThird : Packet := ⟨0, .ofTail 3, .ofTail 1, .hello (.ofTail 3) (Uuid.ofTail 3).toString⟩

/-- The `Gossip` of server 2, when it has heard of server 3 as well. -/
def gossipOfSecond : Packet :=
  ⟨3, .ofTail 2, .ofTail 1, .gossip (tableOf [.ofTail 1, .ofTail 2, .ofTail 4, .ofTail 3])⟩

/-- Server 3 says `Hello` to server 1, which gossips to servers 3 and 2. -/
def helloHandled : List (Move (cluster md5)) :=
  .arrive (.message (.ofTail 3) (.ofTail 1) helloOfThird.msg) ::
  .arrive (.deliver helloOfThird) ::
  List.replicate 28 (.turn (.incoming (.ofTail 1) 0) .yes) ++
  .turn (.incoming (.ofTail 1) 0) (.uuid (.ofTail 2)) ::
  List.replicate 14 (.turn (.incoming (.ofTail 1) 0) .yes)

/-- Afterwards server 2 gossips to server 1. -/
def helloThenGossip : List (Move (cluster md5)) :=
  helloHandled ++
  .arrive (.deliver ⟨2, .ofTail 1, .ofTail 2, .gossip (tableOf [.ofTail 1, .ofTail 2, .ofTail 3])⟩) ::
  List.replicate 19 (.turn (.incoming (.ofTail 2) 2) .yes) ++
  .arrive (.tickGossip (.ofTail 2)) ::
  List.replicate 6 (.turn (.gossip (.ofTail 2)) .yes) ++
  .turn (.gossip (.ofTail 2)) (.uuid (.ofTail 1)) ::
  List.replicate 14 (.turn (.gossip (.ofTail 2)) .yes) ++
  .arrive (.deliver gossipOfSecond) ::
  List.replicate 20 (.turn (.incoming (.ofTail 1) 3) .yes)

/-- Server 1 has learnt of server 3 by a `Hello` first, and of server 4 by the `Gossip` only. -/
theorem ring_agrees_iff_gossiped :
    ∃ evs c, Run (cluster md5) (MembershipOnly (.ofTail 1)) (quiet joinedSecond) evs c ∧
      evs.filterMap (delivered (.ofTail 1)) = [gossipOfSecond, helloOfThird] ∧
      (c.state.node (.ofTail 1)).hashring.serverCount = 4 ∧ (c.state.node (.ofTail 1)).Agrees := by
  obtain ⟨evs, c, hrun, hcheck⟩ := exists_run (D := MembershipOnly (.ofTail 1))
    (membershipOnly (.ofTail 1)) (membershipOnly_of_test (.ofTail 1)) (quiet joinedSecond) helloThenGossip
    (fun evs c => decide (evs.filterMap (delivered (.ofTail 1)) = [gossipOfSecond, helloOfThird] ∧
      (c.state.node (.ofTail 1)).hashring.serverCount = 4 ∧ evs.filterMap oldDataFailed = [] ∧
      (c.pool (.incoming (.ofTail 1) 3)).isNone = true ∧
      (c.pool (.incoming (.ofTail 1) 0)).isNone = true)) (by decide +kernel)
  obtain ⟨hpackets, hfour, hserved, hgossipDone, hhelloDone⟩ := of_decide_eq_true hcheck
  refine ⟨evs, c, hrun, hpackets, hfour, ?_⟩
  have hdelivered : ∀ p, DeliveredTo (.ofTail 1) evs p ↔ p = gossipOfSecond ∨ p = helloOfThird := by
    intro p
    rw [← mem_delivered, hpackets, List.mem_cons, List.mem_singleton]
  have hgossiped : ∀ v, Gossiped (.ofTail 1) evs v ↔
      v ∈ [Uuid.ofTail 1, .ofTail 2, .ofTail 4, .ofTail 3] := by
    intro v
    constructor
    · rintro ⟨p, hp, table, hmsg, hv⟩
      rcases (hdelivered p).1 hp with rfl | rfl
      · cases hmsg
        exact isSome_tableOf.1 hv
      · cases hmsg
    · intro hv
      exact ⟨gossipOfSecond, (hdelivered _).2 (Or.inl rfl), _, rfl, isSome_tableOf.2 hv⟩
  have hgreeted : ∀ v, Greeted (.ofTail 1) evs v → v = .ofTail 3 := by
    rintro v ⟨p, addr, hp, hmsg⟩
    rcases (hdelivered p).1 hp with rfl | rfl
    · cases hmsg
    · cases hmsg
      rfl
  have hidle : ∀ t : Tid, t.peer = .ofTail 1 → c.pool t = none := fun t => by
    refine idle_of_delivered hrun fun q hq => ?_
    rcases (hdelivered q).1 hq with rfl | rfl
    · exact Option.isNone_iff_eq_none.1 hgossipDone
    · exact Option.isNone_iff_eq_none.1 hhelloDone
  have hanswered : ∀ t, ¬ FailedIn evs t := by
    intro t ht
    have hfailed := mem_oldDataFailed ht
    rw [hserved] at hfailed
    cases hfailed
  refine (@ring_agrees_iff md5 (.ofTail 1) joinedSecond evs c (Uuid.ofTail 1).toString .empty
    (some (.gossip (tableOf [.ofTail 1, .ofTail 2]))) rfl hrun hidle ?_ ?_).2 ⟨?_, ?_⟩
  · refine injOn_fourServers.mono (vnodeKeys_mono (fun v hv => ?_) _)
    rcases hv with rfl | hv
    · exact List.mem_cons_self
    · have hsub : [Uuid.ofTail 1, .ofTail 2, .ofTail 4, .ofTail 3] ⊆
          [Uuid.ofTail 1, .ofTail 2, .ofTail 3, .ofTail 4] := by decide
      exact hsub ((hgossiped v).1 hv)
  · intro v hv
    obtain ⟨p, hp⟩ := hv
    exact Or.inr (Or.inr ⟨p, hp, hanswered _⟩)
  · rintro v (hv | hv)
    · have hmem : v ∈ [Uuid.ofTail 1, .ofTail 2] := isSome_tableOf.1 hv
      have hsub : [Uuid.ofTail 1, .ofTail 2] ⊆ [Uuid.ofTail 1, .ofTail 2, .ofTail 4, .ofTail 3] := by decide
      exact Or.inr ((hgossiped v).2 (hsub hmem))
    · rw [hgreeted v hv]
      exact Or.inr ((hgossiped _).2 (by decide))
  · exact Or.inl (isSome_tableOf.2 List.mem_cons_self)

/-- Server 1 has joined server 2 and has handled the `Hello` of server 3, and neither is on its ring. -/
theorem joined_disagrees :
    ¬ ∀ (w : World md5) (self : Uuid) addr store reply evs (c : Config (cluster md5)),
      ({ Node.new md5 self addr with storage := store } : Node md5).join reply = some (w.node self) →
      Run (cluster md5) (MembershipOnly self) (quiet w) evs c → (∀ t, t.peer = self → c.pool t = none) →
      Set.InjOn md5 (vnodeKeys {v | v = self ∨ Gossiped self evs v} VNODES) →
      (c.state.node self).Agrees := by
  intro h
  obtain ⟨evs, c, hrun, hcheck⟩ := exists_run (D := MembershipOnly (.ofTail 1))
    (membershipOnly (.ofTail 1)) (membershipOnly_of_test (.ofTail 1)) (quiet joinedSecond) helloHandled
    (fun evs c => decide (evs.filterMap (delivered (.ofTail 1)) = [helloOfThird] ∧
      (c.pool (.incoming (.ofTail 1) 0)).isNone = true ∧
      ((c.state.node (.ofTail 1)).membership.find? (.ofTail 3)).isSome = true ∧
      .ofTail 3 ∉ (c.state.node (.ofTail 1)).hashring.servers)) (by decide +kernel)
  obtain ⟨hpackets, hdone, hmember, hring⟩ := of_decide_eq_true hcheck
  have hdelivered : ∀ p, DeliveredTo (.ofTail 1) evs p → p = helloOfThird := by
    intro p hp
    rw [← mem_delivered, hpackets] at hp
    exact List.mem_singleton.1 hp
  have hnamed : {v | v = Uuid.ofTail 1 ∨ Gossiped (.ofTail 1) evs v} ⊆
      {v | v ∈ [Uuid.ofTail 1, .ofTail 2, .ofTail 3, .ofTail 4]} := by
    rintro v (rfl | ⟨p, hp, table, hmsg, -⟩)
    · exact List.mem_cons_self
    · rw [hdelivered p hp] at hmsg
      cases hmsg
  have hidle : ∀ t : Tid, t.peer = .ofTail 1 → c.pool t = none := fun t => by
    refine idle_of_delivered hrun fun q hq => ?_
    rw [hdelivered q hq]
    exact Option.isNone_iff_eq_none.1 hdone
  have hagrees := h joinedSecond (.ofTail 1) (Uuid.ofTail 1).toString .empty
    (some (.gossip (tableOf [.ofTail 1, .ofTail 2]))) evs c rfl hrun hidle
    (injOn_fourServers.mono (vnodeKeys_mono hnamed _))
  exact hring ((hagrees (.ofTail 3)).2 hmember)

end Sdle
