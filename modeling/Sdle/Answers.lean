import Sdle.Operations
import Sdle.Requests

/-!
# Answers to clients

What `handle_incoming_proxy` sends back through the proxy, over everything that can happen to it: its
trace is any list of operations with any answers that ends the handler.

* `one_answer_iff` — **exactly one answer per client request** is given when no storage call of the
  handler fails and the ring has replicas for the list, and only then.  In the other traces the
  handler ends without an answer, and the client is not told.
-/

set_option autoImplicit false

namespace Sdle

open Tasks Peer

variable {hash : String → U128}

/-- What a handler sent to clients. -/
def replies (tr : Trace) : List (ClientId × Msg) :=
  tr.filterMap fun e =>
    match e with
    | ⟨.sendProxy client m, _⟩ => some (client, m)
    | _ => none

/-- An answer to a request. -/
def Msg.answer : Msg → Bool
  | .ackList _ _ => true
  | .nack _ => true
  | _ => false

/-- A handler has sent one message to clients, an answer to this one. -/
def Answers (client : ClientId) (tr : Trace) : Prop :=
  ∃ m, replies tr = [(client, m)] ∧ m.answer = true

/-- A storage call that failed. -/
def storageFails : Sigma Peer.Ans → Bool
  | ⟨.getShoppingList _, none⟩ => true
  | ⟨.writeShoppingList _, none⟩ => true
  | _ => false

/-- The ring that a handler reads first, for its replicas. -/
def ringRead (tr : Trace) : Option HashRing :=
  tr.findSome? fun e =>
    match e with
    | ⟨.hashring, ring⟩ => some ring
    | _ => none

/-! ## What a trace shows -/

theorem replies_append (tr tr' : Trace) : replies (tr ++ tr') = replies tr ++ replies tr' :=
  List.filterMap_append

theorem replies_of_routine {tr : Trace} (h : ∀ e ∈ tr, Routine e.1) :
    replies tr = [] ∧ tr.any storageFails = false := by
  refine ⟨List.filterMap_eq_nil_iff.2 fun e he => ?_, List.any_eq_false.2 fun e he => ?_⟩
  · have hop := h e he
    obtain ⟨o, a⟩ := e
    cases o <;> first
      | rfl
      | exact hop.elim
  · have hop := h e he
    obtain ⟨o, a⟩ := e
    cases o <;> first
      | exact Bool.false_ne_true
      | exact hop.elim

/-! ## The handlers -/

variable (hash) in
/-- No storage call fails, and the ring that is read for the replicas has some. -/
def Unhindered (id : Uuid) (tr : Trace) : Prop :=
  tr.any storageFails = false ∧
    ∀ ring, ringRead tr = some ring → (ring.getPreferenceList hash id).drop 1 ≠ []

section Handlers

variable {client : ClientId} {list : ShoppingList} {tr : Trace}

/-- What is left to do once the replicas are known. -/
theorem answers_readsRing {ring : HashRing} {id : Uuid} {rest : Trace}
    (hreplicas : (ring.getPreferenceList hash id).drop 1 ≠ [])
    (h : Answers client rest ↔ rest.any storageFails = false) :
    Answers client (readsRing ring ++ rest) ↔ Unhindered hash id (readsRing ring ++ rest) := by
  refine h.trans ⟨fun hrest => ⟨hrest, ?_⟩, fun hrest => hrest.1⟩
  intro ring' hring'
  obtain rfl : ring = ring' := Option.some.inj hring'
  exact hreplicas

/-- Without replicas nothing more happens. -/
theorem not_answers_alone {ring : HashRing} {id : Uuid}
    (hreplicas : (ring.getPreferenceList hash id).drop 1 = []) :
    Answers client (readsRing ring) ↔ Unhindered hash id (readsRing ring) := by
  refine iff_of_false ?_ ?_
  · rintro ⟨m, hm, -⟩
    cases hm
  · rintro ⟨-, h⟩
    exact h ring rfl hreplicas

/-- The answer that follows a replication. -/
theorem answers_after {tr₁ : Trace} (h : ∀ e ∈ tr₁, Routine e.1) {rest : Trace}
    (hrest : Answers client rest ↔ rest.any storageFails = false) :
    Answers client (tr₁ ++ rest) ↔ (tr₁ ++ rest).any storageFails = false := by
  obtain ⟨hnone, hfine⟩ := replies_of_routine h
  unfold Answers at hrest ⊢
  rw [replies_append, hnone, List.nil_append, hrest, List.any_append, hfine, Bool.false_or]

theorem answers_handleIncomingPut (h : (handleIncomingPut hash client list).Ends tr ()) :
    Answers client tr ↔ Unhindered hash list.id tr := by
  obtain ⟨tr₁, replicas, tr₂, rfl, hget, hrest⟩ := Prog.ends_bind h
  obtain ⟨ring, rfl, rfl⟩ := ends_getReplicas hget
  split at hrest
  · rename_i hempty
    obtain ⟨rfl, -⟩ := Prog.ends_pure hrest
    exact not_answers_alone (List.isEmpty_iff.1 hempty)
  rename_i hne
  refine answers_readsRing (fun h => hne (List.isEmpty_iff.2 h)) ?_
  obtain ⟨tr₃, ok, tr₄, rfl, hsend, hlast⟩ := Prog.ends_bind hrest
  refine answers_after ((only_sendReplicate _ _ _).ends hsend) ?_
  split at hlast
  · obtain ⟨tr₅, rfl, hbody⟩ := ends_locked hlast
    obtain ⟨tr₆, written, tr₇, rfl, hwrite, hend⟩ := Prog.ends_bind hbody
    rw [ends_perform hwrite]
    cases written with
    | none =>
      obtain ⟨rfl, -⟩ := Prog.ends_pure hend
      refine iff_of_false ?_ Bool.noConfusion
      rintro ⟨m, hm, -⟩
      cases hm
    | some u =>
      obtain ⟨tr₈, sent, tr₉, rfl, hproxy, hunit⟩ := Prog.ends_bind hend
      obtain ⟨rfl, -⟩ := Prog.ends_pure hunit
      rw [ends_read hproxy]
      exact iff_of_true ⟨_, rfl, rfl⟩ rfl
  · obtain ⟨tr₅, sent, tr₆, rfl, hproxy, hunit⟩ := Prog.ends_bind hlast
    obtain ⟨rfl, -⟩ := Prog.ends_pure hunit
    rw [ends_read hproxy]
    exact iff_of_true ⟨_, rfl, rfl⟩ rfl

theorem answers_readList {l : ShoppingList} (h : (readList hash client list l).Ends tr ()) :
    Answers client tr ↔ Unhindered hash list.id tr := by
  obtain ⟨tr₁, replicas, tr₂, rfl, hget, hrest⟩ := Prog.ends_bind h
  obtain ⟨ring, rfl, rfl⟩ := ends_getReplicas hget
  split at hrest
  · rename_i hempty
    obtain ⟨rfl, -⟩ := Prog.ends_pure hrest
    exact not_answers_alone (List.isEmpty_iff.1 hempty)
  rename_i hne
  refine answers_readsRing (fun h => hne (List.isEmpty_iff.2 h)) ?_
  obtain ⟨tr₃, s, tr₄, rfl, hsend, hlast⟩ := Prog.ends_bind hrest
  refine answers_after ((only_sendReadReplicate _ _).ends hsend) ?_
  cases s with
  | none =>
    obtain ⟨tr₅, sent, tr₆, rfl, hproxy, hunit⟩ := Prog.ends_bind hlast
    obtain ⟨rfl, -⟩ := Prog.ends_pure hunit
    rw [ends_read hproxy]
    exact iff_of_true ⟨_, rfl, rfl⟩ rfl
  | some s =>
    obtain ⟨tr₅, written, tr₆, rfl, hwrite, hend⟩ := Prog.ends_bind hlast
    rw [ends_read hwrite]
    cases written with
    | none =>
      obtain ⟨rfl, -⟩ := Prog.ends_pure hend
      refine iff_of_false ?_ Bool.noConfusion
      rintro ⟨m, hm, -⟩
      cases hm
    | some u =>
      obtain ⟨tr₇, sent, tr₈, rfl, hproxy, hunit⟩ := Prog.ends_bind hend
      obtain ⟨rfl, -⟩ := Prog.ends_pure hunit
      rw [ends_read hproxy]
      exact iff_of_true ⟨_, rfl, rfl⟩ rfl

/-- The ring of a server that has met no other one. -/
def alone : HashRing := (HashRing.new VNODES REPLICAS).addNode md5 (.ofTail 1)

/-- A server that has met no other one handles a `PutList`. -/
theorem ends_alone :
    (handleIncomingProxy md5 [] (.putList ⟨.ofTail 101, .new⟩)).Ends (readsRing alone) () := by
  refine .op (.op (.op ?_))
  change Prog.Ends (if ((alone.getPreferenceList md5 (.ofTail 101)).drop 1).isEmpty then
    (pure () : Code Unit) else _) [] ()
  rw [if_pos (by decide +kernel)]
  exact .pure ()

/-- **Exactly one answer per client request**: the handler of a `GetList` or `PutList` answers its
client exactly where no storage call fails and the ring has replicas for the list. -/
theorem one_answer_iff {msg : Msg} (hmsg : msg = .getList list ∨ msg = .putList list)
    (h : (handleIncomingProxy hash client msg).Ends tr ()) :
    Answers client tr ↔ Unhindered hash list.id tr := by
  rcases hmsg with rfl | rfl
  · obtain ⟨tr₁, stored, tr₂, rfl, hget, hrest⟩ := Prog.ends_bind h
    rw [ends_read hget]
    -- reading the row is no answer, and reads no ring
    have hlook : ∀ row, stored = some row → (Answers client tr₂ ↔ Unhindered hash list.id tr₂) →
        (Answers client ([⟨.lock .storage, ()⟩, ⟨.getShoppingList list.id, stored⟩,
            ⟨.unlock .storage, ()⟩] ++ tr₂) ↔
          Unhindered hash list.id ([⟨.lock .storage, ()⟩, ⟨.getShoppingList list.id, stored⟩,
            ⟨.unlock .storage, ()⟩] ++ tr₂)) := by
      rintro row rfl h
      exact h
    cases stored with
    | none =>
      obtain ⟨rfl, -⟩ := Prog.ends_pure hrest
      refine iff_of_false ?_ fun hfine => Bool.noConfusion hfine.1
      rintro ⟨m, hm, -⟩
      cases hm
    | some row =>
      cases row with
      | none => exact hlook none rfl (answers_handleIncomingPut hrest)
      | some l => exact hlook (some l) rfl (answers_readList hrest)
  · exact answers_handleIncomingPut h

/-- Both replicas acknowledge the list, and the client is sent one `AckList`. -/
theorem one_answer_iff_put :
    ∃ evs c, Run (cluster md5) anyStep (quiet threeServers) evs c ∧
      replies (opsOf (m := cluster md5) (.proxied (.ofTail 1)) evs) =
        [([], .ackList "" (ServerStorage.oneItem "milk" 201))] ∧
      Answers [] (opsOf (m := cluster md5) (.proxied (.ofTail 1)) evs) := by
  let l := ServerStorage.oneItem "milk" 201
  obtain ⟨evs, c, hrun, hcheck⟩ := exists_run (D := anyStep) (fun _ _ _ => true)
    (fun _ _ _ _ => trivial) (quiet threeServers) (putMoves 0 l (.ofTail 301))
    (fun evs _ =>
      let tr := opsOf (m := cluster md5) (.proxied (.ofTail 1)) evs
      decide (Prog.replay (handleIncomingProxy md5 [] (.putList l)) tr = some () ∧
        replies tr = [([], .ackList "" l)] ∧ tr.any storageFails = false ∧
        (ringRead tr).all (fun ring => (ring.getPreferenceList md5 l.id).drop 1 ≠ []) = true))
    (by decide +kernel)
  obtain ⟨hreplay, hreplies, hfine, hring⟩ := of_decide_eq_true hcheck
  refine ⟨evs, c, hrun, hreplies,
    (one_answer_iff (Or.inr rfl) (Prog.ends_of_replay hreplay)).2 ⟨hfine, ?_⟩⟩
  intro ring hread
  rw [hread] at hring
  exact of_decide_eq_true hring

/-- A server that has met no other one does not answer its client. -/
theorem alone_no_answer :
    ¬ ∀ tr, (handleIncomingProxy md5 [] (.putList ⟨.ofTail 101, .new⟩)).Ends tr () →
      Answers [] tr := by
  intro h
  obtain ⟨m, hm, -⟩ := h _ ends_alone
  cases hm

end Handlers

end Sdle
