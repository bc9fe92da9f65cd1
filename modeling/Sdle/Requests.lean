import Sdle.Traffic

/-!
# Requests in flight

The ids of the requests that the peers coordinate, and what a history tells about them.

* `registered` — **a request id names one request**: in every run in which `Uuid::new_v4` repeats
  no id, it is put in flight at most once, by one peer and for one list, and the peer that replicates
  under it or has it in flight is that peer.
* `handled` — **a peer answers the request it has taken**: the client and the list of the phase that
  the peer's proxy task is in are those of the last request that the peer took.
-/

set_option autoImplicit false

namespace Sdle

open Tasks Peer

variable {hash : String → U128}

/-- A cluster without traffic: whatever the peers store and know, no request is in flight. -/
structure World.Settled (w : World hash) : Prop where
  net : w.net = []
  requests : w.requests = []
  inFlight : ∀ u, (w.node u).inFlight = ∅
  fired : ∀ u, (w.node u).fired = []

/-- Three servers that know each other, and no traffic. -/
theorem settled_joined (hash : String → U128) (servers : List Uuid) :
    (World.joined hash servers).Settled := ⟨rfl, rfl, fun _ => rfl, fun _ => rfl⟩

/-! ## What a history tells -/

/-- The peer that puts a request in flight in a step, and the list that it replicates. -/
def opening (rid : String) : Event (cluster hash) → Option (Uuid × ShoppingList)
  | .did t (.insertInFlight r q) _ =>
    if r = rid then q.lists.head?.map fun l => (t.peer, l) else none
  | _ => none

/-- Who has put a request in flight, and for which list. -/
def opened (rid : String) (evs : History hash) : List (Uuid × ShoppingList) :=
  evs.filterMap (opening rid)

/-- The request that a peer has taken last. -/
def handling (peer : Uuid) : History hash → Option Request
  | [] => none
  | .arrived (.take r) :: evs => if r.peer = peer then some r else handling peer evs
  | _ :: evs => handling peer evs

/-! ## What a phase tells -/

/-- The client and the list of the request that a phase belongs to. -/
def Phase.request : Phase → Option (ClientId × ShoppingList)
  | .asked client l => some (client, l)
  | .start job | .chosen job _ | .named job _ _ | .spreading job _ _ _ | .decided job _ _
  | .writing job _ | .answering job _ | .refusing job => some (job.client, job.list)
  | _ => none

/-- The request id that has been drawn and not used. -/
def Phase.name : Phase → Option String
  | .named _ _ rid => some rid
  | _ => none

/-- The request in flight, and the list that it replicates. -/
def Phase.pending : Phase → Option (String × ShoppingList)
  | .spreading job _ rid _ => some (rid, job.list)
  | .decided job rid _ => some (rid, job.list)
  | _ => none

namespace Phase

variable {g : Phase} {o : Op} {a : Ans o}

theorem request_next (ho : g.allow o) :
    (g.next hash o a).request = g.request ∨ (g.next hash o a).request = none := by
  have hgo : Goes hash g o a (g.next hash o a) := goes_next ho
  generalize g.next hash o a = g' at hgo
  cases hgo with
  | hinted h => exact Or.inr rfl
  | _ => first | exact Or.inl rfl | exact Or.inr rfl

theorem name_next (ho : g.allow o) {rid : String} (h : (g.next hash o a).name = some rid) :
    g.name = some rid ∧ (∀ r q, o ≠ .insertInFlight r q) ∨
      o = .newUuid ∧ rid ∈ (drawnBy o a).map Uuid.toString := by
  have hne : ∀ r q, o ≠ .insertInFlight r q := by
    rintro r q rfl
    obtain ⟨job, replicas, rfl, -⟩ := ho
    cases h
  have hgo : Goes hash g o a (g.next hash o a) := goes_next ho
  generalize g.next hash o a = g' at hgo h
  cases hgo with
  | stay => exact Or.inl ⟨h, hne⟩
  | named =>
    obtain rfl := Option.some.inj h
    exact Or.inr ⟨rfl, List.mem_singleton_self _⟩
  | _ => cases h

theorem pending_next (ho : g.allow o) {x : String × ShoppingList}
    (h : (g.next hash o a).pending = some x) :
    g.pending = some x ∨ o = .insertInFlight x.1 (.opened x.2) := by
  have hgo : Goes hash g o a (g.next hash o a) := goes_next ho
  generalize g.next hash o a = g' at hgo h
  cases hgo with
  | stay => exact Or.inl h
  | opened =>
    obtain rfl := Option.some.inj h
    exact Or.inr rfl
  | spread => exact Or.inl h
  | decided => exact Or.inl h
  | _ => cases h

/-- A task that has just started has no request id. -/
theorem name_begun {e : Arrival} {t : Tid} {g : Phase} (h : begun e = some (t, g)) :
    g.name = none ∧ g.pending = none := by
  cases e with
  | take r =>
    obtain ⟨-, rfl⟩ := Prod.mk.inj (Option.some.inj h)
    cases r.msg <;> exact ⟨rfl, rfl⟩
  | deliver p =>
    obtain ⟨-, rfl⟩ := Prod.mk.inj (Option.some.inj h)
    cases p.msg with
    | replicateList rid l write => cases write <;> exact ⟨rfl, rfl⟩
    | _ => exact ⟨rfl, rfl⟩
  | tickGossip u => cases h; exact ⟨rfl, rfl⟩
  | tickHintedHandoff u => cases h; exact ⟨rfl, rfl⟩
  | tickFailureDetection u => cases h; exact ⟨rfl, rfl⟩
  | _ => cases h

/-- A task that has just started on a request has taken it. -/
theorem request_begun {e : Arrival} {t : Tid} {g : Phase} (h : begun e = some (t, g))
    {client : ClientId} {l : ShoppingList} (hg : g.request = some (client, l)) :
    ∃ r, e = .take r ∧ r.clientId = client ∧ (r.msg = .getList l ∨ r.msg = .putList l) := by
  cases e with
  | take r =>
    obtain ⟨-, rfl⟩ := Prod.mk.inj (Option.some.inj h)
    refine ⟨r, rfl, ?_⟩
    cases hm : r.msg with
    | getList l' =>
      rw [hm] at hg
      cases hg
      exact ⟨rfl, Or.inl rfl⟩
    | putList l' =>
      rw [hm] at hg
      cases hg
      exact ⟨rfl, Or.inr rfl⟩
    | _ =>
      rw [hm] at hg
      cases hg
  | deliver p =>
    obtain ⟨-, rfl⟩ := Prod.mk.inj (Option.some.inj h)
    cases hm : p.msg with
    | replicateList rid l' write =>
      rw [hm] at hg
      cases write <;> cases hg
    | _ =>
      rw [hm] at hg
      cases hg
  | tickGossip u => cases h; cases hg
  | tickHintedHandoff u => cases h; cases hg
  | tickFailureDetection u => cases h; cases hg
  | _ => cases h

end Phase

/-- A task with a request in flight has not just started. -/
theorem phases_of_arrived {evs : History hash} {e : Arrival} {t : Tid} {g : Phase}
    {x : String × ShoppingList} (h : phases (.arrived e :: evs) t = g) (hg : g.pending = some x) :
    phases evs t = g := by
  rcases phases_arrived evs e t with hsame | ⟨g', hbegun, hg'⟩
  · rwa [hsame] at h
  · rw [← h, hg', (Phase.name_begun hbegun).2] at hg
    cases hg

/-- A task with a request in flight is the one that handles its peer's requests. -/
theorem proxied_of_pending {t : Tid} {g : Phase} (hfit : g.Fits t) {x : String × ShoppingList}
    (h : g.pending = some x) : t = .proxied t.peer := by
  cases g <;> first
    | exact hfit
    | cases h

/-! ## One id, one request -/

/-- What holds of the request ids. -/
structure Registered (evs : History hash) (w : World hash) : Prop where
  drawn : ∀ rid, opened rid evs ≠ [] → rid ∈ w.drawn.map Uuid.toString
  named : ∀ t rid, (phases evs t).name = some rid →
    opened rid evs = [] ∧ rid ∈ w.drawn.map Uuid.toString ∧
      ∀ t', (phases evs t').name = some rid → t' = t
  pending : ∀ t rid l, (phases evs t).pending = some (rid, l) → opened rid evs = [(t.peer, l)]
  inFlight : ∀ u rid q, (w.node u).inFlight.find? rid = some q →
    ∃ l ∈ q.lists, opened rid evs = [(u, l)]

theorem Answered.subset {o : Op} {rid : String} {q q' : QuoromState} (h : Answered o rid q q') :
    q.lists ⊆ q'.lists := by
  have hlists := h.2
  split at hlists
  · rw [hlists.1]
    exact List.Subset.refl _
  · rw [hlists.1]
    exact List.subset_append_left _ _

/-- What a step tells about a request id. -/
theorem Registered.opened_did {evs : History hash} {w : World hash} {t : Tid} {o : Op} (a : Ans o)
    (hreg : Registered evs w) (hallow : (phases evs t).allow o) (rid : String) :
    opened rid (.did t o a :: evs) = opened rid evs ∧ (∀ q, o ≠ .insertInFlight rid q) ∨
      ∃ l, o = .insertInFlight rid (.opened l) ∧ (phases evs t).name = some rid ∧
        opened rid (.did t o a :: evs) = [(t.peer, l)] := by
  by_cases ho : ∃ q, o = .insertInFlight rid q
  · obtain ⟨q, rfl⟩ := ho
    obtain ⟨job, replicas, hg, rfl⟩ := hallow
    have hname : (phases evs t).name = some rid := by rw [hg]; rfl
    refine Or.inr ⟨job.list, rfl, hname, ?_⟩
    have hnone := (hreg.named t rid hname).1
    unfold opened at hnone ⊢
    rw [List.filterMap_cons, hnone]
    simp [opening, QuoromState.opened]
  · refine Or.inl ⟨?_, fun q h => ho ⟨q, h⟩⟩
    unfold opened
    rw [List.filterMap_cons_none]
    cases o with
    | insertInFlight r q => exact if_neg fun h => ho ⟨q, by rw [h]⟩
    | _ => rfl

/-- A request that has been opened is not opened again. -/
theorem Registered.opened_stays {evs : History hash} {w : World hash} {t : Tid} {o : Op} (a : Ans o)
    (hreg : Registered evs w) (hallow : (phases evs t).allow o) {rid : String}
    (h : opened rid evs ≠ []) : opened rid (.did t o a :: evs) = opened rid evs := by
  rcases hreg.opened_did a hallow rid with ⟨heq, -⟩ | ⟨l, -, hname, -⟩
  · exact heq
  · exact absurd (hreg.named t rid hname).1 h

/-- An id that is drawn in a step is new. -/
theorem drawnBy_fresh {w : World hash} {t : Tid} {o : Op} {c : Choice} {a : Ans o}
    (ha : answer t o c w = some a) {rid : String} (h : rid ∈ (drawnBy o a).map Uuid.toString) :
    rid ∉ w.drawn.map Uuid.toString := by
  cases o with
  | newUuid =>
    rw [drawnBy, List.map_singleton, List.mem_singleton] at h
    subst h
    rw [List.mem_map_of_injective Uuid.toString_injective]
    exact newUuid_fresh ha
  | _ => cases h

/-- Where the names after a step come from. -/
theorem name_did {evs : History hash} {t : Tid} {o : Op} {a : Ans o}
    (hallow : (phases evs t).allow o) {t' : Tid} {rid : String}
    (h : (phases (.did t o a :: evs) t').name = some rid) :
    ((phases evs t').name = some rid ∧ (t' = t → ∀ r q, o ≠ .insertInFlight r q)) ∨
      t' = t ∧ o = .newUuid ∧ rid ∈ (drawnBy o a).map Uuid.toString := by
  rw [phases_did] at h
  split at h
  · rename_i ht
    subst ht
    rcases Phase.name_next hallow h with ⟨hname, hne⟩ | hnew
    · exact Or.inl ⟨hname, fun _ => hne⟩
    · exact Or.inr ⟨rfl, hnew⟩
  · rename_i ht
    exact Or.inl ⟨h, fun h => absurd h ht⟩

theorem registered_did {evs : History hash} {w : World hash} {t : Tid} {o : Op} {c : Choice}
    {a : Ans o} (hreg : Registered evs w) (hallow : (phases evs t).allow o)
    (ha : answer t o c w = some a) : Registered (.did t o a :: evs) (effect t o a w) := by
  have hstays : ∀ {rid x}, opened rid evs = [x] → opened rid (.did t o a :: evs) = [x] :=
    fun h => (hreg.opened_stays a hallow (by rw [h]; exact List.cons_ne_nil _ _)).trans h
  have hdrawn : ∀ {rid}, rid ∈ w.drawn.map Uuid.toString →
      rid ∈ (effect t o a w).drawn.map Uuid.toString := by
    intro rid h
    rw [drawn_effect, List.map_append]
    exact List.mem_append_right _ h
  refine ⟨?drawn, ?named, ?pending, ?inFlight⟩
  case drawn =>
    intro rid h
    rcases hreg.opened_did a hallow rid with ⟨heq, -⟩ | ⟨l, -, hname, -⟩
    · rw [heq] at h
      exact hdrawn (hreg.drawn rid h)
    · exact hdrawn (hreg.named t rid hname).2.1
  case named =>
    intro t' rid h
    rcases name_did hallow h with ⟨hname, hne⟩ | ⟨rfl, ho, hrid⟩
    · obtain ⟨hnone, hmem, huniq⟩ := hreg.named t' rid hname
      refine ⟨?_, hdrawn hmem, fun t'' h'' => ?_⟩
      · rcases hreg.opened_did a hallow rid with ⟨heq, -⟩ | ⟨l, ho, ht, -⟩
        · rw [heq, hnone]
        · exact absurd ho (hne (huniq t ht).symm _ _)
      · rcases name_did hallow h'' with ⟨h'', -⟩ | ⟨-, ho, hrid⟩
        · exact huniq t'' h''
        · exact absurd hmem (drawnBy_fresh ha hrid)
    · refine ⟨?_, ?_, fun t'' h'' => ?_⟩
      · rcases hreg.opened_did a hallow rid with ⟨heq, -⟩ | ⟨l, hins, -⟩
        · rw [heq]
          by_contra hne
          exact drawnBy_fresh ha hrid (hreg.drawn rid hne)
        · rw [ho] at hins
          cases hins
      · rw [drawn_effect, List.map_append]
        exact List.mem_append_left _ hrid
      · rcases name_did hallow h'' with ⟨h'', -⟩ | ⟨ht, -⟩
        · exact absurd (hreg.named t'' rid h'').2.1 (drawnBy_fresh ha hrid)
        · exact ht
  case pending =>
    intro t' rid l h
    rw [phases_did] at h
    split at h
    · rename_i ht
      subst ht
      rcases Phase.pending_next hallow h with h | ho
      · exact hstays (hreg.pending t' rid l h)
      · rcases hreg.opened_did a hallow rid with ⟨-, hne⟩ | ⟨l', ho', -, heq⟩
        · exact absurd ho (hne _)
        · have hl := (Op.insertInFlight.inj (ho.symm.trans ho')).2
          have hl : l = l' := (List.cons.inj (QuoromState.mk.inj hl).2.2.2).1
          rw [heq, hl]
    · exact hstays (hreg.pending t' rid l h)
  case inFlight =>
    intro u rid q h
    rcases inFlight_effect h with ⟨rfl, ho⟩ | ⟨q₀, hq₀, hq⟩
    · rcases hreg.opened_did a hallow rid with ⟨-, hne⟩ | ⟨l, ho', -, heq⟩
      · exact absurd ho (hne _)
      · have hq := (Op.insertInFlight.inj (ho.symm.trans ho')).2
        exact ⟨l, by rw [hq]; exact List.mem_singleton_self _, heq⟩
    · obtain ⟨l, hl, hopen⟩ := hreg.inFlight u rid q₀ hq₀
      refine ⟨l, ?_, hstays hopen⟩
      rcases hq with ⟨-, hans⟩ | ⟨-, rfl⟩
      · exact hans.subset hl
      · exact hl

/-- **A request id names one request.** -/
theorem registered {D : Discipline (cluster hash)} {w₀ : World hash} (hw : w₀.Settled)
    {evs : History hash} {c : Config (cluster hash)}
    (hrun : Run (cluster hash) D (quiet w₀) evs c) : Registered evs c.state := by
  refine (cluster_invariant Registered ?did ?ended ?arrived ?init hrun).1
  case did =>
    intro evs w t o c a hreg _ hallow ha _
    exact registered_did hreg hallow ha
  case ended =>
    intro evs w t hreg
    refine ⟨hreg.drawn, fun t' rid h => ?_, fun t' rid l h => ?_, hreg.inFlight⟩
    · obtain ⟨hnone, hmem, huniq⟩ := hreg.named t' rid (tells_ended Phase.name rfl h)
      exact ⟨hnone, hmem, fun t'' h'' => huniq t'' (tells_ended Phase.name rfl h'')⟩
    · exact hreg.pending t' rid l (tells_ended Phase.pending rfl h)
  case arrived =>
    intro evs w e r w' hreg _ harr _ _
    have hname : ∀ {t' rid}, (phases (.arrived e :: evs) t').name = some rid →
        (phases evs t').name = some rid :=
      fun h => tells_arrived Phase.name (fun hb => (Phase.name_begun hb).1) h
    refine ⟨?_, fun t' rid h => ?_, fun t' rid l h => ?_, ?_⟩
    · rw [drawn_arrive harr]
      exact hreg.drawn
    · rw [drawn_arrive harr]
      obtain ⟨hnone, hmem, huniq⟩ := hreg.named t' rid (hname h)
      exact ⟨hnone, hmem, fun t'' h'' => huniq t'' (hname h'')⟩
    · exact hreg.pending t' rid l
        (tells_arrived Phase.pending (fun hb => (Phase.name_begun hb).2) h)
    · rw [node_arrive harr]
      exact hreg.inFlight
  case init =>
    refine ⟨fun rid h => absurd rfl h, ?_, ?_, fun u rid q h => ?_⟩
    · intro t rid h
      cases h
    · intro t rid l h
      cases h
    · rw [hw.inFlight] at h
      simp at h

/-! ## The request in hand -/

/-- The request that the proxy task of a peer is answering is the last that the peer took. -/
def Handles (evs : History hash) : Prop :=
  ∀ t client l, (phases evs t).request = some (client, l) →
    ∃ r, handling t.peer evs = some r ∧ r.clientId = client ∧ (r.msg = .getList l ∨ r.msg = .putList l)

/-- **A peer answers the request it has taken.** -/
theorem handled {D : Discipline (cluster hash)} {w₀ : World hash} {evs : History hash}
    {c : Config (cluster hash)} (hrun : Run (cluster hash) D (quiet w₀) evs c) : Handles evs := by
  refine (cluster_invariant (fun evs _ => Handles evs) ?did ?ended ?arrived ?init hrun).1
  case did =>
    intro evs w t o c a hh _ hallow _ _ t' client l h
    refine hh t' client l ?_
    rw [phases_did] at h
    split at h
    · rename_i ht
      subst ht
      have hnext : ((phases evs t').next hash o a).request = (phases evs t').request ∨
          ((phases evs t').next hash o a).request = none := Phase.request_next hallow
      rcases hnext with heq | heq
      · rwa [heq] at h
      · rw [heq] at h
        cases h
    · exact h
  case ended =>
    intro evs w t hh t' client l h
    exact hh t' client l (tells_ended Phase.request rfl h)
  case arrived =>
    intro evs w e r w' hh hfit _ _ _ t' client l h
    have hpeer : (phases evs t').request = some (client, l) → t' = .proxied t'.peer := by
      intro hreq
      have hf := hfit t'
      cases hg : phases evs t' <;> rw [hg] at hreq hf <;> first
        | exact hf
        | cases hreq
    rcases phases_arrived evs e t' with hsame | ⟨g, hbegun, hg⟩
    · have hold : (phases evs t').request = some (client, l) := hsame ▸ h
      obtain ⟨r, hr, hrest⟩ := hh t' client l hold
      cases e with
      | take q =>
        by_cases hq : q.peer = t'.peer
        · -- the task that takes the request was idle before
          rw [hpeer hold, ← hq] at h
          simp only [phases, begun, Function.update_self] at h
          obtain ⟨q', hq', hrest⟩ := Phase.request_begun (e := .take q) rfl h
          cases hq'
          exact ⟨q, if_pos hq, hrest⟩
        · exact ⟨r, (if_neg hq).trans hr, hrest⟩
      | _ => exact ⟨r, hr, hrest⟩
    · rw [hg] at h
      obtain ⟨q, rfl, hrest⟩ := Phase.request_begun hbegun h
      cases hbegun
      exact ⟨q, if_pos rfl, hrest⟩
  case init =>
    intro t client l h
    cases h

/-! ## Requests from their start to their answer -/

/-- Turns of a task that nothing goes wrong in. -/
def turns (t : Tid) (n : ℕ) : List (Move (cluster md5)) := List.replicate n (.turn t .yes)

/-- A `PutList` for list 101 in the cluster of the servers 1 to 3: server 1 coordinates it, both
replicas store and acknowledge it.  Its packets are numbered from `k`. -/
def putMoves (k : ℕ) (l : ShoppingList) (id : Uuid) : List (Move (cluster md5)) :=
  .arrive (.request [] (.putList l)) :: .arrive (.take ⟨k, .ofTail 1, [], .putList l⟩) ::
  turns (.proxied (.ofTail 1)) 3 ++ .turn (.proxied (.ofTail 1)) (.uuid id) ::
  turns (.proxied (.ofTail 1)) 29 ++
  .arrive (.deliver ⟨k + 1, .ofTail 1, .ofTail 3, .replicateList id.toString l true⟩) ::
  turns (.incoming (.ofTail 3) (k + 1)) 9 ++
  .arrive (.deliver ⟨k + 2, .ofTail 1, .ofTail 2, .replicateList id.toString l true⟩) ::
  turns (.incoming (.ofTail 2) (k + 2)) 9 ++
  .arrive (.deliver ⟨k + 3, .ofTail 3, .ofTail 1, .ack id.toString⟩) ::
  turns (.incoming (.ofTail 1) (k + 3)) 3 ++
  .arrive (.deliver ⟨k + 4, .ofTail 2, .ofTail 1, .ack id.toString⟩) ::
  turns (.incoming (.ofTail 1) (k + 4)) 3 ++
  turns (.proxied (.ofTail 1)) 11

/-- A `GetList` for list 101, which the coordinator and both replicas store, up to the answer. -/
def getMoves (k : ℕ) (c l₃ l₂ : ShoppingList) (id : Uuid) : List (Move (cluster md5)) :=
  .arrive (.request [] (.getList c)) :: .arrive (.take ⟨k, .ofTail 1, [], .getList c⟩) ::
  turns (.proxied (.ofTail 1)) 6 ++ .turn (.proxied (.ofTail 1)) (.uuid id) ::
  turns (.proxied (.ofTail 1)) 29 ++
  .arrive (.deliver ⟨k + 1, .ofTail 1, .ofTail 3, .replicateList id.toString c false⟩) ::
  turns (.incoming (.ofTail 3) (k + 1)) 9 ++
  .arrive (.deliver ⟨k + 2, .ofTail 1, .ofTail 2, .replicateList id.toString c false⟩) ::
  turns (.incoming (.ofTail 2) (k + 2)) 9 ++
  .arrive (.deliver ⟨k + 3, .ofTail 3, .ofTail 1, .ackList id.toString l₃⟩) ::
  turns (.incoming (.ofTail 1) (k + 3)) 3 ++
  .arrive (.deliver ⟨k + 4, .ofTail 2, .ofTail 1, .ackList id.toString l₂⟩) ::
  turns (.incoming (.ofTail 1) (k + 4)) 3 ++
  turns (.proxied (.ofTail 1)) 9

/-- Three servers that know each other. -/
abbrev threeServers : World md5 := .joined md5 [.ofTail 1, .ofTail 2, .ofTail 3]

end Sdle
