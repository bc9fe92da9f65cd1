import Sdle.Progress
import Sdle.Replies

/-!
# Nobody waits in vain

A steady cluster whose storages and whose way to the proxy work.  Peers may still be unreachable, and
messages get lost.

* `requests_conserved` — a request is on its way, open, or answered; none disappears.
* `answered_at_rest` — when no request is on its way and none is handled, each has its answer.
* `everyone_answered` — **the cluster can always answer everything that it has been asked**, and
  exactly once.
-/

set_option autoImplicit false

namespace Sdle

open Tasks Peer ServerStorage HashRing

variable {hash : String → U128}

/-! ## Handlers that answer -/

/-- Follows whether a task still owes an answer. -/
def attends (ring : HashRing) : Monitor PeerSig Tid Bool where
  allow _ _ _ := True
  expect _ _ o a :=
    match o, a with
    | .hashring, r => r = ring
    | o, a => Works o a
  next _ owes o _ :=
    match o with
    | .sendProxy _ _ => false
    | _ => owes

section Programs

variable {α : Type} {ring : HashRing} {t : Tid} {owes : Bool}

/-- A task that owes nothing never does. -/
theorem attends_false : ∀ p : Code α, p.Obeys (attends ring) t (fun _ owes => owes = false) false
  | .pure _ => rfl
  | .op o k => by
    refine ⟨trivial, fun a _ => ?_⟩
    have hnext : (attends ring).next t false o a = false := by
      cases o <;> rfl
    rw [hnext]
    exact attends_false (k a)

/-- Routine operations answer nobody. -/
theorem attends_of_routine {p : Code α} (h : p.Only Routine) :
    p.Obeys (attends ring) t (fun _ owes' => owes' = owes) owes := by
  apply Prog.Only.obeys (fun owes' => owes' = owes) (fun _ _ _ _ => trivial) _ p owes rfl h
  rintro _ o a rfl ho
  cases o with
  | sendProxy client m => exact ho.elim
  | _ => rfl

/-- An answer settles the debt. -/
theorem attends_sendToProxy (client : ClientId) (msg : Msg) :
    (sendToProxy client msg >>= fun _ => (pure () : Code Unit)).Obeys (attends ring) t
      (fun _ owes => owes = false) owes :=
  ⟨trivial, fun _ _ => ⟨trivial, fun _ _ => ⟨trivial, fun _ _ => rfl⟩⟩⟩

/-- The ring has replicas for every list. -/
def HashRing.Replicated (hash : String → U128) (ring : HashRing) : Prop :=
  ∀ id, (ring.getPreferenceList hash id).drop 1 ≠ []

theorem replicated_of_two (hreplicas : 2 ≤ ring.replicas) (hservers : 2 ≤ ring.serverCount) :
    ring.Replicated hash := by
  intro id hnil
  have hlength := congrArg List.length hnil
  rw [getPreferenceList_eq (by omega), List.length_drop, List.length_take, length_owners,
    List.length_nil] at hlength
  omega

theorem attends_getReplicas (hrep : ring.Replicated hash) (id : Uuid) :
    (getReplicas hash id).Obeys (attends ring) t
      (fun replicas owes' => owes' = owes ∧ replicas.isEmpty = false) owes := by
  refine ⟨trivial, fun _ _ => ⟨trivial, fun r hr => ⟨trivial, fun _ _ => ⟨rfl, ?_⟩⟩⟩⟩
  obtain rfl : r = ring := hr
  rw [List.isEmpty_eq_false_iff]
  exact hrep id

theorem attends_handleIncomingPut (hrep : ring.Replicated hash) (client : ClientId)
    (list : ShoppingList) : (handleIncomingPut hash client list).Obeys (attends ring) t
      (fun _ owes => owes = false) true := by
  apply (attends_getReplicas hrep list.id).call
  rintro replicas _ ⟨rfl, hne⟩
  rw [hne]
  apply (attends_of_routine (only_sendReplicate list replicas true)).call
  rintro reached _ rfl
  cases reached with
  | true =>
    refine ⟨trivial, fun _ _ => ⟨trivial, fun written hwritten => ?_⟩⟩
    cases written with
    | none => cases hwritten
    | some _ =>
      exact ⟨trivial, fun _ _ => ⟨trivial, fun _ _ => ⟨trivial, fun _ _ => ⟨trivial, fun _ _ => rfl⟩⟩⟩⟩
  | false => exact attends_sendToProxy client _

theorem attends_readList (hrep : ring.Replicated hash) (client : ClientId) (list l : ShoppingList) :
    (readList hash client list l).Obeys (attends ring) t (fun _ owes => owes = false) true := by
  apply (attends_getReplicas hrep list.id).call
  rintro replicas _ ⟨rfl, hne⟩
  rw [hne]
  apply (attends_of_routine (only_sendReadReplicate list replicas)).call
  rintro merged _ rfl
  cases merged with
  | none => exact attends_sendToProxy client _
  | some s =>
    refine ⟨trivial, fun _ _ => ⟨trivial, fun written hwritten => ⟨trivial, fun _ _ => ?_⟩⟩⟩
    cases written with
    | none => cases hwritten
    | some _ => exact attends_sendToProxy client _

/-- **A request is answered before its handler ends.** -/
theorem attends_handleIncomingProxy (hrep : ring.Replicated hash) (client : ClientId) (msg : Msg) :
    (handleIncomingProxy hash client msg).Obeys (attends ring) t (fun _ owes => owes = false)
      msg.asked.isSome := by
  cases msg with
  | getList list =>
    refine ⟨trivial, fun _ _ => ⟨trivial, fun stored hstored => ⟨trivial, fun _ _ => ?_⟩⟩⟩
    cases stored with
    | none => cases hstored
    | some stored =>
      cases stored with
      | none => exact attends_handleIncomingPut hrep client list
      | some l => exact attends_readList hrep client list l
  | putList list => exact attends_handleIncomingPut hrep client list
  | _ => rfl

end Programs

/-! ## Accounts -/

/-- The request asks for a list. -/
def Request.Asks (r : Request) : Prop := r.msg.asked ≠ none

theorem askedBy_of_not_asks {r : Request} (h : ¬ r.Asks) (client : ClientId) : r.askedBy client = none := by
  unfold Request.askedBy
  split
  · exact not_not.1 h
  · rfl

/-- Only a peer's own requests go with its answer, and only one of them asks for a list. -/
theorem askedIn_settled {client : ClientId} {r : Request} {rs : List Request} (hr : r ∈ rs)
    (hasks : r.Asks) (hapart : rs.Pairwise fun r q => r.Asks → q.Asks → r.peer ≠ q.peer) :
    askedIn client rs =
      (r.askedBy client).toList + askedIn client (rs.filter fun q => q.peer ≠ r.peer) := by
  induction rs with
  | nil => cases hr
  | cons q rs ih =>
    obtain ⟨hq, hrest⟩ := List.pairwise_cons.1 hapart
    rw [askedIn_cons]
    rcases List.mem_cons.1 hr with rfl | hr
    · rw [List.filter_cons_of_neg (by simp)]
      congr 1
      -- the others of this peer ask for nothing
      clear ih hapart hrest hr
      induction rs with
      | nil => rfl
      | cons q rs ih =>
        have hrs := ih fun q' hq' => hq q' (List.mem_cons_of_mem _ hq')
        by_cases hpeer : q.peer = r.peer
        · have hnot : ¬ q.Asks := fun h => hq q List.mem_cons_self hasks h hpeer.symm
          rw [List.filter_cons_of_neg (by simpa using hpeer), askedIn_cons, askedBy_of_not_asks hnot, ← hrs]
          exact zero_add _
        · rw [List.filter_cons_of_pos (by simpa using hpeer), askedIn_cons, askedIn_cons, hrs]
    · rw [ih hr hrest]
      by_cases hpeer : q.peer = r.peer
      · have hnot : ¬ q.Asks := fun h => hq r hr h hasks hpeer
        rw [List.filter_cons_of_neg (by simpa using hpeer), askedBy_of_not_asks hnot]
        exact zero_add _
      · rw [List.filter_cons_of_pos (by simpa using hpeer), askedIn_cons]
        exact add_left_comm _ _ _

/-- The answer of a task goes to the client whose request it has taken and not answered. -/
def AnswersOwn (evs : History hash) (ev : Event (cluster hash)) : Prop :=
  ∀ t client msg a, ev = .did t (.sendProxy client msg) a →
    t = .proxied t.peer ∧ ∃ r ∈ waiting evs, handling t.peer evs = some r ∧ r.clientId = client ∧ r.Asks

theorem answersOwn_of_run {D : Discipline (cluster hash)} {w₀ : World hash} {evs : History hash}
    {c : Config (cluster hash)} (hrun : Run (cluster hash) D (quiet w₀) evs c) :
    Throughout AnswersOwn evs := by
  have hrun := hrun.with (fun evs _ => Open evs ∧ Handles evs) fun _ _ h => ⟨open_requests h, handled h⟩
  apply (cluster_invariant (fun evs _ => Throughout AnswersOwn evs) ?did ?ended ?arrived trivial hrun).1
  case did =>
    rintro evs w t o c a hown hfit hallow - ⟨-, hopen, hhandles⟩
    refine ⟨?_, hown⟩
    rintro t' client msg a' heq
    cases heq
    obtain ⟨l, hl⟩ := request_of_sendProxy hallow
    obtain ⟨r, hr, hhandling⟩ := hopen t _ hl
    obtain ⟨r', hhandling', hclient, hmsg⟩ := hhandles t client l hl
    obtain rfl : r = r' := Option.some.inj (hhandling.symm.trans hhandling')
    refine ⟨proxied_of_request (hfit t) hl, r, hr, hhandling, hclient, fun hnone => ?_⟩
    rcases hmsg with hmsg | hmsg <;> rw [hmsg] at hnone <;> cases hnone
  case ended =>
    intro evs w t hown
    exact ⟨fun _ _ _ _ heq => (by cases heq), hown⟩
  case arrived =>
    intro evs w e r w' hown _ _ _ _
    exact ⟨fun _ _ _ _ heq => (by cases heq), hown⟩

/-- Nobody joins or leaves, and the storages and the way to the proxy work. -/
def attentive : Discipline (cluster hash) := fun evs w ev =>
  restful evs w ev ∧
    match ev with
    | .did _ o a => Works o a
    | _ => True

/-- Whoever owes an answer knows it, and no request has disappeared. -/
structure Attended (evs : History hash) (owes : Tid → Bool) (w : World hash) : Prop where
  owed : ∀ r ∈ waiting evs, r.Asks → owes (.proxied r.peer) = true
  apart : (waiting evs).Pairwise fun r q => r.Asks → q.Asks → r.peer ≠ q.peer
  accounts : ∀ client, (served client evs : Multiset ShoppingList) + askedIn client (waiting evs) +
    askedIn client w.requests = requestsOf client evs

section Steps

variable {evs : History hash} {owes : Tid → Bool} {w : World hash}

/-- A step that no request takes part in. -/
theorem Attended.other (h : Attended evs owes w) {ev : Event (cluster hash)} {w' : World hash}
    (hwaiting : waiting (ev :: evs) = waiting evs) (hserved : ∀ client, served client (ev :: evs) = served client evs)
    (hasked : ∀ client, requestsOf client (ev :: evs) = requestsOf client evs)
    (hrequests : w'.requests = w.requests) : Attended (ev :: evs) owes w' := by
  refine ⟨?_, ?_, fun client => ?_⟩
  · rw [hwaiting]
    exact h.owed
  · rw [hwaiting]
    exact h.apart
  · rw [hwaiting, hserved, hasked, hrequests]
    exact h.accounts client

/-- An answer is served from the requests that are open. -/
theorem Attended.sendProxy (h : Attended evs owes w) {t : Tid} {client : ClientId} {msg : Msg} {a : Bool}
    (hown : AnswersOwn evs (.did t (.sendProxy client msg) a)) :
    Attended (.did t (.sendProxy client msg) a :: evs) (Function.update owes t false)
      (effect t (.sendProxy client msg) a w) := by
  obtain ⟨ht, r, hr, hhandling, rfl, hasks⟩ := hown t client msg a rfl
  have hpeer : r.peer = t.peer := peer_of_handling hhandling
  refine ⟨fun q hq hqasks => ?_, h.apart.sublist List.filter_sublist, fun cl => ?_⟩
  · obtain ⟨hq, hne⟩ := List.mem_filter.1 hq
    have hother : Tid.proxied q.peer ≠ t := by
      rintro rfl
      simp [Tid.peer] at hne
    rw [Function.update_of_ne hother]
    exact h.owed q hq hqasks
  · rw [requests_effect]
    change (((if r.clientId = cl then ((handling t.peer evs).bind (Request.askedBy cl)).toList else []) ++
      served cl evs : List ShoppingList) : Multiset ShoppingList) +
        askedIn cl ((waiting evs).filter fun q => q.peer ≠ t.peer) + askedIn cl w.requests =
          requestsOf cl evs
    rw [← h.accounts cl]
    have hserved : (if r.clientId = cl then ((handling t.peer evs).bind (Request.askedBy cl)).toList else []) =
        (r.askedBy cl).toList := by
      rw [hhandling]
      split
      · rfl
      · rename_i hcl
        rw [Request.askedBy, if_neg hcl]
        rfl
    rw [hserved, askedIn_settled hr hasks h.apart, hpeer, ← Multiset.coe_add,
      add_comm (Multiset.ofList (r.askedBy cl).toList), ← add_assoc]

/-- A request is taken by a peer that owes nothing. -/
theorem Attended.take (h : Attended evs owes w) {q : Request} (hq : q ∈ w.requests)
    (hfree : owes (.proxied q.peer) = false) {w' : World hash} (hw' : w'.requests = w.requests.erase q) :
    Attended (.arrived (.take q) :: evs) (Function.update owes (.proxied q.peer) q.msg.asked.isSome) w' := by
  have hother : ∀ r ∈ waiting evs, r.Asks → r.peer ≠ q.peer := by
    intro r hr hasks hpeer
    have howed := h.owed r hr hasks
    rw [hpeer, hfree] at howed
    cases howed
  refine ⟨fun r hr hasks => ?_, ?_, fun client => ?_⟩
  · rcases List.mem_cons.1 hr with rfl | hr
    · rw [Function.update_self]
      exact Option.isSome_iff_ne_none.2 hasks
    · have hne : Tid.proxied r.peer ≠ .proxied q.peer := fun heq => hother r hr hasks (Tid.proxied.inj heq)
      rw [Function.update_of_ne hne]
      exact h.owed r hr hasks
  · exact List.pairwise_cons.2 ⟨fun r hr _ hasks => (hother r hr hasks).symm, h.apart⟩
  · change (served client evs : Multiset ShoppingList) + askedIn client (q :: waiting evs) +
      askedIn client w'.requests = requestsOf client evs
    rw [← h.accounts client, hw', askedIn_cons, askedIn_erase hq]
    ac_rfl

/-- A request for a list has a coordinator. -/
theorem Attended.request {ring : HashRing} (h : Attended evs owes w) (hring : w.proxyRing = ring)
    (hrep : ring.Replicated hash) {client : ClientId} {msg : Msg} {w' : World hash}
    (harr : arrive (.request client msg) w = some (none, w')) :
    Attended (.arrived (.request client msg) :: evs) owes w' := by
  refine ⟨h.owed, h.apart, fun cl => ?_⟩
  change (served cl evs : Multiset ShoppingList) + askedIn cl (waiting evs) + askedIn cl w'.requests =
    (((if client = cl then msg.asked.toList else []) ++ requestsOf cl evs : List ShoppingList) :
      Multiset ShoppingList)
  rw [← Multiset.coe_add, ← h.accounts cl]
  simp only [arrive] at harr
  split at harr
  · rename_i hnone
    -- a list that is asked for has replicas, and so a coordinator
    have hasked : msg.asked = none := by
      by_contra hasks
      obtain ⟨l, hl⟩ := Option.ne_none_iff_exists'.1 hasks
      have hrouted : routed msg = some l.id := by
        cases msg <;> cases hl <;> rfl
      rw [hrouted, Option.bind_some, hring, getCoordinator, List.head?_eq_none_iff] at hnone
      exact hrep l.id (by rw [hnone]; rfl)
    cases harr
    rw [hasked]
    simp
  · cases harr
    rw [askedIn_cons, add_left_comm]
    congr 1
    unfold Request.askedBy
    split <;> rfl

end Steps

/-! ## Runs -/

section Runs

variable {ring : HashRing} {w₀ : World hash} {evs : History hash} {c : Config (cluster hash)}

/-- **No request disappears.** -/
theorem requests_conserved (hw : w₀.Settled) (hsteady : w₀.Steady ring) (hwhole : ring.Whole hash)
    (hrep : ring.Replicated hash) (hrun : Run (cluster hash) attentive (quiet w₀) evs c) :
    ∃ owes : Tid → Bool, Attended evs owes c.state ∧ ∀ t, c.pool t = none → owes t = false := by
  have hsteady : ∀ evs c, Run (cluster hash) attentive (quiet w₀) evs c → World.Steady ring c.state :=
    fun evs c h => steady_of_run hw hsteady hwhole (h.mono fun _ _ _ hD => hD.1.1)
  have hrun := (hrun.with (fun _ (w : World hash) => World.Steady ring w) hsteady).throughout
    (P := AnswersOwn) fun _ _ h => answersOwn_of_run h
  have hsound := Run.sound (attends ring) false (fun _ owes => owes = false)
    (fun evs owes w => Attended evs owes w) ?did ?ended ?arrived ?started ?init hrun
  · obtain ⟨owes, hattended, hpool⟩ := hsound
    exact ⟨owes, hattended, fun t => (hpool t).2⟩
  case did =>
    rintro evs owes w t o ch a w' hattended - hact ⟨⟨hD, hsteady⟩, hown⟩
    obtain ⟨hans, rfl⟩ := @act_eq hash _ _ _ _ _ _ hact
    cases o with
    | sendProxy client msg => exact ⟨hD.2, hattended.sendProxy hown⟩
    | hashring =>
      cases hans
      refine ⟨hsteady.hashring t.peer, ?_⟩
      rw [show (attends ring).next t (owes t) .hashring _ = owes t from rfl, Function.update_eq_self]
      exact hattended.other rfl (fun _ => rfl) (fun _ => rfl) (requests_effect _ _ _ _)
    | _ =>
      refine ⟨hD.2, ?_⟩
      rw [show (attends ring).next t (owes t) _ _ = owes t from rfl, Function.update_eq_self]
      exact hattended.other rfl (fun _ => rfl) (fun _ => rfl) (requests_effect _ _ _ _)
  case ended =>
    intro evs owes w t hattended hend
    rw [← hend, Function.update_eq_self]
    exact hattended.other rfl (fun _ => rfl) (fun _ => rfl) rfl
  case arrived =>
    rintro evs owes w e w' hattended harr ⟨⟨hD, hsteady⟩, -⟩
    cases e with
    | request client msg => exact hattended.request hsteady.proxyRing hrep harr
    | lose q =>
      simp only [arrive] at harr
      split at harr <;> cases harr
      exact hattended.other rfl (fun _ => rfl) (fun _ => rfl) rfl
    | ready u => exact hD.1.1.elim
    | message src dst msg => exact hD.1.1.elim
    | take q =>
      simp only [arrive] at harr
      split at harr <;> cases harr
    | deliver q =>
      simp only [arrive] at harr
      split at harr <;> cases harr
    | _ => cases harr
  case started =>
    rintro evs owes w e t p w' hattended harr hidle ⟨⟨hD, -⟩, -⟩
    have hkeep : w'.requests = w.requests →
        (∀ q, e ≠ .take q) → Attended (.arrived e :: evs) (Function.update owes t false) w' := by
      intro hrequests htake
      rw [← hidle, Function.update_eq_self]
      refine hattended.other ?_ (fun _ => rfl) (fun _ => ?_) hrequests
      · cases e with
        | take q => exact absurd rfl (htake q)
        | _ => rfl
      · cases e with
        | request client msg =>
          simp only [arrive] at harr
          split at harr <;> cases harr
        | _ => rfl
    cases e with
    | take q =>
      have hq := mem_requests_of_take harr
      simp only [arrive, if_pos hq, Option.some.injEq, Prod.mk.injEq] at harr
      obtain ⟨⟨rfl, rfl⟩, rfl⟩ := harr
      exact ⟨q.msg.asked.isSome, attends_handleIncomingProxy hrep q.clientId q.msg,
        hattended.take hq hidle rfl⟩
    | deliver q =>
      refine ⟨false, attends_false p, hkeep ?_ (fun _ => Arrival.noConfusion)⟩
      simp only [arrive] at harr
      split at harr <;> cases harr
      rfl
    | request client msg =>
      simp only [arrive] at harr
      split at harr <;> cases harr
    | lose q =>
      simp only [arrive] at harr
      split at harr <;> cases harr
    | message src dst msg => exact hD.1.1.elim
    | ready u => exact hD.1.1.elim
    | _ =>
      refine ⟨false, attends_false p, hkeep ?_ (fun _ h => by cases h)⟩
      cases harr
      rfl
  case init =>
    refine ⟨fun _ h => absurd h List.not_mem_nil, .nil, fun client => ?_⟩
    rw [hw.requests]
    rfl

/-- The client has one answer to each of its requests, and no other one. -/
def AllAnswered (client : ClientId) (evs : History hash) : Prop :=
  ∃ ls, ls.Perm (requestsOf client evs) ∧ List.Forall₂ Msg.Answers (answersTo client evs) ls

/-- Where no request is on its way and none is handled, all are answered. -/
theorem answered_at_rest (hw : w₀.Settled) (hempty : ∀ u, (w₀.node u).storage = .empty)
    (hsteady : w₀.Steady ring) (hwhole : ring.Whole hash) (hrep : ring.Replicated hash)
    (hrun : Run (cluster hash) attentive (quiet w₀) evs c) {ids : Set Uuid}
    (hids : ∀ X, submitted evs X ≠ [] → X ∈ ids) (hinj : Set.InjOn (key hash) ids)
    (hidle : ∀ u, c.pool (.proxied u) = none) (hrequests : World.requests c.state = [])
    (client : ClientId) : AllAnswered client evs := by
  obtain ⟨owes, hattended, hfree⟩ := requests_conserved hw hsteady hwhole hrep hrun
  refine ⟨served client evs, Multiset.coe_eq_coe.1 ?_, answers_served hw hempty hrun hids hinj⟩
  have hnone : askedIn client (waiting evs) = 0 := by
    unfold askedIn
    rw [List.filterMap_eq_nil_iff.2 fun r hr => ?_]
    · rfl
    · apply askedBy_of_not_asks
      intro hasks
      have howed := hattended.owed r hr hasks
      rw [hfree _ (hidle r.peer)] at howed
      cases howed
  have haccounts := hattended.accounts client
  rw [hnone, hrequests] at haccounts
  simpa [askedIn] using haccounts

/-- Nothing is asked. -/
def Unasked (ev : Event (cluster hash)) : Prop := ∀ client msg, ev ≠ .arrived (.request client msg)

theorem Smooth.attentive {ev : Event (cluster hash)} (h : Smooth ev) (evs : History hash) (w : World hash) :
    attentive evs w ev := by
  refine ⟨h.restful evs w, ?_⟩
  cases ev with
  | did t o a => exact h
  | ended t => trivial
  | arrived e => trivial

/-- The tasks take no requests. -/
theorem requests_of_internal {D : Discipline (cluster hash)} {c c' : Config (cluster hash)}
    {since : History hash} (hrun : Run (cluster hash) D c since c') (h : ∀ ev ∈ since, Internal ev) :
    World.requests c'.state = World.requests c.state := by
  induction hrun with
  | init => rfl
  | @step evs ev c₁ c₂ _ _ hstep ih =>
    rw [← ih fun ev hev => h ev (List.mem_cons_of_mem _ hev)]
    have hev := h ev List.mem_cons_self
    cases hstep with
    | did live hact =>
      obtain ⟨-, rfl⟩ := @act_eq hash _ _ _ _ _ _ hact
      exact requests_effect _ _ _ _
    | ended => rfl
    | arrived => exact absurd rfl (hev _)
    | started => exact absurd rfl (hev _)

/-- A peer without work takes the next request. -/
theorem take_step {r : Request} (hr : r ∈ World.requests c.state) (hidle : c.pool (.proxied r.peer) = none) :
    ∃ c', Step (cluster hash) c (.arrived (.take r)) c' ∧
      World.requests c'.state = (World.requests c.state).erase r := by
  have harr : arrive (.take r) c.state =
      some (some (.proxied r.peer, handleIncomingProxy hash r.clientId r.msg),
        { c.state with requests := (World.requests c.state).erase r }) := if_pos hr
  exact ⟨_, .started harr hidle, rfl⟩

/-- One request after the other is taken and handled. -/
theorem all_taken (hw : w₀.Settled) (hlocks : Unlocked w₀) (hfailure : ∀ u, (w₀.node u).failure = ∅)
    (hsteady : w₀.Steady ring) (hwhole : ring.Whole hash)
    (hsafe : ∀ u ∈ ring.servers, ring.nextNode u ≠ none) (n : ℕ) :
    ∀ {evs : History hash} {c : Config (cluster hash)}, Run (cluster hash) attentive (quiet w₀) evs c →
      (World.requests c.state).length = n →
        ∃ since c', Run (cluster hash) attentive c since c' ∧ (∀ ev ∈ since, Unasked ev) ∧
          (((∀ t, c'.pool t = none) ∧ World.requests c'.state = []) ∨ ∀ u, u ∈ World.drawn c'.state) := by
  induction n with
  | zero => ?_
  | succ n ih => ?_
  all_goals
    intro evs c hrun hlength
    obtain ⟨since, c₁, hrest, hsince, hdone⟩ := rest_of_smooth (fun _ _ _ h => h.1)
      (fun evs w _ h => h.attentive evs w) hw hlocks hfailure hsteady hwhole hsafe hrun
    have hasked : ∀ ev ∈ since, Unasked ev := fun ev hev _ _ => hsince ev hev _
    have hrequests := requests_of_internal hrest hsince
    rcases hdone with ⟨hidle, -⟩ | hdrawn
    swap
    · exact ⟨since, c₁, hrest, hasked, Or.inr hdrawn⟩
  · rw [← hrequests, List.length_eq_zero_iff] at hlength
    exact ⟨since, c₁, hrest, hasked, Or.inl ⟨hidle, hlength⟩⟩
  · rw [← hrequests] at hlength
    have hpos : 0 < (World.requests c₁.state).length := by omega
    obtain ⟨r, hr⟩ := List.exists_mem_of_length_pos hpos
    obtain ⟨c₂, hstep, htaken⟩ := take_step hr (hidle _)
    have hD : ∀ evs' w, attentive evs' w (.arrived (.take r) : Event (cluster hash)) :=
      fun _ _ => ⟨⟨trivial, trivial⟩, trivial⟩
    obtain ⟨later, c₃, hlater, hlaterasked, hdone⟩ :=
      ih ((hrun.join hrest).step (hD _ _) hstep) (by rw [htaken, List.length_erase_of_mem hr, hlength]; rfl)
    refine ⟨later ++ .arrived (.take r) :: since, c₃, (hrest.step (hD _ _) hstep).join hlater, ?_, hdone⟩
    intro ev hev
    rcases List.mem_append.1 hev with hev | hev
    · exact hlaterasked ev hev
    · rcases List.mem_cons.1 hev with rfl | hev
      · exact fun _ _ heq => by cases heq
      · exact hasked ev hev

/-- What is submitted comes from outside. -/
theorem submitted_unasked {since : History hash} {c' : Config (cluster hash)}
    (hrun : Run (cluster hash) attentive c since c') (h : ∀ ev ∈ since, Unasked ev) (X : Uuid) :
    submitted (since ++ evs) X = submitted evs X := by
  unfold submitted
  rw [List.filterMap_append, List.filterMap_eq_nil_iff.2 fun ev hev => ?_, List.nil_append]
  obtain ⟨_, _, hD⟩ := hrun.disc_of_mem hev
  cases ev with
  | arrived e =>
    cases e with
    | request client msg => exact absurd rfl (h _ hev client msg)
    | message src dst msg => exact hD.1.1.elim
    | _ => rfl
  | _ => rfl

/-- **Everybody can be answered.**  Whenever a steady cluster is at rest and no request is on its way,
each client has one answer to each of its requests; and from every state it reaches such a rest, without
being asked anything new, as long as there are UUIDs left. -/
theorem everyone_answered (hw : w₀.Settled) (hlocks : Unlocked w₀)
    (hfailure : ∀ u, (w₀.node u).failure = ∅) (hempty : ∀ u, (w₀.node u).storage = .empty)
    (hsteady : w₀.Steady ring) (hwhole : ring.Whole hash) (hrep : ring.Replicated hash)
    (hsafe : ∀ u ∈ ring.servers, ring.nextNode u ≠ none)
    (hrun : Run (cluster hash) attentive (quiet w₀) evs c) {ids : Set Uuid}
    (hids : ∀ X, submitted evs X ≠ [] → X ∈ ids) (hinj : Set.InjOn (key hash) ids) :
    ((∀ u, c.pool (.proxied u) = none) → World.requests c.state = [] →
      ∀ client, AllAnswered client evs) ∧
    ∃ since c', Run (cluster hash) attentive c since c' ∧ (∀ ev ∈ since, Unasked ev) ∧
      ((∀ client, AllAnswered client (since ++ evs)) ∨ ∀ u, u ∈ World.drawn c'.state) := by
  refine ⟨answered_at_rest hw hempty hsteady hwhole hrep hrun hids hinj, ?_⟩
  obtain ⟨since, c', hsince, hasked, hdone⟩ :=
    all_taken hw hlocks hfailure hsteady hwhole hsafe _ hrun rfl
  refine ⟨since, c', hsince, hasked, hdone.imp_left fun ⟨hidle, hrequests⟩ => ?_⟩
  have hids' : ∀ X, submitted (since ++ evs) X ≠ [] → X ∈ ids := by
    intro X hX
    rw [submitted_unasked hsince hasked] at hX
    exact hids X hX
  exact answered_at_rest hw hempty hsteady hwhole hrep (hrun.join hsince) hids' hinj
    (fun u => hidle _) hrequests

end Runs

def isAttentive (ev : Event (cluster hash)) : Bool :=
  isRestful ev &&
    match ev with
    | .did _ (.getShoppingList _) row => row.isSome
    | .did _ (.writeShoppingList _) written => written.isSome
    | .did _ (.sendProxy _ _) sent => sent
    | _ => true

theorem attentive_of_isAttentive {evs : History hash} {w : World hash} {ev : Event (cluster hash)}
    (h : isAttentive ev = true) : attentive evs w ev := by
  obtain ⟨hrestful, hworks⟩ := Bool.and_eq_true_iff.1 h
  have hD : restful evs w ev := restful_of_isRestful hrestful
  refine ⟨hD, ?_⟩
  cases ev with
  | did t o a =>
    cases o with
    | getShoppingList id => exact hworks
    | writeShoppingList l => exact hworks
    | sendProxy client m => exact hworks
    | turns => exact hD.2
    | _ => trivial
  | ended t => trivial
  | arrived e => trivial

/-- A put that waits for its quorum, and a request behind it. -/
def putPending : List (Move (cluster md5)) :=
  putReplicated ++ [.arrive (.request [] (.putList (oneItem "milk" 201)))]

theorem everyone_answered_putPending :
    ∃ evs c, Run (cluster md5) attentive
        (quiet (World.joined md5 [.ofTail 1, .ofTail 2, .ofTail 3])) evs c ∧
      (requestsOf [] evs).length = 2 ∧ answersTo [] evs = [] ∧
      ∃ since c', Run (cluster md5) attentive c since c' ∧ (∀ ev ∈ since, Unasked ev) ∧
        ((∀ client, AllAnswered client (since ++ evs)) ∨ ∀ u, u ∈ World.drawn c'.state) := by
  obtain ⟨evs, c, hrun, hcheck⟩ := exists_run (D := attentive) (fun _ _ ev => isAttentive ev)
    (fun _ _ _ => attentive_of_isAttentive)
    (quiet (World.joined md5 [.ofTail 1, .ofTail 2, .ofTail 3])) putPending
    (fun evs _ => (requestsOf [] evs).length == 2 && (answersTo [] evs).isEmpty &&
      (evs.filterMap submission).all fun l => l.id = .ofTail 101) (by decide +kernel)
  simp only [Bool.and_eq_true] at hcheck
  obtain ⟨⟨hasked, hnone⟩, hids⟩ := hcheck
  have hids := ids_of_submissions fun l hl => of_decide_eq_true (List.all_eq_true.1 hids l hl)
  refine ⟨evs, c, hrun, beq_iff_eq.1 hasked, List.isEmpty_iff.1 hnone, ?_⟩
  exact (everyone_answered (settled_joined md5 _) (fun _ _ => rfl) (fun _ => rfl) (fun _ => rfl)
    steady_three whole_three (replicated_of_two (by decide) (by decide +kernel)) (by decide +kernel) hrun hids
    (Set.injOn_singleton _ _)).2

end Sdle
