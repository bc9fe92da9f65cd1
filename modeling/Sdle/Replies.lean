import Sdle.Merges
import Mathlib.Data.Multiset.AddSub

/-!
# Answers and requests over a run

`Answers` looks at one handler.  Here is what the clients get over a run of the whole cluster, where
any number of peers take requests, answer them, or give them up.

* `open_requests` — a peer that coordinates a request has taken it and not answered it yet.
* `requests_accounted` — the requests that are answered, open or on their way are among those sent.
* `answers_matched` — **every answer has a request of its own**: of the same client, and for the list
  that the answer carries.
-/

set_option autoImplicit false

namespace Sdle

open Tasks Peer ServerStorage

variable {hash : String → U128}

/-! ## What a history tells about a client -/

/-- The list that a `GetList` or `PutList` asks for. -/
def Msg.asked : Msg → Option ShoppingList
  | .getList l => some l
  | .putList l => some l
  | _ => none

/-- The lists that a client has asked for, the last one first. -/
def requestsOf (client : ClientId) : History hash → List ShoppingList
  | [] => []
  | .arrived (.request c m) :: evs =>
    (if c = client then m.asked.toList else []) ++ requestsOf client evs
  | _ :: evs => requestsOf client evs

/-- The messages that a client has been sent, the last one first. -/
def answersTo (client : ClientId) : History hash → List Msg
  | [] => []
  | .did _ (.sendProxy c m) _ :: evs => if c = client then m :: answersTo client evs else answersTo client evs
  | _ :: evs => answersTo client evs

/-- The list of a request of this client. -/
def Request.askedBy (client : ClientId) (r : Request) : Option ShoppingList :=
  if r.clientId = client then r.msg.asked else none

/-- The lists of the requests that the messages to a client answer. -/
def served (client : ClientId) : History hash → List ShoppingList
  | [] => []
  | .did t (.sendProxy c _) _ :: evs =>
    (if c = client then ((handling t.peer evs).bind (Request.askedBy client)).toList else []) ++
      served client evs
  | _ :: evs => served client evs

/-- The requests that peers have taken since they answered the last time. -/
def waiting : History hash → List Request
  | [] => []
  | .arrived (.take r) :: evs => r :: waiting evs
  | .did t (.sendProxy _ _) _ :: evs => (waiting evs).filter fun r => r.peer ≠ t.peer
  | _ :: evs => waiting evs

/-- The message answers a request for this list. -/
def Msg.Answers (m : Msg) (l : ShoppingList) : Prop :=
  (∃ rid l', m = .ackList rid l' ∧ l'.id = l.id) ∨ ∃ rid, m = .nack rid

/-! ## Open requests -/

section Open

variable {evs : History hash}

/-- A task that coordinates a request is the one that takes the requests of its peer. -/
theorem proxied_of_request {t : Tid} {g : Phase} (hfit : g.Fits t) {x : ClientId × ShoppingList}
    (h : g.request = some x) : t = .proxied t.peer := by
  cases g <;> first
    | exact hfit
    | cases h

/-- A task that sends an answer coordinates a request of the client. -/
theorem request_of_sendProxy {g : Phase} {client : ClientId} {m : Msg}
    (hallow : g.allow (.sendProxy client m)) : ∃ l, g.request = some (client, l) := by
  cases g with
  | answering job l =>
    obtain ⟨rfl, -⟩ := hallow
    exact ⟨job.list, rfl⟩
  | refusing job =>
    obtain ⟨rfl, -⟩ := hallow
    exact ⟨job.list, rfl⟩
  | _ => exact hallow.elim

theorem peer_of_handling {peer : Uuid} {r : Request} (h : handling peer evs = some r) :
    r.peer = peer := by
  induction evs with
  | nil => cases h
  | cons ev evs ih =>
    cases ev with
    | arrived e =>
      cases e with
      | take q =>
        by_cases hq : q.peer = peer
        · simp only [handling, if_pos hq, Option.some.injEq] at h
          rw [← h, hq]
        · simp only [handling, if_neg hq] at h
          exact ih h
      | _ => exact ih h
    | _ => exact ih h

/-- Each request that a task coordinates is open. -/
def Open (evs : History hash) : Prop :=
  ∀ t x, (phases evs t).request = some x → ∃ r ∈ waiting evs, handling t.peer evs = some r

/-- **A peer has not answered the request that it coordinates.** -/
theorem open_requests {D : Discipline (cluster hash)} {w₀ : World hash} {c : Config (cluster hash)}
    (hrun : Run (cluster hash) D (quiet w₀) evs c) : Open evs := by
  apply (cluster_invariant (fun evs _ => Open evs) ?did ?ended ?arrived ?init hrun).1
  case did =>
    intro evs w t o c a hopen hfit hallow _ _ t' x h
    rw [phases_did] at h
    have hold : (phases evs t').request = some x := by
      split at h
      · rename_i ht
        subst ht
        have hnext : ((phases evs t').next hash o a).request = (phases evs t').request ∨
            ((phases evs t').next hash o a).request = none := Phase.request_next hallow
        rcases hnext with heq | heq <;> rw [heq] at h
        · exact h
        · cases h
      · exact h
    obtain ⟨r, hr, hhandling⟩ := hopen t' x hold
    cases o with
    | sendProxy client m =>
      obtain ⟨l, hl⟩ := request_of_sendProxy hallow
      have hne : t'.peer ≠ t.peer := by
        intro hpeer
        have ht : t' = t := by
          rw [proxied_of_request (hfit t') hold, proxied_of_request (hfit t) hl, hpeer]
        rw [if_pos ht] at h
        cases h
      refine ⟨r, List.mem_filter.2 ⟨hr, ?_⟩, hhandling⟩
      rw [decide_eq_true_iff, peer_of_handling hhandling]
      exact hne
    | _ => exact ⟨r, hr, hhandling⟩
  case ended =>
    intro evs w t hopen t' x h
    exact hopen t' x (tells_ended Phase.request rfl h)
  case arrived =>
    intro evs w e r w' hopen _ _ _ _ t' x h
    rcases phases_arrived evs e t' with hsame | ⟨g, hbegun, hg⟩
    · rw [hsame] at h
      obtain ⟨r, hr, hhandling⟩ := hopen t' x h
      cases e with
      | take q =>
        by_cases hq : q.peer = t'.peer
        · exact ⟨q, List.mem_cons_self, if_pos hq⟩
        · exact ⟨r, List.mem_cons_of_mem _ hr, (if_neg hq).trans hhandling⟩
      | _ => exact ⟨r, hr, hhandling⟩
    · rw [hg] at h
      obtain ⟨q, rfl, -⟩ := Phase.request_begun hbegun h
      cases hbegun
      exact ⟨q, List.mem_cons_self, if_pos rfl⟩
  case init =>
    intro t x h
    cases h

end Open

/-! ## Accounting -/

section Accounts

variable {evs : History hash} {client : ClientId}

/-- The lists of some requests of a client. -/
def askedIn (client : ClientId) (rs : List Request) : Multiset ShoppingList :=
  (rs.filterMap (Request.askedBy client) : List ShoppingList)

theorem askedIn_cons (r : Request) (rs : List Request) :
    askedIn client (r :: rs) = (r.askedBy client).toList + askedIn client rs := by
  unfold askedIn
  rw [List.filterMap_cons]
  cases r.askedBy client <;> rfl

theorem askedIn_erase {r : Request} {rs : List Request} (h : r ∈ rs) :
    askedIn client rs = (r.askedBy client).toList + askedIn client (rs.erase r) := by
  rw [← askedIn_cons]
  exact Multiset.coe_eq_coe.2 ((List.perm_cons_erase h).filterMap _)

/-- An answer of a peer closes a request of its own. -/
theorem askedIn_closed {r : Request} {rs : List Request} (h : r ∈ rs) :
    (r.askedBy client).toList + askedIn client (rs.filter fun q => q.peer ≠ r.peer) ≤
      askedIn client rs := by
  rw [askedIn_erase h]
  apply add_le_add_right
  have hperm := (List.perm_cons_erase h).filter fun q => q.peer ≠ r.peer
  rw [List.filter_cons_of_neg (by simp)] at hperm
  exact Multiset.coe_le.2
    ((hperm.filterMap _).subperm.trans (List.filter_sublist.filterMap _).subperm)

/-- The requests that are answered, open or on their way are among those that the client has sent. -/
def Accounted (evs : History hash) (w : World hash) : Prop :=
  ∀ client, (served client evs : Multiset ShoppingList) + askedIn client (waiting evs) +
    askedIn client w.requests ≤ requestsOf client evs

/-- **No request is answered twice**, and none that has not been sent. -/
theorem requests_accounted {D : Discipline (cluster hash)} {w₀ : World hash} (hw : w₀.Settled)
    {c : Config (cluster hash)} (hrun : Run (cluster hash) D (quiet w₀) evs c) :
    Accounted evs c.state := by
  have hrun := hrun.with (fun evs _ => Open evs) fun _ _ h => open_requests h
  apply (cluster_invariant Accounted ?did ?ended ?arrived ?init hrun).1
  case did =>
    rintro evs w t o c a hacc - hallow - ⟨-, hopen⟩ client
    rw [requests_effect]
    cases o with
    | sendProxy cl m =>
      obtain ⟨l, hl⟩ := request_of_sendProxy hallow
      obtain ⟨r, hr, hhandling⟩ := hopen t _ hl
      have hclosed := @askedIn_closed client _ _ hr
      rw [peer_of_handling hhandling] at hclosed
      apply le_trans _ (hacc client)
      apply add_le_add_left
      change (((if cl = client then ((handling t.peer evs).bind (Request.askedBy client)).toList else []) ++
        served client evs : List ShoppingList) : Multiset ShoppingList) + _ ≤ _
      rw [hhandling, ← Multiset.coe_add, add_comm (Multiset.ofList _), add_assoc]
      apply add_le_add_right
      apply le_trans _ hclosed
      apply add_le_add_left
      split
      · exact le_refl _
      · exact Multiset.zero_le _
    | _ => exact hacc client
  case ended => exact fun evs w t hacc => hacc
  case arrived =>
    intro evs w e r w' hacc _ harr _ _ client
    have hold := hacc client
    cases e with
    | request cl m =>
      change (served client evs : Multiset ShoppingList) + askedIn client (waiting evs) +
        askedIn client w'.requests ≤
          (((if cl = client then m.asked.toList else []) ++ requestsOf client evs : List ShoppingList) :
            Multiset ShoppingList)
      rw [← Multiset.coe_add]
      simp only [arrive] at harr
      split at harr
      · cases harr
        exact hold.trans (le_add_of_nonneg_left (Multiset.zero_le _))
      · cases harr
        rw [askedIn_cons, add_left_comm]
        apply add_le_add (le_of_eq _) hold
        unfold Request.askedBy
        split <;> rfl
    | take q =>
      have hq := mem_requests_of_take harr
      simp only [arrive, if_pos hq, Option.some.injEq, Prod.mk.injEq] at harr
      rw [← harr.2]
      change (served client evs : Multiset ShoppingList) + askedIn client (q :: waiting evs) +
        askedIn client (w.requests.erase q) ≤ requestsOf client evs
      apply le_trans (le_of_eq _) hold
      rw [askedIn_cons, askedIn_erase hq]
      ac_rfl
    | deliver p =>
      simp only [arrive] at harr
      split at harr <;> cases harr
      exact hold
    | lose p =>
      simp only [arrive] at harr
      split at harr <;> cases harr
      exact hold
    | message src dst m =>
      simp only [arrive] at harr
      split at harr <;> cases harr
      exact hold
    | _ =>
      cases harr
      exact hold
  case init =>
    intro client
    rw [hw.requests]
    exact le_refl _

/-! ## Every answer has its request -/

/-- What a task tells the client answers its request. -/
theorem answers_of_sendProxy {g : Phase} {m : Msg} {l : ShoppingList}
    (hallow : g.allow (.sendProxy client m)) (hl : g.request = some (client, l))
    (hok : PhaseOk evs g) : m.Answers l := by
  cases g with
  | answering job l' =>
    obtain ⟨-, rfl⟩ := hallow
    obtain ⟨-, rfl⟩ := Prod.mk.inj (Option.some.inj hl)
    exact Or.inl ⟨"", l', rfl, hok.1⟩
  | refusing job =>
    obtain ⟨-, rfl⟩ := hallow
    exact Or.inr ⟨"", rfl⟩
  | _ => exact hallow.elim

/-- What a client is told answers the requests that are served, one by one. -/
theorem answers_served {D : Discipline (cluster hash)} {w₀ : World hash} (hw : w₀.Settled)
    (hempty : ∀ u, (w₀.node u).storage = .empty) {c : Config (cluster hash)}
    (hrun : Run (cluster hash) D (quiet w₀) evs c) {ids : Set Uuid}
    (hids : ∀ X, submitted evs X ≠ [] → X ∈ ids) (hinj : Set.InjOn (key hash) ids) :
    List.Forall₂ Msg.Answers (answersTo client evs) (served client evs) := by
  have hrun := hrun.with
    (fun evs w => Open evs ∧ Handles evs ∧
      ((∀ X, submitted evs X ≠ [] → X ∈ ids) → ∀ t, PhaseOk evs (phases evs t)))
    fun _ _ h => ⟨open_requests h, handled h, fun hids => (provenance hw hempty h hids hinj).phases⟩
  apply (cluster_invariant (fun evs _ => (∀ X, submitted evs X ≠ [] → X ∈ ids) →
    List.Forall₂ Msg.Answers (answersTo client evs) (served client evs)) ?did ?ended ?arrived ?init hrun).1
      hids
  case did =>
    rintro evs w t o c a hanswers - hallow - ⟨-, hopen, hhandles, hphases⟩ hids
    have hids := ids_earlier hids
    have hold := hanswers hids
    cases o with
    | sendProxy cl m =>
      by_cases hcl : cl = client
      · subst hcl
        obtain ⟨l, hl⟩ := request_of_sendProxy hallow
        obtain ⟨r, hhandling, hclient, hmsg⟩ := hhandles t cl l hl
        have hasked : (handling t.peer evs).bind (Request.askedBy cl) = some l := by
          rw [hhandling, Option.bind_some, Request.askedBy, if_pos hclient]
          rcases hmsg with hmsg | hmsg <;> rw [hmsg] <;> rfl
        simp only [answersTo, served, if_pos, hasked]
        exact .cons (answers_of_sendProxy hallow hl (hphases hids t)) hold
      · simp only [answersTo, served, if_neg hcl]
        exact hold
    | _ => exact hold
  case ended => exact fun evs w t hanswers hids => hanswers (ids_earlier hids)
  case arrived =>
    intro evs w e r w' hanswers _ _ _ _ hids
    exact hanswers (ids_earlier hids)
  case init => exact fun _ => .nil

/-- **Every answer has a request of its own.**  The client has sent it before, and it asks for the list
that the answer carries. -/
theorem answers_matched {D : Discipline (cluster hash)} {w₀ : World hash} (hw : w₀.Settled)
    (hempty : ∀ u, (w₀.node u).storage = .empty) {c : Config (cluster hash)}
    (hrun : Run (cluster hash) D (quiet w₀) evs c) {ids : Set Uuid}
    (hids : ∀ X, submitted evs X ≠ [] → X ∈ ids) (hinj : Set.InjOn (key hash) ids)
    (client : ClientId) :
    ∃ ls, ls.Subperm (requestsOf client evs) ∧ List.Forall₂ Msg.Answers (answersTo client evs) ls := by
  refine ⟨served client evs, Multiset.coe_le.1 ?_, answers_served hw hempty hrun hids hinj⟩
  have hacc := requests_accounted hw hrun client
  rw [add_assoc] at hacc
  exact (le_add_of_nonneg_right (Multiset.zero_le _)).trans hacc

end Accounts

/-- A put that both replicas acknowledge is answered once. -/
theorem answers_matched_putMilk :
    ∃ (evs : History md5) (m : Msg) (l : ShoppingList), answersTo [] evs = [m] ∧
      l ∈ requestsOf [] evs ∧ m.Answers l := by
  obtain ⟨evs, c, hrun, hcheck⟩ := exists_run (D := anyStep) (fun _ _ _ => true)
    (fun _ _ _ _ => trivial) (quiet threeServers) (putMoves 0 (oneItem "milk" 201) (.ofTail 301))
    (fun evs _ => (evs.filterMap submission).all (fun l => l.id = .ofTail 101) &&
      (answersTo [] evs).length == 1)
    (by decide +kernel)
  obtain ⟨hids, hlength⟩ := Bool.and_eq_true_iff.1 hcheck
  have hids := ids_of_submissions fun l hl => of_decide_eq_true (List.all_eq_true.1 hids l hl)
  obtain ⟨ls, hls, hanswers⟩ := answers_matched (settled_joined md5 _) (fun _ => rfl) hrun hids
    (Set.injOn_singleton _ _) []
  obtain ⟨m, hm⟩ := List.length_eq_one_iff.1 (beq_iff_eq.1 hlength)
  rw [hm] at hanswers
  cases hanswers with
  | @cons _ l _ _ hl hnil =>
    cases hnil
    exact ⟨evs, m, l, hm, hls.subset List.mem_cons_self, hl⟩

end Sdle
