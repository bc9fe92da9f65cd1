import Sdle.Membership
import Sdle.Requests

/-!
# Who handles a request (`proxy.rs`, `server.rs`)

The proxy routes a request by a ring of its own, made of the servers that have registered.  The peer
computes the replicas by its own ring, made of the servers that it has been told of, and leaves out
the first one, which it takes to be itself.

* `routed_of_taken` — a request that a peer takes was routed to it by the ring that the proxy had at
  some time before.
* `handler_excluded_iff` — **the handling peer never counts itself as a replica**: when its ring and
  the proxy's agree about the coordinator.
-/

set_option autoImplicit false

namespace Sdle

open Tasks Peer

variable {hash : String → U128}

/-! ## The route of a request -/

/-- The proxy has routed the request by the ring that it had after some part of the history. -/
def RoutedIn (w₀ : World hash) (evs : History hash) (r : Request) : Prop :=
  ∃ earlier c, Run (cluster hash) anyStep (quiet w₀) earlier c ∧ earlier <:+ evs ∧
    (routed r.msg).bind (c.state.proxyRing.getCoordinator hash) = some r.peer

theorem RoutedIn.cons {w₀ : World hash} {evs : History hash} {r : Request} (h : RoutedIn w₀ evs r)
    (ev : Event (cluster hash)) : RoutedIn w₀ (ev :: evs) r := by
  obtain ⟨earlier, c, hrun, hsuffix, hr⟩ := h
  exact ⟨earlier, c, hrun, hsuffix.trans (List.suffix_cons ev evs), hr⟩

/-- **A request has been routed** before it waits for its peer or is taken. -/
theorem routed_of_taken {w₀ : World hash} (hw₀ : w₀.Settled) {evs : History hash}
    {c : Config (cluster hash)} (hrun : Run (cluster hash) anyStep (quiet w₀) evs c) {r : Request}
    (hr : r ∈ c.state.requests ∨ .arrived (.take r) ∈ evs) : RoutedIn w₀ evs r := by
  induction hrun with
  | init =>
    rcases hr with hr | hr
    · rw [show (quiet w₀ : Config (cluster hash)).state.requests = [] from hw₀.requests] at hr
      cases hr
    · cases hr
  | @step evs ev c c' hrun _ hstep ih =>
    have harrived : ∀ e q, arrive e c.state = some (q, c'.state) → ev = .arrived e →
        RoutedIn w₀ (ev :: evs) r := by
      rintro e q harr rfl
      rcases hr with hr | hr
      · rcases requests_arrive harr hr with hr | ⟨client, msg, u, rfl, hu, rfl⟩
        · exact (ih (Or.inl hr)).cons _
        · exact ⟨evs, c, hrun, List.suffix_cons _ _, hu⟩
      · rcases List.mem_cons.1 hr with heq | hr
        · cases heq
          exact (ih (Or.inl (mem_requests_of_take harr))).cons _
        · exact (ih (Or.inr hr)).cons _
    have hothers : (∀ e, ev ≠ .arrived e) → c'.state.requests = c.state.requests →
        RoutedIn w₀ (ev :: evs) r := by
      intro hne hsame
      rw [hsame] at hr
      refine (ih (hr.imp_right fun hr => ?_)).cons ev
      exact (List.mem_cons.1 hr).resolve_left fun heq => hne _ heq.symm
    cases hstep with
    | did live act =>
      obtain ⟨-, rfl⟩ := act_eq act
      exact hothers (fun _ h => nomatch h) (requests_effect _ _ _ _)
    | ended live => exact hothers (fun _ h => nomatch h) rfl
    | arrived arrive => exact harrived _ _ arrive rfl
    | started arrive free => exact harrived _ _ arrive rfl

/-! ## The replicas -/

/-- The replicas are the servers of the preference list other than the peer. -/
def OthersOf (peer : Uuid) (preferenceList replicas : List Uuid) : Prop :=
  peer ∉ replicas ∧ ∀ u ∈ preferenceList, u = peer ∨ u ∈ replicas

instance (peer : Uuid) (preferenceList replicas : List Uuid) :
    Decidable (OthersOf peer preferenceList replicas) := inferInstanceAs (Decidable (_ ∧ _))

/-- Leaving out the first server leaves out the peer exactly when the peer comes first. -/
theorem othersOf_drop_iff {peer : Uuid} {preferenceList : List Uuid} (h : preferenceList.Nodup) :
    OthersOf peer preferenceList (preferenceList.drop 1) ↔
      preferenceList.head? = none ∨ preferenceList.head? = some peer := by
  unfold OthersOf
  cases preferenceList with
  | nil => simp
  | cons u us =>
    have hu : u ∉ us := (List.nodup_cons.1 h).1
    simp only [List.drop_one, List.tail_cons, List.head?_cons, reduceCtorEq, false_or,
      Option.some.injEq]
    constructor
    · rintro ⟨-, hcover⟩
      exact (hcover u List.mem_cons_self).resolve_right hu
    · rintro rfl
      exact ⟨hu, fun v hv => List.mem_cons.1 hv⟩

/-- **The handling peer never counts itself as a replica**, and leaves no other server of the list
out, exactly when its own ring is empty or has the same coordinator as the ring by which the proxy
routed the request. -/
theorem handler_excluded_iff {w₀ : World hash} (hw₀ : w₀.Settled) {evs : History hash}
    {c : Config (cluster hash)} (hrun : Run (cluster hash) anyStep (quiet w₀) evs c) {r : Request}
    (htaken : .arrived (.take r) ∈ evs) {id : Uuid} (hid : routed r.msg = some id) :
    let own := (c.state.node r.peer).hashring
    ∃ earlier c₀, Run (cluster hash) anyStep (quiet w₀) earlier c₀ ∧ earlier <:+ evs ∧
      c₀.state.proxyRing.getCoordinator hash id = some r.peer ∧
      ∀ tr replicas, (getReplicas hash id).Ends tr replicas → ⟨.hashring, own⟩ ∈ tr →
        (OthersOf r.peer (own.getPreferenceList hash id) replicas ↔
          own.getCoordinator hash id = none ∨
            own.getCoordinator hash id = c₀.state.proxyRing.getCoordinator hash id) := by
  intro own
  obtain ⟨earlier, c₀, hearlier, hsuffix, hrouted⟩ := routed_of_taken hw₀ hrun (Or.inr htaken)
  rw [hid] at hrouted
  have hcoordinator : c₀.state.proxyRing.getCoordinator hash id = some r.peer := hrouted
  refine ⟨earlier, c₀, hearlier, hsuffix, hcoordinator, fun tr replicas hends hown => ?_⟩
  obtain ⟨ring, rfl, rfl⟩ := ends_getReplicas hends
  have hring : own = ring := by simpa [readsRing] using hown
  subst hring
  rw [hcoordinator]
  exact othersOf_drop_iff (HashRing.nodup_getPreferenceList hash own id)

/-- A request for list 101 that the proxy has routed to this server. -/
def putAt (peer : Uuid) (serial : ℕ) : Request := ⟨serial, peer, [], .putList ⟨.ofTail 101, .new⟩⟩

/-- The request has just been taken by a peer whose ring has this preference list for the list. -/
def takenWith (r : Request) (preferenceList : List Uuid) (evs : History md5)
    (c : Config (cluster md5)) : Bool :=
  match evs with
  | .arrived (.take r') :: _ => decide (r' = r ∧
      (c.state.node r.peer).hashring.getPreferenceList md5 (.ofTail 101) = preferenceList)
  | _ => false

theorem takenWith_iff {r : Request} {preferenceList : List Uuid} {evs : History md5}
    {c : Config (cluster md5)} (h : takenWith r preferenceList evs c = true) :
    .arrived (.take r) ∈ evs ∧
      (c.state.node r.peer).hashring.getPreferenceList md5 (.ofTail 101) = preferenceList := by
  unfold takenWith at h
  split at h
  · obtain ⟨rfl, hlist⟩ := of_decide_eq_true h
    exact ⟨List.mem_cons_self, hlist⟩
  · cases h

/-- `get_replicas` may read any ring. -/
theorem exists_ends_getReplicas (hash : String → U128) (ring : HashRing) (id : Uuid) :
    ∃ tr, (getReplicas hash id).Ends tr ((ring.getPreferenceList hash id).drop 1) ∧
      ⟨.hashring, ring⟩ ∈ tr :=
  ⟨readsRing ring, .op (.op (.op (.pure _))), List.mem_cons_of_mem _ List.mem_cons_self⟩

theorem settled_new (hash : String → U128) (addr : Uuid → String) : (World.new hash addr).Settled :=
  ⟨rfl, rfl, fun _ => rfl, fun _ => rfl⟩

/-- A peer says `Hello` to another one, is told about it, and takes a request for list 101. -/
def toldThenPut (peer contact : Uuid) : List (Move (cluster md5)) :=
  .arrive (.message peer contact (.hello peer peer.toString)) ::
  .arrive (.deliver ⟨0, peer, contact, .hello peer peer.toString⟩) ::
  turns (.incoming contact 0) 15 ++
  .arrive (.deliver ⟨1, contact, peer, .gossip (tableOf [contact, peer])⟩) ::
  turns (.incoming peer 1) 4 ++
  [.arrive (.request [] (.putList ⟨.ofTail 101, .new⟩)), .arrive (.take (putAt peer 2))]

/-- Server 1 coordinates the list on its own ring and on that of the proxy, which has server 2 too. -/
theorem handler_excluded_iff_first :
    ∃ evs c, Run (cluster md5) anyStep (quiet (World.new md5 Uuid.toString)) evs c ∧
      .arrived (.take (putAt (.ofTail 1) 2)) ∈ evs ∧
      c.state.proxyRing.getPreferenceList md5 (.ofTail 101) = [.ofTail 1, .ofTail 3, .ofTail 2] ∧
      (c.state.node (.ofTail 1)).hashring.getPreferenceList md5 (.ofTail 101) =
        [.ofTail 1, .ofTail 3] ∧
      OthersOf (.ofTail 1) [.ofTail 1, .ofTail 3] [.ofTail 3] := by
  obtain ⟨evs, c, hrun, hcheck⟩ := exists_run (D := anyStep) (fun _ _ _ => true)
    (fun _ _ _ _ => trivial) (quiet (World.new md5 Uuid.toString))
    (.arrive (.ready (.ofTail 1)) :: .arrive (.ready (.ofTail 2)) :: .arrive (.ready (.ofTail 3)) ::
      toldThenPut (.ofTail 1) (.ofTail 3))
    (fun evs c => takenWith (putAt (.ofTail 1) 2) [.ofTail 1, .ofTail 3] evs c &&
      decide (c.state.proxyRing.getPreferenceList md5 (.ofTail 101) =
        [.ofTail 1, .ofTail 3, .ofTail 2])) (by decide +kernel)
  obtain ⟨htaking, hproxy⟩ := Bool.and_eq_true_iff.1 hcheck
  obtain ⟨htaken, hlist⟩ := takenWith_iff htaking
  refine ⟨evs, c, hrun, htaken, of_decide_eq_true hproxy, hlist, ?_⟩
  obtain ⟨_, c₀, -, -, hrouted, hiff⟩ := handler_excluded_iff (settled_new md5 _) hrun htaken rfl
  obtain ⟨tr, hends, hread⟩ := exists_ends_getReplicas md5 (c.state.node (.ofTail 1)).hashring (.ofTail 101)
  have hothers := (hiff tr _ hends hread).2 (Or.inr (by
    rw [hrouted]
    exact congrArg List.head? hlist))
  rw [show (c.state.node (putAt (.ofTail 1) 2).peer).hashring.getPreferenceList md5 (.ofTail 101) = _
    from hlist] at hothers
  rw [show (c.state.node (.ofTail 1)).hashring.getPreferenceList md5 (.ofTail 101) = _ from hlist] at hothers
  exact hothers

/-- Server 1 comes first on the ring of server 3, which takes itself for a replica. -/
theorem handler_counts_itself :
    ¬ ∀ evs (c : Config (cluster md5)) (r : Request) id,
      Run (cluster md5) anyStep (quiet (World.new md5 Uuid.toString)) evs c →
      .arrived (.take r) ∈ evs → routed r.msg = some id →
      ∀ tr replicas, (getReplicas md5 id).Ends tr replicas →
        ⟨.hashring, (c.state.node r.peer).hashring⟩ ∈ tr →
        OthersOf r.peer ((c.state.node r.peer).hashring.getPreferenceList md5 id) replicas := by
  intro h
  obtain ⟨evs, c, hrun, hcheck⟩ := exists_run (D := anyStep) (fun _ _ _ => true)
    (fun _ _ _ _ => trivial) (quiet (World.new md5 Uuid.toString))
    (.arrive (.ready (.ofTail 3)) :: toldThenPut (.ofTail 3) (.ofTail 1))
    (takenWith (putAt (.ofTail 3) 2) [.ofTail 1, .ofTail 3]) (by decide +kernel)
  obtain ⟨htaken, hlist⟩ := takenWith_iff hcheck
  obtain ⟨tr, hends, hread⟩ := exists_ends_getReplicas md5 (c.state.node (.ofTail 3)).hashring (.ofTail 101)
  have hothers := h evs c (putAt (.ofTail 3) 2) (.ofTail 101) hrun htaken rfl tr _ hends hread
  have hself : Uuid.ofTail 3 ∈
      ((c.state.node (.ofTail 3)).hashring.getPreferenceList md5 (.ofTail 101)).drop 1 := by
    rw [show (c.state.node (.ofTail 3)).hashring.getPreferenceList md5 (.ofTail 101) = _ from hlist]
    decide
  exact hothers.1 hself

end Sdle
