import Sdle.Locks
import Sdle.Requests
import Sdle.Lib.WaitsFor

/-!
# The order of the mutexes

Which mutex a peer's tasks request while they hold another one, and what follows for tasks that
wait for each other.

* `lock_order_acyclic` — **acyclic lock order between tasks** in every run in which no peer handles a
  `Leave`: the mutexes that are requested under other ones are ordered by `Mutex.rank`, and no tasks
  ever wait for each other.

`leave` holds `hashring` and `storage` while it sends, and sending requests `membership`, which a
`Gossip` is handled under while `hashring` and `storage` are requested.
-/

set_option autoImplicit false

namespace Sdle

open Tasks Peer WaitsFor ServerStorage

variable {hash : String → U128}

/-! ## RequestsMutex and holders -/

/-- The next operation of a task is the request for a mutex. -/
def RequestsMutex (c : Config (cluster hash)) (t : Tid) (m : Mutex) : Prop :=
  ∃ k, c.pool t = some (.op (.lock m) k)

/-- A task holds a mutex of its peer. -/
def HoldsMutex (c : Config (cluster hash)) (t : Tid) (m : Mutex) : Prop :=
  (c.state.node t.peer).locks m = some t

/-- The mutexes of all peers are free. -/
def Unlocked (w : World hash) : Prop := ∀ u m, (w.node u).locks m = none

/-- In some run of the cluster, a task requests `B` while it holds `A`. -/
def RequestsUnder (D : Discipline (cluster hash)) (A B : Mutex) : Prop :=
  A ≠ B ∧ ∃ w₀ evs c t, Unlocked w₀ ∧ Run (cluster hash) D (quiet w₀) evs c ∧ HoldsMutex c t A ∧
    RequestsMutex c t B

/-- Tasks of one peer that wait for each other. -/
def Deadlocked (c : Config (cluster hash)) (u : Uuid) (S : Set Tid) : Prop :=
  (∀ t ∈ S, t.peer = u) ∧ CircularWait (HoldsMutex c) (RequestsMutex c) S

/-- No `Leave` is handled. -/
def staying : Discipline (cluster hash) := fun _ _ ev =>
  match ev with
  | .arrived (.deliver p) => p.msg ≠ .leave
  | _ => True

/-! ## The order -/

/-- The order in which a peer nests its mutexes. -/
def Peer.Mutex.rank : Mutex → ℕ
  | .failure => 0
  | .membership => 1
  | .hashring => 2
  | .storage => 3
  | .proxyDealer => 4
  | .router => 5
  | .inFlight => 6

/-- A mutex is requested under lower ones only, or under itself. -/
def Climbs (held : Finset Mutex) (m : Mutex) : Prop := ∀ A ∈ held, A = m ∨ A.rank < m.rank

instance (held : Finset Mutex) (m : Mutex) : Decidable (Climbs held m) :=
  inferInstanceAs (Decidable (∀ A ∈ held, _))

theorem climbs_empty (m : Mutex) : Climbs ∅ m := fun _ h => absurd h (Finset.notMem_empty _)

section Handlers

variable {α : Type}

theorem climbs_sendOldLists (u : Uuid) :
    ∀ ls : List ShoppingList, Nested Climbs (insert .membership ∅) (sendOldLists u ls)
  | [] => nested_pure _
  | _ :: ls => nested_bind (nested_sendTo _ _ (by decide) fun h => absurd h (by decide)) fun _ =>
      climbs_sendOldLists u ls

theorem climbs_addEntries (self : Uuid) (predecessors : List Uuid) :
    ∀ es : List (Sigma fun _ : Uuid => String),
      Nested Climbs (insert .membership ∅) (addEntries self predecessors es)
  | [] => nested_pure _
  | ⟨u, addr⟩ :: es => by
    refine nested_bind (nested_perform trivial) fun _ =>
      nested_ite ?_ (climbs_addEntries self predecessors es)
    refine nested_bind (nested_read (by decide) trivial) fun hashring => ?_
    split
    · exact climbs_addEntries self predecessors es
    · refine nested_bind (nested_read (by decide) trivial) fun oldLists => ?_
      split
      · exact nested_pure _
      · exact nested_bind (climbs_sendOldLists _ _) fun _ => climbs_addEntries self predecessors es

/-- A `Gossip` is handled under `membership`. -/
theorem climbs_handleGossip (self : Uuid) (table : MembershipTable) :
    Nested Climbs ∅ (handleGossip self table) := by
  refine nested_bind (nested_locked (climbs_empty _) fun _ => nested_addEach _) fun _ => ?_
  refine nested_locked (climbs_empty _) fun _ => nested_bind (nested_perform trivial) fun _ => ?_
  exact nested_bind (nested_read (by decide) trivial) fun hashring => climbs_addEntries self _ _

/-- A round of failure detection pings under `failure`. -/
theorem climbs_failureDetection : Nested Climbs ∅ failureDetection :=
  nested_locked (climbs_empty _) fun _ => nested_bind (nested_perform trivial) fun _ =>
    nested_sendEach _ (by decide) (fun _ => by decide) _

theorem climbs_handleIncoming (self identity : Uuid) {msg : Msg} (hmsg : msg ≠ .leave) :
    Nested Climbs ∅ (handleIncoming self identity msg) := by
  by_cases hgossip : ∃ table, msg = .gossip table
  · obtain ⟨table, rfl⟩ := hgossip
    exact climbs_handleGossip self table
  · exact nested_handleIncoming climbs_empty self identity msg (fun table h => hgossip ⟨table, h⟩) hmsg

/-- Every task that starts, unless it is a `leave`, requests mutexes in their order. -/
theorem climbs_started {e : Arrival} {w w' : World hash} {t : Tid} {p : Code Unit}
    (harr : arrive e w = some (some (t, p), w')) (hstay : staying [] w (.arrived e)) :
    Nested Climbs ∅ p := by
  cases e with
  | take r =>
    simp only [arrive] at harr
    split at harr
    · cases harr
      exact nested_handleIncomingProxy climbs_empty (by decide) _ _
    · cases harr
  | deliver q =>
    simp only [arrive] at harr
    split at harr
    · cases harr
      exact climbs_handleIncoming _ _ hstay
    · cases harr
  | tickGossip u =>
    cases harr
    exact nested_sendGossip u (climbs_empty _) fun _ => climbs_empty _
  | tickHintedHandoff u =>
    cases harr
    exact nested_hintedHandoff climbs_empty
  | tickFailureDetection u =>
    cases harr
    exact climbs_failureDetection
  | ready u => cases harr
  | request client msg =>
    simp only [arrive] at harr
    split at harr <;> cases harr
  | lose q =>
    simp only [arrive] at harr
    split at harr <;> cases harr
  | message src dst msg =>
    simp only [arrive] at harr
    split at harr <;> cases harr

end Handlers

/-! ## Runs -/

/-- The mutexes that a task is known to hold are those it holds. -/
def HeldBy (held : Tid → Finset Mutex) (w : World hash) : Prop :=
  ∀ t m, m ∈ held t ↔ (w.node t.peer).locks m = some t

/-- What an operation does to the mutexes held. -/
theorem heldBy_did {held : Tid → Finset Mutex} {w : World hash} {t : Tid} {o : Op} {a : Ans o}
    {c : Choice} (hheld : HeldBy held w) (hallow : (nesting Climbs).allow t (held t) o)
    (ha : answer t o c w = some a) :
    HeldBy (Function.update held t (guards.next t (held t) o a)) (effect t o a w) := by
  intro t' m
  rw [node_effect]
  by_cases hpeer : t'.peer = t.peer
  · rw [if_pos hpeer, locks_after]
    have hother : ∀ {m'}, t' ≠ t → (m' = m → (w.node t'.peer).locks m ≠ some t') →
        (m ∈ Function.update held t (guards.next t (held t) o a) t' ↔
          (if m' = m then none else (w.node t'.peer).locks m) = some t') := by
      intro m' ht hm
      rw [Function.update_of_ne ht, hheld t' m]
      split
      · rename_i h
        exact iff_of_false (hm h) (by simp)
      · exact Iff.rfl
    by_cases ht : t' = t
    · subst ht
      rw [Function.update_self]
      cases o with
      | lock m' =>
        by_cases h : m = m'
        · subst h
          simp [guards, locksAfter]
        · simp [guards, locksAfter, h, hheld t' m]
      | unlock m' =>
        by_cases h : m = m'
        · simp [guards, locksAfter, h]
        · simp [guards, locksAfter, h, hheld t' m]
      | _ => exact hheld t' m
    · rw [Function.update_of_ne ht, hheld t' m]
      cases o with
      | lock m' =>
        by_cases h : m = m'
        · subst h
          have hfree : (w.node t.peer).locks m = none := by
            simp only [answer] at ha
            split at ha
            · assumption
            · cases ha
          rw [hpeer, hfree]
          simp [locksAfter, Ne.symm ht]
        · simp [locksAfter, h]
      | unlock m' =>
        by_cases h : m = m'
        · subst h
          have hmine : (w.node t.peer).locks m = some t := (hheld t m).1 hallow
          rw [hpeer, hmine]
          simp [locksAfter, Ne.symm ht]
        · simp [locksAfter, h]
      | _ => rfl
  · rw [if_neg hpeer]
    have ht : t' ≠ t := fun h => hpeer (by rw [h])
    rw [Function.update_of_ne ht]
    exact hheld t' m

/-- In every run without a `Leave`, mutexes are requested in their order. -/
theorem requests_climb {w₀ : World hash} (hw : Unlocked w₀) {evs : History hash}
    {c : Config (cluster hash)} (hrun : Run (cluster hash) staying (quiet w₀) evs c) {t : Tid}
    {A B : Mutex} (hA : HoldsMutex c t A) (hB : RequestsMutex c t B) (hne : A ≠ B) : A.rank < B.rank := by
  suffices hsound : ∃ held, HeldBy held c.state ∧ ∀ t,
      (∀ p, c.pool t = some p → p.Obeys (nesting Climbs) t (fun _ held' => held' = ∅) (held t)) ∧
        (c.pool t = none → held t = ∅) by
    obtain ⟨held, hheld, hpool⟩ := hsound
    obtain ⟨k, hk⟩ := hB
    have hallow := ((hpool t).1 _ hk).1 A ((hheld t A).2 hA)
    exact hallow.resolve_left hne
  refine Run.sound (nesting Climbs) ∅ (fun _ held' => held' = ∅) (fun _ held w => HeldBy held w)
    ?did ?ended ?arrived ?started ?init hrun
  case did =>
    intro evs held w t o c a w' hheld hallow hact _
    obtain ⟨ha, rfl⟩ := act_eq hact
    refine ⟨?_, heldBy_did hheld hallow ha⟩
    cases o with
    | lock m =>
      intro hmem
      simp only [answer] at ha
      rw [(hheld t m).1 hmem] at ha
      cases ha
    | _ => trivial
  case ended =>
    intro evs held w t hheld hend
    rw [← hend, Function.update_eq_self]
    exact hheld
  case arrived =>
    intro evs held w e w' hheld harr _ t m
    rw [node_arrive harr]
    exact hheld t m
  case started =>
    intro evs held w e t p w' hheld harr hidle hD
    refine ⟨∅, climbs_started harr ?_ t, ?_⟩
    · cases e <;> exact hD
    · rw [← hidle, Function.update_eq_self]
      intro t m
      rw [node_arrive harr]
      exact hheld t m
  case init =>
    intro t m
    refine iff_of_false (Finset.notMem_empty m) ?_
    rw [hw]
    simp

/-- **Acyclic lock order between tasks**, where no peer handles a `Leave`. -/
theorem lock_order_acyclic :
    (∀ A, ¬ Relation.TransGen (@RequestsUnder hash staying) A A) ∧
      ∀ w₀ evs (c : Config (cluster hash)), Unlocked w₀ →
        Run (cluster hash) staying (quiet w₀) evs c → ∀ u S, ¬ Deadlocked c u S := by
  refine ⟨acyclic_of_rank Mutex.rank ?_, fun w₀ evs c hw hrun u S => ?_⟩
  · rintro A B ⟨hne, w₀, evs, c, t, hw, hrun, hA, hB⟩
    exact requests_climb hw hrun hA hB hne
  · rintro ⟨hpeer, hwait⟩
    -- the tasks of the set belong to one peer, so that a mutex has one holder among them
    refine not_circularWait (n := 6) (fun t m => t ∈ S ∧ HoldsMutex c t m)
      (RequestsMutex c) Mutex.rank ?_ ?_ ?_ S ⟨hwait.1, fun t ht => ?_⟩
    · intro m
      cases m <;> decide
    · rintro t t' m ⟨ht, hheld⟩ ⟨ht', hheld'⟩
      unfold HoldsMutex at hheld hheld'
      rw [hpeer t ht] at hheld
      rw [hpeer t' ht'] at hheld'
      exact Option.some.inj (hheld.symm.trans hheld')
    · rintro t A B ⟨-, hA⟩ hB hne
      exact requests_climb hw hrun hA hB hne
    · obtain ⟨m, hreq, t', ht', hne, hheld⟩ := hwait.2 t ht
      exact ⟨m, hreq, t', ht', hne, ht', hheld⟩

/-- The mutex that a task requests. -/
def requesting (c : Config (cluster hash)) (t : Tid) : Option Mutex :=
  match c.pool t with
  | some (.op (.lock m) _) => some m
  | _ => none

theorem requests_of_requesting {c : Config (cluster hash)} {t : Tid} {m : Mutex}
    (h : requesting c t = some m) : RequestsMutex c t m := by
  unfold requesting at h
  split at h
  · rename_i hp
    obtain rfl := Option.some.inj h
    exact ⟨_, hp⟩
  · cases h

theorem unlocked_threeServers : Unlocked threeServers := fun _ _ => rfl

/-- A list reaches server 1, which is then told to leave while it handles a gossip of server 2. -/
def leaveDuringGossip : List (Move (cluster md5)) :=
  let table := (threeServers.node (.ofTail 2)).membership
  .arrive (.message (.ofTail 2) (.ofTail 1) (.mergeList (oneItem "milk" 201))) ::
  .arrive (.deliver ⟨0, .ofTail 2, .ofTail 1, .mergeList (oneItem "milk" 201)⟩) ::
  turns (.incoming (.ofTail 1) 0) 5 ++
  .arrive (.tickGossip (.ofTail 2)) :: turns (.gossip (.ofTail 2)) 6 ++
  .turn (.gossip (.ofTail 2)) (.uuid (.ofTail 1)) :: turns (.gossip (.ofTail 2)) 6 ++
  .arrive (.message (.ofTail 2) (.ofTail 1) .leave) ::
  .arrive (.deliver ⟨1, .ofTail 2, .ofTail 1, .gossip table⟩) ::
  turns (.incoming (.ofTail 1) 1) 7 ++
  .arrive (.deliver ⟨2, .ofTail 2, .ofTail 1, .leave⟩) ::
  turns (.incoming (.ofTail 1) 2) 5

/-- The test for `staying`. -/
def stays (ev : Event (cluster hash)) : Bool :=
  match ev with
  | .arrived (.deliver p) => decide (p.msg ≠ .leave)
  | _ => true

theorem staying_of_stays (evs : History hash) (w : World hash) (ev : Event (cluster hash))
    (h : stays ev = true) : staying evs w ev := by
  cases ev with
  | arrived e =>
    cases e with
    | deliver p => exact show p.msg ≠ .leave from of_decide_eq_true h
    | _ => trivial
  | _ => trivial

/-- Before the `Leave` is handled, the gossip holds `membership` and requests `hashring`. -/
theorem lock_order_acyclic_duringGossip :
    ∃ evs c, Run (cluster md5) staying (quiet threeServers) evs c ∧
      HoldsMutex c (.incoming (.ofTail 1) 1) .membership ∧
      RequestsMutex c (.incoming (.ofTail 1) 1) .hashring ∧ ∀ S, ¬ Deadlocked c (.ofTail 1) S := by
  obtain ⟨evs, c, hrun, hcheck⟩ := exists_run (D := staying) (fun _ _ ev => stays ev) staying_of_stays
    (quiet threeServers) (leaveDuringGossip.take 30)
    (fun _ c => decide ((c.state.node (.ofTail 1)).locks .membership = some (.incoming (.ofTail 1) 1) ∧
      requesting c (.incoming (.ofTail 1) 1) = some .hashring))
    (by decide +kernel)
  obtain ⟨hheld, hreq⟩ := of_decide_eq_true hcheck
  exact ⟨evs, c, hrun, hheld, requests_of_requesting hreq,
    lock_order_acyclic.2 _ evs c unlocked_threeServers hrun (.ofTail 1)⟩

/-- With the `Leave`, each of the two tasks waits for a mutex that the other one holds. -/
theorem leave_gossip_deadlock :
    ¬ (∀ A, ¬ Relation.TransGen (@RequestsUnder md5 anyStep) A A) ∧
      ¬ ∀ w₀ evs (c : Config (cluster md5)), Unlocked w₀ →
        Run (cluster md5) anyStep (quiet w₀) evs c → ∀ u S, ¬ Deadlocked c u S := by
  obtain ⟨evs, c, hrun, hcheck⟩ := exists_run (D := anyStep) (fun _ _ _ => true)
    (fun _ _ _ _ => trivial) (quiet threeServers) leaveDuringGossip
    (fun _ c =>
      decide (((c.state.node (.ofTail 1)).locks .membership = some (.incoming (.ofTail 1) 1) ∧
        requesting c (.incoming (.ofTail 1) 1) = some .hashring) ∧
        (c.state.node (.ofTail 1)).locks .hashring = some (.incoming (.ofTail 1) 2) ∧
        requesting c (.incoming (.ofTail 1) 2) = some .membership))
    (by decide +kernel)
  obtain ⟨⟨hheld₁, hreq₁⟩, hheld₂, hreq₂⟩ := of_decide_eq_true hcheck
  have hreq₁ := requests_of_requesting hreq₁
  have hreq₂ := requests_of_requesting hreq₂
  refine ⟨fun hacyclic => hacyclic .membership ?_, fun hfree => ?_⟩
  · refine .tail (.single (b := .hashring) ⟨by decide, threeServers, evs, c, .incoming (.ofTail 1) 1,
      unlocked_threeServers, hrun, hheld₁, hreq₁⟩) ?_
    exact ⟨by decide, threeServers, evs, c, .incoming (.ofTail 1) 2, unlocked_threeServers, hrun,
      hheld₂, hreq₂⟩
  · refine hfree threeServers evs c unlocked_threeServers hrun (.ofTail 1)
      {.incoming (.ofTail 1) 1, .incoming (.ofTail 1) 2} ⟨?_, ⟨_, Set.mem_insert _ _⟩, ?_⟩
    · rintro t (rfl | rfl) <;> rfl
    · rintro t (rfl | rfl)
      · exact ⟨.hashring, hreq₁, _, Set.mem_insert_of_mem _ rfl, by decide, hheld₂⟩
      · exact ⟨.membership, hreq₂, _, Set.mem_insert _ _, by decide, hheld₁⟩

end Sdle
