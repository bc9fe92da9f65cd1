import Sdle.Gossip

/-!
# How far gossip spreads (`server.rs`)

A round of gossip, and the handling of a `Hello`, send the table of the peer as it is by then, and the
handling of a `Gossip` adds what is new in it.

* `Relayed` — the peers that a rumour has reached, over any number of hops.
* `gossip_spreads` — **gossip arrives**: along any chain of gossip messages, each sent by a round that
  began after the last one was handled, the last peer gets to know every server that the first one knew.
-/

set_option autoImplicit false

namespace Sdle

open Tasks Peer

variable {hash : String → U128}

/-- The servers of a table. -/
def MembershipTable.names (table : MembershipTable) : Set Uuid := {u | (table.find? u).isSome = true}

/-- The servers that a peer knows. -/
def World.knows (w : World hash) (p : Uuid) : Set Uuid := (w.node p).membership.names

/-! ## Nothing is forgotten -/

theorem names_insert (table : MembershipTable) (u : Uuid) (addr : String) :
    MembershipTable.names (table.insert u addr) = insert u table.names := by
  ext v
  change (FinMap.find? (table.insert u addr) v).isSome = true ↔ v = u ∨ (table.find? v).isSome = true
  rw [FinMap.find?_insert]
  split
  · rename_i h
    exact iff_of_true rfl (Or.inl h)
  · rename_i h
    exact (or_iff_right h).symm

theorem knows_effect (t : Tid) (o : Op) (a : Ans o) (w : World hash) (p : Uuid) :
    w.knows p ⊆ (effect t o a w).knows p := by
  unfold World.knows
  rw [node_effect]
  split
  · rw [membership_after]
    cases o with
    | membershipInsert u addr =>
      rw [names_insert]
      exact Set.subset_insert u _
    | _ => exact Set.Subset.refl _
  · exact Set.Subset.refl _

/-- **A peer never forgets a server.** -/
theorem knows_of_run {D : Discipline (cluster hash)} {c₀ c : Config (cluster hash)} {evs : History hash}
    (hrun : Run (cluster hash) D c₀ evs c) (p : Uuid) :
    World.knows c₀.state p ⊆ World.knows c.state p := by
  refine Run.invariant (fun _ (w : World hash) => @World.knows hash c₀.state p ⊆ w.knows p) ?did (fun _ _ _ h => h) ?arrived
    (Set.Subset.refl _) hrun
  case did =>
    intro evs w t o c a w' ih hact _
    obtain ⟨-, rfl⟩ := act_eq hact
    exact Set.Subset.trans ih (knows_effect t o a w p)
  case arrived =>
    intro evs w e r w' ih harr _
    unfold World.knows at ih ⊢
    rw [node_arrive harr]
    exact ih

/-- A step of a task. -/
theorem state_of_did {c c' : Config (cluster hash)} {t : Tid} {o : Op} {a : Ans o}
    (h : Step (cluster hash) c (.did t o a) c') :
    (∃ ch, answer t o ch c.state = some a) ∧ c'.state = effect t o a c.state ∧
      ∃ k, c.pool t = some (.op o k) := by
  cases h with
  | @did pool w w' _ _ k ch _ live hact =>
    change act t o ch w = some (a, w') at hact
    obtain ⟨hans, rfl⟩ := act_eq hact
    exact ⟨⟨ch, hans⟩, rfl, k, live⟩

/-- What a task has read from the table of its peer, or put into it, is still there. -/
theorem knows_of_did {D : Discipline (cluster hash)} {w₀ : World hash} {c : Config (cluster hash)}
    {evs : History hash} (hrun : Run (cluster hash) D (quiet w₀) evs c) (t : Tid) :
    (∀ table : MembershipTable, (.did t .membership table : Event (cluster hash)) ∈ evs →
      table.names ⊆ World.knows c.state t.peer) ∧
    ∀ u addr, (.did t (.membershipInsert u addr) () : Event (cluster hash)) ∈ evs →
      u ∈ World.knows c.state t.peer := by
  constructor
  · intro table hmem
    obtain ⟨later, evs', rfl⟩ := List.append_of_mem hmem
    obtain ⟨c', hearlier, hlater⟩ := hrun.split
    apply Set.Subset.trans _ (knows_of_run hlater t.peer)
    cases hearlier with
    | step _ _ hstep =>
      obtain ⟨⟨ch, hans⟩, hstate, -⟩ := state_of_did hstep
      cases hans
      rw [hstate]
      exact knows_effect t .membership _ _ t.peer
  · intro u addr hmem
    obtain ⟨later, evs', rfl⟩ := List.append_of_mem hmem
    obtain ⟨c', hearlier, hlater⟩ := hrun.split
    apply knows_of_run hlater t.peer
    cases hearlier with
    | step _ _ hstep =>
      obtain ⟨-, hstate, -⟩ := state_of_did hstep
      rw [hstate]
      unfold World.knows
      rw [node_effect, if_pos rfl, membership_after, names_insert]
      exact Set.mem_insert u _

/-! ## A gossip is heard -/

/-- **What a handled `Gossip` says is known**, unless the storage failed under the handler. -/
theorem heard {D : Discipline (cluster hash)} {w₀ : World hash} {c : Config (cluster hash)}
    {evs : History hash} {src q : Uuid} {serial : ℕ} {table : MembershipTable}
    (hrun : Run (cluster hash) D (quiet w₀) (.ended (.incoming q serial) :: evs) c)
    (hdel : (.arrived (.deliver ⟨serial, src, q, .gossip table⟩) : Event (cluster hash)) ∈ evs)
    (hstored : ¬ FailedIn evs (.incoming q serial)) : table.names ⊆ World.knows c.state q := by
  obtain ⟨tr, hexec⟩ := executes_of_delivered hrun (List.mem_cons_of_mem _ hdel)
  have hends : (handleGossip q table).Ends tr () := by
    apply hexec.ends
    cases hrun with
    | step _ _ hstep =>
      cases hstep with
      | ended live => exact Function.update_self _ _ _
  obtain ⟨hread, hinserted⟩ := knows_of_did hrun (.incoming q serial)
  have hdid : ∀ x ∈ tr, (.did (.incoming q serial) x.1 x.2 : Event (cluster hash)) ∈ evs := by
    intro x hx
    rcases List.mem_cons.1 (hexec.1 x hx) with heq | hmem
    · cases heq
    · exact hmem
  intro v hv
  rcases (ends_handleGossip hends hv).2 with ⟨u, k, hfail⟩ | ⟨m, hm, hv'⟩ | ⟨addr, haddr⟩
  · exact absurd ⟨u, k, hdid _ hfail⟩ hstored
  · exact hread m (hexec.1 _ hm) hv'
  · exact hinserted v addr (hexec.1 _ haddr)

/-! ## A gossip is recent -/

/-- The task that sends the table of its peer: a round of gossip, or the handling of a `Hello`. -/
def teller : Arrival → Option Tid
  | .tickGossip p => some (.gossip p)
  | .deliver ⟨serial, _, dst, .hello _ _⟩ => some (.incoming dst serial)
  | _ => none

/-- The task has begun to send the table of its peer since the history began, and runs. -/
def telling : History hash → Tid → Prop
  | [], _ => False
  | .did _ _ _ :: evs, t => telling evs t
  | .ended t' :: evs, t => t ≠ t' ∧ telling evs t
  | .arrived e :: evs, t => teller e = some t ∨ telling evs t

instance decidableTelling (t : Tid) : ∀ evs : History hash, Decidable (telling evs t)
  | [] => inferInstanceAs (Decidable False)
  | .did _ _ _ :: evs => decidableTelling t evs
  | .ended t' :: evs =>
    have := decidableTelling t evs
    inferInstanceAs (Decidable (t ≠ t' ∧ telling evs t))
  | .arrived e :: evs =>
    have := decidableTelling t evs
    inferInstanceAs (Decidable (teller e = some t ∨ telling evs t))

section Recent

variable {p : Uuid} {K : Set Uuid} {t : Tid} {g : Prop} {α : Type}

/-- A task of the peer that follows the rule gossips tables with these servers only, as long as the table
of the peer has them. -/
def recounts (p : Uuid) (K : Set Uuid) : Monitor PeerSig Tid Prop where
  allow t g o := g → t.peer = p → ∀ u table, o = .send u (.gossip table) → K ⊆ table.names
  expect t _ o a :=
    match o, a with
    | .membership, table => t.peer = p → K ⊆ MembershipTable.names table
    | _, _ => True
  next _ g _ _ := g

/-- A task that need not follow the rule. -/
theorem obeys_of_not (hg : ¬ g) : ∀ c : Code α, c.Obeys (recounts p K) t (fun _ _ => True) g
  | .pure _ => trivial
  | .op _ k => ⟨fun h => absurd h hg, fun a _ => obeys_of_not hg (k a)⟩

theorem recounts_sendTo (u : Uuid) {msg : Msg}
    (h : t.peer = p → ∀ table, msg = .gossip table → K ⊆ table.names) :
    (sendTo u msg).Obeys (recounts p K) t (fun _ _ => True) g := by
  refine Prog.Obeys.mono (fun _ _ _ => trivial) _ _ (Prog.Only.obeys (fun _ => True)
    (fun g o _ ho => ?_) (fun _ _ _ _ _ => trivial) _ g trivial (sends_sendTo u msg))
  intro _ hp v table heq
  exact h hp table (ho.2 v _ heq).2.symm

theorem recounts_silent {o : Op} (ho : ∀ u table, o ≠ .send u (.gossip table)) :
    (perform o).Obeys (recounts p K) t (fun a _ => (recounts p K).expect t g o a) g :=
  ⟨fun _ _ u table heq => absurd heq (ho u table), fun _ ha => ha⟩

theorem recounts_guarded {m : Mutex} {o : Op} (ho : ∀ u table, o ≠ .send u (.gossip table)) :
    (locked m (perform o)).Obeys (recounts p K) t (fun a _ => (recounts p K).expect t g o a) g := by
  apply (recounts_silent (o := .lock m) (by simp)).call
  rintro _ _ -
  apply (recounts_silent ho).call
  intro a _ ha
  apply (recounts_silent (o := .unlock m) (by simp)).call
  intro _ _ _
  exact ha

theorem recounts_membership : (locked .membership (perform .membership)).Obeys (recounts p K) t
    (fun table _ => t.peer = p → K ⊆ MembershipTable.names table) g :=
  recounts_guarded (by simp)

theorem recounts_sendGossip (self : Uuid) :
    (sendGossip self).Obeys (recounts p K) t (fun _ _ => True) g := by
  apply recounts_membership.call
  intro table _ htable
  apply recounts_membership.call
  intro peers _ _
  apply (recounts_silent (o := .choose peers.keys) (by simp)).call
  intro chosen g' _
  cases chosen with
  | none => trivial
  | some u =>
    have hsend : (sendTo u (.gossip table)).Obeys (recounts p K) t (fun _ _ => True) g' := by
      apply recounts_sendTo
      rintro hp _ ⟨⟩
      exact htable hp
    dsimp only
    split
    · trivial
    · exact hsend.call fun _ _ _ => trivial

theorem recounts_sendGossipTo (u : Uuid) :
    (sendGossipTo u).Obeys (recounts p K) t (fun _ _ => True) g := by
  apply recounts_membership.call
  intro table _ _
  split
  · apply recounts_membership.call
    intro snapshot g' hsnapshot
    have hsend : (sendTo u (.gossip snapshot)).Obeys (recounts p K) t (fun _ _ => True) g' := by
      apply recounts_sendTo
      rintro hp _ ⟨⟩
      exact hsnapshot hp
    exact hsend.call fun _ _ _ => trivial
  · trivial

/-- What starts as a teller follows the rule. -/
theorem recounts_starts {e : Arrival} {c : Code Unit} {w w' : World hash}
    (h : arrive e w = some (some (t, c), w')) :
    c.Obeys (recounts p K) t (fun _ _ => True) (teller e = some t) := by
  by_cases htell : teller e = some t
  · cases e with
    | tickGossip u =>
      cases h
      exact recounts_sendGossip u
    | deliver q =>
      obtain ⟨serial, src, dst, msg⟩ := q
      have hq := mem_net_of_deliver h
      simp only [arrive, if_pos hq] at h
      cases h
      cases msg with
      | hello u addr =>
        apply (recounts_guarded (o := .membershipInsert u addr) (by simp)).call
        intro _ _ _
        apply (recounts_sendGossipTo u).call
        intro _ _ _
        exact recounts_sendGossip dst
      | _ => cases htell
    | _ => cases htell
  · exact obeys_of_not htell c

theorem telling_ended (evs : History hash) (t : Tid) :
    Function.update (telling evs) t False = telling (.ended t :: evs) := by
  funext t'
  by_cases h : t' = t
  · subst h
    rw [Function.update_self]
    exact (eq_false fun htell => htell.1 rfl).symm
  · rw [Function.update_of_ne h]
    exact propext ⟨fun htell => ⟨h, htell⟩, And.right⟩

/-- A teller is the task that its arrival starts. -/
theorem teller_starts {e : Arrival} {t : Tid} {r : Option (Tid × Code Unit)} {w w' : World hash}
    (h : arrive e w = some (r, w')) (htell : teller e = some t) : ∃ c, r = some (t, c) := by
  cases e with
  | tickGossip u =>
    cases h
    cases htell
    exact ⟨_, rfl⟩
  | deliver q =>
    obtain ⟨serial, src, dst, msg⟩ := q
    have hq := mem_net_of_deliver h
    simp only [arrive, if_pos hq] at h
    cases h
    cases msg with
    | hello u addr =>
      cases htell
      exact ⟨_, rfl⟩
    | _ => cases htell
  | _ => cases htell

theorem telling_started {evs : History hash} {e : Arrival} {t : Tid} {c : Code Unit} {w w' : World hash}
    (h : arrive e w = some (some (t, c), w')) (ht : telling evs t = False) :
    Function.update (telling evs) t (teller e = some t) = telling (.arrived e :: evs) := by
  funext t'
  by_cases heq : t' = t
  · subst heq
    rw [Function.update_self]
    exact propext ⟨Or.inl, Or.rec id fun htell => (ht ▸ htell : False).elim⟩
  · rw [Function.update_of_ne heq]
    refine propext ⟨Or.inr, Or.rec (fun htell => ?_) id⟩
    obtain ⟨_, hstart⟩ := teller_starts h htell
    cases hstart
    exact absurd rfl heq

theorem telling_arrived {evs : History hash} {e : Arrival} {w w' : World hash}
    (h : arrive e w = some (none, w')) : telling evs = telling (.arrived e :: evs) := by
  funext t
  refine propext ⟨Or.inr, Or.rec (fun htell => ?_) id⟩
  obtain ⟨_, hstart⟩ := teller_starts h htell
  cases hstart

/-- **A gossip is recent**: a teller that has begun since then sends a table with all that the peer
knew then. -/
theorem names_of_sent {D : Discipline (cluster hash)} {c₀ c : Config (cluster hash)} {evs : History hash}
    {u : Uuid} {table : MembershipTable} {sent : Bool}
    (hrun : Run (cluster hash) D c₀ (.did t (.send u (.gossip table)) sent :: evs) c)
    (htell : telling evs t) : World.knows c₀.state t.peer ⊆ table.names := by
  cases hrun with
  | @step _ _ c' _ hrun _ hstep =>
    obtain ⟨-, -, k, hlive⟩ := state_of_did hstep
    have hsound := Run.sound_from (recounts t.peer (World.knows c₀.state t.peer)) False (fun _ _ => True)
      (fun evs gs w => gs = telling evs ∧ World.knows c₀.state t.peer ⊆ World.knows w t.peer)
      ?did ?ended ?arrived ?started ⟨rfl, Set.Subset.refl _⟩
      (fun t' => ⟨fun c _ => obeys_of_not id c, fun _ => rfl⟩) hrun
    · obtain ⟨gs, ⟨rfl, -⟩, hpool⟩ := hsound
      exact ((hpool t).1 _ hlive).1 htell rfl u table rfl
    case did =>
      rintro evs gs w t' o ch a w' ⟨rfl, hknows⟩ - hact -
      obtain ⟨hans, rfl⟩ := @act_eq hash _ _ _ _ _ _ hact
      refine ⟨?_, Function.update_eq_self t' _, Set.Subset.trans hknows (knows_effect t' o a w t.peer)⟩
      cases o with
      | membership =>
        cases hans
        intro hpeer
        rw [← hpeer] at hknows ⊢
        exact hknows
      | _ => trivial
    case ended =>
      rintro evs gs w t' ⟨rfl, hknows⟩ -
      exact ⟨telling_ended evs t', hknows⟩
    case arrived =>
      rintro evs gs w e w' ⟨rfl, hknows⟩ harr -
      refine ⟨telling_arrived harr, ?_⟩
      unfold World.knows at hknows ⊢
      rw [node_arrive harr]
      exact hknows
    case started =>
      rintro evs gs w e t' c w' ⟨rfl, hknows⟩ harr hidle -
      refine ⟨teller e = some t', recounts_starts harr, telling_started harr hidle, ?_⟩
      unfold World.knows at hknows ⊢
      rw [node_arrive harr]
      exact hknows

end Recent

/-! ## Chains of gossip -/

/-- In this stretch of a history `p` has sent its table to `q`, from a teller that has begun in it, and
the handling has ended, without a failure of the storage. -/
inductive Hop (before : History hash) (p q : Uuid) : History hash → Prop
  | intro {t : Tid} {table : MembershipTable} {serial : ℕ} {evs evs' : History hash} (peer : t.peer = p)
      (tells : telling evs t)
      (delivered : (.arrived (.deliver ⟨serial, p, q, .gossip table⟩) : Event (cluster hash)) ∈ evs')
      (stored : ¬ FailedIn (evs' ++ .did t (.send q (.gossip table)) true :: evs ++ before)
        (.incoming q serial)) :
      Hop before p q (.ended (.incoming q serial) ::
        (evs' ++ .did t (.send q (.gossip table)) true :: evs))

/-- What `p` knew when the history began has reached the peer. -/
inductive Relayed (before : History hash) (p : Uuid) : Uuid → History hash → Prop
  | here : Relayed before p p []
  | wait {q : Uuid} {evs : History hash} (ev : Event (cluster hash)) (reached : Relayed before p q evs) :
      Relayed before p q (ev :: evs)
  | hop {q r : Uuid} {evs stretch : History hash} (reached : Relayed before p q evs)
      (hop : Hop (evs ++ before) q r stretch) : Relayed before p r (stretch ++ evs)

section Spreads

variable {D D' : Discipline (cluster hash)} {w₀ : World hash} {c₁ c₂ : Config (cluster hash)}
  {before since : History hash} {p q : Uuid}

theorem knows_of_hop (hrun : Run (cluster hash) D (quiet w₀) before c₁)
    (hsince : Run (cluster hash) D' c₁ since c₂) (h : Hop before p q since) :
    World.knows c₁.state p ⊆ World.knows c₂.state q := by
  cases h with
  | @intro t table serial evs evs' peer tells delivered stored =>
    have hsent : World.knows c₁.state p ⊆ table.names := by
      rw [← List.cons_append] at hsince
      obtain ⟨c, hsent, -⟩ := hsince.split
      rw [← peer]
      exact names_of_sent hsent tells
    apply Set.Subset.trans hsent
    have hdelivered : (.arrived (.deliver ⟨serial, p, q, .gossip table⟩) : Event (cluster hash)) ∈
        evs' ++ .did t (.send q (.gossip table)) true :: evs ++ before :=
      List.mem_append_left before (List.mem_append_left _ delivered)
    exact heard (hrun.append hsince) hdelivered stored

/-- **Gossip arrives**: a peer that a chain of gossip has reached knows every server that the first peer
knew when the chain began. -/
theorem gossip_spreads (hrun : Run (cluster hash) D (quiet w₀) before c₁)
    (hsince : Run (cluster hash) D' c₁ since c₂) (h : Relayed before p q since) :
    World.knows c₁.state p ⊆ World.knows c₂.state q := by
  induction h generalizing D' c₂ with
  | here =>
    cases hsince
    exact Set.Subset.refl _
  | wait ev _ ih =>
    rw [← List.singleton_append] at hsince
    obtain ⟨c, hearlier, hlater⟩ := hsince.split
    exact Set.Subset.trans (ih hearlier) (knows_of_run hlater _)
  | hop _ hhop ih =>
    obtain ⟨c, hearlier, hlater⟩ := hsince.split
    exact Set.Subset.trans (ih hearlier) (knows_of_hop (hrun.append hearlier) hlater hhop)

end Spreads

/-- The table of server 1 once server 4 has said hello. -/
def tableWithFour : MembershipTable :=
  ((World.joined md5 [.ofTail 1, .ofTail 2, .ofTail 3]).node (.ofTail 1)).membership.insert (.ofTail 4) "tcp://4"

/-- Server 4 says hello to server 1. -/
def helloTaken : List (Move (cluster md5)) :=
  .arrive (.message (.ofTail 4) (.ofTail 1) (.hello (.ofTail 4) "tcp://4")) ::
  .arrive (.deliver ⟨0, .ofTail 4, .ofTail 1, .hello (.ofTail 4) "tcp://4"⟩) ::
  List.replicate 3 (.turn (.incoming (.ofTail 1) 0) .yes)

/-- The next round of gossip of server 1 goes to server 2. -/
def passedOn : List (Move (cluster md5)) :=
  .arrive (.tickGossip (.ofTail 1)) ::
  List.replicate 6 (.turn (.gossip (.ofTail 1)) .yes) ++
  .turn (.gossip (.ofTail 1)) (.uuid (.ofTail 2)) ::
  List.replicate 6 (.turn (.gossip (.ofTail 1)) .yes) ++
  .arrive (.deliver ⟨1, .ofTail 1, .ofTail 2, .gossip tableWithFour⟩) ::
  List.replicate 20 (.turn (.incoming (.ofTail 2) 1) .yes)

/-- The event is this gossip of server 1 to server 2. -/
def isSent : Event (cluster md5) → Bool
  | .did t (.send u (.gossip table)) sent =>
    t = .gossip (.ofTail 1) && u = .ofTail 2 && table = tableWithFour && sent
  | _ => false

def isDelivered : Event (cluster md5) → Bool
  | .arrived (.deliver q) => q = ⟨1, .ofTail 1, .ofTail 2, .gossip tableWithFour⟩
  | _ => false

def isHandled : Event (cluster md5) → Bool
  | .ended t => t = .incoming (.ofTail 2) 1
  | _ => false

/-- The storage has not failed to give old data. -/
def isFine : Event (cluster md5) → Bool
  | .did _ (.getOldData _ _) none => false
  | _ => true

theorem isSent_eq {ev : Event (cluster md5)} (h : isSent ev = true) :
    ev = .did (.gossip (.ofTail 1)) (.send (.ofTail 2) (.gossip tableWithFour)) true := by
  unfold isSent at h
  split at h
  · simp only [Bool.and_eq_true, decide_eq_true_eq] at h
    obtain ⟨⟨⟨rfl, rfl⟩, rfl⟩, rfl⟩ := h
    rfl
  · cases h

theorem isDelivered_eq {ev : Event (cluster md5)} (h : isDelivered ev = true) :
    ev = .arrived (.deliver ⟨1, .ofTail 1, .ofTail 2, .gossip tableWithFour⟩) := by
  unfold isDelivered at h
  split at h
  · rw [of_decide_eq_true h]
  · cases h

theorem isHandled_eq {ev : Event (cluster md5)} (h : isHandled ev = true) :
    ev = .ended (.incoming (.ofTail 2) 1) := by
  unfold isHandled at h
  split at h
  · rw [of_decide_eq_true h]
  · cases h

/-- The events that are checked: the end of the handling, then the delivery among twenty, then the
sending by a teller. -/
def passedOnIn (before : History md5) : History md5 → Bool
  | [] => false
  | ended :: evs =>
    isHandled ended && (evs.take 20).any isDelivered && (before ++ ended :: evs).all isFine &&
      match evs.drop 20 with
      | [] => false
      | sent :: evs => isSent sent && decide (telling evs (.gossip (.ofTail 1)))

theorem hop_of_passedOn {before since : History md5} (h : passedOnIn before since = true) :
    Hop before (.ofTail 1) (.ofTail 2) since := by
  unfold passedOnIn at h
  split at h
  · cases h
  · rename_i ended evs
    simp only [Bool.and_eq_true] at h
    obtain ⟨⟨⟨hended, hdel⟩, hfine⟩, hrest⟩ := h
    split at hrest
    · cases hrest
    · rename_i sent evs' hdrop
      obtain ⟨hsent, htell⟩ := Bool.and_eq_true_iff.1 hrest
      obtain ⟨ev, hmem, hev⟩ := List.any_eq_true.1 hdel
      rw [isDelivered_eq hev] at hmem
      rw [← List.take_append_drop 20 evs, hdrop] at hfine ⊢
      rw [isHandled_eq hended] at hfine ⊢
      rw [isSent_eq hsent] at hfine ⊢
      refine Hop.intro rfl (of_decide_eq_true htell) hmem ?_
      rintro ⟨u, k, hfail⟩
      have hchecked := List.all_eq_true.1 hfine _ (List.mem_append.2 <|
        (List.mem_append.1 hfail).symm.imp_right (List.mem_cons_of_mem _))
      cases hchecked

/-- Server 2 has learned of server 4 from server 1. -/
theorem gossip_spreads_hello : ∃ (before since : History md5) (c₁ c₂ : Config (cluster md5)),
    Run (cluster md5) anyStep (quiet (World.joined md5 [.ofTail 1, .ofTail 2, .ofTail 3])) before c₁ ∧
      Run (cluster md5) anyStep c₁ since c₂ ∧
      .ofTail 4 ∉ World.knows c₁.state (.ofTail 2) ∧ .ofTail 4 ∈ World.knows c₂.state (.ofTail 2) := by
  obtain ⟨before, c₁, hrun, hcheck⟩ := exists_run (D := anyStep) (fun _ _ _ => true)
    (fun _ _ _ _ => trivial) (quiet (World.joined md5 [.ofTail 1, .ofTail 2, .ofTail 3])) helloTaken
    (fun before c₁ =>
      ((c₁.state.node (.ofTail 1)).membership.find? (.ofTail 4)).isSome &&
        ((c₁.state.node (.ofTail 2)).membership.find? (.ofTail 4)).isNone &&
        (exec (fun _ _ _ => true) passedOn ([], c₁)).any fun r => passedOnIn before r.1)
    (by decide +kernel)
  simp only [Bool.and_eq_true] at hcheck
  obtain ⟨⟨hknown, hnew⟩, hexec⟩ := hcheck
  obtain ⟨since, c₂, hsince, hpassed⟩ := exists_run (D := anyStep) (fun _ _ _ => true)
    (fun _ _ _ _ => trivial) c₁ passedOn (fun since _ => passedOnIn before since) hexec
  have hrelayed : Relayed before (.ofTail 1) (.ofTail 2) since := by
    rw [← List.append_nil since]
    exact .hop .here (hop_of_passedOn hpassed)
  refine ⟨before, since, c₁, c₂, hrun, hsince, ?_, gossip_spreads hrun hsince hrelayed hknown⟩
  rintro (hmem : (FinMap.find? (c₁.state.node (.ofTail 2)).membership (.ofTail 4)).isSome = true)
  rw [Option.isNone_iff_eq_none.1 hnew] at hmem
  cases hmem

end Sdle
