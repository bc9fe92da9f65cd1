import Sdle.Requests
import Mathlib.Data.Finset.Card

/-!
# The copies of a request

A coordinator sends its list to several servers under one request id, and counts the answers.

* `unused` — **nobody uses a request id before it is in flight**.
* `copies` — **answers are counted once for each server**: as long as a list is sent to no server twice
  under one id, each answer counted comes from another server.
-/

set_option autoImplicit false

namespace Sdle

open Tasks Peer

variable {hash : String → U128}

/-! ## Queries and answers -/

/-- The request id of a query, and the list in it. -/
def Msg.carries : Msg → Option (String × ShoppingList)
  | .replicateList rid l _ => some (rid, l)
  | .handoff rid l _ => some (rid, l)
  | _ => none

/-- The request id of a query. -/
def Msg.asks (m : Msg) : Option String := m.carries.map Prod.fst

/-- The request id of an answer, and the list in it. -/
def Msg.answers : Msg → Option (String × Option ShoppingList)
  | .ack rid => some (rid, none)
  | .ackList rid l => some (rid, some l)
  | _ => none

/-- A message without a list is neither a query nor an answer. -/
theorem asks_of_control {m : Msg} (h : m.control = true) : m.asks = none ∧ m.answers = none := by
  cases m <;> first
    | exact ⟨rfl, rfl⟩
    | cases h

/-- The server that a query is sent to in a step. -/
def asked (rid : String) : Event (cluster hash) → Option Uuid
  | .did _ (.send u m) true => if m.asks = some rid then some u else none
  | _ => none

/-- The servers that queries have been sent to under a request id. -/
def targets (rid : String) (evs : History hash) : List Uuid := evs.filterMap (asked rid)

/-- A server has answered a request, with a list or without one. -/
def Replied (evs : History hash) (rid : String) (v : Uuid) (x : Option ShoppingList) : Prop :=
  ∃ s u m, .did (.incoming v s) (.send u m) true ∈ evs ∧ m.answers = some (rid, x)

theorem Replied.cons {evs : History hash} {rid : String} {v : Uuid} {x : Option ShoppingList}
    (h : Replied evs rid v x) (ev : Event (cluster hash)) : Replied (ev :: evs) rid v x := by
  obtain ⟨s, u, m, hmem, hm⟩ := h
  exact ⟨s, u, m, List.mem_cons_of_mem _ hmem, hm⟩

theorem Replied.of_other {evs : History hash} {ev : Event (cluster hash)}
    (hev : ∀ t o a, ev ≠ .did t o a) {rid : String} {v : Uuid} {x : Option ShoppingList}
    (h : Replied (ev :: evs) rid v x) : Replied evs rid v x := by
  obtain ⟨s, u, m, hmem, hm⟩ := h
  exact ⟨s, u, m, mem_of_other hev hmem, hm⟩

namespace Phase

/-- The request id of the query that a task has in hand. -/
def holds : Phase → Option String
  | .store _ rid _ => some rid
  | .hint _ rid _ _ => some rid
  | .look _ rid _ => some rid
  | .ackTo _ rid => some rid
  | .ackListTo _ rid _ => some rid
  | _ => none

/-- The answer that a task has in hand. -/
def counts : Phase → Option (String × Option ShoppingList)
  | .count rid => some (rid, none)
  | .countList rid l => some (rid, some l)
  | _ => none

/-- The id that a hint is sent under. -/
def hintName : Phase → Option String
  | .hinting rid _ => some rid
  | _ => none

variable {g : Phase} {o : Op} {a : Ans o}

theorem hintName_of_name {rid : String} (h : g.name = some rid) : g.hintName = none := by
  cases g with
  | hinting rid' todo => cases h
  | _ => rfl

theorem holds_next (ho : g.allow o) {rid : String} (h : (g.next hash o a).holds = some rid) :
    g.holds = some rid := by
  have hgo : Goes hash g o a (g.next hash o a) := goes_next ho
  generalize g.next hash o a = g' at hgo h
  cases hgo with
  | stay => exact h
  | found => exact h
  | kept => exact h
  | noted => exact h
  | _ => cases h

theorem counts_next (ho : g.allow o) {x : String × Option ShoppingList}
    (h : (g.next hash o a).counts = some x) : g.counts = some x ∧ answerTo x.1 o = none := by
  have hans : answerTo x.1 o = none := by
    cases o with
    | ack r => cases h
    | ackList r l => cases h
    | _ => rfl
  have hgo : Goes hash g o a (g.next hash o a) := goes_next ho
  generalize g.next hash o a = g' at hgo h
  cases hgo with
  | stay => exact ⟨h, hans⟩
  | _ => cases h

theorem hintName_next (ho : g.allow o) {rid : String} (h : (g.next hash o a).hintName = some rid) :
    g.hintName = some rid ∨ o = .newUuid ∧ rid ∈ (drawnBy o a).map Uuid.toString := by
  have hgo : Goes hash g o a (g.next hash o a) := goes_next ho
  generalize g.next hash o a = g' at hgo h
  cases hgo with
  | stay => exact Or.inl h
  | hinted =>
    obtain rfl := Option.some.inj h
    exact Or.inr ⟨rfl, List.mem_singleton_self _⟩
  | _ => cases h

/-- Who sends a query: a round of hinted handoff, a peer that hands rows over, or a coordinator. -/
theorem carries_of_allow {u : Uuid} {m : Msg} (ho : g.allow (.send u m)) {rid : String}
    {l : ShoppingList} (hm : m.carries = some (rid, l)) :
    g.hintName = some rid ∨ rid = "" ∨ g.pending = some (rid, l) := by
  rcases ho with hc | hsends
  · have hnone := (asks_of_control hc).1
    rw [Msg.asks, hm] at hnone
    cases hnone
  · cases g with
    | moving ls =>
      obtain ⟨l', -, rfl⟩ := hsends
      obtain ⟨rfl, -⟩ := Prod.mk.inj (Option.some.inj hm)
      exact Or.inr (Or.inl rfl)
    | hinting rid' todo =>
      cases todo with
      | nil => exact hsends.elim
      | cons x todo =>
        obtain ⟨-, rfl⟩ := hsends
        obtain ⟨rfl, -⟩ := Prod.mk.inj (Option.some.inj hm)
        exact Or.inl rfl
    | spreading job replicas rid' todo =>
      rcases hsends with ⟨-, rfl⟩ | ⟨-, r, -, rfl⟩ <;> exact Or.inr (Or.inr hm)
    | ackTo src rid' =>
      obtain ⟨-, rfl⟩ := hsends
      cases hm
    | ackListTo src rid' l' =>
      obtain ⟨-, rfl⟩ := hsends
      cases hm
    | _ => exact hsends.elim

/-- Who sends an answer: a task with the query in hand, and then it has nothing more. -/
theorem answers_of_allow {u : Uuid} {m : Msg} (ho : g.allow (.send u m)) {rid : String}
    {x : Option ShoppingList} (hm : m.answers = some (rid, x)) (b : Bool) :
    g.holds = some rid ∧ g.next hash (.send u m) b = .idle := by
  rcases ho with hc | hsends
  · rw [(asks_of_control hc).2] at hm
    cases hm
  · cases g with
    | ackTo src rid' =>
      obtain ⟨-, rfl⟩ := hsends
      obtain rfl := (Prod.mk.inj (Option.some.inj hm)).1
      exact ⟨rfl, rfl⟩
    | ackListTo src rid' l =>
      obtain ⟨-, rfl⟩ := hsends
      obtain rfl := (Prod.mk.inj (Option.some.inj hm)).1
      exact ⟨rfl, rfl⟩
    | moving ls =>
      obtain ⟨l, -, rfl⟩ := hsends
      cases hm
    | hinting rid' todo =>
      cases todo with
      | nil => exact hsends.elim
      | cons y todo =>
        obtain ⟨-, rfl⟩ := hsends
        cases hm
    | spreading job replicas rid' todo =>
      rcases hsends with ⟨-, rfl⟩ | ⟨-, r, -, rfl⟩ <;> cases hm
    | _ => exact hsends.elim

theorem holds_ofIncoming (src : Uuid) (m : Msg) : (ofIncoming src m).holds = m.asks := by
  cases m with
  | replicateList rid l write => cases write <;> rfl
  | _ => rfl

theorem counts_ofIncoming (src : Uuid) (m : Msg) : (ofIncoming src m).counts = m.answers := by
  cases m with
  | replicateList rid l write => cases write <;> rfl
  | _ => rfl

/-- A task that has just started with a query or an answer in hand has been delivered it. -/
theorem incoming_begun {e : Arrival} {v : Uuid} {s : ℕ} (hb : begun e = some (.incoming v s, g)) :
    ∃ p, e = .deliver p ∧ p.dst = v ∧ p.serial = s ∧ g = ofIncoming p.src p.msg := by
  cases e with
  | deliver p =>
    obtain ⟨ht, rfl⟩ := Prod.mk.inj (Option.some.inj hb)
    obtain ⟨rfl, rfl⟩ := Tid.incoming.inj ht
    exact ⟨p, rfl, rfl, rfl, rfl⟩
  | _ => simp [begun] at hb

theorem hintName_begun {e : Arrival} {t : Tid} (hb : begun e = some (t, g)) : g.hintName = none := by
  cases e with
  | deliver p =>
    obtain ⟨-, rfl⟩ := Prod.mk.inj (Option.some.inj hb)
    cases p.msg with
    | replicateList rid l write => cases write <;> rfl
    | _ => rfl
  | take r =>
    obtain ⟨-, rfl⟩ := Prod.mk.inj (Option.some.inj hb)
    cases r.msg <;> rfl
  | tickGossip u => cases hb; rfl
  | tickHintedHandoff u => cases hb; rfl
  | tickFailureDetection u => cases hb; rfl
  | _ => cases hb

end Phase

/-- A task with an answer in hand handles a message. -/
theorem incoming_of_counts {t : Tid} {g : Phase} (hfit : g.Fits t)
    {x : String × Option ShoppingList} (h : g.counts = some x) : ∃ s, t = .incoming t.peer s := by
  cases g <;> first
    | exact hfit
    | cases h

/-! ## Before a request is in flight -/

/-- The packet that a step sends. -/
theorem mem_net_effect {t : Tid} {o : Op} {a : Ans o} {w : World hash} {p : Packet}
    (h : p ∈ (effect t o a w).net) :
    p ∈ w.net ∨ ∃ u m, p = ⟨w.serial, t.peer, u, m⟩ ∧
      (.did t o a : Event (cluster hash)) = .did t (.send u m) true := by
  rw [net_effect, List.mem_append] at h
  rcases h with h | h
  · right
    cases o with
    | send u m =>
      cases a with
      | true => exact ⟨u, m, List.mem_singleton.1 h, rfl⟩
      | false => cases h
    | _ => cases h
  · exact Or.inl h

theorem targets_cons (rid : String) (ev : Event (cluster hash)) (evs : History hash) :
    targets rid (ev :: evs) = (asked rid ev).toList ++ targets rid evs := by
  unfold targets
  rw [List.filterMap_cons]
  cases asked rid ev <;> rfl

theorem targets_subset (rid : String) (ev : Event (cluster hash)) (evs : History hash) :
    targets rid evs ⊆ targets rid (ev :: evs) := by
  rw [targets_cons]
  exact List.subset_append_right _ _

/-- A query is sent by a step of the automaton. -/
theorem asked_eq_some {rid : String} {t : Tid} {o : Op} {a : Ans o} {v : Uuid}
    (h : asked rid (.did t o a : Event (cluster hash)) = some v) :
    ∃ m, m.asks = some rid ∧ (.did t o a : Event (cluster hash)) = .did t (.send v m) true := by
  cases o with
  | send u m =>
    cases a with
    | true =>
      simp only [asked, Option.ite_none_right_eq_some, Option.some.injEq] at h
      obtain ⟨hm, rfl⟩ := h
      exact ⟨m, hm, rfl⟩
    | false => cases h
  | _ => cases h

/-- What holds of the ids that are sent under. -/
structure Unused (evs : History hash) (w : World hash) : Prop where
  sent : ∀ rid, targets rid evs ≠ [] → rid = "" ∨ rid ∈ w.drawn.map Uuid.toString
  hinting : ∀ t rid, (phases evs t).hintName = some rid →
    rid ∈ w.drawn.map Uuid.toString ∧ opened rid evs = []
  named : ∀ t rid, (phases evs t).name = some rid →
    targets rid evs = [] ∧ ∀ t', (phases evs t').hintName ≠ some rid
  holding : ∀ v s rid, (phases evs (.incoming v s)).holds = some rid → v ∈ targets rid evs
  net : ∀ p ∈ w.net, ∀ rid, p.msg.asks = some rid → p.dst ∈ targets rid evs

theorem unused_did {evs : History hash} {w : World hash} {t : Tid} {o : Op} {c : Choice} {a : Ans o}
    (hreg : Registered evs w) (hun : Unused evs w) (hallow : (phases evs t).allow o)
    (ha : answer t o c w = some a) : Unused (.did t o a :: evs) (effect t o a w) := by
  have hdrawn : ∀ {rid}, rid ∈ w.drawn.map Uuid.toString →
      rid ∈ (effect t o a w).drawn.map Uuid.toString := by
    intro rid h
    rw [drawn_effect, List.map_append]
    exact List.mem_append_right _ h
  have hnew : ∀ {rid}, rid ∈ (drawnBy o a).map Uuid.toString →
      rid ∈ (effect t o a w).drawn.map Uuid.toString := by
    intro rid h
    rw [drawn_effect, List.map_append]
    exact List.mem_append_left _ h
  have hsender : ∀ {rid v}, asked rid (.did t o a : Event (cluster hash)) = some v →
      (phases evs t).hintName = some rid ∨ rid = "" ∨ ∃ l, (phases evs t).pending = some (rid, l) := by
    intro rid v h
    obtain ⟨m, hm, hev⟩ := asked_eq_some h
    cases hev
    obtain ⟨⟨rid', l⟩, hcarries, rfl⟩ := Option.map_eq_some_iff.1 hm
    exact (Phase.carries_of_allow hallow hcarries).imp_right fun h => h.imp_right fun h => ⟨l, h⟩
  have hhint : ∀ {t' rid}, (phases (.did t o a :: evs) t').hintName = some rid →
      (phases evs t').hintName = some rid ∨
        t' = t ∧ o = .newUuid ∧ rid ∈ (drawnBy o a).map Uuid.toString := by
    intro t' rid h
    rw [phases_did] at h
    split at h
    · rename_i ht
      subst ht
      exact (Phase.hintName_next hallow h).imp_right fun h => ⟨rfl, h⟩
    · exact Or.inl h
  have hmap : ∀ {us : List Uuid} {rid}, rid ∈ us.map Uuid.toString → rid ≠ "" := by
    intro us rid h
    obtain ⟨u, -, rfl⟩ := List.mem_map.1 h
    exact Uuid.toString_ne_empty u
  refine ⟨?sent, ?hinting, ?named, ?holding, ?net⟩
  case sent =>
    intro rid h
    rw [targets_cons] at h
    cases hask : asked rid (.did t o a : Event (cluster hash)) with
    | none =>
      rw [hask] at h
      exact (hun.sent rid h).imp_right hdrawn
    | some v =>
      rcases hsender hask with h | h | ⟨l, h⟩
      · exact Or.inr (hdrawn (hun.hinting t rid h).1)
      · exact Or.inl h
      · have hopen := hreg.pending t rid l h
        exact Or.inr (hdrawn (hreg.drawn rid (by rw [hopen]; exact List.cons_ne_nil _ _)))
  case hinting =>
    intro t' rid h
    rcases hhint h with h | ⟨-, ho, h⟩
    · obtain ⟨hmem, hnone⟩ := hun.hinting t' rid h
      refine ⟨hdrawn hmem, ?_⟩
      rcases hreg.opened_did a hallow rid with ⟨heq, -⟩ | ⟨l, -, hname, -⟩
      · rw [heq, hnone]
      · exact absurd h ((hun.named t rid hname).2 t')
    · refine ⟨hnew h, ?_⟩
      rcases hreg.opened_did a hallow rid with ⟨heq, -⟩ | ⟨l, hins, -⟩
      · rw [heq]
        by_contra hne
        exact drawnBy_fresh ha h (hreg.drawn rid hne)
      · rw [ho] at hins
        cases hins
  case named =>
    intro t' rid h
    rcases name_did hallow h with ⟨hname, -⟩ | ⟨rfl, ho, hrid⟩
    · obtain ⟨hnone, hmem, -⟩ := hreg.named t' rid hname
      obtain ⟨htargets, hnot⟩ := hun.named t' rid hname
      constructor
      · rw [targets_cons, htargets, List.append_nil]
        cases hask : asked rid (.did t o a : Event (cluster hash)) with
        | none => rfl
        | some v =>
          rcases hsender hask with h | h | ⟨l, h⟩
          · exact absurd h (hnot t)
          · exact absurd h (hmap hmem)
          · rw [hreg.pending t rid l h] at hnone
            cases hnone
      · intro t'' h''
        rcases hhint h'' with h'' | ⟨-, -, hrid⟩
        · exact hnot t'' h''
        · exact drawnBy_fresh ha hrid hmem
    · have hfresh := drawnBy_fresh ha hrid
      have hne : rid ≠ "" := hmap (hnew hrid)
      constructor
      · have hnone : asked rid (.did t' o a : Event (cluster hash)) = none := by
          subst ho
          rfl
        rw [targets_cons, hnone]
        by_contra hcon
        exact (hun.sent rid hcon).elim hne hfresh
      · intro t'' h''
        rcases hhint h'' with h'' | ⟨ht, -⟩
        · exact hfresh (hun.hinting t'' rid h'').1
        · subst ht
          rw [Phase.hintName_of_name h] at h''
          cases h''
  case holding =>
    intro v s rid h
    rw [phases_did] at h
    split at h
    · rename_i ht
      subst ht
      exact targets_subset _ _ _ (hun.holding v s rid (Phase.holds_next hallow h))
    · exact targets_subset _ _ _ (hun.holding v s rid h)
  case net =>
    intro p hp rid hm
    rcases mem_net_effect hp with hp | ⟨u, m, rfl, hev⟩
    · exact targets_subset _ _ _ (hun.net p hp rid hm)
    · rw [targets_cons, hev]
      simp only [asked, if_pos hm]
      exact List.mem_append_left _ (List.mem_singleton_self _)

theorem targets_arrived (rid : String) (e : Arrival) (evs : History hash) :
    targets rid (.arrived e :: evs) = targets rid evs := rfl

/-- Messages from outside are neither queries nor answers. -/
theorem asks_of_external {m : Msg} (h : external m = true) : m.asks = none ∧ m.answers = none := by
  cases m <;> first
    | exact ⟨rfl, rfl⟩
    | cases h

/-- **Nobody uses a request id before it is in flight**, and every query in the world has been sent. -/
theorem unused {D : Discipline (cluster hash)} {w₀ : World hash} (hw : w₀.Settled)
    {evs : History hash} {c : Config (cluster hash)}
    (hrun : Run (cluster hash) D (quiet w₀) evs c) : Unused evs c.state := by
  have hrun := hrun.with (fun evs w => Registered evs w) fun _ _ h => registered hw h
  refine (cluster_invariant Unused ?did ?ended ?arrived ?init hrun).1
  case did =>
    intro evs w t o c a hun _ hallow ha hD
    exact unused_did hD.2 hun hallow ha
  case ended =>
    intro evs w t hun
    have hphase : ∀ t', phases (.ended t :: evs) t' = .idle ∨
        phases (.ended t :: evs) t' = phases evs t' := by
      intro t'
      rw [phases_ended]
      exact ite_eq_or_eq _ _ _
    refine ⟨hun.sent, fun t' rid h => ?_, fun t' rid h => ?_, fun v s rid h => ?_, hun.net⟩
    · rcases hphase t' with heq | heq <;> rw [heq] at h
      · cases h
      · exact hun.hinting t' rid h
    · rcases hphase t' with heq | heq <;> rw [heq] at h
      · cases h
      · refine ⟨(hun.named t' rid h).1, fun t'' h'' => ?_⟩
        rcases hphase t'' with heq' | heq' <;> rw [heq'] at h''
        · cases h''
        · exact (hun.named t' rid h).2 t'' h''
    · rcases hphase (.incoming v s) with heq | heq <;> rw [heq] at h
      · cases h
      · exact hun.holding v s rid h
  case arrived =>
    intro evs w e r w' hun _ harr _ _
    have hhint : ∀ {t rid}, (phases (.arrived e :: evs) t).hintName = some rid →
        (phases evs t).hintName = some rid := fun h => tells_arrived Phase.hintName Phase.hintName_begun h
    refine ⟨?_, fun t rid h => ?_, fun t rid h => ?_, fun v s rid h => ?_, fun p hp rid h => ?_⟩
    · rw [drawn_arrive harr]
      exact hun.sent
    · rw [drawn_arrive harr]
      exact hun.hinting t rid (hhint h)
    · have hname := hun.named t rid (tells_arrived Phase.name (fun hb => (Phase.name_begun hb).1) h)
      exact ⟨hname.1, fun t' h' => hname.2 t' (hhint h')⟩
    · rcases phases_arrived evs e (.incoming v s) with heq | ⟨g, hbegun, hg⟩
      · rw [heq] at h
        exact hun.holding v s rid h
      · rw [hg] at h
        obtain ⟨p, rfl, rfl, rfl, rfl⟩ := Phase.incoming_begun hbegun
        rw [Phase.holds_ofIncoming] at h
        exact hun.net p (mem_net_of_deliver harr) rid h
    · rcases net_arrive harr hp with hp | ⟨src, dst, msg, -, hext, rfl⟩
      · exact hun.net p hp rid h
      · rw [show (⟨w.serial, src, dst, msg⟩ : Packet).msg.asks = none from (asks_of_external hext).1] at h
        cases h
  case init =>
    refine ⟨fun rid h => absurd rfl h, fun t rid h => ?_, fun t rid h => ?_, fun v s rid h => ?_,
      fun p hp => ?_⟩
    · cases h
    · cases h
    · cases h
    · rw [hw.net] at hp
      cases hp

/-! ## Serial numbers -/

/-- No two packets on their way have one serial number. -/
structure Serials (w : World hash) : Prop where
  nodup : (w.net.map Packet.serial).Nodup
  lt : ∀ p ∈ w.net, p.serial < w.serial

theorem Serials.eq {w : World hash} (hs : Serials w) {p q : Packet} (hp : p ∈ w.net)
    (hq : q ∈ w.net) (h : p.serial = q.serial) : p = q :=
  List.inj_on_of_nodup_map hs.nodup hp hq h

theorem Serials.post {w : World hash} (hs : Serials w) (src dst : Uuid) (msg : Msg) :
    Serials (w.post src dst msg) := by
  refine ⟨List.nodup_cons.2 ⟨fun h => ?_, hs.nodup⟩, fun p hp => ?_⟩
  · obtain ⟨p, hp, hserial⟩ := List.mem_map.1 h
    have hlt := hs.lt p hp
    simp at hserial
    omega
  · show p.serial < w.serial + 1
    rcases List.mem_cons.1 hp with rfl | hp
    · exact Nat.lt_succ_self _
    · exact Nat.lt_succ_of_lt (hs.lt p hp)

theorem Serials.erase {w : World hash} (hs : Serials w) (p : Packet) :
    Serials { w with net := w.net.erase p } :=
  ⟨hs.nodup.sublist (List.erase_sublist.map _), fun q hq => hs.lt q (List.mem_of_mem_erase hq)⟩

theorem serials {D : Discipline (cluster hash)} {w₀ : World hash} (hw : w₀.Settled)
    {evs : History hash} {c : Config (cluster hash)}
    (hrun : Run (cluster hash) D (quiet w₀) evs c) : Serials c.state := by
  refine (cluster_invariant (fun _ w => Serials w) ?did ?ended ?arrived ?init hrun).1
  case did =>
    intro evs w t o c a hs _ _ _ _
    cases o with
    | send u m =>
      cases a with
      | true => exact hs.post _ _ _
      | false => exact ⟨hs.nodup, hs.lt⟩
    | _ => exact ⟨hs.nodup, hs.lt⟩
  case ended =>
    intro evs w t hs
    exact hs
  case arrived =>
    intro evs w e r w' hs _ harr _ _
    unfold arrive at harr
    cases e with
    | request client msg =>
      simp only at harr
      split at harr <;> cases harr
      · exact hs
      · exact ⟨hs.nodup, fun p hp => Nat.lt_succ_of_lt (hs.lt p hp)⟩
    | take q =>
      simp only at harr
      split at harr <;> cases harr
      exact ⟨hs.nodup, hs.lt⟩
    | deliver p =>
      simp only at harr
      split at harr <;> cases harr
      exact hs.erase p
    | lose p =>
      simp only at harr
      split at harr <;> cases harr
      exact hs.erase p
    | message src dst msg =>
      simp only at harr
      split at harr <;> cases harr
      exact hs.post _ _ _
    | _ =>
      cases harr
      exact ⟨hs.nodup, hs.lt⟩
  case init =>
    refine ⟨?_, fun p hp => ?_⟩
    · rw [hw.net]
      exact List.nodup_nil
    · rw [hw.net] at hp
      cases hp

/-! ## Where the copies are -/

/-- Where the copy that a server has been sent is: not sent, on its way, with a task of the server, the
answer on its way, with a task of the peer that counts it, or counted. -/
inductive Stage where
  | out
  | sent (serial : ℕ)
  | held (serial : ℕ)
  | replied (serial : ℕ)
  | counting (peer : Uuid) (serial : ℕ)
  | counted

/-- Two distinct servers have answered. -/
def Quorum (evs : History hash) (rid : String) : Prop :=
  ∃ C : Finset Uuid, 2 ≤ C.card ∧ ∀ v ∈ C, v ∈ targets rid evs ∧ ∃ x, Replied evs rid v x

/-- `own` tells where the copy of every server is, and the answers collected are those counted. -/
structure Tracks (rid : String) (own : Uuid → Stage) (evs : History hash) (w : World hash) :
    Prop where
  started : ∀ v, own v ≠ .out → v ∈ targets rid evs
  query : ∀ p ∈ w.net, p.msg.asks = some rid → own p.dst = .sent p.serial
  holding : ∀ v s, (phases evs (.incoming v s)).holds = some rid → own v = .held s
  answer : ∀ p ∈ w.net, ∀ x, p.msg.answers = some (rid, x) →
    own p.src = .replied p.serial ∧ Replied evs rid p.src x
  counting : ∀ u s x, (phases evs (.incoming u s)).counts = some (rid, x) →
    ∃ v, own v = .counting u s ∧ Replied evs rid v x
  counted : ∀ u q, (w.node u).inFlight.find? rid = some q →
    q.needed = 2 ∧ (rid ∈ (w.node u).fired → 2 ≤ q.received) ∧
      ∃ C : Finset Uuid, C.card = q.received ∧ (∀ v, v ∈ C ↔ own v = .counted) ∧
        ∀ v ∈ C, ∃ x, Replied evs rid v x ∧ ∀ l, x = some l → l ∈ q.lists
  fired : ∀ u, rid ∈ (w.node u).fired → Quorum evs rid

/-- The copies of a request that is sent to no server twice. -/
def Tracked (rid : String) (evs : History hash) (w : World hash) : Prop :=
  (targets rid evs).Nodup → ∃ own, Tracks rid own evs w

theorem Quorum.cons {evs : History hash} {rid : String} (h : Quorum evs rid)
    (ev : Event (cluster hash)) : Quorum (ev :: evs) rid := by
  obtain ⟨C, hcard, hC⟩ := h
  refine ⟨C, hcard, fun v hv => ?_⟩
  obtain ⟨hv, x, hx⟩ := hC v hv
  exact ⟨targets_subset rid ev evs hv, x, hx.cons ev⟩

theorem Msg.answers_of_asks {m : Msg} {rid : String} (h : m.asks = some rid) : m.answers = none := by
  cases m <;> first
    | rfl
    | cases h

section Steps

variable {rid : String} {own : Uuid → Stage} {evs : History hash} {w w' : World hash}
  {ev : Event (cluster hash)}

/-- What a step keeps of the requests in flight when it answers none of them. -/
structure KeepsCount (rid : String) (w w' : World hash) : Prop where
  inFlight : ∀ u q, (w'.node u).inFlight.find? rid = some q →
    ∃ q₀, (w.node u).inFlight.find? rid = some q₀ ∧ q.needed = q₀.needed ∧ q.lists = q₀.lists ∧
      q.received = q₀.received
  fired : ∀ u, rid ∈ (w'.node u).fired → rid ∈ (w.node u).fired

/-- Moving one copy on, without counting it, or moving none. -/
theorem Tracks.move (htr : Tracks rid own evs w) {own' : Uuid → Stage}
    (hstarted : ∀ v, own' v ≠ .out → v ∈ targets rid (ev :: evs))
    (hquery : ∀ p ∈ w'.net, p.msg.asks = some rid → own' p.dst = .sent p.serial)
    (hholding : ∀ v s, (phases (ev :: evs) (.incoming v s)).holds = some rid → own' v = .held s)
    (hanswer : ∀ p ∈ w'.net, ∀ x, p.msg.answers = some (rid, x) →
      own' p.src = .replied p.serial ∧ Replied (ev :: evs) rid p.src x)
    (hcounting : ∀ u s x, (phases (ev :: evs) (.incoming u s)).counts = some (rid, x) →
      ∃ v, own' v = .counting u s ∧ Replied (ev :: evs) rid v x)
    (hcounted : ∀ v, own' v = .counted ↔ own v = .counted) (hkeep : KeepsCount rid w w') :
    Tracks rid own' (ev :: evs) w' := by
  refine ⟨hstarted, hquery, hholding, hanswer, hcounting, fun u q hq => ?_, fun u h => ?_⟩
  · obtain ⟨q₀, hq₀, hneeded, hlists, hreceived⟩ := hkeep.inFlight u q hq
    obtain ⟨hn, hf, C, hcard, hC, hreplied⟩ := htr.counted u q₀ hq₀
    refine ⟨hneeded.trans hn, fun h => hreceived ▸ hf (hkeep.fired u h), C, hcard.trans hreceived.symm,
      fun v => (hC v).trans (hcounted v).symm, fun v hv => ?_⟩
    obtain ⟨x, hx, hmem⟩ := hreplied v hv
    exact ⟨x, hx.cons ev, fun l hl => by rw [hlists]; exact hmem l hl⟩
  · exact (htr.fired u (hkeep.fired u h)).cons ev

/-- A step that moves no copy. -/
theorem Tracks.keep (htr : Tracks rid own evs w)
    (hnet : ∀ p ∈ w'.net, (p.msg.asks = some rid ∨ ∃ x, p.msg.answers = some (rid, x)) → p ∈ w.net)
    (hholds : ∀ v s, (phases (ev :: evs) (.incoming v s)).holds = some rid →
      (phases evs (.incoming v s)).holds = some rid)
    (hcounts : ∀ v s x, (phases (ev :: evs) (.incoming v s)).counts = some (rid, x) →
      (phases evs (.incoming v s)).counts = some (rid, x))
    (hkeep : KeepsCount rid w w') : Tracks rid own (ev :: evs) w' := by
  refine htr.move (fun v hv => targets_subset _ _ _ (htr.started v hv))
    (fun p hp hm => htr.query p (hnet p hp (Or.inl hm)) hm) (fun v s h => htr.holding v s (hholds v s h))
    (fun p hp x hm => ?_) (fun u s x h => ?_) (fun v => Iff.rfl) hkeep
  · obtain ⟨hown, hx⟩ := htr.answer p (hnet p hp (Or.inr ⟨x, hm⟩)) x hm
    exact ⟨hown, hx.cons ev⟩
  · obtain ⟨v, hown, hx⟩ := htr.counting u s x (hcounts u s x h)
    exact ⟨v, hown, hx.cons ev⟩

end Steps

/-- An operation that neither opens the request nor answers it. -/
theorem keepsCount_did {rid : String} {t : Tid} {o : Op} (a : Ans o) (w : World hash)
    (hans : answerTo rid o = none) (hins : ∀ q, o ≠ .insertInFlight rid q) :
    KeepsCount rid w (effect t o a w) := by
  refine ⟨fun u q hq => ?_, fun u h => ?_⟩
  · rcases inFlight_effect hq with ⟨-, ho⟩ | ⟨q₀, hq₀, ⟨-, hn, hsame⟩ | ⟨-, rfl⟩⟩
    · exact absurd ho (hins q)
    · rw [hans] at hsame
      exact ⟨q₀, hq₀, hn, hsame.1, hsame.2⟩
    · exact ⟨q, hq₀, rfl, rfl, rfl⟩
  · rcases fired_effect h with h | ⟨ls, q, -, hsome, -⟩
    · exact h
    · rw [hans] at hsome
      cases hsome

section Did

variable {rid : String} {own : Uuid → Stage} {evs : History hash} {w : World hash} {t : Tid} {o : Op}
  {c : Choice} {a : Ans o}

theorem holds_did (hallow : (phases evs t).allow o) {v : Uuid} {s : ℕ}
    (h : (phases (.did t o a :: evs) (.incoming v s)).holds = some rid) :
    (phases evs (.incoming v s)).holds = some rid := by
  rw [phases_did] at h
  split at h
  · rename_i ht
    rw [ht]
    exact Phase.holds_next hallow h
  · exact h

theorem counts_did (hallow : (phases evs t).allow o) {v : Uuid} {s : ℕ}
    {x : String × Option ShoppingList}
    (h : (phases (.did t o a :: evs) (.incoming v s)).counts = some x) :
    (phases evs (.incoming v s)).counts = some x := by
  rw [phases_did] at h
  split at h
  · rename_i ht
    rw [ht]
    exact (Phase.counts_next hallow h).1
  · exact h

/-- A query goes out to a server that has not been sent one. -/
theorem tracks_query (htr : Tracks rid own evs w) {v : Uuid} {m : Msg} (hm : m.asks = some rid)
    (hallow : (phases evs t).allow (.send v m)) (hnew : v ∉ targets rid evs) :
    Tracks rid (Function.update own v (.sent w.serial)) (.did t (.send v m) true :: evs)
      (effect t (.send v m) true w) := by
  have hout : own v = .out := by
    by_contra h
    exact hnew (htr.started v h)
  have hother : ∀ {x}, own x ≠ .out → Function.update own v (.sent w.serial) x = own x := by
    intro x hx
    refine Function.update_of_ne ?_ _ _
    rintro rfl
    exact hx hout
  refine htr.move ?started ?query ?holding ?answer ?counting ?counted
    (keepsCount_did (o := .send v m) true w rfl fun q h => by cases h)
  case started =>
    intro x hx
    by_cases hxv : x = v
    · subst hxv
      rw [targets_cons]
      simp [asked, hm]
    · rw [Function.update_of_ne hxv] at hx
      exact targets_subset _ _ _ (htr.started x hx)
  case query =>
    intro p hp hpm
    rcases mem_net_effect hp with hp | ⟨u, m', rfl, hev⟩
    · have hown := htr.query p hp hpm
      rw [hother (by rw [hown]; exact Stage.noConfusion), hown]
    · cases hev
      exact Function.update_self _ _ _
  case holding =>
    intro x s h
    have hown := htr.holding x s (holds_did hallow h)
    rw [hother (by rw [hown]; exact Stage.noConfusion), hown]
  case answer =>
    intro p hp x hpm
    rcases mem_net_effect hp with hp | ⟨u, m', rfl, hev⟩
    · obtain ⟨hown, hx⟩ := htr.answer p hp x hpm
      exact ⟨by rw [hother (by rw [hown]; exact Stage.noConfusion), hown], hx.cons _⟩
    · cases hev
      rw [show (⟨w.serial, t.peer, v, m⟩ : Packet).msg.answers = none from
        Msg.answers_of_asks hm] at hpm
      cases hpm
  case counting =>
    intro u s x h
    obtain ⟨y, hown, hx⟩ := htr.counting u s x (counts_did hallow h)
    exact ⟨y, by rw [hother (by rw [hown]; exact Stage.noConfusion), hown], hx.cons _⟩
  case counted =>
    intro x
    by_cases hxv : x = v
    · subst hxv
      simp [hout]
    · rw [Function.update_of_ne hxv]

/-- An answer goes out from the task that had the query in hand. -/
theorem tracks_answer (htr : Tracks rid own evs w) (hfit : (phases evs t).Fits t) {u : Uuid} {m : Msg}
    {x : Option ShoppingList} (hm : m.answers = some (rid, x))
    (hallow : (phases evs t).allow (.send u m)) :
    Tracks rid (Function.update own t.peer (.replied w.serial)) (.did t (.send u m) true :: evs)
      (effect t (.send u m) true w) := by
  obtain ⟨hholds, hidle⟩ := @Phase.answers_of_allow hash _ _ _ hallow _ _ hm true
  obtain ⟨s, ht⟩ : ∃ s, t = .incoming t.peer s := by
    cases hg : phases evs t <;> rw [hg] at hholds hfit <;> first
      | exact hfit
      | cases hholds
  generalize t.peer = v at ht
  subst ht
  have hheld : own v = .held s := htr.holding v s hholds
  have hother : ∀ {y}, own y ≠ .held s → Function.update own v (.replied w.serial) y = own y := by
    intro y hy
    refine Function.update_of_ne ?_ _ _
    rintro rfl
    exact hy hheld
  have hreplied : Replied (.did (.incoming v s) (.send u m) true :: evs) rid v x :=
    ⟨s, u, m, List.mem_cons_self, hm⟩
  refine htr.move ?started ?query ?holding ?answer ?counting ?counted
    (keepsCount_did (o := .send u m) true w rfl fun q h => by cases h)
  case started =>
    intro y hy
    refine targets_subset _ _ _ (htr.started y ?_)
    by_cases hyv : y = v
    · subst hyv
      rw [hheld]
      exact Stage.noConfusion
    · rwa [Function.update_of_ne hyv] at hy
  case query =>
    intro p hp hpm
    rcases mem_net_effect hp with hp | ⟨u', m', rfl, hev⟩
    · have hown := htr.query p hp hpm
      rw [hother (by rw [hown]; exact Stage.noConfusion), hown]
    · cases hev
      have hnone := Msg.answers_of_asks hpm
      rw [hm] at hnone
      cases hnone
  case holding =>
    intro y s' h
    have hne : Tid.incoming y s' ≠ .incoming v s := by
      intro heq
      rw [heq, phases_did, if_pos rfl, hidle] at h
      cases h
    have hown := htr.holding y s' (holds_did hallow h)
    have hyv : y ≠ v := by
      rintro rfl
      rw [hheld] at hown
      obtain rfl := Stage.held.inj hown
      exact hne rfl
    rw [Function.update_of_ne hyv, hown]
  case answer =>
    intro p hp x' hpm
    rcases mem_net_effect hp with hp | ⟨u', m', rfl, hev⟩
    · obtain ⟨hown, hx⟩ := htr.answer p hp x' hpm
      exact ⟨by rw [hother (by rw [hown]; exact Stage.noConfusion), hown], hx.cons _⟩
    · cases hev
      rw [show (⟨w.serial, v, u, m⟩ : Packet).msg.answers = some (rid, x) from hm] at hpm
      cases hpm
      exact ⟨Function.update_self _ _ _, hreplied⟩
  case counting =>
    intro u' s' x' h
    obtain ⟨y, hown, hx⟩ := htr.counting u' s' x' (counts_did hallow h)
    exact ⟨y, by rw [hother (by rw [hown]; exact Stage.noConfusion), hown], hx.cons _⟩
  case counted =>
    intro y
    by_cases hyv : y = v
    · subst hyv
      simp [hheld]
    · rw [Function.update_of_ne hyv]

/-- An answer is counted. -/
theorem tracks_count (htr : Tracks rid own evs w) (hreg : Registered evs w)
    (hfit : (phases evs t).Fits t) {x : Option ShoppingList}
    (hcounts : (phases evs t).counts = some (rid, x)) (hans : answerTo rid o = some x.toList)
    (hallow : (phases evs t).allow o) (hidle : (phases evs t).next hash o a = .idle) :
    ∃ own', Tracks rid own' (.did t o a :: evs) (effect t o a w) := by
  obtain ⟨s, ht⟩ := incoming_of_counts hfit hcounts
  obtain ⟨v, hown, hreplied⟩ := htr.counting t.peer s x (by rw [← ht]; exact hcounts)
  have hins : ∀ q, o ≠ .insertInFlight rid q := by
    rintro q rfl
    cases hans
  have hsend : ∀ u m, o ≠ .send u m := by
    rintro u m rfl
    cases hans
  have hnet : ∀ p ∈ (effect t o a w).net, p ∈ w.net := by
    intro p hp
    rcases mem_net_effect hp with hp | ⟨u, m, -, hev⟩
    · exact hp
    · cases hev
      exact absurd rfl (hsend u m)
  have hcounted : own v ≠ .counted := by
    rw [hown]
    exact Stage.noConfusion
  -- the copy is counted where the request is in flight, and dropped where it is not
  let stage : Stage := if (w.node t.peer).inFlight.find? rid = none then .out else .counted
  have hother : ∀ {y}, own y ≠ .counting t.peer s → Function.update own v stage y = own y := by
    intro y hy
    refine Function.update_of_ne ?_ _ _
    rintro rfl
    exact hy hown
  have hstarted : ∀ y, Function.update own v stage y ≠ .out →
      y ∈ targets rid (.did t o a :: evs) := by
    intro y hy
    refine targets_subset _ _ _ (htr.started y ?_)
    by_cases hyv : y = v
    · subst hyv
      rw [hown]
      exact Stage.noConfusion
    · rwa [Function.update_of_ne hyv] at hy
  have hentry : ∀ u q, ((effect t o a w).node u).inFlight.find? rid = some q →
      q.needed = 2 ∧ ∃ C : Finset Uuid, C.card = q.received ∧
        (∀ y, y ∈ C ↔ Function.update own v stage y = .counted) ∧
        (∀ y ∈ C, ∃ x, Replied (.did t o a :: evs) rid y x ∧ ∀ l, x = some l → l ∈ q.lists) ∧
        (rid ∈ (w.node u).fired → 2 ≤ q.received) := by
    intro u q hq
    rcases inFlight_effect hq with ⟨-, ho⟩ | ⟨q₀, hq₀, hq⟩
    · exact absurd ho (hins q)
    obtain ⟨hn, hf, C, hcard, hC, hCr⟩ := htr.counted u q₀ hq₀
    have hv : v ∉ C := fun h => hcounted ((hC v).1 h)
    rcases hq with ⟨rfl, hn', hq⟩ | ⟨hu, rfl⟩
    · -- the request in flight: one more
      rw [hans] at hq
      have hstage : stage = .counted := if_neg (by rw [hq₀]; exact Option.some_ne_none _)
      refine ⟨hn'.trans hn, insert v C, ?_, fun y => ?_, fun y hy => ?_, fun h => ?_⟩
      · rw [Finset.card_insert_of_notMem hv, hcard, hq.2]
      · rw [Finset.mem_insert, hC]
        by_cases hyv : y = v
        · subst hyv
          simp [hstage]
        · rw [Function.update_of_ne hyv]
          simp [hyv]
      · rcases Finset.mem_insert.1 hy with rfl | hy
        · refine ⟨x, hreplied.cons _, ?_⟩
          rintro l rfl
          rw [hq.1]
          exact List.mem_append_right _ (List.mem_singleton_self l)
        · obtain ⟨x', hx', hmem⟩ := hCr y hy
          refine ⟨x', hx'.cons _, fun l hl => ?_⟩
          rw [hq.1]
          exact List.mem_append_left _ (hmem l hl)
      · have := hf h
        omega
    · -- another peer cannot have it in flight as well
      have hstage : stage ≠ .counted := by
        by_cases hnone : (w.node t.peer).inFlight.find? rid = none
        · simp [stage, hnone]
        · obtain ⟨q', hq'⟩ := Option.ne_none_iff_exists'.1 hnone
          obtain ⟨l, -, hopen⟩ := hreg.inFlight u rid q hq₀
          obtain ⟨l', -, hopen'⟩ := hreg.inFlight t.peer rid q' hq'
          rw [hopen] at hopen'
          exact absurd (Prod.mk.inj (List.cons.inj hopen').1).1 hu
      refine ⟨hn, C, hcard, fun y => ?_, fun y hy => ?_, hf⟩
      · rw [hC]
        by_cases hyv : y = v
        · subst hyv
          simp [hcounted, hstage]
        · rw [Function.update_of_ne hyv]
      · obtain ⟨x', hx', hmem⟩ := hCr y hy
        exact ⟨x', hx'.cons _, hmem⟩
  have hquorum : ∀ u, rid ∈ ((effect t o a w).node u).fired → rid ∈ (w.node u).fired ∨
      ∃ q, ((effect t o a w).node u).inFlight.find? rid = some q ∧ 2 ≤ q.received := by
    intro u h
    rcases fired_effect h with h | ⟨ls, q, -, -, hq, hle⟩
    · exact Or.inl h
    · exact Or.inr ⟨q, hq, by rw [← (hentry u q hq).1]; exact hle⟩
  refine ⟨Function.update own v stage, hstarted, ?query, ?holding, ?answer, ?counting, ?counted,
    ?fired⟩
  case query =>
    intro p hp hm
    have h := htr.query p (hnet p hp) hm
    rw [hother (by rw [h]; exact Stage.noConfusion), h]
  case holding =>
    intro y s' h
    have h := htr.holding y s' (holds_did hallow h)
    rw [hother (by rw [h]; exact Stage.noConfusion), h]
  case answer =>
    intro p hp x' hm
    obtain ⟨h, hx'⟩ := htr.answer p (hnet p hp) x' hm
    exact ⟨by rw [hother (by rw [h]; exact Stage.noConfusion), h], hx'.cons _⟩
  case counting =>
    intro u s' x' h
    have hne : Tid.incoming u s' ≠ t := by
      rintro rfl
      rw [phases_did, if_pos rfl, hidle] at h
      cases h
    obtain ⟨y, h, hx'⟩ := htr.counting u s' x' (counts_did hallow h)
    refine ⟨y, ?_, hx'.cons _⟩
    rw [hother, h]
    rw [h, ht]
    intro heq
    obtain ⟨rfl, rfl⟩ := Stage.counting.inj heq
    exact hne ht.symm
  case counted =>
    intro u q hq
    obtain ⟨hn, C, hcard, hC, hCr, hf⟩ := hentry u q hq
    refine ⟨hn, fun h => ?_, C, hcard, hC, hCr⟩
    rcases hquorum u h with h | ⟨q', hq', hle⟩
    · exact hf h
    · rw [hq] at hq'
      rwa [Option.some.inj hq']
  case fired =>
    intro u h
    rcases hquorum u h with h | ⟨q, hq, hle⟩
    · exact (htr.fired u h).cons _
    · obtain ⟨-, C, hcard, hC, hCr, -⟩ := hentry u q hq
      refine ⟨C, by omega, fun y hy => ⟨hstarted y ?_, ?_⟩⟩
      · rw [(hC y).1 hy]
        exact Stage.noConfusion
      · obtain ⟨x', hx', -⟩ := hCr y hy
        exact ⟨x', hx'⟩

/-- The request is put in flight: nothing has been sent for it yet. -/
theorem tracks_open (htr : Tracks rid own evs w) (hreg : Registered evs w) (hun : Unused evs w)
    {q : QuoromState} (hallow : (phases evs t).allow (.insertInFlight rid q)) :
    Tracks rid own (.did t (.insertInFlight rid q) () :: evs)
      (effect t (.insertInFlight rid q) () w) := by
  have hname : (phases evs t).name = some rid := by
    obtain ⟨job, replicas, hg, -⟩ := hallow
    rw [hg]
    rfl
  have hnone : targets rid evs = [] := (hun.named t rid hname).1
  have hout : ∀ v, own v = .out := by
    intro v
    by_contra h
    have hv := htr.started v h
    rw [hnone] at hv
    exact List.not_mem_nil hv
  have hfired : ∀ u, rid ∉ ((effect t (.insertInFlight rid q) () w).node u).fired := by
    intro u h
    rcases fired_effect (o := .insertInFlight rid q) h with h | ⟨ls, q, -, hans, -⟩
    · obtain ⟨C, hcard, hC⟩ := htr.fired u h
      obtain ⟨v, hv⟩ := Finset.card_pos.1 (by omega : 0 < C.card)
      have hmem := (hC v hv).1
      rw [hnone] at hmem
      exact List.not_mem_nil hmem
    · cases hans
  have hnet : ∀ p ∈ (effect t (.insertInFlight rid q) () w).net, p ∈ w.net := fun p hp => hp
  refine ⟨fun v hv => absurd (hout v) hv, fun p hp => htr.query p (hnet p hp),
    fun v s h => htr.holding v s (holds_did (o := .insertInFlight rid q) hallow h),
    fun p hp x hm => ?_, fun u s x h => ?_, fun u q' hq' => ?_, fun u h => absurd h (hfired u)⟩
  · obtain ⟨hown, hx⟩ := htr.answer p (hnet p hp) x hm
    exact ⟨hown, hx.cons _⟩
  · obtain ⟨v, hown, -⟩ := htr.counting u s x (counts_did (o := .insertInFlight rid q) hallow h)
    rw [hout v] at hown
    cases hown
  · rcases inFlight_effect (o := .insertInFlight rid q) hq' with ⟨-, ho⟩ | ⟨q₀, hq₀, -⟩
    · obtain ⟨-, rfl⟩ := Op.insertInFlight.inj ho
      obtain ⟨job, replicas, -, rfl⟩ := hallow
      refine ⟨rfl, fun h => absurd h (hfired u), ∅, rfl, fun v => ?_, fun v hv => ?_⟩
      · simp [hout]
      · exact absurd hv (Finset.notMem_empty v)
    · obtain ⟨l, -, hopen⟩ := hreg.inFlight u rid q₀ hq₀
      rw [(hreg.named t rid hname).1] at hopen
      cases hopen

/-- **What an operation does to the copies of a request.** -/
theorem tracked_did (htr : Tracked rid evs w) (hreg : Registered evs w) (hun : Unused evs w)
    (hfit : (phases evs t).Fits t) (hallow : (phases evs t).allow o) :
    Tracked rid (.did t o a :: evs) (effect t o a w) := by
  intro hnodup
  rw [targets_cons] at hnodup
  obtain ⟨own, htr⟩ := htr hnodup.of_append_right
  by_cases hquery : ∃ v m, m.asks = some rid ∧
      (.did t o a : Event (cluster hash)) = .did t (.send v m) true
  · obtain ⟨v, m, hm, hev⟩ := hquery
    cases hev
    refine ⟨_, tracks_query htr hm hallow fun hv => ?_⟩
    rw [show asked rid (.did t (.send v m) true : Event (cluster hash)) = some v from if_pos hm]
      at hnodup
    exact (List.nodup_cons.1 hnodup).1 hv
  by_cases hanswer : ∃ v m x, m.answers = some (rid, x) ∧
      (.did t o a : Event (cluster hash)) = .did t (.send v m) true
  · obtain ⟨v, m, x, hm, hev⟩ := hanswer
    cases hev
    exact ⟨_, tracks_answer htr hfit hm hallow⟩
  by_cases hins : ∃ q, o = .insertInFlight rid q
  · obtain ⟨q, rfl⟩ := hins
    exact ⟨own, tracks_open htr hreg hun hallow⟩
  cases hans : answerTo rid o with
  | none =>
    refine ⟨own, htr.keep (fun p hp hm => ?_) (fun v s => holds_did hallow)
      (fun v s x => counts_did hallow) (keepsCount_did a w hans fun q h => hins ⟨q, h⟩)⟩
    rcases mem_net_effect hp with hp | ⟨u, m, rfl, hev⟩
    · exact hp
    · rcases hm with hm | ⟨x, hm⟩
      · exact absurd ⟨u, m, hm, hev⟩ hquery
      · exact absurd ⟨u, m, x, hm, hev⟩ hanswer
  | some ls =>
    cases o with
    | ack r =>
      simp only [answerTo, Option.ite_none_right_eq_some, Option.some.injEq] at hans
      obtain ⟨rfl, rfl⟩ := hans
      have hg : phases evs t = .count r := hallow
      refine tracks_count (x := none) htr hreg hfit ?_ (if_pos rfl) hallow rfl
      rw [hg]
      rfl
    | ackList r l =>
      simp only [answerTo, Option.ite_none_right_eq_some, Option.some.injEq] at hans
      obtain ⟨rfl, rfl⟩ := hans
      have hg : phases evs t = .countList r l := hallow
      refine tracks_count (x := some l) htr hreg hfit ?_ (if_pos rfl) hallow rfl
      rw [hg]
      rfl
    | _ => cases hans

end Did

section Arrived

variable {rid : String} {own : Uuid → Stage} {evs : History hash} {w : World hash} {p : Packet}

theorem holds_deliver {v : Uuid} {s : ℕ}
    (h : (phases (.arrived (.deliver p) :: evs) (.incoming v s)).holds = some rid) :
    p.dst = v ∧ p.serial = s ∧ p.msg.asks = some rid ∨
      (phases evs (.incoming v s)).holds = some rid := by
  rcases phases_arrived evs (.deliver p) (.incoming v s) with heq | ⟨g, hbegun, hg⟩
  · rw [heq] at h
    exact Or.inr h
  · rw [hg] at h
    obtain ⟨q, hq, hdst, hserial, rfl⟩ := Phase.incoming_begun hbegun
    cases hq
    rw [Phase.holds_ofIncoming] at h
    exact Or.inl ⟨hdst, hserial, h⟩

theorem counts_deliver {v : Uuid} {s : ℕ} {x : String × Option ShoppingList}
    (h : (phases (.arrived (.deliver p) :: evs) (.incoming v s)).counts = some x) :
    p.dst = v ∧ p.serial = s ∧ p.msg.answers = some x ∨
      (phases evs (.incoming v s)).counts = some x := by
  rcases phases_arrived evs (.deliver p) (.incoming v s) with heq | ⟨g, hbegun, hg⟩
  · rw [heq] at h
    exact Or.inr h
  · rw [hg] at h
    obtain ⟨q, hq, hdst, hserial, rfl⟩ := Phase.incoming_begun hbegun
    cases hq
    rw [Phase.counts_ofIncoming] at h
    exact Or.inl ⟨hdst, hserial, h⟩

/-- A packet that is still there is another one. -/
theorem Serials.of_mem_erase (hs : Serials w) (hp : p ∈ w.net) {q : Packet}
    (hq : q ∈ w.net.erase p) : q ∈ w.net ∧ q.serial ≠ p.serial := by
  refine ⟨List.mem_of_mem_erase hq, fun h => ?_⟩
  rw [hs.eq (List.mem_of_mem_erase hq) hp h] at hq
  exact (List.Nodup.of_map _ hs.nodup).not_mem_erase hq

theorem keepsCount_net (rid : String) (w : World hash) (net : List Packet) :
    KeepsCount rid w { w with net := net } :=
  ⟨fun _ q hq => ⟨q, hq, rfl, rfl, rfl⟩, fun _ h => h⟩

/-- A query is delivered: the copy is with a task now. -/
theorem tracks_deliver_query (htr : Tracks rid own evs w) (hs : Serials w) (hp : p ∈ w.net)
    (hasks : p.msg.asks = some rid) :
    Tracks rid (Function.update own p.dst (.held p.serial)) (.arrived (.deliver p) :: evs)
      { w with net := w.net.erase p } := by
  have hsent := htr.query p hp hasks
  have hother : ∀ {y}, own y ≠ .sent p.serial →
      Function.update own p.dst (.held p.serial) y = own y := by
    intro y hy
    refine Function.update_of_ne ?_ _ _
    rintro rfl
    exact hy hsent
  refine htr.move ?started ?query ?holding ?answer ?counting ?counted (keepsCount_net rid w _)
  case started =>
    intro y hy
    refine htr.started y ?_
    by_cases hyv : y = p.dst
    · rw [hyv, hsent]
      exact Stage.noConfusion
    · rwa [Function.update_of_ne hyv] at hy
  case query =>
    intro q hq hm
    obtain ⟨hq, hserial⟩ := hs.of_mem_erase hp hq
    have hown := htr.query q hq hm
    rw [hother, hown]
    rw [hown]
    exact fun h => hserial (Stage.sent.inj h)
  case holding =>
    intro v s h
    rcases holds_deliver h with ⟨rfl, rfl, -⟩ | h
    · exact Function.update_self _ _ _
    · have hown := htr.holding v s h
      rw [hother (by rw [hown]; exact Stage.noConfusion), hown]
  case answer =>
    intro q hq x hm
    obtain ⟨hown, hx⟩ := htr.answer q (List.mem_of_mem_erase hq) x hm
    exact ⟨by rw [hother (by rw [hown]; exact Stage.noConfusion), hown], hx.cons _⟩
  case counting =>
    intro u s x h
    rcases counts_deliver h with ⟨-, -, hm⟩ | h
    · rw [Msg.answers_of_asks hasks] at hm
      cases hm
    · obtain ⟨y, hown, hx⟩ := htr.counting u s x h
      exact ⟨y, by rw [hother (by rw [hown]; exact Stage.noConfusion), hown], hx.cons _⟩
  case counted =>
    intro y
    by_cases hyv : y = p.dst
    · subst hyv
      simp [hsent]
    · rw [Function.update_of_ne hyv]

/-- An answer is delivered: a task is going to count it. -/
theorem tracks_deliver_answer (htr : Tracks rid own evs w) (hs : Serials w) (hp : p ∈ w.net)
    {x : Option ShoppingList} (hm : p.msg.answers = some (rid, x)) :
    Tracks rid (Function.update own p.src (.counting p.dst p.serial))
      (.arrived (.deliver p) :: evs) { w with net := w.net.erase p } := by
  obtain ⟨hreplied, hx⟩ := htr.answer p hp x hm
  have hother : ∀ {y}, own y ≠ .replied p.serial →
      Function.update own p.src (.counting p.dst p.serial) y = own y := by
    intro y hy
    refine Function.update_of_ne ?_ _ _
    rintro rfl
    exact hy hreplied
  refine htr.move ?started ?query ?holding ?answer ?counting ?counted (keepsCount_net rid w _)
  case started =>
    intro y hy
    refine htr.started y ?_
    by_cases hyv : y = p.src
    · rw [hyv, hreplied]
      exact Stage.noConfusion
    · rwa [Function.update_of_ne hyv] at hy
  case query =>
    intro q hq hq'
    have hown := htr.query q (List.mem_of_mem_erase hq) hq'
    rw [hother (by rw [hown]; exact Stage.noConfusion), hown]
  case holding =>
    intro v s h
    rcases holds_deliver h with ⟨-, -, hasks⟩ | h
    · rw [Msg.answers_of_asks hasks] at hm
      cases hm
    · have hown := htr.holding v s h
      rw [hother (by rw [hown]; exact Stage.noConfusion), hown]
  case answer =>
    intro q hq x' hq'
    obtain ⟨hq, hserial⟩ := hs.of_mem_erase hp hq
    obtain ⟨hown, hx'⟩ := htr.answer q hq x' hq'
    refine ⟨?_, hx'.cons _⟩
    rw [hother, hown]
    rw [hown]
    exact fun h => hserial (Stage.replied.inj h)
  case counting =>
    intro u s x' h
    rcases counts_deliver h with ⟨rfl, rfl, hm'⟩ | h
    · rw [hm] at hm'
      cases hm'
      exact ⟨p.src, Function.update_self _ _ _, hx.cons _⟩
    · obtain ⟨y, hown, hx'⟩ := htr.counting u s x' h
      exact ⟨y, by rw [hother (by rw [hown]; exact Stage.noConfusion), hown], hx'.cons _⟩
  case counted =>
    intro y
    by_cases hyv : y = p.src
    · subst hyv
      simp [hreplied]
    · rw [Function.update_of_ne hyv]

/-- **What arrives keeps track of the copies of a request.** -/
theorem tracked_arrived (htr : Tracked rid evs w) (hs : Serials w) {e : Arrival}
    {r : Option (Tid × Code Unit)} {w' : World hash} (harr : arrive e w = some (r, w')) :
    Tracked rid (.arrived e :: evs) w' := by
  intro hnodup
  obtain ⟨own, htr⟩ := htr hnodup
  have hkeep : KeepsCount rid w w' := by
    refine ⟨fun u q hq => ?_, fun u h => ?_⟩
    · rw [node_arrive harr] at hq
      exact ⟨q, hq, rfl, rfl, rfl⟩
    · rwa [node_arrive harr] at h
  have hnet : ∀ q ∈ w'.net, (q.msg.asks = some rid ∨ ∃ x, q.msg.answers = some (rid, x)) →
      q ∈ w.net := by
    intro q hq hm
    rcases net_arrive harr hq with hq | ⟨src, dst, msg, -, hext, rfl⟩
    · exact hq
    · obtain ⟨hasks, hanswers⟩ := asks_of_external hext
      rcases hm with hm | ⟨x, hm⟩
      · exact absurd (hasks.symm.trans hm) (by simp)
      · exact absurd (hanswers.symm.trans hm) (by simp)
  have hstill : (∀ p, e ≠ .deliver p) → ∃ own, Tracks rid own (.arrived e :: evs) w' := by
    intro he
    have hphase : ∀ v s, phases (.arrived e :: evs) (.incoming v s) = phases evs (.incoming v s) := by
      intro v s
      refine phases_arrived_of_ne fun g hg => ?_
      obtain ⟨p, rfl, -⟩ := Phase.incoming_begun hg
      exact he p rfl
    refine ⟨own, htr.keep hnet (fun v s h => ?_) (fun v s x h => ?_) hkeep⟩
    · rwa [hphase] at h
    · rwa [hphase] at h
  cases e with
  | deliver p =>
    have hp := mem_net_of_deliver harr
    have hw' : w' = { w with net := w.net.erase p } := by
      simp only [arrive, if_pos hp, Option.some.injEq, Prod.mk.injEq] at harr
      exact harr.2.symm
    subst hw'
    by_cases hasks : p.msg.asks = some rid
    · exact ⟨_, tracks_deliver_query htr hs hp hasks⟩
    by_cases hanswers : ∃ x, p.msg.answers = some (rid, x)
    · obtain ⟨x, hm⟩ := hanswers
      exact ⟨_, tracks_deliver_answer htr hs hp hm⟩
    refine ⟨own, htr.keep hnet (fun v s h => ?_) (fun v s x h => ?_) hkeep⟩
    · exact (holds_deliver h).resolve_left fun h => hasks h.2.2
    · exact (counts_deliver h).resolve_left fun h => hanswers ⟨x, h.2.2⟩
  | _ => exact hstill fun p h => by cases h

end Arrived

/-- **Answers are counted once for each server**: in every run, for every request that is sent to no
server twice. -/
theorem copies {D : Discipline (cluster hash)} {w₀ : World hash} (hw : w₀.Settled)
    {evs : History hash} {c : Config (cluster hash)}
    (hrun : Run (cluster hash) D (quiet w₀) evs c) (rid : String) : Tracked rid evs c.state := by
  have hrun := hrun.with (fun evs w => Registered evs w ∧ Unused evs w ∧ Serials w)
    fun _ _ h => ⟨registered hw h, unused hw h, serials hw h⟩
  refine (cluster_invariant (Tracked rid) ?did ?ended ?arrived ?init hrun).1
  case did =>
    rintro evs w t o c a htr hfit hallow - ⟨-, hreg, hun, -⟩
    exact tracked_did htr hreg hun (hfit t) hallow
  case ended =>
    intro evs w t htr hnodup
    obtain ⟨own, htr⟩ := htr hnodup
    exact ⟨own, htr.keep (fun p hp _ => hp) (fun v s h => tells_ended Phase.holds rfl h)
      (fun v s x h => tells_ended Phase.counts rfl h)
      ⟨fun u q hq => ⟨q, hq, rfl, rfl, rfl⟩, fun u h => h⟩⟩
  case arrived =>
    rintro evs w e r w' htr - harr - ⟨-, -, -, hs⟩
    exact tracked_arrived htr hs harr
  case init =>
    intro _
    refine ⟨fun _ => .out, fun v hv => absurd rfl hv, fun p hp => ?_, fun v s h => (nomatch h),
      fun p hp => ?_, fun u s x h => (nomatch h), fun u q hq => ?_, fun u h => ?_⟩
    · rw [hw.net] at hp
      cases hp
    · rw [hw.net] at hp
      cases hp
    · rw [hw.inFlight] at hq
      simp at hq
    · rw [hw.fired] at h
      cases h

end Sdle
