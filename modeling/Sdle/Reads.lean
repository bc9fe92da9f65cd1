import Sdle.Membership
import Sdle.Quorum

/-!
# What a `GetList` returns and what it leaves behind (`server.rs`)

A coordinator with a row for the list reads from its replicas; one without a row turns the read into
a write of the client's list.  Here one `GetList` is handled and nothing else happens.

* `Reads` — what holds while the list is read, relative to what the servers held before.
* `quorum_read` — **a read is a quorum read and destroys nothing**, where the coordinator has a row,
  or the servers that the client's list is written to hold nothing beyond it.
-/

set_option autoImplicit false

namespace Sdle

open Tasks Peer ServerStorage

variable {hash : String → U128}

/-- What a server holds of a list: nothing counts as the empty list. -/
def Node.held (n : Node hash) (id : Uuid) : AWORMap :=
  ((n.storage.getShoppingList id).map ShoppingList.list).getD .new

/-- The replicas of a list, by the ring of a coordinator. -/
def Node.replicasOf (n : Node hash) (id : Uuid) : List Uuid :=
  (n.hashring.getPreferenceList hash id).drop 1

/-- A `GetList` with the list `c` is handled, and nothing else: no other request, no timer, no
message from outside, and no server joins or leaves. -/
def onlyRead (c : ShoppingList) : Discipline (cluster hash) := fun evs _ ev =>
  match ev with
  | .arrived (.request _ msg) => evs = [] ∧ msg = .getList c
  | .arrived (.take _) => True
  | .arrived (.deliver p) => p.msg.control = false
  | .arrived (.lose _) => True
  | .arrived _ => False
  | .did _ (.addNode _) _ => False
  | .did _ (.removeNode _) _ => False
  | _ => True

/-- A `Handoff` comes to a server that holds nothing beyond the list `c`. -/
def harmless (c : ShoppingList) : Discipline (cluster hash) := fun _ w ev =>
  match ev with
  | .did t (.writeShoppingListHandoff _ _) _ => (w.node t.peer).held c.id ≤ c.list
  | _ => True

/-- The coordinator has a row for the list, or it has enough replicas and they hold nothing beyond
the client's list. -/
def Prepared (w : World hash) (c : ShoppingList) (u : Uuid) : Prop :=
  ((w.node u).storage.getShoppingList c.id).isSome = true ∨
    READ_NODES ≤ ((w.node u).replicasOf c.id).length ∧
      ∀ v ∈ (w.node u).replicasOf c.id, (w.node v).held c.id ≤ c.list

/-- The list `l` dominates the client's list and what the coordinator and enough of its replicas
held. -/
def Quorate (w : World hash) (c : ShoppingList) (u : Uuid) (l : ShoppingList) : Prop :=
  c.list ≤ l.list ∧ (w.node u).held c.id ≤ l.list ∧
    ∃ C : Finset Uuid, READ_NODES ≤ C.card ∧
      ∀ v ∈ C, v ∈ (w.node u).replicasOf c.id ∧ (w.node v).held c.id ≤ l.list

/-! ## The invariant -/

section Defs

variable (w₀ : World hash) (c : ShoppingList)

/-- A request reads the list `c`.  It has found a row that dominates what was held, or none was held
and the list may be written. -/
def ReadJob (u : Uuid) (job : Job) : Prop :=
  job.list = c ∧
    match job.base with
    | some l => (w₀.node u).held c.id ≤ l.list
    | none => (w₀.node u).held c.id ≤ c.list ∧ READ_NODES ≤ ((w₀.node u).replicasOf c.id).length ∧
        ∀ v ∈ (w₀.node u).replicasOf c.id, (w₀.node v).held c.id ≤ c.list

/-- What holds of a message between the peers. -/
def InTransit (p : Packet) : Prop :=
  match p.msg with
  | .replicateList _ l write => l = c ∧ (write = true → (w₀.node p.dst).held c.id ≤ c.list)
  | .handoff _ l _ => l = c
  | .mergeList _ => False
  | .leave => False
  | _ => True

/-- What holds of the phase of a task of peer `u`. -/
def InStep (u : Uuid) : Phase → Prop
  | .store _ _ l => l = c ∧ (w₀.node u).held c.id ≤ c.list
  | .hint _ _ l _ => l = c
  | .ackTo _ _ => (w₀.node u).held c.id ≤ c.list
  | .look _ _ id => id = c.id
  | .ackListTo _ _ l => (w₀.node u).held c.id ≤ l.list
  | .asked _ l => l = c ∧ Prepared w₀ c u
  | .start job => ReadJob w₀ c u job
  | .chosen job replicas => ReadJob w₀ c u job ∧ replicas = (w₀.node u).replicasOf c.id
  | .named job replicas _ => ReadJob w₀ c u job ∧ replicas = (w₀.node u).replicasOf c.id
  | .spreading job replicas _ todo =>
    ReadJob w₀ c u job ∧ replicas = (w₀.node u).replicasOf c.id ∧ todo ⊆ replicas
  | .decided job _ _ => ReadJob w₀ c u job
  | .writing _ l => Quorate w₀ c u l
  | .answering _ l => Quorate w₀ c u l
  | .mergeIn _ | .mergeOut _ | .moving _ | .round | .hints _ | .hinting _ _ | .delivered _ _ _ => False
  | _ => True

/-- A read is sent to each replica once. -/
def SpreadOnce (evs : History hash) (replicas : List Uuid) : Phase → Prop
  | .spreading job _ rid todo => job.base ≠ none → todo.Nodup ∧ (targets rid evs).Nodup ∧
      ∀ v ∈ targets rid evs, v ∈ replicas ∧ v ∉ todo
  | .decided job rid _ => job.base ≠ none →
      (targets rid evs).Nodup ∧ ∀ v ∈ targets rid evs, v ∈ replicas
  | _ => True

/-- What holds while the list is read. -/
structure Reads (evs : History hash) (w : World hash) : Prop where
  fixed : w.proxyRing = w₀.proxyRing
  rings : ∀ u, (w.node u).hashring = (w₀.node u).hashring
  requests : ∀ r ∈ w.requests, r.msg = .getList c ∧ Prepared w₀ c r.peer
  rows : ∀ u l₀, (w₀.node u).storage.getShoppingList c.id = some l₀ →
    ∃ l, (w.node u).storage.getShoppingList c.id = some l ∧ l₀.list ≤ l.list
  net : ∀ p ∈ w.net, InTransit w₀ c p
  phases : ∀ t, InStep w₀ c t.peer (phases evs t)
  once : ∀ t, SpreadOnce evs ((w₀.node t.peer).replicasOf c.id) (Sdle.phases evs t)
  fired : ∀ t job rid, Sdle.phases evs t = .decided job rid true → rid ∈ (w.node t.peer).fired
  replied : ∀ rid v x, Replied evs rid v x →
    (w₀.node v).held c.id ≤ (x.getD c).list
  shown : ∀ t client rid l a, (.did t (.sendProxy client (.ackList rid l)) a : Event (cluster hash)) ∈ evs →
    Quorate w₀ c t.peer l

end Defs

theorem Node.held_le {n : Node hash} {id : Uuid} {s : AWORMap}
    (h : ∀ l, n.storage.getShoppingList id = some l → l.list ≤ s) : n.held id ≤ s := by
  unfold Node.held
  cases hl : n.storage.getShoppingList id with
  | none => exact AWORMap.new_le s
  | some l => exact h l hl

theorem Node.held_eq {n : Node hash} {id : Uuid} {l : ShoppingList}
    (h : n.storage.getShoppingList id = some l) : n.held id = l.list := by
  unfold Node.held
  rw [h]
  rfl

section Reads

variable {w₀ w : World hash} {c : ShoppingList} {evs : History hash}

/-- A row that is read dominates what was held. -/
theorem Reads.le_row (h : Reads w₀ c evs w) {u : Uuid} {l : ShoppingList}
    (hl : (w.node u).storage.getShoppingList c.id = some l) : (w₀.node u).held c.id ≤ l.list := by
  refine Node.held_le fun l₀ hl₀ => ?_
  obtain ⟨l', hl', hle⟩ := h.rows u l₀ hl₀
  rw [hl] at hl'
  rw [Option.some.inj hl']
  exact hle

/-- Nobody loses anything. -/
theorem Reads.held_le (h : Reads w₀ c evs w) (u : Uuid) :
    (w₀.node u).held c.id ≤ (w.node u).held c.id := by
  refine Node.held_le fun l₀ hl₀ => ?_
  obtain ⟨l, hl, hle⟩ := h.rows u l₀ hl₀
  rw [Node.held_eq hl]
  exact hle

/-! ## What a task does -/

/-- A list that is written without a row answers a read. -/
theorem quorate_of_write {u : Uuid} {job : Job} (hjob : ReadJob w₀ c u job) (hbase : job.base = none) :
    Quorate w₀ c u job.list := by
  obtain ⟨hlist, hrest⟩ := hjob
  rw [hbase] at hrest
  obtain ⟨hown, hlength, hreplicas⟩ := hrest
  rw [hlist]
  refine ⟨le_rfl, hown, ((w₀.node u).replicasOf c.id).toFinset, ?_, fun v hv => ?_⟩
  · have hnodup : ((w₀.node u).replicasOf c.id).Nodup :=
      (HashRing.nodup_getPreferenceList hash _ _).sublist (List.drop_sublist _ _)
    rw [List.toFinset_card_of_nodup hnodup]
    exact hlength
  · have hv := List.mem_toFinset.1 hv
    exact ⟨hv, hreplicas v hv⟩

/-- The lists that a coordinator has collected dominate what its replicas held. -/
theorem quorate_of_counted (hreads : Reads w₀ c evs w) (hreg : Registered evs w) {rid : String}
    (htr : Tracked rid evs w) {t : Tid} {job : Job} (hphase : phases evs t = .decided job rid true)
    {l s : ShoppingList} (hbase : job.base = some l) {q : QuoromState}
    (hq : (w.node t.peer).inFlight.find? rid = some q) (hs : q.mergeLists = some s) :
    Quorate w₀ c t.peer { l with list := l.list.merge s.list } := by
  obtain ⟨hlist, hrest⟩ : ReadJob w₀ c t.peer job := by
    have hstep := hreads.phases t
    rw [hphase] at hstep
    exact hstep
  rw [hbase] at hrest
  obtain ⟨hnodup, hreplicas⟩ : (targets rid evs).Nodup ∧
      ∀ v ∈ targets rid evs, v ∈ (w₀.node t.peer).replicasOf c.id := by
    have honce := hreads.once t
    rw [hphase] at honce
    exact honce (by rw [hbase]; exact Option.some_ne_none l)
  have hle : ∀ x ∈ q.lists, x.list ≤ l.list.merge s.list := fun x hx =>
    le_trans (QuoromState.le_mergeLists hs x hx) (AWORMap.le_merge_right _ _)
  have hown : c.list ≤ l.list.merge s.list := by
    obtain ⟨x, hx, hopen⟩ := hreg.inFlight _ _ _ hq
    have hpending := hreg.pending t rid job.list (by rw [hphase]; rfl)
    rw [hopen] at hpending
    obtain rfl : x = job.list := (Prod.mk.inj (List.cons.inj hpending).1).2
    rw [← hlist]
    exact hle _ hx
  obtain ⟨own, htracks⟩ := htr hnodup
  obtain ⟨-, hreceived, C, hcard, hC, hreplied⟩ := htracks.counted _ _ hq
  refine ⟨hown, le_trans hrest (AWORMap.le_merge_left _ _), C, ?_, fun v hv => ⟨?_, ?_⟩⟩
  · rw [hcard]
    exact hreceived (hreads.fired t job rid hphase)
  · refine hreplicas v (htracks.started v ?_)
    rw [(hC v).1 hv]
    exact Stage.noConfusion
  · obtain ⟨x, hx, hmem⟩ := hreplied v hv
    have hheld := hreads.replied rid v x hx
    cases x with
    | none => exact le_trans hheld hown
    | some x => exact le_trans hheld (hle x (hmem x rfl))

variable {t : Tid} {o : Op} {ch : Choice} {a : Ans o}

/-- **What a task has in hand next.** -/
theorem inStep_next (hreads : Reads w₀ c evs w) (hreg : Registered evs w)
    (htr : ∀ rid, Tracked rid evs w) (hallow : (phases evs t).allow o)
    (ha : answer t o ch w = some a) (hD : harmless c evs w (.did t o a)) :
    InStep w₀ c t.peer ((phases evs t).next hash o a) := by
  have hok := hreads.phases t
  have hgo : Phase.Goes hash (phases evs t) o a ((phases evs t).next hash o a) :=
    Phase.goes_next hallow
  generalize (phases evs t).next hash o a = g' at hgo
  generalize hg : phases evs t = g at hok hgo
  cases hgo with
  | stay => exact hok
  | found =>
    obtain rfl : _ = c.id := hok
    exact hreads.le_row (Choice.attempt_eq_some ha)
  | based =>
    rename_i client l base
    obtain ⟨rfl, hprepared⟩ := hok
    have hrow : (w.node t.peer).storage.getShoppingList l.id = base := Choice.attempt_eq_some ha
    refine ⟨rfl, ?_⟩
    cases base with
    | some b => exact hreads.le_row hrow
    | none =>
      have hnone : (w₀.node t.peer).storage.getShoppingList l.id = none := by
        cases hl₀ : (w₀.node t.peer).storage.getShoppingList l.id with
        | none => rfl
        | some l₀ =>
          obtain ⟨l', hl', -⟩ := hreads.rows _ _ hl₀
          rw [hrow] at hl'
          cases hl'
      refine ⟨Node.held_le fun l₀ hl₀ => ?_, hprepared.resolve_left ?_⟩
      · rw [hnone] at hl₀
        cases hl₀
      · rw [hnone]
        exact Bool.false_ne_true
  | kept => exact hok.2
  | wrote => exact hok
  | noted => exact le_trans (hreads.held_le _) hD
  | choice =>
    refine ⟨hok, ?_⟩
    rw [hok.1, show _ = (w₀.node t.peer).hashring from (Option.some.inj ha).symm.trans (hreads.rings _)]
    rfl
  | named => exact hok
  | opened => exact ⟨hok.1, hok.2, List.Subset.refl _⟩
  | spread => exact ⟨hok.1, hok.2.1, fun v hv => hok.2.2 (List.mem_of_mem_erase hv)⟩
  | decided => exact hok.1
  | write hbase => exact quorate_of_write hok hbase
  | join hbase hlists =>
    obtain ⟨q, rfl, hs⟩ := Option.bind_eq_some_iff.1 hlists
    exact quorate_of_counted hreads hreg (htr _) hg hbase (Option.some.inj ha) hs
  | hinted hfrom =>
    rcases hfrom with rfl | ⟨rid, h, rfl⟩ | ⟨d, l, rfl⟩ <;> exact hok.elim
  | drop => trivial
  | refused => trivial
  | _ => exact hok.elim

/-- What a task sends. -/
theorem inTransit_send (hok : InStep w₀ c t.peer (phases evs t)) {u : Uuid} {m : Msg}
    (hallow : (phases evs t).allow (.send u m)) (serial : ℕ) :
    InTransit w₀ c ⟨serial, t.peer, u, m⟩ := by
  rcases hallow with hm | hsends
  · cases m with
    | replicateList rid l write => cases hm
    | handoff rid l d => cases hm
    | mergeList l => cases hm
    | leave => cases hm
    | _ => trivial
  · cases hg : phases evs t with
    | ackTo src rid =>
      rw [hg] at hsends
      obtain ⟨-, rfl⟩ := hsends
      trivial
    | ackListTo src rid l =>
      rw [hg] at hsends
      obtain ⟨-, rfl⟩ := hsends
      trivial
    | spreading job replicas rid todo =>
      rw [hg] at hsends hok
      obtain ⟨⟨hlist, hbase⟩, hreplicas, htodo⟩ := hok
      rcases hsends with ⟨hu, rfl⟩ | ⟨-, r, -, rfl⟩
      · refine ⟨hlist, fun hwrite => ?_⟩
        rw [Option.isNone_iff_eq_none.1 hwrite] at hbase
        exact hbase.2.2 u (hreplicas ▸ htodo hu)
      · exact hlist
    | moving ls =>
      rw [hg] at hok
      exact hok.elim
    | hinting rid todo =>
      rw [hg] at hok
      exact hok.elim
    | _ =>
      rw [hg] at hsends
      exact hsends.elim

/-- The list that a task writes dominates what was held. -/
theorem le_written (hreads : Reads w₀ c evs w) (hallow : (phases evs t).allow o)
    (hD : harmless c evs w (.did t o a)) {l : ShoppingList}
    (ho : o = .writeShoppingList l ∨ ∃ d, o = .writeShoppingListHandoff l d) :
    (w₀.node t.peer).held c.id ≤ l.list := by
  have hok := hreads.phases t
  rcases ho with rfl | ⟨d, rfl⟩
  · cases hg : phases evs t <;> rw [hg] at hallow hok <;> first
      | exact hallow.elim
      | exact hok.elim
      | (obtain rfl := hallow; first | exact hok.1 ▸ hok.2 | exact hok.2.1)
  · obtain ⟨src, rid, hg⟩ := hallow
    rw [hg] at hok
    obtain rfl : l = c := hok
    exact le_trans (hreads.held_le _) hD

/-- **No row is replaced by less than was held.** -/
theorem rows_did (hreads : Reads w₀ c evs w) (hallow : (phases evs t).allow o)
    (hD : harmless c evs w (.did t o a)) {u : Uuid} {l₀ : ShoppingList}
    (hl₀ : (w₀.node u).storage.getShoppingList c.id = some l₀) :
    ∃ l, ((effect t o a w).node u).storage.getShoppingList c.id = some l ∧ l₀.list ≤ l.list := by
  have hrow := hreads.rows u l₀ hl₀
  rw [storage_effect]
  split
  · rename_i hu
    subst hu
    have hupsert : ∀ {l hint}, (w₀.node t.peer).held c.id ≤ l.list →
        ∃ l', ((w.node t.peer).storage.upsert l hint).getShoppingList c.id = some l' ∧
          l₀.list ≤ l'.list := by
      intro l hint hle
      rw [getShoppingList_upsert]
      split
      · rw [Node.held_eq hl₀] at hle
        exact ⟨l, rfl, hle⟩
      · exact hrow
    cases o with
    | writeShoppingList l =>
      cases a with
      | none => exact hrow
      | some _ => exact hupsert (le_written hreads hallow hD (Or.inl rfl))
    | writeShoppingListHandoff l d =>
      cases a with
      | none => exact hrow
      | some _ => exact hupsert (le_written hreads hallow hD (Or.inr ⟨d, rfl⟩))
    | deleteShoppingList id =>
      obtain ⟨d, l, todo, hg, -⟩ := hallow
      have hok := hreads.phases t
      rw [hg] at hok
      exact hok.elim
    | _ => exact hrow
  · exact hrow

theorem SpreadOnce.congr {evs' : History hash} {replicas : List Uuid} {g : Phase}
    (h : SpreadOnce evs replicas g)
    (htargets : ∀ rid l, g.pending = some (rid, l) → targets rid evs' = targets rid evs) :
    SpreadOnce evs' replicas g := by
  cases g with
  | spreading job replicas' rid todo =>
    intro hbase
    rw [htargets rid job.list rfl]
    exact h hbase
  | decided job rid ok =>
    intro hbase
    rw [htargets rid job.list rfl]
    exact h hbase
  | _ => trivial

/-- **A read is sent to each replica once.** -/
theorem spreadOnce_next (hreads : Reads w₀ c evs w) (hun : Unused evs w)
    (hallow : (phases evs t).allow o) :
    SpreadOnce (.did t o a :: evs) ((w₀.node t.peer).replicasOf c.id)
      ((phases evs t).next hash o a) := by
  have hok := hreads.phases t
  have honce := hreads.once t
  have hgo : Phase.Goes hash (phases evs t) o a ((phases evs t).next hash o a) :=
    Phase.goes_next hallow
  have hquiet : ∀ {rid}, asked rid (.did t o a : Event (cluster hash)) = none →
      targets rid (.did t o a :: evs) = targets rid evs := by
    intro rid h
    rw [targets_cons, h]
    rfl
  by_cases hasked : ∃ rid l v, (phases evs t).pending = some (rid, l) ∧
      asked rid (.did t o a : Event (cluster hash)) = some v
  · -- a query under the request id of the task
    obtain ⟨rid, l, v, hpending, hask⟩ := hasked
    obtain ⟨m, hm, hev⟩ := asked_eq_some hask
    cases hev
    cases hg : phases evs t with
    | spreading job replicas rid' todo =>
      rw [hg] at hok honce hallow hpending
      obtain ⟨rfl, -⟩ := Prod.mk.inj (Option.some.inj hpending)
      rcases hallow with hc | ⟨hv, rfl⟩ | ⟨hwrite, r, -, rfl⟩
      · rw [(asks_of_control hc).1] at hm
        cases hm
      · intro hbase
        obtain ⟨htodo, htargets, hsent⟩ := honce hbase
        rw [targets_cons, hask]
        refine ⟨htodo.erase v, List.nodup_cons.2 ⟨fun h => (hsent v h).2 hv, htargets⟩, fun u hu => ?_⟩
        rcases List.mem_cons.1 hu with rfl | hu
        · exact ⟨hok.2.1 ▸ hok.2.2 hv, htodo.not_mem_erase⟩
        · exact ⟨(hsent u hu).1, fun h => (hsent u hu).2 (List.mem_of_mem_erase h)⟩
      · intro hbase
        exact absurd (Option.isNone_iff_eq_none.1 hwrite) hbase
    | decided job rid' ok =>
      rw [hg] at hallow
      rcases hallow with hc | hsends
      · rw [(asks_of_control hc).1] at hm
        cases hm
      · exact hsends.elim
    | _ =>
      rw [hg] at hpending
      cases hpending
  · have hsame : ∀ {rid l}, (phases evs t).pending = some (rid, l) →
        targets rid (.did t o a :: evs) = targets rid evs := by
      intro rid l hpending
      refine hquiet (Option.eq_none_iff_forall_ne_some.2 fun v hask => ?_)
      exact hasked ⟨rid, l, v, hpending, hask⟩
    have hname := fun rid => hun.named t rid
    generalize (phases evs t).next hash o a = g' at hgo
    generalize phases evs t = g at hok honce hgo hsame hname
    cases hgo with
    | stay => exact honce.congr fun rid l h => hsame h
    | opened =>
      intro _
      rw [hquiet rfl, (hname _ rfl).1, hok.2]
      exact ⟨(HashRing.nodup_getPreferenceList hash _ _).sublist (List.drop_sublist _ _),
        List.nodup_nil, fun v hv => absurd hv List.not_mem_nil⟩
    | spread hu =>
      intro hbase
      obtain ⟨htodo, htargets, hsent⟩ := honce hbase
      rw [hsame rfl]
      exact ⟨htodo.erase _, htargets,
        fun v hv => ⟨(hsent v hv).1, fun h => (hsent v hv).2 (List.mem_of_mem_erase h)⟩⟩
    | decided =>
      intro hbase
      obtain ⟨-, htargets, hsent⟩ := honce hbase
      rw [hsame rfl]
      exact ⟨htargets, fun v hv => (hsent v hv).1⟩
    | _ => trivial

theorem fired_mono (t : Tid) (o : Op) (a : Ans o) {u : Uuid} {rid : String}
    (h : rid ∈ (w.node u).fired) : rid ∈ ((effect t o a w).node u).fired := by
  have hanswered : ∀ (n : Node hash) (r : String) (f : QuoromState → QuoromState),
      rid ∈ n.fired → rid ∈ (n.answered r f).fired := by
    intro n r f h
    unfold Node.answered
    split
    · exact h
    · dsimp only
      split
      · exact List.mem_cons_of_mem _ h
      · exact h
  rw [node_effect]
  split
  · cases o with
    | writeShoppingList l => cases a <;> exact h
    | writeShoppingListHandoff l d => cases a <;> exact h
    | deleteShoppingList id => cases a <;> exact h
    | ack r => exact hanswered _ r _ h
    | ackList r l => exact hanswered _ r _ h
    | _ => exact h
  · exact h

/-- A coordinator that has not timed out has been sent to on its channel. -/
theorem fired_next (hreads : Reads w₀ c evs w) (hallow : (phases evs t).allow o)
    (ha : answer t o ch w = some a) {job : Job} {rid : String}
    (h : (phases evs t).next hash o a = .decided job rid true) :
    rid ∈ ((effect t o a w).node t.peer).fired := by
  refine fired_mono t o a ?_
  have hgo : Phase.Goes hash (phases evs t) o a ((phases evs t).next hash o a) :=
    Phase.goes_next hallow
  rw [h] at hgo
  have hfired := hreads.fired t job rid
  generalize phases evs t = g at hgo hfired
  cases hgo with
  | stay => exact hfired rfl
  | decided =>
    cases ch with
    | yes =>
      simp only [answer] at ha
      split at ha
      · assumption
      · cases ha
    | _ => cases ha

/-- What a server answers. -/
theorem replied_did (hreads : Reads w₀ c evs w) (hallow : (phases evs t).allow o) {rid : String}
    {v : Uuid} {x : Option ShoppingList} (h : Replied (.did t o a :: evs) rid v x) :
    (w₀.node v).held c.id ≤ (x.getD c).list := by
  obtain ⟨s, u, m, hmem, hm⟩ := h
  rcases List.mem_cons.1 hmem with heq | hmem
  · cases heq
    have hok := hreads.phases (.incoming v s)
    rcases hallow with hc | hsends
    · rw [(asks_of_control hc).2] at hm
      cases hm
    · cases hg : phases evs (.incoming v s) with
      | ackTo src rid' =>
        rw [hg] at hsends hok
        obtain ⟨-, rfl⟩ := hsends
        cases hm
        exact hok
      | ackListTo src rid' l =>
        rw [hg] at hsends hok
        obtain ⟨-, rfl⟩ := hsends
        cases hm
        exact hok
      | spreading job replicas rid' todo =>
        rw [hg] at hsends
        rcases hsends with ⟨-, rfl⟩ | ⟨-, r, -, rfl⟩ <;> cases hm
      | moving ls =>
        rw [hg] at hok
        exact hok.elim
      | hinting rid' todo =>
        rw [hg] at hok
        exact hok.elim
      | _ =>
        rw [hg] at hsends
        exact hsends.elim
  · exact hreads.replied rid v x ⟨s, u, m, hmem, hm⟩

/-- What a client is shown. -/
theorem shown_did (hreads : Reads w₀ c evs w) (hallow : (phases evs t).allow o) {client : ClientId}
    {rid : String} {l : ShoppingList} (ho : o = .sendProxy client (.ackList rid l)) :
    Quorate w₀ c t.peer l := by
  subst ho
  have hok := hreads.phases t
  simp only [Phase.allow] at hallow
  cases hg : phases evs t with
  | answering job l' =>
    rw [hg] at hallow hok
    obtain ⟨-, heq⟩ := hallow
    cases heq
    exact hok
  | refusing job =>
    rw [hg] at hallow
    cases hallow.2
  | _ =>
    rw [hg] at hallow
    exact hallow.elim

/-- The invariant is kept by an operation. -/
theorem reads_did (hreads : Reads w₀ c evs w) (hreg : Registered evs w) (hun : Unused evs w)
    (htr : ∀ rid, Tracked rid evs w) (hfits : ∀ t, (phases evs t).Fits t)
    (hallow : (phases evs t).allow o) (ha : answer t o ch w = some a)
    (hD : onlyRead c evs w (.did t o a)) (hharmless : harmless c evs w (.did t o a)) :
    Reads w₀ c (.did t o a :: evs) (effect t o a w) := by
  refine ⟨(proxyRing_effect t o a w).trans hreads.fixed, fun u => ?rings, fun r hr => ?requests,
    fun u l₀ => rows_did hreads hallow hharmless, fun p hp => ?net, fun t' => ?phases,
    fun t' => ?once, fun t' job rid h => ?fired, fun rid v x => replied_did hreads hallow,
    fun t' client rid l a' hmem => ?shown⟩
  case rings =>
    rw [node_effect]
    split
    · rename_i hu
      subst hu
      have hcall : callOf o = none := by
        cases o with
        | addNode v => exact hD.elim
        | removeNode v => exact hD.elim
        | _ => rfl
      rw [hashring_after, hcall]
      exact hreads.rings t.peer
    · exact hreads.rings u
  case requests =>
    rw [requests_effect] at hr
    exact hreads.requests r hr
  case net =>
    rcases mem_net_effect hp with hp | ⟨u, m, rfl, hev⟩
    · exact hreads.net p hp
    · cases hev
      exact inTransit_send (hreads.phases t) hallow w.serial
  case phases =>
    rw [phases_did]
    split
    · rename_i ht
      subst ht
      exact inStep_next hreads hreg htr hallow ha hharmless
    · exact hreads.phases t'
  case once =>
    rw [phases_did]
    split
    · rename_i ht
      subst ht
      exact spreadOnce_next hreads hun hallow
    · rename_i ht
      exact (hreads.once t').congr fun rid l => targets_other hreg hun hfits hallow ht
  case fired =>
    rw [phases_did] at h
    split at h
    · rename_i ht
      subst ht
      exact fired_next hreads hallow ha h
    · exact fired_mono t o a (hreads.fired t' job rid h)
  case shown =>
    rcases List.mem_cons.1 hmem with heq | hmem
    · cases heq
      exact shown_did hreads hallow rfl
    · exact hreads.shown t' client rid l a' hmem

/-- What a task has in hand when it starts. -/
theorem inStep_begun (hreads : Reads w₀ c evs w) {e : Arrival} {r : Option (Tid × Code Unit)}
    {w' : World hash} (harr : arrive e w = some (r, w')) (hD : onlyRead c evs w (.arrived e))
    {g : Phase} (hbegun : begun e = some (t, g)) : InStep w₀ c t.peer g := by
  cases e with
  | take q =>
    cases hbegun
    obtain ⟨hmsg, hprepared⟩ := hreads.requests q (mem_requests_of_take harr)
    rw [hmsg]
    exact ⟨rfl, hprepared⟩
  | deliver p =>
    cases hbegun
    have hp := hreads.net p (mem_net_of_deliver harr)
    have hcontrol : p.msg.control = false := hD
    unfold InTransit at hp
    cases hm : p.msg with
    | replicateList rid l write =>
      rw [hm] at hp
      cases write with
      | true => exact ⟨hp.1, hp.2 rfl⟩
      | false => exact congrArg ShoppingList.id hp.1
    | handoff rid l d =>
      rw [hm] at hp
      exact hp
    | mergeList l =>
      rw [hm] at hp
      exact hp.elim
    | leave =>
      rw [hm] at hp
      exact hp.elim
    | gossip table =>
      rw [hm] at hcontrol
      cases hcontrol
    | _ => trivial
  | tickGossip u => exact hD.elim
  | tickHintedHandoff u => exact hD.elim
  | tickFailureDetection u => exact hD.elim
  | _ => cases hbegun

/-- The invariant is kept by what arrives. -/
theorem reads_arrived (hreads : Reads w₀ c evs w)
    (hprepared : ∀ u, w₀.proxyRing.getCoordinator hash c.id = some u → Prepared w₀ c u)
    {e : Arrival} {r : Option (Tid × Code Unit)} {w' : World hash}
    (harr : arrive e w = some (r, w')) (hD : onlyRead c evs w (.arrived e)) :
    Reads w₀ c (.arrived e :: evs) w' := by
  have hnode := node_arrive harr
  refine ⟨?fixed, fun u => ?rings, fun q hq => ?requests, fun u l₀ hl₀ => ?rows, fun p hp => ?net,
    fun t => ?phases, fun t => ?once, fun t job rid h => ?fired, fun rid v x h => ?replied,
    fun t client rid l a hmem => ?shown⟩
  case fixed =>
    refine (proxyRing_arrive harr ?_).trans hreads.fixed
    rintro u rfl
    exact hD
  case rings =>
    rw [hnode]
    exact hreads.rings u
  case requests =>
    rcases requests_arrive harr hq with hq | ⟨client, msg, u, rfl, hrouted, rfl⟩
    · exact hreads.requests q hq
    · obtain ⟨-, rfl⟩ := hD
      rw [hreads.fixed] at hrouted
      exact ⟨rfl, hprepared u hrouted⟩
  case rows =>
    rw [hnode]
    exact hreads.rows u l₀ hl₀
  case net =>
    rcases net_arrive harr hp with hp | ⟨src, dst, msg, rfl, -, -⟩
    · exact hreads.net p hp
    · exact hD.elim
  case phases =>
    rcases phases_arrived evs e t with hsame | ⟨g, hbegun, hg⟩
    · rw [hsame]
      exact hreads.phases t
    · rw [hg]
      exact inStep_begun hreads harr hD hbegun
  case once =>
    rcases phases_arrived evs e t with hsame | ⟨g, hbegun, hg⟩
    · rw [hsame]
      exact (hreads.once t).congr fun rid l _ => targets_arrived rid e evs
    · have hnone := (Phase.name_begun hbegun).2
      rw [hg]
      cases g with
      | spreading job replicas rid todo => cases hnone
      | decided job rid ok => cases hnone
      | _ => trivial
  case fired =>
    rw [hnode]
    exact hreads.fired t job rid (phases_of_arrived h rfl)
  case replied => exact hreads.replied rid v x (h.of_other (arrived_ne_did e))
  case shown =>
    rcases List.mem_cons.1 hmem with heq | hmem
    · cases heq
    · exact hreads.shown t client rid l a hmem

end Reads

/-- **A read is a quorum read and destroys nothing**, where the coordinator has a row for the list, or
it has enough replicas and they hold nothing beyond the client's list, and a `Handoff` only comes to
servers that hold nothing beyond it. -/
theorem quorum_read {w₀ : World hash} (hw : w₀.Settled) {c : ShoppingList}
    (hprepared : ∀ u, w₀.proxyRing.getCoordinator hash c.id = some u → Prepared w₀ c u)
    {evs : History hash} {cfg : Config (cluster hash)}
    (hrun : Run (cluster hash) (fun evs w ev => onlyRead c evs w ev ∧ harmless c evs w ev) (quiet w₀)
      evs cfg) :
    (∀ t client rid l a,
      (.did t (.sendProxy client (.ackList rid l)) a : Event (cluster hash)) ∈ evs →
        Quorate w₀ c t.peer l) ∧
      ∀ u, (w₀.node u).held c.id ≤ (cfg.state.node u).held c.id := by
  have hrun := hrun.with
    (fun evs w => Registered evs w ∧ Unused evs w ∧ ∀ rid, Tracked rid evs w)
    fun _ _ h => ⟨registered hw h, unused hw h, copies hw h⟩
  have hreads := (cluster_invariant (Reads w₀ c) ?did ?ended ?arrived ?init hrun).1
  · exact ⟨hreads.shown, hreads.held_le⟩
  case did =>
    rintro evs w t o ch a hreads hfits hallow ha ⟨⟨hD, hharmless⟩, hreg, hun, htr⟩
    exact reads_did hreads hreg hun htr hfits hallow ha hD hharmless
  case ended =>
    intro evs w t hreads
    refine ⟨hreads.fixed, hreads.rings, hreads.requests, hreads.rows, hreads.net, fun t' => ?_,
      fun t' => ?_, fun t' job rid h => ?_, fun rid v x h => ?_, fun t' client rid l a hmem => ?_⟩
    · rw [phases_ended]
      split
      · trivial
      · exact hreads.phases t'
    · rw [phases_ended]
      split
      · trivial
      · exact (hreads.once t').congr fun _ _ _ => rfl
    · exact hreads.fired t' job rid (phases_of_ended h Phase.noConfusion)
    · exact hreads.replied rid v x (h.of_other (ended_ne_did t))
    · rcases List.mem_cons.1 hmem with heq | hmem
      · cases heq
      · exact hreads.shown t' client rid l a hmem
  case arrived =>
    rintro evs w e r w' hreads - harr - ⟨⟨hD, -⟩, -⟩
    exact reads_arrived hreads hprepared harr hD
  case init =>
    refine ⟨rfl, fun _ => rfl, fun r hr => ?_, fun u l₀ hl₀ => ⟨l₀, hl₀, le_rfl⟩, fun p hp => ?_,
      fun _ => trivial, fun _ => trivial, fun t job rid h => (nomatch h), fun rid v x h => ?_,
      fun t client rid l a hmem => absurd hmem List.not_mem_nil⟩
    · rw [hw.requests] at hr
      cases hr
    · rw [hw.net] at hp
      cases hp
    · obtain ⟨s, u, m, hmem, -⟩ := h
      exact absurd hmem List.not_mem_nil

/-- The test for `onlyRead`, in runs without a `Handoff`. -/
def onlyReads (c : ShoppingList) (evs : History md5) : Event (cluster md5) → Bool
  | .arrived (.request _ msg) => evs.isEmpty && decide (msg = .getList c)
  | .arrived (.take _) => true
  | .arrived (.deliver p) => !p.msg.control
  | .arrived (.lose _) => true
  | .arrived _ => false
  | .did _ (.addNode _) _ => false
  | .did _ (.removeNode _) _ => false
  | .did _ (.writeShoppingListHandoff _ _) _ => false
  | _ => true

theorem onlyRead_of_onlyReads {c : ShoppingList} {evs : History md5} {w : World md5}
    {ev : Event (cluster md5)} (h : onlyReads c evs ev = true) :
    onlyRead c evs w ev ∧ harmless c evs w ev := by
  cases ev with
  | did t o a =>
    cases o with
    | addNode v => cases h
    | removeNode v => cases h
    | writeShoppingListHandoff l d => cases h
    | _ => exact ⟨trivial, trivial⟩
  | ended t => exact ⟨trivial, trivial⟩
  | arrived e =>
    refine ⟨?_, trivial⟩
    cases e with
    | request client msg =>
      obtain ⟨hnil, hmsg⟩ := Bool.and_eq_true_iff.1 h
      exact ⟨List.isEmpty_iff.1 hnil, of_decide_eq_true hmsg⟩
    | deliver p => exact (show p.msg.control = false by simpa [onlyReads] using h)
    | take r => trivial
    | lose p => trivial
    | _ => cases h

/-- The peer and the list that a client is shown in a step. -/
def shownIn (ev : Event (cluster md5)) : Option (Uuid × ShoppingList) :=
  match ev with
  | .did t (.sendProxy _ (.ackList _ l)) _ => some (t.peer, l)
  | _ => none

theorem eq_of_shownIn {ev : Event (cluster md5)} {u : Uuid} {l : ShoppingList}
    (h : shownIn ev = some (u, l)) :
    ∃ t client rid a, t.peer = u ∧ ev = .did t (.sendProxy client (.ackList rid l)) a := by
  cases ev with
  | did t o a =>
    cases o with
    | sendProxy client m =>
      cases m with
      | ackList rid l' =>
        obtain ⟨hu, rfl⟩ := Prod.mk.inj (Option.some.inj h)
        exact ⟨t, client, rid, a, hu, rfl⟩
      | _ => cases h
    | _ => cases h
  | _ => cases h

/-- Three servers that know each other; these of them store the list of the item. -/
def storing (servers : List Uuid) : World md5 :=
  { threeServers with
    node u :=
      if u ∈ servers then
        { threeServers.node u with
          storage := ServerStorage.empty.writeShoppingList (oneItem "milk" 201) }
      else threeServers.node u }

theorem settled_storing (servers : List Uuid) : (storing servers).Settled := by
  refine ⟨rfl, rfl, fun u => ?_, fun u => ?_⟩ <;>
  · simp only [storing]
    split <;> rfl

/-- The list without an item. -/
def noItem : ShoppingList := ⟨.ofTail 101, .new⟩

/-- A read of the list that all three servers store. -/
theorem quorum_read_stored :
    ∃ evs cfg, Run (cluster md5) (fun evs w ev => onlyRead noItem evs w ev ∧ harmless noItem evs w ev)
        (quiet (storing [.ofTail 1, .ofTail 2, .ofTail 3])) evs cfg ∧
      ∃ t l, Quorate (storing [.ofTail 1, .ofTail 2, .ofTail 3]) noItem t l := by
  obtain ⟨evs, cfg, hrun, hcheck⟩ := exists_run
    (D := fun evs w ev => onlyRead noItem evs w ev ∧ harmless noItem evs w ev)
    (fun evs _ ev => onlyReads noItem evs ev) (fun _ _ _ h => onlyRead_of_onlyReads h)
    (quiet (storing [.ofTail 1, .ofTail 2, .ofTail 3]))
    (getMoves 0 noItem (oneItem "milk" 201) (oneItem "milk" 201) (.ofTail 302))
    (fun evs _ => evs.any fun ev => (shownIn ev).isSome) (by decide +kernel)
  obtain ⟨ev, hmem, hshown⟩ := List.any_eq_true.1 hcheck
  obtain ⟨⟨u, l⟩, hl⟩ := Option.isSome_iff_exists.1 hshown
  obtain ⟨t, client, rid, a, -, rfl⟩ := eq_of_shownIn hl
  refine ⟨evs, cfg, hrun, t.peer, l, (quorum_read (settled_storing _) (fun u hu => Or.inl ?_) hrun).1
    t client rid l a hmem⟩
  have hcoordinator : (storing [.ofTail 1, .ofTail 2, .ofTail 3]).proxyRing.getCoordinator md5 noItem.id =
      some (.ofTail 1) := by decide +kernel
  rw [hcoordinator] at hu
  rw [← Option.some.inj hu]
  decide +kernel

/-- A read of a list that the coordinator, server 1, does not store: both replicas store what the client
sent, and acknowledge it. -/
def readWithoutRow : List (Move (cluster md5)) :=
  .arrive (.request [] (.getList noItem)) :: .arrive (.take ⟨0, .ofTail 1, [], .getList noItem⟩) ::
  turns (.proxied (.ofTail 1)) 3 ++ (putMoves 0 noItem (.ofTail 301)).drop 2

/-- Both replicas store the milk; the client is shown an empty list, and the milk is gone. -/
theorem read_destroys :
    (¬ ∀ (w₀ : World md5) (c : ShoppingList) evs cfg, w₀.Settled →
      Run (cluster md5) (onlyRead c) (quiet w₀) evs cfg → ∀ t client rid l a,
      (.did t (.sendProxy client (.ackList rid l)) a : Event (cluster md5)) ∈ evs →
        Quorate w₀ c t.peer l) ∧
    ¬ ∀ (w₀ : World md5) (c : ShoppingList) evs cfg, w₀.Settled →
      Run (cluster md5) (onlyRead c) (quiet w₀) evs cfg →
        ∀ u, (w₀.node u).held c.id ≤ (cfg.state.node u).held c.id := by
  obtain ⟨evs, cfg, hrun, hcheck⟩ := exists_run (D := onlyRead noItem)
    (fun evs _ ev => onlyReads noItem evs ev) (fun _ _ _ h => (onlyRead_of_onlyReads h).1)
    (quiet (storing [.ofTail 2, .ofTail 3])) readWithoutRow
    (fun evs cfg => evs.any (fun ev => decide (shownIn ev = some (.ofTail 1, noItem))) &&
      decide (¬ ((storing [.ofTail 2, .ofTail 3]).node (.ofTail 3)).held noItem.id ≤
        (cfg.state.node (.ofTail 3)).held noItem.id)) (by decide +kernel)
  obtain ⟨hshown, hlost⟩ := Bool.and_eq_true_iff.1 hcheck
  refine ⟨fun h => ?_, fun h => of_decide_eq_true hlost (h _ _ _ _ (settled_storing _) hrun _)⟩
  obtain ⟨ev, hmem, hev⟩ := List.any_eq_true.1 hshown
  obtain ⟨t, client, rid, a, ht, rfl⟩ := eq_of_shownIn (of_decide_eq_true hev)
  obtain ⟨-, -, C, hcard, hC⟩ := h _ _ _ _ (settled_storing _) hrun t client rid noItem a hmem
  obtain ⟨v, hv⟩ := Finset.card_pos.1 (lt_of_lt_of_le (show 0 < READ_NODES by decide) hcard)
  obtain ⟨hreplica, hle⟩ := hC v hv
  rw [ht] at hreplica
  have hall : ∀ v ∈ ((storing [.ofTail 2, .ofTail 3]).node (.ofTail 1)).replicasOf noItem.id,
      ¬ ((storing [.ofTail 2, .ofTail 3]).node v).held noItem.id ≤ noItem.list := by decide +kernel
  exact hall v hreplica hle

end Sdle
