import Sdle.Provenance
import Sdle.Join

/-!
# What the servers make of the lists

`Provenance` bounds what the servers hold from above.  Here is what it is made of: no code of a
server builds a list of its own, apart from merging two lists of one id.

* `kept_by_servers` — a property of lists that merging two lists of one id keeps, and that all
  submitted lists have, every list has that a server stores, collects, has in hand or sends.
* `servers_only_merge` — **servers only merge**: each of these lists is the result of merging
  submitted states of its id, in some order and grouping.
-/

set_option autoImplicit false

namespace Sdle

open Tasks Peer ServerStorage

variable {hash : String → U128}

/-! ## The lists that something carries -/

/-- The lists that a message carries. -/
def Msg.lists : Msg → List ShoppingList
  | .ackList _ l => [l]
  | .getList l => [l]
  | .putList l => [l]
  | .replicateList _ l _ => [l]
  | .mergeList l => [l]
  | .listResponse l => l.toList
  | .handoff _ l _ => [l]
  | _ => []

/-- The lists of a request that a peer coordinates. -/
def Job.lists (job : Job) : List ShoppingList := job.list :: job.base.toList

/-- The lists that a task has in hand. -/
def Phase.lists : Phase → List ShoppingList
  | .store _ _ l => [l]
  | .hint _ _ l _ => [l]
  | .ackListTo _ _ l => [l]
  | .countList _ l => [l]
  | .mergeIn l => [l]
  | .mergeOut l => [l]
  | .moving ls => ls
  | .hints todo => todo.map Prod.snd
  | .hinting _ todo => todo.map Prod.snd
  | .delivered _ _ todo => todo.map Prod.snd
  | .asked _ l => [l]
  | .start job => job.lists
  | .chosen job _ => job.lists
  | .named job _ _ => job.lists
  | .spreading job _ _ _ => job.lists
  | .decided job _ _ => job.lists
  | .writing _ l => [l]
  | .answering _ l => [l]
  | _ => []

/-- The lists that a step tells a client. -/
def told : Event (cluster hash) → List ShoppingList
  | .did _ (.sendProxy _ m) _ => m.lists
  | _ => []

/-- Merging two lists of one id keeps the property. -/
def ClosedUnderMerge (K : ShoppingList → Prop) : Prop :=
  ∀ l l', K l → K l' → l'.id = l.id → K { l with list := l.list.merge l'.list }

/-- Every list in the cluster has the property. -/
structure Merged (K : ShoppingList → Prop) (evs : History hash) (w : World hash) : Prop where
  rows : ∀ u k r, (w.node u).storage.rows.find? k = some r → K r.crdtData
  inFlight : ∀ u rid q, (w.node u).inFlight.find? rid = some q → ∀ l ∈ q.lists, K l
  net : ∀ p ∈ w.net, ∀ l ∈ p.msg.lists, K l
  requests : ∀ r ∈ w.requests, ∀ l, r.msg = .getList l ∨ r.msg = .putList l → K l
  phases : ∀ t, ∀ l ∈ (phases evs t).lists, K l
  told : ∀ ev ∈ evs, ∀ l ∈ told ev, K l

/-! ## What a task does -/

section Step

variable {K : ShoppingList → Prop} {evs : History hash} {w : World hash} {t : Tid} {o : Op}
  {c : Choice} {a : Ans o}

theorem ClosedUnderMerge.mergeLists (hK : ClosedUnderMerge K) {q : QuoromState} {s : ShoppingList}
    {id : Uuid} (h : ∀ l ∈ q.lists, l.id = id ∧ K l) (hs : q.mergeLists = some s) : K s := by
  have hfold : ∀ (ls : List ShoppingList) (l : ShoppingList), l.id = id → K l →
      (∀ x ∈ ls, x.id = id ∧ K x) →
      K (ls.foldl (fun merged l => { merged with list := merged.list.merge l.list }) l) := by
    intro ls
    induction ls with
    | nil => exact fun l _ hl _ => hl
    | cons x ls ih =>
      intro l hid hl hls
      obtain ⟨hx, hKx⟩ := hls x List.mem_cons_self
      rw [List.foldl_cons]
      exact ih _ hid (hK l x hl hKx (hx.trans hid.symm)) fun y hy => hls y (List.mem_cons_of_mem _ hy)
  unfold QuoromState.mergeLists at hs
  split at hs
  · cases hs
  · rename_i l ls hl
    cases hs
    rw [hl] at h
    obtain ⟨hid, hl⟩ := h l List.mem_cons_self
    exact hfold ls l hid hl fun x hx => h x (List.mem_cons_of_mem _ hx)

/-- What a task sends to a peer it has in hand. -/
theorem lists_send {g : Phase} {u : Uuid} {m : Msg} (hallow : g.allow (.send u m)) :
    m.lists ⊆ g.lists := by
  rcases hallow with hm | hsends
  · cases m <;> first | exact List.nil_subset _ | cases hm
  · cases g with
    | ackTo src rid =>
      obtain ⟨-, rfl⟩ := hsends
      exact List.nil_subset _
    | ackListTo src rid l =>
      obtain ⟨-, rfl⟩ := hsends
      exact List.Subset.refl _
    | moving ls =>
      obtain ⟨l, hl, rfl⟩ := hsends
      exact List.cons_subset.2 ⟨hl, List.nil_subset _⟩
    | hinting rid todo =>
      cases todo with
      | nil => exact hsends.elim
      | cons x todo =>
        obtain ⟨-, rfl⟩ := hsends
        exact List.cons_subset.2 ⟨List.mem_cons_self, List.nil_subset _⟩
    | spreading job replicas rid todo =>
      rcases hsends with ⟨-, rfl⟩ | ⟨-, r, -, rfl⟩ <;>
        exact List.cons_subset.2 ⟨List.mem_cons_self, List.nil_subset _⟩
    | _ => exact hsends.elim

/-- What a task tells a client it has in hand. -/
theorem lists_sendProxy {g : Phase} {client : ClientId} {m : Msg}
    (hallow : g.allow (.sendProxy client m)) : m.lists ⊆ g.lists := by
  cases g with
  | answering job l =>
    obtain ⟨-, rfl⟩ := hallow
    exact List.Subset.refl _
  | refusing job =>
    obtain ⟨-, rfl⟩ := hallow
    exact List.nil_subset _
  | _ => exact hallow.elim

/-- What a task stores it has in hand. -/
theorem lists_write {g : Phase} {l : ShoppingList} (hallow : g.allow (.writeShoppingList l)) :
    l ∈ g.lists := by
  cases g with
  | store src rid l' =>
    obtain rfl := hallow
    exact List.mem_singleton_self _
  | mergeOut l' =>
    obtain rfl := hallow
    exact List.mem_singleton_self _
  | writing job l' =>
    obtain rfl := hallow
    exact List.mem_singleton_self _
  | _ => exact hallow.elim

/-- **What a task has in hand next** it had before, or read, or merged. -/
theorem lists_next (hK : ClosedUnderMerge K) {ids : Set Uuid}
    (hids : ∀ X, submitted evs X ≠ [] → X ∈ ids) (hinj : Set.InjOn (key hash) ids)
    (hreg : Registered evs w) (hprov : Provenance evs w) (hmerged : Merged K evs w)
    (hallow : (phases evs t).allow o) (ha : answer t o c w = some a) :
    ∀ l ∈ ((phases evs t).next hash o a).lists, K l := by
  have hok := hprov.phases t
  have hold := hmerged.phases t
  have hpending := hreg.pending t
  have hrows := hmerged.rows t.peer
  have hrow : ∀ {id l}, (w.node t.peer).storage.getShoppingList id = some l → K l := by
    intro id l h
    obtain ⟨hint, hr⟩ := (getShoppingList_eq_some _ id l).1 h
    exact hrows _ _ hr
  have hgo : Phase.Goes hash (phases evs t) o a ((phases evs t).next hash o a) :=
    Phase.goes_next hallow
  generalize (phases evs t).next hash o a = g' at hgo
  generalize phases evs t = g at hok hold hpending hgo
  have hnone : ∀ l ∈ ([] : List ShoppingList), K l := fun l hl => absurd hl List.not_mem_nil
  cases hgo with
  | stay => exact hold
  | drop => exact hnone
  | found =>
    intro x hx
    obtain rfl := List.mem_singleton.1 hx
    exact hrow (Choice.attempt_eq_some ha)
  | @merged l existing =>
    intro x hx
    obtain rfl := List.mem_singleton.1 hx
    have hget := Choice.attempt_eq_some ha
    obtain ⟨hid, -⟩ := known_row hids hinj (hprov.rows t.peer)
      (hids _ ((known_iff _ _).1 hok).1) hget
    exact hK existing l (hrow hget) (hold l (List.mem_singleton_self _)) hid.symm
  | unmerged => exact hold
  | @based client l base =>
    intro x hx
    rcases List.mem_cons.1 hx with rfl | hx
    · exact hold _ (List.mem_singleton_self _)
    · rw [Option.mem_toList] at hx
      obtain rfl : base = some x := hx
      exact hrow (Choice.attempt_eq_some ha)
  | kept => exact hnone
  | wrote => exact hold
  | noted => exact hnone
  | @read hints =>
    intro l hl
    obtain ⟨x, hx, rfl⟩ := List.mem_map.1 hl
    cases hints with
    | none => exact absurd hx List.not_mem_nil
    | some hints =>
      rw [← Choice.attempt_eq_some ha] at hx
      exact hrows _ _ ((mem_getHintedHandoffs _ _ _).1 hx)
  | deleted => exact hold
  | @old ls u h lists =>
    intro l hl
    cases lists with
    | none => exact absurd hl List.not_mem_nil
    | some lists =>
      change l ∈ lists at hl
      rw [← Choice.attempt_eq_some ha] at hl
      exact hrows _ _ (mem_getOldData _ hl)
  | @all ls rows =>
    intro l hl
    cases rows with
    | none => exact absurd hl List.not_mem_nil
    | some rows =>
      change l ∈ rows.map Prod.snd at hl
      rw [← Choice.attempt_eq_some ha] at hl
      obtain ⟨⟨k, l'⟩, hmem, rfl⟩ := List.mem_map.1 hl
      obtain ⟨-, hint, hr⟩ := mem_getAllRows _ hmem
      exact hrows _ _ hr
  | choice => exact hold
  | named => exact hold
  | hinted hg =>
    rcases hg with rfl | ⟨rid, h, rfl⟩ | ⟨d, l, rfl⟩
    · exact hold
    · exact fun x hx => hold x (List.mem_cons_of_mem _ hx)
    · exact hold
  | opened => exact hold
  | spread => exact hold
  | sent => exact fun x hx => hold x (List.mem_cons_of_mem _ hx)
  | unsent => exact fun x hx => hold x (List.mem_cons_of_mem _ hx)
  | decided => exact hold
  | write =>
    intro x hx
    obtain rfl := List.mem_singleton.1 hx
    exact hold _ List.mem_cons_self
  | @join job rid q l s hbase hlists =>
    obtain ⟨q, rfl, hs⟩ := Option.bind_eq_some_iff.1 hlists
    have hq : (w.node t.peer).inFlight.find? rid = some q := Option.some.inj ha
    -- the lists collected for the request are lists of the id that the job is about
    have hall : ∀ l ∈ q.lists, l.id = job.list.id ∧ K l := by
      intro l hl
      obtain ⟨⟨u, l₀, hopen, hid⟩, -⟩ := hprov.inFlight _ _ _ hq l hl
      rw [hpending rid job.list rfl] at hopen
      obtain ⟨⟨-, rfl⟩, -⟩ := List.cons.inj hopen
      exact ⟨hid.symm, hmerged.inFlight _ _ _ hq l hl⟩
    obtain ⟨x, hx, hid⟩ := QuoromState.id_mergeLists hs
    intro y hy
    obtain rfl := List.mem_singleton.1 hy
    refine hK l s (hold l ?_) (hK.mergeLists hall hs) ?_
    · exact List.mem_cons_of_mem _ (Option.mem_toList.2 hbase)
    · rw [hid, (hall x hx).1, (hok.2 l hbase).1]
  | refused => exact hnone

/-- The rows after an operation. -/
theorem rows_merged (hmerged : Merged K evs w) (hallow : (phases evs t).allow o) {k : U128} {r : Row}
    (h : (storageAfter o a (w.node t.peer).storage).rows.find? k = some r) : K r.crdtData := by
  have hold := hmerged.phases t
  have hrows := hmerged.rows t.peer k r
  have hupsert : ∀ {l hint}, K l →
      ((w.node t.peer).storage.upsert l hint).rows.find? k = some r → K r.crdtData := by
    intro l hint hl h
    rw [rows_upsert] at h
    split at h
    · rw [← Option.some.inj h]
      exact hl
    · exact hrows h
  cases o with
  | writeShoppingList l =>
    cases a with
    | none => exact hrows h
    | some _ => exact hupsert (hold l (lists_write hallow)) h
  | writeShoppingListHandoff l d =>
    obtain ⟨src, rid, hg⟩ := hallow
    rw [hg] at hold
    cases a with
    | none => exact hrows h
    | some _ => exact hupsert (hold l (List.mem_singleton_self _)) h
  | deleteShoppingList id =>
    cases a with
    | none => exact hrows h
    | some _ =>
      simp only [storageAfter, rows_delete] at h
      split at h
      · cases h
      · exact hrows h
  | _ => exact hrows h

/-- What is collected for a request in flight after an operation. -/
theorem inFlight_merged (hmerged : Merged K evs w) (hallow : (phases evs t).allow o) {u : Uuid}
    {rid : String} {q : QuoromState} (h : ((effect t o a w).node u).inFlight.find? rid = some q)
    {l : ShoppingList} (hl : l ∈ q.lists) : K l := by
  have hhand := hmerged.phases t
  rcases inFlight_effect h with ⟨rfl, rfl⟩ | ⟨q₀, hq₀, hq⟩
  · obtain ⟨job, replicas, hg, rfl⟩ := hallow
    rw [hg] at hhand
    obtain rfl := List.mem_singleton.1 hl
    exact hhand _ List.mem_cons_self
  · have hold := hmerged.inFlight u rid q₀ hq₀
    rcases hq with ⟨-, -, hans⟩ | ⟨-, rfl⟩
    · cases hto : answerTo rid o with
      | none =>
        rw [hto] at hans
        rw [hans.1] at hl
        exact hold l hl
      | some ls =>
        rw [hto] at hans
        rw [hans.1, List.mem_append] at hl
        refine hl.elim (hold l) fun hl => hhand l ?_
        cases o with
        | ack r =>
          simp only [answerTo] at hto
          split at hto <;> cases hto
          exact absurd hl List.not_mem_nil
        | ackList r x =>
          simp only [answerTo] at hto
          split at hto <;> cases hto
          rw [show phases evs t = .countList r x from hallow]
          exact hl
        | _ => cases hto
    · exact hold l hl

/-- Every operation keeps the property of all lists. -/
theorem merged_did (hK : ClosedUnderMerge K) {ids : Set Uuid}
    (hids : ∀ X, submitted evs X ≠ [] → X ∈ ids) (hinj : Set.InjOn (key hash) ids)
    (hreg : Registered evs w) (hprov : Provenance evs w) (hmerged : Merged K evs w)
    (hallow : (phases evs t).allow o) (ha : answer t o c w = some a) :
    Merged K (.did t o a :: evs) (effect t o a w) := by
  refine ⟨?rows, fun u rid q h l hl => inFlight_merged hmerged hallow h hl, ?net, ?requests, ?phases, ?told⟩
  case rows =>
    intro u k r h
    rw [storage_effect] at h
    split at h
    · rename_i hu
      subst hu
      exact rows_merged hmerged hallow h
    · exact hmerged.rows u k r h
  case net =>
    intro p hp
    rw [net_effect, List.mem_append] at hp
    rcases hp with hp | hp
    · cases o with
      | send u m =>
        cases a with
        | true =>
          simp only [packetOf, Option.toList, List.mem_singleton] at hp
          subst hp
          exact fun l hl => hmerged.phases t l (lists_send hallow hl)
        | false => cases hp
      | _ => cases hp
    · exact hmerged.net p hp
  case requests =>
    rw [requests_effect]
    exact hmerged.requests
  case phases =>
    intro t'
    rw [phases_did]
    split
    · exact lists_next hK hids hinj hreg hprov hmerged hallow ha
    · exact hmerged.phases t'
  case told =>
    intro ev hev l hl
    rcases List.mem_cons.1 hev with rfl | hev
    · cases o with
      | sendProxy client m => exact hmerged.phases t l (lists_sendProxy hallow hl)
      | _ => exact absurd hl List.not_mem_nil
    · exact hmerged.told ev hev l hl

end Step

/-! ## What arrives -/

/-- What arrives keeps it too, if the submitted lists have the property. -/
theorem merged_arrived {K : ShoppingList → Prop} {evs : History hash} {w w' : World hash} {e : Arrival}
    {r : Option (Tid × Code Unit)} (hmerged : Merged K evs w) (harr : arrive e w = some (r, w'))
    (hsub : ∀ l, submission (.arrived e : Event (cluster hash)) = some l → K l) :
    Merged K (.arrived e :: evs) w' := by
  refine ⟨?rows, ?inFlight, ?net, ?requests, ?phases, ?told⟩
  case rows =>
    rw [node_arrive harr]
    exact hmerged.rows
  case inFlight =>
    rw [node_arrive harr]
    exact hmerged.inFlight
  case net =>
    intro p hp
    rcases net_arrive harr hp with hp | ⟨src, dst, msg, rfl, hext, rfl⟩
    · exact hmerged.net p hp
    · intro l hl
      cases msg with
      | mergeList x =>
        obtain rfl := List.mem_singleton.1 hl
        exact hsub _ rfl
      | _ => first | exact absurd hl List.not_mem_nil | cases hext
  case requests =>
    intro q hq
    rcases requests_arrive harr hq with hq | ⟨client, msg, u, rfl, -, rfl⟩
    · exact hmerged.requests q hq
    · intro l hl
      rcases hl with hl | hl <;>
      · obtain rfl : msg = _ := hl
        exact hsub l rfl
  case phases =>
    intro t l hl
    rcases phases_arrived evs e t with hsame | ⟨g, hbegun, hg⟩
    · rw [hsame] at hl
      exact hmerged.phases t l hl
    · rw [hg] at hl
      cases e with
      | take q =>
        cases hbegun
        have hq := hmerged.requests q (mem_requests_of_take harr)
        cases hm : q.msg with
        | getList x =>
          rw [hm] at hl
          obtain rfl := List.mem_singleton.1 hl
          exact hq l (Or.inl hm)
        | putList x =>
          rw [hm] at hl
          obtain rfl := List.mem_singleton.1 hl
          exact hq l (Or.inr hm)
        | _ =>
          rw [hm] at hl
          exact absurd hl List.not_mem_nil
      | deliver p =>
        cases hbegun
        refine hmerged.net p (mem_net_of_deliver harr) l ?_
        cases hm : p.msg with
        | replicateList rid x write =>
          rw [hm] at hl
          cases write with
          | true => exact hl
          | false => exact absurd hl List.not_mem_nil
        | _ => rw [hm] at hl; first | exact hl | exact absurd hl List.not_mem_nil
      | tickGossip u => cases hbegun; exact absurd hl List.not_mem_nil
      | tickHintedHandoff u => cases hbegun; exact absurd hl List.not_mem_nil
      | tickFailureDetection u => cases hbegun; exact absurd hl List.not_mem_nil
      | _ => cases hbegun
  case told =>
    intro ev hev l hl
    rcases List.mem_cons.1 hev with rfl | hev
    · exact absurd hl List.not_mem_nil
    · exact hmerged.told ev hev l hl

/-! ## Runs -/

/-- The ids submitted earlier are among those submitted by now. -/
theorem ids_earlier {ids : Set Uuid} {ev : Event (cluster hash)} {evs : History hash}
    (h : ∀ X, submitted (ev :: evs) X ≠ [] → X ∈ ids) : ∀ X, submitted evs X ≠ [] → X ∈ ids := by
  intro X hX
  obtain ⟨new, hnew⟩ := submitted_cons ev evs X
  refine h X fun hnil => hX ?_
  rw [hnew] at hnil
  exact (List.append_eq_nil_iff.1 hnil).2

/-- If all submitted lists have one id, it is the only one. -/
theorem ids_of_submissions {evs : History hash} {id : Uuid}
    (h : ∀ l ∈ evs.filterMap submission, l.id = id) :
    ∀ X, submitted evs X ≠ [] → X ∈ ({id} : Set Uuid) := by
  intro X hX
  obtain ⟨s, hs⟩ := List.exists_mem_of_ne_nil _ hX
  obtain ⟨l, hl, -⟩ := List.mem_map.1 hs
  obtain ⟨hmem, hid⟩ := List.mem_filter.1 hl
  rw [← of_decide_eq_true hid]
  exact h l hmem

section Runs

variable {D : Discipline (cluster hash)} {w₀ : World hash} {evs : History hash}
  {c : Config (cluster hash)} {ids : Set Uuid}

/-- **What merging keeps, the servers keep**, if the hash separates the ids used. -/
theorem kept_by_servers {K : ShoppingList → Prop} (hK : ClosedUnderMerge K) (hw : w₀.Settled)
    (hempty : ∀ u, (w₀.node u).storage = .empty) (hrun : Run (cluster hash) D (quiet w₀) evs c)
    (hids : ∀ X, submitted evs X ≠ [] → X ∈ ids) (hinj : Set.InjOn (key hash) ids)
    (hsub : ∀ ev ∈ evs, ∀ l, submission ev = some l → K l) : Merged K evs c.state := by
  have hrun := hrun.with
    (fun evs w => Registered evs w ∧ ((∀ X, submitted evs X ≠ [] → X ∈ ids) → Provenance evs w))
    fun _ _ h => ⟨registered hw h, fun hids => provenance hw hempty h hids hinj⟩
  refine (cluster_invariant
    (fun evs w => (∀ X, submitted evs X ≠ [] → X ∈ ids) →
      (∀ ev ∈ evs, ∀ l, submission ev = some l → K l) → Merged K evs w)
    ?did ?ended ?arrived ?init hrun).1 hids hsub
  case did =>
    rintro evs w t o c a hmerged - hallow ha ⟨-, hreg, hprov⟩ hids hsub
    have hids := ids_earlier hids
    exact merged_did hK hids hinj hreg (hprov hids)
      (hmerged hids fun ev hev => hsub ev (List.mem_cons_of_mem _ hev)) hallow ha
  case ended =>
    intro evs w t hmerged hids hsub
    have hmerged := hmerged (ids_earlier hids) fun ev hev => hsub ev (List.mem_cons_of_mem _ hev)
    refine ⟨hmerged.rows, hmerged.inFlight, hmerged.net, hmerged.requests, fun t' l hl => ?_,
      fun ev hev l hl => ?_⟩
    · rw [phases_ended] at hl
      split at hl
      · exact absurd hl List.not_mem_nil
      · exact hmerged.phases t' l hl
    · rcases List.mem_cons.1 hev with rfl | hev
      · exact absurd hl List.not_mem_nil
      · exact hmerged.told ev hev l hl
  case arrived =>
    rintro evs w e r w' hmerged - harr - - hids hsub
    exact merged_arrived
      (hmerged (ids_earlier hids) fun ev hev => hsub ev (List.mem_cons_of_mem _ hev)) harr
      (hsub _ List.mem_cons_self)
  case init =>
    intro _ _
    refine ⟨fun u k r h => ?_, fun u rid q h => ?_, fun p hp => ?_, fun r hr => ?_,
      fun t l hl => absurd hl List.not_mem_nil, fun ev hev => absurd hev List.not_mem_nil⟩
    · rw [hempty] at h
      cases h
    · rw [hw.inFlight] at h
      simp at h
    · rw [hw.net] at hp
      cases hp
    · rw [hw.requests] at hr
      cases hr

/-- The list is what merging states submitted for its id gives. -/
def MergeOf (evs : History hash) (l : ShoppingList) : Prop :=
  ∃ e : Merging AWORMap, e.states ⊆ {s | s ∈ submitted evs l.id} ∧ e.result AWORMap.merge = l.list

theorem closed_mergeOf (evs : History hash) : ClosedUnderMerge (MergeOf evs) := by
  rintro l l' ⟨e, hstates, hresult⟩ ⟨e', hstates', hresult'⟩ hid
  rw [hid] at hstates'
  refine ⟨.merge e e', Set.union_subset hstates hstates', ?_⟩
  rw [Merging.result, hresult, hresult']

theorem mergeOf_of_submission {ev : Event (cluster hash)} (hev : ev ∈ evs) {l : ShoppingList}
    (h : submission ev = some l) : MergeOf evs l := by
  refine ⟨.state l.list, ?_, rfl⟩
  rintro _ rfl
  refine List.mem_map_of_mem (List.mem_filter.2 ⟨?_, decide_eq_true rfl⟩)
  exact List.mem_filterMap.2 ⟨ev, hev, h⟩

/-- **Servers only merge.**  Each row, each list collected for a request in flight and each list in a
message between peers is the result of merging states that have been submitted for its id; and each
list in an answer to a client is the result of merging states that had been submitted before the
answer. -/
theorem servers_only_merge (hw : w₀.Settled) (hempty : ∀ u, (w₀.node u).storage = .empty)
    (hrun : Run (cluster hash) anyStep (quiet w₀) evs c)
    (hids : ∀ X, submitted evs X ≠ [] → X ∈ ids) (hinj : Set.InjOn (key hash) ids) :
    (∀ u k r, (c.state.node u).storage.rows.find? k = some r → MergeOf evs r.crdtData) ∧
    (∀ u rid q, (c.state.node u).inFlight.find? rid = some q → ∀ l ∈ q.lists, MergeOf evs l) ∧
    (∀ p ∈ c.state.net, ∀ l ∈ p.msg.lists, MergeOf evs l) ∧
    ∀ later t client m a earlier, evs = later ++ .did t (.sendProxy client m) a :: earlier →
      ∀ l ∈ m.lists, MergeOf earlier l := by
  have hmerged := kept_by_servers (closed_mergeOf evs) hw hempty hrun hids hinj
    fun ev hev l h => mergeOf_of_submission hev h
  refine ⟨hmerged.rows, hmerged.inFlight, hmerged.net, fun later t client m a earlier hsplit l hl => ?_⟩
  rw [hsplit] at hrun hids
  obtain ⟨c', hrun'⟩ := hrun.earlier
  have hids' : ∀ X, submitted (.did t (.sendProxy client m) a :: earlier) X ≠ [] → X ∈ ids := by
    clear hsplit hrun
    induction later with
    | nil => exact hids
    | cons ev later ih => exact ih (ids_earlier hids)
  refine (kept_by_servers (closed_mergeOf earlier) hw hempty hrun' hids' hinj
    fun ev hev x hx => ?_).told _ List.mem_cons_self l hl
  rcases List.mem_cons.1 hev with rfl | hev
  · cases hx
  · exact mergeOf_of_submission hev hx

end Runs

/-- The first replica has stored what the client has put, and nothing else. -/
theorem servers_only_merge_putReplicated :
    ∃ evs c, Run (cluster md5) anyStep
        (quiet (World.joined md5 [.ofTail 1, .ofTail 2, .ofTail 3])) evs c ∧
      ∃ r, (c.state.node (.ofTail 3)).storage.rows.find? (key md5 (.ofTail 101)) = some r ∧
        MergeOf evs r.crdtData := by
  obtain ⟨evs, c, hrun, hcheck⟩ := exists_run (D := anyStep) (fun _ _ _ => true)
    (fun _ _ _ _ => trivial) (quiet (World.joined md5 [.ofTail 1, .ofTail 2, .ofTail 3]))
    putReplicated
    (fun evs c => (evs.filterMap submission).all (fun l => l.id = .ofTail 101) &&
      ((c.state.node (.ofTail 3)).storage.rows.find? (key md5 (.ofTail 101))).isSome)
    (by decide +kernel)
  obtain ⟨hids, hrow⟩ := Bool.and_eq_true_iff.1 hcheck
  obtain ⟨r, hr⟩ := Option.isSome_iff_exists.1 hrow
  have hids := ids_of_submissions fun l hl => of_decide_eq_true (List.all_eq_true.1 hids l hl)
  exact ⟨evs, c, hrun, r, hr, (servers_only_merge (settled_joined md5 _) (fun _ => rfl) hrun
    hids (Set.injOn_singleton _ _)).1 _ _ r hr⟩

end Sdle
