import Sdle.Requests

/-!
# Where the lists of the servers come from

* `servers_invent_nothing` — **servers invent nothing and never mix lists**: in every run from empty
  stores, whatever is delayed, lost or late, each row, each list collected for a request in flight and
  each list in an `AckList` belongs to the list id that it stands for, and is dominated by the merge of
  the states submitted for that id so far.

`merge_lists` and the store merge without comparing ids.  What keeps the ids apart is that a request
id names one request (`registered`), and that a row lies under the key of its own list.
-/

set_option autoImplicit false

namespace Sdle

open Tasks Peer ServerStorage

variable {hash : String → U128}

/-! ## Submitted states -/

/-- The list that a client submits in a step. -/
def submission : Event (cluster hash) → Option ShoppingList
  | .arrived (.request _ (.getList l)) => some l
  | .arrived (.request _ (.putList l)) => some l
  | .arrived (.message _ _ (.mergeList l)) => some l
  | _ => none

/-- The states submitted for a list id. -/
def submitted (evs : History hash) (id : Uuid) : List AWORMap :=
  ((evs.filterMap submission).filter fun l => l.id = id).map ShoppingList.list

/-- A list is dominated by the merge of the states submitted for its id. -/
def Known (evs : History hash) (l : ShoppingList) : Prop :=
  ∃ m, mergeAll (submitted evs l.id) = some m ∧ l.list ≤ m

theorem exists_mergeAll {ss : List AWORMap} {s : AWORMap} (h : s ∈ ss) :
    ∃ m, mergeAll ss = some m ∧ ∀ x ∈ ss, x ≤ m := by
  cases ss with
  | nil => cases h
  | cons t ss => exact ⟨_, rfl, (mergeAll_le_iff rfl _).1 le_rfl⟩

theorem known_iff (evs : History hash) (l : ShoppingList) :
    Known evs l ↔ submitted evs l.id ≠ [] ∧
      ∀ u, (∀ s ∈ submitted evs l.id, s ≤ u) → l.list ≤ u := by
  constructor
  · rintro ⟨m, hm, hle⟩
    refine ⟨fun h => ?_, fun u hu => le_trans hle ((mergeAll_le_iff hm u).2 hu)⟩
    rw [h] at hm
    cases hm
  · rintro ⟨hne, hle⟩
    obtain ⟨s, hs⟩ := List.exists_mem_of_ne_nil _ hne
    obtain ⟨m, hm, hall⟩ := exists_mergeAll hs
    exact ⟨m, hm, hle m hall⟩

theorem submitted_cons (ev : Event (cluster hash)) (evs : History hash) (id : Uuid) :
    ∃ new, submitted (ev :: evs) id = new ++ submitted evs id := by
  refine ⟨submitted [ev] id, ?_⟩
  unfold submitted
  rw [← List.map_append, ← List.filter_append, ← List.filterMap_append, List.singleton_append]

theorem Known.cons {evs : History hash} {l : ShoppingList} (h : Known evs l)
    (ev : Event (cluster hash)) : Known (ev :: evs) l := by
  obtain ⟨hne, hle⟩ := (known_iff evs l).1 h
  obtain ⟨new, hnew⟩ := submitted_cons ev evs l.id
  refine (known_iff _ l).2 ?_
  rw [hnew]
  refine ⟨fun h => hne (List.append_eq_nil_iff.1 h).2, fun u hu => hle u fun s hs => ?_⟩
  exact hu s (List.mem_append_right _ hs)

theorem known_of_submission {ev : Event (cluster hash)} {l : ShoppingList}
    (h : submission ev = some l) (evs : History hash) : Known (ev :: evs) l := by
  have hmem : l.list ∈ submitted (ev :: evs) l.id := by
    unfold submitted
    rw [List.filterMap_cons_some h]
    simp
  obtain ⟨m, hm, hall⟩ := exists_mergeAll hmem
  exact ⟨m, hm, hall _ hmem⟩

theorem Known.merge {evs : History hash} {l l' : ShoppingList} (h : Known evs l)
    (h' : Known evs l') (hid : l'.id = l.id) :
    Known evs { l with list := l.list.merge l'.list } := by
  obtain ⟨m, hm, hle⟩ := h
  obtain ⟨m', hm', hle'⟩ := h'
  rw [hid, hm] at hm'
  cases hm'
  exact ⟨m, hm, AWORMap.merge_le hle hle'⟩

theorem Known.mergeLists {evs : History hash} {q : QuoromState} {s : ShoppingList} {id : Uuid}
    (h : ∀ l ∈ q.lists, l.id = id ∧ Known evs l) (hs : q.mergeLists = some s) :
    s.id = id ∧ Known evs s := by
  obtain ⟨l, hl, hid⟩ := QuoromState.id_mergeLists hs
  obtain ⟨rfl, m, hm, -⟩ := h l hl
  refine ⟨hid, m, by rw [hid, hm], QuoromState.mergeLists_le hs fun x hx => ?_⟩
  obtain ⟨hx, m', hm', hle⟩ := h x hx
  rw [hx, hm] at hm'
  cases hm'
  exact hle

/-! ## The invariant -/

/-- A request id stands for a list id. -/
def About (evs : History hash) (rid : String) (id : Uuid) : Prop :=
  ∃ u l, opened rid evs = [(u, l)] ∧ l.id = id

/-- What holds of a message between the peers. -/
def Sound (evs : History hash) : Msg → Prop
  | .ackList rid l => About evs rid l.id ∧ Known evs l
  | .replicateList rid l write => (write = false → About evs rid l.id) ∧ Known evs l
  | .handoff _ l _ => Known evs l
  | .mergeList l => Known evs l
  | _ => True

/-- What holds of a request: its list has been submitted, and so has the row it found. -/
def JobOk (evs : History hash) (job : Job) : Prop :=
  Known evs job.list ∧ ∀ l, job.base = some l → l.id = job.list.id ∧ Known evs l

/-- What holds of the lists in a phase. -/
def PhaseOk (evs : History hash) : Phase → Prop
  | .store _ _ l => Known evs l
  | .hint _ _ l _ => Known evs l
  | .look _ rid id => About evs rid id ∧ submitted evs id ≠ []
  | .ackListTo _ rid l => About evs rid l.id ∧ Known evs l
  | .countList rid l => About evs rid l.id ∧ Known evs l
  | .mergeIn l => Known evs l
  | .mergeOut l => Known evs l
  | .moving ls => ∀ l ∈ ls, Known evs l
  | .hints todo => ∀ h ∈ todo, Known evs h.2
  | .hinting _ todo => ∀ h ∈ todo, Known evs h.2
  | .delivered _ _ todo => ∀ h ∈ todo, Known evs h.2
  | .asked _ l => Known evs l
  | .start job => JobOk evs job
  | .chosen job _ => JobOk evs job
  | .named job _ _ => JobOk evs job
  | .spreading job _ _ _ => JobOk evs job
  | .decided job _ _ => JobOk evs job
  | .writing job l => l.id = job.list.id ∧ Known evs l
  | .answering job l => l.id = job.list.id ∧ Known evs l
  | _ => True

/-- What holds of the lists that a peer sends as an answer. -/
def SentOk (earlier : History hash) : Event (cluster hash) → Prop
  | .did _ (.send _ (.ackList rid l)) _ => About earlier rid l.id ∧ Known earlier l
  | .did t (.sendProxy client (.ackList _ l)) _ =>
    ∃ r l', handling t.peer earlier = some r ∧ r.clientId = client ∧
      (r.msg = .getList l' ∨ r.msg = .putList l') ∧ l.id = l'.id ∧ Known earlier l
  | _ => True

/-- Everything that the servers hold has been submitted. -/
structure Provenance (evs : History hash) (w : World hash) : Prop where
  rows : ∀ u k r, (w.node u).storage.rows.find? k = some r → Known evs r.crdtData
  inFlight : ∀ u rid q, (w.node u).inFlight.find? rid = some q →
    ∀ l ∈ q.lists, About evs rid l.id ∧ Known evs l
  net : ∀ p ∈ w.net, Sound evs p.msg
  requests : ∀ r ∈ w.requests, ∀ l, r.msg = .getList l ∨ r.msg = .putList l → Known evs l
  phases : ∀ t, PhaseOk evs (phases evs t)
  sent : Throughout SentOk evs

/-! ## What is known stays known -/

section Mono

variable {evs : History hash} {ev : Event (cluster hash)}
  (habout : ∀ {rid id}, About evs rid id → About (ev :: evs) rid id)

include habout

theorem Sound.cons {m : Msg} (h : Sound evs m) : Sound (ev :: evs) m := by
  cases m with
  | ackList rid l => exact ⟨habout h.1, h.2.cons ev⟩
  | replicateList rid l write => exact ⟨fun hw => habout (h.1 hw), h.2.cons ev⟩
  | handoff rid l d => exact Known.cons h ev
  | mergeList l => exact Known.cons h ev
  | _ => trivial

theorem PhaseOk.cons {g : Phase} (h : PhaseOk evs g) : PhaseOk (ev :: evs) g := by
  have hjob : ∀ {job}, JobOk evs job → JobOk (ev :: evs) job :=
    fun h => ⟨h.1.cons ev, fun l hl => ⟨(h.2 l hl).1, (h.2 l hl).2.cons ev⟩⟩
  cases g with
  | look src rid id =>
    obtain ⟨new, hnew⟩ := submitted_cons ev evs id
    refine ⟨habout h.1, fun hnil => h.2 ?_⟩
    rw [hnew] at hnil
    exact (List.append_eq_nil_iff.1 hnil).2
  | ackListTo src rid l => exact ⟨habout h.1, h.2.cons ev⟩
  | countList rid l => exact ⟨habout h.1, h.2.cons ev⟩
  | moving ls => exact fun l hl => (h l hl).cons ev
  | hints todo => exact fun x hx => (h x hx).cons ev
  | hinting rid todo => exact fun x hx => (h x hx).cons ev
  | delivered d l todo => exact fun x hx => (h x hx).cons ev
  | start job => exact hjob h
  | chosen job replicas => exact hjob h
  | named job replicas rid => exact hjob h
  | spreading job replicas rid todo => exact hjob h
  | decided job rid ok => exact hjob h
  | writing job l => exact ⟨h.1, h.2.cons ev⟩
  | answering job l => exact ⟨h.1, h.2.cons ev⟩
  | store src rid l => exact Known.cons h ev
  | hint src rid l d => exact Known.cons h ev
  | mergeIn l => exact Known.cons h ev
  | mergeOut l => exact Known.cons h ev
  | asked client l => exact Known.cons h ev
  | _ => trivial

end Mono

/-! ## What a task does -/

section Step

variable {evs : History hash} {w : World hash} {t : Tid} {o : Op} {c : Choice} {a : Ans o}

/-- What a task sends is sound. -/
theorem sound_send (hreg : Registered evs w) (hok : PhaseOk evs (phases evs t)) {u : Uuid} {m : Msg}
    (hallow : (phases evs t).allow (.send u m)) : Sound evs m := by
  rcases hallow with hm | hsends
  · cases m with
    | ackList rid l => cases hm
    | replicateList rid l write => cases hm
    | handoff rid l d => cases hm
    | mergeList l => cases hm
    | _ => trivial
  · have hpending := hreg.pending t
    cases hg : phases evs t with
    | ackTo src rid =>
      rw [hg] at hsends
      obtain ⟨-, rfl⟩ := hsends
      trivial
    | ackListTo src rid l =>
      rw [hg] at hsends hok
      obtain ⟨-, rfl⟩ := hsends
      exact hok
    | moving ls =>
      rw [hg] at hsends hok
      obtain ⟨l, hl, rfl⟩ := hsends
      exact ⟨fun h => absurd h (by decide), hok l hl⟩
    | hinting rid todo =>
      rw [hg] at hsends hok
      cases todo with
      | nil => exact hsends.elim
      | cons x todo =>
        obtain ⟨-, rfl⟩ := hsends
        exact ⟨fun h => absurd h (by decide), hok x List.mem_cons_self⟩
    | spreading job replicas rid todo =>
      rw [hg] at hsends hok hpending
      rcases hsends with ⟨-, rfl⟩ | ⟨-, r, -, rfl⟩
      · exact ⟨fun _ => ⟨_, _, hpending rid job.list rfl, rfl⟩, hok.1⟩
      · exact hok.1
    | _ =>
      rw [hg] at hsends
      exact hsends.elim

/-- A row that is read under the key of a list is a state of that list. -/
theorem known_row {ids : Set Uuid} (hids : ∀ X, submitted evs X ≠ [] → X ∈ ids)
    (hinj : Set.InjOn (key hash) ids) {s : ServerStorage hash}
    (hrows : ∀ k r, s.rows.find? k = some r → Known evs r.crdtData) {id : Uuid} (hid : id ∈ ids)
    {l : ShoppingList} (h : s.getShoppingList id = some l) : l.id = id ∧ Known evs l := by
  obtain ⟨hint, hrow⟩ := (getShoppingList_eq_some s id l).1 h
  have hl : Known evs l := hrows _ _ hrow
  exact ⟨hinj (hids _ ((known_iff evs l).1 hl).1) hid (s.keyed _ _ hrow), hl⟩

/-- **What a task has in hand next is known.** -/
theorem phaseOk_next {ids : Set Uuid} (hids : ∀ X, submitted evs X ≠ [] → X ∈ ids)
    (hinj : Set.InjOn (key hash) ids) (hreg : Registered evs w) (hprov : Provenance evs w)
    (hallow : (phases evs t).allow o) (ha : answer t o c w = some a) :
    PhaseOk evs ((phases evs t).next hash o a) := by
  have hok := hprov.phases t
  have hpending := hreg.pending t
  have hrows := hprov.rows t.peer
  have hrow := fun id (hid : submitted evs id ≠ []) l =>
    known_row (l := l) hids hinj hrows (hids id hid)
  have hgo : Phase.Goes hash (phases evs t) o a ((phases evs t).next hash o a) :=
    Phase.goes_next hallow
  generalize (phases evs t).next hash o a = g' at hgo
  generalize phases evs t = g at hok hpending hgo
  cases hgo with
  | stay => exact hok
  | drop => trivial
  | found =>
    obtain ⟨rfl, hl⟩ := hrow _ hok.2 _ (Choice.attempt_eq_some ha)
    exact ⟨hok.1, hl⟩
  | merged =>
    obtain ⟨hid, hl⟩ := hrow _ ((known_iff _ _).1 hok).1 _ (Choice.attempt_eq_some ha)
    exact hl.merge hok hid.symm
  | unmerged => exact hok
  | based =>
    refine ⟨hok, fun l hl => hrow _ ((known_iff _ _).1 hok).1 l ?_⟩
    rw [Choice.attempt_eq_some ha]
    exact hl
  | kept => trivial
  | wrote => exact hok
  | noted => trivial
  | read =>
    rename_i hints
    intro x hx
    cases hints with
    | none => exact absurd hx List.not_mem_nil
    | some hints =>
      rw [← Choice.attempt_eq_some ha] at hx
      exact hrows _ _ ((mem_getHintedHandoffs _ _ _).1 hx)
  | deleted => exact hok
  | old =>
    rename_i ls u h lists
    intro l hl
    cases lists with
    | none => exact absurd hl List.not_mem_nil
    | some lists =>
      rw [← Choice.attempt_eq_some ha] at hl
      exact hrows _ _ (mem_getOldData _ hl)
  | all =>
    rename_i ls rows
    intro l hl
    cases rows with
    | none => exact absurd hl List.not_mem_nil
    | some rows =>
      rw [← Choice.attempt_eq_some ha] at hl
      obtain ⟨⟨k, l'⟩, hmem, rfl⟩ := List.mem_map.1 hl
      obtain ⟨-, hint, hr⟩ := mem_getAllRows _ hmem
      exact hrows _ _ hr
  | choice => exact hok
  | named => exact hok
  | hinted hg =>
    rcases hg with rfl | ⟨rid, h, rfl⟩ | ⟨d, l, rfl⟩
    · exact hok
    · exact fun x hx => hok x (List.mem_cons_of_mem _ hx)
    · exact hok
  | opened => exact hok
  | spread => exact hok
  | sent => exact fun x hx => hok x (List.mem_cons_of_mem _ hx)
  | unsent => exact fun x hx => hok x (List.mem_cons_of_mem _ hx)
  | decided => exact hok
  | write => exact ⟨rfl, hok.1⟩
  | join hbase hlists =>
    rename_i job rid q l s
    obtain ⟨q, rfl, hs⟩ := Option.bind_eq_some_iff.1 hlists
    have hq : (w.node t.peer).inFlight.find? rid = some q := Option.some.inj ha
    have hall : ∀ l ∈ q.lists, l.id = job.list.id ∧ Known evs l := by
      intro l hl
      obtain ⟨⟨u, l₀, hopen, hid⟩, hknown⟩ := hprov.inFlight _ _ _ hq l hl
      rw [hpending rid job.list rfl] at hopen
      obtain ⟨⟨-, rfl⟩, -⟩ := List.cons.inj hopen
      exact ⟨hid.symm, hknown⟩
    obtain ⟨hid, hs⟩ := Known.mergeLists hall hs
    obtain ⟨hl, hknown⟩ := hok.2 l hbase
    exact ⟨hl, hknown.merge hs (hid.trans hl.symm)⟩
  | refused => trivial

/-- The rows that a task writes are known. -/
theorem known_rows (hprov : Provenance evs w) (hallow : (phases evs t).allow o)
    {k : U128} {r : Row} (h : (storageAfter o a (w.node t.peer).storage).rows.find? k = some r) :
    Known evs r.crdtData := by
  have hok := hprov.phases t
  have hrows := hprov.rows t.peer k r
  have hupsert : ∀ {l hint}, Known evs l →
      ((w.node t.peer).storage.upsert l hint).rows.find? k = some r → Known evs r.crdtData := by
    intro l hint hl h
    rw [rows_upsert] at h
    split at h
    · rw [← Option.some.inj h]
      exact hl
    · exact hrows h
  cases o with
  | writeShoppingList l =>
    have hl : Known evs l := by
      cases hg : phases evs t <;> rw [hg] at hallow hok <;> first
        | (obtain rfl := hallow; first | exact hok | exact hok.2)
        | exact hallow.elim
    cases a with
    | none => exact hrows h
    | some _ => exact hupsert hl h
  | writeShoppingListHandoff l d =>
    obtain ⟨src, rid, hg⟩ := hallow
    rw [hg] at hok
    cases a with
    | none => exact hrows h
    | some _ => exact hupsert hok h
  | deleteShoppingList id =>
    cases a with
    | none => exact hrows h
    | some _ =>
      simp only [storageAfter, rows_delete] at h
      split at h
      · cases h
      · exact hrows h
  | _ => exact hrows h

/-- What a task adds to a request in flight is known and about the same list. -/
theorem known_inFlight (hprov : Provenance evs w) (hreg' : Registered (.did t o a :: evs) (effect t o a w))
    (habout : ∀ {rid id}, About evs rid id → About (.did t o a :: evs) rid id)
    (hallow : (phases evs t).allow o) {u : Uuid} {rid : String} {q : QuoromState}
    (h : ((effect t o a w).node u).inFlight.find? rid = some q) {l : ShoppingList}
    (hl : l ∈ q.lists) : About (.did t o a :: evs) rid l.id ∧ Known (.did t o a :: evs) l := by
  have hok := hprov.phases t
  obtain ⟨l₀, hl₀, hopen⟩ := hreg'.inFlight u rid q h
  rcases inFlight_effect h with ⟨rfl, rfl⟩ | ⟨q₀, hq₀, hq⟩
  · obtain ⟨job, replicas, hg, rfl⟩ := hallow
    rw [hg] at hok
    obtain rfl := List.mem_singleton.1 hl
    obtain rfl := List.mem_singleton.1 hl₀
    exact ⟨⟨_, _, hopen, rfl⟩, hok.1.cons _⟩
  · have hold : ∀ x ∈ q₀.lists, About (.did t o a :: evs) rid x.id ∧ Known (.did t o a :: evs) x :=
      fun x hx => ⟨habout (hprov.inFlight u rid q₀ hq₀ x hx).1,
        (hprov.inFlight u rid q₀ hq₀ x hx).2.cons _⟩
    rcases hq with ⟨-, -, hans⟩ | ⟨-, rfl⟩
    · cases o with
      | ackList r x =>
        by_cases hr : r = rid
        · -- an `AckList` that is counted
          simp only [answerTo, if_pos hr] at hans
          rw [hans.1, List.mem_append, List.mem_singleton] at hl
          rcases hl with hl | rfl
          · exact hold l hl
          · subst hr
            rw [show phases evs t = .countList r l from hallow] at hok
            exact ⟨habout hok.1, hok.2.cons _⟩
        · simp only [answerTo, if_neg hr] at hans
          rw [hans.1] at hl
          exact hold l hl
      | ack r =>
        refine hold l ?_
        by_cases hr : r = rid
        · simp only [answerTo, if_pos hr, List.append_nil] at hans
          rwa [hans.1] at hl
        · simp only [answerTo, if_neg hr] at hans
          rwa [hans.1] at hl
      | _ =>
        rw [show q.lists = q₀.lists from hans.1] at hl
        exact hold l hl
    · exact hold l hl

/-- What a task tells a client is known and about the client's list. -/
theorem sentOk_did (hreg : Registered evs w) (hh : Handles evs) (hprov : Provenance evs w)
    (hallow : (phases evs t).allow o) : SentOk evs (.did t o a) := by
  cases o with
  | send u m =>
    have hsound := sound_send hreg (hprov.phases t) hallow
    cases m with
    | ackList rid l => exact hsound
    | _ => trivial
  | sendProxy client m =>
    have hok := hprov.phases t
    have hrequest := hh t
    simp only [Phase.allow] at hallow
    cases hg : phases evs t with
    | answering job l =>
      rw [hg] at hallow hok hrequest
      obtain ⟨rfl, rfl⟩ := hallow
      obtain ⟨r, hr, hclient, hmsg⟩ := hrequest job.client job.list rfl
      exact ⟨r, job.list, hr, hclient, hmsg, hok.1, hok.2⟩
    | refusing job =>
      rw [hg] at hallow
      obtain ⟨-, rfl⟩ := hallow
      trivial
    | _ =>
      rw [hg] at hallow
      exact hallow.elim
  | _ => trivial

end Step

/-- The invariant is kept by an operation. -/
theorem provenance_did {evs : History hash} {w : World hash} {t : Tid} {o : Op} {c : Choice}
    {a : Ans o} {ids : Set Uuid} (hids : ∀ X, submitted evs X ≠ [] → X ∈ ids)
    (hinj : Set.InjOn (key hash) ids) (hreg : Registered evs w) (hh : Handles evs)
    (hprov : Provenance evs w) (hallow : (phases evs t).allow o) (ha : answer t o c w = some a) :
    Provenance (.did t o a :: evs) (effect t o a w) := by
  have habout : ∀ {rid id}, About evs rid id → About (.did t o a :: evs) rid id := by
    rintro rid id ⟨u, l, hopen, hid⟩
    refine ⟨u, l, ?_, hid⟩
    rw [hreg.opened_stays a hallow (by rw [hopen]; exact List.cons_ne_nil _ _), hopen]
  refine ⟨?rows, ?inFlight, ?net, ?requests, ?phases, sentOk_did hreg hh hprov hallow, hprov.sent⟩
  case rows =>
    intro u k r h
    rw [storage_effect] at h
    split at h
    · rename_i hu
      subst hu
      exact (known_rows hprov hallow h).cons _
    · exact (hprov.rows u k r h).cons _
  case inFlight =>
    intro u rid q h l hl
    exact known_inFlight hprov (registered_did hreg hallow ha) habout hallow h hl
  case net =>
    intro p hp
    rw [net_effect, List.mem_append] at hp
    rcases hp with hp | hp
    · cases o with
      | send u m =>
        cases a with
        | true =>
          simp only [packetOf, Option.toList, List.mem_singleton] at hp
          subst hp
          exact (sound_send hreg (hprov.phases t) hallow).cons habout
        | false => cases hp
      | _ => cases hp
    · exact (hprov.net p hp).cons habout
  case requests =>
    intro r hr l hl
    rw [requests_effect] at hr
    exact (hprov.requests r hr l hl).cons _
  case phases =>
    intro t'
    rw [phases_did]
    split
    · exact (phaseOk_next hids hinj hreg hprov hallow ha).cons habout
    · exact (hprov.phases t').cons habout

/-- It is kept by what arrives. -/
theorem provenance_arrived {evs : History hash} {w w' : World hash} {e : Arrival}
    {r : Option (Tid × Code Unit)} (hprov : Provenance evs w) (harr : arrive e w = some (r, w')) :
    Provenance (.arrived e :: evs) w' := by
  have habout : ∀ {rid id}, About evs rid id → About (.arrived e :: evs) rid id := id
  refine ⟨?rows, ?inFlight, ?net, ?requests, ?phases, trivial, hprov.sent⟩
  case rows =>
    intro u k row h
    rw [node_arrive harr] at h
    exact (hprov.rows u k row h).cons _
  case inFlight =>
    intro u rid q h l hl
    rw [node_arrive harr] at h
    obtain ⟨hid, hl⟩ := hprov.inFlight u rid q h l hl
    exact ⟨habout hid, hl.cons _⟩
  case net =>
    intro p hp
    rcases net_arrive harr hp with hp | ⟨src, dst, msg, rfl, hext, rfl⟩
    · exact (hprov.net p hp).cons habout
    · cases msg with
      | mergeList l => exact known_of_submission rfl evs
      | ackList rid l => cases hext
      | replicateList rid l write => cases hext
      | handoff rid l d => cases hext
      | _ => trivial
  case requests =>
    intro q hq l hl
    rcases requests_arrive harr hq with hq | ⟨client, msg, u, rfl, -, rfl⟩
    · exact (hprov.requests q hq l hl).cons _
    · rcases hl with hl | hl <;>
      · obtain rfl : msg = _ := hl
        exact known_of_submission rfl evs
  case phases =>
    intro t
    rcases phases_arrived evs e t with hsame | ⟨g, hbegun, hg⟩
    · rw [hsame]
      exact (hprov.phases t).cons habout
    · rw [hg]
      refine PhaseOk.cons habout ?_
      cases e with
      | take q =>
        cases hbegun
        have hq := hprov.requests q (mem_requests_of_take harr)
        cases hm : q.msg with
        | getList l => exact hq l (Or.inl hm)
        | putList l => exact ⟨hq l (Or.inr hm), fun x hx => by cases hx⟩
        | _ => trivial
      | deliver p =>
        cases hbegun
        have hp := hprov.net p (mem_net_of_deliver harr)
        cases hm : p.msg with
        | replicateList rid l write =>
          rw [hm] at hp
          cases write with
          | true => exact hp.2
          | false => exact ⟨hp.1 rfl, ((known_iff _ _).1 hp.2).1⟩
        | ackList rid l =>
          rw [hm] at hp
          exact hp
        | handoff rid l d =>
          rw [hm] at hp
          exact hp
        | mergeList l =>
          rw [hm] at hp
          exact hp
        | gossip table => exact fun l hl => absurd hl List.not_mem_nil
        | leave => exact fun l hl => absurd hl List.not_mem_nil
        | _ => trivial
      | tickGossip u => cases hbegun; trivial
      | tickHintedHandoff u => cases hbegun; trivial
      | tickFailureDetection u => cases hbegun; trivial
      | _ => cases hbegun

/-- **Everything that the servers hold has been submitted**, if the hash separates the ids used. -/
theorem provenance {D : Discipline (cluster hash)} {w₀ : World hash} (hw : w₀.Settled)
    (hempty : ∀ u, (w₀.node u).storage = .empty) {evs : History hash} {c : Config (cluster hash)}
    (hrun : Run (cluster hash) D (quiet w₀) evs c) {ids : Set Uuid}
    (hids : ∀ X, submitted evs X ≠ [] → X ∈ ids) (hinj : Set.InjOn (key hash) ids) :
    Provenance evs c.state := by
  have hrun := hrun.with (fun evs w => Registered evs w ∧ Handles evs)
    fun _ _ h => ⟨registered hw h, handled h⟩
  have hpast : ∀ {ev} {evs : History hash}, (∀ X, submitted (ev :: evs) X ≠ [] → X ∈ ids) →
      ∀ X, submitted evs X ≠ [] → X ∈ ids := by
    intro ev evs h X hX
    obtain ⟨new, hnew⟩ := submitted_cons ev evs X
    refine h X fun hnil => hX ?_
    rw [hnew] at hnil
    exact (List.append_eq_nil_iff.1 hnil).2
  refine (cluster_invariant
    (fun evs w => (∀ X, submitted evs X ≠ [] → X ∈ ids) → Provenance evs w)
    ?did ?ended ?arrived ?init hrun).1 hids
  case did =>
    rintro evs w t o c a hprov - hallow ha ⟨-, hreg, hh⟩ hids
    exact provenance_did (hpast hids) hinj hreg hh (hprov (hpast hids)) hallow ha
  case ended =>
    intro evs w t hprov hids
    have hprov := hprov (hpast hids)
    have habout : ∀ {rid id}, About evs rid id → About (.ended t :: evs) rid id := id
    refine ⟨fun u k r h => (hprov.rows u k r h).cons _, fun u rid q h l hl => ?_,
      fun p hp => (hprov.net p hp).cons habout, fun r hr l hl => (hprov.requests r hr l hl).cons _,
      fun t' => ?_, trivial, hprov.sent⟩
    · exact ⟨habout (hprov.inFlight u rid q h l hl).1, (hprov.inFlight u rid q h l hl).2.cons _⟩
    · rw [phases_ended]
      split
      · trivial
      · exact (hprov.phases t').cons habout
  case arrived =>
    rintro evs w e r w' hprov - harr - - hids
    exact provenance_arrived (hprov (hpast hids)) harr
  case init =>
    intro _
    refine ⟨fun u k r h => ?_, fun u rid q h => ?_, fun p hp => ?_, fun r hr => ?_,
      fun t => trivial, trivial⟩
    · rw [hempty] at h
      cases h
    · rw [hw.inFlight] at h
      simp at h
    · rw [hw.net] at hp
      cases hp
    · rw [hw.requests] at hr
      cases hr

/-- **Servers invent nothing and never mix lists.**  A row under the key of a list id holds a state of
that list; the lists collected for a request in flight belong to the one list that it was opened for;
an `AckList` between peers carries a state of the list that its request was opened for, and one to a
client a state of the list that the client has asked for; and all of them are dominated by the merge
of the states submitted so far. -/
theorem servers_invent_nothing {w₀ : World hash} (hw : w₀.Settled)
    (hempty : ∀ u, (w₀.node u).storage = .empty) {evs : History hash} {c : Config (cluster hash)}
    (hrun : Run (cluster hash) anyStep (quiet w₀) evs c) {ids : Set Uuid}
    (hids : ∀ X, submitted evs X ≠ [] → X ∈ ids) (hinj : Set.InjOn (key hash) ids) :
    (∀ u, ∀ X ∈ ids, ∀ r, (c.state.node u).storage.rows.find? (key hash X) = some r →
      r.crdtData.id = X ∧ Known evs r.crdtData) ∧
    (∀ u rid q, (c.state.node u).inFlight.find? rid = some q →
      ∃ l₀, opened rid evs = [(u, l₀)] ∧ ∀ l ∈ q.lists, l.id = l₀.id ∧ Known evs l) ∧
    (∀ later t u rid l a earlier, evs = later ++ .did t (.send u (.ackList rid l)) a :: earlier →
      ∃ v l₀, opened rid earlier = [(v, l₀)] ∧ l.id = l₀.id ∧ Known earlier l) ∧
    (∀ later t client rid l a earlier,
      evs = later ++ .did t (.sendProxy client (.ackList rid l)) a :: earlier →
      ∃ r l₀, handling t.peer earlier = some r ∧ r.clientId = client ∧
        (r.msg = .getList l₀ ∨ r.msg = .putList l₀) ∧ l.id = l₀.id ∧ Known earlier l) := by
  have hprov := provenance hw hempty hrun hids hinj
  have hreg := registered hw hrun
  have hsent := (throughout_iff evs).1 hprov.sent
  refine ⟨?_, ?_, ?_, ?_⟩
  · intro u X hX r hr
    have hget := (getShoppingList_eq_some _ X r.crdtData).2 ⟨r.hintedHandoff, hr⟩
    exact known_row hids hinj (hprov.rows u) hX hget
  · intro u rid q hq
    obtain ⟨l₀, -, hopen⟩ := hreg.inFlight u rid q hq
    refine ⟨l₀, hopen, fun l hl => ?_⟩
    obtain ⟨⟨v, l', hopen', hid⟩, hl⟩ := hprov.inFlight u rid q hq l hl
    rw [hopen] at hopen'
    obtain ⟨⟨-, rfl⟩, -⟩ := List.cons.inj hopen'
    exact ⟨hid.symm, hl⟩
  · intro later t u rid l a earlier hsplit
    obtain ⟨⟨v, l₀, hopen, hid⟩, hl⟩ := hsent later _ earlier hsplit
    exact ⟨v, l₀, hopen, hid.symm, hl⟩
  · intro later t client rid l a earlier hsplit
    exact hsent later _ earlier hsplit

/-- A client puts a list; the coordinator sends it to the first replica, which stores it. -/
def putReplicated : List (Move (cluster md5)) :=
  .arrive (.request [] (.putList (oneItem "milk" 201))) ::
  .arrive (.take ⟨0, .ofTail 1, [], .putList (oneItem "milk" 201)⟩) ::
  List.replicate 3 (.turn (.proxied (.ofTail 1)) .yes) ++
  .turn (.proxied (.ofTail 1)) (.uuid (.ofTail 301)) ::
  List.replicate 9 (.turn (.proxied (.ofTail 1)) .yes) ++
  .arrive (.deliver ⟨1, .ofTail 1, .ofTail 3,
    .replicateList (Uuid.toString (.ofTail 301)) (oneItem "milk" 201) true⟩) ::
  List.replicate 3 (.turn (.incoming (.ofTail 3) 1) .yes)

theorem servers_invent_nothing_putReplicated :
    ∃ evs c, Run (cluster md5) anyStep
        (quiet (World.joined md5 [.ofTail 1, .ofTail 2, .ofTail 3])) evs c ∧
      ∃ r, (c.state.node (.ofTail 3)).storage.rows.find? (key md5 (.ofTail 101)) = some r ∧
        r.crdtData.id = .ofTail 101 ∧ Known evs r.crdtData := by
  obtain ⟨evs, c, hrun, hcheck⟩ := exists_run (D := anyStep) (fun _ _ _ => true)
    (fun _ _ _ _ => trivial) (quiet (World.joined md5 [.ofTail 1, .ofTail 2, .ofTail 3]))
    putReplicated
    (fun evs c => (evs.filterMap submission).all (fun l => l.id = .ofTail 101) &&
      ((c.state.node (.ofTail 3)).storage.rows.find? (key md5 (.ofTail 101))).isSome)
    (by decide +kernel)
  obtain ⟨hids, hrow⟩ := Bool.and_eq_true_iff.1 hcheck
  obtain ⟨r, hr⟩ := Option.isSome_iff_exists.1 hrow
  have hids : ∀ X, submitted evs X ≠ [] → X ∈ ({.ofTail 101} : Set Uuid) := by
    intro X hX
    obtain ⟨s, hs⟩ := List.exists_mem_of_ne_nil _ hX
    obtain ⟨l, hl, -⟩ := List.mem_map.1 hs
    obtain ⟨hmem, hid⟩ := List.mem_filter.1 hl
    rw [← of_decide_eq_true hid]
    exact of_decide_eq_true (List.all_eq_true.1 hids l hmem)
  exact ⟨evs, c, hrun, r, hr, (servers_invent_nothing (settled_joined md5 _) (fun _ => rfl) hrun
    hids (Set.injOn_singleton _ _)).1 _ _ (Set.mem_singleton _) r hr⟩

end Sdle
