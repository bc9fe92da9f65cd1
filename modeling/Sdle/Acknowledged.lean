import Sdle.Requests

/-!
# Acknowledged writes

All requests for a list go to the coordinator that the proxy's ring gives for it, which handles them
one after another.  What a `PutList` has written there is what the next `GetList` starts from, as long
as nothing replaces it by less.

* `acknowledged_visible` — **acknowledged writes stay visible** in every run in which the proxy's ring
  is fixed and every write at the coordinator of a list dominates the row that it replaces.  Messages
  may be lost, late or reordered, and any operation may fail.
-/

set_option autoImplicit false

namespace Sdle

open Tasks Peer ServerStorage

variable {hash : String → U128}

/-! ## Acknowledgements in a history -/

/-- The list of a `PutList` that is answered with `AckList` in a step. -/
def putAck (earlier : History hash) : Event (cluster hash) → Option ShoppingList
  | .did t (.sendProxy _ (.ackList _ _)) _ =>
    match handling t.peer earlier with
    | some ⟨_, _, _, .putList s⟩ => some s
    | _ => none
  | _ => none

/-- The states of the `PutList`s that have been answered with `AckList`. -/
def acknowledged : History hash → List ShoppingList
  | [] => []
  | ev :: evs => (putAck evs ev).toList ++ acknowledged evs

/-- A `GetList` that is answered with `AckList` in a step: the peer, the client's list and the list
in the answer. -/
def getAck (earlier : History hash) : Event (cluster hash) → Option (Uuid × ShoppingList × ShoppingList)
  | .did t (.sendProxy _ (.ackList _ l)) _ =>
    match handling t.peer earlier with
    | some ⟨_, _, _, .getList c⟩ => some (t.peer, c, l)
    | _ => none
  | _ => none

/-- What had happened when a peer took the request that it has in hand. -/
def before (peer : Uuid) : History hash → History hash
  | [] => []
  | .arrived (.take r) :: evs => if r.peer = peer then evs else before peer evs
  | _ :: evs => before peer evs

/-- An answer to a `GetList` shows every state for its id that was acknowledged before the request
was taken. -/
def Shows (earlier : History hash) (ev : Event (cluster hash)) : Prop :=
  ∀ x ∈ getAck earlier ev, ∀ s ∈ acknowledged (before x.1 earlier), s.id = x.2.1.id →
    s.list ≤ x.2.2.list

theorem acknowledged_before (u : Uuid) (evs : History hash) :
    acknowledged (before u evs) ⊆ acknowledged evs := by
  induction evs with
  | nil => exact List.Subset.refl _
  | cons ev evs ih =>
    have hrest : acknowledged evs ⊆ acknowledged (ev :: evs) := List.subset_append_right _ _
    have hbefore : before u (ev :: evs) = evs ∨ before u (ev :: evs) = before u evs := by
      cases ev with
      | arrived e =>
        cases e with
        | take r => exact ite_eq_or_eq _ _ _
        | _ => exact Or.inr rfl
      | _ => exact Or.inr rfl
    rcases hbefore with h | h
    · rw [h]
      exact hrest
    · rw [h]
      exact fun s hs => hrest (ih hs)

/-! ## The condition -/

/-- At the coordinator of a list, a write of the list dominates the row that it replaces, and a
deletion finds no row. -/
def KeepsRow (ring : HashRing) (u : Uuid) (o : Op) (a : Ans o) (s : ServerStorage hash) : Prop :=
  match o, a with
  | .writeShoppingList l, some _ =>
    ring.getCoordinator hash l.id = some u →
      ∀ r ∈ s.rows.find? (key hash l.id), r.crdtData.list ≤ l.list
  | .writeShoppingListHandoff l _, some _ =>
    ring.getCoordinator hash l.id = some u →
      ∀ r ∈ s.rows.find? (key hash l.id), r.crdtData.list ≤ l.list
  | .deleteShoppingList id, some _ =>
    ring.getCoordinator hash id = some u → s.rows.find? (key hash id) = none
  | _, _ => True

/-- The proxy's ring is fixed, and the coordinators replace no row by less. -/
def growing : Discipline (cluster hash) := fun _ w ev =>
  match ev with
  | .did t o a => KeepsRow w.proxyRing t.peer o a (w.node t.peer).storage
  | .arrived (.ready _) => False
  | _ => True

/-- A state that dominates the list is stored under its key. -/
def Holds (s : ServerStorage hash) (l : ShoppingList) : Prop :=
  ∃ r, s.rows.find? (key hash l.id) = some r ∧ l.list ≤ r.crdtData.list

/-- The coordinator depends on the key of the list only. -/
theorem getCoordinator_congr (ring : HashRing) {X Y : Uuid} (h : key hash X = key hash Y) :
    ring.getCoordinator hash X = ring.getCoordinator hash Y := by
  unfold HashRing.getCoordinator HashRing.getPreferenceList
  rw [show hash X.toString = hash Y.toString from h]

/-- **What a coordinator holds it keeps holding.** -/
theorem holds_after {ring : HashRing} {u : Uuid} {o : Op} {a : Ans o} {s : ServerStorage hash}
    {l : ShoppingList} (hD : KeepsRow ring u o a s) (hu : ring.getCoordinator hash l.id = some u)
    (h : Holds s l) : Holds (storageAfter o a s) l := by
  obtain ⟨r, hr, hle⟩ := h
  have hupsert : ∀ {l' : ShoppingList} {hint : Option Uuid},
      (ring.getCoordinator hash l'.id = some u →
        ∀ r ∈ s.rows.find? (key hash l'.id), r.crdtData.list ≤ l'.list) →
      Holds (s.upsert l' hint) l := by
    intro l' hint hle'
    unfold Holds
    rw [rows_upsert]
    split
    · rename_i hk
      refine ⟨_, rfl, le_trans hle (hle' ?_ r ?_)⟩
      · rw [← getCoordinator_congr ring hk, hu]
      · rw [← hk]
        exact hr
    · exact ⟨r, hr, hle⟩
  cases o with
  | writeShoppingList l' =>
    cases a with
    | none => exact ⟨r, hr, hle⟩
    | some _ => exact hupsert hD
  | writeShoppingListHandoff l' d =>
    cases a with
    | none => exact ⟨r, hr, hle⟩
    | some _ => exact hupsert hD
  | deleteShoppingList id =>
    cases a with
    | none => exact ⟨r, hr, hle⟩
    | some _ =>
      refine ⟨r, ?_, hle⟩
      simp only [storageAfter, rows_delete]
      split
      · rename_i hk
        have hnone := hD ((getCoordinator_congr ring hk).symm.trans hu)
        rw [← hk, hr] at hnone
        cases hnone
      · exact hr
  | _ => exact ⟨r, hr, hle⟩

/-! ## The invariant -/

/-- What is true of the request that a peer has in hand: a `PutList` starts from its own list, and a
`GetList` from a row that shows every state acknowledged before. -/
def Starts (evs : History hash) (u : Uuid) (job : Job) : Prop :=
  ∃ r, handling u evs = some r ∧
    (r.msg = .putList job.list ∧ job.base = none ∨
      r.msg = .getList job.list ∧ ∀ s ∈ acknowledged (before u evs), s.id = job.list.id →
        ∃ l, job.base = some l ∧ s.list ≤ l.list)

/-- What is true of its result. -/
def Results (evs : History hash) (u : Uuid) (l : ShoppingList) : Prop :=
  ∃ r, handling u evs = some r ∧
    (r.msg = .putList l ∨
      ∃ c, r.msg = .getList c ∧ ∀ s ∈ acknowledged (before u evs), s.id = c.id → s.list ≤ l.list)

/-- What is true in a phase of a peer's proxy task. -/
def InHand (evs : History hash) (u : Uuid) (s : ServerStorage hash) : Phase → Prop
  | .asked _ c => ∃ r, handling u evs = some r ∧ r.msg = .getList c
  | .start job => Starts evs u job
  | .chosen job _ => Starts evs u job
  | .named job _ _ => Starts evs u job
  | .spreading job _ _ _ => Starts evs u job
  | .decided job _ _ => Starts evs u job
  | .writing _ l => Results evs u l
  | .answering _ l =>
    Results evs u l ∧ ∀ r, handling u evs = some r → r.msg = .putList l → Holds s l
  | _ => True

/-- The coordinators hold what has been acknowledged, and answer with it. -/
structure Visible (ring : HashRing) (evs : History hash) (w : World hash) : Prop where
  fixed : w.proxyRing = ring
  requests : ∀ r ∈ w.requests, (routed r.msg).bind (ring.getCoordinator hash) = some r.peer
  taken : ∀ u r, handling u evs = some r →
    (routed r.msg).bind (ring.getCoordinator hash) = some u
  rows : ∀ s ∈ acknowledged evs, ∀ u, ring.getCoordinator hash s.id = some u →
    Holds (w.node u).storage s
  phases : ∀ u, InHand evs u (w.node u).storage (phases evs (.proxied u))
  shown : Throughout Shows evs

/-- Steps of others keep what is true of the request in hand. -/
theorem InHand.keep {evs evs' : History hash} {u : Uuid} {s s' : ServerStorage hash} {g : Phase}
    (hh : handling u evs' = handling u evs) (hb : before u evs' = before u evs)
    (hs : ∀ r l, handling u evs = some r → r.msg = .putList l → Holds s l → Holds s' l)
    (h : InHand evs u s g) : InHand evs' u s' g := by
  have hstarts : ∀ {job}, Starts evs u job → Starts evs' u job := by
    intro job h
    unfold Starts
    rw [hh, hb]
    exact h
  have hresults : ∀ {l}, Results evs u l → Results evs' u l := by
    intro l h
    unfold Results
    rw [hh, hb]
    exact h
  cases g with
  | asked client c =>
    obtain ⟨r, hr, hmsg⟩ := h
    exact ⟨r, hh.trans hr, hmsg⟩
  | start job => exact hstarts h
  | chosen job replicas => exact hstarts h
  | named job replicas rid => exact hstarts h
  | spreading job replicas rid todo => exact hstarts h
  | decided job rid ok => exact hstarts h
  | writing job l => exact hresults h
  | answering job l =>
    refine ⟨hresults h.1, fun r hr hmsg => ?_⟩
    rw [hh] at hr
    exact hs r l hr hmsg (h.2 r hr hmsg)
  | _ => trivial

section Step

variable {ring : HashRing} {evs : History hash} {w : World hash} {t : Tid} {o : Op} {c : Choice}
  {a : Ans o}

/-- **What a peer has in hand next.** -/
theorem inHand_next {u : Uuid} (hvis : Visible ring evs w)
    (hallow : (phases evs (.proxied u)).allow o) (ha : answer (.proxied u) o c w = some a)
    (hs : ∀ r l, handling u evs = some r → r.msg = .putList l → Holds (w.node u).storage l →
      Holds (storageAfter o a (w.node u).storage) l) :
    InHand evs u (storageAfter o a (w.node u).storage)
      ((phases evs (.proxied u)).next hash o a) := by
  have hin := hvis.phases u
  have hgo : Phase.Goes hash (phases evs (.proxied u)) o a
      ((phases evs (.proxied u)).next hash o a) := Phase.goes_next hallow
  generalize (phases evs (.proxied u)).next hash o a = g' at hgo
  generalize phases evs (.proxied u) = g at hin hgo
  cases hgo with
  | stay => exact hin.keep rfl rfl hs
  | based =>
    rename_i client l base
    obtain ⟨r, hr, hmsg⟩ := hin
    refine ⟨r, hr, Or.inr ⟨hmsg, fun s hs hid => ?_⟩⟩
    -- the coordinator holds what was acknowledged, and this is the coordinator
    have hu : ring.getCoordinator hash s.id = some u := by
      have htaken := hvis.taken u r hr
      rw [hmsg] at htaken
      rw [hid]
      exact htaken
    obtain ⟨row, hrow, hle⟩ := hvis.rows s (acknowledged_before u evs hs) u hu
    refine ⟨row.crdtData, ?_, hle⟩
    have hbase : (w.node u).storage.getShoppingList l.id = base := Choice.attempt_eq_some ha
    have hid : s.id = l.id := hid
    show base = some row.crdtData
    rw [← hbase, getShoppingList_eq_some, ← hid, hrow]
    exact ⟨row.hintedHandoff, rfl⟩
  | wrote =>
    refine ⟨hin, fun _ _ _ => ?_⟩
    unfold Holds
    rw [show storageAfter _ _ _ = (w.node u).storage.upsert _ none from rfl, rows_upsert, if_pos rfl]
    exact ⟨_, rfl, le_rfl⟩
  | choice => exact hin
  | named => exact hin
  | opened => exact hin
  | spread => exact hin
  | decided => exact hin
  | write hbase =>
    obtain ⟨r, hr, ⟨hmsg, -⟩ | ⟨hmsg, hacked⟩⟩ := hin
    · exact ⟨r, hr, Or.inl hmsg⟩
    · refine ⟨r, hr, Or.inr ⟨_, hmsg, fun s hs hid => ?_⟩⟩
      obtain ⟨l, hl, -⟩ := hacked s hs hid
      rw [hbase] at hl
      cases hl
  | join hbase _ =>
    rename_i job rid q l s' _
    obtain ⟨r, hr, ⟨-, hnone⟩ | ⟨hmsg, hacked⟩⟩ := hin
    · rw [hbase] at hnone
      cases hnone
    · refine ⟨r, hr, Or.inr ⟨_, hmsg, fun s hs hid => ?_⟩⟩
      obtain ⟨l', hl', hle⟩ := hacked s hs hid
      rw [hbase] at hl'
      obtain rfl := Option.some.inj hl'
      exact le_trans hle (AWORMap.le_merge_left _ _)
  | _ => trivial

/-- An acknowledged `PutList` is held, and the answer to a `GetList` shows what was acknowledged
before. -/
theorem answered_did (hvis : Visible ring evs w) (hfit : (phases evs t).Fits t)
    (hallow : (phases evs t).allow o) :
    (∀ s, putAck evs (.did t o a) = some s → Holds (w.node t.peer).storage s ∧
      ring.getCoordinator hash s.id = some t.peer) ∧ Shows evs (.did t o a) := by
  cases o with
  | sendProxy client m =>
    cases hg : phases evs t with
    | answering job l =>
      rw [hg] at hallow hfit
      obtain ⟨rfl, rfl⟩ := hallow
      have hin := hvis.phases t.peer
      rw [← show t = .proxied t.peer from hfit, hg] at hin
      obtain ⟨⟨r, hr, hresult⟩, hheld⟩ := hin
      obtain ⟨serial, peer, client, msg⟩ := r
      constructor
      · intro s hs
        simp only [putAck, hr] at hs
        rcases hresult with rfl | ⟨c, rfl, -⟩
        · obtain rfl := Option.some.inj hs
          exact ⟨hheld _ hr rfl, hvis.taken _ _ hr⟩
        · cases hs
      · intro x hx s hs hid
        simp only [getAck, hr] at hx
        rcases hresult with rfl | ⟨c, rfl, hacked⟩
        · cases hx
        · obtain rfl := Option.some.inj hx
          exact hacked s hs hid
    | refusing job =>
      rw [hg] at hallow
      obtain ⟨-, rfl⟩ := hallow
      exact ⟨fun s hs => (nomatch hs), fun x hx => (nomatch hx)⟩
    | _ =>
      rw [hg] at hallow
      exact hallow.elim
  | _ => exact ⟨fun s hs => (nomatch hs), fun x hx => (nomatch hx)⟩

theorem visible_did (hvis : Visible ring evs w) (hfit : (phases evs t).Fits t)
    (hallow : (phases evs t).allow o) (ha : answer t o c w = some a)
    (hD : KeepsRow w.proxyRing t.peer o a (w.node t.peer).storage) :
    Visible ring (.did t o a :: evs) (effect t o a w) := by
  rw [hvis.fixed] at hD
  obtain ⟨hput, hshows⟩ := answered_did (a := a) hvis hfit hallow
  have hholds : ∀ {u s}, ring.getCoordinator hash s.id = some u → Holds (w.node u).storage s →
      Holds ((effect t o a w).node u).storage s := by
    intro u s hu h
    rw [storage_effect]
    split
    · rename_i hpeer
      subst hpeer
      exact holds_after hD hu h
    · exact h
  have hputs : ∀ {u r l}, handling u evs = some r → r.msg = .putList l →
      ring.getCoordinator hash l.id = some u := by
    intro u r l hr hmsg
    have htaken := hvis.taken u r hr
    rw [hmsg] at htaken
    exact htaken
  refine ⟨?fixed, ?requests, hvis.taken, ?rows, ?phases, hshows, hvis.shown⟩
  case fixed => rw [proxyRing_effect, hvis.fixed]
  case requests =>
    intro r hr
    rw [requests_effect] at hr
    exact hvis.requests r hr
  case rows =>
    intro s hs u hu
    rcases List.mem_append.1 hs with hs | hs
    · obtain ⟨hheld, hpeer⟩ := hput s (Option.mem_toList.1 hs)
      have hu' : u = t.peer := Option.some.inj (hu.symm.trans hpeer)
      subst hu'
      exact hholds hu hheld
    · exact hholds hu (hvis.rows s hs u hu)
  case phases =>
    intro u
    rw [phases_did]
    split
    · rename_i ht
      subst ht
      have hnext := inHand_next hvis hallow ha fun r l hr hmsg => holds_after hD (hputs hr hmsg)
      rw [storage_effect]
      exact hnext.keep rfl rfl fun _ _ _ _ h => by rwa [if_pos (show u = Tid.peer _ from rfl)]
    · exact (hvis.phases u).keep rfl rfl fun r l hr hmsg => hholds (hputs hr hmsg)

theorem visible_arrived {e : Arrival} {r : Option (Tid × Code Unit)} {w' : World hash}
    (hvis : Visible ring evs w) (harr : arrive e w = some (r, w')) (he : ∀ u, e ≠ .ready u) :
    Visible ring (.arrived e :: evs) w' := by
  refine ⟨?fixed, ?requests, ?taken, ?rows, ?phases, fun x hx => (nomatch hx), hvis.shown⟩
  case fixed => rw [proxyRing_arrive harr he, hvis.fixed]
  case requests =>
    intro q hq
    rcases requests_arrive harr hq with hq | ⟨client, msg, u, -, hu, rfl⟩
    · exact hvis.requests q hq
    · rw [hvis.fixed] at hu
      exact hu
  case taken =>
    intro u q hq
    cases e with
    | take q' =>
      by_cases hpeer : q'.peer = u
      · have hq' : some q' = some q := (if_pos hpeer).symm.trans hq
        obtain rfl := Option.some.inj hq'
        rw [← hpeer]
        exact hvis.requests q' (mem_requests_of_take harr)
      · exact hvis.taken u q ((if_neg hpeer).symm.trans hq)
    | _ => exact hvis.taken u q hq
  case rows =>
    rw [node_arrive harr]
    exact hvis.rows
  case phases =>
    intro u
    rw [node_arrive harr]
    have hkeep : phases (.arrived e :: evs) (.proxied u) = phases evs (.proxied u) →
        handling u (.arrived e :: evs) = handling u evs →
        before u (.arrived e :: evs) = before u evs →
        InHand (.arrived e :: evs) u (w.node u).storage (phases (.arrived e :: evs) (.proxied u)) := by
      intro hp hh hb
      rw [hp]
      exact (hvis.phases u).keep hh hb fun _ _ _ _ h => h
    cases e with
    | take q =>
      by_cases hpeer : q.peer = u
      · subst hpeer
        have hphase : phases (.arrived (.take q) :: evs) (.proxied q.peer) =
            .ofProxied q.clientId q.msg := Function.update_self _ _ _
        have hhand : handling q.peer (.arrived (.take q) :: evs) = some q := if_pos rfl
        rw [hphase]
        cases hm : q.msg with
        | getList c => exact ⟨q, hhand, hm⟩
        | putList l => exact ⟨q, hhand, Or.inl ⟨hm, rfl⟩⟩
        | _ => trivial
      · refine hkeep (phases_arrived_of_ne ?_) (if_neg hpeer) (if_neg hpeer)
        simp [begun, hpeer]
    | _ => exact hkeep (phases_arrived_of_ne (by simp [begun])) rfl rfl

end Step

/-- **Acknowledged writes stay visible**: where the coordinators replace no row by less, the answer to
a `GetList` shows every state for its id that was acknowledged before the request was taken. -/
theorem acknowledged_visible {w₀ : World hash} (hw : w₀.Settled) {evs : History hash}
    {c : Config (cluster hash)} (hrun : Run (cluster hash) growing (quiet w₀) evs c) :
    Throughout Shows evs := by
  refine (cluster_invariant (Visible w₀.proxyRing) ?did ?ended ?arrived ?init hrun).1.shown
  case did =>
    intro evs w t o c a hvis hfit hallow ha hD
    exact visible_did hvis (hfit t) hallow ha hD
  case ended =>
    intro evs w t hvis
    refine ⟨hvis.fixed, hvis.requests, hvis.taken, hvis.rows, fun u => ?_,
      fun x hx => (nomatch hx), hvis.shown⟩
    rw [phases_ended]
    split
    · trivial
    · exact (hvis.phases u).keep rfl rfl fun _ _ _ _ h => h
  case arrived =>
    intro evs w e r w' hvis _ harr _ hD
    refine visible_arrived hvis harr ?_
    rintro u rfl
    exact hD
  case init =>
    refine ⟨rfl, fun r hr => ?_, fun u r hr => (nomatch hr), fun s hs => (nomatch hs),
      fun u => trivial, trivial⟩
    rw [hw.requests] at hr
    cases hr

/-- The test for `KeepsRow`. -/
def keepsRow (ring : HashRing) (u : Uuid) (o : Op) (a : Ans o) (s : ServerStorage hash) : Bool :=
  match o, a with
  | .writeShoppingList l, some _ =>
    decide (ring.getCoordinator hash l.id = some u →
      ∀ r ∈ s.rows.find? (key hash l.id), r.crdtData.list ≤ l.list)
  | .writeShoppingListHandoff l _, some _ =>
    decide (ring.getCoordinator hash l.id = some u →
      ∀ r ∈ s.rows.find? (key hash l.id), r.crdtData.list ≤ l.list)
  | .deleteShoppingList id, some _ =>
    decide (ring.getCoordinator hash id = some u → s.rows.find? (key hash id) = none)
  | _, _ => true

theorem keepsRow_iff (ring : HashRing) (u : Uuid) (o : Op) (a : Ans o) (s : ServerStorage hash) :
    keepsRow ring u o a s = true ↔ KeepsRow ring u o a s := by
  cases o with
  | writeShoppingList l => cases a <;> simp [keepsRow, KeepsRow, imp_iff_not_or]
  | writeShoppingListHandoff l d => cases a <;> simp [keepsRow, KeepsRow, imp_iff_not_or]
  | deleteShoppingList id => cases a <;> simp [keepsRow, KeepsRow, imp_iff_not_or]
  | _ => simp [keepsRow, KeepsRow]

/-- The test for `growing`. -/
def grows (w : World hash) (ev : Event (cluster hash)) : Bool :=
  match ev with
  | .did t o a => keepsRow w.proxyRing t.peer o a (w.node t.peer).storage
  | .arrived (.ready _) => false
  | _ => true

theorem growing_of_grows (evs : History hash) (w : World hash) (ev : Event (cluster hash))
    (h : grows w ev = true) : growing evs w ev := by
  cases ev with
  | did t o a => exact (keepsRow_iff _ _ _ _ _).1 h
  | ended t => trivial
  | arrived e =>
    cases e with
    | ready u => exact absurd h (by simp [grows])
    | _ => trivial

/-- A client puts milk, and a client with an empty list gets the list. -/
def putThenGet : List (Move (cluster md5)) :=
  putMoves 0 (oneItem "milk" 201) (.ofTail 301) ++
    getMoves 5 ⟨.ofTail 101, .new⟩ (oneItem "milk" 201) (oneItem "milk" 201) (.ofTail 302)

theorem acknowledged_visible_putThenGet :
    ∃ evs c, Run (cluster md5) growing (quiet threeServers) evs c ∧
      ∃ ev earlier x, evs = ev :: earlier ∧ getAck earlier ev = some x ∧
        oneItem "milk" 201 ∈ acknowledged (before x.1 earlier) ∧
        (oneItem "milk" 201).list ≤ x.2.2.list := by
  obtain ⟨evs, c, hrun, hcheck⟩ := exists_run (D := growing) (fun _ w ev => grows w ev) growing_of_grows
    (quiet threeServers) putThenGet
    (fun evs _ => match evs with
      | [] => false
      | ev :: earlier => (getAck earlier ev).any fun x =>
        decide (oneItem "milk" 201 ∈ acknowledged (before x.1 earlier) ∧
          (oneItem "milk" 201).id = x.2.1.id))
    (by decide +kernel)
  have hshown := acknowledged_visible (settled_joined md5 _) hrun
  cases evs with
  | nil => cases hcheck
  | cons ev earlier =>
    obtain ⟨x, hx, hacked⟩ := (Option.any_eq_true _ _).1 hcheck
    obtain ⟨hmem, hid⟩ := of_decide_eq_true hacked
    exact ⟨ev :: earlier, c, hrun, ev, earlier, x, rfl, hx, hmem, hshown.1 x hx _ hmem hid⟩

/-- A client puts milk, another one puts bread, and a client with an empty list gets the list. -/
def twoPutsThenGet : List (Move (cluster md5)) :=
  putMoves 0 (oneItem "milk" 201) (.ofTail 301) ++ putMoves 5 (oneItem "bread" 202) (.ofTail 302) ++
    getMoves 10 ⟨.ofTail 101, .new⟩ (oneItem "bread" 202) (oneItem "bread" 202) (.ofTail 303)

/-- Without the condition the milk is gone, although nothing fails. -/
theorem acknowledged_lost :
    ¬ ∀ evs c, Run (cluster md5) (fun _ _ ev => calm ev = true) (quiet threeServers) evs c →
      Throughout Shows evs := by
  intro h
  obtain ⟨evs, c, hrun, hcheck⟩ := exists_run (D := fun _ _ ev => calm ev = true)
    (fun _ _ ev => calm ev) (fun _ _ _ h => h) (quiet threeServers) twoPutsThenGet
    (fun evs _ => match evs with
      | [] => false
      | ev :: earlier => (getAck earlier ev).any fun x =>
        decide (oneItem "milk" 201 ∈ acknowledged (before x.1 earlier) ∧
          (oneItem "milk" 201).id = x.2.1.id ∧ ¬ (oneItem "milk" 201).list ≤ x.2.2.list))
    (by decide +kernel)
  have hshown := h evs c hrun
  cases evs with
  | nil => cases hcheck
  | cons ev earlier =>
    obtain ⟨x, hx, hacked⟩ := (Option.any_eq_true _ _).1 hcheck
    obtain ⟨hmem, hid, hlost⟩ := of_decide_eq_true hacked
    exact hlost (hshown.1 x hx _ hmem hid)

end Sdle
