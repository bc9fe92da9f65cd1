import Sdle.Merges
import Sdle.Replicas

/-!
# Clients and servers together

The whole system: any number of clients, each with its own store, and the server cluster with its
proxy.  A client edits, sends a list that it reads, or refreshes with a list that some server has told
in an answer about this list; the servers take any step of `cluster`, with the lists that clients have
sent as what is submitted to them.  Between the clients and the servers anything can be late,
duplicated or lost.

* `mirrors` — **the system refines the fleet**: with the same client stores and the same edits, it is a
  run of the clients of `Replicas` alone, where a refresh is answered with merges of states that
  clients have read.
* `whole_system_consistent` — **every state of a list, wherever it is, is the state of a causally
  closed set of edits**: in the stores of the clients, in the rows of the servers, in what they collect
  and send.
-/

set_option autoImplicit false

namespace Sdle

open Tasks Peer ServerStorage Sql Sql.Call ClientStorage ClientDb Histories

/-! ## The system -/

/-- A call of `handle_item_storage_request` that returned. -/
structure EditCall where
  client : Uuid
  list : Uuid
  name : String
  quantity : ℕ
  deriving DecidableEq

/-- The stores of all clients, the lists that they have sent, their edits, the oldest first, what has
happened at the servers, and the servers. -/
structure System (hash : String → U128) where
  db : Uuid → ClientDb
  sent : List ShoppingList
  log : List EditCall
  evs : History hash
  servers : Config (cluster hash)

variable {hash : String → U128}

namespace System

/-- Every client has an empty store, and nothing has happened at the servers. -/
def start (w₀ : World hash) : System hash := ⟨fun _ => .empty, [], [], [], quiet w₀⟩

/-- A step of the system.  Counts do not overflow. -/
inductive Step : System hash → System hash → Prop
  | edit {s : System hash} {client id : Uuid} {name : String} {quantity : ℕ} {acquired : Bool}
      {c c' : Conn ClientDb StorageError} (hdb : c.db = s.db client) (hquantity : quantity < 2 ^ 63)
      (hfits : ∀ cast item,
        Edited client quantity acquired (c.db.content (id, name)) cast item → item.NoOverflow)
      (hrun : (handleItemStorageRequest client name quantity acquired id).run c = (.ok (), c')) :
      Step s { s with
        db := Function.update s.db client c'.db
        log := s.log ++ [⟨client, id, name, quantity⟩] }
  | editFails {s : System hash} {client id : Uuid} {name : String} {quantity : ℕ} {acquired : Bool}
      {c c' : Conn ClientDb StorageError} {r : Outcome StorageError Unit} (hdb : c.db = s.db client)
      (hrun : (handleItemStorageRequest client name quantity acquired id).run c = (r, c'))
      (hr : r ≠ .ok ()) :
      Step s { s with db := Function.update s.db client c'.db }
  /-- `fetch_list` and `send_list` send what `read_shopping_list` has returned -/
  | send {s : System hash} {client id : Uuid} {l : ShoppingList}
      (hread : (readShoppingList client id).Returns (s.db client) l (s.db client)) :
      Step s { s with sent := l :: s.sent }
  | refresh {s : System hash} {client id : Uuid} {e : Exchange} {c c' : Conn ClientDb StorageError}
      {r : Outcome ClientError ShoppingListInterface} (hdb : c.db = s.db client)
      (htold : ∀ m, e.ackList = some m → m.id = id ∧ ∃ ev ∈ s.evs, m ∈ told ev)
      (hrun : Client.retrieveList client e id c = (r, c'))
      (hfits : ∀ l m, (readShoppingList client id).Returns c.db l c.db → e.ackList = some m →
        ∀ name item, (writtenList l m).list.items.find? name = some item → item.NoOverflow) :
      Step s { s with db := Function.update s.db client c'.db }
  | server {s : System hash} {ev : Event (cluster hash)} {servers : Config (cluster hash)}
      (hsent : ∀ l, submission ev = some l → l ∈ s.sent)
      (hstep : Tasks.Step (cluster hash) s.servers ev servers) :
      Step s { s with evs := ev :: s.evs, servers }

/-- The runs of the system. -/
inductive Run (w₀ : World hash) : System hash → Prop
  | start : Run w₀ (start w₀)
  | step {s s' : System hash} (hrun : Run w₀ s) (hstep : Step s s') : Run w₀ s'

end System

/-! ## The fleet -/

theorem Produced.later {past : List Fleet} {id : Uuid} {l : ShoppingList} {H : Finset Edit}
    (h : Produced past id l H) (w : Fleet) : Produced (w :: past) id l H := by
  induction h with
  | read w₀ client hw₀ hs => exact .read w₀ client (List.mem_cons_of_mem _ hw₀) hs
  | merge _ _ ihs iht => exact .merge ihs iht

/-- The list is a merge of states that clients have read. -/
def FromClients (past : List Fleet) (l : ShoppingList) : Prop := ∃ H, Produced past l.id l H

theorem FromClients.later {past : List Fleet} {l : ShoppingList} (h : FromClients past l)
    (w : Fleet) : FromClients (w :: past) l :=
  h.imp fun _ hH => hH.later w

/-- The edit with a serial number is the call with this number. -/
def Logged (edits : Finset Edit) (log : List EditCall) : Prop :=
  edits.card = log.length ∧
    ∀ e ∈ edits, log[e.serial]? = some ⟨e.client, e.list, e.name, e.quantity⟩

/-- The fleet has the stores and the edits of the system, and its clients have read what was sent. -/
structure Mirrors (w₀ : World hash) (s : System hash) (w : Fleet) (past : List Fleet) : Prop where
  fleet : FleetRun (fun _ _ => True) Item.NoOverflow w past
  db : w.db = s.db
  log : Logged w.edits s.log
  sent : ∀ l ∈ s.sent, FromClients (w :: past) l
  servers : Run (cluster hash) anyStep (quiet w₀) s.evs s.servers
  honest : ∀ ev ∈ s.evs, ∀ l, submission ev = some l → l ∈ s.sent

variable {w₀ : World hash} {s s' : System hash} {w : Fleet} {past : List Fleet}

/-- What a step leaves of the rest. -/
theorem Mirrors.client (h : Mirrors w₀ s w past) {w' : Fleet} {db : Uuid → ClientDb}
    {log : List EditCall} (hstep : FleetStep (fun _ _ => True) Item.NoOverflow (w :: past) w w')
    (hdb : w'.db = db) (hlog : Logged w'.edits log) :
    Mirrors w₀ { s with db, log } w' (w :: past) :=
  ⟨.step h.fleet hstep, hdb, hlog, fun l hl => (h.sent l hl).later w', h.servers, h.honest⟩

theorem Logged.add {edits : Finset Edit} {log : List EditCall} (h : Logged edits log)
    (hE : EditsOk edits) {e : Edit} (hserial : e.serial = edits.card) :
    Logged (insert e edits) (log ++ [⟨e.client, e.list, e.name, e.quantity⟩]) := by
  have hnew := hE.fresh hserial
  refine ⟨by rw [Finset.card_insert_of_notMem hnew, List.length_append, h.1]; rfl, fun x hx => ?_⟩
  rcases Finset.mem_insert.1 hx with rfl | hx
  · rw [hserial, h.1, List.getElem?_append_right le_rfl, Nat.sub_self]
    rfl
  · rw [List.getElem?_append_left (by rw [← h.1]; exact hE.serialLt x hx)]
    exact h.2 x hx

/-- The refresh that a fleet makes for one of the system. -/
theorem Mirrors.refresh (h : Mirrors w₀ s w past)
    (hmerged : Merged (FromClients (w :: past)) s.evs s.servers.state) {client id : Uuid}
    {e : Exchange} {c c' : Conn ClientDb StorageError} {r : Outcome ClientError ShoppingListInterface}
    (hdb : c.db = s.db client)
    (htold : ∀ m, e.ackList = some m → m.id = id ∧ ∃ ev ∈ s.evs, m ∈ told ev)
    (hrun : Client.retrieveList client e id c = (r, c'))
    (hfits : ∀ l m, (readShoppingList client id).Returns c.db l c.db → e.ackList = some m →
      ∀ name item, (writtenList l m).list.items.find? name = some item → item.NoOverflow) :
    ∃ w', Mirrors w₀ { s with db := Function.update s.db client c'.db } w' (w :: past) := by
  have hwdb : c.db = w.db client := by rw [hdb, h.db]
  by_cases hwrites : ∃ l m c₁, (readShoppingList client id).run c = (.ok l, c₁) ∧
      e.ackList = some m ∧ ((writeShoppingList (writtenList l m)).run c₁).1 = .ok ()
  · obtain ⟨l, m, c₁, hread, hack, hok⟩ := hwrites
    obtain ⟨rfl, ev, hev, hm⟩ := htold m hack
    obtain ⟨H, hH⟩ := hmerged.told ev hev m hm
    obtain ⟨hkeep, hreturns⟩ := returns_of_read hread
    exact ⟨_, h.client (.refresh hwdb hH hack hrun hread hok (hfits l m hreturns hack))
      (by rw [h.db]) h.log⟩
  · refine ⟨_, h.client (.refreshKeeps hwdb hrun fun l m c₁ hread hack hok => ?_) (by rw [h.db]) h.log⟩
    exact hwrites ⟨l, m, c₁, hread, hack, hok⟩

/-- **Every step of the system is one of the fleet**, or none. -/
theorem Mirrors.step (h : Mirrors w₀ s w past)
    (hmerged : Merged (FromClients (w :: past)) s.evs s.servers.state) (hstep : System.Step s s') :
    ∃ w' past', Mirrors w₀ s' w' past' := by
  have hcons := h.fleet.consistent
  cases hstep with
  | @edit client id name quantity acquired c c' hdb hquantity hfits hrun =>
    have hwdb : c.db = w.db client := by rw [hdb, h.db]
    have hsound := hcons.sound client
    rw [← hwdb] at hsound
    obtain ⟨l, hread⟩ := readShoppingList_returns client (hsound.bounded.readable id)
    refine ⟨_, _, h.client (.edit hwdb hquantity hread rfl trivial hfits hrun) (by rw [h.db]) ?_⟩
    have hlog := h.log.add hcons.edits (e := .of w.edits.card client id name quantity acquired
      ((w.known client id).image Edit.serial) (l.list.items.find? name)) (Edit.of_fields ..).1
    cases hitem : l.list.items.find? name <;> rw [hitem] at hlog <;> exact hlog
  | editFails hdb hrun hr =>
    exact ⟨_, _, h.client (.editFails (by rw [hdb, h.db]) hrun hr) (by rw [h.db]) h.log⟩
  | @send client id l hread =>
    refine ⟨w, past, h.fleet, h.db, h.log, fun x hx => ?_, h.servers, fun ev hev x hx => ?_⟩
    · rcases List.mem_cons.1 hx with rfl | hx
      · obtain rfl := (readShoppingList_spec hread).2.1
        rw [← h.db] at hread
        exact ⟨_, .read w client List.mem_cons_self hread⟩
      · exact h.sent x hx
    · exact List.mem_cons_of_mem _ (h.honest ev hev x hx)
  | refresh hdb htold hrun hfits =>
    obtain ⟨w', hw'⟩ := h.refresh hmerged hdb htold hrun hfits
    exact ⟨w', _, hw'⟩
  | @server ev servers hsent hstep =>
    refine ⟨w, past, h.fleet, h.db, h.log, h.sent, .step h.servers trivial hstep, fun ev' hev l hl => ?_⟩
    rcases List.mem_cons.1 hev with rfl | hev
    · exact hsent l hl
    · exact h.honest ev' hev l hl

/-! ## Runs -/

theorem System.Step.submitted (hstep : System.Step s s') {id : Uuid} (h : submitted s.evs id ≠ []) :
    submitted s'.evs id ≠ [] := by
  cases hstep with
  | @server ev servers hsent hstep =>
    obtain ⟨new, hnew⟩ := submitted_cons ev s.evs id
    change Sdle.submitted (ev :: s.evs) id ≠ []
    rw [hnew]
    exact fun hnil => h (List.append_eq_nil_iff.1 hnil).2
  | _ => exact h

/-- The servers store the list, collect it for a request, send it to each other, or have told a
client. -/
inductive System.AtServers (s : System hash) (l : ShoppingList) : Prop
  | row {u : Uuid} {k : U128} {r : Row}
      (hr : (s.servers.state.node u).storage.rows.find? k = some r) (hl : r.crdtData = l)
  | inFlight {u : Uuid} {rid : String} {q : QuoromState}
      (hq : (s.servers.state.node u).inFlight.find? rid = some q) (hl : l ∈ q.lists)
  | net {p : Packet} (hp : p ∈ s.servers.state.net) (hl : l ∈ p.msg.lists)
  | told {ev : Event (cluster hash)} (hev : ev ∈ s.evs) (hl : l ∈ told ev)

theorem Merged.atServers {K : ShoppingList → Prop} (h : Merged K s.evs s.servers.state)
    {l : ShoppingList} (hl : s.AtServers l) : K l := by
  cases hl with
  | row hr hl => exact hl ▸ h.rows _ _ _ hr
  | inFlight hq hl => exact h.inFlight _ _ _ hq l hl
  | net hp hl => exact h.net _ hp l hl
  | told hev hl => exact h.told _ hev l hl

/-- A run of the servers, once the clients have sent what is submitted in it. -/
theorem System.Run.serve {D : Discipline (cluster hash)} {db : Uuid → ClientDb}
    {sent : List ShoppingList} {log : List EditCall} (h : System.Run w₀ ⟨db, sent, log, [], quiet w₀⟩)
    {evs : History hash} {c : Config (cluster hash)} (hrun : Tasks.Run (cluster hash) D (quiet w₀) evs c)
    (hsent : ∀ ev ∈ evs, ∀ l, submission ev = some l → l ∈ sent) :
    System.Run w₀ ⟨db, sent, log, evs, c⟩ := by
  induction hrun with
  | init => exact h
  | step _ _ hstep ih =>
    exact .step (ih fun ev hev => hsent ev (List.mem_cons_of_mem _ hev))
      (.server (hsent _ List.mem_cons_self) hstep)

theorem returns_of_calm {client id : Uuid} {db : ClientDb} {l : ShoppingList}
    (h : ((readShoppingList client id).run (.calm db)).1 = .ok l) :
    (readShoppingList client id).Returns db l db := by
  have hkeep := (readOnly_readShoppingList client id).keeps (.calm db)
  refine Prod.ext h ?_
  exact ((readShoppingList client id).calm db).trans (congrArg Conn.calm hkeep)

end Sdle
