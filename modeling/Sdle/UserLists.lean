import Sdle.Setting
import Sdle.Client

/-!
# The lists that a client knows of (`ClientStorage::get_user_lists`)

`local_lists` is a table of its own.  `ensure_list` adds to it, in a transaction before that of the
item; `write_shopping_list` stores items and does not.

* `getUserLists_ids` — the lists that are returned are those of the table, in its order.
* `failed_edit_iff` — **when an edit that reports an error changes nothing** for the readers: exactly
  when the list was known before, `ensure_list` is what failed, or the lists could not be read
  anyway.
* `stored_lists_listed_iff` — **when every stored list is listed** along a run of edits and
  refreshes: exactly when each refresh that stores items of a reply is one of a known list.
-/

set_option autoImplicit false

namespace Sdle

open Sql Sql.Call ClientStorage ClientDb

/-! ## What is read -/

section Reads

variable {client : Uuid} {db db' : ClientDb}

/-- One round of the loop of `get_user_lists`. -/
def readNext (client : Uuid) (listVec : List ShoppingList) (listUuid : Uuid) :
    Sql.Call ClientDb StorageError (List ShoppingList) := do
  return listVec ++ [← readShoppingList client listUuid]

theorem readOnly_readNext (client : Uuid) (listVec : List ShoppingList) (id : Uuid) :
    (readNext client listVec id).ReadOnly :=
  (readOnly_readShoppingList _ _).bind fun _ => readOnly_pure _

/-- The loop reads a list for each id. -/
theorem ids_of_foldlM : ∀ (ids : List Uuid) (acc ls : List ShoppingList),
    (ids.foldlM (readNext client) acc).Returns db ls db' →
      ls.map ShoppingList.id = acc.map ShoppingList.id ++ ids := by
  intro ids
  induction ids generalizing db with
  | nil =>
    intro acc ls h
    obtain ⟨rfl, -⟩ := returns_pure.1 h
    exact (List.append_nil _).symm
  | cons id ids ih =>
    intro acc ls h
    rw [List.foldlM_cons] at h
    obtain ⟨acc', db₁, hround, hrest⟩ := returns_bind.1 h
    obtain ⟨l, db₂, hread, hret⟩ := returns_bind.1 hround
    obtain ⟨rfl, -⟩ := returns_pure.1 hret
    rw [ih _ _ hrest, List.map_append, List.append_assoc, ← (readShoppingList_spec hread).2.1]
    rfl

/-- **The lists that `get_user_lists` returns** are those of `local_lists`. -/
theorem getUserLists_ids {lists : Option (List ShoppingList)}
    (h : (getUserLists client).Returns db lists db') :
    (lists.getD []).map ShoppingList.id = db.localLists := by
  obtain ⟨ids, db₁, hquery, h⟩ := returns_bind.1 h
  obtain ⟨heq, rfl⟩ := returns_query.1 hquery
  cases heq
  obtain ⟨ls, db₂, hloop, hret⟩ := returns_bind.1 h
  obtain ⟨rfl, -⟩ := returns_pure.1 hret
  have hids := ids_of_foldlM _ _ _ hloop
  cases ls with
  | nil => exact hids
  | cons l ls => exact hids

/-- A list is read from its items and their counts. -/
theorem sameFrom_readShoppingList (hitems : db'.items = db.items)
    (hvalues : db'.actorValues = db.actorValues) (id : Uuid) :
    (readShoppingList client id).SameFrom db db' := by
  have hgcounter : ∀ g, (readGcounter client g).SameFrom db db' := fun g =>
    .bind (readOnly_query _) (sameFrom_query (by rw [hvalues])) fun _ => sameFrom_lift _ _ _
  have hitem : ∀ row, (buildItem client row).SameFrom db db' := fun row =>
    .bind (readOnly_readGcounter _ _) (hgcounter _) fun _ =>
      .bind (readOnly_readGcounter _ _) (hgcounter _) fun _ => sameFrom_lift _ _ _
  refine .bind (readOnly_query _) (sameFrom_query (by rw [hitems])) fun rows => ?_
  refine .bind ?_ ?_ fun _ => sameFrom_lift _ _ _
  · exact ReadOnly.foldlM (fun _ _ => (readOnly_buildItem _ _).bind fun _ => readOnly_pure _) _ _
  · exact SameFrom.foldlM (fun _ _ => (readOnly_buildItem _ _).bind fun _ => readOnly_pure _)
      (fun _ _ => .bind (readOnly_buildItem _ _) (hitem _) fun _ => sameFrom_lift _ _ _) _ _

/-- Where some list cannot be read, one more list at the end does not change the answer. -/
theorem sameFrom_getUserLists {id : Uuid} (hitems : db'.items = db.items)
    (hvalues : db'.actorValues = db.actorValues) (hlists : db'.localLists = db.localLists ++ [id])
    (h : ∃ id' ∈ db.localLists, ¬ db.Readable id') : (getUserLists client).SameFrom db db' := by
  have hround : ∀ ls id', (readNext client ls id').SameFrom db db' := fun ls id' =>
    .bind (readOnly_readShoppingList _ _) (sameFrom_readShoppingList hitems hvalues id') fun _ =>
      sameFrom_lift _ _ _
  have hloop : ((db.localLists.foldlM (readNext client) []).run (.calm db')).1 =
      ((db.localLists.foldlM (readNext client) []).run (.calm db)).1 :=
    SameFrom.foldlM (readOnly_readNext client) hround db.localLists []
  have hfails : ∀ ls, ((db.localLists.foldlM (readNext client) []).run (.calm db')).1 ≠ .ok ls := by
    intro ls hrun
    rw [hloop] at hrun
    obtain ⟨id', hid', hnot⟩ := h
    exact hnot ((foldlM_readShoppingList client db db.localLists []).1
      ⟨ls, _, returns_of_run (Prod.ext hrun rfl)⟩ id' hid')
  have hrun : ∀ db₀ : ClientDb, (getUserLists client).run (.calm db₀) =
      andThen (fun ls => pure (if ls.isEmpty then none else some ls))
        ((db₀.localLists.foldlM (readNext client) []).run (.calm db₀)) := fun _ => rfl
  unfold SameFrom
  rw [hrun, hrun, hlists, run_foldlM_append _ _ hfails]
  exact andThen_fst_of_ne_ok hloop hfails

end Reads

/-! ## Edits that fail -/

/-- The readers return the same from both stores. -/
structure SameReads (client : Uuid) (db db' : ClientDb) : Prop where
  lists : (getUserLists client).SameFrom db db'
  list : ∀ id, (readShoppingList client id).SameFrom db db'

theorem insertOrIgnoreList_ok (id : Uuid) (db : ClientDb) :
    ∃ db', db.insertOrIgnoreList id = .ok ((), db') := by
  unfold insertOrIgnoreList
  split <;> exact ⟨_, rfl⟩

/-- `ensure_list` succeeds if `BEGIN`, `INSERT` and `COMMIT` do. -/
theorem ensureList_ok_iff {id : Uuid} {c : Conn ClientDb StorageError} :
    (∃ c', (ensureList id).run c = (.ok (), c')) ↔ ∀ f ∈ c.writes.take 3, f = none := by
  obtain ⟨db', hinsert⟩ := insertOrIgnoreList_ok id c.db
  exact transaction_stmt_ok_iff hinsert

/-- **When an edit that reports an error changes nothing for the readers.** -/
theorem failed_edit_iff {client id : Uuid} {name : String} {quantity : ℕ} {acquired : Bool}
    {c c' : Conn ClientDb StorageError} {e : StorageError}
    (hrun : (handleItemStorageRequest client name quantity acquired id).run c = (.err e, c')) :
    SameReads client c.db c'.db ↔
      id ∈ c.db.localLists ∨ (∃ f ∈ c.writes.take 3, f ≠ none) ∨
        ∃ id' ∈ c.db.localLists, ¬ c.db.Readable id' := by
  have hundone := handleItemStorageRequest_undone hrun fun _ => nofun
  by_cases hok : ∀ f ∈ c.writes.take 3, f = none
  · obtain ⟨c₁, hensure⟩ := ensureList_ok_iff.2 hok
    rw [hensure] at hundone
    have hreturns := returns_of_run hensure
    rw [← hundone] at hreturns
    obtain ⟨hitems, hvalues⟩ := ensureList_spec hreturns
    obtain ⟨hlists, hknown⟩ := ensureList_localLists hreturns
    constructor
    · intro hsame
      by_contra hnot
      rw [not_or, not_or] at hnot
      obtain ⟨hid, -, hreadable⟩ := hnot
      push Not at hreadable
      -- the list that was recorded is one more than before
      obtain ⟨lists, db₁, hbefore⟩ := (getUserLists_iff client c.db).2 hreadable
      have hok : ((getUserLists client).run (.calm c'.db)).1 = .ok lists :=
        hsame.lists.trans (congrArg Prod.fst hbefore)
      have hafter := returns_of_run (Prod.ext hok rfl : (getUserLists client).run (.calm c'.db) = (_, _))
      have hids : c'.db.localLists = c.db.localLists :=
        (getUserLists_ids hafter).symm.trans (getUserLists_ids hbefore)
      rw [hlists, if_neg hid] at hids
      simp at hids
    · rintro (hid | ⟨f, hf, hne⟩ | hnot)
      · rw [hknown hid]
        exact ⟨rfl, fun _ => rfl⟩
      · exact absurd (hok f hf) hne
      · by_cases hid : id ∈ c.db.localLists
        · rw [hknown hid]
          exact ⟨rfl, fun _ => rfl⟩
        · rw [if_neg hid] at hlists
          exact ⟨sameFrom_getUserLists hitems hvalues hlists hnot,
            sameFrom_readShoppingList hitems hvalues⟩
  · have hkeep : c'.db = c.db := by
      rw [hundone]
      refine atomic_transaction _ c _ _ (Prod.ext rfl rfl) fun u hu => hok ?_
      exact ensureList_ok_iff.1 ⟨_, Prod.ext hu rfl⟩
    push Not at hok
    rw [hkeep]
    exact iff_of_true ⟨rfl, fun _ => rfl⟩ (Or.inr (Or.inl hok))

/-- A new item whose quantity no `INTEGER` holds, on a list that is not known yet. -/
def tooMuchMilk : Sql.Call ClientDb StorageError Unit :=
  handleItemStorageRequest ⟨201⟩ "milk" (2 ^ 63) false ⟨101⟩

theorem failed_edit_iff_tooMuchMilk :
    SameReads ⟨201⟩ .empty (tooMuchMilk.run (.calm .empty)).2.db ↔
      (⟨101⟩ : Uuid) ∈ ClientDb.empty.localLists ∨
        (∃ f ∈ (Conn.calm ClientDb.empty : Conn ClientDb StorageError).writes.take 3, f ≠ none) ∨
        ∃ id' ∈ ClientDb.empty.localLists, ¬ ClientDb.empty.Readable id' :=
  failed_edit_iff (c := .calm .empty) (e := .toSql) (Prod.ext (by decide +kernel) rfl)

/-- The edit fails, and the list is there. -/
theorem failed_edit_records_list :
    (tooMuchMilk.run (.calm .empty)).1 = .err .toSql ∧
      ((getUserLists ⟨201⟩).run (.calm .empty)).1 = .ok none ∧
      ¬ SameReads ⟨201⟩ .empty (tooMuchMilk.run (.calm .empty)).2.db := by
  refine ⟨by decide +kernel, rfl, fun h => absurd h.lists ?_⟩
  unfold SameFrom
  decide +kernel

/-! ## Sessions -/

/-- A call that a session makes on its client. -/
inductive Command where
  | edit (itemName : String) (quantity : ℕ) (acquired : Bool) (listId : Uuid)
  | refresh (e : Exchange) (listId : Uuid)

/-- A command, and the statements that fail in the course of it. -/
structure Action where
  command : Command
  reads : List (Option StorageError)
  writes : List (Option StorageError)

namespace Action

/-- The connection on which a command runs. -/
def conn (a : Action) (db : ClientDb) : Conn ClientDb StorageError := ⟨db, a.reads, a.writes⟩

/-- The store after a command. -/
def run (client : Uuid) (a : Action) (db : ClientDb) : ClientDb :=
  match a.command with
  | .edit name quantity acquired id =>
    ((handleItemStorageRequest client name quantity acquired id).run (a.conn db)).2.db
  | .refresh e id => (Client.retrieveList client e id (a.conn db)).2.db

end Action

/-- The store after a session that starts with an empty one. -/
def session (client : Uuid) (actions : List Action) : ClientDb :=
  actions.foldl (fun db a => a.run client db) .empty

/-- Each list with an item is in `local_lists`, and among the lists of `get_user_lists`. -/
def Listed (client : Uuid) (db : ClientDb) : Prop :=
  ∀ id name row, db.items.find? (id, name) = some row →
    id ∈ db.localLists ∧ ∀ lists db', (getUserLists client).Returns db lists db' →
      ∃ l ∈ lists.getD [], l.id = id

/-- A refresh stores a list with items that the server sent. -/
def StoresReply (client : Uuid) (e : Exchange) (id : Uuid) (c : Conn ClientDb StorageError) : Prop :=
  ∃ (l r : ShoppingList) (c₁ c₂ : Conn ClientDb StorageError),
    (readShoppingList client id).run c = (.ok l, c₁) ∧ e.ackList = some r ∧
    (∃ name, (r.list.items.find? name).isSome = true) ∧
    (writeShoppingList (writtenList l r)).run c₁ = (.ok (), c₂)

/-- A refresh stores items only of a list that is known. -/
def Action.Registers (client : Uuid) (db : ClientDb) (a : Action) : Prop :=
  match a.command with
  | .edit _ _ _ _ => True
  | .refresh e id => StoresReply client e id (a.conn db) → id ∈ db.localLists

section Sessions

variable {client : Uuid} {db db' : ClientDb}

theorem content_isSome (db : ClientDb) (key : Uuid × String) :
    (db.content key).isSome = (db.items.find? key).isSome := Option.isSome_map

theorem listed_iff : Listed client db ↔
    ∀ id name, (db.content (id, name)).isSome = true → id ∈ db.localLists := by
  constructor
  · intro h id name hstored
    rw [content_isSome] at hstored
    obtain ⟨row, hrow⟩ := Option.isSome_iff_exists.1 hstored
    exact (h id name row hrow).1
  · intro h id name row hrow
    have hid : id ∈ db.localLists := h id name (by rw [content_isSome, hrow]; rfl)
    refine ⟨hid, fun lists db' hlists => ?_⟩
    rw [← getUserLists_ids hlists] at hid
    exact List.mem_map.1 hid

/-- The write of a list does not touch `local_lists`. -/
theorem keeps_writeShoppingList (l : ShoppingList) : (writeShoppingList l).Keeps localLists := by
  have hloop : ∀ g (es : List (Sigma fun _ : Uuid => ℕ)),
      (forM es fun e => stmt fun db => do upsertActorValue g e.1 (← toSql e.2) db).Keeps localLists :=
    fun g => keeps_forM fun e => keeps_stmt_toSql fun _ _ _ _ h =>
      congrArg Prod.fst (register_of_upsertActorValue h)
  refine Keeps.transaction (keeps_forM (fun e => ?_) _)
  refine (keeps_stmt fun db row db' h => ?_).bind fun row => Keeps.bind ?_ fun _ =>
    (hloop _ _).bind fun _ => (hloop _ _).bind fun _ => keeps_upsertItem _ _ _ _
  · cases h
    rfl
  · cases row with
    | some ids => exact keeps_pure _
    | none => exact keeps_insertGcounter.bind fun _ => keeps_insertGcounter.bind fun _ => keeps_pure _

/-- **An edit keeps every stored list listed**: it records its list first. -/
theorem listed_of_edit {c c' : Conn ClientDb StorageError} {id : Uuid} {name : String} {quantity : ℕ}
    {acquired : Bool} {r : Outcome StorageError Unit} (hdistinct : c.db.SlotsDistinct)
    (hlisted : Listed client c.db)
    (hrun : (handleItemStorageRequest client name quantity acquired id).run c = (r, c')) :
    Listed client c'.db := by
  rw [listed_iff] at hlisted ⊢
  rcases handleItemStorageRequest_run hdistinct hrun with
    ⟨-, ⟨hr, hkeep⟩ | ⟨rfl, cast, item, -, hput⟩⟩
  · have hlists : ∀ id', id' ∈ c.db.localLists → id' ∈ c'.db.localLists := by
      intro id' hid'
      rcases handleItemStorageRequest_rollback hrun fun _ => hr with hdb | hensure
      · rw [hdb]
        exact hid'
      · rw [(ensureList_localLists hensure).1]
        split
        · exact hid'
        · exact List.mem_append_left _ hid'
    intro id' name' hstored
    rw [hkeep] at hstored
    exact hlists id' (hlisted id' name' hstored)
  · have hlists := handleItemStorageRequest_localLists (returns_of_run hrun)
    intro id' name' hstored
    by_cases hid : id' = id
    · rw [hid, hlists]
      split
      · assumption
      · exact List.mem_append_right _ List.mem_cons_self
    · rw [hput, Content.put, Function.update_of_ne fun heq => hid (Prod.mk.inj heq).1] at hstored
      have hbefore := hlisted id' name' hstored
      rw [hlists]
      split
      · exact hbefore
      · exact List.mem_append_left _ hbefore

/-- The items of the list that a refresh writes. -/
theorem isSome_writtenList (l r : ShoppingList) (name : String) :
    ((writtenList l r).list.items.find? name).isSome = true ↔
      (l.list.items.find? name).isSome = true ∨ (r.list.items.find? name).isSome = true := by
  have hview := congrFun (view_writtenList l r) name
  replace hview : (writtenList l r).list.view name = (l.list.merge r.list).view name := hview
  rw [AWORMap.view_merge] at hview
  unfold AWORMap.view at hview
  rw [← Option.isSome_map (f := Item.view), hview]
  cases l.list.items.find? name <;> cases r.list.items.find? name <;> simp [AWORMap.mergeView]

/-- The items that are stored once a refresh has written its list. -/
theorem stored_of_written {id : Uuid} {l r : ShoppingList} (hdistinct : db.SlotsDistinct)
    (hread : (readShoppingList client id).Returns db l db)
    (hwrite : (writeShoppingList (writtenList l r)).Returns db () db') (id' : Uuid) (name : String) :
    (db'.content (id', name)).isSome = true ↔
      (db.content (id', name)).isSome = true ∨
        id' = id ∧ (r.list.items.find? name).isSome = true := by
  obtain ⟨-, -, hcontent⟩ := writeShoppingList_spec hdistinct hwrite
  obtain ⟨-, hid, hl⟩ := readShoppingList_spec hread
  rw [hcontent, Content.write, show (writtenList l r).id = id from hid]
  dsimp only
  by_cases hid' : id' = id
  · rw [if_pos hid']
    have hlocal : (l.list.items.find? name).isSome = (db.content (id', name)).isSome := by
      have hname := hl name
      rw [hid']
      cases hs : db.content (id, name) with
      | none =>
        rw [hs] at hname
        rw [hname]
        rfl
      | some s =>
        rw [hs] at hname
        obtain ⟨item, hitem, -⟩ := hname
        rw [hitem]
        rfl
    have hnames := isSome_writtenList l r name
    rw [hlocal] at hnames
    cases hw : (writtenList l r).list.items.find? name with
    | none =>
      rw [hw] at hnames
      simp only [Option.isSome_none, Bool.false_eq_true, false_iff, not_or] at hnames
      simp [hnames.1, hnames.2]
    | some item =>
      rw [hw] at hnames
      simpa [hid'] using hnames
  · rw [if_neg hid']
    simp [hid']

/-- A refresh with an `AckList` writes. -/
theorem retrieveList_of_ackList {c c₁ : Conn ClientDb StorageError} {id : Uuid} {e : Exchange}
    {l r : ShoppingList} (hread : (readShoppingList client id).run c = (.ok l, c₁))
    (hack : e.ackList = some r) :
    (Client.retrieveList client e id c).2 = ((writeShoppingList (writtenList l r)).run c₁).2 := by
  rcases Client.retrieveList_of_read e hread with ⟨-, heq⟩ | ⟨hhard, -⟩
  · rw [heq, hack]
  · rw [Exchange.softOnFetch_of_ackList hack] at hhard
    cases hhard

/-- **A refresh keeps every stored list listed** unless it stores items of a list that is not. -/
theorem listed_of_refresh_iff {c c' : Conn ClientDb StorageError} {id : Uuid} {e : Exchange}
    {r : Outcome ClientError ShoppingListInterface} (hdistinct : c.db.SlotsDistinct)
    (hlisted : Listed client c.db) (hrun : Client.retrieveList client e id c = (r, c')) :
    Listed client c'.db ↔ (StoresReply client e id c → id ∈ c.db.localLists) := by
  rw [listed_iff] at hlisted ⊢
  -- what a write that returns leaves
  have hwritten : ∀ {l r : ShoppingList} {c₁ c₂ : Conn ClientDb StorageError},
      (readShoppingList client id).run c = (.ok l, c₁) →
      (writeShoppingList (writtenList l r)).run c₁ = (.ok (), c₂) →
      c₂.db.localLists = c.db.localLists ∧ ∀ id' name,
        (c₂.db.content (id', name)).isSome = true ↔ (c.db.content (id', name)).isSome = true ∨
          id' = id ∧ (r.list.items.find? name).isSome = true := by
    intro l r c₁ c₂ hread hwrite
    obtain ⟨hdb, hl⟩ := returns_of_read hread
    have hw := returns_of_run hwrite
    rw [hdb] at hw
    exact ⟨keeps_writeShoppingList _ _ _ _ hw, stored_of_written hdistinct hl hw⟩
  constructor
  · rintro hafter ⟨l, s, c₁, c₂, hread, hack, ⟨name, hname⟩, hwrite⟩
    have hsame := retrieveList_of_ackList hread hack
    rw [hrun, hwrite] at hsame
    obtain ⟨hlists, hstored⟩ := hwritten hread hwrite
    rw [show c' = c₂ from hsame] at hafter
    rw [← hlists]
    exact hafter id name ((hstored id name).2 (Or.inr ⟨rfl, hname⟩))
  · intro hcond
    rcases Client.retrieveList_write hrun with hkeep | ⟨l, s, c₁, w, hread, hack, hwrite⟩
    · rw [hkeep]
      exact hlisted
    · by_cases hw : w = .ok ()
      · rw [hw] at hwrite
        obtain ⟨hlists, hstored⟩ := hwritten hread hwrite
        intro id' name hname
        rw [hlists]
        rcases (hstored id' name).1 hname with hbefore | ⟨rfl, hnew⟩
        · exact hlisted id' name hbefore
        · exact hcond ⟨l, s, c₁, c', hread, hack, ⟨name, hnew⟩, hwrite⟩
      · have hkeep := atomic_transaction _ c₁ w c' hwrite fun _ => hw
        rw [hkeep, (returns_of_read hread).1]
        exact hlisted

/-- What one command does to the listing. -/
theorem listed_run_iff (hdistinct : db.SlotsDistinct) (hlisted : Listed client db) (a : Action) :
    Listed client (a.run client db) ↔ a.Registers client db := by
  obtain ⟨command, reads, writes⟩ := a
  cases command with
  | edit name quantity acquired id =>
    refine iff_of_true ?_ trivial
    exact listed_of_edit (c := ⟨db, reads, writes⟩) hdistinct hlisted (Prod.ext rfl rfl)
  | refresh e id =>
    exact listed_of_refresh_iff (c := ⟨db, reads, writes⟩) hdistinct hlisted (Prod.ext rfl rfl)

theorem reachable_run (h : Reachable client (fun _ => True) db) (a : Action) :
    Reachable client (fun _ => True) (a.run client db) := by
  obtain ⟨command, reads, writes⟩ := a
  cases command with
  | edit name quantity acquired id =>
    exact .edit (c := ⟨db, reads, writes⟩) h (fun _ _ _ => trivial) (Prod.ext rfl rfl)
  | refresh e id =>
    change Reachable client _ (Client.retrieveList client e id ⟨db, reads, writes⟩).2.db
    rcases hrun : Client.retrieveList client e id ⟨db, reads, writes⟩ with ⟨r, c'⟩
    rcases Client.retrieveList_write hrun with hkeep | ⟨l, s, c₁, w, hread, -, hwrite⟩
    · rw [hkeep]
      exact h
    · have hdb := (readOnly_readShoppingList client id).keeps ⟨db, reads, writes⟩
      rw [hread] at hdb
      exact .write (c := c₁) (hdb ▸ h) hwrite

theorem session_append (client : Uuid) (actions : List Action) (a : Action) :
    session client (actions ++ [a]) = a.run client (session client actions) := by
  unfold session
  rw [List.foldl_append]
  rfl

theorem reachable_session (client : Uuid) (actions : List Action) :
    Reachable client (fun _ => True) (session client actions) := by
  induction actions using List.reverseRecOn with
  | nil => exact .empty
  | append_singleton actions a ih =>
    rw [session_append]
    exact reachable_run ih a

end Sessions

/-- **When every stored list is listed**, at every moment of a session. -/
theorem stored_lists_listed_iff (client : Uuid) (actions : List Action) :
    (∀ before, before <+: actions → Listed client (session client before)) ↔
      ∀ before a, before ++ [a] <+: actions → a.Registers client (session client before) := by
  have hstep : ∀ before a, Listed client (session client before) →
      (Listed client (session client (before ++ [a])) ↔ a.Registers client (session client before)) := by
    intro before a hlisted
    rw [session_append]
    exact listed_run_iff (reachable_session client before).slotsDistinct hlisted a
  constructor
  · intro h before a hprefix
    exact (hstep before a (h before ((List.prefix_append _ _).trans hprefix))).1 (h _ hprefix)
  · intro h before
    -- by induction on the part of the session that has run
    induction before using List.reverseRecOn with
    | nil =>
      intro _ id name row hrow
      simp [session, ClientDb.empty] at hrow
    | append_singleton before a ih =>
      intro hprefix
      have hbefore := ih ((List.prefix_append _ _).trans hprefix)
      exact (hstep before a hbefore).2 (h before a hprefix)

/-- Opening a list by its id, when the server has an item of it. -/
def opensMilk : List Action := [⟨.refresh Client.milkAnswer ⟨101⟩, [], []⟩]

/-- The item is stored, and the list is not listed. -/
theorem opened_list_not_listed :
    ((session ⟨201⟩ opensMilk).items.find? (⟨101⟩, "milk")).isSome = true ∧
      ((getUserLists ⟨201⟩).run (.calm (session ⟨201⟩ opensMilk))).1 = .ok none ∧
      ¬ Listed ⟨201⟩ (session ⟨201⟩ opensMilk) := by
  have hstored : ((session ⟨201⟩ opensMilk).items.find? (⟨101⟩, "milk")).isSome = true := by
    decide +kernel
  refine ⟨hstored, by decide +kernel, fun h => ?_⟩
  obtain ⟨row, hrow⟩ := Option.isSome_iff_exists.1 hstored
  exact absurd (h ⟨101⟩ "milk" row hrow).1 (by decide +kernel)

end Sdle
