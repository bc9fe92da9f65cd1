import Sdle.Lib.Sql
import Sdle.Crdt

/-!
# The client's relational store (`storage.rs`, `ClientStorage`)

`ClientDb` is the content of the tables of `initialize_schema`, with the constraints of the schema
as fields, so that no statement can break them: `list_uuid` is unique, the counters that a row names
exist, and an `item_id` belongs to one row.  A text column that holds a UUID is that `Uuid`.  The
statements are functions on `ClientDb`; the methods are calls on a connection, on which any statement
may fail.  An `INTEGER` count is an `Int`: it is written from a `u64` either by `ToSql`, which
refuses counts above `i64::MAX`, or by `as i64`, which wraps, and it is read as a `u64`, which
refuses negative ones.
-/

set_option autoImplicit false

namespace Sdle

open Sql

/-! ## The tables -/

/-- Why a statement fails. -/
inductive StorageError where
  | sqlite
  | constraint
  | toSql
  | fromSql
  deriving DecidableEq

/-- A row of `awormap_items`, without the list and the name, which are unique together. -/
structure ItemRow where
  itemId : ℕ
  acquiredVal : ℕ
  acquiredClock : ℕ
  acquiredActor : Uuid
  pId : ℕ
  nId : ℕ
  deriving DecidableEq

/-- The register of a row. -/
def ItemRow.acquired (row : ItemRow) : LWWReg Uuid :=
  ⟨row.acquiredVal, row.acquiredClock, row.acquiredActor⟩

/-- `gcounter(id)` after `n` insertions. -/
def IsGcounter (n id : ℕ) : Prop := 0 < id ∧ id ≤ n

instance (n id : ℕ) : Decidable (IsGcounter n id) := inferInstanceAs (Decidable (_ ∧ _))

theorem IsGcounter.succ {n id : ℕ} (h : IsGcounter n id) : IsGcounter (n + 1) id :=
  ⟨h.1, h.2.trans (Nat.le_succ n)⟩

/-- The tables of `initialize_schema`.  `gcounter` and `lastItem` are the numbers that
`AUTOINCREMENT` gave last; no row of `gcounter` is ever deleted. -/
structure ClientDb where
  localLists : List Uuid
  gcounter : ℕ
  actorValues : FinMap (ℕ × Uuid) ℤ
  items : FinMap (Uuid × String) ItemRow
  lastItem : ℕ
  listsUnique : localLists.Nodup
  valuesForeign : ∀ k v, actorValues.find? k = some v → IsGcounter gcounter k.1
  itemsForeign : ∀ k row, items.find? k = some row →
    IsGcounter gcounter row.pId ∧ IsGcounter gcounter row.nId
  itemIdLe : ∀ k row, items.find? k = some row → row.itemId ≤ lastItem
  itemIdUnique : ∀ k row k' row', items.find? k = some row → items.find? k' = some row' →
    row.itemId = row'.itemId → k = k'

namespace ClientDb

/-- The tables after `initialize_schema` on a new file. -/
def empty : ClientDb where
  localLists := []
  gcounter := 0
  actorValues := ∅
  items := ∅
  lastItem := 0
  listsUnique := List.nodup_nil
  valuesForeign k v h := by simp at h
  itemsForeign k row h := by simp at h
  itemIdLe k row h := by simp at h
  itemIdUnique k row k' row' h := by simp at h

/-! ## The statements -/

/-- `INSERT OR IGNORE INTO local_lists (list_uuid) VALUES (?1)`. -/
def insertOrIgnoreList (id : Uuid) (db : ClientDb) : Except StorageError (Unit × ClientDb) :=
  if h : id ∈ db.localLists then .ok ((), db)
  else .ok ((), { db with
    localLists := db.localLists ++ [id]
    listsUnique := List.Nodup.append db.listsUnique (List.nodup_singleton id) (by simpa using h) })

/-- `INSERT INTO gcounter DEFAULT VALUES`, and `last_insert_rowid()`. -/
def insertGcounter (db : ClientDb) : Except StorageError (ℕ × ClientDb) :=
  .ok (db.gcounter + 1, { db with
    gcounter := db.gcounter + 1
    valuesForeign := fun k v h => (db.valuesForeign k v h).succ
    itemsForeign := fun k row h => (db.itemsForeign k row h).imp .succ .succ })

/-- `INSERT OR REPLACE INTO gcounter_actor_values`, or the same with
`ON CONFLICT(gcounter_id, actor_id) DO UPDATE SET value = excluded.value`. -/
def upsertActorValue (gcounterId : ℕ) (actorId : Uuid) (value : ℤ) (db : ClientDb) :
    Except StorageError (Unit × ClientDb) :=
  if h : IsGcounter db.gcounter gcounterId then
    .ok ((), { db with
      actorValues := db.actorValues.insert (gcounterId, actorId) value
      valuesForeign := by
        intro k v hv
        rw [FinMap.find?_insert] at hv
        split at hv
        · rename_i hk
          rw [hk]
          exact h
        · exact db.valuesForeign k v hv })
  else .error .constraint

/-- `INSERT INTO gcounter_actor_values`. -/
def insertActorValue (gcounterId : ℕ) (actorId : Uuid) (value : ℤ) (db : ClientDb) :
    Except StorageError (Unit × ClientDb) :=
  if (db.actorValues.find? (gcounterId, actorId)).isSome then .error .constraint
  else db.upsertActorValue gcounterId actorId value

/-- The `item_id` of a row, or a fresh one. -/
def itemIdFor (db : ClientDb) (key : Uuid × String) : ℕ :=
  match db.items.find? key with
  | some row => row.itemId
  | none => db.lastItem + 1

theorem itemIdFor_ne (db : ClientDb) {key k : Uuid × String} {row : ItemRow}
    (h : db.items.find? k = some row) (hk : k ≠ key) : row.itemId ≠ db.itemIdFor key := by
  unfold itemIdFor
  cases hrow : db.items.find? key with
  | none =>
    have hle := db.itemIdLe k row h
    dsimp only
    omega
  | some row' => exact fun heq => hk (db.itemIdUnique k row key row' h hrow heq)

/-- `INSERT INTO awormap_items … ON CONFLICT(shopping_list_id, item_name) DO UPDATE`. -/
def upsertItem (key : Uuid × String) (acquired : LWWReg Uuid) (pId nId : ℕ) (db : ClientDb) :
    Except StorageError (Unit × ClientDb) :=
  if h : IsGcounter db.gcounter pId ∧ IsGcounter db.gcounter nId then
    .ok ((), { db with
      items := db.items.insert key
        ⟨db.itemIdFor key, acquired.val, acquired.clock, acquired.actor, pId, nId⟩
      lastItem := db.lastItem + 1
      itemsForeign := by
        intro k row hrow
        rw [FinMap.find?_insert] at hrow
        split at hrow
        · cases hrow
          exact h
        · exact db.itemsForeign k row hrow
      itemIdLe := by
        intro k row hrow
        rw [FinMap.find?_insert] at hrow
        split at hrow
        · cases hrow
          unfold itemIdFor
          cases hkey : db.items.find? key with
          | none => exact le_rfl
          | some row => exact (db.itemIdLe key row hkey).trans (Nat.le_succ _)
        · exact (db.itemIdLe k row hrow).trans (Nat.le_succ _)
      itemIdUnique := by
        intro k row k' row' hrow hrow' hid
        rw [FinMap.find?_insert] at hrow hrow'
        split at hrow <;> split at hrow'
        · rename_i hk hk'
          rw [hk, hk']
        · rename_i hk'
          cases hrow
          exact absurd hid.symm (db.itemIdFor_ne hrow' hk')
        · rename_i hk _
          cases hrow'
          exact absurd hid (db.itemIdFor_ne hrow hk)
        · exact db.itemIdUnique k row k' row' hrow hrow' hid })
  else .error .constraint

/-- `INSERT INTO awormap_items`. -/
def insertItem (key : Uuid × String) (acquired : LWWReg Uuid) (pId nId : ℕ) (db : ClientDb) :
    Except StorageError (Unit × ClientDb) :=
  if (db.items.find? key).isSome then .error .constraint else db.upsertItem key acquired pId nId

/-- What `UPDATE awormap_items SET … WHERE item_id = ?4` does to a row. -/
def setAcquired (itemId : ℕ) (acquired : LWWReg Uuid) (row : ItemRow) : ItemRow :=
  if row.itemId = itemId then
    { row with
      acquiredVal := acquired.val, acquiredClock := acquired.clock, acquiredActor := acquired.actor }
  else row

theorem setAcquired_columns (itemId : ℕ) (acquired : LWWReg Uuid) (row : ItemRow) :
    (setAcquired itemId acquired row).itemId = row.itemId ∧
      (setAcquired itemId acquired row).pId = row.pId ∧
      (setAcquired itemId acquired row).nId = row.nId := by
  unfold setAcquired
  split <;> exact ⟨rfl, rfl, rfl⟩

/-- `UPDATE awormap_items SET … WHERE item_id = ?4`. -/
def updateItem (itemId : ℕ) (acquired : LWWReg Uuid) (db : ClientDb) :
    Except StorageError (Unit × ClientDb) :=
  .ok ((), { db with
    items := db.items.mapValues (setAcquired itemId acquired)
    itemsForeign := by
      intro k row hrow
      rw [FinMap.find?_mapValues, Option.map_eq_some_iff] at hrow
      obtain ⟨old, hold, rfl⟩ := hrow
      obtain ⟨-, hp, hn⟩ := setAcquired_columns itemId acquired old
      rw [hp, hn]
      exact db.itemsForeign k old hold
    itemIdLe := by
      intro k row hrow
      rw [FinMap.find?_mapValues, Option.map_eq_some_iff] at hrow
      obtain ⟨old, hold, rfl⟩ := hrow
      rw [(setAcquired_columns itemId acquired old).1]
      exact db.itemIdLe k old hold
    itemIdUnique := by
      intro k row k' row' hrow hrow' hid
      rw [FinMap.find?_mapValues, Option.map_eq_some_iff] at hrow hrow'
      obtain ⟨old, hold, rfl⟩ := hrow
      obtain ⟨old', hold', rfl⟩ := hrow'
      rw [(setAcquired_columns itemId acquired old).1,
        (setAcquired_columns itemId acquired old').1] at hid
      exact db.itemIdUnique k old k' old' hold hold' hid })

/-- `SELECT p_gcounter_id, n_gcounter_id FROM awormap_items WHERE …`. -/
def selectGcounters (key : Uuid × String) (db : ClientDb) :
    Except StorageError (Option (ℕ × ℕ) × ClientDb) :=
  .ok ((db.items.find? key).map fun row => (row.pId, row.nId), db)

end ClientDb

/-- A `u64` as the parameter of a statement. -/
def toSql (count : ℕ) : Except StorageError ℤ :=
  if count < 2 ^ 63 then .ok count else .error .toSql

/-- An `INTEGER` column read as a `u64`. -/
def fromSql (value : ℤ) : Except StorageError ℕ :=
  if 0 ≤ value then .ok value.toNat else .error .fromSql

/-- `x` where it is an `i64`, or the overflow panic. -/
def checkedI64 (x : ℤ) : Option ℤ := if -2 ^ 63 ≤ x ∧ x < 2 ^ 63 then some x else none

/-! ## The methods -/

/-- `StoredItemRow`. -/
structure StoredItemRow extends ItemRow where
  name : String

namespace ClientStorage

/-- `ClientStorage::ensure_list`. -/
def ensureList (shoppingListId : Uuid) : Call ClientDb StorageError Unit :=
  .transaction (.stmt (ClientDb.insertOrIgnoreList shoppingListId))

/-- `ClientStorage::read_gcounter`. -/
def readGcounter (clientId : Uuid) (id : ℕ) : Call ClientDb StorageError GCounter := do
  let counter ← .query fun db =>
    (db.actorValues.slice id).entries.foldlM
      (fun (counter : FinMap Uuid ℕ) e => do return counter.insert e.1 (← fromSql e.2)) ∅
  return { counter, actorId := clientId }

/-- `ClientStorage::build_item`. -/
def buildItem (clientId : Uuid) (intermediate : ItemRow) : Call ClientDb StorageError Item := do
  let p ← readGcounter clientId intermediate.pId
  let n ← readGcounter clientId intermediate.nId
  return { amount := ⟨p, n⟩, acquired := intermediate.acquired }

/-- `ClientStorage::read_item`. -/
def readItem (itemName : String) (shoppingListId : Uuid) :
    Call ClientDb StorageError (Option StoredItemRow) :=
  .query fun db => .ok ((db.items.find? (shoppingListId, itemName)).map fun row => ⟨row, itemName⟩)

/-- `ClientStorage::read_shopping_list`. -/
def readShoppingList (clientId id : Uuid) : Call ClientDb StorageError ShoppingList := do
  let rows ← .query fun db => .ok (db.items.slice id).entries
  let awormap ← rows.foldlM (fun (awormap : AWORMap) row => do
    return awormap.insert row.1 (← buildItem clientId row.2)) AWORMap.new
  return { id, list := awormap }

/-- `ClientStorage::get_user_lists`. -/
def getUserLists (clientId : Uuid) : Call ClientDb StorageError (Option (List ShoppingList)) := do
  let lists ← .query fun db => .ok db.localLists
  let listVec ← lists.foldlM (fun (listVec : List ShoppingList) listUuid => do
    return listVec ++ [← readShoppingList clientId listUuid]) []
  return if listVec.isEmpty then none else some listVec

/-- `ClientStorage::overwrite_item`. -/
def overwriteItem (item : Item) (itemId pGcounterId nGcounterId : ℕ) :
    Call ClientDb StorageError Unit :=
  .transaction do
    .stmt (ClientDb.updateItem itemId item.acquired)
    forM item.amount.p.counter.entries fun e =>
      .stmt (ClientDb.upsertActorValue pGcounterId e.1 (asI64 e.2))
    forM item.amount.n.counter.entries fun e =>
      .stmt (ClientDb.upsertActorValue nGcounterId e.1 (asI64 e.2))

/-- `ClientStorage::write_item`. -/
def writeItem (shoppingListId : Uuid) (item : Item) (itemName : String) :
    Call ClientDb StorageError Unit :=
  .transaction do
    let pId ← .stmt ClientDb.insertGcounter
    let nId ← .stmt ClientDb.insertGcounter
    forM item.amount.p.counter.entries fun e =>
      .stmt fun db => do db.insertActorValue pId e.1 (← toSql e.2)
    forM item.amount.n.counter.entries fun e =>
      .stmt fun db => do db.insertActorValue nId e.1 (← toSql e.2)
    .stmt (ClientDb.insertItem (shoppingListId, itemName) item.acquired pId nId)

/-- The gcounters of an item in `write_shopping_list`: those of its row, or two new ones. -/
def gcountersFor : Option (ℕ × ℕ) → Call ClientDb StorageError (ℕ × ℕ)
  | some (p, n) => pure (p, n)
  | none => do
    let pId ← .stmt ClientDb.insertGcounter
    let nId ← .stmt ClientDb.insertGcounter
    return (pId, nId)

/-- One item of the loop of `write_shopping_list`. -/
def writeEntry (shoppingListId : Uuid) (name : String) (item : Item) :
    Call ClientDb StorageError Unit := do
  let row ← .stmt (ClientDb.selectGcounters (shoppingListId, name))
  let (pId, nId) ← gcountersFor row
  forM item.amount.p.counter.entries fun e =>
    .stmt fun db => do db.upsertActorValue pId e.1 (← toSql e.2)
  forM item.amount.n.counter.entries fun e =>
    .stmt fun db => do db.upsertActorValue nId e.1 (← toSql e.2)
  .stmt (ClientDb.upsertItem (shoppingListId, name) item.acquired pId nId)

/-- `ClientStorage::write_shopping_list`. -/
def writeShoppingList (shoppingList : ShoppingList) : Call ClientDb StorageError Unit :=
  .transaction (forM shoppingList.list.items.entries fun e => writeEntry shoppingList.id e.1 e.2)

/-- The pncounter mutations of `handle_item_storage_request`, or the panic of their checked
arithmetic. -/
def editAmount (quantity : ℕ) (amount : PNCounter) : Option PNCounter := do
  let currentQuantity ← amount.valueTotal
  let delta ← checkedI64 (asI64 quantity - currentQuantity)
  if 0 < delta then amount.incBy (asU64 delta)
  else if delta < 0 then (checkedI64 (-delta)).bind fun n => amount.decBy (asU64 n)
  else some amount

/-- The lwwreg mutation of `handle_item_storage_request`, or the panic at the last clock. -/
def editAcquired (clientId : Uuid) (acquired : Bool) (stored : LWWReg Uuid) :
    Option (LWWReg Uuid) :=
  if acquired.toNat ≠ stored.val then
    if stored.clock + 1 < 2 ^ 32 then some ⟨acquired.toNat, stored.clock + 1, clientId⟩ else none
  else some stored

/-- The item that `handle_item_storage_request` stores in place of the stored one. -/
def editItem (clientId : Uuid) (quantity : ℕ) (acquired : Bool) (storedItem : Item) :
    Option Item := do
  let amount ← editAmount quantity storedItem.amount
  let register ← editAcquired clientId acquired storedItem.acquired
  return storedItem.merge ⟨amount, register⟩

theorem editItem_eq_some {clientId : Uuid} {quantity : ℕ} {acquired : Bool} {storedItem item : Item} :
    editItem clientId quantity acquired storedItem = some item ↔
      ∃ amount register, editAmount quantity storedItem.amount = some amount ∧
        editAcquired clientId acquired storedItem.acquired = some register ∧
        storedItem.merge ⟨amount, register⟩ = item := by
  simp [editItem, Option.bind_eq_some_iff]

/-- `ClientStorage::handle_item_storage_request`. -/
def handleItemStorageRequest (clientId : Uuid) (itemName : String) (quantity : ℕ) (acquired : Bool)
    (shoppingListId : Uuid) : Call ClientDb StorageError Unit := do
  ensureList shoppingListId
  let itemOpt ← readItem itemName shoppingListId
  match itemOpt with
  | some storedItemRow =>
    let storedItem ← buildItem clientId storedItemRow.toItemRow
    let updatedItem ← .orPanic (editItem clientId quantity acquired storedItem)
    overwriteItem updatedItem storedItemRow.itemId storedItemRow.pId storedItemRow.nId
  | none => writeItem shoppingListId (Item.new quantity acquired clientId) itemName

end ClientStorage

end Sdle
