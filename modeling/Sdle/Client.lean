import Sdle.ItemMap
import Sdle.Message

/-!
# The client (`client.rs`)

`Client` over its store and one exchange with the proxy.  What the socket does is an input: an
`Exchange` says whether `send`, the two calls of `reset_socket` and `recv_msg` succeed, and what the
reply decodes to.  Serialising a request never fails.

* `never_backwards` — **local state never goes backwards**: along every sequence of edits and
  refreshes, whatever the server answers and whatever statements fail, a list that could be read can
  be read again and has only grown.
* `local_first_iff` — exactly when the operations of the client are local-first: a view needs a
  socket that fails softly and totals that do not overflow, and what it shows is stored when the
  write succeeds or adds nothing; an edit that is stored is reported unless the socket fails hard.
-/

set_option autoImplicit false

namespace Sdle

open Sql Sql.Call ClientStorage ClientDb

/-! ## What a client shows -/

/-- `ShoppingListInterface`: the amount of each item, and whether it is acquired. -/
structure ShoppingListInterface where
  listId : Uuid
  items : FinMap String (ℕ × Bool)

/-- One item of `ShoppingListInterface::from_crdt`, or the overflow panic of `value_total`. -/
def shownItem (item : Item) : Option (ℕ × Bool) := do
  return (asU64 (← item.amount.valueTotal), decide (item.acquired.val ≠ 0))

/-- `ShoppingListInterface::from_crdt`. -/
def fromCrdt (sl : ShoppingList) : Option ShoppingListInterface := do
  let items ← sl.list.items.entries.foldlM (fun (items : FinMap String (ℕ × Bool)) e => do
    return items.insert e.1 (← shownItem e.2)) ∅
  return ⟨sl.id, items⟩

/-! ## Exchanges with the proxy -/

/-- How a call of `client.rs` fails. -/
inductive ClientError where
  | storage (e : StorageError)
  | zmq
  | serde
  | unexpectedResponse
  deriving DecidableEq

/-- What `recv_msg` and `from_slice` give. -/
inductive Reply where
  | eagain
  | error
  | undecodable
  | msg (m : Msg)

/-- What the socket does in one exchange. -/
structure Exchange where
  send : Bool
  disconnect : Bool
  connect : Bool
  reply : Reply

namespace Exchange

/-- `Client::reset_socket`. -/
def resetSocket (e : Exchange) : Except ClientError Unit := do
  if !e.disconnect then throw .zmq
  if !e.connect then throw .zmq

/-- `Client::fetch_list`. -/
def fetchList (e : Exchange) (list : ShoppingList) : Except ClientError (Option ShoppingList) := do
  if !e.send then
    e.resetSocket
    return none
  match e.reply with
  | .msg response =>
    match response with
    | .ackList _ l => return some { list with list := list.list.merge l.list }
    | .nack _ => return none
    | _ => throw .unexpectedResponse
  | .undecodable => throw .serde
  | .eagain =>
    e.resetSocket
    return none
  | .error => throw .zmq

/-- `Client::send_list`. -/
def sendList (e : Exchange) : Except ClientError Unit := do
  if !e.send then
    e.resetSocket
    return
  match e.reply with
  | .msg _ => return
  | .undecodable => throw .serde
  | .eagain =>
    e.resetSocket
    return
  | .error => throw .zmq

/-- The list of the reply, when it is an `AckList`. -/
def ackList (e : Exchange) : Option ShoppingList :=
  match e.send, e.reply with
  | true, .msg (.ackList _ l) => some l
  | _, _ => none

/-- `reset_socket` succeeds. -/
def resets (e : Exchange) : Bool := e.disconnect && e.connect

/-- The socket fails, if at all, in one of the ways that `fetch_list` treats as no answer. -/
def softOnFetch (e : Exchange) : Bool :=
  if e.send then
    match e.reply with
    | .msg (.ackList _ _) => true
    | .msg (.nack _) => true
    | .eagain => e.resets
    | _ => false
  else e.resets

/-- The same for `send_list`, which takes any message for an answer. -/
def softOnSend (e : Exchange) : Bool :=
  if e.send then
    match e.reply with
    | .msg _ => true
    | .eagain => e.resets
    | _ => false
  else e.resets

theorem resetSocket_eq (e : Exchange) :
    e.resetSocket = if e.resets then .ok () else .error .zmq := by
  unfold resetSocket resets
  cases e.disconnect <;> cases e.connect <;> rfl

end Exchange

/-- The local list merged with the list of the reply, if there is one. -/
def mergedWith (l : ShoppingList) : Option ShoppingList → ShoppingList
  | some r => { l with list := l.list.merge r.list }
  | none => l

/-- The list that `retrieve_list` writes and shows: `fetch_list` has merged the reply into a copy of
the local list, and `retrieve_list` merges the copy into the local list again. -/
def writtenList (l r : ShoppingList) : ShoppingList :=
  { l with list := l.list.merge (mergedWith l (some r)).list }

/-! ## The operations -/

namespace Client

/-- The value, or the panic. -/
def orPanic {α : Type} : Option α → Outcome ClientError α
  | some a => .ok a
  | none => .panic

/-- `Client::retrieve_list`.  The outcome of the write is dropped, and it never panics. -/
def retrieveList (clientId : Uuid) (e : Exchange) (listId : Uuid)
    (c : Conn ClientDb StorageError) :
    Outcome ClientError ShoppingListInterface × Conn ClientDb StorageError :=
  match (readShoppingList clientId listId).run c with
  | (.ok localList, c) =>
    match e.fetchList localList with
    | .ok (some remote) =>
      let merged := { localList with list := localList.list.merge remote.list }
      let (_, c) := (writeShoppingList merged).run c
      (orPanic (fromCrdt merged), c)
    | .ok none => (orPanic (fromCrdt localList), c)
    | .error err => (.err err, c)
  | (.err err, c) => (.err (.storage err), c)
  | (.panic, c) => (.panic, c)

/-- `Client::send_item_storage_request`. -/
def sendItemStorageRequest (clientId : Uuid) (e : Exchange) (itemName : String) (quantity : ℕ)
    (acquired : Bool) (shoppinglistId : Uuid) (c : Conn ClientDb StorageError) :
    Outcome ClientError Unit × Conn ClientDb StorageError :=
  match (handleItemStorageRequest clientId itemName quantity acquired shoppinglistId).run c with
  | (.ok (), c) =>
    match (readShoppingList clientId shoppinglistId).run c with
    | (.ok _, c) => (.ofExcept e.sendList, c)
    | (.err err, c) => (.err (.storage err), c)
    | (.panic, c) => (.panic, c)
  | (.err err, c) => (.err (.storage err), c)
  | (.panic, c) => (.panic, c)

/-- `Client::retrieve_available_lists`. -/
def retrieveAvailableLists (clientId : Uuid) (c : Conn ClientDb StorageError) :
    Outcome ClientError (Option (List ShoppingListInterface)) × Conn ClientDb StorageError :=
  match (getUserLists clientId).run c with
  | (.ok none, c) => (.ok none, c)
  | (.ok (some lists), c) => (orPanic ((lists.mapM fromCrdt).map some), c)
  | (.err err, c) => (.err (.storage err), c)
  | (.panic, c) => (.panic, c)

end Client

namespace Exchange

/-- Without an answer everything depends on `reset_socket`. -/
theorem reset_then {α : Type} (e : Exchange) (a : α) :
    (do e.resetSocket; return a) = if e.resets then .ok a else .error .zmq := by
  rw [resetSocket_eq]
  cases e.resets <;> rfl

/-- What `fetch_list` does with each outcome of the exchange. -/
theorem fetchList_eq (e : Exchange) (l : ShoppingList) :
    (e.softOnFetch = true ∧
      e.fetchList l = .ok (e.ackList.map fun r => { l with list := l.list.merge r.list })) ∨
      e.softOnFetch = false ∧ ∃ err, e.fetchList l = .error err := by
  have hnone : ∀ x : Except ClientError (Option ShoppingList),
      x = (do e.resetSocket; return none) →
        (e.resets = true ∧ x = .ok none) ∨ e.resets = false ∧ ∃ err, x = .error err := by
    rintro x rfl
    rw [reset_then]
    cases e.resets with
    | true => exact Or.inl ⟨rfl, rfl⟩
    | false => exact Or.inr ⟨rfl, .zmq, rfl⟩
  obtain ⟨send, disconnect, connect, reply⟩ := e
  cases send with
  | false => exact hnone _ rfl
  | true =>
    cases reply with
    | eagain => exact hnone _ rfl
    | error => exact Or.inr ⟨rfl, .zmq, rfl⟩
    | undecodable => exact Or.inr ⟨rfl, .serde, rfl⟩
    | msg m =>
      cases m with
      | ackList rid r => exact Or.inl ⟨rfl, rfl⟩
      | nack rid => exact Or.inl ⟨rfl, rfl⟩
      | _ => exact Or.inr ⟨rfl, .unexpectedResponse, rfl⟩

theorem softOnFetch_of_ackList {e : Exchange} {r : ShoppingList} (h : e.ackList = some r) :
    e.softOnFetch = true := by
  unfold ackList at h
  unfold softOnFetch
  split at h
  · rename_i hsend hreply
    rw [hsend, hreply]
    rfl
  · cases h

/-- What `send_list` does with each outcome of the exchange. -/
theorem sendList_eq (e : Exchange) :
    (e.softOnSend = true ∧ e.sendList = .ok ()) ∨
      e.softOnSend = false ∧ ∃ err, e.sendList = .error err := by
  have hnone : ∀ x : Except ClientError Unit, x = (do e.resetSocket; return ()) →
      (e.resets = true ∧ x = .ok ()) ∨ e.resets = false ∧ ∃ err, x = .error err := by
    rintro x rfl
    rw [reset_then]
    cases e.resets with
    | true => exact Or.inl ⟨rfl, rfl⟩
    | false => exact Or.inr ⟨rfl, .zmq, rfl⟩
  obtain ⟨send, disconnect, connect, reply⟩ := e
  cases send with
  | false => exact hnone _ rfl
  | true =>
    cases reply with
    | eagain => exact hnone _ rfl
    | error => exact Or.inr ⟨rfl, .zmq, rfl⟩
    | undecodable => exact Or.inr ⟨rfl, .serde, rfl⟩
    | msg m => exact Or.inl ⟨rfl, rfl⟩

end Exchange

/-! ## Local state never goes backwards -/

namespace ItemMap

/-- Everything that `m` holds, `m'` holds too, with counts at least as large and registers at least
as new. -/
def Le (m m' : ItemMap) : Prop :=
  ∀ id name v, m id name = some v → ∃ w, m' id name = some w ∧
    v.p ≤ w.p ∧ v.n ≤ w.n ∧ v.acquired.stamp ≤ w.acquired.stamp

theorem Le.refl (m : ItemMap) : Le m m :=
  fun _ _ v hv => ⟨v, hv, le_rfl, le_rfl, le_rfl⟩

/-- Putting an item that is above the one in the map. -/
theorem le_put {m : ItemMap} {id : Uuid} {name : String} {item : Item}
    (h : ∀ v, m id name = some v →
      v.p ≤ item.view.p ∧ v.n ≤ item.view.n ∧ v.acquired.stamp ≤ item.view.acquired.stamp) :
    Le m (m.put id name item) := by
  intro id' name' v hv
  unfold put
  split
  · rename_i heq
    rw [heq.1, heq.2] at hv
    refine ⟨_, rfl, ?_⟩
    rw [Item.View.overlay_of_le fun w hw => ⟨(h w hw).1, (h w hw).2.1⟩]
    exact h v hv
  · exact ⟨v, hv, le_rfl, le_rfl, le_rfl⟩

/-- Writing a list that is above what the map has for it. -/
theorem le_write {m : ItemMap} {l : ShoppingList}
    (h : ∀ name v, m l.id name = some v → ∃ w, l.list.view name = some w ∧
      v.p ≤ w.p ∧ v.n ≤ w.n ∧ v.acquired.stamp ≤ w.acquired.stamp) : Le m (m.write l) := by
  intro id name v hv
  by_cases hid : id = l.id
  · rw [hid] at hv ⊢
    rw [write_of_le fun name v hv => ?_]
    · exact h name v hv
    · obtain ⟨w, hw, hp, hn, -⟩ := h name v hv
      exact ⟨w, hw, hp, hn⟩
  · refine ⟨v, ?_, le_rfl, le_rfl, le_rfl⟩
    rw [write, if_neg hid]
    exact hv

end ItemMap

/-- What an edit puts is above what it read. -/
theorem Edited.le {clientId : Uuid} {quantity : ℕ} {acquired : Bool} {old : Option Stored}
    {cast : ℕ → ℤ} {item : Item} (h : Edited clientId quantity acquired old cast item) :
    ∀ v, old.map Stored.view = some v →
      v.p ≤ item.view.p ∧ v.n ≤ item.view.n ∧ v.acquired.stamp ≤ item.view.acquired.stamp := by
  cases h with
  | created => exact fun v hv => nomatch hv
  | @changed s i _ hread hedit =>
    intro v hv
    cases hv
    rw [← hread.view]
    refine (Item.le_iff_view _ _).1 ?_
    obtain ⟨amount, register, -, -, rfl⟩ := editItem_eq_some.1 hedit
    exact Item.le_merge_left _ _

namespace Client

/-- A step of a client: an edit whose counts stay below `2^63`, or a refresh, whatever the server
answers and whatever statements fail. -/
inductive Step (clientId : Uuid) : ClientDb → ClientDb → Prop
  | edit {name : String} {quantity : ℕ} {acquired : Bool} {id : Uuid}
      {c c' : Conn ClientDb StorageError} {r : Outcome StorageError Unit}
      (hfits : ∀ cast item,
        Edited clientId quantity acquired (c.db.content (id, name)) cast item → item.Fits)
      (hrun : (handleItemStorageRequest clientId name quantity acquired id).run c = (r, c')) :
      Step clientId c.db c'.db
  | refresh {e : Exchange} {id : Uuid} {c c' : Conn ClientDb StorageError}
      {r : Outcome ClientError ShoppingListInterface}
      (hrun : retrieveList clientId e id c = (r, c')) : Step clientId c.db c'.db

/-- What keeps every list readable. -/
structure Sound (db : ClientDb) : Prop where
  distinct : db.SlotsDistinct
  bounded : db.content.Bounded

theorem sound_empty : Sound .empty := by
  refine ⟨fun k row s k' row' s' h => ?_, fun key s hs => ?_⟩
  · simp [ClientDb.empty] at h
  · simp [ClientDb.content, ClientDb.empty] at hs

/-- **What `retrieve_list` does with the list that it has read.** -/
theorem retrieveList_of_read {clientId id : Uuid} (e : Exchange) {c c₁ : Conn ClientDb StorageError}
    {l : ShoppingList} (hread : (readShoppingList clientId id).run c = (.ok l, c₁)) :
    (e.softOnFetch = true ∧ retrieveList clientId e id c =
      match e.ackList with
      | some r => (orPanic (fromCrdt (writtenList l r)),
          ((writeShoppingList (writtenList l r)).run c₁).2)
      | none => (orPanic (fromCrdt l), c₁)) ∨
      e.softOnFetch = false ∧ ∃ err, retrieveList clientId e id c = (.err err, c₁) := by
  unfold retrieveList
  rw [hread]
  rcases e.fetchList_eq l with ⟨hsoft, hfetch⟩ | ⟨hhard, err, hfetch⟩
  · refine Or.inl ⟨hsoft, ?_⟩
    dsimp only
    rw [hfetch]
    cases e.ackList <;> rfl
  · refine Or.inr ⟨hhard, err, ?_⟩
    dsimp only
    rw [hfetch]

/-- An answered refresh ends where its write does. -/
theorem write_of_retrieveList {clientId id : Uuid} {e : Exchange} {c c₁ c' : Conn ClientDb StorageError}
    {l s : ShoppingList} {r : Outcome ClientError ShoppingListInterface} (hack : e.ackList = some s)
    (hread : (readShoppingList clientId id).run c = (.ok l, c₁))
    (hrun : retrieveList clientId e id c = (r, c')) :
    ((writeShoppingList (writtenList l s)).run c₁).2 = c' := by
  rcases retrieveList_of_read e hread with ⟨-, heq⟩ | ⟨hhard, -⟩
  · rw [hrun, hack] at heq
    exact (Prod.mk.inj heq).2.symm
  · rw [Exchange.softOnFetch_of_ackList hack] at hhard
    cases hhard

/-- A list that cannot be read is not shown. -/
theorem retrieveList_of_not_read {clientId id : Uuid} {e : Exchange} {c : Conn ClientDb StorageError}
    (hread : ∀ l, ((readShoppingList clientId id).run c).1 ≠ .ok l) :
    (∀ s, (retrieveList clientId e id c).1 ≠ .ok s) ∧ (retrieveList clientId e id c).2.db = c.db := by
  have hkeep := (readOnly_readShoppingList clientId id).keeps c
  unfold retrieveList
  rcases hrun : (readShoppingList clientId id).run c with ⟨l | err | _, c₁⟩ <;> rw [hrun] at hread hkeep
  · exact absurd rfl (hread l)
  · exact ⟨by simp, hkeep⟩
  · exact ⟨by simp, hkeep⟩

/-- A refresh leaves the store alone, or runs the write of the list merged with the reply. -/
theorem retrieveList_write {clientId id : Uuid} {e : Exchange} {c c' : Conn ClientDb StorageError}
    {r : Outcome ClientError ShoppingListInterface}
    (h : retrieveList clientId e id c = (r, c')) :
    c'.db = c.db ∨ ∃ (l s : ShoppingList) (c₁ : Conn ClientDb StorageError)
      (w : Outcome StorageError Unit), (readShoppingList clientId id).run c = (.ok l, c₁) ∧
      e.ackList = some s ∧ (writeShoppingList (writtenList l s)).run c₁ = (w, c') := by
  by_cases hok : ∃ l, ((readShoppingList clientId id).run c).1 = .ok l
  · obtain ⟨l, hl⟩ := hok
    have hread : (readShoppingList clientId id).run c = (.ok l, _) := Prod.ext hl rfl
    obtain ⟨hkeep, -⟩ := returns_of_read hread
    rcases retrieveList_of_read e hread with ⟨-, heq⟩ | ⟨-, err, heq⟩ <;> rw [h] at heq
    · cases hack : e.ackList with
      | none =>
        rw [hack] at heq
        rw [(Prod.mk.inj heq).2]
        exact Or.inl hkeep
      | some s =>
        rw [hack] at heq
        rw [(Prod.mk.inj heq).2]
        exact Or.inr ⟨l, s, _, _, hread, rfl, rfl⟩
    · rw [(Prod.mk.inj heq).2]
      exact Or.inl hkeep
  · have hkeep := (retrieveList_of_not_read (e := e) (not_exists.1 hok)).2
    rw [h] at hkeep
    exact Or.inl hkeep

/-- **One step keeps every list readable and the map of items only grows.** -/
theorem Step.grows {clientId : Uuid} {db db' : ClientDb} (h : Step clientId db db')
    (hsound : Sound db) : Sound db' ∧ db.itemMap.Le db'.itemMap := by
  cases h with
  | @edit name quantity acquired id c c' r hfits hrun =>
    obtain ⟨hdistinct, ⟨-, hkeep⟩ | ⟨-, cast, item, hedited, hput⟩⟩ :=
      handleItemStorageRequest_run hsound.distinct hrun
    · refine ⟨⟨hdistinct, hkeep ▸ hsound.bounded⟩, ?_⟩
      rw [show c'.db.itemMap = c.db.itemMap by unfold itemMap; rw [hkeep]]
      exact .refl _
    · have hitem := hfits cast item hedited
      rw [hedited.put_eq hitem] at hput
      refine ⟨⟨hdistinct, hput ▸ hsound.bounded.put hitem⟩, ?_⟩
      rw [itemMap_put hput]
      exact ItemMap.le_put hedited.le
  | @refresh e id c c' r hrun =>
    rcases retrieveList_write hrun with hkeep | ⟨l, s, c₁, w, hread, -, hwrite⟩
    · rw [hkeep]
      exact ⟨hsound, .refl _⟩
    · obtain ⟨hdb, hl⟩ := returns_of_read hread
      rw [← hdb] at hsound hl ⊢
      obtain ⟨hdistinct, ⟨-, hkeep⟩ | ⟨-, hfits, hcontent⟩⟩ :=
        writeShoppingList_run hsound.distinct hwrite
      · rw [hkeep]
        exact ⟨hsound, .refl _⟩
      · refine ⟨⟨hdistinct, hcontent ▸ hsound.bounded.write hfits⟩, ?_⟩
        rw [itemMap_write hcontent]
        refine ItemMap.le_write fun name v hv => ?_
        rw [show (writtenList l s).id = id from (readShoppingList_spec hl).2.1,
          ← view_of_read hl] at hv
        exact (AWORMap.le_iff_view _ _).1 (AWORMap.le_merge_left _ _) name v hv

/-- The stores along a sequence of edits and refreshes. -/
theorem sound_of_steps {clientId : Uuid} {db : ClientDb}
    (h : Relation.ReflTransGen (Step clientId) .empty db) : Sound db := by
  induction h with
  | refl => exact sound_empty
  | tail _ hstep ih => exact (hstep.grows ih).1

/-- **Local state never goes backwards.** -/
theorem never_backwards {clientId : Uuid} {db db' : ClientDb}
    (hrun : Relation.ReflTransGen (Step clientId) .empty db) (hstep : Step clientId db db')
    (id : Uuid) (l : ShoppingList) (hread : (readShoppingList clientId id).Returns db l db) :
    ∃ l', (readShoppingList clientId id).Returns db' l' db' ∧ l'.id = l.id ∧ l.list ≤ l'.list := by
  obtain ⟨hsound, hle⟩ := hstep.grows (sound_of_steps hrun)
  obtain ⟨l', hread'⟩ := readShoppingList_returns clientId (hsound.bounded.readable id)
  refine ⟨l', hread', ?_, (AWORMap.le_iff_view _ _).2 fun name v hv => ?_⟩
  · rw [(readShoppingList_spec hread).2.1, (readShoppingList_spec hread').2.1]
  · rw [view_of_read hread] at hv
    rw [view_of_read hread']
    exact hle id name v hv

/-- A server that answers a `GetList` of list 101 with other counts and a newer register. -/
def milkAnswer : Exchange :=
  ⟨true, true, true,
    .msg (.ackList "1" ⟨⟨101⟩, AWORMap.new.insert "milk" (Item.new 5 true ⟨202⟩)⟩)⟩

theorem never_backwards_milk :
    ∃ l l', (readShoppingList ⟨201⟩ ⟨101⟩).Returns milkStore l milkStore ∧
      (readShoppingList ⟨201⟩ ⟨101⟩).Returns
        (retrieveList ⟨201⟩ milkAnswer ⟨101⟩ (.calm milkStore)).2.db l'
        (retrieveList ⟨201⟩ milkAnswer ⟨101⟩ (.calm milkStore)).2.db ∧ l.list ≤ l'.list := by
  have hedit : Step ⟨201⟩ .empty milkStore := by
    refine .edit (c := .calm .empty) (fun cast item h => ?_)
      (show (handleItemStorageRequest ⟨201⟩ "milk" 2 false ⟨101⟩).run (.calm .empty) = (_, _) from
        Prod.ext rfl rfl)
    rw [show (Conn.calm ClientDb.empty : Conn ClientDb StorageError).db.content (⟨101⟩, "milk") = none
      from rfl] at h
    cases h
    exact Item.fits_new (by decide) _ _
  have hrun := Relation.ReflTransGen.single hedit
  obtain ⟨l, hread⟩ := readShoppingList_returns ⟨201⟩
    ((sound_of_steps hrun).bounded.readable ⟨101⟩)
  obtain ⟨l', hread', -, hle⟩ := never_backwards hrun
    (.refresh (c := .calm milkStore) (show retrieveList ⟨201⟩ milkAnswer ⟨101⟩ (.calm milkStore) = (_, _)
      from Prod.ext rfl rfl)) ⟨101⟩ l hread
  exact ⟨l, l', hread, hread', hle⟩

end Client

/-! ## What is shown -/

namespace ShoppingListInterface

/-- Two lists that show the same, in whatever order. -/
def Same (s s' : ShoppingListInterface) : Prop :=
  s.listId = s'.listId ∧ ∀ name, s.items.find? name = s'.items.find? name

theorem Same.symm {s s' : ShoppingListInterface} (h : s.Same s') : s'.Same s :=
  ⟨h.1.symm, fun name => (h.2 name).symm⟩

theorem Same.trans {s s' s'' : ShoppingListInterface} (h : s.Same s') (h' : s'.Same s'') :
    s.Same s'' :=
  ⟨h.1.trans h'.1, fun name => (h.2 name).trans (h'.2 name)⟩

end ShoppingListInterface

/-- The loop of `from_crdt`. -/
theorem foldlM_shown :
    ∀ (es : List (Sigma fun _ : String => Item)) (acc shown : FinMap String (ℕ × Bool)),
      es.NodupKeys →
      es.foldlM (fun (items : FinMap String (ℕ × Bool)) e => do
        return items.insert e.1 (← shownItem e.2)) acc = some shown →
      (∀ e ∈ es, (shownItem e.2).isSome) ∧ ∀ name, shown.find? name =
        match es.dlookup name with
        | none => acc.find? name
        | some item => shownItem item := by
  intro es
  induction es with
  | nil =>
    intro acc shown _ h
    cases h
    exact ⟨fun e he => (List.not_mem_nil he).elim, fun name => rfl⟩
  | cons e es ih =>
    intro acc shown hnodup h
    obtain ⟨k, item⟩ := e
    rw [List.foldlM_cons] at h
    obtain ⟨acc', hround, hrest⟩ := Option.bind_eq_some_iff.1 h
    obtain ⟨x, hx, hacc⟩ := Option.bind_eq_some_iff.1 hround
    cases hacc
    obtain ⟨hall, hshown⟩ := ih _ shown (List.nodupKeys_of_nodupKeys_cons hnodup) hrest
    refine ⟨List.forall_mem_cons.2 ⟨by dsimp only at hx ⊢; rw [hx]; rfl, hall⟩, fun name => ?_⟩
    rw [hshown name]
    by_cases hname : name = k
    · subst hname
      rw [List.dlookup_eq_none.2 (List.notMem_keys_of_nodupKeys_cons hnodup), List.dlookup_cons_eq]
      exact (FinMap.find?_insert_self _ _ _).trans hx.symm
    · rw [List.dlookup_cons_ne _ _ hname]
      cases es.dlookup name with
      | none => exact FinMap.find?_insert_ne _ _ hname
      | some j => rfl

theorem foldlM_shown_isSome :
    ∀ (es : List (Sigma fun _ : String => Item)) (acc : FinMap String (ℕ × Bool)),
      (∀ e ∈ es, (shownItem e.2).isSome) →
      (es.foldlM (fun (items : FinMap String (ℕ × Bool)) (e : Sigma fun _ : String => Item) => do
        return items.insert e.1 (← shownItem e.2)) acc).isSome := by
  intro es
  induction es with
  | nil => exact fun acc _ => rfl
  | cons e es ih =>
    intro acc hes
    obtain ⟨he, hes⟩ := List.forall_mem_cons.1 hes
    obtain ⟨x, hx⟩ := Option.isSome_iff_exists.1 he
    rw [List.foldlM_cons, hx]
    exact ih _ hes

/-- **What `from_crdt` shows**: each item of the list, as long as no total overflows. -/
theorem fromCrdt_spec {l : ShoppingList} {s : ShoppingListInterface} (h : fromCrdt l = some s) :
    s.listId = l.id ∧ ∀ name, s.items.find? name = (l.list.items.find? name).bind shownItem := by
  obtain ⟨items, hitems, hs⟩ := Option.bind_eq_some_iff.1 h
  cases hs
  refine ⟨rfl, fun name => ?_⟩
  rw [(foldlM_shown _ _ _ l.list.items.nodupKeys hitems).2 name]
  change _ = (l.list.items.entries.dlookup name).bind shownItem
  cases l.list.items.entries.dlookup name <;> rfl

theorem fromCrdt_isSome_iff (l : ShoppingList) : (fromCrdt l).isSome ↔
    ∀ name item, l.list.items.find? name = some item → (shownItem item).isSome := by
  constructor
  · intro h name item hitem
    obtain ⟨s, hs⟩ := Option.isSome_iff_exists.1 h
    obtain ⟨items, hitems, -⟩ := Option.bind_eq_some_iff.1 hs
    exact (foldlM_shown _ _ _ l.list.items.nodupKeys hitems).1 ⟨name, item⟩
      ((FinMap.mem_entries _ _ _).2 hitem)
  · intro h
    have hloop := foldlM_shown_isSome l.list.items.entries ∅ fun e he =>
      h e.1 e.2 ((FinMap.mem_entries _ _ _).1 he)
    obtain ⟨items, hitems⟩ := Option.isSome_iff_exists.1 hloop
    exact Option.isSome_iff_exists.2 ⟨⟨l.id, items⟩, Option.bind_eq_some_iff.2 ⟨items, hitems, rfl⟩⟩

/-- What is shown of an item depends on what it holds. -/
theorem shownItem_congr {i j : Item} (h : i.view = j.view) : shownItem i = shownItem j := by
  have hp : i.amount.p.count = j.amount.p.count := congrArg Item.View.p h
  have hn : i.amount.n.count = j.amount.n.count := congrArg Item.View.n h
  have hacquired : i.acquired = j.acquired := congrArg Item.View.acquired h
  unfold shownItem PNCounter.valueTotal GCounter.valueTotal
  rw [GCounter.total_of_count hp, GCounter.total_of_count hn, hacquired]

/-- What is shown under a name depends on what the list holds. -/
theorem shownItem_of_view_eq {l m : AWORMap} (hview : l.view = m.view) (name : String) :
    (l.items.find? name).bind shownItem = (m.items.find? name).bind shownItem := by
  have hname := congrFun hview name
  unfold AWORMap.view at hname
  cases hl : l.items.find? name with
  | none =>
    cases hm : m.items.find? name with
    | none => rfl
    | some j =>
      rw [hl, hm] at hname
      exact nomatch hname
  | some i =>
    cases hm : m.items.find? name with
    | none =>
      rw [hl, hm] at hname
      exact nomatch hname
    | some j =>
      rw [hl, hm] at hname
      exact shownItem_congr (Option.some.inj hname)

/-- Lists that hold the same show the same. -/
theorem fromCrdt_congr {l m : ShoppingList} (hid : l.id = m.id) (hview : l.list.view = m.list.view)
    {s : ShoppingListInterface} (hs : fromCrdt l = some s) :
    ∃ s', fromCrdt m = some s' ∧ s.Same s' := by
  have hitem := shownItem_of_view_eq hview
  have hm : (fromCrdt m).isSome := by
    rw [fromCrdt_isSome_iff]
    intro name j hj
    have hname := congrFun hview name
    unfold AWORMap.view at hname
    rw [hj] at hname
    obtain ⟨i, hi, hij⟩ := Option.map_eq_some_iff.1 hname
    rw [← shownItem_congr hij]
    exact (fromCrdt_isSome_iff l).1 (by rw [hs]; rfl) name i hi
  obtain ⟨s', hs'⟩ := Option.isSome_iff_exists.1 hm
  obtain ⟨hsid, hsitems⟩ := fromCrdt_spec hs
  obtain ⟨hsid', hsitems'⟩ := fromCrdt_spec hs'
  exact ⟨s', hs', by rw [hsid, hsid', hid], fun name => by rw [hsitems, hsitems', hitem]⟩

/-! ## Local-first operations -/

/-- Merging the own state in twice changes nothing. -/
theorem view_writtenList (l r : ShoppingList) :
    (writtenList l r).list.view = (mergedWith l (some r)).list.view := by
  funext name
  change (l.list.merge (l.list.merge r.list)).view name = (l.list.merge r.list).view name
  rw [AWORMap.view_merge, AWORMap.view_merge]
  have hreg : ∀ a b : LWWReg Uuid, a.merge (a.merge b) = a.merge b := by
    intro a b
    simp only [LWWReg.merge_eq]
    by_cases hab : a.stamp < b.stamp
    · rw [if_pos hab, if_pos hab]
    · rw [if_neg hab, if_neg (lt_irrefl _)]
  cases l.list.view name with
  | none => cases r.list.view name <;> rfl
  | some v =>
    cases r.list.view name with
    | none =>
      refine congrArg some ?_
      unfold Item.View.merge
      rw [sup_idem, sup_idem, LWWReg.merge_eq, if_neg (lt_irrefl _)]
    | some w =>
      refine congrArg some ?_
      unfold Item.View.merge
      dsimp only
      rw [← sup_assoc, sup_idem, ← sup_assoc, sup_idem, hreg]

namespace Client

/-- `retrieve_list` shows the local state, merged with the reply if it is an `AckList`, and what it
shows can be read from the store afterwards. -/
structure ViewsLocally (clientId : Uuid) (e : Exchange) (id : Uuid) (l : ShoppingList)
    (c : Conn ClientDb StorageError) : Prop where
  shows : ∃ s c' s', retrieveList clientId e id c = (.ok s, c') ∧
    fromCrdt (mergedWith l e.ackList) = some s' ∧ s.Same s'
  stored : ∀ s c', retrieveList clientId e id c = (.ok s, c') →
    ∃ l' s', (readShoppingList clientId id).Returns c'.db l' c'.db ∧ fromCrdt l' = some s' ∧
      s'.Same s

/-- The write of the merged list returns. -/
def Writes (l r : ShoppingList) (c : Conn ClientDb StorageError) : Prop :=
  ((writeShoppingList (writtenList l r)).run c).1 = .ok ()

/-- The list shows the same as before the merge. -/
def ShowsNothingNew (l r : ShoppingList) : Prop :=
  ∃ s s', fromCrdt l = some s ∧ fromCrdt (mergedWith l (some r)) = some s' ∧ s.Same s'

theorem orPanic_eq_ok {α : Type} {x : Option α} {a : α} : orPanic x = .ok a ↔ x = some a := by
  cases x <;> simp [orPanic]

/-- A list that can be read can be read after a write. -/
theorem readable_of_write {clientId id : Uuid} {l m : ShoppingList} {db db' : ClientDb}
    (hread : (readShoppingList clientId id).Returns db l db)
    (hcontent : db'.content = db.content.write m) : db'.Readable id := by
  intro name s hs
  have hreadable := readable_of_returns hread name
  rw [hcontent] at hs
  unfold Content.write at hs
  split at hs
  · split at hs
    · exact hreadable s hs
    · cases hs
      exact Stored.nonneg_update hreadable
  · exact hreadable s hs

/-- A write that returns stores the list. -/
theorem stored_of_writes {clientId id : Uuid} {l r : ShoppingList} {c : Conn ClientDb StorageError}
    (hdistinct : c.db.SlotsDistinct) (hread : (readShoppingList clientId id).Returns c.db l c.db)
    (hw : Writes l r c) :
    ∃ l', (readShoppingList clientId id).Returns
        ((writeShoppingList (writtenList l r)).run c).2.db l'
        ((writeShoppingList (writtenList l r)).run c).2.db ∧
      l'.id = l.id ∧ l'.list.view = (writtenList l r).list.view := by
  have hwrite := returns_of_run (Prod.ext hw rfl : (writeShoppingList (writtenList l r)).run c = (_, _))
  obtain ⟨-, -, hcontent⟩ := writeShoppingList_spec hdistinct hwrite
  obtain ⟨l', hread'⟩ := readShoppingList_returns clientId
    (readable_of_write hread hcontent)
  have hid := (readShoppingList_spec hread).2.1
  refine ⟨l', hread', by rw [(readShoppingList_spec hread').2.1, hid], ?_⟩
  rw [view_of_read hread']
  exact itemMap_of_le (m := writtenList l r) hdistinct hread hid (AWORMap.le_merge_left _ _) hwrite

/-- A write that does not return leaves the list as it is. -/
theorem kept_of_not_writes {l r : ShoppingList} {c : Conn ClientDb StorageError}
    (hw : ¬ Writes l r c) : ((writeShoppingList (writtenList l r)).run c).2.db = c.db :=
  atomic_transaction _ c _ _ (Prod.ext rfl rfl) fun _ h => hw h

/-- A view that shows the merge with an `AckList`. -/
theorem viewsLocally_iff_of_ackList {clientId id : Uuid} {e : Exchange}
    {c : Conn ClientDb StorageError} {l r : ShoppingList} (hdistinct : c.db.SlotsDistinct)
    (hread : (readShoppingList clientId id).Returns c.db l c.db) (hack : e.ackList = some r)
    (heq : retrieveList clientId e id c =
      (orPanic (fromCrdt (writtenList l r)), ((writeShoppingList (writtenList l r)).run c).2)) :
    ViewsLocally clientId e id l c ↔
      (fromCrdt (mergedWith l (some r))).isSome = true ∧ (Writes l r c ∨ ShowsNothingNew l r) := by
  constructor
  · rintro ⟨⟨s, c', s', hs, hs', hsame⟩, hstored⟩
    rw [hack] at hs'
    refine ⟨by rw [hs']; rfl, ?_⟩
    by_cases hw : Writes l r c
    · exact Or.inl hw
    · obtain ⟨l', t, hread', ht, htsame⟩ := hstored s c' hs
      rw [heq] at hs
      obtain ⟨-, rfl⟩ := Prod.mk.inj hs
      rw [kept_of_not_writes hw] at hread'
      obtain ⟨rfl, -⟩ := hread.unique hread'
      exact Or.inr ⟨t, s', ht, hs', htsame.trans hsame⟩
  · rintro ⟨hsome, hcond⟩
    obtain ⟨s', hs'⟩ := Option.isSome_iff_exists.1 hsome
    obtain ⟨s, hs, hsame⟩ := fromCrdt_congr (l := mergedWith l (some r)) (m := writtenList l r) rfl
      (view_writtenList l r).symm hs'
    rw [hs] at heq
    refine ⟨⟨s, _, s', heq, by rw [hack]; exact hs', hsame.symm⟩, fun t c' ht => ?_⟩
    rw [heq] at ht
    obtain ⟨ht, rfl⟩ := Prod.mk.inj ht
    cases ht
    by_cases hw : Writes l r c
    · obtain ⟨l', hread', hid, hview⟩ := stored_of_writes hdistinct hread hw
      obtain ⟨u, hu, husame⟩ := fromCrdt_congr (l := writtenList l r) (m := l') hid.symm hview.symm hs
      exact ⟨l', u, hread', hu, husame.symm⟩
    · obtain ⟨u, u', hu, hu', husame⟩ := hcond.resolve_left hw
      rw [hs'] at hu'
      cases hu'
      rw [kept_of_not_writes hw]
      exact ⟨l, u, hread, hu, husame.trans hsame⟩

/-- **Exactly when a view is local-first.** -/
theorem viewsLocally_iff {clientId id : Uuid} {e : Exchange} {c : Conn ClientDb StorageError}
    {l : ShoppingList} (hdistinct : c.db.SlotsDistinct) (hreads : c.reads = [])
    (hread : (readShoppingList clientId id).Returns c.db l c.db) :
    ViewsLocally clientId e id l c ↔
      e.softOnFetch = true ∧ (fromCrdt (mergedWith l e.ackList)).isSome = true ∧
        ∀ r, e.ackList = some r → Writes l r c ∨ ShowsNothingNew l r := by
  have hrun := (readOnly_readShoppingList clientId id).run_of_returns hreads hread
  rcases retrieveList_of_read e hrun with ⟨hsoft, heq⟩ | ⟨hhard, err, heq⟩
  · cases hack : e.ackList with
    | none =>
      rw [hack] at heq
      constructor
      · rintro ⟨⟨s, c', s', hs, hs', -⟩, -⟩
        rw [hack] at hs'
        exact ⟨hsoft, by rw [hs']; rfl, fun r hr => nomatch hr⟩
      · rintro ⟨-, hsome, -⟩
        obtain ⟨s, hs⟩ := Option.isSome_iff_exists.1 hsome
        have hs : fromCrdt l = some s := hs
        rw [hs] at heq
        refine ⟨⟨s, c, s, heq, by rw [hack]; exact hs, rfl, fun _ => rfl⟩, fun t c' ht => ?_⟩
        rw [heq] at ht
        obtain ⟨ht, rfl⟩ := Prod.mk.inj ht
        cases ht
        exact ⟨l, s, hread, hs, rfl, fun _ => rfl⟩
    | some r =>
      rw [hack] at heq
      refine (viewsLocally_iff_of_ackList hdistinct hread hack heq).trans ⟨fun h => ?_, fun h => ?_⟩
      · refine ⟨hsoft, h.1, fun r' hr' => ?_⟩
        cases hr'
        exact h.2
      · exact ⟨h.2.1, h.2.2 r rfl⟩
  · constructor
    · rintro ⟨⟨s, c', s', hs, -⟩, -⟩
      rw [heq] at hs
      exact nomatch (Prod.mk.inj hs).1
    · rintro ⟨hsoft, -⟩
      rw [hhard] at hsoft
      cases hsoft

/-- **Exactly when the operations of a client are local-first.** -/
theorem local_first_iff (clientId : Uuid) (e : Exchange) :
    (∀ id (c : Conn ClientDb StorageError) (l : ShoppingList),
      Reachable clientId (fun _ => True) c.db → c.reads = [] →
      (readShoppingList clientId id).Returns c.db l c.db →
      (ViewsLocally clientId e id l c ↔
        e.softOnFetch = true ∧ (fromCrdt (mergedWith l e.ackList)).isSome = true ∧
          ∀ r, e.ackList = some r → Writes l r c ∨ ShowsNothingNew l r)) ∧
    ∀ name quantity acquired id (c c₁ c₂ : Conn ClientDb StorageError) (l : ShoppingList),
      (handleItemStorageRequest clientId name quantity acquired id).run c = (.ok (), c₁) →
      (readShoppingList clientId id).run c₁ = (.ok l, c₂) →
      ((sendItemStorageRequest clientId e name quantity acquired id c).1 = .ok () ↔
        e.softOnSend = true) := by
  refine ⟨fun id c l hreach hreads hread => viewsLocally_iff hreach.slotsDistinct hreads hread,
    fun name quantity acquired id c c₁ c₂ l hedit hread => ?_⟩
  unfold sendItemStorageRequest
  rw [hedit]
  dsimp only
  rw [hread]
  rcases e.sendList_eq with ⟨hsoft, hsend⟩ | ⟨hhard, err, hsend⟩
  · rw [hsend]
    exact iff_of_true rfl hsoft
  · rw [hsend, hhard]
    simp [Outcome.ofExcept]

theorem milkStore_read : ∃ l, (readShoppingList ⟨201⟩ ⟨101⟩).Returns milkStore l milkStore :=
  readShoppingList_returns ⟨201⟩ (milkStore_reachable.bounded.readable ⟨101⟩)

theorem milkStore_any : Reachable ⟨201⟩ (fun _ => True) milkStore :=
  .edit (c := .calm .empty) .empty (fun _ _ _ => trivial) (Prod.ext rfl rfl)

/-- No answer in time, and then the proxy cannot be found any more. -/
def noProxy : Exchange := ⟨true, false, true, .eagain⟩

theorem local_first_iff_noProxy :
    ∃ l, (readShoppingList ⟨201⟩ ⟨101⟩).Returns milkStore l milkStore ∧
      ¬ ViewsLocally ⟨201⟩ noProxy ⟨101⟩ l (.calm milkStore) := by
  obtain ⟨l, hread⟩ := milkStore_read
  refine ⟨l, hread, fun h => ?_⟩
  have hsoft := (((local_first_iff ⟨201⟩ noProxy).1 ⟨101⟩ (.calm milkStore) l milkStore_any rfl
    hread).1 h).1
  cases hsoft

/-- A list that can be read is not shown when the reply is no message. -/
theorem undecodable_reply_hides_list :
    ∃ l, (readShoppingList ⟨201⟩ ⟨101⟩).Returns milkStore l milkStore ∧
      ¬ ViewsLocally ⟨201⟩ ⟨true, true, true, .undecodable⟩ ⟨101⟩ l (.calm milkStore) := by
  obtain ⟨l, hread⟩ := milkStore_read
  refine ⟨l, hread, fun h => ?_⟩
  have hsoft := ((viewsLocally_iff milkStore_any.slotsDistinct rfl hread).1 h).1
  cases hsoft

end Client

end Sdle
