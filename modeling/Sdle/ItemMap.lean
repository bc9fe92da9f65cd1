import Sdle.Refinement

/-!
# The client's store as a map of items

`ClientDb.itemMap` is the content of a store as the partial map from a list id and an item name to
the item, up to `GCounter::actor_id`.  `Reachable` are the stores that a sequence of edits and writes
of lists leads to, whatever statements fail.

* `store_refines_map` — **the tables refine the map**: no two slots share a gcounter id, reading a
  list gives the map at its id, and each writer sets its items in the map and nothing else.  Storing
  the merge of a list that was read with any other list, and reading it back, gives that merge.
-/

set_option autoImplicit false

namespace Sdle

open Sql Sql.Call ClientStorage ClientDb

/-! ## The map -/

/-- Items by list and name. -/
abbrev ItemMap := Uuid → String → Option Item.View

/-- The register of the item, each count that it names, and the counts stored for other actors. -/
def Item.View.overlay (old : Option Item.View) (item : Item) : Item.View where
  p a :=
    match item.amount.p.counter.find? a with
    | some x => x
    | none => old.elim ⊥ (·.p a)
  n a :=
    match item.amount.n.counter.find? a with
    | some x => x
    | none => old.elim ⊥ (·.n a)
  acquired := item.acquired

namespace ItemMap

/-- Set one item. -/
def put (m : ItemMap) (id : Uuid) (name : String) (item : Item) : ItemMap := fun id' name' =>
  if id' = id ∧ name' = name then some (.overlay (m id name) item) else m id' name'

/-- Set the items of a list. -/
def write (m : ItemMap) (l : ShoppingList) : ItemMap := fun id name =>
  if id = l.id then
    match l.list.items.find? name with
    | none => m id name
    | some item => some (.overlay (m id name) item)
  else m id name

end ItemMap

/-- The counts of an item that names all the actors of the stored one replace the stored ones. -/
theorem Item.View.overlay_of_le {old : Option Item.View} {item : Item}
    (h : ∀ v, old = some v → v.p ≤ item.view.p ∧ v.n ≤ item.view.n) :
    Item.View.overlay old item = item.view := by
  have hbot : ∀ (f : Item.View → Uuid → WithBot ℕ) a (g : GCounter), g.counter.find? a = none →
      (∀ v, old = some v → f v a ≤ g.count a) → old.elim ⊥ (f · a) = g.count a := by
    intro f a g hnone hle
    have hcount : g.count a = ⊥ := hnone
    cases old with
    | none => exact hcount.symm
    | some v => exact (le_bot_iff.1 ((hle v rfl).trans_eq hcount)).trans hcount.symm
  unfold Item.View.overlay Item.view
  congr 1
  · funext a
    cases ha : item.amount.p.counter.find? a with
    | none => exact hbot Item.View.p a _ ha fun v hv => (h v hv).1 a
    | some x => exact ha.symm
  · funext a
    cases ha : item.amount.n.counter.find? a with
    | none => exact hbot Item.View.n a _ ha fun v hv => (h v hv).2 a
    | some x => exact ha.symm

theorem Stored.view_update (old : Option Stored) (item : Item) :
    (Stored.update (↑) old item).view = Item.View.overlay (old.map Stored.view) item := by
  have hoverlay : ∀ (counter : FinMap Uuid ℕ) (f : Stored → Uuid → Option ℤ) a,
      ((overlay (↑) counter (fun a => old.bind (f · a)) a).map Int.toNat : WithBot ℕ) =
        match counter.find? a with
        | some x => (x : WithBot ℕ)
        | none => (old.map fun s a => ((f s a).map Int.toNat : WithBot ℕ)).elim (⊥ : WithBot ℕ) (· a) := by
    intro counter f a
    unfold overlay
    cases counter.find? a with
    | none => cases old <;> rfl
    | some x => rfl
  unfold Stored.view Stored.update Item.View.overlay
  congr 1
  · funext a
    refine (hoverlay item.amount.p.counter Stored.p a).trans ?_
    cases old <;> rfl
  · funext a
    refine (hoverlay item.amount.n.counter Stored.n a).trans ?_
    cases old <;> rfl

namespace ClientDb

/-- The content of a store up to `GCounter::actor_id`. -/
def itemMap (db : ClientDb) : ItemMap := fun id name => (db.content (id, name)).map Stored.view

theorem itemMap_congr {db db' : ClientDb} (hitems : db'.items = db.items)
    (hvalues : db'.actorValues = db.actorValues) : db'.itemMap = db.itemMap := by
  unfold itemMap
  rw [content_congr hitems hvalues]

theorem itemMap_put {db db' : ClientDb} {id : Uuid} {name : String} {item : Item}
    (h : db'.content = db.content.put (↑) (id, name) item) :
    db'.itemMap = db.itemMap.put id name item := by
  funext id' name'
  unfold itemMap ItemMap.put
  rw [h, Content.put]
  split
  · rename_i heq
    rw [heq.1, heq.2, Function.update_self, Option.map_some, Stored.view_update]
  · rename_i hne
    rw [Function.update_of_ne fun heq => hne (Prod.mk.inj heq)]

theorem itemMap_write {db db' : ClientDb} {l : ShoppingList}
    (h : db'.content = db.content.write l) : db'.itemMap = db.itemMap.write l := by
  funext id name
  unfold itemMap ItemMap.write
  rw [h, Content.write]
  dsimp only
  split
  · cases l.list.items.find? name with
    | none => rfl
    | some item => exact congrArg some (Stored.view_update _ _)
  · rfl

end ClientDb

/-- Storing a list that is above what the map has for it makes the map have just that list. -/
theorem ItemMap.write_of_le {m : ItemMap} {l : ShoppingList}
    (h : ∀ name v, m l.id name = some v → ∃ w, l.list.view name = some w ∧ v.p ≤ w.p ∧ v.n ≤ w.n) :
    m.write l l.id = l.list.view := by
  funext name
  unfold ItemMap.write AWORMap.view
  rw [if_pos rfl]
  cases hitem : l.list.items.find? name with
  | none =>
    cases hm : m l.id name with
    | none => rfl
    | some v =>
      obtain ⟨w, hw, -⟩ := h name v hm
      rw [AWORMap.view, hitem] at hw
      cases hw
  | some item =>
    refine congrArg some (Item.View.overlay_of_le fun v hv => ?_)
    obtain ⟨w, hw, hp, hn⟩ := h name v hv
    rw [AWORMap.view, hitem] at hw
    cases hw
    exact ⟨hp, hn⟩

/-! ## Reachable stores -/

/-- The stores that client `clientId` gets to from an empty one by edits that store items with `P`
and by writes of lists, whatever statements fail. -/
inductive Reachable (clientId : Uuid) (P : Item → Prop) : ClientDb → Prop
  | empty : Reachable clientId P .empty
  | edit {name : String} {quantity : ℕ} {acquired : Bool} {id : Uuid}
      {c c' : Conn ClientDb StorageError} {r : Outcome StorageError Unit}
      (hreach : Reachable clientId P c.db)
      (hP : ∀ cast item, Edited clientId quantity acquired (c.db.content (id, name)) cast item → P item)
      (hrun : (handleItemStorageRequest clientId name quantity acquired id).run c = (r, c')) :
      Reachable clientId P c'.db
  | write {l : ShoppingList} {c c' : Conn ClientDb StorageError} {r : Outcome StorageError Unit}
      (hreach : Reachable clientId P c.db) (hrun : (writeShoppingList l).run c = (r, c')) :
      Reachable clientId P c'.db

namespace ClientDb

/-- An edit changes the content by one edited item, or not at all. -/
theorem handleItemStorageRequest_run {clientId id : Uuid} {name : String} {quantity : ℕ}
    {acquired : Bool} {c c' : Conn ClientDb StorageError} {r : Outcome StorageError Unit}
    (hdistinct : c.db.SlotsDistinct)
    (h : (handleItemStorageRequest clientId name quantity acquired id).run c = (r, c')) :
    c'.db.SlotsDistinct ∧
      ((r ≠ .ok () ∧ c'.db.content = c.db.content) ∨
        r = .ok () ∧ ∃ cast item,
          Edited clientId quantity acquired (c.db.content (id, name)) cast item ∧
          c'.db.content = c.db.content.put cast (id, name) item) := by
  by_cases hr : r = .ok ()
  · rw [hr] at h
    obtain ⟨hdistinct', hput⟩ := handleItemStorageRequest_spec hdistinct (returns_of_run h)
    exact ⟨hdistinct', Or.inr ⟨hr, hput⟩⟩
  · obtain ⟨hitems, hvalues⟩ := handleItemStorageRequest_fails h fun _ => hr
    exact ⟨slotsDistinct_congr hitems hdistinct, Or.inl ⟨hr, content_congr hitems hvalues⟩⟩

/-- A write of a list stores it as a whole, or changes nothing. -/
theorem writeShoppingList_run {l : ShoppingList} {c c' : Conn ClientDb StorageError}
    {r : Outcome StorageError Unit} (hdistinct : c.db.SlotsDistinct)
    (h : (writeShoppingList l).run c = (r, c')) :
    c'.db.SlotsDistinct ∧
      ((r ≠ .ok () ∧ c'.db = c.db) ∨
        r = .ok () ∧ l.Fits ∧ c'.db.content = c.db.content.write l) := by
  by_cases hr : r = .ok ()
  · rw [hr] at h
    obtain ⟨hfits, hdistinct', hwrite⟩ := writeShoppingList_spec hdistinct (returns_of_run h)
    exact ⟨hdistinct', Or.inr ⟨hr, hfits, hwrite⟩⟩
  · have hkeep := atomic_transaction _ _ _ _ h fun _ => hr
    exact ⟨by rwa [hkeep], Or.inl ⟨hr, hkeep⟩⟩

end ClientDb

/-- **No two slots ever share a gcounter id.** -/
theorem Reachable.slotsDistinct {clientId : Uuid} {P : Item → Prop} {db : ClientDb}
    (h : Reachable clientId P db) : db.SlotsDistinct := by
  induction h with
  | empty =>
    intro k row s k' row' s' hrow
    simp [ClientDb.empty] at hrow
  | edit _ _ hrun ih => exact (handleItemStorageRequest_run ih hrun).1
  | write _ hrun ih => exact (writeShoppingList_run ih hrun).1

/-- Every count is a `u64` that fits an `i64`. -/
def Stored.Bounded (s : Stored) : Prop :=
  ∀ a v, s.p a = some v ∨ s.n a = some v → 0 ≤ v ∧ v < 2 ^ 63

/-- Each count that is stored after a write of an item is one of the item, or was stored before. -/
theorem Stored.count_update {old : Option Stored} {item : Item} {a : Uuid} {v : ℤ}
    (h : (Stored.update (↑) old item).p a = some v ∨ (Stored.update (↑) old item).n a = some v) :
    (∃ x : ℕ, v = x ∧
        (item.amount.p.counter.find? a = some x ∨ item.amount.n.counter.find? a = some x)) ∨
      ∃ s, old = some s ∧ (s.p a = some v ∨ s.n a = some v) := by
  have hoverlay : ∀ (counter : FinMap Uuid ℕ) (f : Stored → Uuid → Option ℤ),
      overlay (↑) counter (fun a => old.bind (f · a)) a = some v →
        (∃ x : ℕ, v = x ∧ counter.find? a = some x) ∨ ∃ s, old = some s ∧ f s a = some v := by
    intro counter f hv
    unfold overlay at hv
    cases ha : counter.find? a with
    | none =>
      rw [ha] at hv
      exact Or.inr (Option.bind_eq_some_iff.1 hv)
    | some x =>
      rw [ha] at hv
      exact Or.inl ⟨x, (Option.some.inj hv).symm, rfl⟩
  rcases h with hp | hn
  · rcases hoverlay item.amount.p.counter Stored.p hp with ⟨x, hv, hx⟩ | ⟨s, hs, hv⟩
    · exact Or.inl ⟨x, hv, Or.inl hx⟩
    · exact Or.inr ⟨s, hs, Or.inl hv⟩
  · rcases hoverlay item.amount.n.counter Stored.n hn with ⟨x, hv, hx⟩ | ⟨s, hs, hv⟩
    · exact Or.inl ⟨x, hv, Or.inr hx⟩
    · exact Or.inr ⟨s, hs, Or.inr hv⟩

theorem Stored.bounded_update {old : Option Stored} {item : Item} (hfits : item.Fits)
    (hold : ∀ s, old = some s → s.Bounded) : (Stored.update (↑) old item).Bounded := by
  intro a v hv
  rcases Stored.count_update hv with ⟨x, rfl, hx⟩ | ⟨s, hs, hv⟩
  · have hlt := hfits a x hx
    omega
  · exact hold s hs a v hv

theorem Stored.nonneg_update {old : Option Stored} {item : Item}
    (hold : ∀ s, old = some s → s.Nonneg) : (Stored.update (↑) old item).Nonneg := by
  intro a v hv
  rcases Stored.count_update hv with ⟨x, rfl, -⟩ | ⟨s, hs, hv⟩
  · exact Int.natCast_nonneg x
  · exact hold s hs a v hv

/-- Where the counts fit, the cast of `overwrite_item` keeps them. -/
theorem overlay_asI64 {counter : FinMap Uuid ℕ} (h : ∀ a x, counter.find? a = some x → x < 2 ^ 63)
    (old : Uuid → Option ℤ) : overlay asI64 counter old = overlay (↑) counter old := by
  funext a
  unfold overlay
  cases ha : counter.find? a with
  | none => rfl
  | some x => rw [Option.map_some, Option.map_some, asI64_of_lt (h a x ha)]

theorem Content.put_asI64 (c : Content) (key : Uuid × String) {item : Item} (h : item.Fits) :
    c.put asI64 key item = c.put (↑) key item := by
  unfold Content.put Stored.update
  rw [overlay_asI64 fun a x hx => h a x (Or.inl hx), overlay_asI64 fun a x hx => h a x (Or.inr hx)]

/-- An edit of an item that fits puts the item as it is. -/
theorem Edited.put_eq {clientId : Uuid} {quantity : ℕ} {acquired : Bool} {old : Option Stored}
    {cast : ℕ → ℤ} {item : Item} (h : Edited clientId quantity acquired old cast item)
    (hfits : item.Fits) (c : Content) (key : Uuid × String) :
    c.put cast key item = c.put (↑) key item := by
  cases h with
  | created => rfl
  | changed => exact c.put_asI64 key hfits

/-- Every stored count is a `u64` that fits an `i64`. -/
def Content.Bounded (c : Content) : Prop := ∀ key s, c key = some s → s.Bounded

theorem Content.Bounded.put {c : Content} (h : c.Bounded) {key : Uuid × String} {item : Item}
    (hfits : item.Fits) : (c.put (↑) key item).Bounded := by
  intro k s hs
  unfold Content.put at hs
  by_cases hk : k = key
  · rw [hk, Function.update_self] at hs
    cases hs
    exact Stored.bounded_update hfits (h key)
  · rw [Function.update_of_ne hk] at hs
    exact h k s hs

theorem Content.Bounded.write {c : Content} (h : c.Bounded) {l : ShoppingList} (hfits : l.Fits) :
    (c.write l).Bounded := by
  intro k s hs
  unfold Content.write at hs
  split at hs
  · split at hs
    · exact h k s hs
    · rename_i item hitem
      cases hs
      exact Stored.bounded_update (hfits _ item hitem) (h k)
  · exact h k s hs

/-- With counts below `2^63`, every list can be read. -/
theorem Reachable.bounded {clientId : Uuid} {db : ClientDb} (h : Reachable clientId Item.Fits db) :
    db.content.Bounded := by
  induction h with
  | empty =>
    intro key s hs
    simp [ClientDb.content, ClientDb.empty] at hs
  | edit hreach hfits hrun ih =>
    rcases (handleItemStorageRequest_run hreach.slotsDistinct hrun).2 with
      ⟨-, hkeep⟩ | ⟨-, cast, item, hedited, hput⟩
    · rwa [hkeep]
    · rw [hput, hedited.put_eq (hfits cast item hedited)]
      exact ih.put (hfits cast item hedited)
  | write hreach hrun ih =>
    rcases (writeShoppingList_run hreach.slotsDistinct hrun).2 with ⟨-, hkeep⟩ | ⟨-, hfits, hwrite⟩
    · rwa [hkeep]
    · rw [hwrite]
      exact ih.write hfits

theorem Content.Bounded.readable {db : ClientDb} (h : db.content.Bounded) (id : Uuid) :
    db.Readable id := fun name s hs a v hv => (h (id, name) s hs a v hv).1

theorem Item.fits_iff (item : Item) : item.Fits ↔
    ∀ a, item.amount.p.count a < ((2 ^ 63 : ℕ) : WithBot ℕ) ∧
      item.amount.n.count a < ((2 ^ 63 : ℕ) : WithBot ℕ) := by
  have hcount : ∀ (g : GCounter) a, g.count a < ((2 ^ 63 : ℕ) : WithBot ℕ) ↔
      ∀ x, g.counter.find? a = some x → x < 2 ^ 63 := by
    intro g a
    unfold GCounter.count
    cases g.counter.find? a with
    | none => exact iff_of_true (WithBot.bot_lt_coe _) fun x hx => nomatch hx
    | some y =>
      refine WithBot.coe_lt_coe.trans ⟨fun h x hx => ?_, fun h => h y rfl⟩
      cases hx
      exact h
  unfold Item.Fits
  constructor
  · intro h a
    exact ⟨(hcount _ a).2 fun x hx => h a x (Or.inl hx), (hcount _ a).2 fun x hx => h a x (Or.inr hx)⟩
  · rintro h a x (hx | hx)
    · exact (hcount _ a).1 (h a).1 x hx
    · exact (hcount _ a).1 (h a).2 x hx

theorem Item.fits_new {quantity : ℕ} (h : quantity < 2 ^ 63) (acquired : Bool) (clientId : Uuid) :
    (Item.new quantity acquired clientId).Fits := by
  have hfind : ∀ a x y, FinMap.find? ((∅ : FinMap Uuid ℕ).insert clientId y) a = some x → x = y := by
    intro a x y hx
    rw [FinMap.find?_insert, FinMap.find?_empty] at hx
    split at hx
    · exact (Option.some.inj hx).symm
    · cases hx
  rintro a x (hx | hx)
  · rw [hfind a x quantity hx]
    exact h
  · rw [hfind a x 0 hx]
    decide

theorem Item.Fits.merge {i j : Item} (hi : i.Fits) (hj : j.Fits) : (i.merge j).Fits := by
  rw [Item.fits_iff] at hi hj ⊢
  intro a
  exact ⟨(GCounter.count_merge _ _ a).trans_lt (sup_lt_iff.2 ⟨(hi a).1, (hj a).1⟩),
    (GCounter.count_merge _ _ a).trans_lt (sup_lt_iff.2 ⟨(hi a).2, (hj a).2⟩)⟩

theorem ShoppingList.Fits.merge {l r : ShoppingList} (hl : l.Fits) (hr : r.Fits) :
    ShoppingList.Fits { l with list := l.list.merge r.list } := by
  intro name item hitem
  change (l.list.merge r.list).items.find? name = some item at hitem
  rw [AWORMap.merge, FinMap.find?_absorb] at hitem
  cases hj : r.list.items.find? name with
  | none =>
    rw [hj] at hitem
    exact hl name item hitem
  | some j =>
    rw [hj] at hitem
    cases hi : l.list.items.find? name with
    | none =>
      rw [hi] at hitem
      cases hitem
      exact hr name j hj
    | some i =>
      rw [hi] at hitem
      cases hitem
      exact (hl name i hi).merge (hr name j hj)

theorem ReadAs.fits {clientId : Uuid} {s : Stored} {item : Item} (h : ReadAs clientId s item)
    (hs : s.Bounded) : item.Fits := by
  have hlt : ∀ x : ℕ, (x : ℤ) < 2 ^ 63 → x < 2 ^ 63 := by
    intro x hx
    omega
  rintro a x (hx | hx)
  · refine hlt x (hs a x (Or.inl ?_)).2
    rw [h.p a, hx]
    rfl
  · refine hlt x (hs a x (Or.inr ?_)).2
    rw [h.n a, hx]
    rfl

/-- A list that is read from a store with counts below `2^63` has such counts. -/
theorem fits_of_read {clientId id : Uuid} {l : ShoppingList} {db db' : ClientDb}
    (hbounded : db.content.Bounded) (h : (readShoppingList clientId id).Returns db l db') :
    l.Fits := by
  intro name item hitem
  have hname := (readShoppingList_spec h).2.2 name
  cases hs : db.content (id, name) with
  | none =>
    rw [hs, hitem] at hname
    cases hname
  | some s =>
    rw [hs, hitem] at hname
    obtain ⟨i, hi, hread⟩ := hname
    cases hi
    exact hread.fits (hbounded _ s hs)

/-- What is read of a list is the map at its id. -/
theorem view_of_read {clientId id : Uuid} {l : ShoppingList} {db db' : ClientDb}
    (h : (readShoppingList clientId id).Returns db l db') : l.list.view = db.itemMap id :=
  funext fun name => readShoppingList_view h name

/-- Storing a list that is above the one in the store. -/
theorem itemMap_of_le {clientId id : Uuid} {l m : ShoppingList} {db db₁ db' : ClientDb}
    (hdistinct : db.SlotsDistinct) (hread : (readShoppingList clientId id).Returns db l db₁)
    (hid : m.id = id) (hle : l.list ≤ m.list) (h : (writeShoppingList m).Returns db () db') :
    db'.itemMap id = m.list.view := by
  obtain ⟨-, -, hwrite⟩ := writeShoppingList_spec hdistinct h
  rw [itemMap_write hwrite, ← hid]
  refine ItemMap.write_of_le fun name v hv => ?_
  rw [hid, ← view_of_read hread] at hv
  obtain ⟨w, hw, hp, hn, -⟩ := (AWORMap.le_iff_view _ _).1 hle name v hv
  exact ⟨w, hw, hp, hn⟩

/-- **The client's tables refine the map of items.** -/
theorem store_refines_map {clientId : Uuid} {db : ClientDb} (h : Reachable clientId Item.Fits db) :
    db.SlotsDistinct ∧
      (∀ id, ∃ l, (readShoppingList clientId id).Returns db l db ∧ l.id = id ∧
        l.list.view = db.itemMap id) ∧
      (∀ l : ShoppingList, l.Fits → ∃ db', (writeShoppingList l).Returns db () db' ∧
        db'.itemMap = db.itemMap.write l) ∧
      (∀ id name item, item.Fits → db.itemMap id name = none →
        ∃ db', (writeItem id item name).Returns db () db' ∧
          db'.itemMap = db.itemMap.put id name item) ∧
      (∀ id name row item, item.Fits → (readItem name id).Returns db (some row) db →
        ∃ db', (overwriteItem item row.itemId row.pId row.nId).Returns db () db' ∧
          db'.itemMap = db.itemMap.put id name item) ∧
      ∀ id (l r : ShoppingList), (readShoppingList clientId id).Returns db l db → r.Fits →
        ∃ db' l', (writeShoppingList { l with list := l.list.merge r.list }).Returns db () db' ∧
          (readShoppingList clientId id).Returns db' l' db' ∧ l'.id = id ∧
          l'.list.view = (l.list.merge r.list).view := by
  have hdistinct := h.slotsDistinct
  have hbounded := h.bounded
  refine ⟨hdistinct, fun id => ?read, fun l hfits => ?write, fun id name item hfits hnone => ?insert,
    fun id name row item hfits hrow => ?overwrite, fun id l r hread hfits => ?merge⟩
  case read =>
    obtain ⟨l, hl⟩ := readShoppingList_returns clientId (hbounded.readable id)
    exact ⟨l, hl, (readShoppingList_spec hl).2.1, view_of_read hl⟩
  case write =>
    obtain ⟨db', hwrite⟩ := writeShoppingList_returns db hfits
    exact ⟨db', hwrite, itemMap_write (writeShoppingList_spec hdistinct hwrite).2.2⟩
  case insert =>
    have hrow : db.items.find? (id, name) = none :=
      Option.map_eq_none_iff.1 (Option.map_eq_none_iff.1 hnone)
    obtain ⟨db', hwrite⟩ := writeItem_returns hfits hrow
    exact ⟨db', hwrite, itemMap_put (writeItem_spec hdistinct hwrite).2.2.2⟩
  case overwrite =>
    obtain ⟨hselect, -⟩ := returns_query.1 hrow
    obtain ⟨row', hrow', rfl⟩ := Option.map_eq_some_iff.1 (Except.ok.inj hselect)
    obtain ⟨db', hwrite⟩ := overwriteItem_returns item hrow'
    obtain ⟨-, hput⟩ := overwriteItem_spec hdistinct hrow' hwrite
    rw [Content.put_asI64 _ _ hfits] at hput
    exact ⟨db', hwrite, itemMap_put hput⟩
  case merge =>
    obtain ⟨-, hid, -⟩ := readShoppingList_spec hread
    have hmerged := (fits_of_read hbounded hread).merge hfits
    obtain ⟨db', hwrite⟩ := writeShoppingList_returns db hmerged
    obtain ⟨-, -, hcontent⟩ := writeShoppingList_spec hdistinct hwrite
    have hbounded' : db'.content.Bounded := by
      rw [hcontent]
      exact hbounded.write hmerged
    obtain ⟨l', hl'⟩ := readShoppingList_returns clientId (hbounded'.readable id)
    refine ⟨db', l', hwrite, hl', (readShoppingList_spec hl').2.1, ?_⟩
    rw [view_of_read hl']
    exact itemMap_of_le (m := ⟨l.id, l.list.merge r.list⟩) hdistinct hread hid
      (AWORMap.le_merge_left _ _) hwrite

/-- The store of client 201 after it has put two milks on list 101. -/
def milkStore : ClientDb :=
  ((handleItemStorageRequest ⟨201⟩ "milk" 2 false ⟨101⟩).run (.calm .empty)).2.db

theorem milkStore_reachable : Reachable ⟨201⟩ Item.Fits milkStore := by
  refine .edit (c := .calm .empty) .empty (fun cast item hedited => ?_) (Prod.ext rfl rfl)
  rw [show (Conn.calm ClientDb.empty : Conn ClientDb StorageError).db.content (⟨101⟩, "milk") = none
    from rfl] at hedited
  cases hedited
  exact Item.fits_new (by decide) _ _

/-- The store when it has put three breads on list 102 as well. -/
def twoListStore : ClientDb :=
  ((handleItemStorageRequest ⟨201⟩ "bread" 3 false ⟨102⟩).run (.calm milkStore)).2.db

theorem twoListStore_reachable : Reachable ⟨201⟩ Item.Fits twoListStore := by
  refine .edit (c := .calm milkStore) milkStore_reachable (fun cast item hedited => ?_) (Prod.ext rfl rfl)
  rw [show (Conn.calm milkStore : Conn ClientDb StorageError).db.content (⟨102⟩, "bread") = none
    from rfl] at hedited
  cases hedited
  exact Item.fits_new (by decide) _ _

/-- What another client has of list 101. -/
def otherMilk : ShoppingList := ⟨⟨101⟩, AWORMap.new.insert "milk" (Item.new 5 true ⟨202⟩)⟩

/-- The merge with the milks of the other client is stored and read back, beside another list. -/
theorem store_refines_map_twoLists :
    twoListStore.items.keys.length = 2 ∧ twoListStore.SlotsDistinct ∧
      ∃ l db' l', (readShoppingList ⟨201⟩ ⟨101⟩).Returns twoListStore l twoListStore ∧
        l.list.view = twoListStore.itemMap ⟨101⟩ ∧
        (writeShoppingList { l with list := l.list.merge otherMilk.list }).Returns twoListStore () db' ∧
        (readShoppingList ⟨201⟩ ⟨101⟩).Returns db' l' db' ∧
        l'.list.view = (l.list.merge otherMilk.list).view := by
  obtain ⟨hdistinct, hread, -, -, -, hmerge⟩ := store_refines_map twoListStore_reachable
  obtain ⟨l, hl, -, hview⟩ := hread ⟨101⟩
  have hfits : otherMilk.Fits := by
    intro name item hitem
    rw [show otherMilk.list.items.find? name = _ from FinMap.find?_insert _ _ _ _] at hitem
    split at hitem
    · cases hitem
      exact Item.fits_new (by decide) _ _
    · cases hitem
  obtain ⟨db', l', hwrite, hl', -, hmerged⟩ := hmerge ⟨101⟩ l otherMilk hl hfits
  exact ⟨by decide +kernel, hdistinct, l, db', l', hl, hview, hwrite, hl', hmerged⟩

end Sdle
