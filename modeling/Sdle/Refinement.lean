import Sdle.ClientStorage

/-!
# The client's tables refine a map of items (`storage.rs`)

`ClientDb.content` is what the four tables say, as one partial map from a list id and an item name
to the counts and the register of the item.  `Content.put` is what storing one item does to it and
`Content.write` what storing a list does.  The methods act on the tables as these act on the map,
as long as no two slots (the `p` or the `n` of an item) share a gcounter id; this is the invariant
`ClientDb.SlotsDistinct`, and every method keeps it.
-/

set_option autoImplicit false

namespace Sdle

open Sql Sql.Call ClientStorage

/-! ## The map that the tables stand for -/

/-- The counts and the register of one item, as they stand in the tables. -/
structure Stored where
  p : Uuid → Option ℤ
  n : Uuid → Option ℤ
  acquired : LWWReg Uuid

/-- The counts of a counter, over those stored before. -/
def overlay (cast : ℕ → ℤ) (counter : FinMap Uuid ℕ) (old : Uuid → Option ℤ) (a : Uuid) : Option ℤ :=
  ((counter.find? a).map cast).or (old a)

namespace Stored

/-- What is stored for an item after one more write of it. -/
def update (cast : ℕ → ℤ) (old : Option Stored) (item : Item) : Stored where
  p := overlay cast item.amount.p.counter fun a => old.bind (·.p a)
  n := overlay cast item.amount.n.counter fun a => old.bind (·.n a)
  acquired := item.acquired

/-- The item that is read. -/
def view (s : Stored) : Item.View where
  p a := (s.p a).map Int.toNat
  n a := (s.n a).map Int.toNat
  acquired := s.acquired

/-- No count is negative, so that the item can be read. -/
def Nonneg (s : Stored) : Prop := ∀ a v, s.p a = some v ∨ s.n a = some v → 0 ≤ v

end Stored

/-- The content of a store. -/
abbrev Content := Uuid × String → Option Stored

/-- Store one item. -/
def Content.put (c : Content) (cast : ℕ → ℤ) (key : Uuid × String) (item : Item) : Content :=
  Function.update c key (some (.update cast (c key) item))

/-- Store the items of a list. -/
def Content.write (c : Content) (l : ShoppingList) : Content := fun key =>
  if key.1 = l.id then
    match l.list.items.find? key.2 with
    | none => c key
    | some item => some (.update (↑) (c key) item)
  else c key

/-- `item` is what the reader `clientId` builds from the rows of an item. -/
structure ReadAs (clientId : Uuid) (s : Stored) (item : Item) : Prop where
  pActor : item.amount.p.actorId = clientId
  nActor : item.amount.n.actorId = clientId
  p : ∀ a, s.p a = (item.amount.p.counter.find? a).map (↑)
  n : ∀ a, s.n a = (item.amount.n.counter.find? a).map (↑)
  acquired : item.acquired = s.acquired

theorem ReadAs.nonneg {clientId : Uuid} {s : Stored} {item : Item} (h : ReadAs clientId s item) :
    s.Nonneg := by
  rintro a v (hv | hv)
  · rw [h.p a, Option.map_eq_some_iff] at hv
    obtain ⟨x, -, rfl⟩ := hv
    exact Int.natCast_nonneg x
  · rw [h.n a, Option.map_eq_some_iff] at hv
    obtain ⟨x, -, rfl⟩ := hv
    exact Int.natCast_nonneg x

theorem map_toNat_natCast (x : Option ℕ) : (x.map ((↑) : ℕ → ℤ)).map Int.toNat = x := by
  cases x <;> rfl

theorem ReadAs.view {clientId : Uuid} {s : Stored} {item : Item} (h : ReadAs clientId s item) :
    item.view = s.view := by
  unfold Item.view Stored.view
  rw [h.acquired]
  congr 1
  · funext a
    rw [h.p a, map_toNat_natCast]
    rfl
  · funext a
    rw [h.n a, map_toNat_natCast]
    rfl

/-- `item` is what an edit stores over what is stored, with this conversion of its counts. -/
inductive Edited (clientId : Uuid) (quantity : ℕ) (acquired : Bool) :
    Option Stored → (ℕ → ℤ) → Item → Prop
  | created : Edited clientId quantity acquired none (↑) (Item.new quantity acquired clientId)
  | changed {s : Stored} {item item' : Item} (hread : ReadAs clientId s item)
      (hedit : editItem clientId quantity acquired item = some item') :
      Edited clientId quantity acquired (some s) asI64 item'

/-- Every count of the item is an `i64`. -/
def Item.Fits (item : Item) : Prop :=
  ∀ a x, item.amount.p.counter.find? a = some x ∨ item.amount.n.counter.find? a = some x →
    x < 2 ^ 63

namespace ClientDb

/-- The counts under a gcounter id. -/
def counts (db : ClientDb) (g : ℕ) (a : Uuid) : Option ℤ := db.actorValues.find? (g, a)

/-- What the tables say. -/
def content (db : ClientDb) : Content := fun key =>
  (db.items.find? key).map fun row => ⟨db.counts row.pId, db.counts row.nId, row.acquired⟩

theorem content_eq_some {db : ClientDb} {key : Uuid × String} {row : ItemRow}
    (h : db.items.find? key = some row) :
    db.content key = some ⟨db.counts row.pId, db.counts row.nId, row.acquired⟩ := by
  rw [content, h]
  rfl

/-- A list can be read when none of its counts is negative. -/
def Readable (db : ClientDb) (id : Uuid) : Prop :=
  ∀ name s, db.content (id, name) = some s → s.Nonneg

end ClientDb

/-- The `p` or the `n` counter of an item. -/
inductive Slot where
  | p
  | n

/-- The gcounter id of a slot. -/
def ItemRow.slot (row : ItemRow) : Slot → ℕ
  | .p => row.pId
  | .n => row.nId

/-- No two slots share a gcounter id. -/
def ClientDb.SlotsDistinct (db : ClientDb) : Prop :=
  ∀ k row s k' row' s', db.items.find? k = some row → db.items.find? k' = some row' →
    row.slot s = row'.slot s' → k = k' ∧ s = s'

/-- The ids `pId` and `nId` can serve the item `key`: no other item uses them, and what is stored
under them is what is stored for the item. -/
structure ClientDb.Serves (db : ClientDb) (key : Uuid × String) (pId nId : ℕ) : Prop where
  ne : pId ≠ nId
  other : ∀ k row s, db.items.find? k = some row → k ≠ key → row.slot s ≠ pId ∧ row.slot s ≠ nId
  p : ∀ a, db.counts pId a = (db.content key).bind (·.p a)
  n : ∀ a, db.counts nId a = (db.content key).bind (·.n a)

namespace ClientDb

theorem SlotsDistinct.serves {db : ClientDb} (h : db.SlotsDistinct) {key : Uuid × String}
    {row : ItemRow} (hrow : db.items.find? key = some row) : db.Serves key row.pId row.nId := by
  refine ⟨fun heq => ?_, fun k row' s hrow' hk => ⟨fun heq => hk ?_, fun heq => hk ?_⟩, fun a => ?_,
    fun a => ?_⟩
  · exact nomatch (h key row .p key row .n hrow hrow heq).2
  · exact (h k row' s key row .p hrow' hrow heq).1
  · exact (h k row' s key row .n hrow' hrow heq).1
  · rw [content_eq_some hrow]
    rfl
  · rw [content_eq_some hrow]
    rfl

/-- Two new ids serve an item that is not stored yet. -/
theorem serves_fresh {db db' : ClientDb} {key : Uuid × String} (hnone : db.items.find? key = none)
    (hitems : db'.items = db.items) (hvalues : db'.actorValues = db.actorValues) :
    db'.Serves key (db.gcounter + 1) (db.gcounter + 2) := by
  have hcounts : ∀ g, db.gcounter < g → ∀ a, db'.counts g a = none := by
    intro g hg a
    rw [counts, hvalues]
    by_contra hne
    obtain ⟨v, hv⟩ := Option.ne_none_iff_exists'.1 hne
    have hle := (db.valuesForeign (g, a) v hv).2
    dsimp only at hle
    omega
  have hcontent : db'.content key = none := by
    rw [content, hitems, hnone]
    rfl
  refine ⟨by omega, fun k row s hrow _ => ?_, fun a => ?_, fun a => ?_⟩
  · rw [hitems] at hrow
    obtain ⟨hp, hn⟩ := db.itemsForeign k row hrow
    have hp := hp.2
    have hn := hn.2
    cases s <;> dsimp only [ItemRow.slot] <;> omega
  · rw [hcounts _ (by omega), hcontent]
    rfl
  · rw [hcounts _ (by omega), hcontent]
    rfl

/-- The row and the counts of one item are written, under ids that serve it. -/
structure Writes (cast : ℕ → ℤ) (key : Uuid × String) (item : Item) (pId nId : ℕ)
    (db db' : ClientDb) : Prop where
  row : ∃ row, db'.items.find? key = some row ∧ row.pId = pId ∧ row.nId = nId ∧
    row.acquired = item.acquired
  items : ∀ k, k ≠ key → db'.items.find? k = db.items.find? k
  p : ∀ a, db'.counts pId a = overlay cast item.amount.p.counter (db.counts pId) a
  n : ∀ a, db'.counts nId a = overlay cast item.amount.n.counter (db.counts nId) a
  counts : ∀ g a, g ≠ pId → g ≠ nId → db'.counts g a = db.counts g a

/-- **Writing the rows of one item puts the item into the content**, and nothing else. -/
theorem Writes.content {cast : ℕ → ℤ} {key : Uuid × String} {item : Item} {pId nId : ℕ}
    {db db' : ClientDb} (h : Writes cast key item pId nId db db') (hserves : db.Serves key pId nId) :
    db'.content = db.content.put cast key item := by
  funext k
  unfold Content.put
  by_cases hk : k = key
  · obtain ⟨row, hrow, hpId, hnId, hacquired⟩ := h.row
    rw [hk, Function.update_self, content_eq_some hrow, hpId, hnId, hacquired]
    have hp : db'.counts pId = (Stored.update cast (db.content key) item).p := by
      funext a
      rw [h.p a, overlay, hserves.p a]
      rfl
    have hn : db'.counts nId = (Stored.update cast (db.content key) item).n := by
      funext a
      rw [h.n a, overlay, hserves.n a]
      rfl
    rw [hp, hn]
    rfl
  · rw [Function.update_of_ne hk, ClientDb.content, ClientDb.content, h.items k hk]
    cases hrow : db.items.find? k with
    | none => rfl
    | some row =>
      have hother : ∀ s, db'.counts (row.slot s) = db.counts (row.slot s) := by
        intro s
        obtain ⟨hp, hn⟩ := hserves.other k row s hrow hk
        exact funext fun a => h.counts _ a hp hn
      have hp : db'.counts row.pId = db.counts row.pId := hother .p
      have hn : db'.counts row.nId = db.counts row.nId := hother .n
      rw [Option.map_some, Option.map_some, hp, hn]

theorem Writes.slotsDistinct {cast : ℕ → ℤ} {key : Uuid × String} {item : Item} {pId nId : ℕ}
    {db db' : ClientDb} (h : Writes cast key item pId nId db db') (hserves : db.Serves key pId nId)
    (hdistinct : db.SlotsDistinct) : db'.SlotsDistinct := by
  obtain ⟨own, hown, hpId, hnId, -⟩ := h.row
  have hslot : ∀ s, own.slot s = pId ∨ own.slot s = nId := by
    intro s
    cases s
    · exact Or.inl hpId
    · exact Or.inr hnId
  have hother : ∀ k row s s', db.items.find? k = some row → k ≠ key → row.slot s ≠ own.slot s' := by
    intro k row s s' hrow hk
    obtain ⟨hp, hn⟩ := hserves.other k row s hrow hk
    rcases hslot s' with heq | heq <;> rw [heq]
    · exact hp
    · exact hn
  intro k row s k' row' s' hrow hrow' heq
  by_cases hk : k = key <;> by_cases hk' : k' = key
  · subst hk hk'
    rw [hown] at hrow hrow'
    cases hrow
    cases hrow'
    refine ⟨rfl, ?_⟩
    cases s <;> cases s'
    · rfl
    · exact absurd (hpId.symm.trans (heq.trans hnId)) hserves.ne
    · exact absurd (hpId.symm.trans (heq.symm.trans hnId)) hserves.ne
    · rfl
  · subst hk
    rw [hown] at hrow
    cases hrow
    rw [h.items k' hk'] at hrow'
    exact absurd heq.symm (hother k' row' s' s hrow' hk')
  · subst hk'
    rw [hown] at hrow'
    cases hrow'
    rw [h.items k hk] at hrow
    exact absurd heq (hother k row s s' hrow hk)
  · rw [h.items k hk] at hrow
    rw [h.items k' hk'] at hrow'
    exact hdistinct k row s k' row' s' hrow hrow' heq

/-! ## The loops over the counts -/

/-- The entries `es` are stored under the gcounter id `g`, and nothing else changes. -/
structure SetsCounts (cast : ℕ → ℤ) (g : ℕ) (es : List (Sigma fun _ : Uuid => ℕ))
    (db db' : ClientDb) : Prop where
  items : db'.items = db.items
  gcounter : db'.gcounter = db.gcounter
  counts : ∀ g' a, db'.counts g' a =
    if g' = g then ((es.dlookup a).map cast).or (db.counts g a) else db.counts g' a

theorem setsCounts_nil (cast : ℕ → ℤ) (g : ℕ) (db : ClientDb) : SetsCounts cast g [] db db := by
  refine ⟨rfl, rfl, fun g' a => ?_⟩
  split
  · rename_i hg
    rw [hg]
    rfl
  · rfl

theorem SetsCounts.cons {cast : ℕ → ℤ} {g : ℕ} {e : Sigma fun _ : Uuid => ℕ}
    {es : List (Sigma fun _ : Uuid => ℕ)} {db db₁ db₂ : ClientDb} (he : e.1 ∉ es.keys)
    (h₁ : SetsCounts cast g [e] db db₁) (h₂ : SetsCounts cast g es db₁ db₂) :
    SetsCounts cast g (e :: es) db db₂ := by
  refine ⟨h₂.items.trans h₁.items, h₂.gcounter.trans h₁.gcounter, fun g' a => ?_⟩
  rw [h₂.counts g' a, h₁.counts g' a, h₁.counts g a, if_pos rfl]
  split
  · obtain ⟨k, x⟩ := e
    by_cases ha : a = k
    · subst ha
      rw [List.dlookup_eq_none.2 he, List.dlookup_cons_eq, List.dlookup_cons_eq]
      rfl
    · rw [List.dlookup_cons_ne _ _ ha, List.dlookup_cons_ne _ _ ha]
      rfl
  · rfl

/-- A loop that stores one entry in each round stores them all. -/
theorem setsCounts_of_forM {cast : ℕ → ℤ} {g : ℕ} (good : ℕ → Prop)
    {f : (Sigma fun _ : Uuid => ℕ) → Call ClientDb StorageError Unit}
    (hf : ∀ e db db', (f e).Returns db () db' → SetsCounts cast g [e] db db' ∧ good e.2) :
    ∀ es db db', es.NodupKeys → (forM es f).Returns db () db' →
      SetsCounts cast g es db db' ∧ ∀ e ∈ es, good e.2 := by
  intro es
  induction es with
  | nil =>
    intro db db' _ h
    rw [returns_forM_nil.1 h]
    exact ⟨setsCounts_nil cast g db, fun e he => nomatch he⟩
  | cons e es ih =>
    intro db db'' hnodup h
    obtain ⟨db', he, hes⟩ := returns_forM_cons.1 h
    obtain ⟨hset, hgood⟩ := hf e db db' he
    obtain ⟨hsets, hgoods⟩ := ih db' db'' (List.nodupKeys_of_nodupKeys_cons hnodup) hes
    exact ⟨.cons (List.notMem_keys_of_nodupKeys_cons hnodup) hset hsets,
      List.forall_mem_cons.2 ⟨hgood, hgoods⟩⟩

theorem upsertActorValue_ok {g : ℕ} {a : Uuid} {v : ℤ} {db : ClientDb}
    (hg : IsGcounter db.gcounter g) :
    ∃ db', db.upsertActorValue g a v = .ok ((), db') ∧ db'.items = db.items ∧
      db'.gcounter = db.gcounter ∧ db'.actorValues = db.actorValues.insert (g, a) v := by
  unfold upsertActorValue
  rw [dif_pos hg]
  exact ⟨_, rfl, rfl, rfl, rfl⟩

theorem setsCounts_of_upsert {cast : ℕ → ℤ} {g : ℕ} {e : Sigma fun _ : Uuid => ℕ}
    {db db' : ClientDb} (h : db.upsertActorValue g e.1 (cast e.2) = .ok ((), db')) :
    SetsCounts cast g [e] db db' := by
  have hg : IsGcounter db.gcounter g := by
    by_contra hg
    rw [upsertActorValue, dif_neg hg] at h
    cases h
  obtain ⟨db₁, h₁, hitems, hgcounter, hvalues⟩ := upsertActorValue_ok (a := e.1) (v := cast e.2) hg
  rw [h₁] at h
  cases h
  refine ⟨hitems, hgcounter, fun g' a => ?_⟩
  unfold counts
  rw [hvalues, FinMap.find?_insert]
  obtain ⟨k, x⟩ := e
  by_cases hg' : g' = g
  · rw [hg', if_pos rfl]
    by_cases ha : a = k
    · rw [ha, if_pos rfl, List.dlookup_cons_eq]
      rfl
    · rw [if_neg (fun heq => ha (Prod.mk.inj heq).2), List.dlookup_cons_ne _ _ ha]
      rfl
  · rw [if_neg hg', if_neg (fun heq => hg' (Prod.mk.inj heq).1)]

/-- The loops of the writers, over a whole counter: with a cast, or with a checked conversion, and
then over what is stored or not. -/
theorem setsCounts_cast {g : ℕ} {counter : FinMap Uuid ℕ} {db db' : ClientDb}
    (h : (forM counter.entries fun e => stmt (upsertActorValue g e.1 (asI64 e.2))).Returns db () db') :
    SetsCounts asI64 g counter.entries db db' :=
  (setsCounts_of_forM (fun _ => True)
    (fun _ _ _ h => ⟨setsCounts_of_upsert (returns_stmt.1 h), trivial⟩) _ _ _ counter.nodupKeys h).1

theorem setsCounts_replace {g : ℕ} {counter : FinMap Uuid ℕ} {db db' : ClientDb}
    (h : (forM counter.entries fun e =>
      stmt fun db => do upsertActorValue g e.1 (← toSql e.2) db).Returns db () db') :
    SetsCounts (↑) g counter.entries db db' ∧ ∀ e ∈ counter.entries, e.2 < 2 ^ 63 := by
  refine setsCounts_of_forM (· < 2 ^ 63) (fun e db db' h => ?_) _ _ _ counter.nodupKeys h
  rw [returns_stmt] at h
  unfold toSql at h
  split at h
  · rename_i hlt
    exact ⟨setsCounts_of_upsert h, hlt⟩
  · cases h

theorem setsCounts_insert {g : ℕ} {counter : FinMap Uuid ℕ} {db db' : ClientDb}
    (h : (forM counter.entries fun e =>
      stmt fun db => do insertActorValue g e.1 (← toSql e.2) db).Returns db () db') :
    SetsCounts (↑) g counter.entries db db' ∧ ∀ e ∈ counter.entries, e.2 < 2 ^ 63 := by
  refine setsCounts_of_forM (· < 2 ^ 63) (fun e db db' h => ?_) _ _ _ counter.nodupKeys h
  rw [returns_stmt] at h
  unfold toSql at h
  split at h
  · rename_i hlt
    dsimp only [bind, Except.bind, insertActorValue] at h
    split at h
    · cases h
    · exact ⟨setsCounts_of_upsert h, hlt⟩
  · cases h

theorem fits_of_entries {item : Item} (hp : ∀ e ∈ item.amount.p.counter.entries, e.2 < 2 ^ 63)
    (hn : ∀ e ∈ item.amount.n.counter.entries, e.2 < 2 ^ 63) : item.Fits := by
  intro a x hx
  rcases hx with hx | hx
  · exact hp ⟨a, x⟩ ((FinMap.mem_entries _ _ _).2 hx)
  · exact hn ⟨a, x⟩ ((FinMap.mem_entries _ _ _).2 hx)

/-- The counts of both counters are stored, and the row of the item. -/
theorem Writes.of_steps {cast : ℕ → ℤ} {key : Uuid × String} {item : Item} {pId nId : ℕ}
    {db db₁ db₂ db₃ : ClientDb} (hne : pId ≠ nId)
    (h₁ : SetsCounts cast pId item.amount.p.counter.entries db db₁)
    (h₂ : SetsCounts cast nId item.amount.n.counter.entries db₁ db₂)
    (hvalues : db₃.actorValues = db₂.actorValues)
    (hrow : ∃ row, db₃.items.find? key = some row ∧ row.pId = pId ∧ row.nId = nId ∧
      row.acquired = item.acquired)
    (hitems : ∀ k, k ≠ key → db₃.items.find? k = db₂.items.find? k) :
    Writes cast key item pId nId db db₃ := by
  have hcounts : ∀ g a, db₃.counts g a = db₂.counts g a := by
    intro g a
    unfold ClientDb.counts
    rw [hvalues]
  refine ⟨hrow, fun k hk => ?_, fun a => ?_, fun a => ?_, fun g a hp hn => ?_⟩
  · rw [hitems k hk, h₂.items, h₁.items]
  · rw [hcounts, h₂.counts, if_neg hne, h₁.counts, if_pos rfl]
    rfl
  · rw [hcounts, h₂.counts, if_pos rfl, h₁.counts, if_neg hne.symm]
    rfl
  · rw [hcounts, h₂.counts, if_neg hn, h₁.counts, if_neg hp]

theorem upsertItem_ok (key : Uuid × String) (acquired : LWWReg Uuid) {pId nId : ℕ} {db : ClientDb}
    (hp : IsGcounter db.gcounter pId) (hn : IsGcounter db.gcounter nId) :
    ∃ db', db.upsertItem key acquired pId nId = .ok ((), db') ∧ db'.actorValues = db.actorValues ∧
      db'.items = db.items.insert key
        ⟨db.itemIdFor key, acquired.val, acquired.clock, acquired.actor, pId, nId⟩ := by
  unfold upsertItem
  rw [dif_pos ⟨hp, hn⟩]
  exact ⟨_, rfl, rfl, rfl⟩

theorem upsertItem_row {key : Uuid × String} {acquired : LWWReg Uuid} {pId nId : ℕ}
    {db db' : ClientDb} (h : db.upsertItem key acquired pId nId = .ok ((), db')) :
    db'.actorValues = db.actorValues ∧
      (∃ row, db'.items.find? key = some row ∧ row.pId = pId ∧ row.nId = nId ∧
        row.acquired = acquired) ∧
      ∀ k, k ≠ key → db'.items.find? k = db.items.find? k := by
  have hids : IsGcounter db.gcounter pId ∧ IsGcounter db.gcounter nId := by
    by_contra hids
    rw [upsertItem, dif_neg hids] at h
    cases h
  obtain ⟨db₁, h₁, hvalues, hitems⟩ := upsertItem_ok key acquired hids.1 hids.2
  rw [h₁] at h
  cases h
  refine ⟨hvalues, ⟨_, (congrArg (·.find? key) hitems).trans (FinMap.find?_insert_self _ _ _), rfl,
    rfl, rfl⟩, fun k hk => ?_⟩
  · rw [hitems, FinMap.find?_insert_ne _ _ hk]

/-! ## The writers -/

/-- What `overwrite_item` does to the rows. -/
theorem overwriteItem_items {item : Item} {itemId pId nId : ℕ} {db db' : ClientDb}
    (h : (overwriteItem item itemId pId nId).Returns db () db') (k : Uuid × String) :
    db'.items.find? k = (db.items.find? k).map (setAcquired itemId item.acquired) := by
  obtain ⟨⟨⟩, db₁, hset, h⟩ := returns_bind.1 (returns_transaction.1 h)
  obtain ⟨⟨⟩, db₂, hp, hn⟩ := returns_bind.1 h
  rw [returns_stmt] at hset
  cases hset
  rw [(setsCounts_cast hn).items, (setsCounts_cast hp).items]
  exact FinMap.find?_mapValues _ _ _

/-- **`overwrite_item` puts the item**, under the ids that `read_item` gave. -/
theorem overwriteItem_writes {key : Uuid × String} {row : ItemRow} {item : Item}
    {db db' : ClientDb} (hdistinct : db.SlotsDistinct) (hrow : db.items.find? key = some row)
    (h : (overwriteItem item row.itemId row.pId row.nId).Returns db () db') :
    Writes asI64 key item row.pId row.nId db db' := by
  have hitems := overwriteItem_items h
  obtain ⟨⟨⟩, db₁, hset, h⟩ := returns_bind.1 (returns_transaction.1 h)
  obtain ⟨⟨⟩, db₂, hp, hn⟩ := returns_bind.1 h
  rw [returns_stmt] at hset
  cases hset
  have hp := setsCounts_cast hp
  have hn := setsCounts_cast hn
  refine ⟨⟨_, (hitems key).trans (by rw [hrow]; rfl), ?_, ?_, ?_⟩, fun k hk => ?_, fun a => ?_,
    fun a => ?_, fun g a hgp hgn => ?_⟩
  · exact (setAcquired_columns _ _ row).2.1
  · exact (setAcquired_columns _ _ row).2.2
  · unfold setAcquired
    rw [if_pos rfl]
    rfl
  · rw [hitems]
    cases hk' : db.items.find? k with
    | none => rfl
    | some row' =>
      rw [Option.map_some, setAcquired, if_neg fun heq => hk (db.itemIdUnique k row' key row hk' hrow heq)]
  · rw [hn.counts, if_neg (hdistinct.serves hrow).ne, hp.counts, if_pos rfl]
    rfl
  · rw [hn.counts, if_pos rfl, hp.counts, if_neg (hdistinct.serves hrow).ne.symm]
    rfl
  · rw [hn.counts, if_neg hgn, hp.counts, if_neg hgp]
    rfl

/-- **`write_item` puts the item**, where there was none. -/
theorem writeItem_writes {id : Uuid} {name : String} {item : Item} {db db' : ClientDb}
    (h : (writeItem id item name).Returns db () db') :
    item.Fits ∧ db.items.find? (id, name) = none ∧
      ∃ db₁ : ClientDb, db₁.items = db.items ∧ db₁.actorValues = db.actorValues ∧
        Writes (↑) (id, name) item (db.gcounter + 1) (db.gcounter + 2) db₁ db' := by
  unfold writeItem at h
  obtain ⟨pId, db₁, hpId, h⟩ := returns_bind.1 (returns_transaction.1 h)
  obtain ⟨nId, db₂, hnId, h⟩ := returns_bind.1 h
  obtain ⟨⟨⟩, db₃, hp, h⟩ := returns_bind.1 h
  obtain ⟨⟨⟩, db₄, hn, hrow⟩ := returns_bind.1 h
  rw [returns_stmt] at hpId hnId hrow
  cases hpId
  cases hnId
  obtain ⟨hp, hpFits⟩ := setsCounts_insert hp
  obtain ⟨hn, hnFits⟩ := setsCounts_insert hn
  unfold insertItem at hrow
  split at hrow
  · cases hrow
  · rename_i hnone
    rw [hn.items, hp.items, Option.isSome_iff_ne_none, not_not] at hnone
    obtain ⟨hvalues, hrow, hitems⟩ := upsertItem_row hrow
    refine ⟨fits_of_entries hpFits hnFits, hnone, _, ?_, ?_, .of_steps (by omega) hp hn hvalues hrow hitems⟩ <;> rfl

/-- One item of `write_shopping_list`, stored before or not. -/
theorem writeEntry_writes {id : Uuid} {name : String} {item : Item} {db db' : ClientDb}
    (hdistinct : db.SlotsDistinct) (h : (writeEntry id name item).Returns db () db') :
    item.Fits ∧ ∃ (db₁ : ClientDb) (pId nId : ℕ), db₁.items = db.items ∧ db₁.actorValues = db.actorValues ∧
      db₁.Serves (id, name) pId nId ∧ Writes (↑) (id, name) item pId nId db₁ db' := by
  unfold writeEntry at h
  obtain ⟨row, db₀, hselect, h⟩ := returns_bind.1 h
  rw [returns_stmt] at hselect
  cases hselect
  obtain ⟨⟨pId, nId⟩, db₁, hids, h⟩ := returns_bind.1 h
  obtain ⟨⟨⟩, db₂, hp, h⟩ := returns_bind.1 h
  obtain ⟨⟨⟩, db₃, hn, hrow⟩ := returns_bind.1 h
  obtain ⟨hp, hpFits⟩ := setsCounts_replace hp
  obtain ⟨hn, hnFits⟩ := setsCounts_replace hn
  obtain ⟨hvalues, hrow, hitems⟩ := upsertItem_row (returns_stmt.1 hrow)
  suffices hserves : db₁.items = db.items ∧ db₁.actorValues = db.actorValues ∧
      db₁.Serves (id, name) pId nId by
    obtain ⟨hi, hv, hserves⟩ := hserves
    exact ⟨fits_of_entries hpFits hnFits, db₁, pId, nId, hi, hv, hserves, .of_steps hserves.ne hp hn hvalues hrow hitems⟩
  cases hfind : db.items.find? (id, name) with
  | none =>
    rw [hfind] at hids
    obtain ⟨p, db₁', hpId, hids⟩ := returns_bind.1 hids
    obtain ⟨n, db₂', hnId, hids⟩ := returns_bind.1 hids
    rw [returns_stmt] at hpId hnId
    cases hpId
    cases hnId
    obtain ⟨heq, rfl⟩ := returns_pure.1 hids
    cases heq
    exact ⟨rfl, rfl, serves_fresh hfind rfl rfl⟩
  | some row =>
    rw [hfind] at hids
    obtain ⟨heq, rfl⟩ := returns_pure.1 hids
    cases heq
    exact ⟨rfl, rfl, hdistinct.serves hfind⟩

/-! ## What the writers do to the content -/

theorem counts_congr {db db' : ClientDb} (h : db'.actorValues = db.actorValues) :
    db'.counts = db.counts := by
  funext g a
  rw [counts, counts, h]

theorem content_congr {db db' : ClientDb} (hitems : db'.items = db.items)
    (hvalues : db'.actorValues = db.actorValues) : db'.content = db.content := by
  funext key
  unfold content
  rw [hitems, counts_congr hvalues]

theorem slotsDistinct_congr {db db' : ClientDb} (hitems : db'.items = db.items)
    (h : db.SlotsDistinct) : db'.SlotsDistinct := by
  unfold SlotsDistinct
  rw [hitems]
  exact h

theorem overwriteItem_spec {key : Uuid × String} {row : ItemRow} {item : Item} {db db' : ClientDb}
    (hdistinct : db.SlotsDistinct) (hrow : db.items.find? key = some row)
    (h : (overwriteItem item row.itemId row.pId row.nId).Returns db () db') :
    db'.SlotsDistinct ∧ db'.content = db.content.put asI64 key item := by
  have hwrites := overwriteItem_writes hdistinct hrow h
  have hserves := hdistinct.serves hrow
  exact ⟨hwrites.slotsDistinct hserves hdistinct, hwrites.content hserves⟩

theorem writeItem_spec {id : Uuid} {name : String} {item : Item} {db db' : ClientDb}
    (hdistinct : db.SlotsDistinct) (h : (writeItem id item name).Returns db () db') :
    item.Fits ∧ db.content (id, name) = none ∧ db'.SlotsDistinct ∧
      db'.content = db.content.put (↑) (id, name) item := by
  obtain ⟨hfits, hnone, db₁, hitems, hvalues, hwrites⟩ := writeItem_writes h
  have hserves := serves_fresh hnone hitems hvalues
  refine ⟨hfits, by rw [content, hnone]; rfl,
    hwrites.slotsDistinct hserves (slotsDistinct_congr hitems hdistinct), ?_⟩
  rw [hwrites.content hserves, content_congr hitems hvalues]

theorem writeEntry_spec {id : Uuid} {name : String} {item : Item} {db db' : ClientDb}
    (hdistinct : db.SlotsDistinct) (h : (writeEntry id name item).Returns db () db') :
    item.Fits ∧ db'.SlotsDistinct ∧ db'.content = db.content.put (↑) (id, name) item := by
  obtain ⟨hfits, db₁, pId, nId, hitems, hvalues, hserves, hwrites⟩ := writeEntry_writes hdistinct h
  refine ⟨hfits, hwrites.slotsDistinct hserves (slotsDistinct_congr hitems hdistinct), ?_⟩
  rw [hwrites.content hserves, content_congr hitems hvalues]

/-- The loop of `write_shopping_list`. -/
theorem writeEntries_spec {id : Uuid} :
    ∀ (es : List (Sigma fun _ : String => Item)) (db db' : ClientDb), es.NodupKeys →
      db.SlotsDistinct → (forM es fun e => writeEntry id e.1 e.2).Returns db () db' →
      (∀ e ∈ es, e.2.Fits) ∧ db'.SlotsDistinct ∧ ∀ key, db'.content key =
        if key.1 = id then
          match es.dlookup key.2 with
          | none => db.content key
          | some item => some (.update (↑) (db.content key) item)
        else db.content key := by
  intro es
  induction es with
  | nil =>
    intro db db' _ hdistinct h
    rw [returns_forM_nil.1 h]
    refine ⟨fun e he => (List.not_mem_nil he).elim, hdistinct, fun key => ?_⟩
    split <;> rfl
  | cons e es ih =>
    intro db db'' hnodup hdistinct h
    obtain ⟨name, item⟩ := e
    obtain ⟨db', hitem, hes⟩ := returns_forM_cons.1 h
    obtain ⟨hfits, hdistinct', hput⟩ := writeEntry_spec hdistinct hitem
    obtain ⟨hfits', hdistinct'', hrest⟩ :=
      ih db' db'' (List.nodupKeys_of_nodupKeys_cons hnodup) hdistinct' hes
    refine ⟨List.forall_mem_cons.2 ⟨hfits, hfits'⟩, hdistinct'', fun key => ?_⟩
    rw [hrest key, hput]
    obtain ⟨id', name'⟩ := key
    dsimp only
    by_cases hid : id' = id
    · rw [if_pos hid, if_pos hid]
      by_cases hname : name' = name
      · subst hname hid
        rw [List.dlookup_eq_none.2 (List.notMem_keys_of_nodupKeys_cons hnodup), List.dlookup_cons_eq,
          Content.put, Function.update_self]
      · rw [List.dlookup_cons_ne _ _ hname, Content.put,
          Function.update_of_ne fun heq => hname (Prod.mk.inj heq).2]
    · rw [if_neg hid, if_neg hid, Content.put,
        Function.update_of_ne fun heq => hid (Prod.mk.inj heq).1]

/-- **`write_shopping_list` stores the items of the list**, and nothing else changes. -/
theorem writeShoppingList_spec {l : ShoppingList} {db db' : ClientDb} (hdistinct : db.SlotsDistinct)
    (h : (writeShoppingList l).Returns db () db') :
    (∀ name item, l.list.items.find? name = some item → item.Fits) ∧ db'.SlotsDistinct ∧
      db'.content = db.content.write l := by
  obtain ⟨hfits, hdistinct', hcontent⟩ :=
    writeEntries_spec _ db db' l.list.items.nodupKeys hdistinct (returns_transaction.1 h)
  exact ⟨fun name item hitem => hfits ⟨name, item⟩ ((FinMap.mem_entries _ _ _).2 hitem), hdistinct',
    funext hcontent⟩

/-! ## The readers -/

/-- The loop of `read_gcounter`. -/
theorem foldlM_fromSql :
    ∀ (es : List (Sigma fun _ : Uuid => ℤ)) (acc counter : FinMap Uuid ℕ), es.NodupKeys →
      es.foldlM (fun (counter : FinMap Uuid ℕ) e => do return counter.insert e.1 (← fromSql e.2)) acc =
        .ok counter →
      ∀ a, (counter.find? a).map (↑) = (es.dlookup a).or ((acc.find? a).map (↑)) := by
  intro es
  induction es with
  | nil =>
    intro acc counter _ h a
    cases h
    rfl
  | cons e es ih =>
    intro acc counter hnodup h a
    obtain ⟨k, v⟩ := e
    rw [List.foldlM_cons] at h
    unfold fromSql at h
    dsimp only at h
    split at h
    · rename_i hv
      have hrest := ih _ counter (List.nodupKeys_of_nodupKeys_cons hnodup) h a
      rw [hrest, FinMap.find?_insert]
      by_cases ha : a = k
      · subst ha
        rw [List.dlookup_eq_none.2 (List.notMem_keys_of_nodupKeys_cons hnodup), List.dlookup_cons_eq,
          if_pos rfl, Option.map_some, Int.toNat_of_nonneg hv]
        rfl
      · rw [List.dlookup_cons_ne _ _ ha, if_neg ha]
    · cases h

theorem foldlM_fromSql_returns :
    ∀ (es : List (Sigma fun _ : Uuid => ℤ)) (acc : FinMap Uuid ℕ), (∀ e ∈ es, 0 ≤ e.2) →
      ∃ counter, es.foldlM (fun (counter : FinMap Uuid ℕ) e => do
        return counter.insert e.1 (← fromSql e.2)) acc = .ok counter := by
  intro es
  induction es with
  | nil => exact fun acc _ => ⟨acc, rfl⟩
  | cons e es ih =>
    intro acc hes
    obtain ⟨hv, hes⟩ := List.forall_mem_cons.1 hes
    obtain ⟨counter, h⟩ := ih (acc.insert e.1 e.2.toNat) hes
    refine ⟨counter, ?_⟩
    rw [List.foldlM_cons, fromSql, if_pos hv]
    exact h

theorem readGcounter_spec {clientId : Uuid} {g : ℕ} {counter : GCounter} {db db' : ClientDb}
    (h : (readGcounter clientId g).Returns db counter db') :
    db' = db ∧ counter.actorId = clientId ∧
      ∀ a, db.counts g a = (counter.counter.find? a).map (↑) := by
  unfold readGcounter at h
  obtain ⟨entries, db₁, hquery, hret⟩ := returns_bind.1 h
  obtain ⟨hloop, rfl⟩ := returns_query.1 hquery
  obtain ⟨rfl, rfl⟩ := returns_pure.1 hret
  refine ⟨rfl, rfl, fun a => ?_⟩
  have hentries := foldlM_fromSql _ _ _ (db'.actorValues.slice g).nodupKeys hloop a
  rw [FinMap.find?_empty, Option.map_none, Option.or_none] at hentries
  rw [hentries]
  exact (FinMap.find?_slice _ _ _).symm

theorem readGcounter_returns (clientId : Uuid) {g : ℕ} {db : ClientDb}
    (h : ∀ a v, db.counts g a = some v → 0 ≤ v) :
    ∃ counter, (readGcounter clientId g).Returns db counter db := by
  obtain ⟨counter, hloop⟩ := foldlM_fromSql_returns (db.actorValues.slice g).entries ∅ (by
    rintro ⟨a, v⟩ he
    refine h a v ?_
    rw [FinMap.mem_entries, FinMap.find?_slice] at he
    exact he)
  exact ⟨⟨counter, clientId⟩,
    returns_bind.2 ⟨counter, db, returns_query.2 ⟨hloop, rfl⟩, returns_pure.2 ⟨rfl, rfl⟩⟩⟩

theorem buildItem_spec {clientId : Uuid} {row : ItemRow} {item : Item} {db db' : ClientDb}
    (h : (buildItem clientId row).Returns db item db') :
    db' = db ∧ ReadAs clientId ⟨db.counts row.pId, db.counts row.nId, row.acquired⟩ item := by
  unfold buildItem at h
  obtain ⟨p, db₁, hp, h⟩ := returns_bind.1 h
  obtain ⟨n, db₂, hn, hret⟩ := returns_bind.1 h
  obtain ⟨rfl, hpActor, hp⟩ := readGcounter_spec hp
  obtain ⟨rfl, hnActor, hn⟩ := readGcounter_spec hn
  obtain ⟨rfl, rfl⟩ := returns_pure.1 hret
  exact ⟨rfl, hpActor, hnActor, hp, hn, rfl⟩

theorem buildItem_returns (clientId : Uuid) {row : ItemRow} {db : ClientDb}
    (h : Stored.Nonneg ⟨db.counts row.pId, db.counts row.nId, row.acquired⟩) :
    ∃ item, (buildItem clientId row).Returns db item db := by
  obtain ⟨p, hp⟩ := readGcounter_returns clientId fun a v hv => h a v (Or.inl hv)
  obtain ⟨n, hn⟩ := readGcounter_returns clientId fun a v hv => h a v (Or.inr hv)
  exact ⟨_, returns_bind.2 ⟨p, db, hp, returns_bind.2 ⟨n, db, hn, returns_pure.2 ⟨rfl, rfl⟩⟩⟩⟩

/-- The loop of `read_shopping_list`. -/
theorem buildItems_spec {clientId : Uuid} :
    ∀ (es : List (Sigma fun _ : String => ItemRow)) (acc l : AWORMap) (db db' : ClientDb),
      es.NodupKeys → (∀ k ∈ es.keys, acc.items.find? k = none) →
      (es.foldlM (fun (awormap : AWORMap) (row : Sigma fun _ : String => ItemRow) => do
        return awormap.insert row.1 (← buildItem clientId row.2)) acc).Returns db l db' →
      db' = db ∧ ∀ name,
        match es.dlookup name with
        | none => l.items.find? name = acc.items.find? name
        | some row => ∃ item, l.items.find? name = some item ∧
            ReadAs clientId ⟨db.counts row.pId, db.counts row.nId, row.acquired⟩ item := by
  intro es
  induction es with
  | nil =>
    intro acc l db db' _ _ h
    obtain ⟨rfl, rfl⟩ := returns_pure.1 h
    exact ⟨rfl, fun name => rfl⟩
  | cons e es ih =>
    intro acc l db db'' hnodup hacc h
    obtain ⟨k, row⟩ := e
    rw [List.foldlM_cons] at h
    obtain ⟨acc', db₁, hround, hrest⟩ := returns_bind.1 h
    obtain ⟨item, db₂, hbuild, hret⟩ := returns_bind.1 hround
    obtain ⟨rfl, hread⟩ := buildItem_spec hbuild
    obtain ⟨rfl, rfl⟩ := returns_pure.1 hret
    have hk : acc.items.find? k = none := hacc k (by simp)
    have hinsert : ∀ name, (acc.insert k item).items.find? name =
        if name = k then some item else acc.items.find? name := by
      intro name
      unfold AWORMap.insert
      rw [hk]
      exact FinMap.find?_insert _ _ _ _
    have hnotMem := List.notMem_keys_of_nodupKeys_cons hnodup
    obtain ⟨rfl, hl⟩ := ih _ l db₁ db'' (List.nodupKeys_of_nodupKeys_cons hnodup)
      (fun k' hk' => by
        have hne : k' ≠ k := fun heq => hnotMem (heq ▸ hk' : k ∈ es.keys)
        rw [hinsert, if_neg hne]
        exact hacc k' (by simp [hk'])) hrest
    refine ⟨rfl, fun name => ?_⟩
    have hname := hl name
    rw [hinsert] at hname
    by_cases heq : name = k
    · subst heq
      rw [List.dlookup_eq_none.2 hnotMem, if_pos rfl] at hname
      rw [List.dlookup_cons_eq]
      exact ⟨item, hname, hread⟩
    · rw [if_neg heq] at hname
      rw [List.dlookup_cons_ne _ _ heq]
      exact hname

theorem buildItems_returns (clientId : Uuid) (db : ClientDb) :
    ∀ (es : List (Sigma fun _ : String => ItemRow)) (acc : AWORMap),
      (∀ e ∈ es, Stored.Nonneg ⟨db.counts e.2.pId, db.counts e.2.nId, e.2.acquired⟩) →
      ∃ l, (es.foldlM (fun (awormap : AWORMap) (row : Sigma fun _ : String => ItemRow) => do
        return awormap.insert row.1 (← buildItem clientId row.2)) acc).Returns db l db := by
  intro es
  induction es with
  | nil => exact fun acc _ => ⟨acc, returns_pure.2 ⟨rfl, rfl⟩⟩
  | cons e es ih =>
    intro acc hes
    obtain ⟨he, hes⟩ := List.forall_mem_cons.1 hes
    obtain ⟨item, hitem⟩ := buildItem_returns clientId he
    obtain ⟨l, hl⟩ := ih (acc.insert e.1 item) hes
    refine ⟨l, ?_⟩
    rw [List.foldlM_cons]
    exact returns_bind.2 ⟨_, db,
      returns_bind.2 ⟨item, db, hitem, returns_pure.2 ⟨rfl, rfl⟩⟩, hl⟩

/-- **`read_shopping_list` gives the content of the list.** -/
theorem readShoppingList_spec {clientId id : Uuid} {l : ShoppingList} {db db' : ClientDb}
    (h : (readShoppingList clientId id).Returns db l db') :
    db' = db ∧ l.id = id ∧ ∀ name,
      match db.content (id, name) with
      | none => l.list.items.find? name = none
      | some s => ∃ item, l.list.items.find? name = some item ∧ ReadAs clientId s item := by
  unfold readShoppingList at h
  obtain ⟨rows, db₁, hquery, h⟩ := returns_bind.1 h
  obtain ⟨heq, rfl⟩ := returns_query.1 hquery
  cases heq
  obtain ⟨awormap, db₂, hloop, hret⟩ := returns_bind.1 h
  obtain ⟨rfl, hitems⟩ := buildItems_spec _ _ _ _ _ (AList.nodupKeys _)
    (fun k _ => FinMap.find?_empty k) hloop
  obtain ⟨rfl, rfl⟩ := returns_pure.1 hret
  refine ⟨rfl, rfl, fun name => ?_⟩
  have hname := hitems name
  rw [show (db'.items.slice id).entries.dlookup name = db'.items.find? (id, name) from
    FinMap.find?_slice _ _ _] at hname
  unfold content
  cases hrow : db'.items.find? (id, name) with
  | none =>
    rw [hrow] at hname
    exact hname
  | some row =>
    rw [hrow] at hname
    exact hname

theorem readShoppingList_returns (clientId : Uuid) {id : Uuid} {db : ClientDb} (h : db.Readable id) :
    ∃ l, (readShoppingList clientId id).Returns db l db := by
  obtain ⟨l, hl⟩ := buildItems_returns clientId db
    (db.items.slice id).entries AWORMap.new (by
      rintro ⟨name, row⟩ he
      rw [FinMap.mem_entries, FinMap.find?_slice] at he
      exact h name _ (content_eq_some he))
  exact ⟨⟨id, l⟩, returns_bind.2 ⟨_, db, returns_query.2 ⟨rfl, rfl⟩,
    returns_bind.2 ⟨l, db, hl, returns_pure.2 ⟨rfl, rfl⟩⟩⟩⟩

theorem readShoppingList_view {clientId id : Uuid} {l : ShoppingList} {db db' : ClientDb}
    (h : (readShoppingList clientId id).Returns db l db') (name : String) :
    l.list.view name = (db.content (id, name)).map Stored.view := by
  have hname := (readShoppingList_spec h).2.2 name
  unfold AWORMap.view
  cases hs : db.content (id, name) with
  | none =>
    rw [hs] at hname
    rw [hname]
    rfl
  | some s =>
    rw [hs] at hname
    obtain ⟨item, hitem, hread⟩ := hname
    rw [hitem, Option.map_some, Option.map_some, hread.view]

theorem readable_of_returns {clientId id : Uuid} {l : ShoppingList} {db db' : ClientDb}
    (h : (readShoppingList clientId id).Returns db l db') : db.Readable id := by
  intro name s hs
  have hname := (readShoppingList_spec h).2.2 name
  rw [hs] at hname
  obtain ⟨item, -, hread⟩ := hname
  exact hread.nonneg

/-! ## The writers return -/

theorem forM_replace_returns {g : ℕ} {counter : FinMap Uuid ℕ} {db : ClientDb}
    (hg : IsGcounter db.gcounter g) (hfits : ∀ e ∈ counter.entries, e.2 < 2 ^ 63) :
    ∃ db', (forM counter.entries fun e =>
      stmt fun db => do upsertActorValue g e.1 (← toSql e.2) db).Returns db () db' := by
  obtain ⟨db', h, -⟩ := forM_returns
    (fun es db => IsGcounter db.gcounter g ∧ ∀ e ∈ es, e.2 < 2 ^ 63)
    (f := fun e => stmt fun db => do upsertActorValue g e.1 (← toSql e.2) db) (by
      rintro e es db ⟨hg, hes⟩
      obtain ⟨he, hes⟩ := List.forall_mem_cons.1 hes
      obtain ⟨db', hstep, -, hgcounter, -⟩ := upsertActorValue_ok (a := e.1) (v := e.2) hg
      refine ⟨db', returns_stmt.2 ?_, by rwa [hgcounter], hes⟩
      rw [toSql, if_pos he]
      exact hstep) counter.entries db ⟨hg, hfits⟩
  exact ⟨db', h⟩

theorem forM_cast_returns (counter : FinMap Uuid ℕ) {g : ℕ} {db : ClientDb}
    (hg : IsGcounter db.gcounter g) :
    ∃ db', (forM counter.entries fun e =>
      stmt (upsertActorValue g e.1 (asI64 e.2))).Returns db () db' := by
  obtain ⟨db', h, -⟩ := forM_returns (fun _ db => IsGcounter db.gcounter g)
    (f := fun e : Sigma fun _ : Uuid => ℕ => stmt (upsertActorValue g e.1 (asI64 e.2))) (by
      intro e es db hg
      obtain ⟨db', hstep, -, hgcounter, -⟩ := upsertActorValue_ok (a := e.1) (v := asI64 e.2) hg
      exact ⟨db', returns_stmt.2 hstep, by rwa [hgcounter]⟩) counter.entries db hg
  exact ⟨db', h⟩

theorem forM_insert_returns {g : ℕ} {counter : FinMap Uuid ℕ} {db : ClientDb}
    (hg : IsGcounter db.gcounter g) (hfits : ∀ e ∈ counter.entries, e.2 < 2 ^ 63)
    (hnone : ∀ a, db.counts g a = none) :
    ∃ db', (forM counter.entries fun e =>
      stmt fun db => do insertActorValue g e.1 (← toSql e.2) db).Returns db () db' := by
  obtain ⟨db', h, -⟩ := forM_returns
    (fun es db => IsGcounter db.gcounter g ∧ es.NodupKeys ∧ (∀ e ∈ es, e.2 < 2 ^ 63) ∧
      ∀ e ∈ es, db.counts g e.1 = none)
    (f := fun e => stmt fun db => do insertActorValue g e.1 (← toSql e.2) db) (by
      rintro e es db ⟨hg, hnodup, hes, hnone⟩
      obtain ⟨he, hes⟩ := List.forall_mem_cons.1 hes
      obtain ⟨hfree, hnone⟩ := List.forall_mem_cons.1 hnone
      obtain ⟨db', hstep, -, hgcounter, hvalues⟩ := upsertActorValue_ok (a := e.1) (v := e.2) hg
      refine ⟨db', returns_stmt.2 ?_, by rwa [hgcounter], List.nodupKeys_of_nodupKeys_cons hnodup, hes,
        fun e' he' => ?_⟩
      · rw [toSql, if_pos he]
        dsimp only [bind, Except.bind, insertActorValue]
        rw [show db.actorValues.find? (g, e.1) = none from hfree]
        exact hstep
      · have hne : e'.1 ≠ e.1 := fun heq => List.notMem_keys_of_nodupKeys_cons hnodup
          (heq ▸ List.mem_keys_of_mem he')
        rw [counts, hvalues, FinMap.find?_insert_ne _ _ fun heq => hne (Prod.mk.inj heq).2]
        exact hnone e' he') counter.entries db
      ⟨hg, counter.nodupKeys, hfits, fun e _ => hnone e.1⟩
  exact ⟨db', h⟩

theorem entries_of_fits {item : Item} (h : item.Fits) :
    (∀ e ∈ item.amount.p.counter.entries, e.2 < 2 ^ 63) ∧
      ∀ e ∈ item.amount.n.counter.entries, e.2 < 2 ^ 63 :=
  ⟨fun e he => h e.1 e.2 (Or.inl ((FinMap.mem_entries _ _ _).1 he)),
    fun e he => h e.1 e.2 (Or.inr ((FinMap.mem_entries _ _ _).1 he))⟩

theorem overwriteItem_returns {key : Uuid × String} {row : ItemRow} (item : Item) {db : ClientDb}
    (hrow : db.items.find? key = some row) :
    ∃ db', (overwriteItem item row.itemId row.pId row.nId).Returns db () db' := by
  obtain ⟨hpId, hnId⟩ := db.itemsForeign key row hrow
  obtain ⟨db₁, hset, hgcounter⟩ : ∃ db₁, db.updateItem row.itemId item.acquired = .ok ((), db₁) ∧
      db₁.gcounter = db.gcounter := ⟨_, rfl, rfl⟩
  rw [← hgcounter] at hpId hnId
  obtain ⟨db₂, hp⟩ := forM_cast_returns item.amount.p.counter hpId
  rw [← (setsCounts_cast hp).gcounter] at hnId
  obtain ⟨db₃, hn⟩ := forM_cast_returns item.amount.n.counter hnId
  exact ⟨db₃, returns_transaction.2 (returns_bind.2 ⟨(), db₁, returns_stmt.2 hset,
    returns_bind.2 ⟨(), db₂, hp, hn⟩⟩)⟩

/-- Two new gcounters. -/
theorem insertGcounters (db : ClientDb) :
    ∃ db₁ db₂, db.insertGcounter = .ok (db.gcounter + 1, db₁) ∧
      db₁.insertGcounter = .ok (db.gcounter + 2, db₂) ∧ db₂.items = db.items ∧
      db₂.actorValues = db.actorValues ∧ db₂.gcounter = db.gcounter + 2 :=
  ⟨_, _, rfl, rfl, rfl, rfl, rfl⟩

theorem writeItem_returns {id : Uuid} {name : String} {item : Item} {db : ClientDb}
    (hfits : item.Fits) (hnone : db.items.find? (id, name) = none) :
    ∃ db', (writeItem id item name).Returns db () db' := by
  obtain ⟨hfp, hfn⟩ := entries_of_fits hfits
  obtain ⟨db₁, db₂, h₁, h₂, hitems, hvalues, hgcounter⟩ := insertGcounters db
  have hp : IsGcounter db₂.gcounter (db.gcounter + 1) := by
    rw [hgcounter]
    exact ⟨by omega, by omega⟩
  have hn : IsGcounter db₂.gcounter (db.gcounter + 2) := by
    rw [hgcounter]
    exact ⟨by omega, by omega⟩
  have hserves := serves_fresh hnone hitems hvalues
  have hcontent : db₂.content (id, name) = none := by
    rw [content, hitems, hnone]
    rfl
  obtain ⟨db₃, hpLoop⟩ := forM_insert_returns hp hfp fun a => by rw [hserves.p a, hcontent]; rfl
  have hset := (setsCounts_insert hpLoop).1
  rw [← hset.gcounter] at hp hn
  obtain ⟨db₄, hnLoop⟩ := forM_insert_returns hn hfn fun a => by
    rw [hset.counts, if_neg hserves.ne.symm, hserves.n a, hcontent]
    rfl
  have hset' := (setsCounts_insert hnLoop).1
  rw [← hset'.gcounter] at hp hn
  obtain ⟨db₅, hrow, -⟩ := upsertItem_ok (id, name) item.acquired hp hn
  refine ⟨db₅, returns_transaction.2 (returns_bind.2 ⟨_, db₁, returns_stmt.2 h₁,
    returns_bind.2 ⟨_, db₂, returns_stmt.2 h₂, returns_bind.2 ⟨(), db₃, hpLoop,
      returns_bind.2 ⟨(), db₄, hnLoop, returns_stmt.2 ?_⟩⟩⟩⟩)⟩
  rw [insertItem, hset'.items, hset.items, hitems, hnone]
  exact hrow

theorem gcountersFor_returns (db : ClientDb) (key : Uuid × String) :
    ∃ p n db', (gcountersFor ((db.items.find? key).map fun row => (row.pId, row.nId))).Returns db
      (p, n) db' ∧ IsGcounter db'.gcounter p ∧ IsGcounter db'.gcounter n := by
  cases hrow : db.items.find? key with
  | none =>
    obtain ⟨db₁, db₂, h₁, h₂, -, -, hgcounter⟩ := insertGcounters db
    refine ⟨_, _, db₂, returns_bind.2 ⟨_, db₁, returns_stmt.2 h₁, returns_bind.2 ⟨_, db₂,
      returns_stmt.2 h₂, returns_pure.2 ⟨rfl, rfl⟩⟩⟩, ?_, ?_⟩
    · rw [hgcounter]
      exact ⟨by omega, by omega⟩
    · rw [hgcounter]
      exact ⟨by omega, by omega⟩
  | some row =>
    obtain ⟨hp, hn⟩ := db.itemsForeign key row hrow
    exact ⟨row.pId, row.nId, db, returns_pure.2 ⟨rfl, rfl⟩, hp, hn⟩

theorem writeEntry_returns {id : Uuid} {name : String} {item : Item} (db : ClientDb)
    (hfits : item.Fits) : ∃ db', (writeEntry id name item).Returns db () db' := by
  obtain ⟨hfp, hfn⟩ := entries_of_fits hfits
  obtain ⟨p, n, db₁, hids, hp, hn⟩ := gcountersFor_returns db (id, name)
  obtain ⟨db₂, hpLoop⟩ := forM_replace_returns hp hfp
  have hset := (setsCounts_replace hpLoop).1
  rw [← hset.gcounter] at hp hn
  obtain ⟨db₃, hnLoop⟩ := forM_replace_returns hn hfn
  have hset' := (setsCounts_replace hnLoop).1
  rw [← hset'.gcounter] at hp hn
  obtain ⟨db₄, hrow, -⟩ := upsertItem_ok (id, name) item.acquired hp hn
  exact ⟨db₄, returns_bind.2 ⟨_, db, returns_stmt.2 rfl, returns_bind.2 ⟨(p, n), db₁, hids,
    returns_bind.2 ⟨(), db₂, hpLoop, returns_bind.2 ⟨(), db₃, hnLoop, returns_stmt.2 hrow⟩⟩⟩⟩⟩

end ClientDb

/-- Every count of the list is an `i64`. -/
def ShoppingList.Fits (l : ShoppingList) : Prop :=
  ∀ name item, l.list.items.find? name = some item → item.Fits

namespace ClientDb

theorem writeShoppingList_returns {l : ShoppingList} (db : ClientDb) (hfits : l.Fits) :
    ∃ db', (writeShoppingList l).Returns db () db' := by
  obtain ⟨db', h, -⟩ := forM_returns
    (fun es _ => ∀ e ∈ es, e.2.Fits)
    (f := fun e : Sigma fun _ : String => Item => writeEntry l.id e.1 e.2) (by
      intro e es db hes
      obtain ⟨he, hes⟩ := List.forall_mem_cons.1 hes
      obtain ⟨db', h⟩ := writeEntry_returns db he
      exact ⟨db', h, hes⟩) l.list.items.entries db
      fun e he => hfits e.1 e.2 ((FinMap.mem_entries _ _ _).1 he)
  exact ⟨db', returns_transaction.2 h⟩

/-! ## Edits -/

theorem ensureList_spec {id : Uuid} {db db' : ClientDb} (h : (ensureList id).Returns db () db') :
    db'.items = db.items ∧ db'.actorValues = db.actorValues := by
  have hstmt := returns_stmt.1 (returns_transaction.1 h)
  unfold insertOrIgnoreList at hstmt
  split at hstmt <;> cases hstmt <;> exact ⟨rfl, rfl⟩

/-- What an edit that returns consists of. -/
inductive EditReturns (clientId id : Uuid) (name : String) (quantity : ℕ) (acquired : Bool)
    (db db₁ db' : ClientDb) : Prop
  | created (hnone : db.items.find? (id, name) = none)
      (hwrite : (writeItem id (Item.new quantity acquired clientId) name).Returns db₁ () db')
  | changed {row : ItemRow} {item item' : Item} (hrow : db.items.find? (id, name) = some row)
      (hread : ReadAs clientId ⟨db.counts row.pId, db.counts row.nId, row.acquired⟩ item)
      (hedit : editItem clientId quantity acquired item = some item')
      (hwrite : (overwriteItem item' row.itemId row.pId row.nId).Returns db₁ () db')

/-- **`handle_item_storage_request` records the list, and creates the item or changes it.** -/
theorem handleItemStorageRequest_cases {clientId id : Uuid} {name : String} {quantity : ℕ}
    {acquired : Bool} {db db' : ClientDb}
    (h : (handleItemStorageRequest clientId name quantity acquired id).Returns db () db') :
    ∃ db₁, (ensureList id).Returns db () db₁ ∧
      EditReturns clientId id name quantity acquired db db₁ db' := by
  unfold handleItemStorageRequest at h
  obtain ⟨⟨⟩, db₁, hensure, h⟩ := returns_bind.1 h
  obtain ⟨hitems, hvalues⟩ := ensureList_spec hensure
  refine ⟨db₁, hensure, ?_⟩
  obtain ⟨itemOpt, db₂, hread, h⟩ := returns_bind.1 h
  obtain ⟨heq, rfl⟩ := returns_query.1 hread
  cases heq
  rw [hitems] at h
  cases hrow : db.items.find? (id, name) with
  | none =>
    rw [hrow] at h
    exact .created hrow h
  | some row =>
    rw [hrow] at h
    obtain ⟨item, db₃, hbuild, hrest⟩ := returns_bind.1 h
    obtain ⟨rfl, hreadAs⟩ := buildItem_spec hbuild
    obtain ⟨item', db₄, hpanic, hwrite⟩ := returns_bind.1 hrest
    obtain ⟨hedit, rfl⟩ := returns_orPanic.1 hpanic
    rw [counts_congr hvalues] at hreadAs
    exact .changed hrow hreadAs hedit hwrite

/-- **`handle_item_storage_request` puts the edited item.** -/
theorem handleItemStorageRequest_spec {clientId id : Uuid} {name : String} {quantity : ℕ}
    {acquired : Bool} {db db' : ClientDb} (hdistinct : db.SlotsDistinct)
    (h : (handleItemStorageRequest clientId name quantity acquired id).Returns db () db') :
    db'.SlotsDistinct ∧ ∃ cast item,
      Edited clientId quantity acquired (db.content (id, name)) cast item ∧
      db'.content = db.content.put cast (id, name) item := by
  obtain ⟨db₁, hensure, hcases⟩ := handleItemStorageRequest_cases h
  obtain ⟨hitems, hvalues⟩ := ensureList_spec hensure
  have hdistinct₁ := slotsDistinct_congr hitems hdistinct
  have hcontent := content_congr hitems hvalues
  cases hcases with
  | created _ hwrite =>
    obtain ⟨-, hnone, hdistinct', hput⟩ := writeItem_spec hdistinct₁ hwrite
    rw [hcontent] at hnone hput
    exact ⟨hdistinct', _, _, hnone ▸ Edited.created, hput⟩
  | @changed row item item' hrow hread hedit hwrite =>
    obtain ⟨hdistinct', hput⟩ := overwriteItem_spec hdistinct₁ (hitems ▸ hrow) hwrite
    refine ⟨hdistinct', _, item', ?_, hcontent ▸ hput⟩
    rw [content_eq_some hrow]
    exact .changed hread hedit

theorem readOnly_readGcounter (clientId : Uuid) (g : ℕ) : (readGcounter clientId g).ReadOnly :=
  (readOnly_query _).bind fun _ => readOnly_pure _

theorem readOnly_buildItem (clientId : Uuid) (row : ItemRow) : (buildItem clientId row).ReadOnly :=
  (readOnly_readGcounter _ _).bind fun _ => (readOnly_readGcounter _ _).bind fun _ => readOnly_pure _

theorem readOnly_readShoppingList (clientId id : Uuid) : (readShoppingList clientId id).ReadOnly :=
  (readOnly_query _).bind fun _ =>
    (ReadOnly.foldlM (fun _ _ => (readOnly_buildItem _ _).bind fun _ => readOnly_pure _) _ _).bind
      fun _ => readOnly_pure _

/-- A list that is read is that of the store, which stays as it is. -/
theorem returns_of_read {clientId id : Uuid} {c c₁ : Conn ClientDb StorageError} {l : ShoppingList}
    (h : (readShoppingList clientId id).run c = (.ok l, c₁)) :
    c₁.db = c.db ∧ (readShoppingList clientId id).Returns c.db l c.db := by
  have hkeep := (readOnly_readShoppingList clientId id).keeps c
  rw [h] at hkeep
  have hreturns := returns_of_run h
  rw [hkeep] at hreturns
  exact ⟨hkeep, hreturns⟩

/-- An edit that does not return leaves behind what `ensure_list` left, and nothing more. -/
theorem handleItemStorageRequest_undone {clientId id : Uuid} {name : String} {quantity : ℕ}
    {acquired : Bool} {c c' : Conn ClientDb StorageError} {r : Outcome StorageError Unit}
    (h : (handleItemStorageRequest clientId name quantity acquired id).run c = (r, c'))
    (hr : ∀ u, r ≠ .ok u) :
    c'.db = ((ensureList id).run c).2.db := by
  unfold handleItemStorageRequest at h
  change andThen _ ((ensureList id).run c) = _ at h
  rcases hensure : (ensureList id).run c with ⟨⟨⟩ | e | _, c₁⟩ <;> rw [hensure] at h
  · refine ReadOnly.bind_atomic (readOnly_query _) (fun itemOpt => ?_) c₁ r c' h hr
    cases itemOpt with
    | none => exact atomic_transaction _
    | some row =>
      exact (readOnly_buildItem _ _).bind_atomic fun _ =>
        (readOnly_orPanic _).bind_atomic fun _ => atomic_transaction _
  · obtain ⟨-, rfl⟩ := Prod.mk.inj h
    rfl
  · obtain ⟨-, rfl⟩ := Prod.mk.inj h
    rfl

/-- An edit that does not return leaves the store as it was, or has only recorded the list. -/
theorem handleItemStorageRequest_rollback {clientId id : Uuid} {name : String} {quantity : ℕ}
    {acquired : Bool} {c c' : Conn ClientDb StorageError} {r : Outcome StorageError Unit}
    (h : (handleItemStorageRequest clientId name quantity acquired id).run c = (r, c'))
    (hr : ∀ u, r ≠ .ok u) :
    c'.db = c.db ∨ (ensureList id).Returns c.db () c'.db := by
  rw [handleItemStorageRequest_undone h hr]
  rcases hensure : (ensureList id).run c with ⟨⟨⟩ | e | _, c₁⟩
  · exact Or.inr (returns_of_run hensure)
  · exact Or.inl (atomic_transaction _ _ _ _ hensure (fun u => nofun))
  · exact Or.inl (atomic_transaction _ _ _ _ hensure (fun u => nofun))

/-- An edit that does not return changes no item. -/
theorem handleItemStorageRequest_fails {clientId id : Uuid} {name : String} {quantity : ℕ}
    {acquired : Bool} {c c' : Conn ClientDb StorageError} {r : Outcome StorageError Unit}
    (h : (handleItemStorageRequest clientId name quantity acquired id).run c = (r, c'))
    (hr : ∀ u, r ≠ .ok u) :
    c'.db.items = c.db.items ∧ c'.db.actorValues = c.db.actorValues := by
  rcases handleItemStorageRequest_rollback h hr with hkeep | hensure
  · rw [hkeep]
    exact ⟨rfl, rfl⟩
  · exact ensureList_spec hensure

end ClientDb

end Sdle
