import Sdle.Crdt
import Sdle.HashRing
import Mathlib.Data.Set.Function
import Mathlib.Data.List.Induction

/-!
# The server store (`ServerStorage` of `storage.rs`)

One table: a row per list, under the hash of the list's id.  `crdt_data` is the list that
`serde_json` reads back from the row's bytes.  `ServerStorage.keyed` is a field, since every write
keeps it: a row lies under the hash of the id of the list it holds.

Each operation is written for the case that no SQLite statement fails; a statement that fails
leaves the table as it was (the transaction is rolled back), and the caller sees `Err`.

* `rows_upsert` — what a write does to the table: it *replaces* the row by the list it was given.
  The merge with the stored list only decides the key.
* `getShoppingList_run` — after any sequence of writes a read returns the last list written.
* `accumulates_iff` — **when the store holds the merge of everything written for a list**: exactly
  when the last list written supersedes the earlier ones.
-/

set_option autoImplicit false

namespace Sdle

/-- A row of `shopping_lists`. -/
structure Row where
  crdtData : ShoppingList
  hintedHandoff : Option Uuid
  deriving DecidableEq

variable (hash : String → U128)

/-- `ServerStorage`: the rows by key. -/
structure ServerStorage where
  rows : FinMap U128 Row
  keyed : ∀ k r, rows.find? k = some r → hash r.crdtData.id.toString = k

namespace ServerStorage

variable {hash}

/-- The key of a list. -/
def key (hash : String → U128) (id : Uuid) : U128 := hash id.toString

/-- The table that `initialize_schema` creates. -/
protected def empty : ServerStorage hash := ⟨∅, by intro k r h; simp at h⟩

/-- `ServerStorage::get_shopping_list`. -/
def getShoppingList (self : ServerStorage hash) (id : Uuid) : Option ShoppingList :=
  (self.rows.find? (key hash id)).map Row.crdtData

/-- `new_shopping_list`: the given list, merged into the stored one if there is one. -/
def merged (self : ServerStorage hash) (shoppingList : ShoppingList) : ShoppingList :=
  match self.getShoppingList shoppingList.id with
  | some s => { s with list := s.list.merge shoppingList.list }
  | none => shoppingList

theorem key_merged (self : ServerStorage hash) (l : ShoppingList) :
    key hash (self.merged l).id = key hash l.id := by
  unfold merged
  split
  · rename_i s hs
    obtain ⟨r, hr, rfl⟩ := Option.map_eq_some_iff.1 hs
    exact self.keyed _ r hr
  · rfl

/-- The body that the two writes share: the bytes of the *given* list are stored under the key of
the merged one, with the given hint. -/
def upsert (self : ServerStorage hash) (shoppingList : ShoppingList) (hint : Option Uuid) :
    ServerStorage hash :=
  ⟨self.rows.insert (key hash (self.merged shoppingList).id) ⟨shoppingList, hint⟩, by
    intro k r hr
    rw [key_merged, FinMap.find?_insert] at hr
    split at hr
    · rename_i hk
      rw [← Option.some.inj hr, hk, key]
    · exact self.keyed k r hr⟩

/-- `ServerStorage::write_shopping_list`. -/
def writeShoppingList (self : ServerStorage hash) (shoppingList : ShoppingList) :
    ServerStorage hash :=
  self.upsert shoppingList none

/-- `ServerStorage::write_shopping_list_handoff`. -/
def writeShoppingListHandoff (self : ServerStorage hash) (shoppingList : ShoppingList)
    (serverId : Uuid) : ServerStorage hash :=
  self.upsert shoppingList (some serverId)

/-- `ServerStorage::get_hinted_handoffs`: destinations and lists. -/
def getHintedHandoffs (self : ServerStorage hash) : List (Uuid × ShoppingList) :=
  self.rows.entries.filterMap fun e => e.2.hintedHandoff.map fun dest => (dest, e.2.crdtData)

/-- The `WHERE` clause of `get_old_data` on the key.  The query gets the hash of the node as its
first parameter and the previous node's as its second. -/
def oldKey (prevNodeHash nodeHash id : U128) : Bool :=
  if prevNodeHash < nodeHash then decide (nodeHash < id) && decide (id ≤ prevNodeHash)
  else decide (nodeHash < id) || decide (id ≤ prevNodeHash)

/-- `ServerStorage::get_old_data`. -/
def getOldData (self : ServerStorage hash) (nodeId : Uuid) (prevNodeHash : U128) :
    List ShoppingList :=
  self.rows.entries.filterMap fun e =>
    if oldKey prevNodeHash (key hash nodeId) e.1 = true ∧ e.2.hintedHandoff = none
    then some e.2.crdtData else none

/-- `ServerStorage::get_all_rows`. -/
def getAllRows (self : ServerStorage hash) : List (U128 × ShoppingList) :=
  self.rows.entries.map fun e => (e.1, e.2.crdtData)

/-- `ServerStorage::delete_shopping_list`. -/
def deleteShoppingList (self : ServerStorage hash) (id : Uuid) : ServerStorage hash :=
  ⟨self.rows.erase (key hash id), by
    intro k r hr
    rw [FinMap.find?_erase] at hr
    split at hr
    · cases hr
    · exact self.keyed k r hr⟩

/-! ## What the operations do to the table -/

/-- **A write replaces the row by the list it was given**, whatever was stored. -/
theorem rows_upsert (self : ServerStorage hash) (l : ShoppingList) (hint : Option Uuid) (k : U128) :
    (self.upsert l hint).rows.find? k =
      if k = key hash l.id then some ⟨l, hint⟩ else self.rows.find? k := by
  rw [← key_merged self l]
  exact FinMap.find?_insert _ _ _ _

theorem rows_delete (self : ServerStorage hash) (id : Uuid) (k : U128) :
    (self.deleteShoppingList id).rows.find? k =
      if k = key hash id then none else self.rows.find? k :=
  FinMap.find?_erase _ _ _

theorem getShoppingList_eq_some (self : ServerStorage hash) (id : Uuid) (l : ShoppingList) :
    self.getShoppingList id = some l ↔
      ∃ hint, self.rows.find? (key hash id) = some ⟨l, hint⟩ := by
  unfold getShoppingList
  rw [Option.map_eq_some_iff]
  constructor
  · rintro ⟨r, hr, rfl⟩
    exact ⟨r.hintedHandoff, hr⟩
  · rintro ⟨hint, hr⟩
    exact ⟨_, hr, rfl⟩

theorem getShoppingList_upsert (self : ServerStorage hash) (l : ShoppingList) (hint : Option Uuid)
    (id : Uuid) :
    (self.upsert l hint).getShoppingList id =
      if key hash id = key hash l.id then some l else self.getShoppingList id := by
  unfold getShoppingList
  rw [rows_upsert]
  split <;> rfl

theorem mem_getHintedHandoffs (self : ServerStorage hash) (dest : Uuid) (l : ShoppingList) :
    (dest, l) ∈ self.getHintedHandoffs ↔ self.rows.find? (key hash l.id) = some ⟨l, some dest⟩ := by
  unfold getHintedHandoffs
  rw [List.mem_filterMap]
  constructor
  · rintro ⟨⟨k, data, hint⟩, hmem, hr⟩
    obtain ⟨d, hd, heq⟩ := Option.map_eq_some_iff.1 hr
    have hhint : hint = some d := hd
    have hdata : data = l := congrArg Prod.snd heq
    have hdest : d = dest := congrArg Prod.fst heq
    have hrow := (FinMap.mem_entries self.rows k _).1 hmem
    rw [← hdest, ← hhint, ← hdata, ← hrow]
    exact congrArg _ (self.keyed k _ hrow)
  · intro h
    refine ⟨⟨key hash l.id, ⟨l, some dest⟩⟩, (FinMap.mem_entries _ _ _).2 h, ?_⟩
    simp only [Option.map_some]

theorem mem_getOldData (self : ServerStorage hash) {nodeId : Uuid} {prev : U128} {l : ShoppingList}
    (h : l ∈ self.getOldData nodeId prev) :
    self.rows.find? (key hash l.id) = some ⟨l, none⟩ := by
  unfold getOldData at h
  obtain ⟨⟨k, data, hint⟩, hmem, hr⟩ := List.mem_filterMap.1 h
  have hrow := (FinMap.mem_entries self.rows k _).1 hmem
  rw [Option.ite_none_right_eq_some] at hr
  have hhint : hint = none := hr.1.2
  have hl : data = l := Option.some.inj hr.2
  rw [← hhint, ← hl, ← hrow]
  exact congrArg _ (self.keyed k _ hrow)

theorem mem_getAllRows (self : ServerStorage hash) {k : U128} {l : ShoppingList}
    (h : (k, l) ∈ self.getAllRows) :
    k = key hash l.id ∧ ∃ hint, self.rows.find? k = some ⟨l, hint⟩ := by
  unfold getAllRows at h
  obtain ⟨⟨k', r⟩, hmem, heq⟩ := List.mem_map.1 h
  obtain ⟨rfl, rfl⟩ := Prod.mk.inj heq
  have hrow := (FinMap.mem_entries self.rows k' r).1 hmem
  exact ⟨(self.keyed k' r hrow).symm, r.hintedHandoff, hrow⟩

theorem mem_getAllRows_iff (self : ServerStorage hash) {k : U128} {l : ShoppingList} :
    (k, l) ∈ self.getAllRows ↔ k = key hash l.id ∧ self.getShoppingList l.id = some l := by
  rw [getShoppingList_eq_some]
  constructor
  · intro h
    obtain ⟨rfl, hrow⟩ := mem_getAllRows self h
    exact ⟨rfl, hrow⟩
  · rintro ⟨rfl, hint, hrow⟩
    exact List.mem_map.2 ⟨_, (FinMap.mem_entries self.rows _ _).2 hrow, rfl⟩

/-! ## Sequences of writes -/

/-- A call of one of the two writes. -/
inductive WriteCall where
  | write (shoppingList : ShoppingList)
  | handoff (shoppingList : ShoppingList) (serverId : Uuid)
  deriving DecidableEq

/-- The list that a call writes. -/
def WriteCall.list : WriteCall → ShoppingList
  | .write l => l
  | .handoff l _ => l

/-- One call. -/
def call (self : ServerStorage hash) : WriteCall → ServerStorage hash
  | .write l => self.writeShoppingList l
  | .handoff l d => self.writeShoppingListHandoff l d

/-- A sequence of calls on a new store. -/
def run (hash : String → U128) (ws : List WriteCall) : ServerStorage hash :=
  ws.foldl call ServerStorage.empty

/-- The lists written for an id, in the order of the calls. -/
def written (ws : List WriteCall) (id : Uuid) : List ShoppingList :=
  (ws.map WriteCall.list).filter fun l => l.id = id

theorem getShoppingList_call (self : ServerStorage hash) (w : WriteCall) (id : Uuid) :
    (self.call w).getShoppingList id =
      if key hash id = key hash w.list.id then some w.list else self.getShoppingList id := by
  cases w with
  | write l => exact getShoppingList_upsert self l none id
  | handoff l d => exact getShoppingList_upsert self l (some d) id

/-- **A read returns the last list written**, if the hash separates the ids. -/
theorem getShoppingList_run {ids : Set Uuid} (hinj : Set.InjOn (key hash) ids) (ws : List WriteCall)
    (hws : ∀ w ∈ ws, w.list.id ∈ ids) {id : Uuid} (hid : id ∈ ids) :
    (run hash ws).getShoppingList id = (written ws id).getLast? := by
  induction ws using List.reverseRecOn with
  | nil => rfl
  | append_singleton ws w ih =>
    have hw : w.list.id ∈ ids := hws w (by simp)
    have ih := ih fun w' hw' => hws w' (by simp [hw'])
    unfold run at ih ⊢
    rw [List.foldl_append, List.foldl_cons, List.foldl_nil, getShoppingList_call]
    unfold written at ih ⊢
    rw [List.map_append, List.filter_append]
    by_cases h : w.list.id = id
    · rw [if_pos (by rw [h])]
      simp [h]
    · rw [if_neg (fun hk => h (hinj hid hw hk).symm), ih]
      simp [h]

/-! ## When the store accumulates -/

/-- The register that a state holds for an item. -/
def register (s : AWORMap) (name : String) : Option (LWWReg Uuid) :=
  (s.items.find? name).map Item.acquired

/-- The merge of a sequence of states, in its order. -/
def mergeAll : List AWORMap → Option AWORMap
  | [] => none
  | s :: ss => some (ss.foldl AWORMap.merge s)

/-- The store holds, up to `GCounter::actor_id`, the merge of the lists written for an id, and no
list when none was written. -/
def Accumulates (self : ServerStorage hash) (ws : List WriteCall) (id : Uuid) : Prop :=
  match mergeAll ((written ws id).map ShoppingList.list), self.getShoppingList id with
  | none, none => True
  | some m, some l => l.id = id ∧ l.list.view = m.view
  | _, _ => False

/-- A state supersedes the states before it: it is above each of them, and where one of them
already had an item's register with the same `(clock, actor)`, the first that had it carries the
same value. -/
def Supersedes (earlier : List AWORMap) (last : AWORMap) : Prop :=
  (∀ s ∈ earlier, s ≤ last) ∧
    ∀ name r r', register last name = some r →
      ((earlier.filterMap (register · name)).find? fun q => q.stamp = r.stamp) = some r' →
      r'.val = r.val

theorem mergeAll_concat (ss : List AWORMap) (s : AWORMap) :
    mergeAll (ss ++ [s]) =
      match mergeAll ss with
      | none => some s
      | some m => some (m.merge s) := by
  cases ss with
  | nil => rfl
  | cons t ss => simp [mergeAll]

theorem mergeAll_le_iff {ss : List AWORMap} {m : AWORMap} (h : mergeAll ss = some m) (u : AWORMap) :
    m ≤ u ↔ ∀ s ∈ ss, s ≤ u := by
  induction ss using List.reverseRecOn generalizing m with
  | nil => cases h
  | append_singleton ss s ih =>
    rw [mergeAll_concat] at h
    cases hm : mergeAll ss with
    | none =>
      rw [hm] at h
      cases h
      cases ss with
      | nil => simp
      | cons t ss => cases hm
    | some m' =>
      rw [hm] at h
      cases h
      constructor
      · intro hle x hx
        rw [List.mem_append, List.mem_singleton] at hx
        rcases hx with hx | rfl
        · exact (ih hm).1 (le_trans (AWORMap.le_merge_left m' s) hle) x hx
        · exact le_trans (AWORMap.le_merge_right m' x) hle
      · intro hall
        exact AWORMap.merge_le ((ih hm).2 fun x hx => hall x (by simp [hx])) (hall s (by simp))

theorem register_merge (s t : AWORMap) (name : String) :
    register (s.merge t) name =
      match register s name, register t name with
      | some r, some q => some (r.merge q)
      | some r, none => some r
      | none, q => q := by
  unfold register AWORMap.merge
  simp only [FinMap.find?_absorb]
  cases t.items.find? name with
  | none => cases s.items.find? name <;> rfl
  | some j => cases s.items.find? name <;> rfl

theorem find?_stamp {rs : List (LWWReg Uuid)} {c : ℕ ×ₗ Uuid} {r : LWWReg Uuid}
    (h : (rs.find? fun q => q.stamp = c) = some r) : r.stamp = c := by
  simpa using List.find?_some h

/-- The merge keeps, for an item, the first written of the newest registers. -/
theorem register_mergeAll {ss : List AWORMap} {m : AWORMap} (h : mergeAll ss = some m)
    (name : String) (r : LWWReg Uuid) (hr : register m name = some r) :
    ((ss.filterMap (register · name)).find? fun q => q.stamp = r.stamp) = some r ∧
      ∀ q ∈ ss.filterMap (register · name), q.stamp ≤ r.stamp := by
  induction ss using List.reverseRecOn generalizing m r with
  | nil => cases h
  | append_singleton ss s ih =>
    rw [mergeAll_concat] at h
    rw [List.filterMap_append]
    cases hm : mergeAll ss with
    | none =>
      rw [hm] at h
      cases h
      cases ss with
      | nil => simp [hr]
      | cons t ss => cases hm
    | some m' =>
      rw [hm] at h
      cases h
      rw [register_merge] at hr
      have hnone : register m' name = none → ss.filterMap (register · name) = [] := by
        intro hn
        rw [List.filterMap_eq_nil_iff]
        intro t ht
        cases hq : register t name with
        | none => rfl
        | some q =>
          obtain ⟨i, hi, -⟩ := Option.map_eq_some_iff.1 hq
          obtain ⟨j, hj, -⟩ := (mergeAll_le_iff hm m').1 le_rfl t ht name i hi
          simp [register, hj] at hn
      cases hr' : register m' name with
      | none =>
        rw [hr'] at hr
        rw [hnone hr']
        simp [show register s name = some r from hr]
      | some r₁ =>
        rw [hr'] at hr
        obtain ⟨hfirst, hmax⟩ := ih hm r₁ hr'
        cases hs : register s name with
        | none =>
          rw [hs] at hr
          cases hr
          simp only [List.filterMap_cons, hs, List.filterMap_nil, List.append_nil]
          exact ⟨hfirst, hmax⟩
        | some q =>
          rw [hs] at hr
          cases hr
          rw [LWWReg.merge_eq]
          simp only [List.filterMap_cons, hs, List.filterMap_nil]
          split
          · rename_i hlt
            constructor
            · rw [List.find?_append, List.find?_eq_none.2]
              · simp
              · intro x hx
                simpa using ((hmax x hx).trans_lt hlt).ne
            · intro x hx
              rw [List.mem_append, List.mem_singleton] at hx
              rcases hx with hx | rfl
              · exact ((hmax x hx).trans_lt hlt).le
              · exact le_rfl
          · rename_i hle
            constructor
            · rw [List.find?_append, hfirst]
              rfl
            · intro x hx
              rw [List.mem_append, List.mem_singleton] at hx
              rcases hx with hx | rfl
              · exact hmax x hx
              · exact not_lt.1 hle

/-- A merge is, up to `GCounter::actor_id`, its second state: that state is above the first, and
carries the first one's value wherever their registers of an item agree in `(clock, actor)`. -/
theorem view_merge_eq_right_iff (s t : AWORMap) :
    (s.merge t).view = t.view ↔
      s ≤ t ∧ ∀ name r q, register s name = some r → register t name = some q →
        r.stamp = q.stamp → r.val = q.val := by
  constructor
  · intro h
    have hle : s ≤ t := by
      rw [AWORMap.le_iff_view, ← h, ← AWORMap.le_iff_view]
      exact AWORMap.le_merge_left s t
    refine ⟨hle, ?_⟩
    intro name r q hr hq hst
    obtain ⟨i, hi, rfl⟩ := Option.map_eq_some_iff.1 hr
    obtain ⟨j, hj, rfl⟩ := Option.map_eq_some_iff.1 hq
    have hv := congrFun h name
    rw [AWORMap.view_merge] at hv
    simp only [AWORMap.view, hi, hj, Option.map_some, AWORMap.mergeView, Option.some.injEq] at hv
    have hreg : i.acquired.merge j.acquired = j.acquired := congrArg Item.View.acquired hv
    rw [LWWReg.merge_eq, if_neg (by rw [hst]; exact lt_irrefl _)] at hreg
    rw [hreg]
  · rintro ⟨hle, htie⟩
    funext name
    rw [AWORMap.view_merge]
    cases hi : s.items.find? name with
    | none =>
      simp only [AWORMap.view, hi, Option.map_none]
      cases t.items.find? name <;> rfl
    | some i =>
      obtain ⟨j, hj, hij⟩ := hle name i hi
      obtain ⟨hp, hn, hst⟩ := (Item.le_iff_view i j).1 hij
      simp only [AWORMap.view, hi, hj, Option.map_some, AWORMap.mergeView, Item.View.merge]
      have hreg : i.view.acquired.merge j.view.acquired = j.view.acquired := by
        rw [LWWReg.merge_eq]
        split
        · rfl
        · rename_i hlt
          have heq : i.acquired.stamp = j.acquired.stamp := le_antisymm hst (not_lt.1 hlt)
          have hval := htie name i.acquired j.acquired (by simp [register, hi])
            (by simp [register, hj]) heq
          exact LWWReg.eq_of_stamp_eq heq hval
      rw [hreg, sup_eq_right.2 hp, sup_eq_right.2 hn]

theorem supersedes_iff (earlier : List AWORMap) (last m : AWORMap)
    (h : mergeAll (earlier ++ [last]) = some m) : last.view = m.view ↔ Supersedes earlier last := by
  rw [mergeAll_concat] at h
  cases hm : mergeAll earlier with
  | none =>
    rw [hm] at h
    cases h
    cases earlier with
    | nil => simp [Supersedes]
    | cons t ss => cases hm
  | some m' =>
    rw [hm] at h
    cases h
    rw [eq_comm, view_merge_eq_right_iff, mergeAll_le_iff hm, Supersedes]
    refine and_congr_right fun hle => ?_
    constructor
    · intro htie name r r' hr hfirst
      have hmem := List.mem_of_find?_eq_some hfirst
      have hst := find?_stamp hfirst
      have hle' : m' ≤ last := (mergeAll_le_iff hm last).2 hle
      obtain ⟨t, ht, hrt⟩ := List.mem_filterMap.1 hmem
      obtain ⟨i, hi, rfl⟩ := Option.map_eq_some_iff.1 hrt
      obtain ⟨j, hj, hij⟩ := (mergeAll_le_iff hm m').1 le_rfl t ht name i hi
      obtain ⟨k, hk, hjk⟩ := hle' name j hj
      have hrk : r = k.acquired := by
        rw [register, hk] at hr
        simpa using hr.symm
      -- the merged register lies between the earlier one and the last one
      have hjst : j.acquired.stamp = r.stamp :=
        le_antisymm (hrk ▸ hjk.2.2) (hst ▸ hij.2.2)
      have hj' : register m' name = some j.acquired := by simp [register, hj]
      obtain ⟨hfirst', -⟩ := register_mergeAll hm name j.acquired hj'
      rw [hjst, hfirst] at hfirst'
      rw [Option.some.inj hfirst']
      exact htie name j.acquired r hj' hr hjst
    · intro htie name r q hr hq hst
      obtain ⟨hfirst, -⟩ := register_mergeAll hm name r hr
      exact htie name q r hq (hst ▸ hfirst)

/-- **The store holds the merge of everything written for a list exactly when the last list written
for it supersedes the earlier ones.** -/
theorem accumulates_iff {ids : Set Uuid} (hinj : Set.InjOn (key hash) ids) (ws : List WriteCall)
    (hws : ∀ w ∈ ws, w.list.id ∈ ids) :
    (∀ id ∈ ids, Accumulates (run hash ws) ws id) ↔
      ∀ id ∈ ids, ∀ earlier last, written ws id = earlier ++ [last] →
        Supersedes (earlier.map ShoppingList.list) last.list := by
  refine forall₂_congr fun id hid => ?_
  unfold Accumulates
  rw [getShoppingList_run hinj ws hws hid]
  rcases List.eq_nil_or_concat (written ws id) with hnil | ⟨earlier, last, hlast⟩
  · simp [hnil, mergeAll]
  · rw [List.concat_eq_append] at hlast
    have hlid : last.id = id := by
      have hmem : last ∈ written ws id := by simp [hlast]
      simpa using (List.mem_filter.1 hmem).2
    have hm : ∃ m, mergeAll ((earlier ++ [last]).map ShoppingList.list) = some m := by
      rw [List.map_append, List.map_cons, List.map_nil, mergeAll_concat]
      split <;> exact ⟨_, rfl⟩
    obtain ⟨m, hm⟩ := hm
    have hiff := supersedes_iff (earlier.map ShoppingList.list) last.list m (by simpa using hm)
    rw [hlast, hm, List.getLast?_append, List.getLast?_singleton, Option.some_or]
    simp only [hlid, true_and, hiff]
    constructor
    · intro hs e l hel
      obtain ⟨rfl, hl⟩ := List.append_inj' hel rfl
      cases hl
      exact hs
    · intro hall
      exact hall earlier last rfl

/-- A list with one item, as the client that added it has it. -/
def oneItem (name : String) (client : ℕ) : ShoppingList :=
  ⟨.ofTail 101, AWORMap.new.insert name (Item.new 1 false (.ofTail client))⟩

/-- Two writes of one list by different clients, the second without the first one's item. -/
def twoWriters : List WriteCall := [.write (oneItem "milk" 201), .write (oneItem "bread" 202)]

theorem not_accumulates :
    ¬ ∀ id ∈ ({Uuid.ofTail 101} : Set Uuid), Accumulates (run md5 twoWriters) twoWriters id := by
  intro h
  have h := h (Uuid.ofTail 101) rfl
  unfold Accumulates at h
  split at h
  · rename_i hm _
    exact absurd hm (by decide +kernel)
  · rename_i m l hm hl
    have hmilk : (m.items.find? "milk").isSome = true := by
      have : (mergeAll ((written twoWriters (Uuid.ofTail 101)).map ShoppingList.list)).all
          (fun m => (m.items.find? "milk").isSome) = true := by decide +kernel
      rw [hm] at this
      exact this
    have hlost : (l.list.items.find? "milk").isSome = false := by
      have : ((run md5 twoWriters).getShoppingList (Uuid.ofTail 101)).all
          (fun l => !(l.list.items.find? "milk").isSome) = true := by decide +kernel
      rw [hl] at this
      simpa using this
    have hview := congrArg Option.isSome (congrFun h.2 "milk")
    simp only [AWORMap.view, Option.isSome_map, hmilk, hlost] at hview
    exact Bool.noConfusion hview
  · exact h

/-- The two writers, the second having merged the first one's state. -/
theorem accumulates_iff_merged :
    let first := oneItem "milk" 201
    let second := { first with list := first.list.insert "bread" (Item.new 1 false (.ofTail 202)) }
    let ws : List WriteCall := [.write first, .write second]
    (∀ id ∈ ({Uuid.ofTail 101} : Set Uuid), Accumulates (run md5 ws) ws id) ↔
      ∀ id ∈ ({Uuid.ofTail 101} : Set Uuid), ∀ earlier last, written ws id = earlier ++ [last] →
        Supersedes (earlier.map ShoppingList.list) last.list :=
  accumulates_iff (Set.injOn_singleton _ _) _ (by
    intro w hw
    rcases List.mem_cons.1 hw with rfl | hw
    · rfl
    · rw [List.mem_singleton.1 hw]
      rfl)

end ServerStorage

end Sdle
