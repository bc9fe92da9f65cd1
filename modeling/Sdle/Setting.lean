import Sdle.Quantities

/-!
# Setting an item (`storage.rs`, `cli.rs`)

An edit turns the quantity that is asked for into a difference to the total of the item, and adds it
to a count of its client.  Where nothing overflows, this sets the item and does nothing else.

* `set_exactly` — **an edit sets just what it is asked to set**, and does nothing when repeated.
* `edit_safe_iff` — **exactly which quantities cannot corrupt the store**.
* `quantity_hides_list` — a quantity that the client accepts and after which the list cannot be read.
-/

set_option autoImplicit false

namespace Sdle

open Sql Sql.Call ClientStorage

/-! ## What an edit makes of the sums -/

/-- The sum grows by what the edit adds to the count of its client. -/
theorem total_bump {g g' : GCounter} {client : Uuid} {x : Option ℕ}
    (h : g'.count = bump g.count client x) : g'.counter.total = g.counter.total + x.getD 0 := by
  cases x with
  | none => exact GCounter.total_of_count h
  | some n =>
    have hinsert : ∀ a, g'.counter.find? a =
        FinMap.find? (g.counter.insert client ((g.counter.find? client).getD 0 + n)) a := by
      intro a
      refine (congrFun h a).trans ?_
      rw [FinMap.find?_insert]
      unfold bump
      by_cases ha : a = client
      · rw [ha, if_pos rfl]
        refine (Function.update_self client _ g.count).trans ?_
        unfold GCounter.count
        cases g.counter.find? client <;> rfl
      · rw [if_neg ha]
        exact Function.update_of_ne ha _ g.count
    have htotal := FinMap.total_insert g.counter client ((g.counter.find? client).getD 0 + n)
    rw [FinMap.total_congr hinsert, Option.getD_some]
    omega

/-- The sums that an edit makes, in exact arithmetic. -/
def sumP (quantity : ℕ) (amount : PNCounter) : ℤ :=
  amount.p.counter.total + max (deltaOf quantity amount) 0

def sumN (quantity : ℕ) (amount : PNCounter) : ℤ :=
  amount.n.counter.total + max (-deltaOf quantity amount) 0

theorem sumP_sub_sumN (quantity : ℕ) (amount : PNCounter) :
    sumP quantity amount - sumN quantity amount = quantity := by
  unfold sumP sumN deltaOf
  omega

theorem raised_getD (delta : ℤ) : ((raised delta).getD 0 : ℤ) = max delta 0 := by
  unfold raised
  split
  · rw [Option.getD_some]
    omega
  · rw [Option.getD_none]
    omega

theorem lowered_getD (delta : ℤ) : ((lowered delta).getD 0 : ℤ) = max (-delta) 0 := by
  unfold lowered
  split
  · rw [Option.getD_some]
    omega
  · rw [Option.getD_none]
    omega

/-- The item after an edit, up to `GCounter::actor_id`, where nothing overflows. -/
def Item.View.edited (v : Item.View) (client : Uuid) (acquired : Bool) (delta : ℤ) : Item.View where
  p := bump v.p client (raised delta)
  n := bump v.n client (lowered delta)
  acquired := (writtenBy client acquired v.acquired).getD v.acquired

theorem totals_of_edited {item item' : Item} {client : Uuid} {acquired : Bool} {quantity : ℕ}
    (h : item'.view = item.view.edited client acquired (deltaOf quantity item.amount)) :
    (item'.amount.p.counter.total : ℤ) = sumP quantity item.amount ∧
      (item'.amount.n.counter.total : ℤ) = sumN quantity item.amount := by
  have hp := total_bump (congrArg Item.View.p h)
  have hn := total_bump (congrArg Item.View.n h)
  unfold sumP sumN
  rw [← raised_getD, ← lowered_getD]
  exact ⟨by rw [hp]; push_cast; rfl, by rw [hn]; push_cast; rfl⟩

/-- Where the casts of the sums are exact on one side, the total is shown as it is only if they are on
the other side too. -/
theorem valueTotal_eq_iff {amount : PNCounter} {quantity : ℕ}
    (h : (amount.p.counter.total : ℤ) - amount.n.counter.total = quantity)
    (hn : amount.n.counter.total < 2 ^ 63) :
    amount.valueTotal = some (quantity : ℤ) ↔ amount.p.counter.total < 2 ^ 63 := by
  constructor
  · intro hvalue
    by_contra hp
    unfold PNCounter.valueTotal GCounter.valueTotal at hvalue
    rw [if_pos (show amount.n.counter.total < 2 ^ 64 by omega)] at hvalue
    by_cases hpLt : amount.p.counter.total < 2 ^ 64
    · rw [if_pos hpLt] at hvalue
      have hwrap : asI64 amount.p.counter.total = (amount.p.counter.total : ℤ) - 2 ^ 64 := by
        unfold asI64
        rw [Nat.mod_eq_of_lt hpLt, if_neg hp]
      dsimp only at hvalue
      rw [hwrap, asI64_of_lt hn] at hvalue
      split at hvalue
      · have heq := Option.some.inj hvalue
        omega
      · cases hvalue
    · rw [if_neg hpLt] at hvalue
      cases hvalue
  · intro hp
    rw [PNCounter.valueTotal_of_lt hp hn, h]

/-! ## The arithmetic of an edit -/

/-- `x` is an `i64`. -/
def InI64 (x : ℤ) : Prop := -2 ^ 63 ≤ x ∧ x < 2 ^ 63

/-- No operation of the edit of a stored item overflows or wraps: on exact values, each gives a value
of its type. -/
structure NoWrap (client : Uuid) (quantity : ℕ) (acquired : Bool) (item : Item) : Prop where
  -- `GCounter::value_total` and `PNCounter::value_total`
  pSum : item.amount.p.counter.total < 2 ^ 64
  nSum : item.amount.n.counter.total < 2 ^ 64
  pCast : InI64 item.amount.p.counter.total
  nCast : InI64 item.amount.n.counter.total
  current : InI64 ((item.amount.p.counter.total : ℤ) - item.amount.n.counter.total)
  -- `quantity as i64 - current_quantity`
  quantityCast : InI64 quantity
  delta : InI64 (deltaOf quantity item.amount)
  -- `inc_by(delta as u64)` or `dec_by((-delta) as u64)`
  inc : 0 < deltaOf quantity item.amount →
    (item.amount.p.count client).unbotD 0 + (deltaOf quantity item.amount).toNat < 2 ^ 64
  negated : deltaOf quantity item.amount < 0 → InI64 (-deltaOf quantity item.amount)
  dec : deltaOf quantity item.amount < 0 →
    (item.amount.n.count client).unbotD 0 + (-deltaOf quantity item.amount).toNat < 2 ^ 64
  -- `stored_item.acquired.clock + 1`
  clock : acquired.toNat ≠ item.acquired.val → item.acquired.clock + 1 < 2 ^ 32
  -- `val_u64 as i64` in `overwrite_item`
  stored : ∀ a, (item.view.edited client acquired (deltaOf quantity item.amount)).p a
      < ((2 ^ 63 : ℕ) : WithBot ℕ) ∧
    (item.view.edited client acquired (deltaOf quantity item.amount)).n a < ((2 ^ 63 : ℕ) : WithBot ℕ)

/-- The sums of an item, before and after an edit in exact arithmetic, stay below `2^63`. -/
structure SumsFitEdit (quantity : ℕ) (item : Item) : Prop where
  p : item.amount.p.counter.total < 2 ^ 63
  n : item.amount.n.counter.total < 2 ^ 63
  pAfter : sumP quantity item.amount < 2 ^ 63
  nAfter : sumN quantity item.amount < 2 ^ 63

/-- The sums fit if the old increments do, and the new quantity on top of the old decrements. -/
theorem sumsFitEdit_iff {quantity : ℕ} {item : Item} : SumsFitEdit quantity item ↔
    item.amount.p.counter.total < 2 ^ 63 ∧ quantity + item.amount.n.counter.total < 2 ^ 63 := by
  constructor
  · rintro ⟨hp, hn, hp', hn'⟩
    unfold sumP deltaOf at hp'
    exact ⟨hp, by omega⟩
  · rintro ⟨hp, hn⟩
    refine ⟨hp, by omega, ?_, ?_⟩
    · unfold sumP deltaOf
      omega
    · unfold sumN deltaOf
      omega

theorem unbotD_le_total (g : GCounter) (a : Uuid) : (g.count a).unbotD 0 ≤ g.counter.total := by
  unfold GCounter.count
  cases ha : g.counter.find? a with
  | none => exact Nat.zero_le _
  | some x => exact FinMap.find?_le_total ha

/-- A count after an edit is at most the sum after it. -/
theorem bump_lt {g : GCounter} {client : Uuid} {x : Option ℕ} {b : ℕ}
    (h : g.counter.total + x.getD 0 < b) (a : Uuid) : bump g.count client x a < (b : WithBot ℕ) := by
  have hle : ∀ a, g.count a < (b : WithBot ℕ) := by
    intro a
    unfold GCounter.count
    cases ha : g.counter.find? a with
    | none => exact WithBot.bot_lt_coe b
    | some y =>
      have hy : y < b := by
        have hle := FinMap.find?_le_total ha
        omega
      exact WithBot.coe_lt_coe.2 hy
  cases x with
  | none => exact hle a
  | some n =>
    by_cases ha : a = client
    · rw [ha, bump_some_self]
      have hown : (g.count client).unbotD 0 + n < b := by
        have hle := unbotD_le_total g client
        rw [Option.getD_some] at h
        omega
      exact WithBot.coe_lt_coe.2 hown
    · rw [bump_of_ne _ _ ha]
      exact hle a

/-- **Where the sums fit, nothing overflows or wraps.** -/
theorem SumsFitEdit.noWrap {client : Uuid} {quantity : ℕ} {acquired : Bool} {item : Item}
    (h : SumsFitEdit quantity item)
    (hclock : acquired.toNat ≠ item.acquired.val → item.acquired.clock + 1 < 2 ^ 32) :
    NoWrap client quantity acquired item := by
  obtain ⟨hp, hn⟩ := sumsFitEdit_iff.1 h
  have hpOwn := unbotD_le_total item.amount.p client
  have hnOwn := unbotD_le_total item.amount.n client
  have hraised := raised_getD (deltaOf quantity item.amount)
  have hlowered := lowered_getD (deltaOf quantity item.amount)
  have hpAfter := h.pAfter
  have hnAfter := h.nAfter
  unfold sumP at hpAfter
  unfold sumN at hnAfter
  refine ⟨by omega, by omega, ⟨by omega, by omega⟩, ⟨by omega, by omega⟩, ⟨by omega, by omega⟩,
    ⟨by omega, by omega⟩, ⟨by omega, by omega⟩, fun _ => by omega, fun _ => ⟨by omega, by omega⟩,
    fun _ => by omega, hclock, fun a => ⟨?_, ?_⟩⟩
  · exact bump_lt (g := item.amount.p) (by omega) a
  · exact bump_lt (g := item.amount.n) (by omega) a

theorem checkedI64_of_inI64 {x : ℤ} (h : InI64 x) : checkedI64 x = some x := if_pos h

theorem incBy_isSome {g : GCounter} {n : ℕ} (h : (g.count g.actorId).unbotD 0 + n < 2 ^ 64) :
    (g.incBy n).isSome = true := by
  have hentry : (g.counter.find? g.actorId).getD 0 = (g.count g.actorId).unbotD 0 := by
    unfold GCounter.count
    cases g.counter.find? g.actorId <;> rfl
  unfold GCounter.incBy
  dsimp only
  rw [hentry, if_pos h]
  rfl

theorem editAcquired_returns (client : Uuid) {acquired : Bool} {r : LWWReg Uuid}
    (h : acquired.toNat ≠ r.val → r.clock + 1 < 2 ^ 32) :
    ∃ register, editAcquired client acquired r = some register := by
  unfold editAcquired
  split
  · rename_i hval
    rw [if_pos (h hval)]
    exact ⟨_, rfl⟩
  · exact ⟨_, rfl⟩

/-- **Where nothing overflows or wraps the edit has an item to store**, of which every count fits. -/
theorem NoWrap.editItem {client : Uuid} {quantity : ℕ} {acquired : Bool} {item : Item}
    (h : NoWrap client quantity acquired item) (hp : item.amount.p.actorId = client)
    (hn : item.amount.n.actorId = client) :
    ∃ item', editItem client quantity acquired item = some item' ∧
      item'.view = item.view.edited client acquired (deltaOf quantity item.amount) ∧ item'.Fits := by
  have hpLt : item.amount.p.counter.total < 2 ^ 63 := by
    have hlt := h.pCast.2
    omega
  have hnLt : item.amount.n.counter.total < 2 ^ 63 := by
    have hlt := h.nCast.2
    omega
  have hquantity : quantity < 2 ^ 63 := by
    have hlt := h.quantityCast.2
    omega
  have hrange := h.delta.2
  have hamount : (editAmount quantity item.amount).isSome = true := by
    unfold editAmount
    rw [PNCounter.valueTotal_of_lt hpLt hnLt, asI64_of_lt hquantity]
    change Option.isSome (Option.bind (checkedI64 (deltaOf quantity item.amount)) _) = true
    rw [checkedI64_of_inI64 h.delta, Option.bind_some]
    split
    · rename_i hpos
      rw [asU64_of_pos hpos (by omega), PNCounter.incBy, Option.isSome_map]
      exact incBy_isSome (by rw [hp]; exact h.inc hpos)
    · split
      · rename_i hneg
        have hnegated := (h.negated hneg).2
        rw [checkedI64_of_inI64 (h.negated hneg), Option.bind_some, asU64_of_pos (by omega) (by omega),
          PNCounter.decBy, Option.isSome_map]
        exact incBy_isSome (by rw [hn]; exact h.dec hneg)
      · rfl
  obtain ⟨amount, hamount⟩ := Option.isSome_iff_exists.1 hamount
  obtain ⟨register, hregister⟩ := editAcquired_returns client h.clock
  have hedit := editItem_eq_some.2 ⟨amount, register, hamount, hregister, rfl⟩
  have hview := view_editItem ⟨hpLt, hnLt⟩ hquantity hp hn hedit
  refine ⟨_, hedit, hview, (Item.fits_iff _).2 fun a => ?_⟩
  have hstored := h.stored a
  rw [show item.view.edited client acquired (deltaOf quantity item.amount) =
    (item.merge ⟨amount, register⟩).view from hview.symm] at hstored
  exact hstored

/-! ## The tables after an edit -/

namespace ClientDb

/-- The same tables, in whatever order their rows stand. -/
structure Same (db db' : ClientDb) : Prop where
  localLists : db'.localLists = db.localLists
  gcounter : db'.gcounter = db.gcounter
  actorValues : ∀ k, db'.actorValues.find? k = db.actorValues.find? k
  items : ∀ k, db'.items.find? k = db.items.find? k
  lastItem : db'.lastItem = db.lastItem

theorem Same.refl (db : ClientDb) : Same db db := ⟨rfl, rfl, fun _ => rfl, fun _ => rfl, rfl⟩

/-- What the client knows of its lists, and the numbers that were given. -/
def register (db : ClientDb) : List Uuid × ℕ × ℕ := (db.localLists, db.gcounter, db.lastItem)

theorem register_of_upsertActorValue {g : ℕ} {a : Uuid} {v : ℤ} {db db' : ClientDb} {u : Unit}
    (h : db.upsertActorValue g a v = .ok (u, db')) : db'.register = db.register := by
  unfold upsertActorValue at h
  split at h <;> cases h
  rfl

theorem ensureList_localLists {id : Uuid} {db db' : ClientDb}
    (h : (ensureList id).Returns db () db') :
    (db'.localLists = if id ∈ db.localLists then db.localLists else db.localLists ++ [id]) ∧
      (id ∈ db.localLists → db' = db) := by
  have hstmt := returns_stmt.1 (returns_transaction.1 h)
  unfold insertOrIgnoreList at hstmt
  by_cases hid : id ∈ db.localLists
  · rw [dif_pos hid] at hstmt
    cases hstmt
    rw [if_pos hid]
    exact ⟨rfl, fun _ => rfl⟩
  · rw [dif_neg hid] at hstmt
    cases hstmt
    rw [if_neg hid]
    exact ⟨rfl, fun h => absurd h hid⟩

theorem keeps_overwriteItem (item : Item) (itemId pId nId : ℕ) :
    (overwriteItem item itemId pId nId).Keeps register := by
  have hloop : ∀ g (es : List (Sigma fun _ : Uuid => ℕ)),
      (forM es fun e => stmt (upsertActorValue g e.1 (asI64 e.2))).Keeps register := fun g =>
    keeps_forM fun _ => keeps_stmt fun _ _ _ h => register_of_upsertActorValue h
  refine Keeps.transaction ((keeps_stmt fun db u db' h => ?_).bind fun _ =>
    (hloop _ _).bind fun _ => hloop _ _)
  cases h
  rfl

/-- A statement on a count that must be an `INTEGER`. -/
theorem keeps_stmt_toSql {s : ℤ → ClientDb → Except StorageError (Unit × ClientDb)} {x : ℕ}
    (h : ∀ v db u db', s v db = .ok (u, db') → db'.localLists = db.localLists) :
    (stmt fun db => do s (← toSql x) db).Keeps localLists := by
  refine keeps_stmt fun db u db' hs => ?_
  unfold toSql at hs
  split at hs
  · exact h _ _ _ _ hs
  · cases hs

theorem keeps_insertGcounter : (stmt insertGcounter).Keeps localLists := by
  refine keeps_stmt fun db g db' h => ?_
  cases h
  rfl

theorem keeps_upsertItem (key : Uuid × String) (acquired : LWWReg Uuid) (pId nId : ℕ) :
    (stmt (upsertItem key acquired pId nId)).Keeps localLists := by
  refine keeps_stmt fun db u db' h => ?_
  unfold upsertItem at h
  split at h <;> cases h
  rfl

theorem keeps_writeItem (id : Uuid) (item : Item) (name : String) :
    (writeItem id item name).Keeps localLists := by
  have hloop : ∀ g (es : List (Sigma fun _ : Uuid => ℕ)),
      (forM es fun e => stmt fun db => do insertActorValue g e.1 (← toSql e.2) db).Keeps localLists := by
    refine fun g => keeps_forM fun e => keeps_stmt_toSql fun v db u db' h => ?_
    unfold insertActorValue at h
    split at h
    · cases h
    · exact congrArg Prod.fst (register_of_upsertActorValue h)
  refine Keeps.transaction (keeps_insertGcounter.bind fun _ => keeps_insertGcounter.bind fun _ =>
    (hloop _ _).bind fun _ => (hloop _ _).bind fun _ => keeps_stmt fun db u db' h => ?_)
  unfold insertItem at h
  split at h
  · cases h
  · exact keeps_upsertItem _ _ _ _ db u db' (returns_stmt.2 h)

/-- An edit records its list, and no other. -/
theorem handleItemStorageRequest_localLists {clientId id : Uuid} {name : String} {quantity : ℕ}
    {acquired : Bool} {db db' : ClientDb}
    (h : (handleItemStorageRequest clientId name quantity acquired id).Returns db () db') :
    db'.localLists = if id ∈ db.localLists then db.localLists else db.localLists ++ [id] := by
  obtain ⟨db₁, hensure, hcases⟩ := handleItemStorageRequest_cases h
  rw [← (ensureList_localLists hensure).1]
  cases hcases with
  | created _ hwrite => exact keeps_writeItem _ _ _ _ _ _ hwrite
  | changed _ _ _ hwrite => exact congrArg Prod.fst (keeps_overwriteItem _ _ _ _ _ _ _ hwrite)

/-- Storing the item that is stored changes nothing. -/
theorem overwriteItem_same {key : Uuid × String} {row : ItemRow} {item : Item} {db db' : ClientDb}
    (hdistinct : db.SlotsDistinct) (hrow : db.items.find? key = some row)
    (hacquired : item.acquired = row.acquired)
    (hp : overlay asI64 item.amount.p.counter (db.counts row.pId) = db.counts row.pId)
    (hn : overlay asI64 item.amount.n.counter (db.counts row.nId) = db.counts row.nId)
    (h : (overwriteItem item row.itemId row.pId row.nId).Returns db () db') : db.Same db' := by
  have hwrites := overwriteItem_writes hdistinct hrow h
  have hregister := keeps_overwriteItem _ _ _ _ _ _ _ h
  refine ⟨congrArg Prod.fst hregister, congrArg (·.2.1) hregister, fun k => ?_, fun k => ?_,
    congrArg (·.2.2) hregister⟩
  · obtain ⟨g, a⟩ := k
    change db'.counts g a = db.counts g a
    by_cases hgp : g = row.pId
    · rw [hgp, hwrites.p a, hp]
    · by_cases hgn : g = row.nId
      · rw [hgn, hwrites.n a, hn]
      · exact hwrites.counts g a hgp hgn
  · by_cases hk : k = key
    · rw [hk, overwriteItem_items h, hrow, Option.map_some]
      have hset : setAcquired row.itemId item.acquired row = row := by
        rw [hacquired]
        unfold setAcquired
        rw [if_pos rfl]
        rfl
      rw [hset]
    · exact hwrites.items k hk

end ClientDb

/-! ## Setting an item -/

/-- The item shows this quantity and this flag, and its sums fit. -/
structure Item.IsSet (quantity : ℕ) (acquired : Bool) (item : Item) : Prop where
  p : item.amount.p.counter.total < 2 ^ 63
  difference : (item.amount.p.counter.total : ℤ) - item.amount.n.counter.total = quantity
  acquired : item.acquired.val = acquired.toNat

/-- Only the counts of this client changed, they did not shrink, and the register is the same unless
its flag changed. -/
structure OnlyOwn (client : Uuid) (acquired : Bool) (item item' : Item) : Prop where
  p : ∀ a, a ≠ client → item'.amount.p.count a = item.amount.p.count a
  n : ∀ a, a ≠ client → item'.amount.n.count a = item.amount.n.count a
  pLe : item.amount.p ≤ item'.amount.p
  nLe : item.amount.n ≤ item'.amount.n
  acquired : acquired.toNat = item.acquired.val → item'.acquired = item.acquired

theorem totals_congr {i j : Item} (h : j.view = i.view) :
    j.amount.p.counter.total = i.amount.p.counter.total ∧
      j.amount.n.counter.total = i.amount.n.counter.total :=
  ⟨GCounter.total_of_count (congrArg Item.View.p h), GCounter.total_of_count (congrArg Item.View.n h)⟩

theorem Item.IsSet.congr {quantity : ℕ} {acquired : Bool} {i j : Item} (h : i.IsSet quantity acquired)
    (hview : j.view = i.view) : j.IsSet quantity acquired := by
  obtain ⟨hp, hn⟩ := totals_congr hview
  refine ⟨by rw [hp]; exact h.p, by rw [hp, hn]; exact h.difference, ?_⟩
  exact (congrArg (·.acquired.val) hview).trans h.acquired

theorem Item.IsSet.valueTotal {quantity : ℕ} {acquired : Bool} {item : Item}
    (h : item.IsSet quantity acquired) : item.amount.valueTotal = some (quantity : ℤ) := by
  have hp := h.p
  have hdifference := h.difference
  exact (valueTotal_eq_iff hdifference (by omega)).2 hp

theorem deltaOf_congr {quantity : ℕ} {i j : Item} (h : j.view = i.view) :
    deltaOf quantity j.amount = deltaOf quantity i.amount := by
  obtain ⟨hp, hn⟩ := totals_congr h
  unfold deltaOf
  rw [hp, hn]

theorem SumsFitEdit.congr {quantity : ℕ} {i j : Item} (h : SumsFitEdit quantity i)
    (hview : j.view = i.view) : SumsFitEdit quantity j := by
  obtain ⟨hp, hn⟩ := totals_congr hview
  rw [sumsFitEdit_iff] at h ⊢
  rw [hp, hn]
  exact h

theorem NoWrap.congr {client : Uuid} {quantity : ℕ} {acquired : Bool} {i j : Item}
    (h : NoWrap client quantity acquired i) (hview : j.view = i.view) :
    NoWrap client quantity acquired j := by
  obtain ⟨hp, hn⟩ := totals_congr hview
  have hpCount : j.amount.p.count = i.amount.p.count := congrArg Item.View.p hview
  have hnCount : j.amount.n.count = i.amount.n.count := congrArg Item.View.n hview
  have hacquired : j.acquired = i.acquired := congrArg Item.View.acquired hview
  have hdelta : deltaOf quantity j.amount = deltaOf quantity i.amount := deltaOf_congr hview
  refine ⟨?pSum, ?nSum, ?pCast, ?nCast, ?current, h.quantityCast, ?delta, ?inc, ?negated, ?dec, ?clock,
    ?stored⟩
  all_goals simp only [hp, hn, hdelta, hpCount, hnCount, hacquired, hview]
  case pSum => exact h.pSum
  case nSum => exact h.nSum
  case pCast => exact h.pCast
  case nCast => exact h.nCast
  case current => exact h.current
  case delta => exact h.delta
  case inc => exact h.inc
  case negated => exact h.negated
  case dec => exact h.dec
  case clock => exact h.clock
  case stored => exact h.stored

theorem Item.IsSet.sumsFitEdit {quantity : ℕ} {acquired : Bool} {item : Item}
    (h : item.IsSet quantity acquired) : SumsFitEdit quantity item := by
  have hp := h.p
  have hdifference := h.difference
  exact sumsFitEdit_iff.2 ⟨hp, by omega⟩

theorem isSet_new {quantity : ℕ} (h : quantity < 2 ^ 63) (acquired : Bool) (client : Uuid) :
    (Item.new quantity acquired client).IsSet quantity acquired := by
  have htotal : ∀ x, FinMap.total ((∅ : FinMap Uuid ℕ).insert client x) = x := by
    intro x
    have hinsert := FinMap.total_insert (∅ : FinMap Uuid ℕ) client x
    rw [FinMap.find?_empty, FinMap.total_empty, Option.getD_none] at hinsert
    omega
  have hp : (Item.new quantity acquired client).amount.p.counter.total = quantity := htotal quantity
  have hn : (Item.new quantity acquired client).amount.n.counter.total = 0 := htotal 0
  exact ⟨by rw [hp]; exact h, by rw [hp, hn]; omega, rfl⟩

theorem val_writtenBy (client : Uuid) (acquired : Bool) (r : LWWReg Uuid) :
    ((writtenBy client acquired r).getD r).val = acquired.toNat := by
  unfold writtenBy
  split
  · rfl
  · rename_i hval
    exact (not_not.1 hval).symm

theorem writtenBy_of_eq (client : Uuid) {acquired : Bool} {r : LWWReg Uuid}
    (h : acquired.toNat = r.val) : (writtenBy client acquired r).getD r = r := by
  rw [writtenBy, if_neg (not_not.2 h)]
  rfl

section Edited

variable {client : Uuid} {quantity : ℕ} {acquired : Bool} {item item' : Item}

theorem isSet_of_edited
    (hview : item'.view = item.view.edited client acquired (deltaOf quantity item.amount))
    (hp : sumP quantity item.amount < 2 ^ 63) : item'.IsSet quantity acquired := by
  obtain ⟨hp', hn'⟩ := totals_of_edited hview
  have hsub := sumP_sub_sumN quantity item.amount
  refine ⟨by omega, by omega, ?_⟩
  exact (congrArg (·.acquired.val) hview).trans (val_writtenBy client acquired item.acquired)

theorem onlyOwn_of_edited {delta : ℤ} (hview : item'.view = item.view.edited client acquired delta) :
    OnlyOwn client acquired item item' := by
  have hp : item'.amount.p.count = bump item.amount.p.count client (raised delta) :=
    congrArg Item.View.p hview
  have hn : item'.amount.n.count = bump item.amount.n.count client (lowered delta) :=
    congrArg Item.View.n hview
  refine ⟨fun a ha => ?_, fun a ha => ?_, (GCounter.le_iff_count _ _).2 fun a => ?_,
    (GCounter.le_iff_count _ _).2 fun a => ?_, fun hval => ?_⟩
  · rw [hp, bump_of_ne _ _ ha]
  · rw [hn, bump_of_ne _ _ ha]
  · rw [hp]
    exact le_bump _ _ _ a
  · rw [hn]
    exact le_bump _ _ _ a
  · exact (congrArg Item.View.acquired hview).trans (writtenBy_of_eq client hval)

/-- An edit of an item that is set makes the same item again. -/
theorem Item.IsSet.edited (h : item.IsSet quantity acquired) :
    item.view.edited client acquired (deltaOf quantity item.amount) = item.view := by
  have hdelta : deltaOf quantity item.amount = 0 := by
    have hdifference := h.difference
    unfold deltaOf
    omega
  rw [hdelta]
  unfold Item.View.edited
  rw [writtenBy_of_eq client (show acquired.toNat = item.view.acquired.val from h.acquired.symm)]
  rfl

end Edited

namespace ClientDb

/-- What an edit with sums that fit stores. -/
inductive SetTo (client : Uuid) (quantity : ℕ) (acquired : Bool) : Option Stored → Item → Prop
  | created : SetTo client quantity acquired none (Item.new quantity acquired client)
  | changed {s : Stored} {item item' : Item} (hread : ReadAs client s item)
      (hview : item'.view = item.view.edited client acquired (deltaOf quantity item.amount))
      (hset : item'.IsSet quantity acquired) : SetTo client quantity acquired (some s) item'

theorem SetTo.isSet {client : Uuid} {quantity : ℕ} {acquired : Bool} {old : Option Stored} {item : Item}
    (h : SetTo client quantity acquired old item) (hquantity : quantity < 2 ^ 63) :
    item.IsSet quantity acquired := by
  cases h with
  | created => exact isSet_new hquantity acquired client
  | changed _ _ hset => exact hset

/-- **What an edit puts where nothing overflows or wraps.** -/
theorem view_of_edited {client : Uuid} {quantity : ℕ} {acquired : Bool} {s : Stored}
    {cast : ℕ → ℤ} {item item' : Item} (h : Edited client quantity acquired (some s) cast item')
    (hread : ReadAs client s item) (hwrap : NoWrap client quantity acquired item) :
    item'.view = item.view.edited client acquired (deltaOf quantity item.amount) ∧ item'.Fits := by
  cases h with
  | @changed _ i _ hread' hedit =>
    have hi : i.view = item.view := hread'.view.trans hread.view.symm
    obtain ⟨j, hj, hview, hfits⟩ := (hwrap.congr hi).editItem hread'.pActor hread'.nActor
    rw [hedit] at hj
    cases hj
    rw [hi, deltaOf_congr hi] at hview
    exact ⟨hview, hfits⟩

/-- **An edit with sums that fit puts an item with this quantity and this flag.** -/
theorem setTo_of_edited {client : Uuid} {quantity : ℕ} {acquired : Bool} {old : Option Stored}
    {cast : ℕ → ℤ} {item : Item} (h : Edited client quantity acquired old cast item)
    (hquantity : quantity < 2 ^ 63)
    (hroom : ∀ s i, old = some s → ReadAs client s i → NoWrap client quantity acquired i ∧
      sumP quantity i.amount < 2 ^ 63) :
    SetTo client quantity acquired old item ∧ item.Fits := by
  cases old with
  | none =>
    cases h
    exact ⟨.created, Item.fits_new hquantity acquired client⟩
  | some s =>
    have hread : ∃ i, ReadAs client s i := by
      cases h with
      | changed hread => exact ⟨_, hread⟩
    obtain ⟨i, hread⟩ := hread
    obtain ⟨hwrap, hsum⟩ := hroom s i rfl hread
    obtain ⟨hview, hfits⟩ := view_of_edited h hread hwrap
    exact ⟨.changed hread hview (isSet_of_edited hview hsum), hfits⟩

/-- A list that can be read can be read after one more item is put. -/
theorem readable_put {db db' : ClientDb} {key : Uuid × String} {item : Item} {id : Uuid}
    (h : db'.content = db.content.put (↑) key item) (hreadable : db.Readable id) : db'.Readable id := by
  intro name s hs
  rw [h, Content.put] at hs
  by_cases hkey : (id, name) = key
  · rw [hkey, Function.update_self] at hs
    cases hs
    exact Stored.nonneg_update fun old hold => hreadable name old (hkey ▸ hold)
  · rw [Function.update_of_ne hkey] at hs
    exact hreadable name s hs

/-- The item that is read after an edit. -/
theorem view_of_edit {client id : Uuid} {name : String} {quantity : ℕ} {acquired : Bool}
    {db db' : ClientDb} {cast : ℕ → ℤ} {item : Item}
    (hedited : Edited client quantity acquired (db.content (id, name)) cast item)
    (hput : db'.content = db.content.put (↑) (id, name) item) :
    (db'.content (id, name)).map Stored.view = some item.view := by
  have hmap : db'.itemMap id name = _ := congrFun (congrFun (itemMap_put hput) id) name
  unfold ItemMap.put at hmap
  rw [if_pos ⟨rfl, rfl⟩, Item.View.overlay_of_le fun v hv => ?_] at hmap
  · exact hmap
  · obtain ⟨hp, hn, -⟩ := hedited.le v hv
    exact ⟨hp, hn⟩

/-- Counts that are those of the store already, over those of the store. -/
theorem overlay_same {g g' : GCounter} {old : Uuid → Option ℤ} (hcount : g'.count = g.count)
    (hlt : ∀ a x, g'.counter.find? a = some x → x < 2 ^ 63)
    (hold : ∀ a, old a = (g.counter.find? a).map (↑)) : overlay asI64 g'.counter old = old := by
  rw [overlay_asI64 hlt]
  funext a
  unfold overlay
  have ha : g'.counter.find? a = g.counter.find? a := congrFun hcount a
  rw [ha, hold a, Option.or_self]

/-- **Repeating an edit changes nothing**, whatever statements fail. -/
theorem same_of_again {client id : Uuid} {name : String} {quantity : ℕ} {acquired : Bool}
    {c c' : Conn ClientDb StorageError} {r : Outcome StorageError Unit} {item : Item}
    (hdistinct : c.db.SlotsDistinct) (hid : id ∈ c.db.localLists)
    (hitem : (c.db.content (id, name)).map Stored.view = some item.view)
    (hset : item.IsSet quantity acquired)
    (h : (handleItemStorageRequest client name quantity acquired id).run c = (r, c')) :
    c.db.Same c'.db := by
  by_cases hr : r = .ok ()
  · rw [hr] at h
    obtain ⟨db₁, hensure, hcases⟩ := handleItemStorageRequest_cases (returns_of_run h)
    have hdb := (ensureList_localLists hensure).2 hid
    rw [hdb] at hcases
    cases hcases with
    | created hnone =>
      rw [content, hnone] at hitem
      cases hitem
    | @changed row i i' hrow hread hedit hwrite =>
      rw [content_eq_some hrow] at hitem
      have hview : i.view = item.view := hread.view.trans (Option.some.inj hitem)
      have hi := hset.congr hview
      have hwrap : NoWrap client quantity acquired i :=
        hi.sumsFitEdit.noWrap fun hne => absurd hi.acquired.symm hne
      obtain ⟨j, hj, hjview, hfits⟩ := hwrap.editItem hread.pActor hread.nActor
      rw [hedit] at hj
      cases hj
      rw [hi.edited] at hjview
      exact overwriteItem_same hdistinct hrow ((congrArg Item.View.acquired hjview).trans hread.acquired)
        (overlay_same (congrArg Item.View.p hjview) (fun a x hx => hfits a x (Or.inl hx)) hread.p)
        (overlay_same (congrArg Item.View.n hjview) (fun a x hx => hfits a x (Or.inr hx)) hread.n)
        hwrite
  · rcases handleItemStorageRequest_rollback h fun _ => hr with hkeep | hensure
    · rw [hkeep]
      exact .refl _
    · rw [(ensureList_localLists hensure).2 hid]
      exact .refl _

/-- What is read of an item depends on the counts alone. -/
theorem buildItem_congr {client : Uuid} {row : ItemRow} {item : Item} {db db' : ClientDb}
    (hvalues : db'.actorValues = db.actorValues) (h : (buildItem client row).Returns db item db) :
    (buildItem client row).Returns db' item db' := by
  have hcounter : ∀ g counter db₁, (readGcounter client g).Returns db counter db₁ →
      (readGcounter client g).Returns db' counter db' := by
    intro g counter db₁ h
    obtain ⟨entries, db₂, hquery, hret⟩ := returns_bind.1 h
    obtain ⟨hloop, -⟩ := returns_query.1 hquery
    rw [← hvalues] at hloop
    exact returns_bind.2 ⟨entries, db', returns_query.2 ⟨hloop, rfl⟩,
      returns_pure.2 ⟨(returns_pure.1 hret).1, rfl⟩⟩
  obtain ⟨p, db₁, hp, h⟩ := returns_bind.1 h
  obtain ⟨n, db₂, hn, hret⟩ := returns_bind.1 h
  obtain ⟨rfl, -⟩ := readGcounter_spec hp
  exact returns_bind.2 ⟨p, db', hcounter _ _ _ hp, returns_bind.2 ⟨n, db', hcounter _ _ _ hn,
    returns_pure.2 ⟨(returns_pure.1 hret).1, rfl⟩⟩⟩

/-- An edit that has an item to store returns, if no statement fails. -/
theorem handleItemStorageRequest_returns_of_edit {client id : Uuid} {name : String} {quantity : ℕ}
    {acquired : Bool} {db : ClientDb} {row : ItemRow} {item item' : Item}
    (hrow : db.items.find? (id, name) = some row) (hitem : (buildItem client row).Returns db item db)
    (hedit : editItem client quantity acquired item = some item') :
    ∃ db', (handleItemStorageRequest client name quantity acquired id).Returns db () db' := by
  obtain ⟨db₁, hensure⟩ : ∃ db₁, (ensureList id).Returns db () db₁ := by
    have hstmt : ∃ db₁, db.insertOrIgnoreList id = .ok ((), db₁) := by
      unfold insertOrIgnoreList
      split <;> exact ⟨_, rfl⟩
    obtain ⟨db₁, hstmt⟩ := hstmt
    exact ⟨db₁, returns_transaction.2 (returns_stmt.2 hstmt)⟩
  obtain ⟨hitems, hvalues⟩ := ensureList_spec hensure
  have hrow₁ : db₁.items.find? (id, name) = some row := by rw [hitems, hrow]
  have hitem₁ := buildItem_congr hvalues hitem
  obtain ⟨db', hwrite⟩ := overwriteItem_returns item' hrow₁
  refine ⟨db', returns_bind.2 ⟨(), db₁, hensure, returns_bind.2 ⟨some ⟨row, name⟩, db₁,
    returns_query.2 ⟨by rw [hrow₁]; rfl, rfl⟩, returns_bind.2 ⟨item, db₁, hitem₁, ?_⟩⟩⟩⟩
  exact returns_bind.2 ⟨item', db₁, returns_orPanic.2 ⟨hedit, rfl⟩, hwrite⟩

/-- An edit of an item without overflow returns, if no statement fails. -/
theorem handleItemStorageRequest_returns {client id : Uuid} {name : String} {quantity : ℕ}
    {acquired : Bool} {db : ClientDb} {row : ItemRow} {item : Item}
    (hrow : db.items.find? (id, name) = some row) (hitem : (buildItem client row).Returns db item db)
    (h : NoWrap client quantity acquired item) :
    ∃ db', (handleItemStorageRequest client name quantity acquired id).Returns db () db' := by
  obtain ⟨-, hread⟩ := buildItem_spec hitem
  obtain ⟨item', hedit, -⟩ := h.editItem hread.pActor hread.nActor
  exact handleItemStorageRequest_returns_of_edit hrow hitem hedit

end ClientDb

open ClientDb

/-- **An edit sets just what it is asked to set**, and does nothing when repeated. -/
theorem set_exactly {client id : Uuid} {name : String} {quantity : ℕ} {acquired : Bool}
    {c c' : Conn ClientDb StorageError} {l : ShoppingList}
    (hreach : Reachable client (fun _ => True) c.db)
    (hread : (readShoppingList client id).Returns c.db l c.db) (hquantity : quantity < 2 ^ 63)
    (hfit : ∀ item, l.list.items.find? name = some item →
      SumsFitEdit quantity item ∧ item.acquired.clock < 2 ^ 32 - 1)
    (hrun : (handleItemStorageRequest client name quantity acquired id).run c = (.ok (), c')) :
    (∃ l' item', (readShoppingList client id).Returns c'.db l' c'.db ∧
      l'.list.items.find? name = some item' ∧ item'.amount.valueTotal = some (quantity : ℤ) ∧
      item'.acquired.val = acquired.toNat ∧
      ∀ item, l.list.items.find? name = some item → OnlyOwn client acquired item item') ∧
    (∀ key, key ≠ (id, name) → c'.db.content key = c.db.content key) ∧
    (∀ id', id' ≠ id → (id' ∈ c'.db.localLists ↔ id' ∈ c.db.localLists)) ∧
    ∀ c₁ c₂ r, c₁.db = c'.db →
      (handleItemStorageRequest client name quantity acquired id).run c₁ = (r, c₂) →
      c₁.db.Same c₂.db := by
  have hdistinct := hreach.slotsDistinct
  have hreturns := returns_of_run hrun
  have hlists := handleItemStorageRequest_localLists hreturns
  obtain ⟨hdistinct', cast, item', hedited, hput⟩ := handleItemStorageRequest_spec hdistinct hreturns
  -- the item that is read before the edit is the one that the edit reads
  have hl := (readShoppingList_spec hread).2.2 name
  have hstored : ∀ s i, c.db.content (id, name) = some s → ReadAs client s i →
      ∃ item, l.list.items.find? name = some item ∧ i.view = item.view := by
    intro s i hs hi
    rw [hs] at hl
    obtain ⟨item, hitem, hreadAs⟩ := hl
    exact ⟨item, hitem, hi.view.trans hreadAs.view.symm⟩
  obtain ⟨hsetTo, hfits⟩ := setTo_of_edited hedited hquantity fun s i hs hi => by
    obtain ⟨item, hitem, hview⟩ := hstored s i hs hi
    obtain ⟨hsums, hclock⟩ := hfit item hitem
    have hsums := hsums.congr hview
    refine ⟨hsums.noWrap fun _ => ?_, hsums.pAfter⟩
    rw [show i.acquired = item.acquired from congrArg Item.View.acquired hview]
    omega
  have hset := hsetTo.isSet hquantity
  rw [hedited.put_eq hfits] at hput
  have hview' := view_of_edit hedited hput
  obtain ⟨l', hread'⟩ := readShoppingList_returns client
    (readable_put hput (readable_of_returns hread))
  have hl' : l'.list.view name = some item'.view := (readShoppingList_view hread' name).trans hview'
  obtain ⟨j, hj, hjview⟩ := Option.map_eq_some_iff.1 hl'
  have hjset := hset.congr hjview
  refine ⟨⟨l', j, hread', hj, hjset.valueTotal, hjset.acquired, fun item hitem => ?own⟩,
    fun key hkey => ?others, fun id' hid' => ?lists, fun c₁ c₂ r hc₁ hagain => ?again⟩
  case own =>
    cases hs : c.db.content (id, name) with
    | none =>
      rw [hs, hitem] at hl
      cases hl
    | some s =>
      rw [hs] at hsetTo
      cases hsetTo with
      | @changed _ i _ hi hview _ =>
        obtain ⟨item₀, hitem₀, hiview⟩ := hstored s i hs hi
        rw [hitem] at hitem₀
        cases hitem₀
        have hview := hjview.trans hview
        rw [hiview] at hview
        exact onlyOwn_of_edited hview
  case others =>
    rw [hput, Content.put, Function.update_of_ne hkey]
  case lists =>
    rw [hlists]
    split
    · exact Iff.rfl
    · simp [hid']
  case again =>
    rw [← hc₁] at hdistinct' hview' hlists
    refine same_of_again hdistinct' ?_ hview' hset hagain
    rw [hlists]
    split
    · assumption
    · simp

/-- Five acquired milks in place of the two. -/
theorem set_exactly_milk :
    ∃ l' item', (readShoppingList ⟨201⟩ ⟨101⟩).Returns
        ((handleItemStorageRequest ⟨201⟩ "milk" 5 true ⟨101⟩).run (.calm milkStore)).2.db l'
        ((handleItemStorageRequest ⟨201⟩ "milk" 5 true ⟨101⟩).run (.calm milkStore)).2.db ∧
      l'.list.items.find? "milk" = some item' ∧ item'.amount.valueTotal = some 5 ∧
      item'.acquired.val = 1 := by
  have hitem : ((listOf ⟨201⟩ milkStore).list.items.find? "milk").map
      (fun i => (i.amount.p.counter.total, i.amount.n.counter.total, i.acquired.clock)) =
      some (2, 0, 0) := by decide +kernel
  have hread : (readShoppingList ⟨201⟩ ⟨101⟩).Returns milkStore (listOf ⟨201⟩ milkStore) milkStore := rfl
  have hfit : ∀ item, (listOf ⟨201⟩ milkStore).list.items.find? "milk" = some item →
      SumsFitEdit 5 item ∧ item.acquired.clock < 2 ^ 32 - 1 := by
    intro item h
    rw [h] at hitem
    obtain ⟨hp, hn⟩ := Prod.mk.inj (Option.some.inj hitem)
    obtain ⟨hn, hclock⟩ := Prod.mk.inj hn
    exact ⟨sumsFitEdit_iff.2 ⟨by omega, by omega⟩, by omega⟩
  have hok : ((handleItemStorageRequest ⟨201⟩ "milk" 5 true ⟨101⟩).run (.calm milkStore)).1 = .ok () := by
    decide +kernel
  have hset := set_exactly (c := .calm milkStore) Client.milkStore_any hread (by decide) hfit
    (Prod.ext hok rfl)
  obtain ⟨l', item', hread, hfind, hvalue, hacquired, -⟩ := hset.1
  exact ⟨l', item', hread, hfind, hvalue, hacquired⟩

/-! ## Which quantities are safe -/

section Reads

variable (client : Uuid) (db : ClientDb)

/-- The loop of `get_user_lists` returns where each of the lists can be read. -/
theorem foldlM_readShoppingList : ∀ (ids : List Uuid) (acc : List ShoppingList),
    (∃ ls db', (ids.foldlM (fun (listVec : List ShoppingList) listUuid => do
      return listVec ++ [← readShoppingList client listUuid]) acc).Returns db ls db') ↔
      ∀ id ∈ ids, db.Readable id := by
  intro ids
  induction ids with
  | nil => exact fun acc => iff_of_true ⟨acc, db, returns_pure.2 ⟨rfl, rfl⟩⟩ (by simp)
  | cons id ids ih =>
    intro acc
    rw [List.forall_mem_cons]
    constructor
    · rintro ⟨ls, db', h⟩
      rw [List.foldlM_cons] at h
      obtain ⟨acc', db₁, hround, hrest⟩ := returns_bind.1 h
      obtain ⟨l, db₂, hread, hret⟩ := returns_bind.1 hround
      obtain ⟨rfl, -⟩ := readShoppingList_spec hread
      obtain ⟨-, rfl⟩ := returns_pure.1 hret
      exact ⟨readable_of_returns hread, (ih acc').1 ⟨ls, db', hrest⟩⟩
    · rintro ⟨hid, hids⟩
      obtain ⟨l, hread⟩ := readShoppingList_returns client hid
      obtain ⟨ls, db', hrest⟩ := (ih (acc ++ [l])).2 hids
      refine ⟨ls, db', ?_⟩
      rw [List.foldlM_cons]
      exact returns_bind.2 ⟨_, db,
        returns_bind.2 ⟨l, db, hread, returns_pure.2 ⟨rfl, rfl⟩⟩, hrest⟩

/-- **`get_user_lists` succeeds just where each list of the client can be read.** -/
theorem getUserLists_iff :
    (∃ lists db', (getUserLists client).Returns db lists db') ↔ ∀ id ∈ db.localLists, db.Readable id := by
  rw [← foldlM_readShoppingList client db db.localLists []]
  constructor
  · rintro ⟨lists, db', h⟩
    obtain ⟨ids, db₁, hquery, h⟩ := returns_bind.1 h
    obtain ⟨heq, rfl⟩ := returns_query.1 hquery
    cases heq
    obtain ⟨ls, db₂, hloop, -⟩ := returns_bind.1 h
    exact ⟨ls, db₂, hloop⟩
  · rintro ⟨ls, db', hloop⟩
    exact ⟨_, db', returns_bind.2 ⟨db.localLists, db, returns_query.2 ⟨rfl, rfl⟩,
      returns_bind.2 ⟨ls, db', hloop, returns_pure.2 ⟨rfl, rfl⟩⟩⟩⟩

end Reads

/-- The edit of a stored item is safe: nothing overflows or wraps, and, whatever statements fail, it
reports an error and leaves the store as it was, or leaves one that can be read and shows the
quantity. -/
structure EditSafe (client id : Uuid) (name : String) (quantity : ℕ) (acquired : Bool) (item : Item)
    (db : ClientDb) : Prop where
  noWrap : NoWrap client quantity acquired item
  outcome : ∀ c c' r, c.db = db →
    (handleItemStorageRequest client name quantity acquired id).run c = (r, c') →
    (∃ e, r = .err e ∧ c'.db = db) ∨
      r = .ok () ∧
        (∃ l i, (readShoppingList client id).Returns c'.db l c'.db ∧
          l.list.items.find? name = some i ∧ i.amount.valueTotal = some (quantity : ℤ)) ∧
        ∃ lists db', (getUserLists client).Returns c'.db lists db'

theorem noPanic_ensureList (id : Uuid) : (ensureList id).NoPanic := (noPanic_stmt _).transaction

theorem noPanic_buildItem (client : Uuid) (row : ItemRow) : (buildItem client row).NoPanic := by
  have hcounter : ∀ g, (readGcounter client g).NoPanic := fun g =>
    (noPanic_query _).bind fun _ => noPanic_pure _
  exact (hcounter _).bind fun _ => (hcounter _).bind fun _ => noPanic_pure _

theorem noPanic_overwriteItem (item : Item) (itemId pId nId : ℕ) :
    (overwriteItem item itemId pId nId).NoPanic :=
  ((noPanic_stmt _).bind fun _ => (noPanic_forM (fun _ => noPanic_stmt _) _).bind fun _ =>
    noPanic_forM (fun _ => noPanic_stmt _) _).transaction

section Safe

variable {client id : Uuid} {name : String} {quantity : ℕ} {acquired : Bool} {db : ClientDb}
  {row : ItemRow} {item : Item}

/-- An edit without overflow ends with a result or an error. -/
theorem edit_ne_panic (hid : id ∈ db.localLists) (hrow : db.items.find? (id, name) = some row)
    (hitem : (buildItem client row).Returns db item db) (hwrap : NoWrap client quantity acquired item)
    {c : Conn ClientDb StorageError} (hc : c.db = db) :
    ((handleItemStorageRequest client name quantity acquired id).run c).1 ≠ .panic := by
  subst hc
  refine run_bind_ne_panic (noPanic_ensureList id c) fun _ c₁ hensure => ?_
  have hdb := (ensureList_localLists (returns_of_run hensure)).2 hid
  refine run_bind_ne_panic (noPanic_query _ c₁) fun itemOpt c₂ hread => ?_
  obtain ⟨heq, hdb₂⟩ := returns_query.1 (returns_of_run hread)
  rw [hdb] at heq hdb₂
  rw [hrow] at heq
  cases heq
  refine run_bind_ne_panic (noPanic_buildItem client row c₂) fun i c₃ hbuild => ?_
  have hi := returns_of_run hbuild
  rw [hdb₂] at hi
  obtain ⟨rfl, -⟩ := hi.unique hitem
  obtain ⟨-, hreadAs⟩ := buildItem_spec hitem
  obtain ⟨item', hedit, -⟩ := hwrap.editItem hreadAs.pActor hreadAs.nActor
  rw [hedit]
  exact run_bind_ne_panic nofun fun j c₄ _ => noPanic_overwriteItem j _ _ _ c₄

/-- An edit of a list that is not recorded records it, though its first query fails. -/
theorem listed_of_safe (h : EditSafe client id name quantity acquired item db) : id ∈ db.localLists := by
  by_contra hid
  obtain ⟨db₁, hstmt, hlists⟩ : ∃ db₁, db.insertOrIgnoreList id = .ok ((), db₁) ∧
      db₁.localLists = db.localLists ++ [id] := by
    unfold insertOrIgnoreList
    rw [dif_neg hid]
    exact ⟨_, rfl, rfl⟩
  have hrun : (handleItemStorageRequest client name quantity acquired id).run ⟨db, [some .sqlite], []⟩ =
      (.err .sqlite, ⟨db₁, [], []⟩) := by
    have hensure : (ensureList id).run ⟨db, [some .sqlite], []⟩ = (.ok (), ⟨db₁, [some .sqlite], []⟩) := by
      unfold ensureList Call.transaction Call.stmt
      simp only [Conn.spendWrite, List.head?_nil, Option.join_none, List.tail_nil, hstmt]
    change andThen _ ((ensureList id).run _) = _
    rw [hensure]
    rfl
  rcases h.outcome _ _ _ rfl hrun with ⟨e, -, hkeep⟩ | ⟨hok, -⟩
  · rw [show db₁ = db from hkeep] at hlists
    exact hid (by rw [hlists]; simp)
  · cases hok

/-- A list that can be read after an item is put could be read before, if that item could. -/
theorem readable_of_put {db' : ClientDb} {key : Uuid × String} {id' : Uuid}
    (h : db'.content = db.content.put (↑) key item) (hkey : ∀ s, db.content key = some s → s.Nonneg)
    (hreadable : db'.Readable id') : db.Readable id' := by
  intro name s hs
  by_cases heq : (id', name) = key
  · exact hkey s (heq ▸ hs)
  · refine hreadable name s ?_
    rw [h, Content.put, Function.update_of_ne heq]
    exact hs

/-- What a safe edit needs. -/
theorem room_of_safe (hdistinct : db.SlotsDistinct) (hrow : db.items.find? (id, name) = some row)
    (hitem : (buildItem client row).Returns db item db)
    (h : EditSafe client id name quantity acquired item db) :
    (∀ id' ∈ db.localLists, db.Readable id') ∧ SumsFitEdit quantity item := by
  have hid := listed_of_safe h
  obtain ⟨-, hread⟩ := buildItem_spec hitem
  obtain ⟨db', hreturns⟩ := handleItemStorageRequest_returns hrow hitem h.noWrap
  obtain ⟨hdistinct', cast, item', hedited, hput⟩ := handleItemStorageRequest_spec hdistinct hreturns
  have hlists := handleItemStorageRequest_localLists hreturns
  rw [if_pos hid] at hlists
  obtain ⟨hview, hfits⟩ := view_of_edited (content_eq_some hrow ▸ hedited) hread h.noWrap
  rw [hedited.put_eq hfits] at hput
  rcases h.outcome (.calm db) (.calm db') (.ok ()) rfl hreturns with
    ⟨e, he, -⟩ | ⟨-, ⟨l, i, hl, hi, hvalue⟩, hreadable⟩
  · cases he
  · refine ⟨fun id' hid' => readable_of_put hput (fun s hs => ?_) ?_, ?_⟩
    · rw [content_eq_some hrow] at hs
      cases hs
      exact hread.nonneg
    · refine (getUserLists_iff client db').1 hreadable id' ?_
      rw [hlists]
      exact hid'
    · have hiview : i.view = item'.view := by
        have hshown := (readShoppingList_view hl name).trans (view_of_edit hedited hput)
        unfold AWORMap.view at hshown
        rw [hi] at hshown
        exact Option.some.inj hshown
      obtain ⟨hp, hn⟩ := totals_of_edited (hiview.trans hview)
      have hsub := sumP_sub_sumN quantity item.amount
      have hpLt := h.noWrap.pCast.2
      have hnLt := h.noWrap.nCast.2
      have hnAfter : sumN quantity item.amount < 2 ^ 63 := by
        unfold sumN deltaOf
        omega
      have hpAfter := (valueTotal_eq_iff (by rw [hp, hn, hsub]) (by omega)).1 hvalue
      exact ⟨by omega, by omega, by omega, hnAfter⟩

/-- What is enough for a safe edit. -/
theorem safe_of_room (hdistinct : db.SlotsDistinct) (hrow : db.items.find? (id, name) = some row)
    (hitem : (buildItem client row).Returns db item db) (hid : id ∈ db.localLists)
    (hreadable : ∀ id' ∈ db.localLists, db.Readable id') (hsums : SumsFitEdit quantity item)
    (hclock : acquired.toNat ≠ item.acquired.val → item.acquired.clock + 1 < 2 ^ 32) :
    EditSafe client id name quantity acquired item db := by
  have hwrap : NoWrap client quantity acquired item := hsums.noWrap hclock
  obtain ⟨-, hread⟩ := buildItem_spec hitem
  refine ⟨hwrap, fun c c' r hc hrun => ?_⟩
  subst hc
  cases r with
  | panic =>
    have hpanic := edit_ne_panic hid hrow hitem hwrap (c := c) rfl
    rw [hrun] at hpanic
    exact absurd rfl hpanic
  | err e =>
    refine Or.inl ⟨e, rfl, ?_⟩
    rcases handleItemStorageRequest_rollback hrun (fun _ => nofun) with hkeep | hensure
    · exact hkeep
    · exact (ensureList_localLists hensure).2 hid
  | ok u =>
    have hreturns := returns_of_run hrun
    obtain ⟨hdistinct', cast, item', hedited, hput⟩ := handleItemStorageRequest_spec hdistinct hreturns
    obtain ⟨hview, hfits⟩ := view_of_edited (content_eq_some hrow ▸ hedited) hread hwrap
    rw [hedited.put_eq hfits] at hput
    have hset := isSet_of_edited hview hsums.pAfter
    obtain ⟨l, hl⟩ := readShoppingList_returns client (readable_put hput (hreadable id hid))
    have hshown : l.list.view name = some item'.view :=
      (readShoppingList_view hl name).trans (view_of_edit hedited hput)
    obtain ⟨i, hi, hiview⟩ := Option.map_eq_some_iff.1 hshown
    refine Or.inr ⟨rfl, ⟨l, i, hl, hi, (hset.congr hiview).valueTotal⟩,
      (getUserLists_iff client c'.db).2 fun id' hid' => readable_put hput (hreadable id' ?_)⟩
    rw [handleItemStorageRequest_localLists hreturns, if_pos hid] at hid'
    exact hid'

end Safe

/-- **Exactly which quantities cannot corrupt the store.** -/
theorem edit_safe_iff {client id : Uuid} {name : String} {quantity : ℕ} {acquired : Bool}
    {db : ClientDb} {row : StoredItemRow} {item : Item} (hreach : Reachable client (fun _ => True) db)
    (hrow : (readItem name id).Returns db (some row) db)
    (hitem : (buildItem client row.toItemRow).Returns db item db) :
    EditSafe client id name quantity acquired item db ↔
      id ∈ db.localLists ∧ (∃ lists db', (getUserLists client).Returns db lists db') ∧
        item.amount.p.counter.total < 2 ^ 63 ∧ quantity + item.amount.n.counter.total < 2 ^ 63 ∧
        (acquired.toNat ≠ item.acquired.val → item.acquired.clock + 1 < 2 ^ 32) := by
  have hfind : db.items.find? (id, name) = some row.toItemRow := by
    obtain ⟨hselect, -⟩ := returns_query.1 hrow
    obtain ⟨row', hrow', rfl⟩ := Option.map_eq_some_iff.1 (Except.ok.inj hselect)
    exact hrow'
  rw [getUserLists_iff]
  constructor
  · intro h
    obtain ⟨hreadable, hsums⟩ := room_of_safe hreach.slotsDistinct hfind hitem h
    obtain ⟨hp, hn⟩ := sumsFitEdit_iff.1 hsums
    exact ⟨listed_of_safe h, hreadable, hp, hn, h.noWrap.clock⟩
  · rintro ⟨hid, hreadable, hp, hn, hclock⟩
    exact safe_of_room hreach.slotsDistinct hfind hitem hid hreadable (sumsFitEdit_iff.2 ⟨hp, hn⟩) hclock

/-- Two milks can be raised to as many as an `i64` holds. -/
theorem edit_safe_iff_milk :
    ∃ (row : StoredItemRow) (item : Item), (readItem "milk" ⟨101⟩).Returns milkStore (some row) milkStore ∧
      (buildItem ⟨201⟩ row.toItemRow).Returns milkStore item milkStore ∧
      EditSafe ⟨201⟩ ⟨101⟩ "milk" 9223372036854775807 false item milkStore := by
  have hrow : (readItem "milk" ⟨101⟩).Returns milkStore (some ⟨⟨1, 0, 0, ⟨201⟩, 1, 2⟩, "milk"⟩) milkStore :=
    rfl
  have hitem : (buildItem ⟨201⟩ ⟨1, 0, 0, ⟨201⟩, 1, 2⟩).Returns milkStore (Item.new 2 false ⟨201⟩)
      milkStore := rfl
  obtain ⟨lists, hlists⟩ : ∃ lists, (getUserLists ⟨201⟩).Returns milkStore lists milkStore := ⟨_, rfl⟩
  exact ⟨_, _, hrow, hitem, (edit_safe_iff Client.milkStore_any hrow hitem).2
    ⟨by decide +kernel, ⟨lists, _, hlists⟩, by decide, by decide, by decide⟩⟩

/-- One milk is left of two. -/
def loweredMilk : ClientDb := afterEdit ⟨201⟩ 1 milkStore

/-- Set to `2^63 - 1`, the milk has `2^63` increments, which are stored as a negative count. -/
theorem quantity_hides_list :
    ¬ ∀ client id name quantity acquired db (row : StoredItemRow) item,
      Reachable client (fun _ => True) db → (readItem name id).Returns db (some row) db →
      (buildItem client row.toItemRow).Returns db item db → 1 ≤ quantity → quantity < 2 ^ 64 →
      EditSafe client id name quantity acquired item db := by
  intro h
  have hreach : Reachable ⟨201⟩ (fun _ => True) loweredMilk :=
    .edit (c := .calm milkStore) Client.milkStore_any (fun _ _ _ => trivial) (Prod.ext rfl rfl)
  have hrow : (readItem "milk" ⟨101⟩).Returns loweredMilk (some ⟨⟨1, 0, 0, ⟨201⟩, 1, 2⟩, "milk"⟩)
      loweredMilk := rfl
  obtain ⟨item, hitem⟩ : ∃ item, (buildItem ⟨201⟩ ⟨1, 0, 0, ⟨201⟩, 1, 2⟩).Returns loweredMilk item
      loweredMilk := ⟨_, rfl⟩
  have hsafe := h ⟨201⟩ ⟨101⟩ "milk" 9223372036854775807 false loweredMilk _ item hreach hrow hitem
    (by decide) (by decide)
  have hok : ((handleItemStorageRequest ⟨201⟩ "milk" 9223372036854775807 false ⟨101⟩).run
      (.calm loweredMilk)).1 = .ok () := by decide +kernel
  have hhidden : ((readShoppingList ⟨201⟩ ⟨101⟩).run (.calm
      (afterEdit ⟨201⟩ 9223372036854775807 loweredMilk))).1 = .err .fromSql := by decide +kernel
  rcases hsafe.outcome (.calm loweredMilk) _ _ rfl (Prod.ext hok rfl) with
    ⟨e, he, -⟩ | ⟨-, ⟨l, i, hread, -⟩, -⟩
  · cases he
  · rw [show (readShoppingList ⟨201⟩ ⟨101⟩).run (.calm
      (afterEdit ⟨201⟩ 9223372036854775807 loweredMilk)) = _ from hread] at hhidden
    cases hhidden

end Sdle
