import Sdle.Client
import Sdle.Lib.Histories
import Mathlib.Algebra.BigOperators.Ring.Finset

/-!
# Replicas of a list at many clients

Any number of clients, told apart by their ids, each with a store of its own.  A step is an edit by
`handle_item_storage_request` or a refresh by `retrieve_list`; a refresh is answered with a list
that some client could read at some earlier moment of the run, or with what the servers merge of
such lists.  The fleet remembers the edits that returned, and for each client and list the edits
that its state descends from.

* `stateOf` — what a set of edits stands for.
* `strong_eventual_consistency` — **the list of a client is a function of its causal history**: its
  items are those edited, the total of an item is the sum of the deltas, and its register is the
  newest one written.
-/

set_option autoImplicit false

namespace Sdle

open Sql Sql.Call ClientStorage ClientDb Histories

/-! ## Edits -/

/-- A call of `handle_item_storage_request` that returned: what it was asked for, the difference
that it made to the total, the register that it wrote, and the edits that it had observed. -/
structure Edit where
  serial : ℕ
  client : Uuid
  list : Uuid
  name : String
  quantity : ℕ
  created : Bool
  delta : ℤ
  register : Option (LWWReg Uuid)
  past : Finset ℕ
  deriving DecidableEq

/-- The difference that an edit makes to the total of an item without overflow. -/
def deltaOf (quantity : ℕ) (amount : PNCounter) : ℤ :=
  quantity - ((amount.p.counter.total : ℤ) - amount.n.counter.total)

/-- The register that an edit writes, if it changes the value. -/
def writtenBy (client : Uuid) (acquired : Bool) (stored : LWWReg Uuid) : Option (LWWReg Uuid) :=
  if acquired.toNat ≠ stored.val then some ⟨acquired.toNat, stored.clock + 1, client⟩ else none

namespace Edit

/-- The edit of the item that the client has read, if there is one. -/
def of (serial : ℕ) (client list : Uuid) (name : String) (quantity : ℕ) (acquired : Bool)
    (past : Finset ℕ) : Option Item → Edit
  | none =>
    { serial, client, list, name, quantity, past
      created := true
      delta := quantity
      register := some ⟨acquired.toNat, 0, client⟩ }
  | some item =>
    { serial, client, list, name, quantity, past
      created := false
      delta := deltaOf quantity item.amount
      register := writtenBy client acquired item.acquired }

/-- What the edit adds to the `p` count of its client. -/
def p (e : Edit) : Option ℕ :=
  if e.created = true ∨ 0 < e.delta then some e.delta.toNat else none

/-- What the edit adds to the `n` count of its client. -/
def n (e : Edit) : Option ℕ :=
  if e.created = true then some 0 else if e.delta < 0 then some (-e.delta).toNat else none

/-- `e` had observed `e'`. -/
def Before (e' e : Edit) : Prop := e'.serial ∈ e.past

end Edit

/-- The greatest register write of the edits of one item. -/
abbrev NewestWrite (S : Finset Edit) (r : LWWReg Uuid) : Prop :=
  Newest Edit.register LWWReg.stamp S r

/-- The edits of one item. -/
def editsOf (H : Finset Edit) (name : String) : Finset Edit := H.filter (·.name = name)

open Classical in
/-- What a history of one list stands for. -/
noncomputable def stateOf (H : Finset Edit) (name : String) : Option Item.View :=
  if ∃ e ∈ H, e.name = name then
    some {
      p := fun a => tally Edit.p ((editsOf H name).filter (·.client = a))
      n := fun a => tally Edit.n ((editsOf H name).filter (·.client = a))
      acquired := Classical.epsilon (h := ⟨⟨0, 0, ⟨0⟩⟩⟩) (NewestWrite (editsOf H name)) }
  else none

/-! ## Runs -/

/-- The stores of all clients, the edits made so far, and the causal history of each list at each
client. -/
structure Fleet where
  db : Uuid → ClientDb
  edits : Finset Edit
  known : Uuid → Uuid → Finset Edit

namespace Fleet

/-- Every client has an empty store. -/
def start : Fleet := ⟨fun _ => .empty, ∅, fun _ _ => ∅⟩

end Fleet

/-- The sums of the counts stay below `2^63`. -/
def Item.NoOverflow (item : Item) : Prop :=
  item.amount.p.counter.total < 2 ^ 63 ∧ item.amount.n.counter.total < 2 ^ 63

/-- The states of the list `id` that a refresh can be answered with after the moments of `past`:
what some client read at one of them, and what the servers merge of such states.  Each comes with
its causal history. -/
inductive Produced (past : List Fleet) (id : Uuid) : ShoppingList → Finset Edit → Prop
  | read (w₀ : Fleet) (client : Uuid) {s : ShoppingList} (hw₀ : w₀ ∈ past)
      (hs : (readShoppingList client id).Returns (w₀.db client) s (w₀.db client)) :
      Produced past id s (w₀.known client id)
  | merge {s t : ShoppingList} {H K : Finset Edit} (hs : Produced past id s H)
      (ht : Produced past id t K) : Produced past id ⟨s.id, s.list.merge t.list⟩ (H ∪ K)

/-- A step of one client, after the moments of `past`: an edit that is `allowed`, or a refresh.  An
item is stored only if it `fits`. -/
inductive FleetStep (allowed : Fleet → Edit → Prop) (fits : Item → Prop) (past : List Fleet) :
    Fleet → Fleet → Prop
  | edit {w : Fleet} {client id : Uuid} {name : String} {quantity : ℕ} {acquired : Bool}
      {c c' : Conn ClientDb StorageError} {l : ShoppingList} {e : Edit}
      (hdb : c.db = w.db client) (hquantity : quantity < 2 ^ 63)
      (hread : (readShoppingList client id).Returns c.db l c.db)
      (he : e = .of w.edits.card client id name quantity acquired
        ((w.known client id).image Edit.serial) (l.list.items.find? name))
      (hallowed : allowed w e)
      (hfits : ∀ cast item,
        Edited client quantity acquired (c.db.content (id, name)) cast item → fits item)
      (hrun : (handleItemStorageRequest client name quantity acquired id).run c = (.ok (), c')) :
      FleetStep allowed fits past w
        { db := Function.update w.db client c'.db
          edits := insert e w.edits
          known := Function.update w.known client
            (Function.update (w.known client) id (insert e (w.known client id))) }
  | editFails {w : Fleet} {client id : Uuid} {name : String} {quantity : ℕ} {acquired : Bool}
      {c c' : Conn ClientDb StorageError} {r : Outcome StorageError Unit}
      (hdb : c.db = w.db client)
      (hrun : (handleItemStorageRequest client name quantity acquired id).run c = (r, c'))
      (hr : r ≠ .ok ()) :
      FleetStep allowed fits past w { w with db := Function.update w.db client c'.db }
  | refresh {w : Fleet} {client id : Uuid} {e : Exchange} {s l : ShoppingList} {H : Finset Edit}
      {c c₁ c' : Conn ClientDb StorageError} {r : Outcome ClientError ShoppingListInterface}
      (hdb : c.db = w.db client) (hs : Produced past id s H)
      (hack : e.ackList = some s)
      (hrun : Client.retrieveList client e id c = (r, c'))
      (hread : (readShoppingList client id).run c = (.ok l, c₁))
      (hstored : ((writeShoppingList (writtenList l s)).run c₁).1 = .ok ())
      (hfits : ∀ name item, (writtenList l s).list.items.find? name = some item → fits item) :
      FleetStep allowed fits past w
        { w with
          db := Function.update w.db client c'.db
          known := Function.update w.known client
            (Function.update (w.known client) id (w.known client id ∪ H)) }
  | refreshKeeps {w : Fleet} {client id : Uuid} {e : Exchange}
      {c c' : Conn ClientDb StorageError} {r : Outcome ClientError ShoppingListInterface}
      (hdb : c.db = w.db client)
      (hrun : Client.retrieveList client e id c = (r, c'))
      (hkeep : ∀ l s c₁, (readShoppingList client id).run c = (.ok l, c₁) → e.ackList = some s →
        ((writeShoppingList (writtenList l s)).run c₁).1 ≠ .ok ()) :
      FleetStep allowed fits past w { w with db := Function.update w.db client c'.db }

/-- The runs of the clients: the fleet reached, and the moments before it. -/
inductive FleetRun (allowed : Fleet → Edit → Prop) (fits : Item → Prop) : Fleet → List Fleet → Prop
  | start : FleetRun allowed fits .start []
  | step {w w' : Fleet} {past : List Fleet} (hrun : FleetRun allowed fits w past)
      (hstep : FleetStep allowed fits (w :: past) w w') : FleetRun allowed fits w' (w :: past)

/-! ## What a history says of a state -/

/-- `o` is what the edits `S` of one item stand for. -/
def Describes (S : Finset Edit) : Option Item.View → Prop
  | none => S = ∅
  | some v =>
    (∀ a, v.p a = tally Edit.p (S.filter (·.client = a))) ∧
      (∀ a, v.n a = tally Edit.n (S.filter (·.client = a))) ∧ NewestWrite S v.acquired

/-- `H` is a causal history of the list `id` among the edits `E`, and `m` is what it stands for. -/
structure Observed (E : Finset Edit) (id : Uuid) (H : Finset Edit)
    (m : String → Option Item.View) : Prop where
  sub : H ⊆ E
  list : ∀ e ∈ H, e.list = id
  closed : Closed Edit.Before E H
  items : ∀ name, Describes (editsOf H name) (m name)

/-- What holds of the edits made. -/
structure EditsOk (E : Finset Edit) : Prop where
  serialLt : ∀ e ∈ E, e.serial < E.card
  serialInj : ∀ e ∈ E, ∀ e' ∈ E, e.serial = e'.serial → e = e'
  pastLt : ∀ e ∈ E, ∀ s ∈ e.past, s < e.serial
  chain : ∀ e ∈ E, ∀ e' ∈ E, e.client = e'.client → e.list = e'.list → e'.serial < e.serial →
    e'.Before e
  createdNonneg : ∀ e ∈ E, e.created = true → 0 ≤ e.delta
  actor : ∀ e ∈ E, ∀ r, e.register = some r → r.actor = e.client
  unique : ∀ e ∈ E, ∀ e' ∈ E, e.list = e'.list → e.name = e'.name → ∀ r q,
    e.register = some r → e'.register = some q → r.stamp = q.stamp → e = e'
  observed : ∀ e ∈ E, ∀ e' ∈ E, e'.name = e.name → e'.Before e → ∀ r q,
    e.register = some r → e'.register = some q → q.clock < r.clock

theorem editsOf_union (H K : Finset Edit) (name : String) :
    editsOf (H ∪ K) name = editsOf H name ∪ editsOf K name :=
  Finset.filter_union _ _ _

theorem mem_editsOf {H : Finset Edit} {name : String} {e : Edit} :
    e ∈ editsOf H name ↔ e ∈ H ∧ e.name = name :=
  Finset.mem_filter

/-- The edits of one client in two histories of a list are comparable. -/
theorem Observed.comparable {E H K : Finset Edit} {id : Uuid} {m m' : String → Option Item.View}
    (hE : EditsOk E) (hH : Observed E id H m) (hK : Observed E id K m') (name : String) (a : Uuid) :
    (editsOf H name).filter (·.client = a) ⊆ (editsOf K name).filter (·.client = a) ∨
      (editsOf K name).filter (·.client = a) ⊆ (editsOf H name).filter (·.client = a) := by
  have hfilter : ∀ {J : Finset Edit}, (∀ e ∈ J, e.list = id) →
      (editsOf J name).filter (·.client = a) =
        J.filter fun e => e.list = id ∧ e.name = name ∧ e.client = a := by
    intro J hJ
    ext e
    simp only [Finset.mem_filter, mem_editsOf]
    exact ⟨fun h => ⟨h.1.1, hJ e h.1.1, h.1.2, h.2⟩, fun h => ⟨⟨h.1, h.2.2.1⟩, h.2.2.2⟩⟩
  rw [hfilter hH.list, hfilter hK.list]
  refine hH.closed.comparable hK.closed hH.sub hK.sub _ fun e he e' he' hp hp' => ?_
  rcases lt_trichotomy e.serial e'.serial with hlt | heq | hlt
  · exact Or.inr (Or.inl (hE.chain e' he' e he (hp'.2.2.trans hp.2.2.symm)
      (hp'.1.trans hp.1.symm) hlt))
  · exact Or.inl (hE.serialInj e he e' he' heq)
  · exact Or.inr (Or.inr (hE.chain e he e' he' (hp.2.2.trans hp'.2.2.symm)
      (hp.1.trans hp'.1.symm) hlt))

/-- **The merge of two states stands for the union of their histories.** -/
theorem Observed.union {E H K : Finset Edit} {id : Uuid} {m m' : String → Option Item.View}
    (hE : EditsOk E) (hH : Observed E id H m) (hK : Observed E id K m') :
    Observed E id (H ∪ K) fun name => AWORMap.mergeView (m name) (m' name) := by
  refine ⟨Finset.union_subset hH.sub hK.sub, fun e he => ?_, hH.closed.union hK.closed,
    fun name => ?_⟩
  · rcases Finset.mem_union.1 he with he | he
    · exact hH.list e he
    · exact hK.list e he
  · have hcomp := hH.comparable hE hK name
    have hm := hH.items name
    have hm' := hK.items name
    rw [editsOf_union]
    cases hv : m name with
    | none =>
      rw [hv] at hm
      cases hw : m' name with
      | none =>
        rw [hw] at hm'
        rw [show editsOf H name = ∅ from hm, show editsOf K name = ∅ from hm', Finset.union_empty]
        rfl
      | some w =>
        rw [hw] at hm'
        rw [show editsOf H name = ∅ from hm, Finset.empty_union]
        exact hm'
    | some v =>
      rw [hv] at hm
      cases hw : m' name with
      | none =>
        rw [hw] at hm'
        rw [show editsOf K name = ∅ from hm', Finset.union_empty]
        exact hm
      | some w =>
        rw [hw] at hm'
        obtain ⟨hp, hn, hr⟩ := hm
        obtain ⟨hp', hn', hr'⟩ := hm'
        refine ⟨fun a => ?_, fun a => ?_, ?_⟩
        · rw [Finset.filter_union, tally_union (hcomp a), ← hp a, ← hp' a]
          rfl
        · rw [Finset.filter_union, tally_union (hcomp a), ← hn a, ← hn' a]
          rfl
        · have hunion := hr.union hr'
          rw [← LWWReg.merge_eq] at hunion
          exact hunion

/-- A history that was made earlier is one now. -/
theorem Observed.grow {E H : Finset Edit} {id : Uuid} {m : String → Option Item.View}
    (hE : EditsOk E) (hH : Observed E id H m) {x : Edit} (hx : x.serial = E.card) :
    Observed (insert x E) id H m := by
  refine ⟨hH.sub.trans (Finset.subset_insert x E), hH.list, hH.closed.grow fun e he hb => ?_,
    hH.items⟩
  have hlt := (hE.pastLt e (hH.sub he) x.serial hb).trans (hE.serialLt e (hH.sub he))
  omega

/-! ## What an edit does -/

theorem count_incBy {g g' : GCounter} {n : ℕ} (h : g.incBy n = some g') :
    g'.count = Function.update g.count g.actorId
      (((g.count g.actorId).unbotD 0 + n : ℕ) : WithBot ℕ) := by
  unfold GCounter.incBy at h
  dsimp only at h
  split at h
  · cases h
    have hnew : ((g.counter.find? g.actorId).getD 0 + n : ℕ) = (g.count g.actorId).unbotD 0 + n := by
      unfold GCounter.count
      cases g.counter.find? g.actorId <;> rfl
    rw [hnew]
    funext a
    by_cases ha : a = g.actorId
    · rw [ha]
      exact (FinMap.find?_insert_self _ _ _).trans
        (Function.update_self g.actorId _ g.count).symm
    · exact (FinMap.find?_insert_ne _ _ ha).trans (Function.update_of_ne ha _ g.count).symm
  · cases h

/-- The counts that one more edit makes of the counts `f` of its item. -/
def bump (f : Uuid → WithBot ℕ) (client : Uuid) : Option ℕ → Uuid → WithBot ℕ
  | none => f
  | some n => Function.update f client (((f client).unbotD 0 + n : ℕ) : WithBot ℕ)

theorem bump_some_self (f : Uuid → WithBot ℕ) (client : Uuid) (n : ℕ) :
    bump f client (some n) client = (((f client).unbotD 0 + n : ℕ) : WithBot ℕ) :=
  Function.update_self client _ f

theorem bump_of_ne (f : Uuid → WithBot ℕ) {client a : Uuid} (x : Option ℕ) (h : a ≠ client) :
    bump f client x a = f a := by
  cases x with
  | none => rfl
  | some n => exact Function.update_of_ne h _ f

theorem le_bump (f : Uuid → WithBot ℕ) (client : Uuid) (x : Option ℕ) : f ≤ bump f client x := by
  intro a
  by_cases ha : a = client
  · cases x with
    | none => exact le_rfl
    | some n =>
      rw [ha, bump_some_self]
      cases f client with
      | bot => exact bot_le
      | coe y => exact WithBot.coe_le_coe.2 (Nat.le_add_right y n)
  · rw [bump_of_ne f x ha]

theorem tally_bump {f : Edit → Option ℕ} {S : Finset Edit} {e : Edit} (he : e ∉ S) (a : Uuid) :
    tally f ((insert e S).filter (·.client = a)) =
      bump (fun a => tally f (S.filter (·.client = a))) e.client (f e) a := by
  by_cases ha : a = e.client
  · rw [Finset.filter_insert, if_pos ha.symm, ha]
    cases hfe : f e with
    | none => exact tally_insert_none hfe
    | some n =>
      exact (tally_insert_some (fun h => he (Finset.mem_filter.1 h).1) hfe).trans
        (bump_some_self (fun a => tally f (S.filter (·.client = a))) e.client n).symm
  · rw [Finset.filter_insert, if_neg (Ne.symm ha), bump_of_ne _ _ ha]

/-- What an edit adds to the `p` count of its client, and what to the `n` count. -/
def raised (delta : ℤ) : Option ℕ := if 0 < delta then some delta.toNat else none

def lowered (delta : ℤ) : Option ℕ := if delta < 0 then some (-delta).toNat else none

theorem asU64_of_pos {x : ℤ} (h₀ : 0 < x) (h : x < 2 ^ 64) : asU64 x = x.toNat := by
  have hcast := asU64_of_nonneg h₀.le h
  omega

/-- **The pncounter mutations of an edit**, where nothing overflows. -/
theorem count_editAmount {quantity : ℕ} {amount amount' : PNCounter} {client : Uuid}
    (hp : amount.p.counter.total < 2 ^ 63) (hn : amount.n.counter.total < 2 ^ 63)
    (hquantity : quantity < 2 ^ 63) (hpActor : amount.p.actorId = client)
    (hnActor : amount.n.actorId = client) (h : editAmount quantity amount = some amount') :
    amount'.p.count = bump amount.p.count client (raised (deltaOf quantity amount)) ∧
      amount'.n.count = bump amount.n.count client (lowered (deltaOf quantity amount)) := by
  unfold editAmount at h
  rw [PNCounter.valueTotal_of_lt hp hn, asI64_of_lt hquantity] at h
  obtain ⟨current, hcurrent, h⟩ := Option.bind_eq_some_iff.1 h
  cases hcurrent
  obtain ⟨delta, hdelta, hamount⟩ := Option.bind_eq_some_iff.1 h
  unfold checkedI64 at hdelta
  split at hdelta
  · rename_i hrange
    cases hdelta
    change (if 0 < deltaOf quantity amount then amount.incBy (asU64 (deltaOf quantity amount))
      else if deltaOf quantity amount < 0 then
        (checkedI64 (-deltaOf quantity amount)).bind fun n => amount.decBy (asU64 n)
      else some amount) = some amount' at hamount
    have hlt : deltaOf quantity amount < 2 ^ 63 := hrange.2
    generalize deltaOf quantity amount = delta at hamount hlt
    unfold raised lowered
    split at hamount
    · rename_i hpos
      rw [if_pos hpos, if_neg (by omega)]
      obtain ⟨g, hg, rfl⟩ := Option.map_eq_some_iff.1 hamount
      refine ⟨?_, rfl⟩
      have hcount := count_incBy hg
      rw [hpActor, asU64_of_pos hpos (by omega)] at hcount
      exact hcount
    · split at hamount
      · rename_i hpos hneg
        rw [if_neg hpos, if_pos hneg]
        obtain ⟨x, hx, hdec⟩ := Option.bind_eq_some_iff.1 hamount
        unfold checkedI64 at hx
        split at hx
        · rename_i hrange'
          cases hx
          obtain ⟨g, hg, rfl⟩ := Option.map_eq_some_iff.1 hdec
          refine ⟨rfl, ?_⟩
          have hcount := count_incBy hg
          rw [hnActor, asU64_of_pos (by omega) (by omega)] at hcount
          exact hcount
        · cases hx
      · rename_i hpos hneg
        rw [if_neg hpos, if_neg hneg]
        cases hamount
        exact ⟨rfl, rfl⟩
  · cases hdelta

theorem editAcquired_eq {client : Uuid} {acquired : Bool} {stored reg : LWWReg Uuid}
    (h : editAcquired client acquired stored = some reg) :
    reg = (writtenBy client acquired stored).getD stored ∧ stored.merge reg = reg := by
  unfold editAcquired at h
  unfold writtenBy
  split at h
  · rename_i hval
    split at h
    · cases h
      rw [if_pos hval]
      refine ⟨rfl, ?_⟩
      rw [LWWReg.merge_eq, if_pos]
      exact Prod.Lex.toLex_lt_toLex.2 (Or.inl (Nat.lt_succ_self _))
    · cases h
  · rename_i hval
    cases h
    rw [if_neg hval]
    exact ⟨rfl, by rw [LWWReg.merge_eq, if_neg (lt_irrefl _)]⟩

/-- **What an edit makes of an item**, where nothing overflows. -/
theorem view_editItem {client : Uuid} {quantity : ℕ} {acquired : Bool} {item item' : Item}
    (hover : item.NoOverflow) (hquantity : quantity < 2 ^ 63)
    (hpActor : item.amount.p.actorId = client) (hnActor : item.amount.n.actorId = client)
    (h : editItem client quantity acquired item = some item') :
    item'.view = {
      p := bump item.view.p client (raised (deltaOf quantity item.amount))
      n := bump item.view.n client (lowered (deltaOf quantity item.amount))
      acquired := (writtenBy client acquired item.acquired).getD item.acquired } := by
  obtain ⟨amount, register, hamount, hregister, rfl⟩ := editItem_eq_some.1 h
  obtain ⟨hp, hn⟩ := count_editAmount hover.1 hover.2 hquantity hpActor hnActor hamount
  obtain ⟨hreg, hmerge⟩ := editAcquired_eq hregister
  rw [Item.view_merge]
  unfold Item.View.merge Item.view
  dsimp only
  rw [hp, hn, hmerge, hreg, sup_eq_right.2 (le_bump _ _ _), sup_eq_right.2 (le_bump _ _ _)]

/-- `v` is what the edit `e` makes of the item `old`. -/
structure Edit.Makes (e : Edit) (old : Option Item.View) (v : Item.View) : Prop where
  p : v.p = bump (old.elim ⊥ Item.View.p) e.client e.p
  n : v.n = bump (old.elim ⊥ Item.View.n) e.client e.n
  written : ∀ r, e.register = some r → v.acquired = r ∧ r.actor = e.client ∧
    ∀ o, old = some o → o.acquired.clock < r.clock
  kept : e.register = none → ∃ o, old = some o ∧ v.acquired = o.acquired
  createdNonneg : e.created = true → 0 ≤ e.delta

/-- An edit of an item that is not stored makes a new item. -/
theorem makes_created (serial : ℕ) (client id : Uuid) (name : String) (quantity : ℕ) (acquired : Bool)
    (past : Finset ℕ) :
    (Edit.of serial client id name quantity acquired past none).Makes none
      (Item.new quantity acquired client).view := by
  have hcount : ∀ n a, (GCounter.withCount client n).count a = bump ⊥ client (some n) a := by
    intro n a
    by_cases ha : a = client
    · rw [ha, bump_some_self]
      exact (FinMap.find?_insert_self _ _ _).trans (congrArg some (Nat.zero_add n).symm)
    · rw [bump_of_ne _ _ ha]
      exact (FinMap.find?_insert_ne _ _ ha).trans (FinMap.find?_empty a)
  refine ⟨funext (hcount quantity), funext (hcount 0), fun r hr => ?_, (fun h => nomatch h),
    fun _ => Int.natCast_nonneg quantity⟩
  cases hr
  exact ⟨rfl, rfl, fun o ho => nomatch ho⟩

theorem p_of_some (serial : ℕ) (client id : Uuid) (name : String) (quantity : ℕ) (acquired : Bool)
    (past : Finset ℕ) (item : Item) :
    (Edit.of serial client id name quantity acquired past (some item)).p =
      raised (deltaOf quantity item.amount) := by
  simp [Edit.p, Edit.of, raised]

theorem n_of_some (serial : ℕ) (client id : Uuid) (name : String) (quantity : ℕ) (acquired : Bool)
    (past : Finset ℕ) (item : Item) :
    (Edit.of serial client id name quantity acquired past (some item)).n =
      lowered (deltaOf quantity item.amount) :=
  if_neg Bool.false_ne_true

/-- An edit of a stored item. -/
theorem makes_changed {client : Uuid} {quantity : ℕ} {acquired : Bool} {item item' read : Item}
    (serial : ℕ) (id : Uuid) (name : String) (past : Finset ℕ) (hread : read.view = item.view)
    (hover : item.NoOverflow) (hquantity : quantity < 2 ^ 63)
    (hpActor : item.amount.p.actorId = client) (hnActor : item.amount.n.actorId = client)
    (h : editItem client quantity acquired item = some item') :
    (Edit.of serial client id name quantity acquired past (some read)).Makes (some item.view)
      item'.view := by
  have hdelta : deltaOf quantity read.amount = deltaOf quantity item.amount := by
    unfold deltaOf
    rw [GCounter.total_of_count (congrArg Item.View.p hread),
      GCounter.total_of_count (congrArg Item.View.n hread)]
  have hreg : read.acquired = item.acquired := congrArg Item.View.acquired hread
  have hview := view_editItem hover hquantity hpActor hnActor h
  refine ⟨?_, ?_, fun r hr => ?_, fun hnone => ⟨item.view, rfl, ?_⟩, (fun h => nomatch h)⟩
  · rw [hview, p_of_some, hdelta]
    rfl
  · rw [hview, n_of_some, hdelta]
    rfl
  · change writtenBy client acquired read.acquired = some r at hr
    rw [hreg] at hr
    rw [hview, hr]
    unfold writtenBy at hr
    split at hr
    · cases hr
      refine ⟨rfl, rfl, fun o ho => ?_⟩
      cases ho
      exact Nat.lt_succ_self _
    · cases hr
  · change writtenBy client acquired read.acquired = none at hnone
    rw [hreg] at hnone
    rw [hview, hnone]
    rfl

theorem tally_empty (f : Edit → Option ℕ) : tally f ∅ = ⊥ :=
  if_neg fun ⟨e, he, _⟩ => Finset.notMem_empty e he

/-- What is told of the item before the edit. -/
theorem Describes.counts {S : Finset Edit} {o : Option Item.View} (h : Describes S o) :
    (fun a => tally Edit.p (S.filter (·.client = a))) = o.elim ⊥ Item.View.p ∧
      (fun a => tally Edit.n (S.filter (·.client = a))) = o.elim ⊥ Item.View.n ∧
      ∀ e ∈ S, ∀ q, e.register = some q → ∃ v, o = some v ∧ q.stamp ≤ v.acquired.stamp := by
  cases o with
  | none =>
    rw [show S = ∅ from h]
    exact ⟨funext fun a => tally_empty _, funext fun a => tally_empty _,
      fun e he => absurd he (Finset.notMem_empty e)⟩
  | some v =>
    obtain ⟨hp, hn, hr⟩ := h
    exact ⟨funext fun a => (hp a).symm, funext fun a => (hn a).symm,
      fun e he q hq => ⟨v, rfl, hr.le e he q hq⟩⟩

theorem stamp_lt_of_clock {r q : LWWReg Uuid} (h : r.clock < q.clock) : r.stamp < q.stamp :=
  Prod.Lex.toLex_lt_toLex.2 (Or.inl h)

theorem clock_le_of_stamp {r q : LWWReg Uuid} (h : r.stamp ≤ q.stamp) : r.clock ≤ q.clock := by
  rcases Prod.Lex.toLex_le_toLex.1 h with hlt | ⟨heq, -⟩
  · exact hlt.le
  · exact heq.le

/-- The history of the item, after the edit. -/
theorem Describes.add {S : Finset Edit} {o : Option Item.View} (h : Describes S o) {e : Edit}
    (he : e ∉ S) {v : Item.View} (hmakes : e.Makes o v) : Describes (insert e S) (some v) := by
  obtain ⟨hp, hn, hle⟩ := h.counts
  refine ⟨fun a => ?_, fun a => ?_, ?_⟩
  · rw [tally_bump he, hp, ← hmakes.p]
  · rw [tally_bump he, hn, ← hmakes.n]
  · cases hr : e.register with
    | none =>
      obtain ⟨v', rfl, hkept⟩ := hmakes.kept hr
      rw [hkept]
      exact h.2.2.insert_none hr
    | some r =>
      obtain ⟨hv, -, hclock⟩ := hmakes.written r hr
      rw [hv]
      refine newest_insert (fun x hx q hq => ?_) hr
      obtain ⟨v', hv', hq⟩ := hle x hx q hq
      exact hq.trans (stamp_lt_of_clock (hclock v' hv')).le

theorem editsOf_insert (e : Edit) (H : Finset Edit) (name : String) :
    editsOf (insert e H) name = if e.name = name then insert e (editsOf H name) else editsOf H name :=
  Finset.filter_insert _ _ _

theorem EditsOk.fresh {E : Finset Edit} (hE : EditsOk E) {e : Edit} (hserial : e.serial = E.card) :
    e ∉ E := by
  intro he
  have hlt := hE.serialLt e he
  omega

/-- The history of a list after an edit that has observed all of it. -/
theorem Observed.add {E H : Finset Edit} {id : Uuid} {m : String → Option Item.View}
    (hE : EditsOk E) (hH : Observed E id H m) {e : Edit} {v : Item.View}
    (hserial : e.serial = E.card) (hlist : e.list = id) (hpast : e.past = H.image Edit.serial)
    (hmakes : e.Makes (m e.name) v) :
    Observed (insert e E) id (insert e H) (Function.update m e.name (some v)) := by
  have hgrown := hH.grow hE hserial
  have hfresh := hE.fresh hserial
  refine ⟨Finset.insert_subset_insert e hH.sub, fun x hx => ?_, hgrown.closed.insert fun x hx hb => ?_,
    fun name => ?_⟩
  · rcases Finset.mem_insert.1 hx with rfl | hx
    · exact hlist
    · exact hH.list x hx
  · obtain ⟨y, hy, hys⟩ := Finset.mem_image.1 (hpast ▸ hb : x.serial ∈ H.image Edit.serial)
    rcases Finset.mem_insert.1 hx with rfl | hx
    · have hlt := hE.serialLt y (hH.sub hy)
      omega
    · exact hE.serialInj y (hH.sub hy) x hx hys ▸ hy
  · rw [editsOf_insert]
    by_cases hname : e.name = name
    · subst hname
      rw [if_pos rfl, Function.update_self]
      exact (hH.items e.name).add (fun h => hfresh (hH.sub (mem_editsOf.1 h).1)) hmakes
    · rw [if_neg hname, Function.update_of_ne (Ne.symm hname)]
      exact hH.items name

/-- **An edit that has observed the history of its client keeps what holds of the edits.** -/
theorem EditsOk.add {E H : Finset Edit} {id : Uuid} {m : String → Option Item.View}
    (hE : EditsOk E) (hH : Observed E id H m) {e : Edit} {v : Item.View}
    (hown : ∀ x ∈ E, x.client = e.client → x.list = id → x ∈ H)
    (hserial : e.serial = E.card) (hlist : e.list = id) (hpast : e.past = H.image Edit.serial)
    (hmakes : e.Makes (m e.name) v) : EditsOk (insert e E) := by
  have hcard : (insert e E).card = E.card + 1 := Finset.card_insert_of_notMem (hE.fresh hserial)
  have hpastMem : ∀ x ∈ E, x.serial ∈ e.past → x ∈ H := by
    intro x hx hs
    obtain ⟨y, hy, hys⟩ := Finset.mem_image.1 (hpast ▸ hs)
    exact hE.serialInj y (hH.sub hy) x hx hys ▸ hy
  have hpastLt : ∀ s ∈ e.past, s < E.card := by
    intro s hs
    obtain ⟨y, hy, rfl⟩ := Finset.mem_image.1 (hpast ▸ hs)
    exact hE.serialLt y (hH.sub hy)
  -- a write of the same item that the edit has observed is older than what it writes
  have hnewer : ∀ x ∈ H, x.name = e.name → ∀ r q, e.register = some r → x.register = some q →
      q.clock < r.clock := by
    intro x hx hname r q hr hq
    obtain ⟨o, ho, hle⟩ := (hH.items e.name).counts.2.2 x (mem_editsOf.2 ⟨hx, hname⟩) q hq
    exact (clock_le_of_stamp hle).trans_lt ((hmakes.written r hr).2.2 o ho)
  have hactor : ∀ r, e.register = some r → r.actor = e.client := fun r hr => (hmakes.written r hr).2.1
  have hdiffer : ∀ x ∈ E, x.list = e.list → x.name = e.name → ∀ r q, e.register = some r →
      x.register = some q → r.stamp ≠ q.stamp := by
    intro x hx hl hname r q hr hq hstamp
    obtain ⟨hclock, hsame⟩ := Prod.mk.inj (toLex_inj.1 hstamp)
    have hclient : x.client = e.client := by
      rw [← hE.actor x hx q hq, ← hactor r hr, hsame]
    have hlt := hnewer x (hown x hx hclient (hl.trans hlist)) hname r q hr hq
    omega
  refine ⟨?lt, ?inj, ?past, ?chain, ?created, ?actor, ?unique, ?observed⟩
  case lt =>
    intro x hx
    rw [hcard]
    rcases Finset.mem_insert.1 hx with rfl | hx
    · omega
    · exact (hE.serialLt x hx).trans (Nat.lt_succ_self _)
  case inj =>
    intro x hx y hy hs
    rcases Finset.mem_insert.1 hx with hxe | hxE <;> rcases Finset.mem_insert.1 hy with hye | hyE
    · rw [hxe, hye]
    · have hlt := hE.serialLt y hyE
      rw [hxe] at hs
      omega
    · have hlt := hE.serialLt x hxE
      rw [hye] at hs
      omega
    · exact hE.serialInj x hxE y hyE hs
  case past =>
    intro x hx s hs
    rcases Finset.mem_insert.1 hx with rfl | hx
    · rw [hserial]
      exact hpastLt s hs
    · exact hE.pastLt x hx s hs
  case chain =>
    intro x hx y hy hclient hl hlt
    rcases Finset.mem_insert.1 hx with hxe | hxE <;> rcases Finset.mem_insert.1 hy with hye | hyE
    · rw [hxe, hye] at hlt
      exact absurd hlt (lt_irrefl _)
    · rw [hxe] at hclient hl ⊢
      unfold Edit.Before
      rw [hpast]
      exact Finset.mem_image_of_mem _ (hown y hyE hclient.symm (hl.symm.trans hlist))
    · have hlt' := hE.serialLt x hxE
      rw [hye] at hlt
      omega
    · exact hE.chain x hxE y hyE hclient hl hlt
  case created =>
    intro x hx
    rcases Finset.mem_insert.1 hx with rfl | hx
    · exact hmakes.createdNonneg
    · exact hE.createdNonneg x hx
  case actor =>
    intro x hx r hr
    rcases Finset.mem_insert.1 hx with rfl | hx
    · exact hactor r hr
    · exact hE.actor x hx r hr
  case unique =>
    intro x hx y hy hl hname r q hr hq hstamp
    rcases Finset.mem_insert.1 hx with hxe | hxE <;> rcases Finset.mem_insert.1 hy with hye | hyE
    · rw [hxe, hye]
    · rw [hxe] at hl hname hr
      exact absurd hstamp (hdiffer y hyE hl.symm hname.symm r q hr hq)
    · rw [hye] at hl hname hq
      exact absurd hstamp.symm (hdiffer x hxE hl hname q r hq hr)
    · exact hE.unique x hxE y hyE hl hname r q hr hq hstamp
  case observed =>
    intro x hx y hy hname hb r q hr hq
    rcases Finset.mem_insert.1 hx with hxe | hxE <;> rcases Finset.mem_insert.1 hy with hye | hyE
    · rw [hxe, hye] at hb
      have hlt := hpastLt _ hb
      omega
    · rw [hxe] at hname hb hr
      exact hnewer y (hpastMem y hyE hb) hname r q hr hq
    · rw [hye] at hb
      have hlt := (hE.pastLt x hxE _ hb).trans (hE.serialLt x hxE)
      omega
    · exact hE.observed x hxE y hyE hname hb r q hr hq

/-! ## Totals -/

/-- A counter whose counts are tallies has the sum of the amounts for its total. -/
theorem total_of_tally {g : GCounter} {f : Edit → Option ℕ} {S : Finset Edit}
    (h : ∀ a, g.count a = tally f (S.filter (·.client = a))) :
    g.counter.total = ∑ e ∈ S, (f e).getD 0 := by
  have hcount : ∀ a, (g.counter.find? a).getD 0 = ∑ e ∈ S with e.client = a, (f e).getD 0 := by
    intro a
    rw [← tally_unbotD, ← h a]
    unfold GCounter.count
    cases g.counter.find? a <;> rfl
  have hA : ∀ k ∈ g.counter, k ∈ g.counter.keys.toFinset ∪ S.image Edit.client := fun k hk =>
    Finset.mem_union_left _ (List.mem_toFinset.2 (AList.mem_keys.1 hk))
  rw [FinMap.total_eq_sum g.counter hA, Finset.sum_congr rfl fun a _ => hcount a]
  exact Finset.sum_fiberwise_of_maps_to
    (fun e he => Finset.mem_union_right _ (Finset.mem_image_of_mem _ he)) _

/-- The sums of what the edits of an item add stay below `2^63`. -/
def SumsFit (S : Finset Edit) : Prop :=
  ∑ e ∈ S, (e.p).getD 0 < 2 ^ 63 ∧ ∑ e ∈ S, (e.n).getD 0 < 2 ^ 63

theorem SumsFit.mono {S T : Finset Edit} (hT : SumsFit T) (h : S ⊆ T) : SumsFit S :=
  ⟨(Finset.sum_le_sum_of_subset h).trans_lt hT.1, (Finset.sum_le_sum_of_subset h).trans_lt hT.2⟩

theorem noOverflow_iff {S : Finset Edit} {item : Item} (h : Describes S (some item.view)) :
    item.NoOverflow ↔ SumsFit S := by
  unfold Item.NoOverflow SumsFit
  rw [total_of_tally h.1, total_of_tally h.2.1]

theorem Item.NoOverflow.fits {item : Item} (h : item.NoOverflow) : item.Fits := by
  rintro a x (hx | hx)
  · exact (FinMap.find?_le_total hx).trans_lt h.1
  · exact (FinMap.find?_le_total hx).trans_lt h.2

/-! ## What holds in every run -/

/-- Each list of each client stands for its causal history, and so does each that was ever read. -/
structure Consistent (w : Fleet) (past : List Fleet) : Prop where
  edits : EditsOk w.edits
  own : ∀ e ∈ w.edits, e ∈ w.known e.client e.list
  sound : ∀ client, Client.Sound (w.db client)
  fits : ∀ client id name, SumsFit (editsOf (w.known client id) name)
  observed : ∀ w₀ ∈ w :: past, ∀ client id,
    Observed w.edits id (w₀.known client id) ((w₀.db client).itemMap id)

/-- A property of the lists of all clients, after one list of one client has changed. -/
theorem forall_update {w : Fleet} {client id : Uuid} {db' : ClientDb} {H : Finset Edit}
    (P : Uuid → Finset Edit → (String → Option Item.View) → Prop)
    (hold : ∀ client id, P id (w.known client id) ((w.db client).itemMap id))
    (hsame : ∀ id', id' ≠ id → db'.itemMap id' = (w.db client).itemMap id')
    (hnew : P id H (db'.itemMap id)) (client' id' : Uuid) :
    P id' (Function.update w.known client (Function.update (w.known client) id H) client' id')
      ((Function.update w.db client db' client').itemMap id') := by
  by_cases hclient : client' = client
  · subst hclient
    rw [Function.update_self, Function.update_self]
    by_cases hid : id' = id
    · subst hid
      rw [Function.update_self]
      exact hnew
    · rw [Function.update_of_ne hid, hsame id' hid]
      exact hold client' id'
  · rw [Function.update_of_ne hclient, Function.update_of_ne hclient]
    exact hold client' id'

theorem subset_update {w : Fleet} {client id : Uuid} {H : Finset Edit} (h : w.known client id ⊆ H)
    (client' id' : Uuid) : w.known client' id' ⊆
      Function.update w.known client (Function.update (w.known client) id H) client' id' := by
  by_cases hclient : client' = client
  · subst hclient
    rw [Function.update_self]
    by_cases hid : id' = id
    · rw [hid, Function.update_self]
      exact h
    · rw [Function.update_of_ne hid]
  · rw [Function.update_of_ne hclient]

theorem Client.Sound.update {w : Fleet} (h : ∀ client, Client.Sound (w.db client)) {client : Uuid}
    {db' : ClientDb} (hdb : Client.Sound db') (client' : Uuid) :
    Client.Sound (Function.update w.db client db' client') := by
  by_cases hclient : client' = client
  · rw [hclient, Function.update_self]
    exact hdb
  · rw [Function.update_of_ne hclient]
    exact h client'

theorem Edit.of_fields (serial : ℕ) (client list : Uuid) (name : String) (quantity : ℕ)
    (acquired : Bool) (past : Finset ℕ) (o : Option Item) :
    (Edit.of serial client list name quantity acquired past o).serial = serial ∧
      (Edit.of serial client list name quantity acquired past o).client = client ∧
      (Edit.of serial client list name quantity acquired past o).list = list ∧
      (Edit.of serial client list name quantity acquired past o).name = name ∧
      (Edit.of serial client list name quantity acquired past o).past = past := by
  cases o <;> exact ⟨rfl, rfl, rfl, rfl, rfl⟩

/-- What an edit makes of the item that the client has read. -/
theorem makes_of_edited (serial : ℕ) (past : Finset ℕ) {client id : Uuid} {name : String} {quantity : ℕ} {acquired : Bool}
    {db : ClientDb} {l : ShoppingList} {S : Finset Edit}
    (hquantity : quantity < 2 ^ 63) (hread : (readShoppingList client id).Returns db l db)
    (hdescribes : Describes S (db.itemMap id name)) (hsums : SumsFit S) {cast : ℕ → ℤ} {item : Item}
    (hedited : Edited client quantity acquired (db.content (id, name)) cast item) :
    (Edit.of serial client id name quantity acquired past (l.list.items.find? name)).Makes
      (db.itemMap id name) item.view := by
  have hname := (readShoppingList_spec hread).2.2 name
  unfold itemMap at hdescribes ⊢
  revert hedited hname hdescribes
  generalize db.content (id, name) = o
  intro hdescribes hedited hname
  cases hedited with
  | created =>
    rw [show l.list.items.find? name = none from hname]
    exact makes_created _ _ _ _ _ _ _
  | @changed s stored _ hreadAs hedit =>
    obtain ⟨read, hfind, hread'⟩ := hname
    rw [hfind]
    have hview : stored.view = s.view := hreadAs.view
    rw [Option.map_some, ← hview] at hdescribes ⊢
    exact makes_changed _ _ _ _ (hread'.view.trans hview.symm)
      ((noOverflow_iff hdescribes).2 hsums) hquantity hreadAs.pActor hreadAs.nActor hedit

/-- **The edit of a client makes of an item what the event says.** -/
theorem makes_of_run (serial : ℕ) (past : Finset ℕ) {client id : Uuid} {name : String} {quantity : ℕ} {acquired : Bool}
    {c c' : Conn ClientDb StorageError} {l : ShoppingList} {S : Finset Edit}
    (hsound : Client.Sound c.db) (hquantity : quantity < 2 ^ 63)
    (hread : (readShoppingList client id).Returns c.db l c.db)
    (hdescribes : Describes S (c.db.itemMap id name)) (hsums : SumsFit S)
    (hfits : ∀ cast item,
      Edited client quantity acquired (c.db.content (id, name)) cast item → item.NoOverflow)
    (hrun : (handleItemStorageRequest client name quantity acquired id).run c = (.ok (), c')) :
    ∃ item : Item, item.NoOverflow ∧ Client.Sound c'.db ∧
      c'.db.itemMap id = Function.update (c.db.itemMap id) name (some item.view) ∧
      (∀ id', id' ≠ id → c'.db.itemMap id' = c.db.itemMap id') ∧
      (Edit.of serial client id name quantity acquired past (l.list.items.find? name)).Makes
        (c.db.itemMap id name) item.view := by
  obtain ⟨hdistinct, ⟨hne, -⟩ | ⟨-, cast, item, hedited, hput⟩⟩ :=
    handleItemStorageRequest_run hsound.distinct hrun
  · exact absurd rfl hne
  · have hover := hfits cast item hedited
    rw [hedited.put_eq hover.fits] at hput
    have hoverlay : Item.View.overlay (c.db.itemMap id name) item = item.view :=
      Item.View.overlay_of_le fun v hv => ⟨(hedited.le v hv).1, (hedited.le v hv).2.1⟩
    refine ⟨item, hover, ⟨hdistinct, hput ▸ hsound.bounded.put hover.fits⟩, ?_, fun id' hid => ?_, ?_⟩
    · funext name'
      rw [itemMap_put hput, ItemMap.put, hoverlay]
      by_cases hname : name' = name
      · rw [hname, if_pos ⟨rfl, rfl⟩, Function.update_self]
      · rw [if_neg fun h => hname h.2, Function.update_of_ne hname]
    · funext name'
      rw [itemMap_put hput, ItemMap.put, if_neg fun h => hid h.1]
    · exact makes_of_edited serial past hquantity hread hdescribes hsums hedited

theorem observed_empty (E : Finset Edit) (id : Uuid) : Observed E id ∅ fun _ => none :=
  ⟨Finset.empty_subset E, fun e he => absurd he (Finset.notMem_empty e), closed_empty,
    fun _ => Finset.filter_empty _⟩

theorem sumsFit_empty : SumsFit ∅ := ⟨by decide, by decide⟩

theorem consistent_start : Consistent .start [] := by
  refine ⟨⟨?_, ?_, ?_, ?_, ?_, ?_, ?_, ?_⟩, fun e he => ?_, fun client => Client.sound_empty,
    fun client id => ?_, fun w₀ hw₀ client id => ?_⟩
  · exact fun e he => absurd he (Finset.notMem_empty e)
  · exact fun e he => absurd he (Finset.notMem_empty e)
  · exact fun e he => absurd he (Finset.notMem_empty e)
  · exact fun e he => absurd he (Finset.notMem_empty e)
  · exact fun e he => absurd he (Finset.notMem_empty e)
  · exact fun e he => absurd he (Finset.notMem_empty e)
  · exact fun e he => absurd he (Finset.notMem_empty e)
  · exact fun e he => absurd he (Finset.notMem_empty e)
  · exact absurd he (Finset.notMem_empty e)
  · intro name
    rw [show editsOf (Fleet.start.known client id) name = ∅ from Finset.filter_empty _]
    exact sumsFit_empty
  · rw [List.mem_singleton.1 hw₀]
    exact observed_empty ∅ id

/-- A step that leaves all items as they are. -/
theorem Consistent.keeps {w : Fleet} {past : List Fleet} (h : Consistent w past) {client : Uuid}
    {db' : ClientDb} (hsound : Client.Sound db') (hmap : db'.itemMap = (w.db client).itemMap) :
    Consistent { w with db := Function.update w.db client db' } (w :: past) := by
  refine ⟨h.edits, h.own, Client.Sound.update h.sound hsound, h.fits, fun w₀ hw₀ client' id => ?_⟩
  rcases List.mem_cons.1 hw₀ with rfl | hw₀
  · dsimp only
    by_cases hclient : client' = client
    · rw [hclient, Function.update_self, hmap]
      exact h.observed w List.mem_cons_self client id
    · rw [Function.update_of_ne hclient]
      exact h.observed w List.mem_cons_self client' id
  · exact h.observed w₀ hw₀ client' id

/-- What an edit stores stands for the history with the edit. -/
theorem Consistent.edited {w : Fleet} {past : List Fleet} (h : Consistent w past) {client id : Uuid}
    {name : String} {quantity : ℕ} {acquired : Bool} {db : ClientDb} {l : ShoppingList} {e : Edit}
    {cast : ℕ → ℤ} {item : Item} (hdb : db = w.db client) (hquantity : quantity < 2 ^ 63)
    (hread : (readShoppingList client id).Returns db l db)
    (he : e = .of w.edits.card client id name quantity acquired
      ((w.known client id).image Edit.serial) (l.list.items.find? name))
    (hedited : Edited client quantity acquired (db.content (id, name)) cast item) :
    EditsOk (insert e w.edits) ∧ ∃ m, Observed (insert e w.edits) id (insert e (w.known client id)) m ∧
      m name = some item.view := by
  subst hdb
  have hH := h.observed w List.mem_cons_self client id
  have hmakes := makes_of_edited w.edits.card ((w.known client id).image Edit.serial) hquantity hread
    (hH.items name) (h.fits client id name) hedited
  rw [← he] at hmakes
  obtain ⟨hserial, hclient, hlist, hname, hpast⟩ : e.serial = w.edits.card ∧ e.client = client ∧
      e.list = id ∧ e.name = name ∧ e.past = (w.known client id).image Edit.serial :=
    he ▸ Edit.of_fields _ _ _ _ _ _ _ _
  rw [← hname] at hmakes ⊢
  have hown : ∀ x ∈ w.edits, x.client = e.client → x.list = id → x ∈ w.known client id := by
    intro x hx hc hl
    rw [← hclient, ← hc, ← hl]
    exact h.own x hx
  exact ⟨h.edits.add hH hown hserial hlist hpast hmakes, _, hH.add h.edits hserial hlist hpast hmakes,
    Function.update_self _ _ _⟩

/-- An edit keeps everything consistent. -/
theorem Consistent.edit {w : Fleet} {past : List Fleet} (h : Consistent w past) {client id : Uuid}
    {name : String} {quantity : ℕ} {acquired : Bool} {c c' : Conn ClientDb StorageError}
    {l : ShoppingList} {e : Edit} (hdb : c.db = w.db client) (hquantity : quantity < 2 ^ 63)
    (hread : (readShoppingList client id).Returns c.db l c.db)
    (he : e = .of w.edits.card client id name quantity acquired
      ((w.known client id).image Edit.serial) (l.list.items.find? name))
    (hfits : ∀ cast item,
      Edited client quantity acquired (c.db.content (id, name)) cast item → item.NoOverflow)
    (hrun : (handleItemStorageRequest client name quantity acquired id).run c = (.ok (), c')) :
    Consistent
      { db := Function.update w.db client c'.db
        edits := insert e w.edits
        known := Function.update w.known client
          (Function.update (w.known client) id (insert e (w.known client id))) } (w :: past) := by
  have hsnap := h.observed w List.mem_cons_self
  have hH := hsnap client id
  obtain ⟨item, hover, hsound, hmap, hsame, hmakes⟩ := makes_of_run w.edits.card
    ((w.known client id).image Edit.serial) (hdb ▸ h.sound client) hquantity hread
    (hdb ▸ hH.items name) (h.fits client id name) hfits hrun
  rw [hdb] at hmap hsame hmakes
  rw [← he] at hmakes
  obtain ⟨hserial, hclient, hlist, hname, hpast⟩ : e.serial = w.edits.card ∧ e.client = client ∧
      e.list = id ∧ e.name = name ∧ e.past = (w.known client id).image Edit.serial :=
    he ▸ Edit.of_fields _ _ _ _ _ _ _ _
  rw [← hname] at hmakes hmap
  have hgrow := fun w₀ hw₀ client id => (h.observed w₀ hw₀ client id).grow h.edits hserial
  have hnew := hH.add h.edits hserial hlist hpast hmakes
  refine ⟨h.edits.add hH (fun x hx hc hl => ?_) hserial hlist hpast hmakes, fun x hx => ?_,
    Client.Sound.update h.sound hsound,
    forall_update (fun _ H _ => ∀ name, SumsFit (editsOf H name)) h.fits hsame fun name' => ?_,
    fun w₀ hw₀ => ?_⟩
  · rw [← hclient, ← hc, ← hl]
    exact h.own x hx
  · rcases Finset.mem_insert.1 hx with rfl | hxE
    · dsimp only
      rw [hclient, hlist, Function.update_self, Function.update_self]
      exact Finset.mem_insert_self _ _
    · exact subset_update (Finset.subset_insert e _) x.client x.list (h.own x hxE)
  · by_cases hsameName : e.name = name'
    · have hitem := hnew.items e.name
      rw [Function.update_self] at hitem
      rw [← hsameName]
      exact (noOverflow_iff hitem).1 hover
    · rw [editsOf_insert, if_neg hsameName]
      exact h.fits client id name'
  · rcases List.mem_cons.1 hw₀ with rfl | hw₀
    · refine forall_update (fun id' H m => Observed (insert e w.edits) id' H m)
        (hgrow w List.mem_cons_self) hsame ?_
      rw [hmap]
      exact hnew
    · exact hgrow w₀ hw₀

/-- What a refresh can be answered with stands for its causal history. -/
theorem Consistent.produced {w : Fleet} {past : List Fleet} (h : Consistent w past) {id : Uuid}
    {s : ShoppingList} {H : Finset Edit} (hs : Produced (w :: past) id s H) :
    Observed w.edits id H s.list.view := by
  induction hs with
  | read w₀ client hw₀ hread =>
    rw [view_of_read hread]
    exact h.observed _ hw₀ _ id
  | @merge s t H K _ _ ihs iht =>
    have hview : (s.list.merge t.list).view = fun name =>
        AWORMap.mergeView (s.list.view name) (t.list.view name) := by
      funext name
      exact AWORMap.view_merge _ _ _
    dsimp only
    rw [hview]
    exact ihs.union h.edits iht

/-- What a refresh stores stands for both histories. -/
theorem Consistent.written {w : Fleet} {past : List Fleet} (h : Consistent w past)
    {client id : Uuid} {s l : ShoppingList} {H : Finset Edit} {c c₁ : Conn ClientDb StorageError}
    (hdb : c.db = w.db client) (hs : Produced (w :: past) id s H)
    (hread : (readShoppingList client id).run c = (.ok l, c₁)) :
    c₁.db = w.db client ∧ l.id = id ∧
      Observed w.edits id (w.known client id ∪ H) (writtenList l s).list.view := by
  obtain ⟨hkeep, hl⟩ := returns_of_read hread
  rw [hdb] at hkeep hl
  have hview : (writtenList l s).list.view = fun name =>
      AWORMap.mergeView ((w.db client).itemMap id name) (s.list.view name) := by
    funext name
    rw [view_writtenList, ← view_of_read hl]
    exact AWORMap.view_merge _ _ _
  refine ⟨hkeep, (readShoppingList_spec hl).2.1, ?_⟩
  rw [hview]
  exact (h.observed w List.mem_cons_self client id).union h.edits (h.produced hs)

/-- A refresh that stores what it is answered with keeps everything consistent. -/
theorem Consistent.refresh {w : Fleet} {past : List Fleet} (h : Consistent w past)
    {client id : Uuid} {s l : ShoppingList} {H : Finset Edit} {c c₁ c' : Conn ClientDb StorageError}
    (hdb : c.db = w.db client) (hs : Produced (w :: past) id s H)
    (hread : (readShoppingList client id).run c = (.ok l, c₁))
    (hwrite : (writeShoppingList (writtenList l s)).run c₁ = (.ok (), c'))
    (hfits : ∀ name item, (writtenList l s).list.items.find? name = some item → item.NoOverflow) :
    Consistent
      { w with
        db := Function.update w.db client c'.db
        known := Function.update w.known client
          (Function.update (w.known client) id (w.known client id ∪ H)) }
      (w :: past) := by
  obtain ⟨hkeep, hlid, hunion⟩ := h.written hdb hs hread
  have hl := returns_of_run hread
  rw [hkeep, hdb] at hl
  have hsound := h.sound client
  rw [← hkeep] at hsound hl
  obtain ⟨hdistinct, ⟨hne, -⟩ | ⟨-, hlistFits, hcontent⟩⟩ := writeShoppingList_run hsound.distinct hwrite
  · exact absurd rfl hne
  · have hid : (writtenList l s).id = id := hlid
    have hview := itemMap_of_le hsound.distinct hl hid (AWORMap.le_merge_left _ _) (returns_of_run hwrite)
    have hsame : ∀ id', id' ≠ id → c'.db.itemMap id' = (w.db client).itemMap id' := by
      intro id' hne
      funext name
      rw [itemMap_write hcontent, ItemMap.write, if_neg (hid ▸ hne), hkeep]
    refine ⟨h.edits, fun x hx => subset_update Finset.subset_union_left x.client x.list (h.own x hx),
      Client.Sound.update h.sound ⟨hdistinct, hcontent ▸ hsound.bounded.write hlistFits⟩,
      forall_update (fun _ H _ => ∀ name, SumsFit (editsOf H name)) h.fits hsame fun name => ?_,
      fun w₁ hw₁ => ?_⟩
    · have hitem := hunion.items name
      unfold AWORMap.view at hitem
      cases hfind : (writtenList l s).list.items.find? name with
      | none =>
        rw [hfind] at hitem
        rw [show editsOf (w.known client id ∪ H) name = ∅ from hitem]
        exact sumsFit_empty
      | some item =>
        rw [hfind] at hitem
        exact (noOverflow_iff hitem).1 (hfits name item hfind)
    · rcases List.mem_cons.1 hw₁ with rfl | hw₁
      · refine forall_update (fun id' H m => Observed w.edits id' H m)
          (h.observed w List.mem_cons_self) hsame ?_
        rw [hview]
        exact hunion
      · exact h.observed w₁ hw₁

/-- **Every step keeps everything consistent.** -/
theorem Consistent.step {allowed : Fleet → Edit → Prop} {w w' : Fleet} {past : List Fleet}
    (h : Consistent w past) (hstep : FleetStep allowed Item.NoOverflow (w :: past) w w') :
    Consistent w' (w :: past) := by
  cases hstep with
  | edit hdb hquantity hread he _ hfits hrun =>
    exact h.edit hdb hquantity hread he hfits hrun
  | @editFails client id name quantity acquired c c' r hdb hrun hr =>
    obtain ⟨hitems, hvalues⟩ := handleItemStorageRequest_fails hrun fun _ => hr
    have hsound := h.sound client
    rw [← hdb] at hsound
    refine h.keeps ⟨slotsDistinct_congr hitems hsound.distinct, ?_⟩ ?_
    · rw [content_congr hitems hvalues]
      exact hsound.bounded
    · rw [itemMap_congr hitems hvalues, hdb]
  | refresh hdb hs hack hrun hread hstored hfits =>
    exact h.refresh hdb hs hread (Prod.ext hstored (Client.write_of_retrieveList hack hread hrun)) hfits
  | @refreshKeeps client id e c c' r hdb hrun hkeep =>
    have hsame : c'.db = c.db := by
      rcases Client.retrieveList_write hrun with hsame | ⟨l, s, c₁, x, hread, hack, hwrite⟩
      · exact hsame
      · have hne := hkeep l s c₁ hread hack
        rw [hwrite] at hne
        exact (atomic_transaction _ _ _ _ hwrite fun _ => hne).trans (returns_of_read hread).1
    rw [hsame, hdb]
    exact h.keeps (h.sound client) rfl

/-- **Every run is consistent.** -/
theorem FleetRun.consistent {allowed : Fleet → Edit → Prop} {w : Fleet} {past : List Fleet}
    (h : FleetRun allowed Item.NoOverflow w past) : Consistent w past := by
  induction h with
  | start => exact consistent_start
  | step _ hstep ih => exact ih.step hstep

/-- A state is what its causal history stands for. -/
theorem Observed.state {E H : Finset Edit} {id : Uuid} {m : String → Option Item.View}
    (hE : EditsOk E) (hH : Observed E id H m) : m = stateOf H := by
  funext name
  have hitem := hH.items name
  unfold stateOf
  cases hv : m name with
  | none =>
    rw [hv] at hitem
    rw [if_neg]
    rintro ⟨e, he, hname⟩
    exact Finset.notMem_empty e ((show editsOf H name = ∅ from hitem) ▸ mem_editsOf.2 ⟨he, hname⟩)
  | some v =>
    rw [hv] at hitem
    obtain ⟨hp, hn, hr⟩ := hitem
    obtain ⟨e, he, -⟩ := hr.written
    obtain ⟨heH, hename⟩ := mem_editsOf.1 he
    rw [if_pos ⟨e, heH, hename⟩]
    have hnewest := @Classical.epsilon_spec _ (NewestWrite (editsOf H name)) ⟨_, hr⟩
    have hunique : ∀ r, NewestWrite (editsOf H name) r → r = v.acquired := by
      intro r hr'
      refine hr'.unique (fun x hx y hy r q hxr hyq hstamp => ?_) hr
      obtain ⟨hxH, hxname⟩ := mem_editsOf.1 hx
      obtain ⟨hyH, hyname⟩ := mem_editsOf.1 hy
      have hxy := hE.unique x (hH.sub hxH) y (hH.sub hyH)
        ((hH.list x hxH).trans (hH.list y hyH).symm) (hxname.trans hyname.symm) r q hxr hyq hstamp
      rw [hxy, hyq] at hxr
      exact (Option.some.inj hxr).symm
    cases v
    rw [Option.some.injEq, Item.View.mk.injEq]
    exact ⟨funext hp, funext hn, (hunique _ hnewest).symm⟩

/-- What an edit adds and takes away is its difference to the total. -/
theorem EditsOk.delta_eq {E : Finset Edit} (hE : EditsOk E) {e : Edit} (he : e ∈ E) :
    e.delta = ((e.p).getD 0 : ℕ) - ((e.n).getD 0 : ℕ) := by
  unfold Edit.p Edit.n
  by_cases hcreated : e.created = true
  · have hnonneg := hE.createdNonneg e he hcreated
    rw [if_pos (Or.inl hcreated), if_pos hcreated, Option.getD_some, Option.getD_some]
    omega
  · rw [if_neg hcreated]
    by_cases hpos : 0 < e.delta
    · rw [if_pos (Or.inr hpos), if_neg (by omega), Option.getD_some, Option.getD_none]
      omega
    · rw [if_neg (by simp [hcreated, hpos]), Option.getD_none]
      by_cases hneg : e.delta < 0
      · rw [if_pos hneg, Option.getD_some]
        omega
      · rw [if_neg hneg, Option.getD_none]
        omega

/-- The total of an item is the sum of the differences that its edits made. -/
theorem Observed.total_eq {E H : Finset Edit} {id : Uuid} {m : String → Option Item.View}
    (hE : EditsOk E) (hH : Observed E id H m) {name : String} {item : Item}
    (hitem : m name = some item.view) :
    (item.amount.p.counter.total : ℤ) - item.amount.n.counter.total =
      ∑ e ∈ editsOf H name, e.delta := by
  have hdescribes := hH.items name
  rw [hitem] at hdescribes
  have hsum : ∑ e ∈ editsOf H name, e.delta =
      ∑ e ∈ editsOf H name, ((((e.p).getD 0 : ℕ) : ℤ) - ((e.n).getD 0 : ℕ)) :=
    Finset.sum_congr rfl fun e he => hE.delta_eq (hH.sub (mem_editsOf.1 he).1)
  rw [hsum, Finset.sum_sub_distrib, total_of_tally hdescribes.1, total_of_tally hdescribes.2.1]
  push_cast
  rfl

theorem Observed.valueTotal {E H : Finset Edit} {id : Uuid} {m : String → Option Item.View}
    (hE : EditsOk E) (hH : Observed E id H m) {name : String} (hfits : SumsFit (editsOf H name))
    {item : Item} (hitem : m name = some item.view) :
    item.amount.valueTotal = some (∑ e ∈ editsOf H name, e.delta) := by
  have hdescribes := hH.items name
  rw [hitem] at hdescribes
  obtain ⟨hp, hn⟩ := (noOverflow_iff hdescribes).2 hfits
  rw [PNCounter.valueTotal_of_lt hp hn, hH.total_eq hE hitem]

/-- The store of a client after a call that meets no failure. -/
def afterEdit (client : Uuid) (quantity : ℕ) (db : ClientDb) : ClientDb :=
  ((handleItemStorageRequest client "milk" quantity false ⟨101⟩).run (.calm db)).2.db

/-- What a client reads when it meets no failure. -/
def listOf (client : Uuid) (db : ClientDb) : ShoppingList :=
  match ((readShoppingList client ⟨101⟩).run (.calm db)).1 with
  | .ok l => l
  | _ => ⟨⟨101⟩, .new⟩

namespace Fleet

/-- The call that sets the quantity of milk. -/
def setMilk (w : Fleet) (client : Uuid) (quantity : ℕ) : Edit :=
  .of w.edits.card client ⟨101⟩ "milk" quantity false ((w.known client ⟨101⟩).image Edit.serial)
    ((listOf client (w.db client)).list.items.find? "milk")

@[simp] theorem quantity_setMilk (w : Fleet) (client : Uuid) (quantity : ℕ) :
    (w.setMilk client quantity).quantity = quantity := by
  unfold setMilk
  cases (listOf client (w.db client)).list.items.find? "milk" <;> rfl

/-- The fleet after this call. -/
def edited (w : Fleet) (client : Uuid) (quantity : ℕ) : Fleet where
  db := Function.update w.db client (afterEdit client quantity (w.db client))
  edits := insert (w.setMilk client quantity) w.edits
  known := Function.update w.known client (Function.update (w.known client) ⟨101⟩
    (insert (w.setMilk client quantity) (w.known client ⟨101⟩)))

/-- An answer that carries the list of `source`. -/
def answer (w : Fleet) (source : Uuid) : Exchange :=
  ⟨true, true, true, .msg (.ackList "1" (listOf source (w.db source)))⟩

/-- The fleet after `client` was answered with the list of `source`. -/
def refreshed (w : Fleet) (client source : Uuid) : Fleet where
  db := Function.update w.db client
    (Client.retrieveList client (w.answer source) ⟨101⟩ (.calm (w.db client))).2.db
  edits := w.edits
  known := Function.update w.known client (Function.update (w.known client) ⟨101⟩
    (w.known client ⟨101⟩ ∪ w.known source ⟨101⟩))

end Fleet

theorem step_edited {w : Fleet} {past : List Fleet} {allowed : Fleet → Edit → Prop} {client : Uuid}
    {quantity : ℕ} (hquantity : quantity < 2 ^ 63)
    (hread : (readShoppingList client ⟨101⟩).Returns (w.db client) (listOf client (w.db client))
      (w.db client))
    (hrun : ((handleItemStorageRequest client "milk" quantity false ⟨101⟩).run
      (.calm (w.db client))).1 = .ok ())
    (hallowed : allowed w (w.setMilk client quantity)) :
    FleetStep allowed (fun _ => True) past w (w.edited client quantity) :=
  .edit (c := .calm (w.db client)) rfl hquantity hread rfl hallowed (fun _ _ _ => trivial)
    (Prod.ext hrun rfl)

theorem step_refreshed {w : Fleet} {past : List Fleet} {allowed : Fleet → Edit → Prop}
    {client source : Uuid} (hs : (readShoppingList source ⟨101⟩).Returns (w.db source)
      (listOf source (w.db source)) (w.db source))
    (hread : (readShoppingList client ⟨101⟩).Returns (w.db client) (listOf client (w.db client))
      (w.db client))
    (hstored : ((writeShoppingList (writtenList (listOf client (w.db client))
      (listOf source (w.db source)))).run (.calm (w.db client))).1 = .ok ()) :
    FleetStep allowed (fun _ => True) (w :: past) w (w.refreshed client source) :=
  .refresh (c := .calm (w.db client)) rfl (.read _ _ List.mem_cons_self hs) rfl (Prod.ext rfl rfl) hread
    hstored fun _ _ _ => trivial

namespace Fleet

/-- Client 201 puts three milks on the list; client 202 reads it; both lower them to one; client
201 reads what client 202 has. -/
def bought : Fleet := start.edited ⟨201⟩ 3

def shared : Fleet := bought.refreshed ⟨202⟩ ⟨201⟩

def lowered : Fleet := shared.edited ⟨201⟩ 1

def loweredAgain : Fleet := lowered.edited ⟨202⟩ 1

def joined : Fleet := loweredAgain.refreshed ⟨201⟩ ⟨202⟩

end Fleet

section Runs

variable {allowed : Fleet → Edit → Prop}

theorem run_shared (hbought : allowed .start (Fleet.start.setMilk ⟨201⟩ 3)) :
    FleetRun allowed (fun _ => True) .shared [.bought, .start] :=
  .step (.step .start (step_edited (by decide) rfl (by decide +kernel) hbought))
    (step_refreshed rfl rfl (by decide +kernel))

theorem run_joined (hbought : allowed .start (Fleet.start.setMilk ⟨201⟩ 3))
    (hlowered : allowed .shared (Fleet.shared.setMilk ⟨201⟩ 1))
    (hagain : allowed .lowered (Fleet.lowered.setMilk ⟨202⟩ 1)) :
    FleetRun allowed (fun _ => True) .joined [.loweredAgain, .lowered, .shared, .bought, .start] := by
  have hlower : FleetRun allowed (fun _ => True) .lowered [.shared, .bought, .start] :=
    .step (run_shared hbought) (step_edited (by decide) rfl (by decide +kernel) hlowered)
  have hagain : FleetRun allowed (fun _ => True) .loweredAgain [.lowered, .shared, .bought, .start] :=
    .step hlower (step_edited (by decide) rfl (by decide +kernel) hagain)
  exact .step hagain (step_refreshed rfl rfl (by decide +kernel))

end Runs

end Sdle
