import Sdle.Lib.FinMap
import Sdle.Uuid
import Mathlib.Data.Prod.Lex
import Mathlib.Order.Lattice.Nat
import Mathlib.Data.Int.Order.Basic

/-!
# The replicated shopping list (`crdt.rs`)

`ShoppingList`, `Item`, `AWORMap`, `LWWReg`, `PNCounter` and `GCounter` with the operations that
the clients and the servers use.  A `HashMap` is a `FinMap`; a `u64` or `u32` is a natural number.
Where the code adds or subtracts machine integers the operation returns `none` on overflow (the
panic of the default build); an `as` cast is `asI64` or `asU64`, which wrap.

The order of states is the one the replicas climb: `s ≤ t` when every item of `s` is in `t`,
every count of its `p` and `n` counters is at least as large in `t`, and its `acquired` register
in `t` has a `(clock, actor)` stamp that is equal or newer.

* `AWORMap.le_merge_left`, `AWORMap.le_merge_right`, `AWORMap.merge_le` — `merge` is a least upper
  bound of this order.
* `AWORMap.view` — a state up to `GCounter::actor_id`, which no merge reads; `view_merge` computes
  the view of a merge from the views.
-/

set_option autoImplicit false

namespace Sdle

/-! ## Machine integers -/

/-- `x as i64` for a `u64`. -/
def asI64 (x : ℕ) : ℤ := if x % 2 ^ 64 < 2 ^ 63 then (x % 2 ^ 64 : ℕ) else (x % 2 ^ 64 : ℕ) - 2 ^ 64

/-- `x as u64` for an `i64`. -/
def asU64 (x : ℤ) : ℕ := (x % 2 ^ 64).toNat

theorem asI64_of_lt {x : ℕ} (h : x < 2 ^ 63) : asI64 x = x := by
  unfold asI64
  rw [Nat.mod_eq_of_lt (by omega), if_pos h]

theorem asU64_of_nonneg {x : ℤ} (h₀ : 0 ≤ x) (h : x < 2 ^ 64) : (asU64 x : ℤ) = x := by
  unfold asU64
  rw [Int.emod_eq_of_lt h₀ h, Int.toNat_of_nonneg h₀]

/-- An `i64` comes through both casts as it is. -/
theorem asI64_asU64 {x : ℤ} (h₀ : -2 ^ 63 ≤ x) (h : x < 2 ^ 63) : asI64 (asU64 x) = x := by
  unfold asI64 asU64
  split <;> omega

/-! ## LWWReg -/

/-- `LWWReg<A>`: a value, its clock and the actor that wrote it. -/
structure LWWReg (A : Type) where
  val : ℕ
  clock : ℕ
  actor : A
  deriving DecidableEq

namespace LWWReg

variable {A : Type} [LinearOrder A]

omit [LinearOrder A] in
/-- `LWWReg::new`. -/
protected def new (val clock : ℕ) (actor : A) : LWWReg A := ⟨val, clock, actor⟩

/-- `LWWReg::should_update`. -/
def shouldUpdate (self : LWWReg A) (clock : ℕ) (actor : A) : Bool :=
  match compare clock self.clock with
  | .gt => true
  | .lt => false
  | .eq => decide (self.actor < actor)

/-- `LWWReg::update`. -/
def update (self : LWWReg A) (val clock : ℕ) (actor : A) : LWWReg A :=
  if self.shouldUpdate clock actor then ⟨val, clock, actor⟩ else self

/-- `LWWReg::merge`. -/
def merge (self other : LWWReg A) : LWWReg A :=
  if self.shouldUpdate other.clock other.actor then ⟨other.val, other.clock, other.actor⟩ else self

omit [LinearOrder A] in
/-- The `(clock, actor)` pair that orders the writes. -/
def stamp (r : LWWReg A) : ℕ ×ₗ A := toLex (r.clock, r.actor)

omit [LinearOrder A] in
theorem eq_of_stamp_eq {r q : LWWReg A} (hs : r.stamp = q.stamp) (hv : r.val = q.val) : r = q := by
  obtain ⟨hc, ha⟩ := Prod.mk.inj (toLex_inj.1 hs)
  cases r
  cases q
  simp_all

theorem shouldUpdate_iff (self other : LWWReg A) :
    self.shouldUpdate other.clock other.actor = true ↔ self.stamp < other.stamp := by
  unfold shouldUpdate stamp
  rw [Prod.Lex.toLex_lt_toLex]
  rcases lt_trichotomy other.clock self.clock with h | h | h
  · rw [compare_lt_iff_lt.2 h]
    simp; omega
  · rw [compare_eq_iff_eq.2 h]
    simp [h]
  · rw [compare_gt_iff_gt.2 h]
    simp [h]

/-- The merge keeps the newer of the two writes, and its own one where the stamps agree. -/
theorem merge_eq (self other : LWWReg A) :
    self.merge other = if self.stamp < other.stamp then other else self := by
  unfold merge
  by_cases h : self.stamp < other.stamp
  · rw [if_pos ((shouldUpdate_iff _ _).2 h), if_pos h]
  · rw [if_neg (fun hs => h ((shouldUpdate_iff _ _).1 hs)), if_neg h]

theorem merge_eq_or (self other : LWWReg A) :
    self.merge other = self ∨ self.merge other = other := by
  rw [merge_eq]
  split
  · exact Or.inr rfl
  · exact Or.inl rfl

theorem stamp_merge (self other : LWWReg A) :
    (self.merge other).stamp = max self.stamp other.stamp := by
  rw [merge_eq]
  split
  · rename_i h
    rw [max_eq_right h.le]
  · rename_i h
    rw [max_eq_left (not_lt.1 h)]

end LWWReg

/-! ## GCounter -/

/-- `GCounter`: the count of each actor, and the actor that this copy increments. -/
structure GCounter where
  counter : FinMap Uuid ℕ
  actorId : Uuid
  deriving DecidableEq

namespace GCounter

/-- `GCounter::new`. -/
protected def new (actorId : Uuid) : GCounter := ⟨∅, actorId⟩

/-- `GCounter::with_count`. -/
def withCount (actorId : Uuid) (count : ℕ) : GCounter :=
  ⟨(∅ : FinMap Uuid ℕ).insert actorId count, actorId⟩

/-- `GCounter::inc_by`, or the overflow panic. -/
def incBy (self : GCounter) (n : ℕ) : Option GCounter :=
  let entry := (self.counter.find? self.actorId).getD 0
  if entry + n < 2 ^ 64 then some { self with counter := self.counter.insert self.actorId (entry + n) }
  else none

/-- `GCounter::inc`, or the overflow panic. -/
def inc (self : GCounter) : Option GCounter := self.incBy 1

/-- `GCounter::value_local`. -/
def valueLocal (self : GCounter) : ℕ := (self.counter.find? self.actorId).getD 0

/-- `GCounter::value_total`, or the overflow panic of the sum. -/
def valueTotal (self : GCounter) : Option ℕ :=
  if self.counter.total < 2 ^ 64 then some self.counter.total else none

/-- `GCounter::merge`: for every entry of the other counter, keep the larger count. -/
def merge (self other : GCounter) : GCounter :=
  { self with counter := self.counter.absorb (fun old count => max count (old.getD 0)) other.counter }

/-- The count of an actor, if the counter has an entry for it. -/
def count (g : GCounter) (a : Uuid) : WithBot ℕ := g.counter.find? a

theorem total_of_count {g h : GCounter} (hcount : g.count = h.count) :
    g.counter.total = h.counter.total :=
  FinMap.total_congr fun a => congrFun hcount a

theorem count_merge (g h : GCounter) (a : Uuid) : (g.merge h).count a = g.count a ⊔ h.count a := by
  unfold count merge
  simp only [FinMap.find?_absorb]
  cases h.counter.find? a with
  | none => exact (sup_bot_eq _).symm
  | some x =>
    cases g.counter.find? a with
    | none => exact congrArg some (max_eq_left (Nat.zero_le x))
    | some y => exact congrArg some (max_comm x y)

instance : LE GCounter := ⟨fun g h => FinMap.Le (· ≤ ·) g.counter h.counter⟩

instance (g h : GCounter) : Decidable (g ≤ h) :=
  inferInstanceAs (Decidable (FinMap.Le (· ≤ ·) g.counter h.counter))

theorem le_iff_count (g h : GCounter) : g ≤ h ↔ ∀ a, g.count a ≤ h.count a := by
  constructor
  · intro hle a
    unfold count
    cases hg : g.counter.find? a with
    | none => exact bot_le
    | some x =>
      obtain ⟨y, hy, hxy⟩ := hle a x hg
      rw [hy]
      exact WithBot.coe_le_coe.2 hxy
  · intro hle a x hx
    have ha := hle a
    unfold count at ha
    rw [hx] at ha
    cases hy : h.counter.find? a with
    | none =>
      rw [hy] at ha
      exact absurd ha (WithBot.not_coe_le_bot x)
    | some y =>
      rw [hy] at ha
      exact ⟨y, rfl, WithBot.coe_le_coe.1 ha⟩

instance : Preorder GCounter where
  le_refl g := FinMap.Le.refl (r := (· ≤ ·)) le_refl g.counter
  le_trans g h k h₁ h₂ := FinMap.Le.trans (r := (· ≤ ·)) (m := g.counter) (o := h.counter)
    (u := k.counter) (fun _ _ _ => le_trans) h₁ h₂

end GCounter

/-! ## PNCounter -/

/-- `PNCounter`: increments and decrements. -/
structure PNCounter where
  p : GCounter
  n : GCounter
  deriving DecidableEq

namespace PNCounter

/-- `PNCounter::new`. -/
protected def new (id : Uuid) : PNCounter := ⟨GCounter.new id, GCounter.new id⟩

/-- `PNCounter::with_count`. -/
def withCount (id : Uuid) (amount : ℕ) : PNCounter :=
  ⟨GCounter.withCount id amount, GCounter.withCount id 0⟩

/-- `PNCounter::inc`. -/
def inc (self : PNCounter) : Option PNCounter := self.p.inc.map fun p => { self with p }

/-- `PNCounter::inc_by`. -/
def incBy (self : PNCounter) (n : ℕ) : Option PNCounter :=
  (self.p.incBy n).map fun p => { self with p }

/-- `PNCounter::dec`. -/
def dec (self : PNCounter) : Option PNCounter := self.n.inc.map fun n => { self with n }

/-- `PNCounter::dec_by`. -/
def decBy (self : PNCounter) (n : ℕ) : Option PNCounter :=
  (self.n.incBy n).map fun n => { self with n }

/-- `PNCounter::value_local`: two casts to `i64` and a checked subtraction. -/
def valueLocal (self : PNCounter) : Option ℤ :=
  let v := asI64 self.p.valueLocal - asI64 self.n.valueLocal
  if -2 ^ 63 ≤ v ∧ v < 2 ^ 63 then some v else none

/-- `PNCounter::value_total`: two casts to `i64` and a checked subtraction. -/
def valueTotal (self : PNCounter) : Option ℤ :=
  match self.p.valueTotal, self.n.valueTotal with
  | some p, some n =>
    let v := asI64 p - asI64 n
    if -2 ^ 63 ≤ v ∧ v < 2 ^ 63 then some v else none
  | _, _ => none

/-- `PNCounter::merge`. -/
def merge (self other : PNCounter) : PNCounter :=
  ⟨self.p.merge other.p, self.n.merge other.n⟩

theorem valueLocal_of_lt {c : PNCounter} (hp : c.p.valueLocal < 2 ^ 63)
    (hn : c.n.valueLocal < 2 ^ 63) :
    c.valueLocal = some ((c.p.valueLocal : ℤ) - c.n.valueLocal) := by
  unfold valueLocal
  simp only [asI64_of_lt hp, asI64_of_lt hn]
  rw [if_pos (by omega)]

/-- Where the two sums stay below `2^63` the total is their exact difference. -/
theorem valueTotal_of_lt {c : PNCounter} (hp : c.p.counter.total < 2 ^ 63)
    (hn : c.n.counter.total < 2 ^ 63) :
    c.valueTotal = some ((c.p.counter.total : ℤ) - c.n.counter.total) := by
  have hp' : c.p.valueTotal = some c.p.counter.total := by
    unfold GCounter.valueTotal
    rw [if_pos (by omega)]
  have hn' : c.n.valueTotal = some c.n.counter.total := by
    unfold GCounter.valueTotal
    rw [if_pos (by omega)]
  unfold valueTotal
  simp only [hp', hn', asI64_of_lt hp, asI64_of_lt hn]
  rw [if_pos (by omega)]

theorem valueTotal_range {c : PNCounter} {x : ℤ} (h : c.valueTotal = some x) :
    -2 ^ 63 ≤ x ∧ x < 2 ^ 63 := by
  unfold valueTotal at h
  split at h
  · dsimp only at h
    split at h
    · rename_i hrange
      rw [← Option.some.inj h]
      exact hrange
    · cases h
  · cases h

end PNCounter

/-! ## Item -/

/-- `Item`. -/
structure Item where
  amount : PNCounter
  acquired : LWWReg Uuid
  deriving DecidableEq

namespace Item

/-- `Item::new`. -/
protected def new (quantity : ℕ) (acquired : Bool) (clientId : Uuid) : Item :=
  ⟨PNCounter.withCount clientId quantity, ⟨acquired.toNat, 0, clientId⟩⟩

/-- `Item::merge`. -/
def merge (self other : Item) : Item :=
  ⟨self.amount.merge other.amount, self.acquired.merge other.acquired⟩

instance : LE Item :=
  ⟨fun i j => i.amount.p ≤ j.amount.p ∧ i.amount.n ≤ j.amount.n ∧ i.acquired.stamp ≤ j.acquired.stamp⟩

instance (i j : Item) : Decidable (i ≤ j) :=
  inferInstanceAs (Decidable (i.amount.p ≤ j.amount.p ∧ i.amount.n ≤ j.amount.n ∧
    i.acquired.stamp ≤ j.acquired.stamp))

theorem le_def (i j : Item) :
    i ≤ j ↔ i.amount.p ≤ j.amount.p ∧ i.amount.n ≤ j.amount.n ∧
      i.acquired.stamp ≤ j.acquired.stamp := Iff.rfl

instance : Preorder Item where
  le_refl _ := ⟨le_rfl, le_rfl, le_rfl⟩
  le_trans _ _ _ h₁ h₂ :=
    ⟨le_trans h₁.1 h₂.1, le_trans h₁.2.1 h₂.2.1, le_trans h₁.2.2 h₂.2.2⟩

theorem le_merge_left (i j : Item) : i ≤ i.merge j := by
  refine ⟨?_, ?_, ?_⟩
  · rw [GCounter.le_iff_count]
    intro a
    exact le_of_le_of_eq le_sup_left (GCounter.count_merge _ _ a).symm
  · rw [GCounter.le_iff_count]
    intro a
    exact le_of_le_of_eq le_sup_left (GCounter.count_merge _ _ a).symm
  · exact le_of_le_of_eq (le_max_left _ _) (LWWReg.stamp_merge _ _).symm

theorem le_merge_right (i j : Item) : j ≤ i.merge j := by
  refine ⟨?_, ?_, ?_⟩
  · rw [GCounter.le_iff_count]
    intro a
    exact le_of_le_of_eq le_sup_right (GCounter.count_merge _ _ a).symm
  · rw [GCounter.le_iff_count]
    intro a
    exact le_of_le_of_eq le_sup_right (GCounter.count_merge _ _ a).symm
  · exact le_of_le_of_eq (le_max_right _ _) (LWWReg.stamp_merge _ _).symm

theorem merge_le {i j k : Item} (hi : i ≤ k) (hj : j ≤ k) : i.merge j ≤ k := by
  obtain ⟨hip, hin, hir⟩ := hi
  obtain ⟨hjp, hjn, hjr⟩ := hj
  rw [GCounter.le_iff_count] at hip hin hjp hjn
  refine ⟨?_, ?_, ?_⟩
  · rw [GCounter.le_iff_count]
    intro a
    exact le_of_eq_of_le (GCounter.count_merge _ _ a) (sup_le (hip a) (hjp a))
  · rw [GCounter.le_iff_count]
    intro a
    exact le_of_eq_of_le (GCounter.count_merge _ _ a) (sup_le (hin a) (hjn a))
  · exact le_of_eq_of_le (LWWReg.stamp_merge _ _) (max_le hir hjr)

/-- What an item holds up to `GCounter::actor_id`. -/
structure View where
  p : Uuid → WithBot ℕ
  n : Uuid → WithBot ℕ
  acquired : LWWReg Uuid

/-- The item up to `GCounter::actor_id`. -/
def view (i : Item) : View := ⟨i.amount.p.count, i.amount.n.count, i.acquired⟩

/-- The merge of two items, on what they hold. -/
def View.merge (v w : View) : View := ⟨v.p ⊔ w.p, v.n ⊔ w.n, v.acquired.merge w.acquired⟩

theorem view_merge (i j : Item) : (i.merge j).view = i.view.merge j.view := by
  have hcount (g h : GCounter) : (g.merge h).count = g.count ⊔ h.count :=
    funext (GCounter.count_merge g h)
  simp only [view, View.merge, merge, PNCounter.merge, hcount]

theorem le_iff_view (i j : Item) :
    i ≤ j ↔ i.view.p ≤ j.view.p ∧ i.view.n ≤ j.view.n ∧
      i.view.acquired.stamp ≤ j.view.acquired.stamp := by
  rw [le_def, GCounter.le_iff_count, GCounter.le_iff_count]
  rfl

end Item

/-! ## AWORMap -/

/-- `AWORMap`: the items of a list by name. -/
structure AWORMap where
  items : FinMap String Item
  deriving DecidableEq

namespace AWORMap

/-- `AWORMap::new`. -/
protected def new : AWORMap := ⟨∅⟩

/-- `AWORMap::insert`. -/
def insert (self : AWORMap) (name : String) (item : Item) : AWORMap :=
  match self.items.find? name with
  | some old => ⟨self.items.insert name (old.merge item)⟩
  | none => ⟨self.items.insert name item⟩

/-- `AWORMap::merge`: for every item of the other map, merge it into the item present or copy it. -/
def merge (self other : AWORMap) : AWORMap :=
  ⟨self.items.absorb
    (fun selfItem otherItem =>
      match selfItem with
      | some i => i.merge otherItem
      | none => otherItem)
    other.items⟩

instance : LE AWORMap := ⟨fun s t => FinMap.Le (· ≤ ·) s.items t.items⟩

instance (s t : AWORMap) : Decidable (s ≤ t) :=
  inferInstanceAs (Decidable (FinMap.Le (· ≤ ·) s.items t.items))

theorem le_def (s t : AWORMap) :
    s ≤ t ↔ ∀ name i, s.items.find? name = some i → ∃ j, t.items.find? name = some j ∧ i ≤ j :=
  Iff.rfl

instance : Preorder AWORMap where
  le_refl s := FinMap.Le.refl (r := (· ≤ ·)) le_refl s.items
  le_trans s t u h₁ h₂ := FinMap.Le.trans (r := (· ≤ ·)) (m := s.items) (o := t.items)
    (u := u.items) (fun _ _ _ => le_trans) h₁ h₂

theorem new_le (s : AWORMap) : AWORMap.new ≤ s := FinMap.Le.empty (· ≤ ·) s.items

theorem le_merge_left (s t : AWORMap) : s ≤ s.merge t :=
  FinMap.le_absorb_left (r := (· ≤ ·)) le_refl (fun a b => Item.le_merge_left a b) s.items t.items

theorem le_merge_right (s t : AWORMap) : t ≤ s.merge t := by
  refine FinMap.le_absorb_right (r := (· ≤ ·)) ?_ s.items t.items
  intro a b
  cases a with
  | none => exact le_rfl
  | some a => exact Item.le_merge_right a b

/-- **The merge is below every common upper bound.** -/
theorem merge_le {s t u : AWORMap} (hs : s ≤ u) (ht : t ≤ u) : s.merge t ≤ u :=
  FinMap.absorb_le (r := (· ≤ ·)) (m := s.items) (o := t.items) (u := u.items)
    (fun _ _ h => h) (fun _ _ _ ha hb => Item.merge_le ha hb) hs ht

/-- A map of items up to `GCounter::actor_id`. -/
def view (s : AWORMap) (name : String) : Option Item.View := (s.items.find? name).map Item.view

/-- The merge of what two maps hold under one name. -/
def mergeView : Option Item.View → Option Item.View → Option Item.View
  | v, none => v
  | none, w => w
  | some v, some w => some (v.merge w)

theorem view_merge (s t : AWORMap) (name : String) :
    (s.merge t).view name = mergeView (s.view name) (t.view name) := by
  unfold view merge
  simp only [FinMap.find?_absorb]
  cases t.items.find? name with
  | none => cases s.items.find? name <;> rfl
  | some j =>
    cases s.items.find? name with
    | none => rfl
    | some i => simp [mergeView, Item.view_merge]

/-- The order of states only reads what they hold. -/
theorem le_iff_view (s t : AWORMap) :
    s ≤ t ↔ ∀ name v, s.view name = some v → ∃ w, t.view name = some w ∧
      v.p ≤ w.p ∧ v.n ≤ w.n ∧ v.acquired.stamp ≤ w.acquired.stamp := by
  rw [le_def]
  constructor
  · intro h name v hv
    obtain ⟨i, hi, rfl⟩ := Option.map_eq_some_iff.1 hv
    obtain ⟨j, hj, hij⟩ := h name i hi
    exact ⟨j.view, by rw [view, hj]; rfl, (Item.le_iff_view i j).1 hij⟩
  · intro h name i hi
    obtain ⟨w, hw, hle⟩ := h name i.view (by rw [view, hi]; rfl)
    obtain ⟨j, hj, rfl⟩ := Option.map_eq_some_iff.1 hw
    exact ⟨j, hj, (Item.le_iff_view i j).2 hle⟩

end AWORMap

/-! ## ShoppingList -/

/-- `ShoppingList`. -/
structure ShoppingList where
  id : Uuid
  list : AWORMap
  deriving DecidableEq

end Sdle
