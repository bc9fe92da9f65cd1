import Mathlib.Data.List.AList
import Mathlib.Algebra.BigOperators.Group.Finset.Basic
import Mathlib.Algebra.Order.BigOperators.Group.Finset
import Mathlib.Algebra.GroupWithZero.Nat
import Mathlib.Data.Finset.Dedup

/-!
# Finite maps: absorbing one map into another, the pointwise order, sums of values

The association lists of Mathlib (`AList`) at one value type.  A value of this type is a map
together with the order in which its entries are iterated: a statement about every map holds for
every iteration order, while in a run the order of a map is the one that its insertions gave it.

* `find?_absorb` — the loop "for every entry of the other map, combine it into this one" is
  the pointwise combination, whatever the order of the entries.
* `Le` — the order that asks every entry of the left map for a larger entry of the right one.
  `le_absorb_left`, `le_absorb_right`, `absorb_le`: a combination that is a least upper bound on
  the values makes `absorb` a least upper bound on the maps.
* `find?_slice`, `find?_mapValues` — the entries under one part of the key, and values changed in
  place.
* `total_eq_sum` — the sum of the values, over any finite set that has all the keys.
-/

set_option autoImplicit false

/-- A finite map from `K` to `V`. -/
abbrev FinMap (K V : Type) := AList (fun _ : K => V)

namespace FinMap

variable {K V W : Type} [DecidableEq K]

/-- Equality of maps as lists of entries, in a form that the kernel can run. -/
instance [DecidableEq V] : DecidableEq (FinMap K V) :=
  fun m o => decidable_of_iff (m.entries = o.entries) AList.ext_iff.symm

/-- The value stored under a key. -/
def find? (m : FinMap K V) (k : K) : Option V := AList.lookup k m

@[simp] theorem find?_empty (k : K) : find? (∅ : FinMap K V) k = none := AList.lookup_empty k

theorem find?_insert (m : FinMap K V) (k k' : K) (v : V) :
    find? (m.insert k v) k' = if k' = k then some v else m.find? k' := by
  unfold find?
  split
  · rename_i h
    rw [h, AList.lookup_insert]
  · rename_i h
    rw [AList.lookup_insert_ne h]

@[simp] theorem find?_insert_self (m : FinMap K V) (k : K) (v : V) :
    find? (m.insert k v) k = some v := by
  rw [find?_insert, if_pos rfl]

theorem find?_insert_ne (m : FinMap K V) {k k' : K} (v : V) (h : k' ≠ k) :
    find? (m.insert k v) k' = m.find? k' := by
  rw [find?_insert, if_neg h]

theorem find?_erase (m : FinMap K V) (k k' : K) :
    find? (m.erase k) k' = if k' = k then none else m.find? k' := by
  unfold find?
  split
  · rename_i h
    rw [h, AList.lookup_erase]
  · rename_i h
    rw [AList.lookup_erase_ne h]

theorem mem_entries (m : FinMap K V) (k : K) (v : V) :
    (⟨k, v⟩ : Sigma fun _ : K => V) ∈ m.entries ↔ m.find? k = some v :=
  AList.mem_lookup_iff.symm

theorem find?_isSome (m : FinMap K V) (k : K) : (m.find? k).isSome = true ↔ k ∈ m :=
  AList.lookup_isSome

theorem find?_eq_none (m : FinMap K V) (k : K) : m.find? k = none ↔ k ∉ m :=
  AList.lookup_eq_none

/-! ## Absorbing a map -/

/-- For every entry of `o`, in the order of `o`, store `c` of the value present and the new one. -/
def absorb (c : Option V → W → V) (m : FinMap K V) (o : FinMap K W) : FinMap K V :=
  o.entries.foldl (fun m e => m.insert e.1 (c (m.find? e.1) e.2)) m

theorem find?_foldl_insert (c : Option V → W → V) (k : K) :
    ∀ (es : List (Sigma fun _ : K => W)) (m : FinMap K V), es.NodupKeys →
      find? (es.foldl (fun m e => m.insert e.1 (c (m.find? e.1) e.2)) m) k =
        match es.dlookup k with
        | none => m.find? k
        | some w => some (c (m.find? k) w)
  | [], _, _ => rfl
  | ⟨k', w⟩ :: es, m, h => by
    rw [List.foldl_cons, find?_foldl_insert c k es _ (List.nodupKeys_of_nodupKeys_cons h)]
    have hk : k' ∉ es.keys := List.notMem_keys_of_nodupKeys_cons h
    by_cases hkk : k = k'
    · subst hkk
      rw [List.dlookup_eq_none.2 hk, List.dlookup_cons_eq]
      simp
    · rw [List.dlookup_cons_ne _ _ hkk, find?_insert_ne _ _ hkk]

/-- **The loop over the entries is the pointwise combination.** -/
theorem find?_absorb (c : Option V → W → V) (m : FinMap K V) (o : FinMap K W) (k : K) :
    find? (absorb c m o) k =
      match o.find? k with
      | none => m.find? k
      | some w => some (c (m.find? k) w) :=
  find?_foldl_insert c k o.entries m o.nodupKeys

/-! ## The pointwise order -/

/-- Every entry of `m` has an `r`-larger entry in `o`. -/
def Le (r : V → V → Prop) (m o : FinMap K V) : Prop :=
  ∀ k v, m.find? k = some v → ∃ w, o.find? k = some w ∧ r v w

theorem le_iff_entries {r : V → V → Prop} [DecidableRel r] (m o : FinMap K V) :
    Le r m o ↔ ∀ e ∈ m.entries, (o.find? e.1).any (fun w => decide (r e.2 w)) = true := by
  simp only [Option.any_eq_true, decide_eq_true_eq]
  constructor
  · rintro h ⟨k, v⟩ he
    exact h k v ((mem_entries m k v).1 he)
  · intro h k v hv
    exact h ⟨k, v⟩ ((mem_entries m k v).2 hv)

instance {r : V → V → Prop} [DecidableRel r] (m o : FinMap K V) : Decidable (Le r m o) :=
  decidable_of_iff _ (le_iff_entries m o).symm

theorem Le.refl {r : V → V → Prop} (hr : ∀ v, r v v) (m : FinMap K V) : Le r m m :=
  fun _ v hv => ⟨v, hv, hr v⟩

theorem Le.trans {r : V → V → Prop} (hr : ∀ a b c, r a b → r b c → r a c) {m o u : FinMap K V}
    (h₁ : Le r m o) (h₂ : Le r o u) : Le r m u := by
  intro k v hv
  obtain ⟨w, hw, hvw⟩ := h₁ k v hv
  obtain ⟨x, hx, hwx⟩ := h₂ k w hw
  exact ⟨x, hx, hr v w x hvw hwx⟩

theorem Le.empty (r : V → V → Prop) (m : FinMap K V) : Le r ∅ m := by
  intro k v hv
  simp at hv

theorem le_absorb_left {r : V → V → Prop} {c : Option V → V → V} (hr : ∀ v, r v v)
    (hc : ∀ a b, r a (c (some a) b)) (m o : FinMap K V) : Le r m (absorb c m o) := by
  intro k v hv
  rw [find?_absorb, hv]
  cases o.find? k with
  | none => exact ⟨v, rfl, hr v⟩
  | some w => exact ⟨_, rfl, hc v w⟩

theorem le_absorb_right {r : V → V → Prop} {c : Option V → V → V}
    (hc : ∀ a b, r b (c a b)) (m o : FinMap K V) : Le r o (absorb c m o) := by
  intro k v hv
  rw [find?_absorb, hv]
  exact ⟨_, rfl, hc _ v⟩

theorem absorb_le {r : V → V → Prop} {c : Option V → V → V}
    (hnone : ∀ b d, r b d → r (c none b) d) (hsome : ∀ a b d, r a d → r b d → r (c (some a) b) d)
    {m o u : FinMap K V} (hm : Le r m u) (ho : Le r o u) : Le r (absorb c m o) u := by
  intro k v hv
  rw [find?_absorb] at hv
  cases ho' : o.find? k with
  | none =>
    rw [ho'] at hv
    exact hm k v hv
  | some w =>
    rw [ho'] at hv
    obtain ⟨d, hd, hwd⟩ := ho k w ho'
    cases hm' : m.find? k with
    | none =>
      rw [hm'] at hv
      cases hv
      exact ⟨d, hd, hnone w d hwd⟩
    | some a =>
      rw [hm'] at hv
      cases hv
      obtain ⟨d', hd', had⟩ := hm k a hm'
      rw [hd] at hd'
      cases hd'
      exact ⟨d, hd, hsome a w d had hwd⟩

/-! ## Keys of two parts, and values changed in place -/

variable {L : Type} [DecidableEq L]

/-- The entries whose key starts with `k`, under the rest of their keys. -/
def slice (m : FinMap (K × L) V) (k : K) : FinMap L V where
  entries := m.entries.filterMap fun e => if e.1.1 = k then some ⟨e.1.2, e.2⟩ else none
  nodupKeys := by
    rw [List.nodupKeys_iff_pairwise, List.pairwise_filterMap]
    refine (List.nodupKeys_iff_pairwise.1 m.nodupKeys).imp fun {e e'} hne x hx y hy hxy => hne ?_
    rw [Option.ite_none_right_eq_some] at hx hy
    obtain ⟨hk, hx⟩ := hx
    obtain ⟨hk', hy⟩ := hy
    cases hx
    cases hy
    exact Prod.ext (hk.trans hk'.symm) hxy

theorem find?_slice (m : FinMap (K × L) V) (k : K) (l : L) :
    (m.slice k).find? l = m.find? (k, l) := by
  ext v
  rw [← mem_entries, ← mem_entries]
  simp only [slice, List.mem_filterMap, Option.ite_none_right_eq_some]
  constructor
  · rintro ⟨⟨⟨k', l'⟩, w⟩, he, rfl, h⟩
    cases h
    exact he
  · intro he
    exact ⟨_, he, rfl, rfl⟩

/-- The map with `f` applied to each value. -/
def mapValues (f : V → W) (m : FinMap K V) : FinMap K W where
  entries := m.entries.map fun e => ⟨e.1, f e.2⟩
  nodupKeys := by
    rw [List.nodupKeys_iff_pairwise, List.pairwise_map]
    exact List.nodupKeys_iff_pairwise.1 m.nodupKeys

theorem find?_mapValues (f : V → W) (m : FinMap K V) (k : K) :
    (m.mapValues f).find? k = (m.find? k).map f := by
  ext w
  rw [← mem_entries, Option.map_eq_some_iff]
  simp only [mapValues, List.mem_map]
  constructor
  · rintro ⟨⟨k', v⟩, he, h⟩
    cases h
    exact ⟨v, (mem_entries m k' v).1 he, rfl⟩
  · rintro ⟨v, hv, rfl⟩
    exact ⟨_, (mem_entries m k v).2 hv, rfl⟩

/-! ## Sums of values -/

/-- The sum of the values of a map. -/
def total (m : FinMap K ℕ) : ℕ := (m.entries.map (·.2)).sum

theorem total_eq_keys (m : FinMap K ℕ) :
    m.total = (m.keys.map fun k => (m.find? k).getD 0).sum := by
  unfold total AList.keys List.keys
  rw [List.map_map]
  congr 1
  apply List.map_congr_left
  rintro ⟨k, v⟩ he
  simp [(mem_entries m k v).1 he]

/-- The sum of the values, over a finite set that has every key of the map. -/
theorem total_eq_sum (m : FinMap K ℕ) {S : Finset K} (hS : ∀ k ∈ m, k ∈ S) :
    m.total = ∑ k ∈ S, (m.find? k).getD 0 := by
  rw [total_eq_keys, ← List.sum_toFinset _ m.keys_nodup]
  apply Finset.sum_subset
  · intro k hk
    exact hS k (AList.mem_keys.2 (List.mem_toFinset.1 hk))
  · intro k _ hk
    have : k ∉ m := fun h => hk (List.mem_toFinset.2 (AList.mem_keys.1 h))
    rw [(find?_eq_none m k).2 this, Option.getD_none]

theorem find?_le_total {m : FinMap K ℕ} {k : K} {v : ℕ} (h : m.find? k = some v) : v ≤ m.total := by
  have hmem : v ∈ m.entries.map (·.2) :=
    List.mem_map.2 ⟨⟨k, v⟩, (mem_entries m k v).2 h, rfl⟩
  exact List.le_sum_of_mem hmem

omit [DecidableEq K] in
@[simp] theorem total_empty : (∅ : FinMap K ℕ).total = 0 := rfl

/-- The sum only depends on the values. -/
theorem total_congr {m o : FinMap K ℕ} (h : ∀ k, m.find? k = o.find? k) : m.total = o.total := by
  have hsub : ∀ k ∈ m, k ∈ m.keys.toFinset := fun k hk => List.mem_toFinset.2 (AList.mem_keys.1 hk)
  have hsub' : ∀ k ∈ o, k ∈ m.keys.toFinset := by
    intro k hk
    rw [← find?_isSome, ← h, find?_isSome] at hk
    exact hsub k hk
  rw [total_eq_sum m hsub, total_eq_sum o hsub']
  exact Finset.sum_congr rfl fun k _ => by rw [h]

/-- Storing a value under a key replaces its share of the sum. -/
theorem total_insert (m : FinMap K ℕ) (k : K) (v : ℕ) :
    total (m.insert k v) + (m.find? k).getD 0 = m.total + v := by
  have hS : ∀ x ∈ m.insert k v, x ∈ insert k m.keys.toFinset := by
    intro x hx
    rw [AList.mem_insert] at hx
    simpa [AList.mem_keys] using hx
  have hS' : ∀ x ∈ m, x ∈ insert k m.keys.toFinset := by
    intro x hx
    simp [AList.mem_keys.1 hx]
  rw [total_eq_sum _ hS, total_eq_sum m hS', ← Finset.add_sum_erase _ _ (Finset.mem_insert_self _ _),
    ← Finset.add_sum_erase _ (fun x => (m.find? x).getD 0) (Finset.mem_insert_self k _),
    find?_insert_self]
  have hrest : ∑ x ∈ (insert k m.keys.toFinset).erase k, (find? (m.insert k v) x).getD 0 =
      ∑ x ∈ (insert k m.keys.toFinset).erase k, (m.find? x).getD 0 := by
    apply Finset.sum_congr rfl
    intro x hx
    rw [find?_insert_ne _ _ (Finset.ne_of_mem_erase hx)]
  rw [hrest]
  simp only [Option.getD_some]
  omega

end FinMap
