import Sdle.Crdt
import Sdle.Lib.Joins

/-!
# Merge is a join (`crdt.rs`)

States are compared up to `GCounter::actor_id`, by `AWORMap.view`.  The registers of one item are
told apart by their `(clock, actor)`, as far as no two of them carry different values under one.

* `merge_is_join` — **merge is a join**: on states whose registers agree it is commutative,
  associative and idempotent, a least upper bound, and every way to merge a finite collection gives
  the same state.
-/

set_option autoImplicit false

namespace Sdle

namespace AWORMap

/-- The registers of a map, with the names of their items. -/
def registers (s : AWORMap) : Set (String × LWWReg Uuid) :=
  {x | ∃ v, s.view x.1 = some v ∧ v.acquired = x.2}

/-- Registers of one item with equal `(clock, actor)` carry equal values. -/
def RegistersAgree (S : Set AWORMap) : Prop :=
  ∀ s ∈ S, ∀ t ∈ S, ∀ name r q, (name, r) ∈ s.registers → (name, q) ∈ t.registers →
    r.stamp = q.stamp → r.val = q.val

theorem isLUB_merge (s t : AWORMap) : IsLUB {s, t} (s.merge t) := by
  refine ⟨?_, fun u hu => merge_le (hu (Set.mem_insert _ _)) (hu (Set.mem_insert_of_mem _ rfl))⟩
  rintro x (rfl | rfl)
  · exact le_merge_left _ _
  · exact le_merge_right _ _

theorem registers_merge (s t : AWORMap) : (s.merge t).registers ⊆ s.registers ∪ t.registers := by
  rintro ⟨name, r⟩ ⟨v, hv, rfl⟩
  dsimp only at hv ⊢
  rw [view_merge] at hv
  cases hs : s.view name with
  | none =>
    rw [hs] at hv
    cases ht : t.view name with
    | none =>
      rw [ht] at hv
      cases hv
    | some w =>
      rw [ht] at hv
      exact Or.inr ⟨v, ht.trans hv, rfl⟩
  | some u =>
    rw [hs] at hv
    cases ht : t.view name with
    | none =>
      rw [ht] at hv
      exact Or.inl ⟨v, hs.trans hv, rfl⟩
    | some w =>
      rw [ht] at hv
      obtain rfl := Option.some.inj hv
      have hreg : (u.merge w).acquired = u.acquired.merge w.acquired := rfl
      rw [LWWReg.merge_eq] at hreg
      split at hreg
      · exact Or.inr ⟨w, ht, hreg.symm⟩
      · exact Or.inl ⟨u, hs, hreg.symm⟩

/-- States that are below each other hold the same, where their registers agree. -/
theorem view_eq_of_le {s t : AWORMap} (hst : s ≤ t) (hts : t ≤ s)
    (hreg : ∀ name r q, (name, r) ∈ s.registers → (name, q) ∈ t.registers →
      r.stamp = q.stamp → r.val = q.val) : s.view = t.view := by
  rw [le_iff_view] at hst hts
  funext name
  cases hs : s.view name with
  | none =>
    cases ht : t.view name with
    | none => rfl
    | some w =>
      obtain ⟨v, hv, -⟩ := hts name w ht
      rw [hs] at hv
      cases hv
  | some v =>
    obtain ⟨w, hw, hp, hn, hr⟩ := hst name v hs
    obtain ⟨v', hv', hp', hn', hr'⟩ := hts name w hw
    obtain rfl : v = v' := Option.some.inj (hs.symm.trans hv')
    have hstamp : v.acquired.stamp = w.acquired.stamp := le_antisymm hr hr'
    have hacquired : v.acquired = w.acquired :=
      LWWReg.eq_of_stamp_eq hstamp (hreg name _ _ ⟨v, hs, rfl⟩ ⟨w, hw, rfl⟩ hstamp)
    have heq : v = w := by
      cases v
      cases w
      simp only [Item.View.mk.injEq]
      exact ⟨le_antisymm hp hp', le_antisymm hn hn', hacquired⟩
    rw [hw, heq]

/-- Two ways to merge the same states give the same state. -/
theorem view_result {S : Set AWORMap} (hS : RegistersAgree S) (e e' : Merging AWORMap)
    (he : e.states ⊆ S) (hstates : e.states = e'.states) :
    (e.result merge).view = (e'.result merge).view := by
  have hlub := Merging.isLUB_result isLUB_merge e
  have hlub' := Merging.isLUB_result isLUB_merge e'
  rw [← hstates] at hlub'
  refine view_eq_of_le (hlub.2 hlub'.1) (hlub'.2 hlub.1) fun name r q hr hq hstamp => ?_
  obtain ⟨s, hs, hr⟩ := Set.mem_iUnion₂.1 (Merging.result_subset registers_merge e hr)
  obtain ⟨t, ht, hq⟩ := Set.mem_iUnion₂.1 (Merging.result_subset registers_merge e' hq)
  rw [← hstates] at ht
  exact hS s (he hs) t (he ht) name r q hr hq hstamp

/-- One item, of which client 201 wants one. -/
def milkWanted : AWORMap := AWORMap.new.insert "milk" (Item.new 1 false ⟨201⟩)

/-- The same item, after client 202 has bought it. -/
def milkBought : AWORMap :=
  AWORMap.new.insert "milk" { Item.new 1 false ⟨201⟩ with acquired := ⟨1, 1, ⟨202⟩⟩ }

theorem registersAgree_milk : RegistersAgree {milkWanted, milkBought} := by
  have hwanted : ∀ {name r}, (name, r) ∈ milkWanted.registers → r = ⟨0, 0, ⟨201⟩⟩ := by
    rintro name r ⟨v, hv, rfl⟩
    simp only [view, milkWanted, insert, AWORMap.new, FinMap.find?_empty, FinMap.find?_insert] at hv
    split at hv
    · obtain rfl := Option.some.inj hv
      rfl
    · cases hv
  have hbought : ∀ {name r}, (name, r) ∈ milkBought.registers → r = ⟨1, 1, ⟨202⟩⟩ := by
    rintro name r ⟨v, hv, rfl⟩
    simp only [view, milkBought, insert, AWORMap.new, FinMap.find?_empty, FinMap.find?_insert] at hv
    split at hv
    · obtain rfl := Option.some.inj hv
      rfl
    · cases hv
  rintro s (rfl | rfl) t (rfl | rfl) name r q hr hq hstamp
  · rw [hwanted hr, hwanted hq]
  · rw [hwanted hr, hbought hq] at hstamp
    exact absurd (Prod.mk.inj (toLex_inj.1 hstamp)).1 (by decide)
  · rw [hbought hr, hwanted hq] at hstamp
    exact absurd (Prod.mk.inj (toLex_inj.1 hstamp)).1 (by decide)
  · rw [hbought hr, hbought hq]

/-- **Merge is a join** on states whose registers agree. -/
theorem merge_is_join {S : Set AWORMap} (hS : RegistersAgree S) :
    (∀ a ∈ S, ∀ b ∈ S, (a.merge b).view = (b.merge a).view) ∧
      (∀ a ∈ S, ∀ b ∈ S, ∀ c ∈ S, ((a.merge b).merge c).view = (a.merge (b.merge c)).view) ∧
      (∀ a ∈ S, (a.merge a).view = a.view) ∧
      (∀ a ∈ S, ∀ b ∈ S, IsLUB {a, b} (a.merge b)) ∧
      ∀ e e' : Merging AWORMap, e.states ⊆ S → e.states = e'.states →
        (e.result merge).view = (e'.result merge).view := by
  refine ⟨fun a ha b hb => ?comm, fun a ha b hb c hc => ?assoc, fun a ha => ?idem,
    fun a _ b _ => isLUB_merge a b, fun e e' he hstates => view_result hS e e' he hstates⟩
  case comm =>
    refine view_result hS (.merge (.state a) (.state b)) (.merge (.state b) (.state a)) ?_
      (Set.union_comm _ _)
    rintro x (rfl | rfl)
    · exact ha
    · exact hb
  case assoc =>
    refine view_result hS (.merge (.merge (.state a) (.state b)) (.state c))
      (.merge (.state a) (.merge (.state b) (.state c))) ?_ (Set.union_assoc _ _ _)
    rintro x ((rfl | rfl) | rfl)
    · exact ha
    · exact hb
    · exact hc
  case idem =>
    refine view_result hS (.merge (.state a) (.state a)) (.state a) ?_ (Set.union_self _)
    rintro x (rfl | rfl) <;> exact ha

theorem merge_is_join_milk :
    RegistersAgree {milkWanted, milkBought} ∧
      (milkWanted.merge milkBought).view = (milkBought.merge milkWanted).view :=
  ⟨registersAgree_milk,
    (merge_is_join registersAgree_milk).1 _ (Set.mem_insert _ _) _ (Set.mem_insert_of_mem _ rfl)⟩

end AWORMap

end Sdle
