import Mathlib.Data.Finset.Max
import Mathlib.Logic.Relation

/-!
# Chains of a function on ranked elements

A relation in which every element has at most one successor, on a finite set of elements with
distinct ranks.  A step goes back to a smaller rank, or up; where an upward step always goes to the
next rank, nothing is skipped on the way up.

* `back_of_cycle` — an element on a cycle is led back to from everything that it leads to.
* `end_unique` — a chain has one end.
* `Ranked.climb` — between two ranks that only upward steps leave, the lower one leads to the upper.
* `Ranked.cycle_iff` — **a chain comes back to its start exactly when the start lies in an interval of
  ranks** that is left upwards everywhere but at its end, and from its end to its beginning.
-/

set_option autoImplicit false

namespace Chains

open Relation

variable {α : Type} {r : α → α → Prop}

/-- On a cycle there is a way back. -/
theorem back_of_cycle (hr : Relator.RightUnique r) {a b : α} (hcycle : TransGen r a a)
    (h : ReflTransGen r a b) : ReflTransGen r b a := by
  induction h with
  | refl => exact .refl
  | @tail c b _ hstep ih =>
    rcases ih.cases_head with rfl | ⟨d, hcd, hda⟩
    · obtain ⟨d, hcd, hda⟩ := TransGen.head'_iff.1 hcycle
      exact hr hcd hstep ▸ hda
    · exact hr hcd hstep ▸ hda

/-- A chain has one end. -/
theorem end_unique (hr : Relator.RightUnique r) {a b c : α} (hab : ReflTransGen r a b)
    (hb : ∀ x, ¬ r b x) (hac : ReflTransGen r a c) (hc : ∀ x, ¬ r c x) : b = c := by
  rcases ReflTransGen.total_of_right_unique hr hab hac with hbc | hcb
  · rcases hbc.cases_head with heq | ⟨x, hx, -⟩
    · exact heq
    · exact absurd hx (hb x)
  · rcases hcb.cases_head with heq | ⟨x, hx, -⟩
    · exact heq.symm
    · exact absurd hx (hc x)

/-- The elements have distinct ranks, every step changes the rank, and an upward step goes to the
next one. -/
structure Ranked (r : α → α → Prop) (S : Finset α) (rank : α → ℕ) : Prop where
  unique : Relator.RightUnique r
  closed : ∀ {a b}, r a b → b ∈ S
  distinct : ∀ {a b}, a ∈ S → b ∈ S → rank a = rank b → a = b
  next : ∀ {a b c}, r a b → rank a < rank b → c ∈ S → rank a < rank c → rank b ≤ rank c

namespace Ranked

variable {S : Finset α} {rank : α → ℕ} (h : Ranked r S rank)

include h

theorem mem_of_leads {a b : α} (ha : a ∈ S) (hab : ReflTransGen r a b) : b ∈ S := by
  rcases hab.cases_tail with rfl | ⟨c, -, hcb⟩
  · exact ha
  · exact h.closed hcb

/-- From a rank up to another one, where every step on the way goes up. -/
theorem climb {b : α} (hb : b ∈ S) {low : ℕ}
    (hup : ∀ x ∈ S, low ≤ rank x → rank x < rank b → ∃ y, r x y ∧ rank x < rank y) {a : α}
    (ha : a ∈ S) (hlow : low ≤ rank a) (hab : rank a ≤ rank b) : ReflTransGen r a b := by
  induction hd : rank b - rank a using Nat.strongRecOn generalizing a with
  | ind d ih =>
    rcases hab.eq_or_lt with heq | hlt
    · rw [h.distinct ha hb heq]
    · obtain ⟨y, hay, hy⟩ := hup a ha hlow hlt
      have hyb : rank y ≤ rank b := h.next hay hy hb hlt
      exact .head hay (ih _ (by omega) (h.closed hay) (hlow.trans hy.le) hyb rfl)

/-- A chain that has gone back never gets above that rank again. -/
theorem stays_below {x y : α} (hxy : r x y) (hback : ¬ rank x < rank y) (hx : x ∈ S) {z : α}
    (hz : ReflTransGen r x z) : rank z ≤ rank x := by
  induction hz with
  | refl => exact le_rfl
  | @tail a b hxa hab ih =>
    rcases ih.eq_or_lt with heq | hlt
    · rw [h.distinct (h.mem_of_leads hx hxa) hx heq] at hab
      rw [h.unique hab hxy]
      exact not_lt.1 hback
    · by_cases hup : rank a < rank b
      · exact h.next hab hup hx hlt
      · exact (not_lt.1 hup).trans ih

/-- **A chain comes back to its start exactly when the start lies in such an interval.** -/
theorem cycle_iff {s : α} (hs : s ∈ S) :
    TransGen r s s ↔ ∃ v ∈ S, ∃ w, r v w ∧ rank w ≤ rank s ∧ rank s ≤ rank v ∧
      ∀ x ∈ S, rank w ≤ rank x → rank x < rank v → ∃ y, r x y ∧ rank x < rank y := by
  classical
  constructor
  · intro hcycle
    -- the largest rank on the cycle, and what follows it
    obtain ⟨v, hv, hmax⟩ := (S.filter fun x => ReflTransGen r s x).exists_max_image rank
      ⟨s, Finset.mem_filter.2 ⟨hs, .refl⟩⟩
    obtain ⟨hvS, hsv⟩ := Finset.mem_filter.1 hv
    have hmax : ∀ {x}, ReflTransGen r s x → rank x ≤ rank v := fun hx =>
      hmax _ (Finset.mem_filter.2 ⟨h.mem_of_leads hs hx, hx⟩)
    have hvs : ReflTransGen r v s := back_of_cycle h.unique hcycle hsv
    obtain ⟨w, hvw, hws⟩ := TransGen.head'_iff.1 (TransGen.trans_right hvs hcycle)
    have hsw : ReflTransGen r s w := hsv.tail hvw
    -- below the largest rank the cycle only goes up
    have hascends : ∀ {x}, ReflTransGen r s x → rank x < rank v → ∃ y, r x y ∧ rank x < rank y := by
      intro x hsx hxv
      have hxs : ReflTransGen r x s := back_of_cycle h.unique hcycle hsx
      obtain ⟨y, hxy, -⟩ := TransGen.head'_iff.1 (TransGen.trans_right hxs hcycle)
      refine ⟨y, hxy, ?_⟩
      by_contra hback
      exact absurd (h.stays_below hxy hback (h.mem_of_leads hs hsx) (hxs.trans hsv)) (not_le.2 hxv)
    refine ⟨v, hvS, w, hvw, ?low, hmax .refl, fun x hx hwx hxv => ?up⟩
    case low =>
      -- nothing on the cycle is below what follows the largest rank
      refine (?_ : ∀ z, ReflTransGen r v z → rank w ≤ rank z) s hvs
      intro z hvz
      induction hvz with
      | refl => exact hmax hsw
      | @tail a b hva hab ih =>
        have hsa : ReflTransGen r s a := hsv.trans hva
        rcases (hmax hsa).eq_or_lt with heq | hlt
        · rw [h.distinct (h.mem_of_leads hs hsa) hvS heq] at hab
          rw [h.unique hab hvw]
        · obtain ⟨y, hay, hy⟩ := hascends hsa hlt
          rw [h.unique hab hay]
          exact ih.trans hy.le
    case up =>
      -- the last element of the cycle up to `x` is `x` itself
      obtain ⟨z, hz, hlast⟩ := (S.filter fun z => ReflTransGen r s z ∧ rank z ≤ rank x).exists_max_image
        rank ⟨w, Finset.mem_filter.2 ⟨h.closed hvw, hsw, hwx⟩⟩
      obtain ⟨hzS, hsz, hzx⟩ := Finset.mem_filter.1 hz
      obtain ⟨y, hzy, hy⟩ := hascends hsz (hzx.trans_lt hxv)
      rcases hzx.eq_or_lt with heq | hlt
      · rw [← h.distinct hzS hx heq]
        exact ⟨y, hzy, hy⟩
      · have hyx : rank y ≤ rank x := h.next hzy hy hx hlt
        exact absurd (hlast y (Finset.mem_filter.2 ⟨h.closed hzy, hsz.tail hzy, hyx⟩)) (not_le.2 hy)
  · rintro ⟨v, hv, w, hvw, hws, hsv, hup⟩
    have hupward : ReflTransGen r s v := h.climb hv hup hs hws hsv
    have hdown : ReflTransGen r w s := by
      refine h.climb hs (fun x hx hwx hxs => hup x hx hwx (hxs.trans_le hsv)) (h.closed hvw) le_rfl hws
    exact TransGen.trans_left (.tail' hupward hvw) hdown

end Ranked

end Chains
