import Mathlib.Algebra.BigOperators.Group.Finset.Basic
import Mathlib.Algebra.Order.BigOperators.Group.Finset
import Mathlib.Data.Finset.Max
import Mathlib.Order.Lattice.Nat
import Mathlib.Order.WithBot

/-!
# Causal histories, and what they add up to

Events with a relation `before` that says which events an event has observed.  A history is a finite
set of events; it is `Closed` when it has everything that its events have observed.  Where some
events are pairwise ordered by `before` (those of one owner, say), closed histories have comparable
shares of them (`Closed.comparable`).

* `tally` — the sum of the amounts of a history, or nothing where no event has an amount.
  `tally_union` adds up the union of two histories with comparable shares to the larger tally,
  which is what a counter that merges by maximum does.
* `Newest` — the mark with the greatest key among the events of a history; `Newest.union` and
  `Newest.insert` are what a last-writer-wins register does.
* `setting` — what an event sets a sum to; `sum_nonneg_of_cover` says which settings keep the sum
  of every history from going below zero.
-/

set_option autoImplicit false

namespace Histories

variable {E : Type} [DecidableEq E]

/-! ## Closed histories -/

/-- Everything in `all` that an event of `H` has observed is in `H`. -/
def Closed (before : E → E → Prop) (all H : Finset E) : Prop :=
  ∀ e ∈ H, ∀ e' ∈ all, before e' e → e' ∈ H

variable {before : E → E → Prop} {all H K : Finset E}

omit [DecidableEq E] in
theorem closed_empty : Closed before all ∅ := fun e he => absurd he (Finset.notMem_empty e)

theorem Closed.union (hH : Closed before all H) (hK : Closed before all K) :
    Closed before all (H ∪ K) := by
  intro e he e' he' hb
  rcases Finset.mem_union.1 he with he | he
  · exact Finset.mem_union_left _ (hH e he e' he' hb)
  · exact Finset.mem_union_right _ (hK e he e' he' hb)

/-- A closed history stays closed under new events, which it has not observed. -/
theorem Closed.grow (hH : Closed before all H) {x : E} (hx : ∀ e ∈ H, ¬ before x e) :
    Closed before (insert x all) H := by
  intro e he e' he' hb
  rcases Finset.mem_insert.1 he' with rfl | he'
  · exact absurd hb (hx e he)
  · exact hH e he e' he' hb

/-- A history with an event that has observed only it. -/
theorem Closed.insert (hH : Closed before all H) {x : E} (hx : ∀ e ∈ all, before e x → e ∈ H) :
    Closed before all (insert x H) := by
  intro e he e' he' hb
  rcases Finset.mem_insert.1 he with rfl | he
  · exact Finset.mem_insert_of_mem (hx e' he' hb)
  · exact Finset.mem_insert_of_mem (hH e he e' he' hb)

/-- **Closed histories have comparable shares of events that are pairwise ordered.** -/
theorem Closed.comparable (hH : Closed before all H) (hK : Closed before all K) (hHsub : H ⊆ all)
    (hKsub : K ⊆ all) (p : E → Prop) [DecidablePred p]
    (hchain : ∀ e ∈ all, ∀ e' ∈ all, p e → p e' → e = e' ∨ before e e' ∨ before e' e) :
    H.filter p ⊆ K.filter p ∨ K.filter p ⊆ H.filter p := by
  by_cases hsub : H.filter p ⊆ K.filter p
  · exact Or.inl hsub
  · obtain ⟨x, hxH, hxK⟩ := Finset.not_subset.1 hsub
    obtain ⟨hx, hpx⟩ := Finset.mem_filter.1 hxH
    have hxnot : x ∉ K := fun h => hxK (Finset.mem_filter.2 ⟨h, hpx⟩)
    refine Or.inr fun y hy => ?_
    obtain ⟨hyK, hpy⟩ := Finset.mem_filter.1 hy
    refine Finset.mem_filter.2 ⟨?_, hpy⟩
    rcases hchain x (hHsub hx) y (hKsub hyK) hpx hpy with rfl | hb | hb
    · exact hx
    · exact absurd (hK y hyK x (hHsub hx) hb) hxnot
    · exact hH x hx y (hKsub hyK) hb

/-! ## Tallies -/

/-- The sum of the amounts, unless no event has one. -/
def tally (f : E → Option ℕ) (S : Finset E) : WithBot ℕ :=
  if ∃ e ∈ S, (f e).isSome = true then WithBot.some (∑ e ∈ S, (f e).getD 0) else ⊥

variable {f : E → Option ℕ} {S T : Finset E}

omit [DecidableEq E] in
theorem tally_unbotD (f : E → Option ℕ) (S : Finset E) :
    (tally f S).unbotD 0 = ∑ e ∈ S, (f e).getD 0 := by
  unfold tally
  split
  · rfl
  · rename_i hnone
    refine (Finset.sum_eq_zero fun e he => ?_).symm
    cases hfe : f e with
    | none => rfl
    | some m => exact absurd ⟨e, he, by rw [hfe]; rfl⟩ hnone

omit [DecidableEq E] in
theorem tally_mono (h : S ⊆ T) : tally f S ≤ tally f T := by
  unfold tally
  by_cases hS : ∃ e ∈ S, (f e).isSome = true
  · obtain ⟨e, he, hfe⟩ := hS
    rw [if_pos ⟨e, he, hfe⟩, if_pos ⟨e, h he, hfe⟩]
    exact WithBot.coe_le_coe.2 (Finset.sum_le_sum_of_subset h)
  · rw [if_neg hS]
    exact bot_le

theorem tally_union (h : S ⊆ T ∨ T ⊆ S) : tally f (S ∪ T) = tally f S ⊔ tally f T := by
  rcases h with h | h
  · rw [Finset.union_eq_right.2 h, sup_eq_right.2 (tally_mono h)]
  · rw [Finset.union_eq_left.2 h, sup_eq_left.2 (tally_mono h)]

theorem tally_insert_none {x : E} (hx : f x = none) : tally f (insert x S) = tally f S := by
  have hex : (∃ e ∈ insert x S, (f e).isSome = true) ↔ ∃ e ∈ S, (f e).isSome = true := by
    simp [hx]
  by_cases hxS : x ∈ S
  · rw [Finset.insert_eq_of_mem hxS]
  · unfold tally
    rw [Finset.sum_insert hxS, hx, Option.getD_none, zero_add, if_congr hex rfl rfl]

theorem tally_insert_some {x : E} {n : ℕ} (hxS : x ∉ S) (hx : f x = some n) :
    tally f (insert x S) = WithBot.some ((tally f S).unbotD 0 + n) := by
  rw [tally_unbotD]
  unfold tally
  rw [if_pos ⟨x, Finset.mem_insert_self x S, by rw [hx]; rfl⟩, Finset.sum_insert hxS, hx,
    Option.getD_some, add_comm]

/-! ## The newest mark -/

variable {R κ : Type} [LinearOrder κ]

/-- `r` is the mark with the greatest key among those of the history. -/
structure Newest (mark : E → Option R) (key : R → κ) (S : Finset E) (r : R) : Prop where
  written : ∃ e ∈ S, mark e = some r
  le : ∀ e ∈ S, ∀ q, mark e = some q → key q ≤ key r

variable {mark : E → Option R} {key : R → κ} {r q : R}

theorem Newest.insert_none {x : E} (h : Newest mark key S r) (hx : mark x = none) :
    Newest mark key (insert x S) r := by
  obtain ⟨e, he, hr⟩ := h.written
  refine ⟨⟨e, Finset.mem_insert_of_mem he, hr⟩, fun e' he' q hq => ?_⟩
  rcases Finset.mem_insert.1 he' with rfl | he'
  · rw [hx] at hq
    cases hq
  · exact h.le e' he' q hq

theorem newest_insert {x : E} (hle : ∀ e ∈ S, ∀ q, mark e = some q → key q ≤ key r)
    (hx : mark x = some r) : Newest mark key (insert x S) r := by
  refine ⟨⟨x, Finset.mem_insert_self x S, hx⟩, fun e' he' q hq => ?_⟩
  rcases Finset.mem_insert.1 he' with rfl | he'
  · rw [hx] at hq
    cases hq
    exact le_rfl
  · exact hle e' he' q hq

/-- The newer of the newest marks of two histories. -/
theorem Newest.union (hS : Newest mark key S r) (hT : Newest mark key T q) :
    Newest mark key (S ∪ T) (if key r < key q then q else r) := by
  obtain ⟨e, he, hr⟩ := hS.written
  obtain ⟨e', he', hq⟩ := hT.written
  by_cases hlt : key r < key q
  · rw [if_pos hlt]
    refine ⟨⟨e', Finset.mem_union_right _ he', hq⟩, fun x hx m hm => ?_⟩
    rcases Finset.mem_union.1 hx with hx | hx
    · exact (hS.le x hx m hm).trans hlt.le
    · exact hT.le x hx m hm
  · rw [if_neg hlt]
    refine ⟨⟨e, Finset.mem_union_left _ he, hr⟩, fun x hx m hm => ?_⟩
    rcases Finset.mem_union.1 hx with hx | hx
    · exact hS.le x hx m hm
    · exact (hT.le x hx m hm).trans (not_lt.1 hlt)

omit [DecidableEq E] in
/-- Marks are told apart by their keys, so that the newest one is unique. -/
theorem Newest.unique (hinj : ∀ e ∈ S, ∀ e' ∈ S, ∀ r q, mark e = some r → mark e' = some q →
    key r = key q → r = q) (hr : Newest mark key S r) (hq : Newest mark key S q) : r = q := by
  obtain ⟨e, he, hme⟩ := hr.written
  obtain ⟨e', he', hme'⟩ := hq.written
  exact hinj e he e' he' r q hme hme'
    (le_antisymm (hq.le e he r hme) (hr.le e' he' q hme'))

/-! ## Settings -/

variable [DecidableRel before] {delta : E → ℤ}

/-- What an event sets the sum to, by adding `delta` to the sum of what it has observed. -/
def setting (before : E → E → Prop) [DecidableRel before] (delta : E → ℤ) (all : Finset E) (e : E) :
    ℤ :=
  delta e + ∑ x ∈ all with before x e, delta x

/-- The earlier events that lower the sum and that `e` has not observed. -/
def missed (before : E → E → Prop) [DecidableRel before] (delta : E → ℤ) (rank : E → ℕ)
    (all : Finset E) (e : E) : Finset E :=
  all.filter fun x => delta x < 0 ∧ rank x < rank e ∧ ¬ before x e

/-- **No history adds up to less than nothing**, where each event that lowers the sum sets it to
something that the lowering it has missed does not exceed. -/
theorem sum_nonneg_of_cover (rank : E → ℕ) (hS : Closed before all H) (hsub : H ⊆ all)
    (hirrefl : ∀ e ∈ all, ¬ before e e)
    (hinj : ∀ e ∈ all, ∀ x ∈ all, rank e = rank x → e = x)
    (hcover : ∀ e ∈ all, delta e < 0 →
      0 ≤ setting before delta all e + ∑ x ∈ missed before delta rank all e, delta x) :
    0 ≤ ∑ x ∈ H, delta x := by
  by_cases hex : ∃ x ∈ H, delta x < 0
  · obtain ⟨x, hx, hxlow⟩ := hex
    -- the last event that lowers the sum: all others are in its past or missed
    obtain ⟨e, he, hmax⟩ := Finset.exists_max_image (H.filter (delta · < 0)) rank
      ⟨x, Finset.mem_filter.2 ⟨hx, hxlow⟩⟩
    obtain ⟨heH, helow⟩ := Finset.mem_filter.1 he
    have hnot : e ∉ all.filter (before · e) := fun h =>
      hirrefl e (hsub heH) (Finset.mem_filter.1 h).2
    have hpast : all.filter (before · e) ⊆ H := by
      intro y hy
      obtain ⟨hyall, hb⟩ := Finset.mem_filter.1 hy
      exact hS e heH y hyall hb
    have hheard : insert e (all.filter (before · e)) ⊆ H :=
      Finset.insert_subset heH hpast
    have hmissed : (H \ insert e (all.filter (before · e))).filter (delta · < 0) ⊆
        missed before delta rank all e := by
      intro y hy
      obtain ⟨hyrest, hylow⟩ := Finset.mem_filter.1 hy
      obtain ⟨hyH, hynot⟩ := Finset.mem_sdiff.1 hyrest
      have hyall := hsub hyH
      refine Finset.mem_filter.2 ⟨hyall, hylow, lt_of_le_of_ne
        (hmax y (Finset.mem_filter.2 ⟨hyH, hylow⟩)) fun heq => hynot ?_, fun hb => hynot ?_⟩
      · rw [hinj y hyall e (hsub heH) heq]
        exact Finset.mem_insert_self e _
      · exact Finset.mem_insert_of_mem (Finset.mem_filter.2 ⟨hyall, hb⟩)
    have hrest : ∑ y ∈ missed before delta rank all e, delta y ≤
        ∑ y ∈ H \ insert e (all.filter (before · e)), delta y :=
      calc ∑ y ∈ missed before delta rank all e, delta y
          ≤ ∑ y ∈ H \ insert e (all.filter (before · e)) with delta y < 0, delta y :=
            Finset.sum_le_sum_of_subset_of_nonpos' hmissed
              fun y hy _ => (Finset.mem_filter.1 hy).2.1.le
        _ ≤ ∑ y ∈ H \ insert e (all.filter (before · e)), delta y :=
            Finset.sum_le_sum_of_subset_of_nonneg (Finset.filter_subset _ _)
              fun y hy hynot => not_lt.1 fun hlow => hynot (Finset.mem_filter.2 ⟨hy, hlow⟩)
    have hcov := hcover e (hsub heH) helow
    unfold setting at hcov
    rw [← Finset.sum_insert hnot] at hcov
    rw [← Finset.sum_sdiff hheard]
    omega
  · exact Finset.sum_nonneg fun x hx => not_lt.1 fun hlow => hex ⟨x, hx, hlow⟩

end Histories
