import Mathlib.Data.List.Nodup
import Mathlib.Data.List.Perm.Subperm

/-!
# Shortlists of a ranking

A ranking is a list without repetitions.  A shortlist has its first `k` candidates, in their order.
Two sets of candidates have two shortlists of the same ranking.

* `filter_mem_comm` — what is on both shortlists comes in the same order on both.
* `length_displaced_le` — **a candidate of both is displaced by a newcomer only**: from one shortlist
  to the other no more of them are displaced than others come in.
* `find?_disagree` — whose first candidates differ, one of them is not a candidate of the other.
-/

set_option autoImplicit false

namespace Shortlists

open List

variable {α : Type} [DecidableEq α]

/-- The first `k` of the candidates, in the order of the ranking. -/
def shortlist (ranking : List α) (k : ℕ) (candidate : α → Bool) : List α :=
  (ranking.filter candidate).take k

variable {l m : List α} {k : ℕ} {p q : α → Bool}

omit [DecidableEq α] in
theorem shortlist_sublist : shortlist l k p <+ l := (take_sublist _ _).trans filter_sublist

omit [DecidableEq α] in
theorem of_mem_shortlist {a : α} (h : a ∈ shortlist l k p) : a ∈ l ∧ p a = true :=
  mem_filter.1 (mem_of_mem_take h)

/-- A part of a list without repetitions is found in it by membership. -/
theorem filter_mem_eq (hl : l.Nodup) (hm : m <+ l) : (l.filter fun a => a ∈ m) = m := by
  induction hm with
  | slnil => rfl
  | cons a hm ih =>
    obtain ⟨ha, hl⟩ := nodup_cons.1 hl
    have hout : a ∉ _ := fun h => ha (hm.subset h)
    rw [filter_cons_of_neg (by simpa using hout), ih hl]
  | cons_cons a hm ih =>
    obtain ⟨ha, hl⟩ := nodup_cons.1 hl
    rw [filter_cons_of_pos (by simp)]
    congr 1
    refine Eq.trans (filter_congr fun b hb => ?_) (ih hl)
    have hne : b ≠ a := fun h => ha (h ▸ hb)
    simp [hne]

/-- What two parts of a list have in common comes in the same order in both. -/
theorem filter_mem_comm {m' : List α} (hl : l.Nodup) (hm : m <+ l) (hm' : m' <+ l) :
    (m.filter fun a => a ∈ m') = m'.filter fun a => a ∈ m := by
  have hleft := filter_mem_eq hl (filter_sublist.trans hm : m.filter (fun a => a ∈ m') <+ l)
  have hright := filter_mem_eq hl (filter_sublist.trans hm' : m'.filter (fun a => a ∈ m) <+ l)
  rw [← hleft, ← hright]
  refine filter_congr fun a _ => ?_
  simp only [mem_filter, decide_eq_true_eq, and_comm]

/-! ## Where a shortlist ends -/

omit [DecidableEq α] in
/-- A shortlist has the candidates of a first part of the ranking: of all of it, unless it is full. -/
theorem exists_cut (l : List α) (k : ℕ) (p : α → Bool) :
    ∃ i, shortlist l k p = (l.take i).filter p ∧
      (l.length ≤ i ∨ (shortlist l k p).length = k) := by
  unfold shortlist
  induction l generalizing k with
  | nil => exact ⟨0, by simp, Or.inl (Nat.le_refl 0)⟩
  | cons a l ih =>
    cases k with
    | zero => exact ⟨0, by simp, Or.inr (by simp)⟩
    | succ k =>
      by_cases ha : p a = true
      · obtain ⟨i, heq, hend⟩ := ih k
        refine ⟨i + 1, ?_, ?_⟩
        · rw [filter_cons_of_pos ha, take_succ_cons, take_succ_cons, filter_cons_of_pos ha, heq]
        · rw [filter_cons_of_pos ha, take_succ_cons, length_cons, length_cons]
          omega
      · obtain ⟨i, heq, hend⟩ := ih (k + 1)
        refine ⟨i + 1, ?_, ?_⟩
        · rw [filter_cons_of_neg ha, take_succ_cons, filter_cons_of_neg ha, heq]
        · rw [filter_cons_of_neg ha, length_cons]
          omega

/-- Who is a candidate of the other as well, but not on its shortlist. -/
def displaced (l : List α) (k : ℕ) (p q : α → Bool) : List α :=
  (shortlist l k p).filter fun a => q a && decide (a ∉ shortlist l k q)

theorem displaced_eq_nil (h : ∀ a ∈ shortlist l k p, q a = true → a ∈ shortlist l k q) :
    displaced l k p q = [] := by
  refine filter_eq_nil_iff.2 fun a ha hout => ?_
  obtain ⟨hq, hout⟩ := Bool.and_eq_true_iff.1 hout
  exact of_decide_eq_true hout (h a ha hq)

/-- **A candidate of both is displaced by a newcomer only.** -/
theorem length_displaced_le (hl : l.Nodup) (k : ℕ) (p q : α → Bool) :
    (displaced l k p q).length ≤ ((shortlist l k q).filter fun a => !p a).length := by
  obtain ⟨i, hp, -⟩ := exists_cut l k p
  obtain ⟨j, hq, hend⟩ := exists_cut l k q
  rcases Nat.lt_or_ge j i with hlt | hge
  · rcases hend with hend | hfull
    · have hnone : displaced l k p q = [] := displaced_eq_nil fun a ha hqa => by
        rw [hq, take_of_length_le hend]
        exact mem_filter.2 ⟨(of_mem_shortlist ha).1, hqa⟩
      rw [hnone]
      exact Nat.zero_le _
    · -- whom the two shortlists share comes before those displaced, on the longer one
      have hsub : displaced l k p q ++ (shortlist l k q).filter p ⊆ shortlist l k p := by
        intro a ha
        rcases mem_append.1 ha with ha | ha
        · exact mem_of_mem_filter ha
        · obtain ⟨haq, hpa⟩ := mem_filter.1 ha
          rw [hq] at haq
          rw [hp]
          exact mem_filter.2 ⟨take_subset_take_left l (Nat.le_of_lt hlt) (mem_of_mem_filter haq), hpa⟩
      have hnodup : (displaced l k p q ++ (shortlist l k q).filter p).Nodup := by
        refine nodup_append.2 ⟨(hl.sublist shortlist_sublist).filter _,
          (hl.sublist shortlist_sublist).filter _, ?_⟩
        rintro a ha b hb rfl
        obtain ⟨-, hout⟩ := Bool.and_eq_true_iff.1 (mem_filter.1 ha).2
        exact of_decide_eq_true hout (mem_of_mem_filter hb)
      have hle := (hnodup.subperm hsub).length_le
      rw [length_append] at hle
      have hshort : (shortlist l k p).length ≤ k := length_take_le _ _
      have hparts := length_eq_length_filter_add (l := shortlist l k q) p
      omega
  · have hnone : displaced l k p q = [] := displaced_eq_nil fun a ha hqa => by
      rw [hp] at ha
      rw [hq]
      exact mem_filter.2 ⟨take_subset_take_left l hge (mem_of_mem_filter ha), hqa⟩
    rw [hnone]
    exact Nat.zero_le _

/-! ## Who comes first -/

omit [DecidableEq α] in
theorem head?_shortlist (hk : 1 ≤ k) : (shortlist l k p).head? = l.find? p := by
  unfold shortlist
  rw [head?_take, if_neg (by omega), head?_filter]

omit [DecidableEq α] in
/-- Whose first candidates differ, one of them is not a candidate of the other. -/
theorem find?_disagree (l : List α) (p q : α → Bool) :
    l.find? p = l.find? q ∨ (∃ a, l.find? p = some a ∧ q a = false) ∨
      ∃ a, l.find? q = some a ∧ p a = false := by
  induction l with
  | nil => exact Or.inl rfl
  | cons a l ih =>
    cases hp : p a with
    | true =>
      cases hq : q a with
      | true => exact Or.inl (by rw [find?_cons_of_pos hp, find?_cons_of_pos hq])
      | false => exact Or.inr (Or.inl ⟨a, find?_cons_of_pos hp, hq⟩)
    | false =>
      cases hq : q a with
      | true => exact Or.inr (Or.inr ⟨a, find?_cons_of_pos hq, hp⟩)
      | false =>
        rw [find?_cons_of_neg (by simp [hp]), find?_cons_of_neg (by simp [hq])]
        exact ih

end Shortlists
