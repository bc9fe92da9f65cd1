import Mathlib.Data.List.Infix
import Mathlib.Data.List.Nodup
import Mathlib.Data.List.Perm.Basic

/-!
# First occurrences

`List.eraseDups` keeps the first occurrence of every element, so it lists the elements in the order
in which they are first met.

* `filter_eraseDups` — leaving elements out of the list leaves them out of the result.
* `pairwise_eraseDups` — the elements come in the order of the entries at which they are first met.
* `eraseDups_filter_append` — a second pass over a list adds only what the first one left out.
* `take_append_comm_iff` — when it does not matter which of two lists is met first.
* `erase_take_isPrefix`, `take_eq_of_not_mem`, `eq_getLast_of_not_mem_take`, `take_erase_of_mem` —
  what one element more or less does to the first `k` of a list without repetitions.
-/

set_option autoImplicit false

namespace Firsts

open List

variable {α : Type} [DecidableEq α]

theorem filter_eraseDups (p : α → Bool) (l : List α) :
    l.eraseDups.filter p = (l.filter p).eraseDups := by
  induction h : l.length using Nat.strongRecOn generalizing l with
  | ind k ih =>
    cases l with
    | nil => simp
    | cons a l =>
      have hlen : (l.filter fun b => !b == a).length < k := by
        rw [← h]
        exact Nat.lt_succ_of_le (List.length_filter_le _ _)
      have hrest := ih _ hlen (l.filter fun b => !b == a) rfl
      rw [eraseDups_cons, filter_cons, filter_cons]
      split
      · rw [eraseDups_cons, hrest, filter_filter, filter_filter]
        simp only [Bool.and_comm]
      · rename_i hp
        rw [hrest, filter_filter]
        congr 1
        refine filter_congr fun b _ => ?_
        by_cases hb : b = a
        · subst hb
          simp [hp]
        · simp [hb]

theorem nodup_eraseDups (l : List α) : l.eraseDups.Nodup := by
  induction h : l.length using Nat.strongRecOn generalizing l with
  | ind k ih =>
    cases l with
    | nil => simp
    | cons a l =>
      have hlen : (l.filter fun b => !b == a).length < k := by
        rw [← h]
        exact Nat.lt_succ_of_le (List.length_filter_le _ _)
      rw [eraseDups_cons, nodup_cons, mem_eraseDups]
      exact ⟨by simp, ih _ hlen _ rfl⟩

/-! ## The order of first meetings -/

section Order

variable {β : Type} (f : β → α)

/-- The elements come in the order of the entries at which they are first met. -/
theorem pairwise_eraseDups {R : β → β → Prop} {l : List β} (hl : l.Pairwise R) :
    (l.map f).eraseDups.Pairwise fun u v => ∃ a ∈ l, f a = u ∧ ∀ b ∈ l, f b = v → R a b := by
  induction h : l.length using Nat.strongRecOn generalizing l with
  | ind k ih =>
    cases l with
    | nil => simp
    | cons a l =>
      obtain ⟨hhead, htail⟩ := pairwise_cons.1 hl
      have hlen : (l.filter fun b => !f b == f a).length < k := by
        rw [← h]
        exact Nat.lt_succ_of_le (length_filter_le _ _)
      have hrest := ih _ hlen (htail.filter _) rfl
      have hmap : ((l.map f).filter fun b => !b == f a) = (l.filter fun b => !f b == f a).map f :=
        filter_map
      rw [map_cons, eraseDups_cons, hmap, pairwise_cons]
      refine ⟨fun v hv => ⟨a, mem_cons_self, rfl, fun b hb hbv => ?_⟩, ?_⟩
      · rw [mem_eraseDups, mem_map] at hv
        obtain ⟨c, hc, rfl⟩ := hv
        have hne : f c ≠ f a := by simpa using (mem_filter.1 hc).2
        rcases mem_cons.1 hb with rfl | hb
        · exact absurd hbv.symm hne
        · exact hhead b hb
      · refine hrest.imp_of_mem fun {u v} _ hv hfirst => ?_
        obtain ⟨c, hc, hcu, hbefore⟩ := hfirst
        rw [mem_eraseDups, mem_map] at hv
        obtain ⟨d, hd, rfl⟩ := hv
        have hne : f d ≠ f a := by simpa using (mem_filter.1 hd).2
        refine ⟨c, mem_cons_of_mem _ (mem_of_mem_filter hc), hcu, fun b hb hbv => ?_⟩
        rcases mem_cons.1 hb with rfl | hb
        · exact absurd hbv.symm hne
        · exact hbefore b (mem_filter.2 ⟨hb, by simpa [hbv] using hne⟩) hbv

/-- A second pass over a list adds only what the first one left out. -/
theorem eraseDups_filter_append (p : β → Bool) (l : List β) :
    ((l.filter p ++ l).map f).eraseDups =
      ((l.filter p ++ l.filter fun b => !p b).map f).eraseDups := by
  have hkept : ∀ b ∈ l, (f b ∉ (l.filter p).map f) → p b = false := fun b hb hnot =>
    eq_false_of_ne_true fun hp => hnot (mem_map_of_mem (mem_filter.2 ⟨hb, hp⟩))
  rw [map_append, map_append, eraseDups_append, eraseDups_append]
  congr 2
  unfold removeAll
  rw [filter_map, filter_map, filter_filter]
  refine congrArg _ (filter_congr fun b hb => ?_)
  by_cases hnot : f b ∉ (l.filter p).map f
  · rw [hkept b hb hnot]
    simp
  · rw [not_not] at hnot
    simp only [Function.comp_apply, elem_eq_mem, hnot, decide_true, Bool.not_true, Bool.false_and]

/-- Where `p` holds from some entry on, the list is what comes before followed by what holds. -/
theorem filter_not_append_filter {p : β → Bool} {l : List β}
    (h : l.Pairwise fun a b => p a = true → p b = true) :
    (l.filter fun b => !p b) ++ l.filter p = l := by
  induction l with
  | nil => rfl
  | cons a l ih =>
    obtain ⟨hhead, htail⟩ := pairwise_cons.1 h
    by_cases ha : p a = true
    · have hall : ∀ b ∈ a :: l, p b = true := by
        intro b hb
        rcases mem_cons.1 hb with rfl | hb
        · exact ha
        · exact hhead b hb ha
      have hnone : ((a :: l).filter fun b => !p b) = [] :=
        filter_eq_nil_iff.2 fun b hb => by simp [hall b hb]
      rw [hnone, filter_eq_self.2 hall, nil_append]
    · rw [filter_cons_of_pos (by simpa using ha), filter_cons_of_neg ha, cons_append, ih htail]

end Order

/-! ## Two lists, one after the other -/

section Append

variable {x y : List α} {k : ℕ}

theorem eraseDups_isPrefix_append (x y : List α) : x.eraseDups <+: (x ++ y).eraseDups := by
  rw [eraseDups_append]
  exact prefix_append _ _

/-- What comes first in one list, and is all there is of it, need not be met before the other. -/
theorem take_append_comm_of_isPrefix (h : x.eraseDups.take k <+: y.eraseDups) :
    (x ++ y).eraseDups.take k = (y ++ x).eraseDups.take k := by
  rcases Nat.lt_or_ge x.eraseDups.length k with hlt | hge
  · rw [take_of_length_le (Nat.le_of_lt hlt)] at h
    obtain ⟨rest, hrest⟩ := h
    have hnodup := nodup_eraseDups y
    rw [← hrest, nodup_append] at hnodup
    -- all of `x` is met in `y` already
    have hnone : x.removeAll y = [] := by
      refine filter_eq_nil_iff.2 fun a ha => ?_
      have hmem : a ∈ y.eraseDups := by
        rw [← hrest]
        exact mem_append_left _ (mem_eraseDups.2 ha)
      simpa using mem_eraseDups.1 hmem
    have hnew : (y.removeAll x).eraseDups = rest := by
      unfold removeAll
      rw [← filter_eraseDups, ← hrest, filter_append]
      have hleft : (x.eraseDups.filter fun a => !elem a x) = [] :=
        filter_eq_nil_iff.2 fun a ha => by simpa using mem_eraseDups.1 ha
      have hright : (rest.filter fun a => !elem a x) = rest := by
        refine filter_eq_self.2 fun a ha => ?_
        have hout : a ∉ x := fun hx => hnodup.2.2 a (mem_eraseDups.2 hx) a ha rfl
        simpa using hout
      rw [hleft, hright, nil_append]
    rw [eraseDups_append, eraseDups_append, hnone, hnew, hrest, eraseDups_nil, append_nil]
  · have hx : (x ++ y).eraseDups.take k = x.eraseDups.take k := by
      rw [eraseDups_append, take_append_of_le_length hge]
    have hy := prefix_iff_eq_take.1 (h.trans (eraseDups_isPrefix_append y x))
    rw [length_take_of_le hge] at hy
    rw [hx, hy]

/-- **Which of two lists is met first does not matter** for the first `k` elements exactly if the
first `k` of one of them are met in the same order at the head of the other. -/
theorem take_append_comm_iff :
    (x ++ y).eraseDups.take k = (y ++ x).eraseDups.take k ↔
      x.eraseDups.take k <+: y.eraseDups ∨ y.eraseDups.take k <+: x.eraseDups := by
  constructor
  · intro h
    have hx : x.eraseDups.take k <+: (y ++ x).eraseDups.take k := by
      rw [← h]
      exact (eraseDups_isPrefix_append x y).take k
    have hy : y.eraseDups.take k <+: (y ++ x).eraseDups.take k :=
      (eraseDups_isPrefix_append y x).take k
    rcases Nat.le_total (x.eraseDups.take k).length (y.eraseDups.take k).length with hle | hle
    · exact Or.inl ((prefix_of_prefix_length_le hx hy hle).trans ( take_prefix _ _))
    · exact Or.inr ((prefix_of_prefix_length_le hy hx hle).trans ( take_prefix _ _))
  · rintro (h | h)
    · exact take_append_comm_of_isPrefix h
    · exact (take_append_comm_of_isPrefix h).symm

end Append

/-! ## One more element -/

section OneMore

variable {l : List α} {x : α}

/-- The first `k` of a list, without one of them, are among the first `k` of the list without it. -/
theorem erase_take_isPrefix (l : List α) (x : α) (k : ℕ) :
    (l.take k).erase x <+: (l.erase x).take k := by
  induction l generalizing k with
  | nil => simp
  | cons a l ih =>
    cases k with
    | zero => simp
    | succ k =>
      rw [take_succ_cons]
      by_cases ha : a = x
      · subst ha
        rw [erase_cons_head, erase_cons_head]
        exact (take_prefix_take_left (Nat.le_succ k))
      · rw [erase_cons_tail (by simpa using ha), erase_cons_tail (by simpa using ha), take_succ_cons]
        exact (prefix_cons_inj a).2 (ih k)

theorem take_eq_of_not_mem {k : ℕ} (h : x ∉ l.take k) : (l.erase x).take k = l.take k := by
  induction l generalizing k with
  | nil => simp
  | cons a l ih =>
    cases k with
    | zero => simp
    | succ k =>
      rw [take_succ_cons, mem_cons, not_or] at h
      rw [erase_cons_tail (by simpa using Ne.symm h.1), take_succ_cons, take_succ_cons, ih h.2]

/-- At most the last one of the first `k` makes room for another element. -/
theorem eq_getLast_of_not_mem_take (hl : l.Nodup) {k : ℕ} {y : α} (hy : y ∈ (l.erase x).take k)
    (hnot : y ∉ l.take k) : ((l.erase x).take k).getLast? = some y := by
  induction l generalizing k with
  | nil => simp at hy
  | cons a l ih =>
    obtain ⟨hal, hl⟩ := nodup_cons.1 hl
    cases k with
    | zero => simp at hy
    | succ k =>
      rw [take_succ_cons, mem_cons, not_or] at hnot
      by_cases ha : a = x
      · subst ha
        rw [erase_cons_head] at hy ⊢
        rw [take_add_one, mem_append] at hy
        rcases hy with hy | hy
        · exact absurd hy hnot.2
        · rw [take_add_one, getLast?_append]
          cases hk : l[k]? with
          | none =>
            rw [hk] at hy
            cases hy
          | some z =>
            rw [hk] at hy
            simp only [Option.toList, mem_singleton] at hy
            simp [hy]
      · rw [erase_cons_tail (by simpa using ha), take_succ_cons] at hy ⊢
        have hrest : y ∈ (l.erase x).take k := (mem_cons.1 hy).resolve_left hnot.1
        rw [getLast?_cons, ih hl hrest hnot.2]
        rfl

/-- Without one of the first `k`, the next element comes in. -/
theorem take_erase_of_mem {k : ℕ} (hx : x ∈ l.take k) :
    (l.erase x).take k = (l.take k).erase x ++ (l.drop k).take 1 := by
  have hk : 1 ≤ (l.take k).length := length_pos_of_mem hx
  have herase : l.erase x = (l.take k).erase x ++ l.drop k := by
    conv_lhs => rw [← take_append_drop k l, erase_append_left _ hx]
  have hlen : ((l.take k).erase x).length = (l.take k).length - 1 := length_erase_of_mem hx
  rw [herase, take_append, hlen, take_of_length_le (by rw [hlen]; have := length_take_le k l; omega)]
  rcases Nat.lt_or_ge k l.length with hlt | hge
  · rw [length_take_of_le (Nat.le_of_lt hlt)] at hk ⊢
    rw [show k - (k - 1) = 1 by omega]
  · rw [drop_eq_nil_of_le hge, take_nil, take_nil]

/-- Where there is a next element, it was not among the first `k`, and does not come first now. -/
theorem exists_mem_take_erase (hl : l.Nodup) {k : ℕ} (hx : x ∈ l.take k) (hk : k < l.length)
    (htwo : 2 ≤ k) :
    ∃ y ∈ (l.erase x).take k, y ∉ l.take k ∧ ((l.erase x).take k).head? ≠ some y := by
  obtain ⟨y, ys, hdrop⟩ := exists_cons_of_length_pos (l := l.drop k) (by rw [length_drop]; omega)
  have hnot : y ∉ l.take k := by
    rw [← take_append_drop k l, nodup_append] at hl
    exact fun hy => hl.2.2 y hy y (by rw [hdrop]; exact mem_cons_self) rfl
  have hlen : ((l.take k).erase x).length = k - 1 := by
    rw [length_erase_of_mem hx, length_take_of_le (Nat.le_of_lt hk)]
  obtain ⟨z, zs, hrest⟩ := exists_cons_of_length_pos (l := (l.take k).erase x) (by omega)
  rw [take_erase_of_mem hx, hdrop, hrest]
  refine ⟨y, mem_append_right _ mem_cons_self, hnot, fun hhead => hnot ?_⟩
  obtain rfl : z = y := Option.some.inj hhead
  exact mem_of_mem_erase (by rw [hrest]; exact mem_cons_self)

end OneMore

end Firsts
