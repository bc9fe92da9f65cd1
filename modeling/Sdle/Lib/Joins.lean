import Mathlib.Order.Bounds.Basic
import Mathlib.Data.Set.Lattice

/-!
# Merging finite collections

A `Merging` is an expression over states with one binary operation: which states are merged, in
which order and grouping, each as often as it occurs.

* `isLUB_result` — where the operation gives least upper bounds of two states, the result is a
  least upper bound of all the states of the expression.
* `result_subset` — what every merge takes from its arguments, the result takes from the states.
-/

set_option autoImplicit false

/-- An expression that merges states. -/
inductive Merging (α : Type) where
  | state (a : α)
  | merge (l r : Merging α)

namespace Merging

variable {α β : Type}

/-- The states that occur in an expression. -/
def states : Merging α → Set α
  | state a => {a}
  | merge l r => l.states ∪ r.states

/-- The result of an expression. -/
def result (m : α → α → α) : Merging α → α
  | state a => a
  | merge l r => m (l.result m) (r.result m)

/-- The states of a list merged from left to right into a first one. -/
def ofList (a : α) (as : List α) : Merging α := as.foldl (fun e x => .merge e (.state x)) (.state a)

theorem states_ofList (a : α) (as : List α) : (ofList a as).states = {x | x ∈ a :: as} := by
  have key : ∀ (as : List α) (e : Merging α),
      (as.foldl (fun e x => .merge e (.state x)) e).states = e.states ∪ {x | x ∈ as} := by
    intro as
    induction as with
    | nil => intro e; simp
    | cons x as ih =>
      intro e
      rw [List.foldl_cons, ih, states, states, Set.union_assoc]
      congr 1
      ext y
      simp
  rw [ofList, key, states]
  ext y
  simp

theorem result_ofList (m : α → α → α) (a : α) (as : List α) :
    (ofList a as).result m = as.foldl m a := by
  have key : ∀ (as : List α) (e : Merging α),
      (as.foldl (fun e x => .merge e (.state x)) e).result m = as.foldl m (e.result m) := by
    intro as
    induction as with
    | nil => exact fun e => rfl
    | cons x as ih => exact fun e => ih _
  exact key as _

/-- **The result is a least upper bound of the states.** -/
theorem isLUB_result [Preorder α] {m : α → α → α} (hm : ∀ a b, IsLUB {a, b} (m a b)) :
    ∀ e : Merging α, IsLUB e.states (e.result m)
  | state a => isLUB_singleton
  | merge l r => by
    have hl := isLUB_result hm l
    have hr := isLUB_result hm r
    have hlr := hm (l.result m) (r.result m)
    refine ⟨?_, fun u hu => ?_⟩
    · rintro a (ha | ha)
      · exact (hl.1 ha).trans (hlr.1 (Set.mem_insert _ _))
      · exact (hr.1 ha).trans (hlr.1 (Set.mem_insert_of_mem _ rfl))
    · refine hlr.2 ?_
      rintro x (rfl | rfl)
      · exact hl.2 fun a ha => hu (Or.inl ha)
      · exact hr.2 fun a ha => hu (Or.inr ha)

theorem result_subset {m : α → α → α} {f : α → Set β} (hf : ∀ a b, f (m a b) ⊆ f a ∪ f b) :
    ∀ e : Merging α, f (e.result m) ⊆ ⋃ a ∈ e.states, f a
  | state a => by simp [states, result]
  | merge l r => by
    intro x hx
    simp only [Set.mem_iUnion]
    rcases hf _ _ hx with h | h
    · obtain ⟨a, ha, hxa⟩ := Set.mem_iUnion₂.1 (result_subset hf l h)
      exact ⟨a, Or.inl ha, hxa⟩
    · obtain ⟨a, ha, hxa⟩ := Set.mem_iUnion₂.1 (result_subset hf r h)
      exact ⟨a, Or.inr ha, hxa⟩

end Merging
