import Mathlib.Logic.Relation
import Mathlib.Data.Set.Basic
import Mathlib.Tactic.Common

/-!
# Waiting for each other

Tasks that hold and request resources.

* `acyclic_of_rank` — a relation that climbs in a rank has no cycle.
* `not_circularWait` — where every request climbs in a bounded rank above what the task holds, no
  set of tasks waits for itself.
-/

set_option autoImplicit false

namespace WaitsFor

variable {T M : Type}

/-- A set of tasks each of which requests a resource that another task of the set holds. -/
def CircularWait (holds requests : T → M → Prop) (S : Set T) : Prop :=
  S.Nonempty ∧ ∀ t ∈ S, ∃ m, requests t m ∧ ∃ t' ∈ S, t' ≠ t ∧ holds t' m

/-- A relation that climbs in a rank has no cycle. -/
theorem acyclic_of_rank {r : M → M → Prop} (rank : M → ℕ) (h : ∀ A B, r A B → rank A < rank B)
    (A : M) : ¬ Relation.TransGen r A A := by
  have hlt : ∀ {A B}, Relation.TransGen r A B → rank A < rank B := by
    intro A B hAB
    induction hAB with
    | single hr => exact h _ _ hr
    | tail _ hr ih => exact ih.trans (h _ _ hr)
  exact fun hA => lt_irrefl _ (hlt hA)

/-- **No set of tasks waits for itself.** -/
theorem not_circularWait (holds requests : T → M → Prop) (rank : M → ℕ) {n : ℕ}
    (hbound : ∀ m, rank m ≤ n) (howner : ∀ t t' m, holds t m → holds t' m → t = t')
    (hclimb : ∀ t A B, holds t A → requests t B → A ≠ B → rank A < rank B) (S : Set T) :
    ¬ CircularWait holds requests S := by
  rintro ⟨⟨t₀, ht₀⟩, hS⟩
  -- from one wait to the next the rank climbs
  have hchain : ∀ k, ∃ t ∈ S, ∃ m, k ≤ rank m ∧ ∃ t' ∈ S, t' ≠ t ∧ holds t' m := by
    intro k
    induction k with
    | zero =>
      obtain ⟨m, -, hm⟩ := hS t₀ ht₀
      exact ⟨t₀, ht₀, m, Nat.zero_le _, hm⟩
    | succ k ih =>
      obtain ⟨t, -, m, hk, t', ht', -, hheld⟩ := ih
      obtain ⟨m', hreq, t'', ht'', hne, hheld'⟩ := hS t' ht'
      have hmm : m ≠ m' := by
        rintro rfl
        exact hne (howner _ _ _ hheld' hheld)
      have hlt := hclimb t' m m' hheld hreq hmm
      exact ⟨t', ht', m', by omega, t'', ht'', hne, hheld'⟩
  obtain ⟨-, -, m, hm, -⟩ := hchain (n + 1)
  have hle := hbound m
  omega

end WaitsFor
