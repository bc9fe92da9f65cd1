import Mathlib.Algebra.BigOperators.Group.List.Basic
import Mathlib.Algebra.GroupWithZero.Nat
import Mathlib.Data.List.Infix
import Mathlib.Logic.Function.Basic
import Mathlib.Order.Lattice.Nat

/-!
# Replicas that follow vector clocks

Any number of replicas of one object, each named by the actor that it belongs to.  A replica is made
by the first call of its actor, changed by further ones, and merged with a state that some replica had
at some earlier moment, however stale.  The clock of a replica counts the calls of each actor that it
knows of; those are always the first ones.

* `Run.follows` — **what a replica holds is what its clock says**: a meaning of the calls that is kept
  by a call, and by a merge of what two clocks over the same logs cover, holds of every replica at
  every moment, by the logs of the last one.
* `sum_known_sup`, `mem_known_sup` — what the join of two clocks covers: of two sums over first calls
  the larger, and a call that one of them covers.
-/

set_option autoImplicit false

namespace VectorClocks

variable {A ι S : Type}

/-! ## Clocks -/

/-- The calls that a clock covers: the first ones of each actor. -/
def known (log : A → List ι) (clock : A → ℕ) (a : A) : List ι := (log a).take (clock a)

/-- The clock counts calls of these logs. -/
def Counts (log : A → List ι) (clock : A → ℕ) : Prop := ∀ a, clock a ≤ (log a).length

variable {log : A → List ι} {v v' : A → ℕ}

theorem Counts.sup (h : Counts log v) (h' : Counts log v') : Counts log (v ⊔ v') := fun a =>
  Nat.max_le.2 ⟨h a, h' a⟩

theorem known_sup (log : A → List ι) (v v' : A → ℕ) (a : A) :
    known log (v ⊔ v') a = known log v a ∧ known log v' a <+: known log v a ∨
      known log (v ⊔ v') a = known log v' a ∧ known log v a <+: known log v' a := by
  unfold known
  rcases Nat.le_total (v a) (v' a) with hle | hle
  · refine Or.inr ⟨?_, List.take_prefix_take_left hle⟩
    rw [Pi.sup_apply, sup_eq_right.2 hle]
  · refine Or.inl ⟨?_, List.take_prefix_take_left hle⟩
    rw [Pi.sup_apply, sup_eq_left.2 hle]

theorem mem_known_sup {a : A} {c : ι} :
    c ∈ known log (v ⊔ v') a ↔ c ∈ known log v a ∨ c ∈ known log v' a := by
  rcases known_sup log v v' a with ⟨heq, hprefix⟩ | ⟨heq, hprefix⟩
  · rw [heq]
    exact (or_iff_left_of_imp fun h => hprefix.subset h).symm
  · rw [heq]
    exact (or_iff_right_of_imp fun h => hprefix.subset h).symm

/-- The amounts of more first calls add up to more. -/
theorem sum_le_of_initial {f : ι → ℕ} {l l' : List ι} (h : l <+: l') : (l.map f).sum ≤ (l'.map f).sum := by
  obtain ⟨rest, rfl⟩ := h
  rw [List.map_append, List.sum_append]
  exact Nat.le_add_right _ _

theorem sum_known_sup (f : ι → ℕ) (a : A) :
    ((known log (v ⊔ v') a).map f).sum =
      max ((known log v a).map f).sum ((known log v' a).map f).sum := by
  rcases known_sup log v v' a with ⟨heq, hprefix⟩ | ⟨heq, hprefix⟩
  · rw [heq, max_eq_left (sum_le_of_initial hprefix)]
  · rw [heq, max_eq_right (sum_le_of_initial hprefix)]

/-! ## Runs -/

/-- An object: how the replica of an actor is made, and by which call, what a call does to a replica,
and what a merge does. -/
structure Object (A ι S : Type) where
  make : A → S
  first : A → ι
  call : ι → S → Option S
  merge : S → S → S

/-- The replicas with the calls that each actor has made, and the clock of each replica. -/
structure Replicas (A ι S : Type) where
  state : A → S
  log : A → List ι
  clock : A → A → ℕ

variable [DecidableEq A]

namespace Object

/-- Each replica has just been made. -/
def start (O : Object A ι S) : Replicas A ι S where
  state := O.make
  log a := [O.first a]
  clock a b := if b = a then 1 else 0

/-- Calls and merges in any order.  The second list has the earlier moments. -/
inductive Run (O : Object A ι S) : Replicas A ι S → List (Replicas A ι S) → Prop
  | start : O.Run O.start []
  | call {w : Replicas A ι S} {past : List (Replicas A ι S)} (hrun : O.Run w past) (a : A) (c : ι)
      {s : S} (h : O.call c (w.state a) = some s) :
      O.Run
        { state := Function.update w.state a s
          log := Function.update w.log a (w.log a ++ [c])
          clock := Function.update w.clock a (Function.update (w.clock a) a (w.clock a a + 1)) }
        (w :: past)
  | merge {w : Replicas A ι S} {past : List (Replicas A ι S)} (hrun : O.Run w past) (a : A)
      {m : Replicas A ι S} (hm : m ∈ w :: past) (b : A) :
      O.Run
        { w with
          state := Function.update w.state a (O.merge (w.state a) (m.state b))
          clock := Function.update w.clock a (w.clock a ⊔ m.clock b) }
        (w :: past)

/-- `R a K s` says what the calls `K` mean to a replica `s` of the actor `a`. -/
structure Means (O : Object A ι S) (R : A → (A → List ι) → S → Prop) : Prop where
  make : ∀ a, R a (fun b => if b = a then [O.first a] else []) (O.make a)
  call : ∀ a K c s s', R a K s → O.call c s = some s' → R a (Function.update K a (K a ++ [c])) s'
  merge : ∀ a b log v v' s s', Counts log v → Counts log v' → R a (known log v) s →
    R b (known log v') s' → R a (known log (v ⊔ v')) (O.merge s s')

end Object

section Follows

variable {O : Object A ι S} {R : A → (A → List ι) → S → Prop}

/-- The replicas of a moment follow their clocks, over these logs. -/
structure Replicas.Follows (R : A → (A → List ι) → S → Prop) (log : A → List ι) (m : Replicas A ι S) :
    Prop where
  counts : ∀ b, Counts log (m.clock b)
  means : ∀ b, R b (known log (m.clock b)) (m.state b)

/-- A clock that counts the calls so far does so when there are more. -/
theorem Counts.grow (h : Counts log v) (a : A) (c : ι) :
    Counts (Function.update log a (log a ++ [c])) v := by
  intro x
  by_cases hx : x = a
  · subst hx
    rw [Function.update_self, List.length_append]
    exact (h x).trans (Nat.le_add_right _ _)
  · rw [Function.update_of_ne hx]
    exact h x

/-- An actor that has counted all its calls counts the next one. -/
theorem Counts.call (h : Counts log v) {a : A} (hown : v a = (log a).length) (c : ι) :
    Counts (Function.update log a (log a ++ [c])) (Function.update v a (v a + 1)) := by
  intro x
  by_cases hx : x = a
  · subst hx
    rw [Function.update_self, Function.update_self, hown, List.length_append, List.length_singleton]
  · rw [Function.update_of_ne hx, Function.update_of_ne hx]
    exact h x

/-- More calls leave what was known before as it is. -/
theorem known_grow (h : Counts log v) (a : A) (c : ι) :
    known (Function.update log a (log a ++ [c])) v = known log v := by
  funext x
  unfold known
  by_cases hx : x = a
  · subst hx
    rw [Function.update_self, List.take_append_of_le_length (h x)]
  · rw [Function.update_of_ne hx]

theorem Replicas.Follows.grow {m : Replicas A ι S} (h : m.Follows R log) (a : A) (c : ι) :
    m.Follows R (Function.update log a (log a ++ [c])) :=
  ⟨fun b => (h.counts b).grow a c, fun b => by rw [known_grow (h.counts b)]; exact h.means b⟩

/-- The clock of a new replica covers the call that made it. -/
theorem known_start (O : Object A ι S) (a : A) :
    known O.start.log (O.start.clock a) = fun b => if b = a then [O.first a] else [] := by
  funext b
  change [O.first b].take (if b = a then 1 else 0) = _
  by_cases hb : b = a
  · rw [if_pos hb, if_pos hb, hb]
    rfl
  · rw [if_neg hb, if_neg hb]
    rfl

/-- A replica that has made one more call knows of it. -/
theorem known_call {log : A → List ι} {clock : A → ℕ} {a : A} (hown : clock a = (log a).length) (c : ι) :
    known (Function.update log a (log a ++ [c])) (Function.update clock a (clock a + 1)) =
      Function.update (known log clock) a (known log clock a ++ [c]) := by
  funext x
  unfold known
  by_cases hx : x = a
  · subst hx
    rw [Function.update_self, Function.update_self, Function.update_self, hown, List.take_length]
    exact List.take_of_length_le (by simp)
  · rw [Function.update_of_ne hx, Function.update_of_ne hx, Function.update_of_ne hx]

/-- One replica of a moment goes on. -/
theorem Replicas.Follows.update {m : Replicas A ι S} (h : m.Follows R log) {a : A} {s : S} {v : A → ℕ}
    (hcounts : Counts log v) (hmeans : R a (known log v) s) {log' : A → List ι} :
    Replicas.Follows R log
      { state := Function.update m.state a s, log := log', clock := Function.update m.clock a v } := by
  refine ⟨(Function.forall_update_iff _ fun _ v => Counts log v).2 ⟨hcounts, fun b _ => h.counts b⟩,
    fun b => ?_⟩
  dsimp only
  by_cases hb : b = a
  · subst hb
    rw [Function.update_self, Function.update_self]
    exact hmeans
  · rw [Function.update_of_ne hb, Function.update_of_ne hb]
    exact h.means b

/-- **What a replica holds is what its clock says**, at every moment. -/
theorem Object.Run.follows (hR : O.Means R) {w : Replicas A ι S} {past : List (Replicas A ι S)}
    (hrun : O.Run w past) :
    (∀ m ∈ w :: past, m.Follows R w.log) ∧ ∀ a, w.clock a a = (w.log a).length := by
  induction hrun with
  | start =>
    refine ⟨fun m hm => ?_, fun a => if_pos rfl⟩
    rw [List.mem_singleton.1 hm]
    refine ⟨fun a b => ?_, fun a => by rw [known_start]; exact hR.make a⟩
    change (if b = a then 1 else 0) ≤ 1
    split <;> omega
  | @call w past hrun a c s h ih =>
    obtain ⟨hmoments, hown⟩ := ih
    have hw := hmoments w List.mem_cons_self
    have hnew := hR.call a _ c _ s (hw.means a) h
    rw [← known_call (hown a) c] at hnew
    have hcounts := (hw.counts a).call (hown a) c
    refine ⟨List.forall_mem_cons.2 ⟨(hw.grow a c).update hcounts hnew, fun m hm =>
      (hmoments m hm).grow a c⟩, fun b => ?_⟩
    dsimp only
    by_cases hb : b = a
    · subst hb
      rw [Function.update_self, Function.update_self, Function.update_self, hown, List.length_append,
        List.length_singleton]
    · rw [Function.update_of_ne hb, Function.update_of_ne hb]
      exact hown b
  | @merge w past hrun a m hm b ih =>
    obtain ⟨hmoments, hown⟩ := ih
    have hw := hmoments w List.mem_cons_self
    have hold := hmoments m hm
    have hnew := hR.merge a b _ _ _ _ _ (hw.counts a) (hold.counts b) (hw.means a) (hold.means b)
    refine ⟨List.forall_mem_cons.2 ⟨hw.update ((hw.counts a).sup (hold.counts b)) hnew, hmoments⟩,
      fun x => ?_⟩
    dsimp only
    by_cases hx : x = a
    · subst hx
      -- nobody knows of more calls of an actor than the actor has made
      rw [Function.update_self, Pi.sup_apply, hown, sup_eq_left.2 (hold.counts b x)]
    · rw [Function.update_of_ne hx]
      exact hown x

end Follows

end VectorClocks
