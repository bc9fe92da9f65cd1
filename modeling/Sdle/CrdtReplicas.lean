import Sdle.Lib.VectorClocks
import Sdle.Crdt
import Mathlib.Algebra.BigOperators.Ring.Finset

/-!
# Counters and registers at work (`crdt.rs`)

Any number of replicas of an item, each with an actor of its own, changed by the calls of the counter
and the register, and merged with whatever state a replica had at some earlier moment.

* `means_item` — the counts of an item are what each of the known actors has added, and its register
  is the newest one written.
* `counters_add_up` — **every replica holds what its vector clock says**: the local value is what its
  own actor has added, the total what all known calls have added, and the register the newest known
  write; so replicas with equal clocks hold the same counts.
-/

set_option autoImplicit false

namespace Sdle

open VectorClocks

/-! ## Calls -/

/-- A call on the counter or the register of an item.  `new` is the one that makes them. -/
inductive ItemCall where
  | new (acquired : LWWReg Uuid)
  | inc
  | incBy (n : ℕ)
  | dec
  | decBy (n : ℕ)
  | update (val clock : ℕ) (actor : Uuid)

namespace ItemCall

/-- What a call does, or the overflow panic. -/
def run : ItemCall → Item → Option Item
  | new _, _ => none
  | inc, i => i.amount.inc.map fun amount => { i with amount }
  | incBy n, i => (i.amount.incBy n).map fun amount => { i with amount }
  | dec, i => i.amount.dec.map fun amount => { i with amount }
  | decBy n, i => (i.amount.decBy n).map fun amount => { i with amount }
  | update val clock actor, i => some { i with acquired := i.acquired.update val clock actor }

/-- What a call adds to the increments. -/
def raises : ItemCall → ℕ
  | inc => 1
  | incBy n => n
  | _ => 0

/-- What a call adds to the decrements. -/
def lowers : ItemCall → ℕ
  | dec => 1
  | decBy n => n
  | _ => 0

/-- The register that a call writes, if nothing newer is there. -/
def writes : ItemCall → Option (LWWReg Uuid)
  | new acquired => some acquired
  | update val clock actor => some ⟨val, clock, actor⟩
  | _ => none

/-- What some calls add to the value of a counter. -/
def net (calls : List ItemCall) : ℤ := ((calls.map raises).sum : ℤ) - (calls.map lowers).sum

end ItemCall

/-- An item of which each actor makes a replica with a counter at zero and a register of its own. -/
def itemObject (acquired : Uuid → LWWReg Uuid) : Object Uuid ItemCall Item where
  make a := ⟨PNCounter.new a, acquired a⟩
  first a := .new (acquired a)
  call := ItemCall.run
  merge := Item.merge

/-- `calls` have been made, and `i` is a replica of the actor `a`. -/
structure Item.Means (a : Uuid) (calls : Uuid → List ItemCall) (i : Item) : Prop where
  pActor : i.amount.p.actorId = a
  nActor : i.amount.n.actorId = a
  p : ∀ b, (i.amount.p.counter.find? b).getD 0 = ((calls b).map ItemCall.raises).sum
  n : ∀ b, (i.amount.n.counter.find? b).getD 0 = ((calls b).map ItemCall.lowers).sum
  written : ∃ b, ∃ c ∈ calls b, c.writes = some i.acquired
  newest : ∀ b, ∀ c ∈ calls b, ∀ q, c.writes = some q → q.stamp ≤ i.acquired.stamp

/-! ## What a call and a merge do -/

theorem getD_incBy {g g' : GCounter} {n : ℕ} (h : g.incBy n = some g') (b : Uuid) :
    g'.actorId = g.actorId ∧ (g'.counter.find? b).getD 0 =
      (g.counter.find? b).getD 0 + if b = g.actorId then n else 0 := by
  unfold GCounter.incBy at h
  dsimp only at h
  split at h
  · cases h
    refine ⟨rfl, ?_⟩
    rw [FinMap.find?_insert]
    by_cases hb : b = g.actorId
    · rw [if_pos hb, if_pos hb, hb]
      rfl
    · rw [if_neg hb, if_neg hb, Nat.add_zero]
  · cases h

theorem getD_merge (g h : GCounter) (b : Uuid) :
    ((g.merge h).counter.find? b).getD 0 =
      max ((g.counter.find? b).getD 0) ((h.counter.find? b).getD 0) := by
  unfold GCounter.merge
  dsimp only
  rw [FinMap.find?_absorb]
  cases h.counter.find? b with
  | none => exact (max_eq_left (Nat.zero_le _)).symm
  | some x => exact max_comm x _

/-- A newer write takes the place of the register. -/
theorem stamp_update (r : LWWReg Uuid) (val clock : ℕ) (actor : Uuid) :
    (r.update val clock actor).stamp = max r.stamp (LWWReg.stamp ⟨val, clock, actor⟩) :=
  LWWReg.stamp_merge r ⟨val, clock, actor⟩

section Means

variable {a : Uuid} {K : Uuid → List ItemCall} {i : Item} {c : ItemCall}

/-- One more call adds to the sums of its actor. -/
theorem sum_update (f : ItemCall → ℕ) (K : Uuid → List ItemCall) (a : Uuid) (c : ItemCall) (b : Uuid) :
    ((Function.update K a (K a ++ [c]) b).map f).sum = ((K b).map f).sum + if b = a then f c else 0 := by
  by_cases hb : b = a
  · subst hb
    rw [Function.update_self, if_pos rfl, List.map_append, List.sum_append]
    simp
  · rw [Function.update_of_ne hb, if_neg hb, Nat.add_zero]

theorem mem_update {b : Uuid} {d : ItemCall} :
    d ∈ Function.update K a (K a ++ [c]) b ↔ d ∈ K b ∨ b = a ∧ d = c := by
  by_cases hb : b = a
  · subst hb
    rw [Function.update_self, List.mem_append, List.mem_singleton]
    simp
  · rw [Function.update_of_ne hb]
    simp [hb]

/-- A call that leaves the register as it is. -/
theorem Item.Means.counted (h : i.Means a K) (hwrites : c.writes = none) {amount : PNCounter}
    (hp : amount.p.actorId = a ∧ ∀ b, (amount.p.counter.find? b).getD 0 =
      (i.amount.p.counter.find? b).getD 0 + if b = a then c.raises else 0)
    (hn : amount.n.actorId = a ∧ ∀ b, (amount.n.counter.find? b).getD 0 =
      (i.amount.n.counter.find? b).getD 0 + if b = a then c.lowers else 0) :
    Item.Means a (Function.update K a (K a ++ [c])) { i with amount } := by
  refine ⟨hp.1, hn.1, fun b => ?_, fun b => ?_, ?_, fun b d hd q hq => ?_⟩
  · rw [hp.2, h.p, sum_update]
  · rw [hn.2, h.n, sum_update]
  · obtain ⟨b, d, hd, hwrite⟩ := h.written
    exact ⟨b, d, mem_update.2 (Or.inl hd), hwrite⟩
  · rcases mem_update.1 hd with hd | ⟨-, rfl⟩
    · exact h.newest b d hd q hq
    · rw [hwrites] at hq
      cases hq

theorem Item.Means.raised (h : i.Means a K) (hwrites : c.writes = none) (hlowers : c.lowers = 0)
    {amount : PNCounter} (hamount : i.amount.incBy c.raises = some amount) :
    Item.Means a (Function.update K a (K a ++ [c])) { i with amount } := by
  obtain ⟨g, hg, rfl⟩ := Option.map_eq_some_iff.1 hamount
  refine h.counted hwrites ⟨(getD_incBy hg a).1.trans h.pActor, fun b => ?_⟩ ⟨h.nActor, fun b => ?_⟩
  · rw [(getD_incBy hg b).2, h.pActor]
  · rw [hlowers, ite_self, Nat.add_zero]

theorem Item.Means.lowered (h : i.Means a K) (hwrites : c.writes = none) (hraises : c.raises = 0)
    {amount : PNCounter} (hamount : i.amount.decBy c.lowers = some amount) :
    Item.Means a (Function.update K a (K a ++ [c])) { i with amount } := by
  obtain ⟨g, hg, rfl⟩ := Option.map_eq_some_iff.1 hamount
  refine h.counted hwrites ⟨h.pActor, fun b => ?_⟩ ⟨(getD_incBy hg a).1.trans h.nActor, fun b => ?_⟩
  · rw [hraises, ite_self, Nat.add_zero]
  · rw [(getD_incBy hg b).2, h.nActor]

theorem Item.Means.updated (h : i.Means a K) (val clock : ℕ) (actor : Uuid) :
    Item.Means a (Function.update K a (K a ++ [.update val clock actor]))
      { i with acquired := i.acquired.update val clock actor } := by
  refine ⟨h.pActor, h.nActor, fun b => ?_, fun b => ?_, ?_, fun b d hd q hq => ?_⟩
  · rw [h.p, sum_update, show (ItemCall.update val clock actor).raises = 0 from rfl, ite_self, Nat.add_zero]
  · rw [h.n, sum_update, show (ItemCall.update val clock actor).lowers = 0 from rfl, ite_self, Nat.add_zero]
  · rcases LWWReg.merge_eq_or i.acquired ⟨val, clock, actor⟩ with heq | heq
    · obtain ⟨b, d, hd, hwrite⟩ := h.written
      exact ⟨b, d, mem_update.2 (Or.inl hd), hwrite.trans (congrArg some heq.symm)⟩
    · exact ⟨a, _, mem_update.2 (Or.inr ⟨rfl, rfl⟩), congrArg some heq.symm⟩
  · rw [stamp_update]
    rcases mem_update.1 hd with hd | ⟨-, rfl⟩
    · exact (h.newest b d hd q hq).trans (le_max_left _ _)
    · cases hq
      exact le_max_right _ _

theorem Item.Means.call (h : i.Means a K) {i' : Item} (hrun : c.run i = some i') :
    i'.Means a (Function.update K a (K a ++ [c])) := by
  cases c with
  | new acquired => cases hrun
  | inc =>
    obtain ⟨amount, hamount, rfl⟩ := Option.map_eq_some_iff.1 hrun
    exact h.raised rfl rfl hamount
  | incBy n =>
    obtain ⟨amount, hamount, rfl⟩ := Option.map_eq_some_iff.1 hrun
    exact h.raised rfl rfl hamount
  | dec =>
    obtain ⟨amount, hamount, rfl⟩ := Option.map_eq_some_iff.1 hrun
    exact h.lowered rfl rfl hamount
  | decBy n =>
    obtain ⟨amount, hamount, rfl⟩ := Option.map_eq_some_iff.1 hrun
    exact h.lowered rfl rfl hamount
  | update val clock actor =>
    cases hrun
    exact h.updated val clock actor

theorem Item.Means.merge {b : Uuid} {log : Uuid → List ItemCall} {v v' : Uuid → ℕ} {j : Item}
    (h : i.Means a (known log v)) (h' : j.Means b (known log v')) :
    (i.merge j).Means a (known log (v ⊔ v')) := by
  refine ⟨h.pActor, h.nActor, fun x => ?_, fun x => ?_, ?_, fun x d hd q hq => ?_⟩
  · rw [sum_known_sup, ← h.p, ← h'.p]
    exact getD_merge i.amount.p j.amount.p x
  · rw [sum_known_sup, ← h.n, ← h'.n]
    exact getD_merge i.amount.n j.amount.n x
  · rcases LWWReg.merge_eq_or i.acquired j.acquired with heq | heq
    · obtain ⟨x, d, hd, hwrite⟩ := h.written
      exact ⟨x, d, mem_known_sup.2 (Or.inl hd), hwrite.trans (congrArg some heq.symm)⟩
    · obtain ⟨x, d, hd, hwrite⟩ := h'.written
      exact ⟨x, d, mem_known_sup.2 (Or.inr hd), hwrite.trans (congrArg some heq.symm)⟩
  · rw [show (i.merge j).acquired = i.acquired.merge j.acquired from rfl, LWWReg.stamp_merge]
    rcases mem_known_sup.1 hd with hd | hd
    · exact (h.newest x d hd q hq).trans (le_max_left _ _)
    · exact (h'.newest x d hd q hq).trans (le_max_right _ _)

end Means

/-- **What the calls on an item mean** is kept by calls and merges. -/
theorem means_item (acquired : Uuid → LWWReg Uuid) : (itemObject acquired).Means Item.Means where
  make a := by
    refine ⟨rfl, rfl, fun b => ?_, fun b => ?_, ⟨a, .new (acquired a), ?_, rfl⟩, fun b c hc q hq => ?_⟩
    · by_cases hb : b = a
      · rw [if_pos hb]; rfl
      · rw [if_neg hb]; rfl
    · by_cases hb : b = a
      · rw [if_pos hb]; rfl
      · rw [if_neg hb]; rfl
    · rw [if_pos rfl]
      exact List.mem_singleton_self _
    · by_cases hb : b = a
      · rw [if_pos hb] at hc
        rw [List.mem_singleton.1 hc] at hq
        cases hq
        exact le_rfl
      · rw [if_neg hb] at hc
        cases hc
  call _ _ _ _ _ h hrun := h.call hrun
  merge _ _ _ _ _ _ _ _ _ h h' := h.merge h'

/-- The sum of the counts, over any servers that have all those that are not zero. -/
theorem total_eq_sum_getD {m : FinMap Uuid ℕ} {S : Finset Uuid}
    (hS : ∀ b, b ∉ S → (m.find? b).getD 0 = 0) : m.total = ∑ b ∈ S, (m.find? b).getD 0 := by
  rw [FinMap.total_eq_sum m (S := m.keys.toFinset ∪ S) fun b hb =>
    Finset.mem_union_left _ (List.mem_toFinset.2 (AList.mem_keys.1 hb))]
  exact (Finset.sum_subset Finset.subset_union_right fun b _ hb => hS b hb).symm

section Values

variable {a : Uuid} {K : Uuid → List ItemCall} {i : Item}

theorem Item.Means.valueLocal (h : i.Means a K) (hp : ((K a).map ItemCall.raises).sum < 2 ^ 63)
    (hn : ((K a).map ItemCall.lowers).sum < 2 ^ 63) :
    i.amount.valueLocal = some (ItemCall.net (K a)) := by
  have hpLocal : i.amount.p.valueLocal = ((K a).map ItemCall.raises).sum := by
    rw [← h.p a, GCounter.valueLocal, h.pActor]
  have hnLocal : i.amount.n.valueLocal = ((K a).map ItemCall.lowers).sum := by
    rw [← h.n a, GCounter.valueLocal, h.nActor]
  rw [PNCounter.valueLocal_of_lt (by rwa [hpLocal]) (by rwa [hnLocal]), hpLocal, hnLocal]
  rfl

theorem Item.Means.valueTotal (h : i.Means a K) {S : Finset Uuid} (hS : ∀ b, b ∉ S → K b = [])
    (hp : ∑ b ∈ S, ((K b).map ItemCall.raises).sum < 2 ^ 63)
    (hn : ∑ b ∈ S, ((K b).map ItemCall.lowers).sum < 2 ^ 63) :
    i.amount.valueTotal = some (∑ b ∈ S, ItemCall.net (K b)) := by
  have hpTotal : i.amount.p.counter.total = ∑ b ∈ S, ((K b).map ItemCall.raises).sum := by
    rw [total_eq_sum_getD (S := S) fun b hb => by rw [h.p, hS b hb]; rfl]
    exact Finset.sum_congr rfl fun b _ => h.p b
  have hnTotal : i.amount.n.counter.total = ∑ b ∈ S, ((K b).map ItemCall.lowers).sum := by
    rw [total_eq_sum_getD (S := S) fun b hb => by rw [h.n, hS b hb]; rfl]
    exact Finset.sum_congr rfl fun b _ => h.n b
  rw [PNCounter.valueTotal_of_lt (by rwa [hpTotal]) (by rwa [hnTotal]), hpTotal, hnTotal]
  unfold ItemCall.net
  rw [Finset.sum_sub_distrib, Nat.cast_sum, Nat.cast_sum]

/-- What the calls mean leaves nothing open but the value of a register that was written twice. -/
theorem Item.Means.agree {b : Uuid} {j : Item} (h : i.Means a K) (h' : j.Means b K) :
    (∀ x, (i.amount.p.counter.find? x).getD 0 = (j.amount.p.counter.find? x).getD 0) ∧
      (∀ x, (i.amount.n.counter.find? x).getD 0 = (j.amount.n.counter.find? x).getD 0) ∧
      i.acquired.stamp = j.acquired.stamp := by
  refine ⟨fun x => by rw [h.p, h'.p], fun x => by rw [h.n, h'.n], le_antisymm ?_ ?_⟩
  · obtain ⟨x, c, hc, hwrite⟩ := h.written
    exact h'.newest x c hc _ hwrite
  · obtain ⟨x, c, hc, hwrite⟩ := h'.written
    exact h.newest x c hc _ hwrite

end Values

/-! ## Every replica at every moment -/

/-- **Every replica holds what its vector clock says**, in every run. -/
theorem counters_add_up {acquired : Uuid → LWWReg Uuid} {w : VectorClocks.Replicas Uuid ItemCall Item}
    {past : List (VectorClocks.Replicas Uuid ItemCall Item)}
    (hrun : (itemObject acquired).Run w past) (a : Uuid) :
    let calls := known w.log (w.clock a)
    calls a = w.log a ∧
      (((w.log a).map ItemCall.raises).sum < 2 ^ 63 → ((w.log a).map ItemCall.lowers).sum < 2 ^ 63 →
        (w.state a).amount.valueLocal = some (ItemCall.net (w.log a))) ∧
      (∀ S : Finset Uuid, (∀ b, b ∉ S → calls b = []) →
        ∑ b ∈ S, ((calls b).map ItemCall.raises).sum < 2 ^ 63 →
        ∑ b ∈ S, ((calls b).map ItemCall.lowers).sum < 2 ^ 63 →
          (w.state a).amount.valueTotal = some (∑ b ∈ S, ItemCall.net (calls b))) ∧
      ((∃ b, ∃ c ∈ calls b, c.writes = some (w.state a).acquired) ∧
        ∀ b, ∀ c ∈ calls b, ∀ q, c.writes = some q → q.stamp ≤ (w.state a).acquired.stamp) ∧
      ∀ m ∈ w :: past, ∀ b, m.clock b = w.clock a →
        (∀ x, ((m.state b).amount.p.counter.find? x).getD 0 =
          ((w.state a).amount.p.counter.find? x).getD 0) ∧
        (∀ x, ((m.state b).amount.n.counter.find? x).getD 0 =
          ((w.state a).amount.n.counter.find? x).getD 0) ∧
        (m.state b).acquired.stamp = (w.state a).acquired.stamp := by
  intro calls
  obtain ⟨hmoments, hown⟩ := hrun.follows (means_item acquired)
  have hmeans : (w.state a).Means a calls := (hmoments w List.mem_cons_self).means a
  have hself : calls a = w.log a := by
    unfold calls known
    rw [hown, List.take_length]
  refine ⟨hself, fun hp hn => ?_, fun S hS hp hn => hmeans.valueTotal hS hp hn,
    ⟨hmeans.written, hmeans.newest⟩, fun m hm b hclock => ?_⟩
  · rw [← hself] at hp hn ⊢
    exact hmeans.valueLocal hp hn
  · have hthen := (hmoments m hm).means b
    rw [hclock] at hthen
    exact hthen.agree hmeans

/-- Two replicas: one counts two up and one down, the other one up, and the first hears of it. -/
theorem counters_add_up_two :
    ∃ w past, (itemObject fun a => .new 0 0 a).Run w past ∧
      (w.state ⟨201⟩).amount.valueLocal = some 1 := by
  have hstart : (itemObject fun a => .new 0 0 a).Run _ [] := .start
  have hrun := (((hstart.call ⟨201⟩ (.incBy 2) rfl).call ⟨201⟩ .dec rfl).call ⟨202⟩
    .inc rfl).merge ⟨201⟩ List.mem_cons_self ⟨202⟩
  exact ⟨_, _, hrun, (counters_add_up hrun ⟨201⟩).2.1 (by decide +kernel) (by decide +kernel)⟩

end Sdle
