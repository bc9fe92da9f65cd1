import Sdle.Placement

/-!
# The servers before a server (`HashRing::get_predecessors`)

A new member asks which servers come before it, and expects its counter-clockwise neighbours.  The
loop excludes the server itself, but it starts at the largest hash of the ring, whoever asks.

* `getPredecessors_eq` — the loop first meets the servers above the position of the server, and
  those below it afterwards.
* `neighbours_eq` — a counter-clockwise walk from the position meets them the other way round.
* `predecessors_are_neighbours_iff` — **when the predecessors are the counter-clockwise
  neighbours**: exactly when the order in which the servers are met is the same on the two sides.
-/

set_option autoImplicit false

namespace Sdle

namespace HashRing

variable {self : HashRing} {n : Uuid} {start : U128}

/-- The position of a server: its smallest vnode, which is the first one in ring order. -/
def position (self : HashRing) (n : Uuid) : Option U128 := (self.vnodes n).head?

/-- The entries of the ring counter-clockwise from a hash: down from it to the smallest one, and on
from the largest one. -/
def counterClockwise (self : HashRing) (start : U128) : List (U128 × Uuid) :=
  self.entries.reverse.filter (fun e => decide (e.1 < start)) ++ self.entries.reverse

/-- The servers other than `n` in the order in which they are first met. -/
def othersMet (n : Uuid) (es : List (U128 × Uuid)) : List Uuid :=
  ((es.filter fun e => decide (e.2 ≠ n)).map Prod.snd).eraseDups

/-- The counter-clockwise neighbours of a server. -/
def neighbours (self : HashRing) (n : Uuid) (start : U128) : List Uuid :=
  (othersMet n (self.counterClockwise start)).take self.replicas

/-- The other servers met on the way down from a hash to the smallest one of the ring. -/
def metBelow (self : HashRing) (n : Uuid) (start : U128) : List Uuid :=
  othersMet n (self.entries.reverse.filter fun e => decide (e.1 < start))

/-- The other servers met on the way down from the largest hash of the ring to a hash. -/
def metAbove (self : HashRing) (n : Uuid) (start : U128) : List Uuid :=
  othersMet n (self.entries.reverse.filter fun e => !decide (e.1 < start))

/-- `get_predecessors` returns the counter-clockwise neighbours of a server: without repetitions and
without the server itself, as many as there are up to `replicas`, in the order of the walk. -/
def PredecessorsAreNeighbours (self : HashRing) (n : Uuid) (start : U128) : Prop :=
  (self.getPredecessors n).Nodup ∧ n ∉ self.getPredecessors n ∧
    (self.getPredecessors n).length = min self.replicas (self.serverCount - 1) ∧
    self.getPredecessors n = self.neighbours n start

/-- A server of the ring has a position, and none of its vnodes lies below it. -/
theorem exists_position (hn : n ∈ self.servers) :
    ∃ start, self.position n = some start ∧ ∀ k ∈ self.vnodes n, start ≤ k := by
  obtain ⟨⟨k, u⟩, he, rfl⟩ := List.mem_map.1 hn
  have hk : k ∈ self.vnodes u := mem_vnodes.2 he
  have hordered : (self.vnodes u).Pairwise (· < ·) := by
    refine List.pairwise_filterMap.2 ((ordered_entries self).imp ?_)
    intro a b hab i hi j hj
    rw [Option.ite_none_right_eq_some] at hi hj
    rw [← Option.some.inj hi.2, ← Option.some.inj hj.2]
    exact hab
  unfold position
  cases hv : self.vnodes u with
  | nil =>
    rw [hv] at hk
    cases hk
  | cons start rest =>
    rw [hv, List.pairwise_cons] at hordered
    refine ⟨start, rfl, fun j hj => ?_⟩
    rcases List.mem_cons.1 hj with rfl | hj
    · exact le_refl _
    · exact (hordered.1 j hj).le

/-! ## The two walks -/

theorem othersMet_append (n : Uuid) (es es' : List (U128 × Uuid)) :
    othersMet n (es ++ es') =
      ((es.filter fun e => decide (e.2 ≠ n)).map Prod.snd ++
        (es'.filter fun e => decide (e.2 ≠ n)).map Prod.snd).eraseDups := by
  unfold othersMet
  rw [List.filter_append, List.map_append]

/-- Going down the ring, the hashes below `start` come last. -/
theorem split_reverse (self : HashRing) (start : U128) :
    (self.entries.reverse.filter fun e => !decide (e.1 < start)) ++
      self.entries.reverse.filter (fun e => decide (e.1 < start)) = self.entries.reverse := by
  refine Firsts.filter_not_append_filter ?_
  refine (List.pairwise_reverse.2 (ordered_entries self)).imp fun hba ha => ?_
  simp only [decide_eq_true_eq] at ha ⊢
  exact hba.trans ha

/-- The loop of `get_predecessors` from the largest hash down. -/
theorem getPredecessors_eq_others (hr : 1 ≤ self.replicas) (n : Uuid) :
    self.getPredecessors n = (othersMet n self.entries.reverse).take self.replicas := by
  unfold getPredecessors othersMet
  split
  · rename_i hempty
    rw [entries_of_isEmpty hempty]
    simp
  · have hwalk := walk_eq self.replicas (self.entries.reverse.filter fun e => decide (e.2 ≠ n)) []
      (by simpa using Nat.lt_of_succ_le hr)
    simpa using hwalk

/-- **The loop meets what is above the position of the server before what is below it.** -/
theorem getPredecessors_eq (hr : 1 ≤ self.replicas) (n : Uuid) (start : U128) :
    self.getPredecessors n =
      (othersMet n ((self.entries.reverse.filter fun e => !decide (e.1 < start)) ++
        self.entries.reverse.filter fun e => decide (e.1 < start))).take self.replicas := by
  rw [getPredecessors_eq_others hr, split_reverse]

/-- **The counter-clockwise walk meets what is below first.** -/
theorem neighbours_eq (self : HashRing) (n : Uuid) (start : U128) :
    self.neighbours n start =
      (othersMet n (self.entries.reverse.filter (fun e => decide (e.1 < start)) ++
        self.entries.reverse.filter fun e => !decide (e.1 < start))).take self.replicas := by
  unfold neighbours counterClockwise othersMet
  have hsecond := Firsts.eraseDups_filter_append Prod.snd (fun e : U128 × Uuid => decide (e.1 < start))
    (self.entries.reverse.filter fun e => decide (e.2 ≠ n))
  rw [List.filter_append, List.filter_append, List.filter_comm, List.filter_comm _ (fun e => !decide _),
    hsecond]

theorem mem_othersMet {es : List (U128 × Uuid)} {u : Uuid} :
    u ∈ othersMet n es ↔ u ≠ n ∧ u ∈ es.map Prod.snd := by
  unfold othersMet
  rw [List.mem_eraseDups, List.mem_map, List.mem_map]
  constructor
  · rintro ⟨e, he, rfl⟩
    rw [List.mem_filter] at he
    exact ⟨by simpa using he.2, e, he.1, rfl⟩
  · rintro ⟨hne, e, he, rfl⟩
    exact ⟨e, List.mem_filter.2 ⟨he, by simpa using hne⟩, rfl⟩

/-- Wherever a walk around the ring starts, it meets every server but the excluded one. -/
theorem length_othersMet (hn : n ∈ self.servers) :
    (othersMet n self.entries.reverse).length = self.serverCount - 1 := by
  have hmem : (othersMet n self.entries.reverse).toFinset = self.getAllServers.erase n := by
    ext u
    rw [List.mem_toFinset, mem_othersMet, Finset.mem_erase, List.map_reverse, List.mem_reverse]
    exact and_congr_right fun _ => List.mem_toFinset.symm
  have hn' : n ∈ self.getAllServers := List.mem_toFinset.2 hn
  unfold serverCount
  rw [← Finset.card_erase_of_mem hn', ← hmem]
  exact (List.toFinset_card_of_nodup (Firsts.nodup_eraseDups _)).symm

/-! ## When they agree -/

/-- **When the predecessors are the counter-clockwise neighbours.** -/
theorem predecessors_are_neighbours_iff (hr : 1 ≤ self.replicas) (hn : n ∈ self.servers) :
    ∃ start, self.position n = some start ∧ (∀ k ∈ self.vnodes n, start ≤ k) ∧
      (self.PredecessorsAreNeighbours n start ↔
        (self.metBelow n start).take self.replicas <+: self.metAbove n start ∨
          (self.metAbove n start).take self.replicas <+: self.metBelow n start) := by
  obtain ⟨start, hstart, hleast⟩ := exists_position hn
  refine ⟨start, hstart, hleast, ?_⟩
  have hlist := getPredecessors_eq_others hr n
  have hnodup : (self.getPredecessors n).Nodup := by
    rw [hlist]
    exact (Firsts.nodup_eraseDups _).sublist (List.take_sublist _ _)
  have hnot : n ∉ self.getPredecessors n := by
    rw [hlist]
    intro hmem
    exact (mem_othersMet.1 (List.mem_of_mem_take hmem)).1 rfl
  have hlength : (self.getPredecessors n).length = min self.replicas (self.serverCount - 1) := by
    rw [hlist, List.length_take, length_othersMet hn]
  have horder : self.getPredecessors n = self.neighbours n start ↔
      (self.metBelow n start).take self.replicas <+: self.metAbove n start ∨
        (self.metAbove n start).take self.replicas <+: self.metBelow n start := by
    rw [getPredecessors_eq hr n start, neighbours_eq, othersMet_append, othersMet_append,
      Firsts.take_append_comm_iff]
    exact Or.comm
  unfold PredecessorsAreNeighbours
  rw [horder]
  constructor
  · intro h
    exact h.2.2.2
  · intro h
    exact ⟨hnodup, hnot, hlength, h⟩

/-- The ring of four servers. -/
def fourServers : HashRing :=
  changed md5 (.new VNODES REPLICAS)
    [.addNode (.ofTail 1), .addNode (.ofTail 2), .addNode (.ofTail 3), .addNode (.ofTail 4)]

/-- For the server at the smallest hash both walks start at the largest one. -/
theorem predecessors_are_neighbours_third :
    ∃ start, fourServers.position (.ofTail 3) = some start ∧
      (∀ k ∈ fourServers.vnodes (.ofTail 3), start ≤ k) ∧
      (fourServers.PredecessorsAreNeighbours (.ofTail 3) start ↔
        (fourServers.metBelow (.ofTail 3) start).take fourServers.replicas <+:
            fourServers.metAbove (.ofTail 3) start ∨
          (fourServers.metAbove (.ofTail 3) start).take fourServers.replicas <+:
            fourServers.metBelow (.ofTail 3) start) :=
  predecessors_are_neighbours_iff (by decide +kernel) (by decide +kernel)

/-- Going down from the fourth server one meets servers 1, 2 and 3; from the top of the ring,
2, 3 and 1. -/
theorem predecessors_are_not_neighbours :
    fourServers.position (.ofTail 4) = some 0xa1d86b78cf4d0389dbac503e40a34c30 ∧
      fourServers.getPredecessors (.ofTail 4) = [.ofTail 2, .ofTail 3, .ofTail 1] ∧
      ¬ fourServers.PredecessorsAreNeighbours (.ofTail 4) 0xa1d86b78cf4d0389dbac503e40a34c30 := by
  refine ⟨by decide +kernel, by decide +kernel, fun h => absurd h.2.2.2 ?_⟩
  decide +kernel

end HashRing

end Sdle
