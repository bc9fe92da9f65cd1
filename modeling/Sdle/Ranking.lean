import Sdle.Lib.Shortlists
import Sdle.Gossip
import Sdle.Placement

/-!
# One ranking for all rings (`hash_ring.rs`, `server.rs`, `proxy.rs`)

The proxy and every peer have a ring of their own, and place a list by it without asking anyone.
The rings differ while news of a server is still on its way.

* `BuiltOf.getPreferenceList_eq` — the servers have one ranking for every list, and each ring takes
  the first `REPLICAS` of its own servers in this order.
* `rings_rank_alike` — **all rings that arise place by one ranking**: what two of them place in common
  comes in the same order, a server of both is displaced by a newcomer only, and where their
  coordinators differ, one of them is unknown to the other.
-/

set_option autoImplicit false

namespace Sdle

open Tasks Peer Shortlists

variable {hash : String → U128}

/-! ## Rings of some servers -/

namespace HashRing

variable (hash) in
/-- A ring on which these servers have been added. -/
def ofServers (N : List Uuid) : HashRing :=
  N.foldl (fun ring u => ring.addNode hash u) (.new VNODES REPLICAS)

variable (hash) in
/-- The ring has all the vnodes of some of the servers `N`, and nothing else. -/
structure BuiltOf (N : List Uuid) (r : HashRing) : Prop where
  virtualNodes : r.virtualNodes = VNODES
  replicas : r.replicas = REPLICAS
  servers : ∀ u ∈ r.servers, u ∈ N
  entries : ∀ h u, r.ring[h]? = some u ↔ u ∈ r.servers ∧ ∃ i < VNODES, hash (vnodeKey u i) = h

/-- The vnodes of the servers `N` do not collide. -/
abbrev Apart (hash : String → U128) (N : List Uuid) : Prop :=
  Set.InjOn hash (vnodeKeys {u | u ∈ N} VNODES)

section Built

variable {N : List Uuid} {self : HashRing} {u : Uuid}

/-- The vnodes of two servers are apart. -/
theorem Apart.eq (hinj : Apart hash N) {v : Uuid} {i j : ℕ} (hu : u ∈ N) (hv : v ∈ N) (hi : i < VNODES)
    (hj : j < VNODES) (h : hash (vnodeKey u i) = hash (vnodeKey v j)) : u = v :=
  (vnodeKey_inj (hinj ⟨u, hu, i, hi, rfl⟩ ⟨v, hv, j, hj, rfl⟩ h)).1

theorem builtOf_new (N : List Uuid) : (HashRing.new VNODES REPLICAS).BuiltOf hash N := by
  have hnone : ∀ u, u ∉ (HashRing.new VNODES REPLICAS).servers := by
    intro u hu
    obtain ⟨h, hh⟩ := mem_servers.1 hu
    simp [HashRing.new] at hh
  refine ⟨rfl, rfl, fun u hu => absurd hu (hnone u), fun h u => ?_⟩
  refine iff_of_false ?_ fun hu => hnone u hu.1
  simp [HashRing.new]

theorem mem_servers_addNode_iff (hself : self.BuiltOf hash N) {v : Uuid} (hinj : Apart hash N)
    (hu : u ∈ N) : v ∈ (self.addNode hash u).servers ↔ v = u ∨ v ∈ self.servers := by
  refine ⟨mem_servers_addNode, fun hv => ?_⟩
  have hfirst : 0 < VNODES := by decide
  rw [mem_servers]
  by_cases hvu : v = u
  · subst hvu
    refine ⟨hash (vnodeKey v 0), ?_⟩
    rw [getElem?_addNode, hself.virtualNodes, if_pos ⟨0, hfirst, rfl⟩]
  · have hold := hv.resolve_left hvu
    refine ⟨hash (vnodeKey v 0), ?_⟩
    rw [getElem?_addNode, hself.virtualNodes, if_neg, hself.entries]
    · exact ⟨hold, 0, hfirst, rfl⟩
    · rintro ⟨i, hi, heq⟩
      exact hvu (hinj.eq hu (hself.servers v hold) hi hfirst heq).symm

theorem BuiltOf.addNode (hself : self.BuiltOf hash N) (hinj : Apart hash N) (hu : u ∈ N) :
    (self.addNode hash u).BuiltOf hash N := by
  refine ⟨hself.virtualNodes, hself.replicas, fun v hv => ?_, fun h v => ?_⟩
  · rcases mem_servers_addNode hv with rfl | hv
    · exact hu
    · exact hself.servers v hv
  · rw [mem_servers_addNode_iff hself hinj hu, getElem?_addNode, hself.virtualNodes]
    by_cases hh : ∃ i < VNODES, hash (vnodeKey u i) = h
    · rw [if_pos hh]
      obtain ⟨i, hi, rfl⟩ := hh
      constructor
      · rintro heq
        cases heq
        exact ⟨Or.inl rfl, i, hi, rfl⟩
      · rintro ⟨rfl | hv, j, hj, heq⟩
        · rfl
        · rw [hinj.eq (hself.servers v hv) hu hj hi heq]
    · rw [if_neg hh, hself.entries]
      refine and_congr_left fun hv => (or_iff_right ?_).symm
      rintro rfl
      exact hh hv

theorem BuiltOf.removeNode (hself : self.BuiltOf hash N) (hinj : Apart hash N) (hu : u ∈ N) :
    (self.removeNode hash u).BuiltOf hash N := by
  refine ⟨hself.virtualNodes, hself.replicas, fun v hv => hself.servers v (mem_servers_removeNode hv),
    fun h v => ⟨fun hv => ⟨mem_servers.2 ⟨h, hv⟩, ?_⟩, ?_⟩⟩
  · rw [getElem?_removeNode] at hv
    split at hv
    · cases hv
    · exact ((hself.entries h v).1 hv).2
  · rintro ⟨hv, j, hj, rfl⟩
    have hold := mem_servers_removeNode hv
    obtain ⟨k, hk⟩ := mem_servers.1 hv
    rw [getElem?_removeNode, hself.virtualNodes] at hk ⊢
    rw [if_neg, hself.entries]
    · exact ⟨hold, j, hj, rfl⟩
    · rintro ⟨i, hi, heq⟩
      obtain rfl := hinj.eq hu (hself.servers v hold) hi hj heq
      split at hk
      · cases hk
      · rename_i hnot
        exact hnot ((hself.entries k u).1 hk).2

theorem BuiltOf.apply (hself : self.BuiltOf hash N) (hinj : Apart hash N) {c : Change}
    (hc : c.node ∈ N) : (c.apply hash self).BuiltOf hash N := by
  cases c with
  | addNode u => exact hself.addNode hinj hc
  | removeNode u => exact hself.removeNode hinj hc

/-- A ring with some more servers on it. -/
theorem builtOf_foldl (hinj : Apart hash N) : ∀ (us : List Uuid) {self : HashRing},
    self.BuiltOf hash N → (∀ u ∈ us, u ∈ N) →
      (us.foldl (fun ring u => ring.addNode hash u) self).BuiltOf hash N ∧
        ∀ v, v ∈ (us.foldl (fun ring u => ring.addNode hash u) self).servers ↔
          v ∈ us ∨ v ∈ self.servers
  | [], _, hself, _ => ⟨hself, fun v => by simp⟩
  | u :: us, self, hself, hus => by
    have hu := hus u List.mem_cons_self
    obtain ⟨hbuilt, hmem⟩ := builtOf_foldl hinj us (hself.addNode hinj hu)
      fun v hv => hus v (List.mem_cons_of_mem u hv)
    refine ⟨hbuilt, fun v => (hmem v).trans ?_⟩
    rw [mem_servers_addNode_iff hself hinj hu, List.mem_cons]
    exact or_left_comm.trans or_assoc.symm

theorem builtOf_ofServers (hinj : Apart hash N) {us : List Uuid} (hus : ∀ u ∈ us, u ∈ N) :
    (ofServers hash us).BuiltOf hash N := (builtOf_foldl hinj us (builtOf_new N) hus).1

theorem mem_servers_ofServers (hinj : Apart hash N) : u ∈ (ofServers hash N).servers ↔ u ∈ N := by
  have hmem := (builtOf_foldl hinj N (builtOf_new N) fun _ => id).2 u
  refine hmem.trans (or_iff_left fun hu => ?_)
  obtain ⟨h, hh⟩ := mem_servers.1 hu
  simp [HashRing.new] at hh

/-- A ring is the part of the whole ring that its servers have. -/
theorem BuiltOf.entries_eq (hself : self.BuiltOf hash N) (hinj : Apart hash N) :
    self.entries = (ofServers hash N).entries.filter fun e => e.2 ∈ self.servers := by
  refine eq_of_ordered (ordered_entries self) ((ordered_entries _).filter _) ?_
  rintro ⟨h, u⟩
  rw [List.mem_filter, mem_entries, mem_entries, hself.entries,
    (builtOf_ofServers hinj fun _ => id).entries, mem_servers_ofServers hinj, decide_eq_true_eq]
  constructor
  · rintro ⟨hu, hvnode⟩
    exact ⟨⟨hself.servers u hu, hvnode⟩, hu⟩
  · rintro ⟨⟨-, hvnode⟩, hu⟩
    exact ⟨hu, hvnode⟩

/-- Leaving servers out of a ring leaves them out of the order of its servers. -/
theorem BuiltOf.owners_eq (hself : self.BuiltOf hash N) (hinj : Apart hash N) (start : U128) :
    self.owners start = ((ofServers hash N).owners start).filter fun u => u ∈ self.servers := by
  unfold owners clockwise
  rw [Firsts.filter_eraseDups, List.filter_map, List.filter_append, hself.entries_eq hinj,
    List.filter_filter, List.filter_filter]
  simp only [Function.comp_def, Bool.and_comm]

variable (hash N) in
/-- The servers in the order in which a list prefers them. -/
def ranking (id : Uuid) : List Uuid := (ofServers hash N).owners (hash id.toString)

variable (hash) in
/-- **Each ring takes the first of its own servers**, in the order of the ranking. -/
theorem BuiltOf.getPreferenceList_eq (hself : self.BuiltOf hash N) (hinj : Apart hash N) (id : Uuid) :
    self.getPreferenceList hash id =
      shortlist (ranking hash N id) REPLICAS fun u => u ∈ self.servers := by
  have hr : 1 ≤ self.replicas := by
    rw [hself.replicas]
    decide
  have hfirst : self.getPreferenceList hash id =
      (self.owners (hash id.toString)).take self.replicas := HashRing.getPreferenceList_eq hr id
  rw [hfirst, hself.owners_eq hinj, hself.replicas]
  rfl

theorem BuiltOf.getCoordinator_eq (hself : self.BuiltOf hash N) (hinj : Apart hash N) (id : Uuid) :
    self.getCoordinator hash id = (ranking hash N id).find? fun u => u ∈ self.servers := by
  unfold getCoordinator
  rw [hself.getPreferenceList_eq hash hinj]
  exact head?_shortlist (by decide)

end Built

end HashRing

/-! ## The rings of a run -/

section Runs

open HashRing

/-- The rings of the proxy and of the servers `N`. -/
def World.rings (N : List Uuid) (w : World hash) : Set HashRing :=
  {r | r = w.proxyRing ∨ ∃ p ∈ N, r = (w.node p).hashring}

/-- Only servers of `N` are put on a ring. -/
def placesOnly (N : List Uuid) : Event (cluster hash) → Bool
  | .did _ o _ => (callOf o).all fun c => c.node ∈ N
  | .arrived (.ready u) => u ∈ N
  | _ => true

/-- The proxy or a server of `N` has the ring, at some moment of a run in which only servers of `N`
are put on rings. -/
def Arises (w₀ : World hash) (N : List Uuid) (r : HashRing) : Prop :=
  ∃ (D : Discipline (cluster hash)) (evs : History hash) (c : Config (cluster hash)),
    Run (cluster hash) D (quiet w₀) evs c ∧ (∀ ev ∈ evs, placesOnly N ev = true) ∧
      r ∈ c.state.rings N

variable {w₀ : World hash} {N : List Uuid}

/-- An operation that puts only servers of `N` on a ring keeps the rings. -/
theorem builtOf_did (hinj : Apart hash N) {t : Tid} {o : Op} {a : Ans o} {w : World hash}
    (hplaces : placesOnly N (.did t o a : Event (cluster hash)) = true)
    (h : ∀ r ∈ w.rings N, r.BuiltOf hash N) : ∀ r ∈ (effect t o a w).rings N, r.BuiltOf hash N := by
  rintro r (rfl | ⟨p, hp, rfl⟩)
  · rw [proxyRing_effect]
    exact h _ (Or.inl rfl)
  · have hold := h _ (Or.inr ⟨p, hp, rfl⟩)
    rw [node_effect]
    split
    · rw [hashring_after]
      change ((callOf o).all fun c => decide (c.node ∈ N)) = true at hplaces
      cases hcall : callOf o with
      | none => exact hold
      | some c =>
        rw [hcall] at hplaces
        exact hold.apply hinj (of_decide_eq_true hplaces)
    · exact hold

/-- A server of `N` that registers keeps the ring of the proxy. -/
theorem builtOf_arrived (hinj : Apart hash N) {e : Arrival} {w w' : World hash}
    {s : Option (Tid × Code Unit)} (harr : arrive e w = some (s, w'))
    (hplaces : placesOnly N (.arrived e : Event (cluster hash)) = true)
    (h : ∀ r ∈ w.rings N, r.BuiltOf hash N) : ∀ r ∈ w'.rings N, r.BuiltOf hash N := by
  have hproxy := h _ (Or.inl rfl)
  rintro r (rfl | ⟨p, hp, rfl⟩)
  · cases e with
    | ready u =>
      cases harr
      exact hproxy.addNode hinj (of_decide_eq_true hplaces)
    | _ =>
      rw [proxyRing_arrive harr fun u h => by cases h]
      exact hproxy
  · rw [node_arrive harr]
    exact h _ (Or.inr ⟨p, hp, rfl⟩)

/-- **Every ring that arises is built of its servers.** -/
theorem Arises.builtOf (hinj : Apart hash N) (hw₀ : ∀ r ∈ w₀.rings N, r.BuiltOf hash N) {r : HashRing}
    (h : Arises w₀ N r) : r.BuiltOf hash N := by
  obtain ⟨D, evs, c, hrun, hplaces, hr⟩ := h
  refine Run.invariant (fun evs w => (∀ ev ∈ evs, placesOnly N ev = true) →
    ∀ r ∈ w.rings N, r.BuiltOf hash N) ?did ?ended ?arrived (fun _ => hw₀) hrun hplaces r hr
  case did =>
    intro evs w t o ch a w' ih hact _ hplaces
    obtain ⟨-, rfl⟩ := act_eq hact
    rw [List.forall_mem_cons] at hplaces
    exact builtOf_did hinj hplaces.1 (ih hplaces.2)
  case ended =>
    intro evs w t ih hplaces
    exact ih (List.forall_mem_cons.1 hplaces).2
  case arrived =>
    intro evs w e s w' ih harr _ hplaces
    rw [List.forall_mem_cons] at hplaces
    exact builtOf_arrived hinj harr hplaces.1 (ih hplaces.2)

/-- **All rings that arise place by one ranking**, those of any two parties at any two moments. -/
theorem rings_rank_alike (hinj : Apart hash N) (hw₀ : ∀ r ∈ w₀.rings N, r.BuiltOf hash N)
    {r r' : HashRing} (hr : Arises w₀ N r) (hr' : Arises w₀ N r') (id : Uuid) :
    let mine := r.getPreferenceList hash id
    let theirs := r'.getPreferenceList hash id
    mine = ((ranking hash N id).filter fun u => u ∈ r.servers).take REPLICAS ∧
      (mine.filter fun u => u ∈ theirs) = (theirs.filter fun u => u ∈ mine) ∧
      (mine.filter fun u => u ∈ r'.servers ∧ u ∉ theirs).length ≤
        (theirs.filter fun u => u ∉ r.servers).length ∧
      (r.getCoordinator hash id = r'.getCoordinator hash id ∨
        (∃ u, r.getCoordinator hash id = some u ∧ u ∉ r'.servers) ∨
        ∃ u, r'.getCoordinator hash id = some u ∧ u ∉ r.servers) := by
  intro mine theirs
  have hbuilt := hr.builtOf hinj hw₀
  have hbuilt' := hr'.builtOf hinj hw₀
  have hmine : mine = shortlist (ranking hash N id) REPLICAS fun u => u ∈ r.servers :=
    hbuilt.getPreferenceList_eq hash hinj id
  have htheirs : theirs = shortlist (ranking hash N id) REPLICAS fun u => u ∈ r'.servers :=
    hbuilt'.getPreferenceList_eq hash hinj id
  have hranking : (ranking hash N id).Nodup := nodup_owners _ _
  refine ⟨hmine, ?_, ?_, ?_⟩
  · rw [hmine, htheirs]
    exact filter_mem_comm hranking shortlist_sublist shortlist_sublist
  · have hdisplaced := length_displaced_le hranking REPLICAS (fun u => u ∈ r.servers)
      fun u => u ∈ r'.servers
    unfold displaced at hdisplaced
    rw [← hmine, ← htheirs] at hdisplaced
    simpa only [Bool.decide_and, decide_not] using hdisplaced
  · rw [hbuilt.getCoordinator_eq hinj, hbuilt'.getCoordinator_eq hinj]
    have hfirst := find?_disagree (ranking hash N id) (fun u => decide (u ∈ r.servers))
      fun u => decide (u ∈ r'.servers)
    simpa only [decide_eq_false_iff_not] using hfirst

end Runs

/-! ## Server 4 is on its way in -/

open HashRing

theorem builtOf_joined {N : List Uuid} (hinj : Apart hash N) {us : List Uuid} (hus : ∀ u ∈ us, u ∈ N) :
    ∀ r ∈ (World.joined hash us).rings N, r.BuiltOf hash N := by
  rintro r (rfl | ⟨p, -, rfl⟩)
  · exact builtOf_ofServers hinj hus
  · exact builtOf_ofServers hinj hus

/-- Server 4 has registered at the proxy, and server 1 has not heard of it. -/
theorem rings_rank_alike_fourth :
    ∃ r r' : HashRing, r.serverCount = 4 ∧ r'.serverCount = 3 ∧
      ((r'.getPreferenceList md5 (.ofTail 101)).filter fun u =>
          u ∈ r.servers ∧ u ∉ r.getPreferenceList md5 (.ofTail 101)).length ≤
        ((r.getPreferenceList md5 (.ofTail 101)).filter fun u => u ∉ r'.servers).length := by
  obtain ⟨evs, c, hrun, hcheck⟩ := exists_run (D := anyStep) (fun _ _ _ => true)
    (fun _ _ _ _ => trivial) (quiet (World.joined md5 [.ofTail 1, .ofTail 2, .ofTail 3]))
    [.arrive (.ready (.ofTail 4))]
    (fun evs c => evs.all (placesOnly [.ofTail 1, .ofTail 2, .ofTail 3, .ofTail 4]) &&
      (decide (c.state.proxyRing.serverCount = 4) &&
        decide ((c.state.node (.ofTail 1)).hashring.serverCount = 3))) (by decide +kernel)
  simp only [Bool.and_eq_true, decide_eq_true_eq] at hcheck
  obtain ⟨hplaces, hfour, hthree⟩ := hcheck
  have harises : ∀ r ∈ c.state.rings [.ofTail 1, .ofTail 2, .ofTail 3, .ofTail 4],
      Arises (World.joined md5 [.ofTail 1, .ofTail 2, .ofTail 3])
        [.ofTail 1, .ofTail 2, .ofTail 3, .ofTail 4] r := fun r hr =>
    ⟨anyStep, evs, c, hrun, List.all_eq_true.1 hplaces, hr⟩
  have hproxy := harises _ (Or.inl rfl)
  have hpeer := harises _ (Or.inr ⟨.ofTail 1, List.mem_cons_self, rfl⟩)
  exact ⟨_, _, hfour, hthree, (rings_rank_alike injOn_fourServers
    (builtOf_joined injOn_fourServers (by decide)) hpeer hproxy (.ofTail 101)).2.2.1⟩

end Sdle
