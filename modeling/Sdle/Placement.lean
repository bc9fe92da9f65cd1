import Sdle.HashRing
import Sdle.Lib.Firsts
import Std.Data.String.ToNat
import Mathlib.Data.List.Induction

/-!
# What the ring places where (`hash_ring.rs`)

The content of a ring after any calls of `add_node` and `remove_node`, and what one more server does
to a preference list.  Two vnode keys that are hashed are assumed not to collide.

* `ring_depends_on_nodes` — **ring content depends only on the set of nodes**, and so do preference
  lists and coordinators.
* `preference_list_first_owners` — **preference lists are the first distinct clockwise owners**.
* `add_node_disturbs_minimally` — **adding a node disturbs placement minimally**.

`walk_eq` is what both the two preference lists and the predecessors rest on: the loop returns the
first `replicas` distinct servers that its iterator meets.
-/

set_option autoImplicit false

namespace Sdle

namespace HashRing

variable {hash : String → U128}

/-! ## Vnodes -/

theorem vnodeKey_inj {m n : Uuid} {i j : ℕ} (h : vnodeKey m i = vnodeKey n j) : m = n ∧ i = j := by
  unfold vnodeKey at h
  have hl := congrArg String.toList h
  simp only [String.toList_append, List.append_assoc] at hl
  have hlen : m.toString.toList.length = n.toString.toList.length := by
    rw [String.length_toList, String.length_toList, Uuid.length_toString, Uuid.length_toString]
  obtain ⟨hm, hrest⟩ := List.append_inj hl hlen
  have hij := (List.append_inj hrest rfl).2
  exact ⟨Uuid.toString_injective (String.toList_inj.1 hm), Nat.repr_injective (String.toList_inj.1 hij)⟩

/-- The keys of the vnodes of some servers. -/
def vnodeKeys (N : Set Uuid) (virtualNodes : ℕ) : Set String :=
  {k | ∃ n ∈ N, ∃ i < virtualNodes, k = vnodeKey n i}

theorem vnodeKeys_mono {N M : Set Uuid} (h : N ⊆ M) (virtualNodes : ℕ) :
    vnodeKeys N virtualNodes ⊆ vnodeKeys M virtualNodes := by
  rintro _ ⟨n, hn, i, hi, rfl⟩
  exact ⟨n, h hn, i, hi, rfl⟩

/-- A loop of which each round sets what is under one key. -/
theorem getElem?_foldl (step : Std.ExtTreeMap U128 Uuid → ℕ → Std.ExtTreeMap U128 Uuid) (k : ℕ → U128)
    (v : Option Uuid)
    (hstep : ∀ (ring : Std.ExtTreeMap U128 Uuid) i h, (step ring i)[h]? = if k i = h then v else ring[h]?)
    (h : U128) : ∀ (is : List ℕ) (ring : Std.ExtTreeMap U128 Uuid),
      (is.foldl step ring)[h]? = if ∃ i ∈ is, k i = h then v else ring[h]? := by
  intro is
  induction is with
  | nil => simp
  | cons i is ih =>
    intro ring
    rw [List.foldl_cons, ih, hstep]
    by_cases hrest : ∃ j ∈ is, k j = h
    · obtain ⟨j, hj, hh⟩ := hrest
      rw [if_pos ⟨j, hj, hh⟩, if_pos ⟨j, List.mem_cons_of_mem _ hj, hh⟩]
    · rw [if_neg hrest]
      by_cases hi : k i = h
      · rw [if_pos hi, if_pos ⟨i, List.mem_cons_self, hi⟩]
      · rw [if_neg hi, if_neg]
        rintro ⟨j, hj, hh⟩
        rcases List.mem_cons.1 hj with rfl | hj
        · exact hi hh
        · exact hrest ⟨j, hj, hh⟩

theorem getElem?_addNode (self : HashRing) (n : Uuid) (h : U128) :
    (self.addNode hash n).ring[h]? =
      if ∃ i < self.virtualNodes, hash (vnodeKey n i) = h then some n else self.ring[h]? := by
  have hfold := getElem?_foldl (fun ring i => ring.insert (hash (vnodeKey n i)) n)
    (fun i => hash (vnodeKey n i)) (some n)
    (fun ring i h => by simp [Std.ExtTreeMap.getElem?_insert]) h (List.range self.virtualNodes) self.ring
  simp only [List.mem_range] at hfold
  exact hfold

theorem getElem?_removeNode (self : HashRing) (n : Uuid) (h : U128) :
    (self.removeNode hash n).ring[h]? =
      if ∃ i < self.virtualNodes, hash (vnodeKey n i) = h then none else self.ring[h]? := by
  have hfold := getElem?_foldl (fun ring i => ring.erase (hash (vnodeKey n i)))
    (fun i => hash (vnodeKey n i)) none
    (fun ring i h => by simp [Std.ExtTreeMap.getElem?_erase]) h (List.range self.virtualNodes) self.ring
  simp only [List.mem_range] at hfold
  exact hfold

/-- Rings with the same entries and parameters are the same. -/
theorem eq_of_getElem? {r q : HashRing} (hv : r.virtualNodes = q.virtualNodes)
    (hr : r.replicas = q.replicas) (h : ∀ k : U128, r.ring[k]? = q.ring[k]?) : r = q := by
  cases r
  cases q
  simp only [mk.injEq]
  exact ⟨Std.ExtTreeMap.ext_getElem? h, hv, hr⟩

/-! ## Histories of a ring -/

/-- A call that changes a ring. -/
inductive Change where
  | addNode (n : Uuid)
  | removeNode (n : Uuid)
  deriving DecidableEq

namespace Change

/-- The server that a call names. -/
def node : Change → Uuid
  | addNode n => n
  | removeNode n => n

/-- What a call does. -/
def apply (hash : String → U128) : Change → HashRing → HashRing
  | addNode n, r => r.addNode hash n
  | removeNode n, r => r.removeNode hash n

end Change

variable (hash) in
/-- A ring after some calls, the first one first. -/
def changed (r : HashRing) (calls : List Change) : HashRing :=
  calls.foldl (fun r c => c.apply hash r) r

/-- The last call that names a server. -/
def lastCall (n : Uuid) (calls : List Change) : Option Change :=
  (calls.filter fun c => c.node = n).getLast?

/-- The server was added, and has not been removed since. -/
def Joined (calls : List Change) (n : Uuid) : Prop := lastCall n calls = some (.addNode n)

instance (calls : List Change) (n : Uuid) : Decidable (Joined calls n) :=
  inferInstanceAs (Decidable (_ = _))

theorem joined_append (calls : List Change) (c : Change) (n : Uuid) :
    Joined (calls ++ [c]) n ↔ c = .addNode n ∨ c.node ≠ n ∧ Joined calls n := by
  unfold Joined lastCall
  rw [List.filter_append]
  by_cases h : c.node = n
  · rw [List.filter_cons_of_pos (by simpa using h), List.getLast?_append]
    simp [h]
  · rw [List.filter_cons_of_neg (by simpa using h)]
    have hne : c ≠ .addNode n := fun hc => h (by rw [hc]; rfl)
    simp [h, hne]

theorem changed_append (r : HashRing) (calls : List Change) (c : Change) :
    changed hash r (calls ++ [c]) = c.apply hash (changed hash r calls) :=
  List.foldl_append.trans rfl

theorem parameters_changed (r : HashRing) (calls : List Change) :
    (changed hash r calls).virtualNodes = r.virtualNodes ∧
      (changed hash r calls).replicas = r.replicas := by
  induction calls using List.reverseRecOn with
  | nil => exact ⟨rfl, rfl⟩
  | append_singleton calls c ih =>
    rw [changed_append]
    cases c <;> exact ih

/-- The entries of a ring after any calls, where no two of their vnodes collide. -/
theorem getElem?_changed {N : Set Uuid} {v k : ℕ} (hinj : Set.InjOn hash (vnodeKeys N v))
    {calls : List Change} (hN : ∀ c ∈ calls, c.node ∈ N) (h : U128) (n : Uuid) :
    (changed hash (.new v k) calls).ring[h]? = some n ↔
      Joined calls n ∧ ∃ i < v, hash (vnodeKey n i) = h := by
  induction calls using List.reverseRecOn generalizing n with
  | nil =>
    refine iff_of_false ?_ ?_
    · simp [changed, HashRing.new]
    · rintro ⟨hj, -⟩
      cases hj
  | append_singleton calls c ih =>
    have hc : c.node ∈ N := hN c (List.mem_append_right _ List.mem_cons_self)
    have ih := fun n => ih (fun d hd => hN d (List.mem_append_left _ hd)) n
    have hv : (changed hash (.new v k) calls).virtualNodes = v := (parameters_changed _ _).1
    -- the vnodes of two servers of the history are apart
    have happart : ∀ {n}, Joined calls n → ∀ {i}, i < v → ∀ {j}, j < v →
        hash (vnodeKey c.node i) = hash (vnodeKey n j) → c.node = n := by
      intro n hn i hi j hj heq
      have hnode : n ∈ N := by
        obtain ⟨d, hd, hdn⟩ : ∃ d ∈ calls, d.node = n := by
          have hlast := List.mem_of_getLast? hn
          exact ⟨_, (List.mem_filter.1 hlast).1, rfl⟩
        exact hdn ▸ hN d (List.mem_append_left _ hd)
      exact (vnodeKey_inj (hinj ⟨_, hc, i, hi, rfl⟩ ⟨n, hnode, j, hj, rfl⟩ heq)).1
    rw [changed_append, joined_append]
    cases c with
    | addNode m =>
      simp only [Change.apply, Change.node, getElem?_addNode, hv]
      by_cases hm : ∃ i < v, hash (vnodeKey m i) = h
      · rw [if_pos hm]
        by_cases hmn : m = n
        · subst hmn
          simp [hm]
        · refine iff_of_false (by simpa using hmn) ?_
          rintro ⟨hn | ⟨-, hn⟩, j, hj, hh⟩
          · exact hmn (Change.addNode.inj hn)
          · obtain ⟨i, hi, hih⟩ := hm
            exact hmn (happart hn hi hj (hih.trans hh.symm))
      · rw [if_neg hm, ih]
        by_cases hmn : m = n
        · subst hmn
          exact iff_of_false (fun hj => hm hj.2) (fun hj => hm hj.2)
        · simp [hmn]
    | removeNode m =>
      simp only [Change.apply, Change.node, getElem?_removeNode, hv]
      by_cases hm : ∃ i < v, hash (vnodeKey m i) = h
      · rw [if_pos hm]
        refine iff_of_false (by simp) ?_
        rintro ⟨hn | ⟨hmn, hn⟩, j, hj, hh⟩
        · cases hn
        · obtain ⟨i, hi, hih⟩ := hm
          exact hmn (happart hn hi hj (hih.trans hh.symm))
      · rw [if_neg hm, ih]
        by_cases hmn : m = n
        · subst hmn
          exact iff_of_false (fun hj => hm hj.2) (fun hj => hm hj.2)
        · simp [hmn]

/-- Calls that leave the same servers leave the same ring. -/
theorem changed_eq {N : Set Uuid} {v k : ℕ} (hinj : Set.InjOn hash (vnodeKeys N v))
    {calls calls' : List Change} (hN : ∀ c ∈ calls, c.node ∈ N) (hN' : ∀ c ∈ calls', c.node ∈ N)
    (hjoined : ∀ n, Joined calls n ↔ Joined calls' n) :
    changed hash (.new v k) calls = changed hash (.new v k) calls' := by
  have hp := @parameters_changed hash (.new v k) calls
  have hp' := @parameters_changed hash (.new v k) calls'
  refine eq_of_getElem? (hp.1.trans hp'.1.symm) (hp.2.trans hp'.2.symm) fun h => ?_
  refine Option.ext fun n => ?_
  rw [getElem?_changed hinj hN, getElem?_changed hinj hN', hjoined]

/-- **Ring content depends only on the set of nodes.** -/
theorem ring_depends_on_nodes {N : Set Uuid} {v k : ℕ} (hinj : Set.InjOn hash (vnodeKeys N v))
    {calls calls' : List Change} (hN : ∀ c ∈ calls, c.node ∈ N) (hN' : ∀ c ∈ calls', c.node ∈ N) :
    (∀ h n, (changed hash (.new v k) calls).ring[h]? = some n ↔
        Joined calls n ∧ ∃ i < v, hash (vnodeKey n i) = h) ∧
      ((∀ n, Joined calls n ↔ Joined calls' n) → ∀ id,
        (changed hash (.new v k) calls).getPreferenceList hash id =
            (changed hash (.new v k) calls').getPreferenceList hash id ∧
          (changed hash (.new v k) calls).getCoordinator hash id =
            (changed hash (.new v k) calls').getCoordinator hash id) ∧
      ∀ n ∈ N, ¬ Joined calls n →
        ((changed hash (.new v k) calls).addNode hash n).removeNode hash n =
          changed hash (.new v k) calls := by
  refine ⟨getElem?_changed hinj hN, fun hjoined id => ?_, fun n hn hout => ?_⟩
  · rw [changed_eq hinj hN hN' hjoined]
    exact ⟨rfl, rfl⟩
  · have happend : ((changed hash (.new v k) calls).addNode hash n).removeNode hash n =
        changed hash (.new v k) (calls ++ [.addNode n] ++ [.removeNode n]) := by
      rw [changed_append, changed_append]
      rfl
    rw [happend]
    refine changed_eq hinj ?_ hN fun m => ?_
    · intro c hc
      simp only [List.mem_append, List.mem_singleton] at hc
      rcases hc with (hc | rfl) | rfl
      · exact hN c hc
      · exact hn
      · exact hn
    · rw [joined_append, joined_append]
      simp only [Change.node]
      by_cases hmn : n = m
      · subst hmn
        simp [hout]
      · simp [hmn]

/-- The vnodes of servers 1 to 4 do not collide. -/
theorem injOn_fourServers :
    Set.InjOn md5 (vnodeKeys {n | n ∈ [Uuid.ofTail 1, .ofTail 2, .ofTail 3, .ofTail 4]} VNODES) := by
  have key : ∀ m ∈ [Uuid.ofTail 1, .ofTail 2, .ofTail 3, .ofTail 4], ∀ i < VNODES,
      ∀ n ∈ [Uuid.ofTail 1, .ofTail 2, .ofTail 3, .ofTail 4], ∀ j < VNODES,
        md5 (vnodeKey m i) = md5 (vnodeKey n j) → vnodeKey m i = vnodeKey n j := by
    decide +kernel
  rintro _ ⟨m, hm, i, hi, rfl⟩ _ ⟨n, hn, j, hj, rfl⟩ h
  exact key m hm i hi n hn j hj h

/-- The servers come in another order, and a server that has left comes back. -/
theorem ring_depends_on_nodes_rejoin :
    (changed md5 (.new 3 3) [.addNode (.ofTail 1), .addNode (.ofTail 2)]).getCoordinator md5
        (.ofTail 101) =
      (changed md5 (.new 3 3) [.addNode (.ofTail 2), .removeNode (.ofTail 3), .addNode (.ofTail 1),
        .removeNode (.ofTail 2), .addNode (.ofTail 2)]).getCoordinator md5 (.ofTail 101) := by
  refine ((ring_depends_on_nodes injOn_fourServers ?_ ?_).2.1 ?_ _).2
  · decide
  · decide
  · intro n
    by_cases h₁ : n = .ofTail 1
    · subst h₁
      exact iff_of_true (by decide) (by decide)
    · by_cases h₂ : n = .ofTail 2
      · subst h₂
        exact iff_of_true (by decide) (by decide)
      · have hnone : ∀ calls : List Change, (∀ c ∈ calls, c = .addNode n → False) →
            ¬ Joined calls n := fun calls h hj =>
          h _ (List.mem_filter.1 (List.mem_of_getLast? hj)).1 rfl
        refine iff_of_false (hnone _ ?_) (hnone _ ?_)
        · rintro c hc rfl
          simp at hc
          rcases hc with h | h
          · exact h₁ h
          · exact h₂ h
        · rintro c hc rfl
          simp at hc
          rcases hc with h | h | h
          · exact h₂ h
          · exact h₁ h
          · exact h₂ h

/-! ## Who is met first -/

/-- **The loop returns the first distinct servers.** -/
theorem walk_eq (replicas : ℕ) :
    ∀ (es : List (U128 × Uuid)) (acc : List Uuid), acc.length < replicas →
      walk replicas es acc = acc ++ (((es.map Prod.snd).filter fun u => u ∉ acc).eraseDups.take
        (replicas - acc.length))
  | [], acc, _ => by simp [walk]
  | (_, u) :: es, acc, hlt => by
    unfold walk
    rw [List.map_cons]
    split
    · rename_i hu
      rw [List.filter_cons_of_neg (by simpa using hu)]
      exact walk_eq replicas es acc hlt
    · rename_i hu
      rw [List.filter_cons_of_pos (by simpa using hu), List.eraseDups_cons, List.filter_filter]
      obtain ⟨d, hd⟩ : ∃ d, replicas - acc.length = d + 1 :=
        ⟨replicas - acc.length - 1, by omega⟩
      rw [hd, List.take_succ_cons]
      split
      · rename_i hle
        rw [List.length_append, List.length_singleton] at hle
        obtain rfl : d = 0 := by omega
        simp
      · rename_i hle
        rw [walk_eq replicas es _ (not_le.1 hle), List.append_assoc, List.singleton_append]
        have hlen : replicas - (acc ++ [u]).length = d := by
          rw [List.length_append, List.length_singleton]
          omega
        rw [hlen]
        congr 4
        refine List.filter_congr fun b _ => ?_
        by_cases hb : b = u
        · subst hb
          simp
        · simp [hb]

theorem entries_of_isEmpty {self : HashRing} (h : self.ring.isEmpty = true) : self.entries = [] := by
  unfold entries
  rw [Std.ExtTreeMap.toList_eq_nil_iff, ← Std.ExtTreeMap.isEmpty_iff]
  exact h

/-- The servers in the order in which a walk from a hash first meets them. -/
def owners (self : HashRing) (start : U128) : List Uuid :=
  ((self.clockwise start).map Prod.snd).eraseDups

theorem getPreferenceListHash_eq {self : HashRing} (hr : 1 ≤ self.replicas) (start : U128) :
    self.getPreferenceListHash start = (self.owners start).take self.replicas := by
  unfold getPreferenceListHash owners
  split
  · rename_i hempty
    simp [clockwise, entries_of_isEmpty hempty]
  · have hwalk := walk_eq self.replicas (self.clockwise start) []
      (by simpa using Nat.lt_of_succ_le hr)
    simpa using hwalk

theorem getPreferenceList_eq {self : HashRing} (hr : 1 ≤ self.replicas) (id : Uuid) :
    self.getPreferenceList hash id = (self.owners (hash id.toString)).take self.replicas :=
  getPreferenceListHash_eq hr _

theorem nodup_owners (self : HashRing) (start : U128) : (self.owners start).Nodup :=
  Firsts.nodup_eraseDups _

theorem mem_owners {self : HashRing} {start : U128} {u : Uuid} :
    u ∈ self.owners start ↔ u ∈ self.servers := by
  unfold owners
  rw [List.mem_eraseDups]
  refine ⟨mem_clockwise self start u, fun hu => ?_⟩
  unfold clockwise
  rw [List.map_append]
  exact List.mem_append_right _ hu

theorem length_owners (self : HashRing) (start : U128) :
    (self.owners start).length = self.serverCount := by
  unfold serverCount getAllServers
  rw [← List.toFinset_card_of_nodup (nodup_owners self start)]
  congr 1
  ext u
  rw [List.mem_toFinset, List.mem_toFinset, mem_owners]

theorem ordered_entries (self : HashRing) : self.entries.Pairwise fun a b => a.1 < b.1 :=
  (Std.ExtTreeMap.ordered_keys_toList (t := self.ring)).imp fun h => compare_lt_iff_lt.1 h

theorem mem_vnodes {self : HashRing} {u : Uuid} {k : U128} :
    k ∈ self.vnodes u ↔ (k, u) ∈ self.entries := by
  unfold vnodes
  rw [List.mem_filterMap]
  constructor
  · rintro ⟨⟨j, v⟩, he, hk⟩
    split at hk
    · rename_i hv
      cases hk
      exact hv ▸ he
    · cases hk
  · intro he
    exact ⟨(k, u), he, if_pos rfl⟩

/-- Walking clockwise from a hash, past the largest hash of the ring to the smallest, some vnode of
`u` comes before every vnode of `v`. -/
def MetBefore (self : HashRing) (start : U128) (u v : Uuid) : Prop :=
  ∃ k ∈ self.vnodes u, ∀ j ∈ self.vnodes v, k - start < j - start

instance (self : HashRing) (start : U128) (u v : Uuid) : Decidable (self.MetBefore start u v) :=
  inferInstanceAs (Decidable (∃ k ∈ _, ∀ j ∈ _, _))

/-- Hashes from `start` on come in their own order, and before the hashes below `start`. -/
theorem sub_lt_sub {start j k : U128}
    (h : start ≤ j ∧ j < k ∨ start ≤ j ∧ k < start ∨ j < k ∧ k < start) : j - start < k - start := by
  have hj := j.isLt
  have hk := k.isLt
  have hs := start.isLt
  rw [Fin.lt_def, Fin.sub_def, Fin.sub_def]
  simp only [Fin.le_def, Fin.lt_def] at h ⊢
  rcases h with h | h | h
  · omega
  · omega
  · omega

/-- The servers come in the order in which they are met. -/
theorem pairwise_owners (self : HashRing) (start : U128) :
    (self.owners start).Pairwise (self.MetBefore start) := by
  have hsorted : (self.entries.filter (fun e => decide (start ≤ e.1)) ++
      self.entries.filter fun e => !decide (start ≤ e.1)).Pairwise
        fun a b => a.1 - start < b.1 - start := by
    have hbefore := ordered_entries self
    rw [List.pairwise_append]
    refine ⟨?_, ?_, fun a ha b hb => ?_⟩
    · refine (hbefore.filter _).imp_of_mem fun ha _ hab => ?_
      exact sub_lt_sub (Or.inl ⟨by simpa using (List.mem_filter.1 ha).2, hab⟩)
    · refine (hbefore.filter _).imp_of_mem fun _ hb hab => ?_
      exact sub_lt_sub (Or.inr (Or.inr ⟨hab, by simpa using (List.mem_filter.1 hb).2⟩))
    · exact sub_lt_sub (Or.inr (Or.inl ⟨by simpa using (List.mem_filter.1 ha).2,
        by simpa using (List.mem_filter.1 hb).2⟩))
  unfold owners clockwise
  rw [Firsts.eraseDups_filter_append]
  refine (Firsts.pairwise_eraseDups Prod.snd hsorted).imp fun {u v} h => ?_
  obtain ⟨⟨k, w⟩, he, rfl, hfirst⟩ := h
  have hentries : ∀ e, e ∈ self.entries.filter (fun e => decide (start ≤ e.1)) ++
      self.entries.filter (fun e => !decide (start ≤ e.1)) ↔ e ∈ self.entries := by
    intro e
    rw [List.mem_append, List.mem_filter, List.mem_filter]
    by_cases h : start ≤ e.1 <;> simp [h]
  exact ⟨k, mem_vnodes.2 ((hentries _).1 he), fun j hj =>
    hfirst (j, v) ((hentries _).2 (mem_vnodes.1 hj)) rfl⟩

/-- **Preference lists are the first distinct clockwise owners.** -/
theorem preference_list_first_owners {self : HashRing} (hr : 1 ≤ self.replicas) (start : U128) :
    let preferenceList := self.getPreferenceListHash start
    preferenceList.Nodup ∧ preferenceList.length = min self.replicas self.serverCount ∧
      (∀ u ∈ preferenceList, u ∈ self.getAllServers) ∧
      preferenceList.Pairwise (self.MetBefore start) ∧
      (∀ u ∈ preferenceList, ∀ v ∈ self.getAllServers, v ∉ preferenceList →
        self.MetBefore start u v) ∧
      ∀ id, self.getPreferenceList hash id = self.getPreferenceListHash (hash id.toString) := by
  intro preferenceList
  have hlist : preferenceList = (self.owners start).take self.replicas :=
    getPreferenceListHash_eq hr start
  have hordered := pairwise_owners self start
  rw [← List.take_append_drop self.replicas (self.owners start), List.pairwise_append] at hordered
  rw [hlist]
  refine ⟨(nodup_owners self start).sublist (List.take_sublist _ _), ?_, fun u hu => ?_, hordered.1,
    fun u hu v hv hout => ?_, fun id => rfl⟩
  · rw [List.length_take, length_owners]
  · exact List.mem_toFinset.2 (mem_owners.1 (List.mem_of_mem_take hu))
  · have hmem : v ∈ self.owners start := mem_owners.2 (List.mem_toFinset.1 hv)
    rw [← List.take_append_drop self.replicas (self.owners start), List.mem_append] at hmem
    exact hordered.2.2 u hu v (hmem.resolve_left hout)

/-- Two servers for three replicas. -/
theorem preference_list_first_owners_two :
    let ring := changed md5 (.new 3 3) [.addNode (.ofTail 1), .addNode (.ofTail 2)]
    (ring.getPreferenceListHash (md5 (Uuid.ofTail 101).toString)).length =
      min ring.replicas ring.serverCount :=
  (@preference_list_first_owners md5 _ (by decide) _).2.1

/-! ## One more server -/

theorem erase_eq_filter {l : List Uuid} (hl : l.Nodup) (n : Uuid) :
    l.erase n = l.filter fun u => u ≠ n := by
  rw [hl.erase_eq_filter]
  exact List.filter_congr fun u _ => by by_cases h : u = n <;> simp [h]

theorem mem_servers {self : HashRing} {n : Uuid} : n ∈ self.servers ↔ ∃ h : U128, self.ring[h]? = some n := by
  unfold servers entries
  simp only [List.mem_map, Prod.exists, exists_eq_right, Std.ExtTreeMap.mem_toList_iff_getElem?_eq_some]

theorem mem_entries {self : HashRing} {h : U128} {u : Uuid} :
    (h, u) ∈ self.entries ↔ self.ring[h]? = some u :=
  Std.ExtTreeMap.mem_toList_iff_getElem?_eq_some

/-- Entries in the order of their hashes are told apart by what they are. -/
theorem eq_of_ordered {es es' : List (U128 × Uuid)} (hes : es.Pairwise fun a b => a.1 < b.1)
    (hes' : es'.Pairwise fun a b => a.1 < b.1) (h : ∀ e, e ∈ es ↔ e ∈ es') : es = es' := by
  have hnodup : ∀ {l : List (U128 × Uuid)}, l.Pairwise (fun a b => a.1 < b.1) → l.Nodup := fun h =>
    h.imp fun hlt heq => absurd (congrArg Prod.fst heq) (ne_of_lt hlt)
  have hperm := (List.perm_ext_iff_of_nodup (hnodup hes) (hnodup hes')).2 h
  exact hperm.eq_of_pairwise (fun a b _ _ hab hba => absurd hba (not_lt.2 hab.le)) hes hes'

/-- Without the new server, the entries are those of the old ring. -/
theorem filter_entries_addNode {self : HashRing} {n : Uuid} (hn : n ∉ self.servers)
    (hfree : ∀ i < self.virtualNodes, self.ring[hash (vnodeKey n i)]? = none) :
    (self.addNode hash n).entries.filter (fun e => e.2 ≠ n) = self.entries := by
  refine eq_of_ordered ((ordered_entries _).filter _) (ordered_entries self) ?_
  rintro ⟨h, u⟩
  rw [List.mem_filter, mem_entries, mem_entries, getElem?_addNode]
  by_cases hh : ∃ i < self.virtualNodes, hash (vnodeKey n i) = h
  · rw [if_pos hh]
    obtain ⟨i, hi, rfl⟩ := hh
    rw [hfree i hi]
    simp
    exact fun h => h.symm
  · rw [if_neg hh]
    refine ⟨fun h => h.1, fun hu => ⟨hu, ?_⟩⟩
    have hun : u ≠ n := by
      rintro rfl
      exact hn (mem_servers.2 ⟨h, hu⟩)
    simpa using hun

/-- Without the new server, a walk meets the servers in the old order. -/
theorem owners_addNode {self : HashRing} {n : Uuid} (hn : n ∉ self.servers)
    (hfree : ∀ i < self.virtualNodes, self.ring[hash (vnodeKey n i)]? = none) (start : U128) :
    ((self.addNode hash n).owners start).erase n = self.owners start := by
  unfold owners
  rw [erase_eq_filter (Firsts.nodup_eraseDups _), Firsts.filter_eraseDups, List.filter_map]
  have hentries := filter_entries_addNode hn hfree
  have hclockwise : (((self.addNode hash n).clockwise start).filter fun e => e.2 ≠ n) =
      self.clockwise start := by
    unfold clockwise
    rw [List.filter_append, hentries, List.filter_filter, ← hentries, List.filter_filter]
    simp only [Bool.and_comm]
  rw [← hclockwise]
  rfl

/-- **Adding a node disturbs placement minimally.** -/
theorem add_node_disturbs_minimally {self : HashRing} (hr : 1 ≤ self.replicas) {n : Uuid}
    (hn : n ∉ self.servers)
    (hfree : ∀ i < self.virtualNodes, self.ring[hash (vnodeKey n i)]? = none) (id : Uuid) :
    let before := self.getPreferenceList hash id
    let after := (self.addNode hash n).getPreferenceList hash id
    after.filter (fun u => u ≠ n) <+: before ∧ (n ∉ after → after = before) ∧ after.count n ≤ 1 ∧
      ∀ u ∈ before, u ∉ after → before.getLast? = some u := by
  intro before after
  have hbefore : before = ((((self.addNode hash n).owners (hash id.toString))).erase n).take
      self.replicas := by
    rw [owners_addNode hn hfree]
    exact getPreferenceList_eq hr id
  have hafter : after = ((self.addNode hash n).owners (hash id.toString)).take self.replicas :=
    @getPreferenceList_eq hash (self.addNode hash n) hr id
  have howners : ((self.addNode hash n).owners (hash id.toString)).Nodup := Firsts.nodup_eraseDups _
  have hnodup : after.Nodup := nodup_getPreferenceList hash _ id
  refine ⟨?_, fun hnot => ?_, List.nodup_iff_count_le_one.1 hnodup n, fun u hu hnot => ?_⟩
  · rw [← erase_eq_filter hnodup, hbefore, hafter]
    exact Firsts.erase_take_isPrefix _ _ _
  · rw [hafter] at hnot
    rw [hbefore, hafter, Firsts.take_eq_of_not_mem hnot]
  · rw [hbefore] at hu ⊢
    rw [hafter] at hnot
    exact Firsts.eq_getLast_of_not_mem_take howners hu hnot

/-- Server 4 joins three servers. -/
theorem add_node_disturbs_minimally_fourth :
    let ring := changed md5 (.new 3 3) [.addNode (.ofTail 1), .addNode (.ofTail 2), .addNode (.ofTail 3)]
    ((ring.addNode md5 (.ofTail 4)).getPreferenceList md5 (.ofTail 101)).count (.ofTail 4) ≤ 1 :=
  (@add_node_disturbs_minimally md5 _ (by decide) _ (by decide +kernel) (by decide +kernel) _).2.2.1

end HashRing

end Sdle
