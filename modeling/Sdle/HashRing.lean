import Sdle.Uuid
import Std.Data.ExtTreeMap.Lemmas
import Mathlib.Data.Finset.Card

/-!
# The hash ring (`hash_ring.rs`)

The ring is a sorted map from vnode hashes to servers.  `HashRing::hash` is MD5, from a library;
it is the parameter `hash` of whatever hashes a text.

* `walk` — the loop that collects distinct servers until there are `replicas` of them; the two
  preference lists and `getPredecessors` run it over three different iterators.
* `nodup_walk`, `length_walk_le`, `mem_walk` — what the loop returns, over any iterator.
* `mem_getPreferenceList` — a preference list names servers of the ring.
-/

set_option autoImplicit false

namespace Sdle

def VNODES : ℕ := 3
def REPLICAS : ℕ := 3
/-- Minimum number of nodes that must participate in a write. -/
def WRITE_NODES : ℕ := 2
/-- Minimum number of nodes that must participate in a read. -/
def READ_NODES : ℕ := 2

/-- `HashRing`. -/
structure HashRing where
  ring : Std.ExtTreeMap U128 Uuid
  virtualNodes : ℕ
  replicas : ℕ

namespace HashRing

variable (hash : String → U128)

/-- `HashRing::new`. -/
protected def new (virtualNodes replicas : ℕ) : HashRing := ⟨∅, virtualNodes, replicas⟩

/-- The text that is hashed to place vnode `i` of a server. -/
def vnodeKey (nodeId : Uuid) (i : ℕ) : String := nodeId.toString ++ "-" ++ toString i

/-- `HashRing::add_node`. -/
def addNode (self : HashRing) (nodeId : Uuid) : HashRing :=
  { self with
    ring := (List.range self.virtualNodes).foldl
      (fun ring i => ring.insert (hash (vnodeKey nodeId i)) nodeId) self.ring }

/-- `HashRing::remove_node`. -/
def removeNode (self : HashRing) (nodeId : Uuid) : HashRing :=
  { self with
    ring := (List.range self.virtualNodes).foldl
      (fun ring i => ring.erase (hash (vnodeKey nodeId i))) self.ring }

/-- The entries of the ring in the order of their hashes. -/
def entries (self : HashRing) : List (U128 × Uuid) := self.ring.toList

/-- The servers that have a vnode on the ring. -/
def servers (self : HashRing) : List Uuid := self.entries.map Prod.snd

/-- The loop over an iterator of the ring: push each server not seen yet, and leave the loop as
soon as `replicas` of them are there.  The pushed servers are exactly the seen ones. -/
def walk (replicas : ℕ) : List (U128 × Uuid) → List Uuid → List Uuid
  | [], acc => acc
  | (_, nodeId) :: rest, acc =>
    if nodeId ∈ acc then walk replicas rest acc
    else if replicas ≤ (acc ++ [nodeId]).length then acc ++ [nodeId]
    else walk replicas rest (acc ++ [nodeId])

/-- `ring.range(hash..).chain(ring.iter())`. -/
def clockwise (self : HashRing) (start : U128) : List (U128 × Uuid) :=
  self.entries.filter (fun e => decide (start ≤ e.1)) ++ self.entries

/-- `HashRing::get_preference_list_hash`. -/
def getPreferenceListHash (self : HashRing) (start : U128) : List Uuid :=
  if self.ring.isEmpty then [] else walk self.replicas (self.clockwise start) []

/-- `HashRing::get_preference_list`. -/
def getPreferenceList (self : HashRing) (listId : Uuid) : List Uuid :=
  if self.ring.isEmpty then []
  else walk self.replicas (self.clockwise (hash listId.toString)) []

/-- `HashRing::get_coordinator`. -/
def getCoordinator (self : HashRing) (listId : Uuid) : Option Uuid :=
  (self.getPreferenceList hash listId).head?

/-- `HashRing::get_all_servers`. -/
def getAllServers (self : HashRing) : Finset Uuid := self.servers.toFinset

/-- `HashRing::server_count`. -/
def serverCount (self : HashRing) : ℕ := self.getAllServers.card

/-- The hashes of a server's vnodes, in ring order. -/
def vnodes (self : HashRing) (nodeId : Uuid) : List U128 :=
  self.entries.filterMap fun e => if e.2 = nodeId then some e.1 else none

/-- `HashRing::next_node`.  The outer `none` is the overflow panic of `start + 1`. -/
def nextNode (self : HashRing) (nodeId : Uuid) : Option (Option Uuid) :=
  if self.ring.isEmpty then some none
  else
    -- sorted, then the first
    match (self.vnodes nodeId).min? with
    | none => some none
    | some start =>
      if start.val + 1 < 2 ^ 128 then
        some (((self.entries.filter (fun e => decide (start < e.1)) ++ self.entries).find?
          (fun e => e.2 ≠ nodeId)).map Prod.snd)
      else none

/-- `HashRing::prev_node_hash`. -/
def prevNodeHash (self : HashRing) (nodeId : Uuid) : Option U128 :=
  if self.ring.isEmpty then none
  else
    match (self.vnodes nodeId).head? with
    | none => none
    | some nodeHash =>
      ((self.entries.filter (fun e => decide (e.1 < nodeHash))).getLast?.map Prod.fst).or
        (self.entries.getLast?.map Prod.fst)

/-- `HashRing::get_predecessors`. -/
def getPredecessors (self : HashRing) (nodeId : Uuid) : List Uuid :=
  if self.ring.isEmpty then []
  else walk self.replicas (self.entries.reverse.filter (fun e => e.2 ≠ nodeId)) []

/-! ## What the loop returns -/

theorem nodup_walk (replicas : ℕ) :
    ∀ (es : List (U128 × Uuid)) (acc : List Uuid), acc.Nodup → (walk replicas es acc).Nodup
  | [], _, h => h
  | (_, nodeId) :: rest, acc, h => by
    unfold walk
    split
    · exact nodup_walk replicas rest acc h
    · rename_i hmem
      have hpush : (acc ++ [nodeId]).Nodup := by
        rw [List.nodup_append]
        refine ⟨h, List.nodup_singleton _, ?_⟩
        rintro a ha b hb rfl
        exact hmem (List.mem_singleton.1 hb ▸ ha)
      split
      · exact hpush
      · exact nodup_walk replicas rest _ hpush

theorem mem_walk (replicas : ℕ) (u : Uuid) :
    ∀ (es : List (U128 × Uuid)) (acc : List Uuid), u ∈ walk replicas es acc →
      u ∈ acc ∨ u ∈ es.map Prod.snd
  | [], _, h => Or.inl h
  | (_, nodeId) :: rest, acc, h => by
    unfold walk at h
    split at h
    · rcases mem_walk replicas u rest acc h with h | h
      · exact Or.inl h
      · exact Or.inr (List.mem_cons_of_mem _ h)
    · split at h
      · rcases List.mem_append.1 h with h | h
        · exact Or.inl h
        · rw [List.mem_singleton.1 h]
          exact Or.inr List.mem_cons_self
      · rcases mem_walk replicas u rest _ h with h | h
        · rcases List.mem_append.1 h with h | h
          · exact Or.inl h
          · rw [List.mem_singleton.1 h]
            exact Or.inr List.mem_cons_self
        · exact Or.inr (List.mem_cons_of_mem _ h)

/-- The loop never pushes more than `replicas` servers (one, when `replicas` is 0). -/
theorem length_walk_le (replicas : ℕ) :
    ∀ (es : List (U128 × Uuid)) (acc : List Uuid), acc.length ≤ max replicas 1 →
      (acc.length < replicas ∨ acc = []) → (walk replicas es acc).length ≤ max replicas 1
  | [], _, h, _ => h
  | (_, nodeId) :: rest, acc, h, hlt => by
    unfold walk
    have hlen : (acc ++ [nodeId]).length = acc.length + 1 := by simp
    have hpush : (acc ++ [nodeId]).length ≤ max replicas 1 := by
      rcases hlt with hlt | rfl
      · omega
      · simp
    split
    · exact length_walk_le replicas rest acc h hlt
    · split
      · exact hpush
      · exact length_walk_le replicas rest _ hpush (Or.inl (by omega))

theorem mem_clockwise (self : HashRing) (start : U128) (u : Uuid)
    (h : u ∈ (self.clockwise start).map Prod.snd) : u ∈ self.servers := by
  unfold clockwise at h
  rw [List.map_append, List.mem_append] at h
  rcases h with h | h
  · obtain ⟨e, he, rfl⟩ := List.mem_map.1 h
    exact List.mem_map_of_mem (List.mem_of_mem_filter he)
  · exact h

theorem nodup_getPreferenceList (self : HashRing) (listId : Uuid) :
    (self.getPreferenceList hash listId).Nodup := by
  unfold getPreferenceList
  split
  · exact List.nodup_nil
  · exact nodup_walk _ _ _ List.nodup_nil

/-- A preference list names servers of the ring. -/
theorem mem_getPreferenceList (self : HashRing) (listId u : Uuid)
    (h : u ∈ self.getPreferenceList hash listId) : u ∈ self.servers := by
  unfold getPreferenceList at h
  split at h
  · exact absurd h List.not_mem_nil
  · rcases mem_walk _ _ _ _ h with h | h
    · exact absurd h List.not_mem_nil
    · exact mem_clockwise self _ u h

theorem length_getPreferenceList_le (self : HashRing) (listId : Uuid) :
    (self.getPreferenceList hash listId).length ≤ max self.replicas 1 := by
  unfold getPreferenceList
  split
  · simp
  · exact length_walk_le _ _ _ (by simp) (Or.inr rfl)

/-- The successor of a server is another server of the ring. -/
theorem nextNode_ne (self : HashRing) {nodeId u : Uuid} (h : self.nextNode nodeId = some (some u)) :
    u ≠ nodeId ∧ u ∈ self.servers := by
  unfold nextNode at h
  split at h
  · simp at h
  · split at h
    · simp at h
    · split at h
      · simp only [Option.some.injEq, Option.map_eq_some_iff] at h
        obtain ⟨e, he, rfl⟩ := h
        refine ⟨by simpa using List.find?_some he, ?_⟩
        have hmem := List.mem_of_find?_eq_some he
        rw [List.mem_append] at hmem
        rcases hmem with hmem | hmem
        · exact List.mem_map_of_mem (List.mem_of_mem_filter hmem)
        · exact List.mem_map_of_mem hmem
      · simp at h

end HashRing

/-! ## MD5 on some texts -/

/-- A UUID of version 4. -/
def Uuid.ofTail (n : ℕ) : Uuid := ⟨Fin.ofNat _ (0x40008000000000000000 + n)⟩

/-- The MD5 digests of the vnode keys of four servers and of the ids of two lists. -/
def md5Digests : List (String × U128) :=
  [("00000000-0000-4000-8000-000000000001-0", 0x4862655c9f7224b38e830862eeea00d7),
   ("00000000-0000-4000-8000-000000000001-1", 0x849d6e302bb8717ecf2ac5058ed5b8d2),
   ("00000000-0000-4000-8000-000000000001-2", 0x8dc783a6678dbe679f40e054863684b8),
   ("00000000-0000-4000-8000-000000000002-0", 0x278d452a8668ce73d56de00e6ceb988d),
   ("00000000-0000-4000-8000-000000000002-1", 0x8ce437fd12ec6341aa0b27f6e62034e7),
   ("00000000-0000-4000-8000-000000000002-2", 0xf1c21c813ddb5f891200fe63cfaad56e),
   ("00000000-0000-4000-8000-000000000003-0", 0xaace56c817ca3722d6d07e571c8ecfdf),
   ("00000000-0000-4000-8000-000000000003-1", 0x5c6e2aae26cc09ef2f7224e11aef4544),
   ("00000000-0000-4000-8000-000000000003-2", 0x0d3be123e5d2ec782fbca7791eddadbd),
   ("00000000-0000-4000-8000-000000000004-0", 0xa30575a6f789e040ee23298cd04dcdde),
   ("00000000-0000-4000-8000-000000000004-1", 0xc618d82238a981a4a0f7818110f87901),
   ("00000000-0000-4000-8000-000000000004-2", 0xa1d86b78cf4d0389dbac503e40a34c30),
   ("00000000-0000-4000-8000-000000000065", 0x2f81cb0816a6cc13442075e662618e69),
   ("00000000-0000-4000-8000-000000000066", 0xdfa870a98c561cc3f2d2c84e910acfbe)]

/-- MD5, on the texts of `md5Digests`. -/
def md5 (key : String) : U128 := (md5Digests.lookup key).getD 0

end Sdle
