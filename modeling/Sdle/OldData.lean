import Sdle.ServerStorage
import Sdle.Lib.BigEndian

/-!
# Old data (`ServerStorage::get_old_data`)

When a server learns of new members it looks up the hash before its own (`prev_node_hash`) and
hands over the lists that `get_old_data` selects.  The query has two forms, one for the wrap-around,
and gets the hash of the node as `?1` and the previous hash as `?2`.

* `oldKey_eq_blob` — the keys are compared as BLOBs, byte by byte, which is comparing the numbers.
* `oldKey_eq` — with this order of the parameters the query selects **nothing** when the previous
  hash is the smaller one, and **every** list without a hint otherwise.
* `selectsClockwise_iff` — **when the selection is the clockwise interval `(p, h]`**: exactly when
  no list without a hint lies between the two hashes.
-/

set_option autoImplicit false

namespace Sdle

namespace ServerStorage

/-! ## Keys as BLOBs -/

/-- `u128::to_be_bytes`. -/
def toBeBytes (n : U128) : List (Fin 256) := BigEndian.digits 256 16 n.val

/-- The `WHERE` clause on the key, as the database evaluates it on the bytes. -/
def oldKeyBlob (prevNodeHash nodeHash id : U128) : Bool :=
  if prevNodeHash < nodeHash then
    decide (toBeBytes nodeHash < toBeBytes id) && decide (toBeBytes id ≤ toBeBytes prevNodeHash)
  else decide (toBeBytes nodeHash < toBeBytes id) || decide (toBeBytes id ≤ toBeBytes prevNodeHash)

theorem val_lt_bytes (n : U128) : n.val < 256 ^ 16 := by
  have hpow : (256 : ℕ) ^ 16 = 2 ^ 128 := by norm_num
  rw [hpow]
  exact n.isLt

theorem toBeBytes_lt_iff (m n : U128) : toBeBytes m < toBeBytes n ↔ m < n :=
  BigEndian.digits_lt_iff (val_lt_bytes m) (val_lt_bytes n)

theorem toBeBytes_le_iff (m n : U128) : toBeBytes m ≤ toBeBytes n ↔ m ≤ n :=
  BigEndian.digits_le_iff (val_lt_bytes m) (val_lt_bytes n)

theorem oldKey_eq_blob (prevNodeHash nodeHash id : U128) :
    oldKey prevNodeHash nodeHash id = oldKeyBlob prevNodeHash nodeHash id := by
  unfold oldKey oldKeyBlob
  simp only [toBeBytes_lt_iff, toBeBytes_le_iff]

/-! ## What the query selects -/

/-- **Nothing or everything**: the key does not matter. -/
theorem oldKey_eq (prevNodeHash nodeHash id : U128) :
    oldKey prevNodeHash nodeHash id = decide (nodeHash ≤ prevNodeHash) := by
  unfold oldKey
  by_cases h : prevNodeHash < nodeHash
  · have hnone : ¬ (nodeHash < id ∧ id ≤ prevNodeHash) := fun hk =>
      absurd (hk.1.trans_le hk.2) (not_lt.2 h.le)
    rw [if_pos h, decide_eq_false (not_le.2 h), ← Bool.decide_and]
    exact decide_eq_false hnone
  · have hle := not_lt.1 h
    have hall : nodeHash < id ∨ id ≤ prevNodeHash :=
      (lt_or_ge nodeHash id).imp_right fun hk => hk.trans hle
    rw [if_neg h, decide_eq_true hle, ← Bool.decide_or]
    exact decide_eq_true hall

variable {hash : String → U128}

theorem mem_getOldData_iff (self : ServerStorage hash) (nodeId : Uuid) (prev : U128)
    (l : ShoppingList) :
    l ∈ self.getOldData nodeId prev ↔
      self.rows.find? (key hash l.id) = some ⟨l, none⟩ ∧
        oldKey prev (key hash nodeId) (key hash l.id) = true := by
  constructor
  · intro h
    refine ⟨mem_getOldData self h, ?_⟩
    obtain ⟨e, -, hr⟩ := List.mem_filterMap.1 h
    rw [Option.ite_none_right_eq_some] at hr
    rw [oldKey_eq] at hr ⊢
    exact hr.1.1
  · rintro ⟨hrow, hk⟩
    refine List.mem_filterMap.2 ⟨_, (FinMap.mem_entries _ _ _).2 hrow, ?_⟩
    exact if_pos ⟨hk, rfl⟩

/-- The rows lie under the keys of their lists, so that no list is selected twice. -/
theorem nodup_getOldData (self : ServerStorage hash) (nodeId : Uuid) (prev : U128) :
    (self.getOldData nodeId prev).Nodup := by
  have hkeys : self.rows.entries.Pairwise fun e e' => e.1 ≠ e'.1 :=
    List.nodupKeys_iff_pairwise.1 self.rows.nodupKeys
  refine List.pairwise_filterMap.2 (hkeys.imp_of_mem ?_)
  intro e e' he he' hne l hl l' hl' heq
  rw [Option.ite_none_right_eq_some] at hl hl'
  have hrow := self.keyed _ _ ((FinMap.mem_entries _ e.1 e.2).1 he)
  have hrow' := self.keyed _ _ ((FinMap.mem_entries _ e'.1 e'.2).1 he')
  rw [← hrow, ← hrow', Option.some.inj hl.2, Option.some.inj hl'.2, heq] at hne
  exact hne rfl

/-! ## The clockwise interval -/

/-- The clockwise half-open interval `(p, h]` of the ring. -/
def InClockwise (p h k : U128) : Prop := if p < h then p < k ∧ k ≤ h else p < k ∨ k ≤ h

/-- `get_old_data` returns exactly the lists without a hint whose key lies in the interval. -/
def SelectsClockwise (self : ServerStorage hash) (nodeId : Uuid) (prev : U128) : Prop :=
  (self.getOldData nodeId prev).Nodup ∧
    ∀ l, l ∈ self.getOldData nodeId prev ↔
      self.rows.find? (key hash l.id) = some ⟨l, none⟩ ∧
        InClockwise prev (key hash nodeId) (key hash l.id)

/-- The query is right about a key that does not lie between the two hashes, and about no other. -/
theorem oldKey_iff_inClockwise (p h k : U128) :
    (oldKey p h k = true ↔ InClockwise p h k) ↔ ¬ (min p h < k ∧ k ≤ max p h) := by
  rw [oldKey_eq, decide_eq_true_eq]
  unfold InClockwise
  by_cases hph : p < h
  · rw [if_pos hph, min_eq_left hph.le, max_eq_right hph.le]
    have hnot : ¬ h ≤ p := not_le.2 hph
    tauto
  · have hle := not_lt.1 hph
    rw [if_neg hph, min_eq_right hle, max_eq_left hle, not_and_or, not_lt, not_le]
    tauto

/-- **When the selection is the clockwise interval.** -/
theorem selectsClockwise_iff (self : ServerStorage hash) (nodeId : Uuid) (prev : U128) :
    (∀ k, oldKey prev (key hash nodeId) k = oldKeyBlob prev (key hash nodeId) k) ∧
      (self.SelectsClockwise nodeId prev ↔
        ∀ k r, self.rows.find? k = some r → r.hintedHandoff = none →
          ¬ (min prev (key hash nodeId) < k ∧ k ≤ max prev (key hash nodeId))) := by
  refine ⟨oldKey_eq_blob prev (key hash nodeId), ?_, ?_⟩
  · rintro ⟨-, hsel⟩ k ⟨l, hint⟩ hrow rfl
    have hk : key hash l.id = k := self.keyed k _ hrow
    have hl := hsel l
    rw [mem_getOldData_iff, hk, hrow] at hl
    rw [← oldKey_iff_inClockwise]
    simpa using hl
  · intro hnone
    refine ⟨nodup_getOldData self nodeId prev, fun l => ?_⟩
    rw [mem_getOldData_iff]
    refine and_congr_right fun hrow => ?_
    exact (oldKey_iff_inClockwise _ _ _).2 (hnone _ _ hrow rfl)

/-- MD5, with the digest of the id of a server. -/
def md5OfServer (key : String) : U128 :=
  if key = "00000000-0000-4000-8000-000000000001" then 0x459c7999f440244b163b38e375fededd
  else md5 key

/-- A store with one list, whose key lies just before the server. -/
def beforeServer : ServerStorage md5OfServer :=
  ServerStorage.empty.writeShoppingList (oneItem "milk" 201)

/-- Beside one other server, the list of the store belongs to the server and is not selected. -/
theorem not_selectsClockwise :
    let ring := ((HashRing.new VNODES REPLICAS).addNode md5OfServer (.ofTail 1)).addNode
      md5OfServer (.ofTail 2)
    ring.prevNodeHash (.ofTail 1) = some 0x278d452a8668ce73d56de00e6ceb988d ∧
      ¬ beforeServer.SelectsClockwise (.ofTail 1) 0x278d452a8668ce73d56de00e6ceb988d := by
  refine ⟨by decide +kernel, fun h => ?_⟩
  have hl := (h.2 (oneItem "milk" 201)).2
  revert hl
  rw [mem_getOldData_iff]
  unfold InClockwise
  decide +kernel

end ServerStorage

end Sdle
