import Sdle.Crdt

/-!
# Messages and the tables of a peer (`message.rs`, `server.rs`)

`Msg` with its thirteen variants, the membership and failure tables, and `QuoromState`, which
collects the answers to a request in flight.
-/

set_option autoImplicit false

namespace Sdle

/-- `MembershipTable`: the addresses of the known servers. -/
abbrev MembershipTable := FinMap Uuid String

/-- The identity frame of a client. -/
abbrev ClientId := List UInt8

/-- `Msg`. -/
inductive Msg where
  | hello (uuid : Uuid) (addr : String)
  | gossip (table : MembershipTable)
  | ping
  | ack (requestId : String)
  | nack (requestId : String)
  | ackList (requestId : String) (list : ShoppingList)
  | getList (list : ShoppingList)
  | putList (list : ShoppingList)
  | replicateList (id : String) (list : ShoppingList) (write : Bool)
  | mergeList (list : ShoppingList)
  | listResponse (list : Option ShoppingList)
  | handoff (requestId : String) (list : ShoppingList) (originalNode : Uuid)
  | leave
  deriving DecidableEq

/-! ## FailureTable -/

/-- `PeerFailureInfo`.  Nothing reads `last_failure`. -/
structure PeerFailureInfo where
  failed : Bool
  deriving DecidableEq

/-- `FailureTable`. -/
abbrev FailureTable := FinMap Uuid PeerFailureInfo

namespace FailureTable

/-- `FailureTable::mark_failure`. -/
def markFailure (self : FailureTable) (serverId : Uuid) : FailureTable :=
  self.insert serverId ⟨true⟩

/-- `FailureTable::clear_failure`. -/
def clearFailure (self : FailureTable) (serverId : Uuid) : FailureTable :=
  self.erase serverId

/-- `FailureTable::is_available`. -/
def isAvailable (self : FailureTable) (serverId : Uuid) : Bool :=
  match self.find? serverId with
  | none => true
  | some info => info.failed

end FailureTable

/-! ## QuoromState -/

/-- `QuoromState`.  `responder` says whether the sending half of the request's channel is still
here. -/
structure QuoromState where
  needed : ℕ
  received : ℕ
  responder : Bool
  lists : List ShoppingList
  deriving DecidableEq

namespace QuoromState

/-- `QuoromState::is_quorom_reached`. -/
def isQuoromReached (self : QuoromState) : Bool := decide (self.needed ≤ self.received)

/-- `QuoromState::merge_lists`. -/
def mergeLists (self : QuoromState) : Option ShoppingList :=
  match self.lists with
  | [] => none
  | list :: rest => some (rest.foldl (fun merged l => { merged with list := merged.list.merge l.list }) list)

/-- `QuoromState::add_list`. -/
def addList (self : QuoromState) (list : ShoppingList) : QuoromState :=
  { self with received := self.received + 1, lists := self.lists ++ [list] }

/-- `QuoromState::increment_received`. -/
def incrementReceived (self : QuoromState) : QuoromState :=
  { self with received := self.received + 1 }

/-- Merging never changes the id of the first list. -/
theorem id_foldl_merge (ls : List ShoppingList) (l : ShoppingList) :
    (ls.foldl (fun merged l => { merged with list := merged.list.merge l.list }) l).id = l.id := by
  induction ls generalizing l with
  | nil => rfl
  | cons x ls ih => exact ih _

/-- The merge is above the first list and all the others. -/
theorem le_foldl_merge (ls : List ShoppingList) (l : ShoppingList) :
    ∀ x ∈ l :: ls,
      x.list ≤ (ls.foldl (fun merged l => { merged with list := merged.list.merge l.list }) l).list := by
  induction ls generalizing l with
  | nil => simp
  | cons y ls ih =>
    intro x hx
    rw [List.foldl_cons]
    have hhead := ih { l with list := l.list.merge y.list } _ List.mem_cons_self
    rcases List.mem_cons.1 hx with rfl | hx
    · exact le_trans (AWORMap.le_merge_left _ _) hhead
    · rcases List.mem_cons.1 hx with rfl | hx
      · exact le_trans (AWORMap.le_merge_right _ _) hhead
      · exact ih _ x (List.mem_cons_of_mem _ hx)

/-- The merge is below every common bound of the lists. -/
theorem foldl_merge_le (u : AWORMap) (ls : List ShoppingList) (l : ShoppingList)
    (h : ∀ x ∈ l :: ls, x.list ≤ u) :
    (ls.foldl (fun merged l => { merged with list := merged.list.merge l.list }) l).list ≤ u := by
  induction ls generalizing l with
  | nil => exact h l List.mem_cons_self
  | cons y ls ih =>
    rw [List.foldl_cons]
    apply ih
    intro x hx
    rcases List.mem_cons.1 hx with rfl | hx
    · exact AWORMap.merge_le (h l List.mem_cons_self) (h y (by simp))
    · exact h x (by simp [hx])

/-- **The merged list is above every list received.** -/
theorem le_mergeLists {q : QuoromState} {s : ShoppingList} (h : q.mergeLists = some s) :
    ∀ x ∈ q.lists, x.list ≤ s.list := by
  unfold mergeLists at h
  split at h
  · cases h
  · rename_i l ls hl
    cases h
    rw [hl]
    exact le_foldl_merge ls l

theorem mergeLists_le {q : QuoromState} {s : ShoppingList} (h : q.mergeLists = some s)
    {u : AWORMap} (hu : ∀ x ∈ q.lists, x.list ≤ u) : s.list ≤ u := by
  unfold mergeLists at h
  split at h
  · cases h
  · rename_i l ls hl
    cases h
    rw [hl] at hu
    exact foldl_merge_le u ls l hu

theorem id_mergeLists {q : QuoromState} {s : ShoppingList} (h : q.mergeLists = some s) :
    ∃ l ∈ q.lists, s.id = l.id := by
  unfold mergeLists at h
  split at h
  · cases h
  · rename_i l ls hl
    cases h
    rw [hl]
    exact ⟨l, List.mem_cons_self, id_foldl_merge ls l⟩

end QuoromState

end Sdle
