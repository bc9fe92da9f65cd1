import Sdle.Locks
import Sdle.Membership

/-!
# Handing lists over to a new coordinator (`server.rs`)

The `Gossip` arm of `handle_incoming` asks the storage for the lists that a new server takes over,
and sends them to it.  It does so under the guard of `membership`, which `send_to` requests first.

* `unsent_handleGossip` — the handling of a `Gossip` blocks before it sends a list.
* `handover_iff` — **when a change of ownership moves the data**: when there is nothing to move.
-/

set_option autoImplicit false

namespace Sdle

open Tasks Peer ServerStorage

variable {hash : String → U128}

/-- The peer stores the list without a hint and coordinates it until the `Gossip` with this table
puts server `u` on its ring, which coordinates the list from then on. -/
structure Moves (n : Node hash) (peer u : Uuid) (table : MembershipTable) (l : ShoppingList) :
    Prop where
  stored : n.storage.rows.find? (key hash l.id) = some ⟨l, none⟩
  unknown : u ∉ n.hashring.servers
  named : (table.find? u).isSome = true
  before : (ringWith n (table.keys.filter (· ≠ u))).getCoordinator hash l.id = some peer
  after : (ringWith n table.keys).getCoordinator hash l.id = some u

/-- A list is sent to be stored. -/
def HandsOver : Op → Prop
  | .send _ (.replicateList _ _ true) => True
  | _ => False

/-! ## What happens under the guard of `membership` -/

/-- Nothing is handed over.  A task that holds `membership` is not given it again. -/
def withheld : Monitor PeerSig Tid Bool where
  allow _ _ o := ¬ HandsOver o
  expect _ held o _ :=
    match o with
    | .lock .membership => held = false
    | _ => True
  next _ held o _ :=
    match o with
    | .lock .membership => true
    | .unlock .membership => false
    | _ => held

section Unsent

variable {α : Type} {t : Tid}

/-- Sending starts with a request for `membership`. -/
theorem unsent_sendTo (u : Uuid) (msg : Msg) {Q : Bool → Bool → Prop} :
    (sendTo u msg).Obeys withheld t Q true :=
  ⟨not_false, fun _ hfree => Bool.noConfusion hfree⟩

theorem unsent_sendOldLists (u : Uuid) :
    ∀ ls : List ShoppingList,
      (sendOldLists u ls).Obeys withheld t (fun _ held => held = true) true
  | [] => rfl
  | _ :: _ => (Prog.obeys_bind _ _ _).2 (unsent_sendTo u _)

theorem unsent_addEach {Q : Unit → Bool → Prop} (hQ : Q () false) :
    ∀ nodes : List Uuid, (addEach nodes).Obeys withheld t Q false
  | [] => hQ
  | _ :: nodes => ⟨not_false, fun _ _ => unsent_addEach hQ nodes⟩

theorem unsent_addEntries (self : Uuid) (predecessors : List Uuid) :
    ∀ es : List (Sigma fun _ : Uuid => String),
      (addEntries self predecessors es).Obeys withheld t (fun _ _ => True) true := by
  intro es
  induction es with
  | nil => trivial
  | cons e es hrest =>
    obtain ⟨u, addr⟩ := e
    refine ⟨not_false, fun _ _ => ?_⟩
    change (if u ∈ predecessors then _ else _ : Code Unit).Obeys withheld t _ true
    split
    · refine ⟨not_false, fun _ _ => ⟨not_false, fun ring _ => ⟨not_false, fun _ _ => ?_⟩⟩⟩
      dsimp only [Prog.bind, pure]
      cases HashRing.prevNodeHash ring self
      · exact hrest
      · refine ⟨not_false, fun _ _ => ⟨not_false, fun old _ => ⟨not_false, fun _ _ => ?_⟩⟩⟩
        cases old with
        | none => trivial
        | some old =>
          change (sendOldLists u old >>= fun _ => addEntries self predecessors es).Obeys withheld t _ true
          refine Prog.Obeys.call (unsent_sendOldLists u old) ?_
          rintro _ _ rfl
          exact hrest
    · exact hrest

theorem unsent_handleGossip (self : Uuid) (table : MembershipTable) :
    (handleGossip self table).Obeys withheld t (fun _ _ => True) false := by
  refine ⟨not_false, fun _ _ => ?_⟩
  change Prog.Obeys withheld t _ ((addEach table.keys >>= fun a => perform (.unlock .hashring) >>=
    fun _ => pure a) >>= fun _ => _) false
  rw [Prog.obeys_bind, Prog.obeys_bind]
  refine unsent_addEach ⟨not_false, fun _ _ => ?_⟩ _
  -- from here on `membership` is held
  refine ⟨not_false, fun _ _ => ?_⟩
  change Prog.Obeys withheld t _ (_ >>= fun a => perform (.unlock .membership) >>=
    fun _ => pure a) true
  rw [Prog.obeys_bind]
  refine ⟨not_false, fun m _ => ?_⟩
  refine ⟨not_false, fun _ _ => ⟨not_false, fun ring _ => ⟨not_false, fun _ _ => ?_⟩⟩⟩
  refine Prog.Obeys.mono (fun _ _ _ => ?_) _ _ (unsent_addEntries self _ _)
  exact ⟨not_false, fun _ _ => trivial⟩

end Unsent

/-- **The handling of a `Gossip` never hands a list over**, in any state and whatever it is
answered. -/
theorem handleGossip_keeps {t : Tid} {w w' : World hash} {table : MembershipTable} {o : Op}
    {k : Ans o → Code Unit}
    (h : Prog.Reaches (cluster hash) t (handleGossip t.peer table) w (.op o k) w') :
    ¬ HandsOver o := by
  suffices hwp : (handleGossip t.peer table).wp (cluster hash) t (fun o _ => ¬ HandsOver o)
      (fun _ _ => True) w from Prog.wp_iff.1 hwp o k w' h
  -- a task that holds `membership` is the owner of the mutex
  refine Prog.wp_of_obeys (m := cluster hash) (M := withheld)
    (fun (held : Bool) (w : World hash) => held = true → (w.node t.peer).locks .membership = some t)
    (fun held w o c a w' hheld _ hact => ?_) (fun _ _ _ _ hallow => hallow) _ false w
    (fun h => Bool.noConfusion h) (unsent_handleGossip t.peer table)
  obtain ⟨ha, rfl⟩ := act_eq hact
  rw [node_effect, if_pos rfl, locks_after]
  cases o with
  | lock m =>
    by_cases hm : m = .membership
    · subst hm
      refine ⟨?_, fun _ => by simp [locksAfter]⟩
      cases held with
      | false => rfl
      | true =>
        simp only [answer] at ha
        rw [hheld rfl] at ha
        cases ha
    · cases m <;> first
        | exact absurd rfl hm
        | exact ⟨trivial, fun h => by simpa [locksAfter] using hheld h⟩
  | unlock m =>
    cases m <;> first
      | exact ⟨trivial, fun h => Bool.noConfusion h⟩
      | exact ⟨trivial, fun h => by simpa [locksAfter] using hheld h⟩
  | _ => exact ⟨trivial, hheld⟩

/-- **When a change of ownership moves the data**: a `Gossip` makes the peer send every list that
server `u` takes over, in some execution at least, exactly when there is no such list.  A `Hello`
puts nobody on the ring. -/
theorem handover_iff (t : Tid) (w : World hash) (identity : Uuid) (table : MembershipTable)
    (u : Uuid) :
    ((∀ l, Moves (w.node t.peer) t.peer u table l →
        ∃ id k w', Prog.Reaches (cluster hash) t (handleIncoming t.peer identity (.gossip table)) w
          (.op (.send u (.replicateList id l true)) k) w') ↔
      ∀ l, ¬ Moves (w.node t.peer) t.peer u table l) ∧
    ∀ v addr o k w', Prog.Reaches (cluster hash) t
      (handleIncoming t.peer identity (.hello v addr)) w (.op o k) w' → callOf o = none := by
  refine ⟨⟨fun hsent l hl => ?_, fun hnone l hl => absurd hl (hnone l)⟩, fun v addr o k w' h => ?_⟩
  · obtain ⟨id, k, w', hreach⟩ := hsent l hl
    exact handleGossip_keeps hreach trivial
  · have hnames := (only_hello t.peer identity v addr).reaches h
    cases o with
    | addNode v => exact hnames.elim
    | removeNode v => exact hnames.elim
    | _ => rfl

/-- Server 3 alone on its ring, with the list of the item in its storage. -/
def loneServer : World md5 :=
  let n : Node md5 := .new md5 (.ofTail 3) (Uuid.ofTail 3).toString
  (World.new md5 Uuid.toString).setNode (.ofTail 3)
    { n with storage := n.storage.writeShoppingList (oneItem "milk" 201) }

/-- Server 1 takes the list over, and is not sent it. -/
theorem newcomer_is_not_sent :
    ¬ ∀ (t : Tid) (w : World md5) (identity : Uuid) (table : MembershipTable) (u : Uuid)
      (l : ShoppingList), Moves (w.node t.peer) t.peer u table l →
        ∃ id k w', Prog.Reaches (cluster md5) t (handleIncoming t.peer identity (.gossip table)) w
          (.op (.send u (.replicateList id l true)) k) w' := by
  intro h
  have hmoves : Moves (loneServer.node (.ofTail 3)) (.ofTail 3) (.ofTail 1)
      (tableOf [.ofTail 3, .ofTail 1]) (oneItem "milk" 201) :=
    { stored := by decide +kernel
      unknown := by decide +kernel
      named := by decide +kernel
      before := by decide +kernel
      after := by decide +kernel }
  obtain ⟨id, k, w', hreach⟩ := h (.incoming (.ofTail 3) 0) loneServer (.ofTail 1) _ (.ofTail 1) _ hmoves
  exact handleGossip_keeps hreach trivial

end Sdle
