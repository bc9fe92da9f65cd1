import Sdle.Membership

/-!
# Joining the cluster (`Peer::join`)

A joining peer says `Hello` to its seed and reads its router until `JOIN_TIMEOUT` is over, however
early the answer comes.  Each turn of the loop reads three frames and has five ways to go on to the
next turn; `buf` keeps the message of the last turn that could decode one, whatever it was.

* `receive_eq` — the loop keeps the last message that could be decoded.
* `join_survives_iff` — **when joining survives what it receives**: exactly when no `Gossip` comes,
  or the last message is a `Gossip` that knows the peer itself and all the servers of the others,
  and the socket can be closed.
-/

set_option autoImplicit false

namespace Sdle

variable {hash : String → U128}

/-! ## The receive loop -/

/-- What a turn of the loop gets from the router: a frame that cannot be received, or the identity
frame, where it is text, and the message that the data frame decodes to. -/
inductive Turn where
  | eagain
  | noIdentity
  | noEmptyFrame
  | noDataFrame
  | frames (identity : Option String) (data : Option Msg)

namespace Turn

/-- The message of a turn. -/
def msg : Turn → Option Msg
  | frames _ data => data
  | _ => none

/-- `buf` after a turn. -/
def step (buf : Option Msg) : Turn → Option Msg
  | eagain => buf
  | noIdentity => buf
  | noEmptyFrame => buf
  | noDataFrame => buf
  | frames _ none => buf
  -- assigned before the identity is looked at
  | frames _ (some msg) => some msg

end Turn

/-- `buf` after the loop. -/
def receive (turns : List Turn) : Option Msg := turns.foldl Turn.step none

theorem step_eq (buf : Option Msg) (t : Turn) : t.step buf = t.msg.or buf := by
  cases t with
  | frames identity data => cases data <;> rfl
  | _ => rfl

/-- **The loop keeps the last message that could be decoded.** -/
theorem receive_eq (turns : List Turn) : receive turns = (turns.filterMap Turn.msg).getLast? := by
  induction turns using List.reverseRecOn with
  | nil => rfl
  | append_singleton turns t ih =>
    unfold receive at ih ⊢
    rw [List.foldl_append, ih, List.filterMap_append]
    change t.step _ = _
    rw [step_eq]
    cases h : t.msg with
    | none => simp [h]
    | some m => simp [h]

/-! ## One attempt to join -/

/-- How `join` fails. -/
inductive JoinError where
  | zmq
  | noMessage
  | expectedGossip
  deriving DecidableEq

/-- What the sockets do in one attempt: whether the `Hello` can be sent, the turns of the loop, and
whether the socket can be disconnected. -/
structure Attempt where
  opened : Bool
  turns : List Turn
  disconnected : Bool

namespace Attempt

/-- `Peer::join`. -/
def join (a : Attempt) (n : Node hash) : Except JoinError Unit × Node hash :=
  if !a.opened then (.error .zmq, n)
  else
    match receive a.turns with
    | none => (.error .noMessage, n)
    | some msg =>
      match n.join (some msg) with
      | none => (.error .expectedGossip, n)
      | some n' => if !a.disconnected then (.error .zmq, n') else (.ok (), n')

/-- The messages that the loop receives. -/
def messages (a : Attempt) : List Msg := if a.opened then a.turns.filterMap Turn.msg else []

/-- A `Gossip` with this table is received. -/
def Gossips (a : Attempt) (table : MembershipTable) : Prop := .gossip table ∈ a.messages

/-- Joining survives what it receives: if a `Gossip` comes it succeeds, and the table has the peer
itself and every server of every `Gossip`; it fails only if none comes, and changes nothing then. -/
structure Survives (uuid : Uuid) (n : Node hash) (a : Attempt) : Prop where
  joins : ∀ table, a.Gossips table → (a.join n).1 = .ok () ∧
    ((a.join n).2.membership.find? uuid).isSome = true ∧
    ∀ v, (table.find? v).isSome = true → ((a.join n).2.membership.find? v).isSome = true
  fails : ∀ e, (a.join n).1 = .error e →
    (∀ table, ¬ a.Gossips table) ∧ (a.join n).2.membership = n.membership

/-- The last message is a `Gossip` that says all that the others say. -/
def EndsWell (uuid : Uuid) (a : Attempt) : Prop :=
  a.disconnected = true ∧ ∃ table, a.messages.getLast? = some (.gossip table) ∧
    (table.find? uuid).isSome = true ∧
    ∀ table', a.Gossips table' → ∀ v, (table'.find? v).isSome = true → (table.find? v).isSome = true

/-- `join` by the last message it receives. -/
theorem join_eq (a : Attempt) (n : Node hash) :
    (∃ table, a.messages.getLast? = some (.gossip table) ∧
      a.join n = (if a.disconnected then .ok () else .error .zmq, { n with membership := table })) ∨
    (∀ table, a.messages.getLast? ≠ some (.gossip table)) ∧ ∃ e, a.join n = (.error e, n) := by
  unfold join messages
  cases a.opened with
  | false => exact Or.inr ⟨fun table => by simp, .zmq, rfl⟩
  | true =>
    rw [receive_eq, if_pos rfl]
    cases (a.turns.filterMap Turn.msg).getLast? with
    | none => exact Or.inr ⟨fun table => by simp, .noMessage, rfl⟩
    | some m =>
      cases m with
      | gossip table =>
        refine Or.inl ⟨table, rfl, ?_⟩
        cases a.disconnected <;> rfl
      | _ => exact Or.inr ⟨fun table => by simp, .expectedGossip, rfl⟩

/-- **When joining survives what it receives.** -/
theorem join_survives_iff (uuid : Uuid) (n : Node hash) (a : Attempt) :
    a.Survives uuid n ↔ (∀ table, ¬ a.Gossips table) ∨ a.EndsWell uuid := by
  rcases a.join_eq n with ⟨table, hlast, hjoin⟩ | ⟨hlast, e, hjoin⟩
  · have hgossip : a.Gossips table := List.mem_of_getLast? hlast
    constructor
    · intro h
      obtain ⟨hok, huuid, -⟩ := h.joins table hgossip
      rw [hjoin] at hok huuid
      refine Or.inr ⟨?_, table, hlast, huuid, fun table' htable' v hv => ?_⟩
      · cases hd : a.disconnected with
        | true => rfl
        | false =>
          rw [hd] at hok
          cases hok
      · have hall := (h.joins table' htable').2.2 v hv
        rw [hjoin] at hall
        exact hall
    · rintro (hnone | ⟨hd, table', hlast', huuid, hall⟩)
      · exact absurd hgossip (hnone table)
      · rw [hlast] at hlast'
        cases hlast'
        rw [hd] at hjoin
        refine ⟨fun table' htable' => ?_, fun e he => ?_⟩
        · rw [hjoin]
          exact ⟨rfl, huuid, hall table' htable'⟩
        · rw [hjoin] at he
          cases he
  · constructor
    · intro h
      refine Or.inl fun table htable => ?_
      have hok := (h.joins table htable).1
      rw [hjoin] at hok
      cases hok
    · rintro (hnone | ⟨-, table, htable, -⟩)
      · refine ⟨fun table htable => absurd htable (hnone table), fun e' he => ⟨hnone, ?_⟩⟩
        rw [hjoin]
      · exact absurd htable (hlast table)

end Attempt

/-- The seed answers with its table, and a copy of a list arrives in the same window. -/
def copyAfterGossip : Attempt where
  opened := true
  turns := [.eagain,
    .frames (some "1") (some (.gossip (((∅ : MembershipTable).insert (.ofTail 1) "a").insert
      (.ofTail 4) "b"))),
    .frames (some "1") (some (.replicateList "" ⟨.ofTail 101, AWORMap.new⟩ true)), .eagain]
  disconnected := true

/-- The peer has received its answer, and does not join. -/
theorem join_loses_gossip :
    ((copyAfterGossip.join (Node.new md5 (.ofTail 4) "b")).1 = .error .expectedGossip) ∧
      ¬ copyAfterGossip.Survives (.ofTail 4) (Node.new md5 (.ofTail 4) "b") := by
  have herror : (copyAfterGossip.join (Node.new md5 (.ofTail 4) "b")).1 = .error .expectedGossip := rfl
  refine ⟨herror, fun h => ?_⟩
  have hnone := (h.fails _ herror).1 (((∅ : MembershipTable).insert (.ofTail 1) "a").insert
    (.ofTail 4) "b")
  exact hnone List.mem_cons_self

end Sdle
