import Sdle.Cluster
import Mathlib.Data.List.Perm.Subperm

/-!
# The list traffic of a peer

What the handlers and loops do with lists, as one automaton: a `Phase` says what a task has in hand
and what it may do with it next; everything that touches no list is allowed in every phase and
changes none.

* `obeys_handleIncoming`, `obeys_handleIncomingProxy`, `obeys_hintedHandoff`, … — **the code of a
  peer refines the automaton**: every operation of every handler is allowed in the phase that the
  answers so far have led to.

The global properties are proved over the phases: an invariant says for each phase what is true of
the lists it holds.
-/

set_option autoImplicit false

namespace Sdle

/-- A message without a list and without a request id. -/
def Msg.control : Msg → Bool
  | .hello _ _ => true
  | .gossip _ => true
  | .ping => true
  | _ => false

/-- A client request that a peer coordinates: the client's list and, for a read, the peer's row. -/
structure Job where
  client : ClientId
  list : ShoppingList
  base : Option ShoppingList

/-- The request replicates a write. -/
def Job.write (job : Job) : Bool := job.base.isNone

/-- The state of a request that has just been put in flight. -/
def QuoromState.opened (list : ShoppingList) : QuoromState := ⟨2, 0, true, [list]⟩

/-- What a task has in hand. -/
inductive Phase where
  /-- nothing, or nothing more -/
  | idle
  /-- `ReplicateList` with `write`: to be stored, then acknowledged -/
  | store (src : Uuid) (rid : String) (l : ShoppingList)
  /-- `Handoff`: to be stored as a hint for `d`, then acknowledged -/
  | hint (src : Uuid) (rid : String) (l : ShoppingList) (d : Uuid)
  | ackTo (src : Uuid) (rid : String)
  /-- `ReplicateList` without `write`: to be looked up and sent back -/
  | look (src : Uuid) (rid : String) (id : Uuid)
  | ackListTo (src : Uuid) (rid : String) (l : ShoppingList)
  /-- `Ack` and `AckList` -/
  | count (rid : String)
  | countList (rid : String) (l : ShoppingList)
  /-- `MergeList`, before and after the row is read -/
  | mergeIn (l : ShoppingList)
  | mergeOut (l : ShoppingList)
  /-- `Leave` and `Gossip`: rows to be handed over -/
  | moving (ls : List ShoppingList)
  /-- a round of hinted handoff: before it, with the hints still to be delivered, with an id drawn
  for the first of them, and with one delivered -/
  | round
  | hints (todo : List (Uuid × ShoppingList))
  | hinting (rid : String) (todo : List (Uuid × ShoppingList))
  | delivered (d : Uuid) (l : ShoppingList) (todo : List (Uuid × ShoppingList))
  /-- `GetList`, before the row is read -/
  | asked (client : ClientId) (l : ShoppingList)
  /-- a request that is coordinated: before the replicas are known, with them, with a request id,
  in flight with the replicas that have not been sent to, answered or timed out, with a result to
  store, with a result to answer, and without one -/
  | start (job : Job)
  | chosen (job : Job) (replicas : List Uuid)
  | named (job : Job) (replicas : List Uuid) (rid : String)
  | spreading (job : Job) (replicas : List Uuid) (rid : String) (todo : List Uuid)
  | decided (job : Job) (rid : String) (ok : Bool)
  | writing (job : Job) (l : ShoppingList)
  | answering (job : Job) (l : ShoppingList)
  | refusing (job : Job)

namespace Phase

open Peer Tasks

/-! ## The automaton -/

/-- The messages that a phase sends. -/
def sends (g : Phase) (u : Uuid) (m : Msg) : Prop :=
  match g with
  | .ackTo src rid => u = src ∧ m = .ack rid
  | .ackListTo src rid l => u = src ∧ m = .ackList rid l
  | .moving ls => ∃ l ∈ ls, m = .replicateList "" l true
  | .hinting rid ((d, l) :: _) => u = d ∧ m = .replicateList rid l true
  | .spreading job replicas rid todo =>
    (u ∈ todo ∧ m = .replicateList rid job.list job.write) ∨
      (job.write = true ∧ ∃ r ∈ replicas, m = .handoff rid job.list r)
  | _ => False

/-- The operations that a phase allows. -/
def allow (g : Phase) (o : Op) : Prop :=
  match o with
  | .getShoppingList id =>
    match g with
    | .look _ _ i => id = i
    | .mergeIn l => id = l.id
    | .asked _ l => id = l.id
    | _ => False
  | .writeShoppingList l =>
    match g with
    | .store _ _ l' => l = l'
    | .mergeOut l' => l = l'
    | .writing _ l' => l = l'
    | _ => False
  | .writeShoppingListHandoff l d => ∃ src rid, g = .hint src rid l d
  | .deleteShoppingList id => ∃ d l todo, g = .delivered d l todo ∧ id = l.id
  | .getHintedHandoffs => g = .round
  | .getOldData _ _ => ∃ ls, g = .moving ls
  | .getAllRows => ∃ ls, g = .moving ls
  | .insertInFlight r q =>
    ∃ job replicas, g = .named job replicas r ∧ q = QuoromState.opened job.list
  | .removeInFlight r => ∃ job ok, g = .decided job r ok
  | .ack r => g = .count r
  | .ackList r l => g = .countList r l
  | .send u m => m.control = true ∨ g.sends u m
  | .sendProxy c m =>
    match g with
    | .answering job l => c = job.client ∧ m = .ackList "" l
    | .refusing job => c = job.client ∧ m = .nack ""
    | _ => False
  | .await r => ∃ job replicas todo, g = .spreading job replicas r todo
  | _ => True

/-- After the row of a list has been read. -/
def afterGet (g : Phase) (a : Option (Option ShoppingList)) : Phase :=
  match g, a with
  | .look src rid _, some (some l) => .ackListTo src rid l
  | .mergeIn l, some (some existing) => .mergeOut { existing with list := existing.list.merge l.list }
  | .mergeIn l, some none => .mergeOut l
  | .asked client l, some base => .start ⟨client, l, base⟩
  | _, _ => .idle

/-- After an ordinary write. -/
def afterWrite (g : Phase) (a : Option Unit) : Phase :=
  match g, a with
  | .store src rid _, some _ => .ackTo src rid
  | .writing job l, some _ => .answering job l
  | _, _ => .idle

/-- After a hint has been written, or has not. -/
def afterHint (g : Phase) : Phase :=
  match g with
  | .hint src rid _ _ => .ackTo src rid
  | _ => .idle

/-- After `Uuid::new_v4`. -/
def afterUuid (g : Phase) (u : Uuid) : Phase :=
  match g with
  | .chosen job replicas => .named job replicas u.toString
  | .hints todo => .hinting u.toString todo
  | .hinting _ (_ :: todo) => .hinting u.toString todo
  | .delivered _ _ todo => .hinting u.toString todo
  | g => g

/-- After a message with a list or a request id has been sent, or has failed. -/
def afterSend (g : Phase) (u : Uuid) (m : Msg) (a : Bool) : Phase :=
  match g, m with
  | .ackTo _ _, _ => .idle
  | .ackListTo _ _ _, _ => .idle
  | .hinting _ ((d, l) :: todo), _ => if a then .delivered d l todo else .hints todo
  | .spreading job replicas rid todo, .replicateList _ _ _ =>
    .spreading job replicas rid (todo.erase u)
  | g, _ => g

/-- After the request has been taken out of flight. -/
def afterRemove (g : Phase) (q : Option QuoromState) : Phase :=
  match g with
  | .decided job _ true =>
    match job.base with
    | none => .writing job job.list
    | some l =>
      match q.bind QuoromState.mergeLists with
      | some s => .writing job { l with list := l.list.merge s.list }
      | none => .refusing job
  | .decided job _ false => .refusing job
  | _ => .idle

/-- The next phase. -/
def next (hash : String → U128) (g : Phase) (o : Op) (a : Ans o) : Phase :=
  match o, a with
  | .getShoppingList _, a => g.afterGet a
  | .writeShoppingList _, a => g.afterWrite a
  | .writeShoppingListHandoff _ _, _ => g.afterHint
  | .deleteShoppingList _, _ =>
    match g with
    | .delivered _ _ todo => .hints todo
    | _ => .idle
  | .getHintedHandoffs, a => .hints (a.getD [])
  | .getOldData _ _, a => .moving (a.getD [])
  | .getAllRows, a => .moving ((a.getD []).map Prod.snd)
  | .hashring, h =>
    match g with
    | .start job => .chosen job ((h.getPreferenceList hash job.list.id).drop 1)
    | g => g
  | .newUuid, u => g.afterUuid u
  | .insertInFlight _ _, _ =>
    match g with
    | .named job replicas rid => .spreading job replicas rid replicas
    | _ => .idle
  | .removeInFlight _, q => g.afterRemove q
  | .ack _, _ => .idle
  | .ackList _ _, _ => .idle
  | .send u m, a => if m.control then g else g.afterSend u m a
  | .await _, a =>
    match g with
    | .spreading job _ rid _ => .decided job rid a
    | _ => .idle
  | .sendProxy _ _, _ => .idle
  | _, _ => g

/-- The transitions of the automaton. -/
inductive Goes (hash : String → U128) : Phase → (o : Op) → Ans o → Phase → Prop
  | stay {g : Phase} {o : Op} {a : Ans o} : Goes hash g o a g
  | drop {g : Phase} {o : Op} {a : Ans o} : Goes hash g o a .idle
  | found {src : Uuid} {rid : String} {id : Uuid} {l : ShoppingList} :
    Goes hash (.look src rid id) (.getShoppingList id) (some (some l)) (.ackListTo src rid l)
  | merged {l existing : ShoppingList} :
    Goes hash (.mergeIn l) (.getShoppingList l.id) (some (some existing))
      (.mergeOut { existing with list := existing.list.merge l.list })
  | unmerged {l : ShoppingList} :
    Goes hash (.mergeIn l) (.getShoppingList l.id) (some none) (.mergeOut l)
  | based {client : ClientId} {l : ShoppingList} {base : Option ShoppingList} :
    Goes hash (.asked client l) (.getShoppingList l.id) (some base) (.start ⟨client, l, base⟩)
  | kept {src : Uuid} {rid : String} {l : ShoppingList} :
    Goes hash (.store src rid l) (.writeShoppingList l) (some ()) (.ackTo src rid)
  | wrote {job : Job} {l : ShoppingList} :
    Goes hash (.writing job l) (.writeShoppingList l) (some ()) (.answering job l)
  | noted {src : Uuid} {rid : String} {l : ShoppingList} {d : Uuid} {a : Option Unit} :
    Goes hash (.hint src rid l d) (.writeShoppingListHandoff l d) a (.ackTo src rid)
  | read {a : Option (List (Uuid × ShoppingList))} :
    Goes hash .round .getHintedHandoffs a (.hints (a.getD []))
  | deleted {d : Uuid} {l : ShoppingList} {todo : List (Uuid × ShoppingList)} {a : Option Unit} :
    Goes hash (.delivered d l todo) (.deleteShoppingList l.id) a (.hints todo)
  | old {ls : List ShoppingList} {u : Uuid} {h : U128} {a : Option (List ShoppingList)} :
    Goes hash (.moving ls) (.getOldData u h) a (.moving (a.getD []))
  | all {ls : List ShoppingList} {a : Option (List (U128 × ShoppingList))} :
    Goes hash (.moving ls) .getAllRows a (.moving ((a.getD []).map Prod.snd))
  | choice {job : Job} {ring : HashRing} :
    Goes hash (.start job) .hashring ring
      (.chosen job ((ring.getPreferenceList hash job.list.id).drop 1))
  | named {job : Job} {replicas : List Uuid} {u : Uuid} :
    Goes hash (.chosen job replicas) .newUuid u (.named job replicas u.toString)
  | hinted {g : Phase} {todo : List (Uuid × ShoppingList)} {u : Uuid}
    (from_ : g = .hints todo ∨ (∃ rid h, g = .hinting rid (h :: todo)) ∨ ∃ d l, g = .delivered d l todo) :
    Goes hash g .newUuid u (.hinting u.toString todo)
  | opened {job : Job} {replicas : List Uuid} {rid : String} :
    Goes hash (.named job replicas rid) (.insertInFlight rid (.opened job.list)) ()
      (.spreading job replicas rid replicas)
  | spread {job : Job} {replicas : List Uuid} {rid : String} {todo : List Uuid} {u : Uuid}
    {a : Bool} (todo_ : u ∈ todo) :
    Goes hash (.spreading job replicas rid todo) (.send u (.replicateList rid job.list job.write)) a
      (.spreading job replicas rid (todo.erase u))
  | sent {rid : String} {d : Uuid} {l : ShoppingList} {todo : List (Uuid × ShoppingList)} :
    Goes hash (.hinting rid ((d, l) :: todo)) (.send d (.replicateList rid l true)) true
      (.delivered d l todo)
  | unsent {rid : String} {d : Uuid} {l : ShoppingList} {todo : List (Uuid × ShoppingList)} :
    Goes hash (.hinting rid ((d, l) :: todo)) (.send d (.replicateList rid l true)) false (.hints todo)
  | decided {job : Job} {replicas : List Uuid} {rid : String} {todo : List Uuid} {a : Bool} :
    Goes hash (.spreading job replicas rid todo) (.await rid) a (.decided job rid a)
  | write {job : Job} {rid : String} {q : Option QuoromState} (write_ : job.base = none) :
    Goes hash (.decided job rid true) (.removeInFlight rid) q (.writing job job.list)
  | join {job : Job} {rid : String} {q : Option QuoromState} {l s : ShoppingList}
    (base : job.base = some l) (lists : q.bind QuoromState.mergeLists = some s) :
    Goes hash (.decided job rid true) (.removeInFlight rid) q
      (.writing job { l with list := l.list.merge s.list })
  | refused {job : Job} {rid : String} {ok : Bool} {q : Option QuoromState} :
    Goes hash (.decided job rid ok) (.removeInFlight rid) q (.refusing job)

end Phase

open Peer Tasks

/-- The automaton as a monitor of every task. -/
def traffic (hash : String → U128) : Monitor PeerSig Tid Phase where
  allow _ g o := g.allow o
  expect _ _ _ _ := True
  next _ g o a := g.next hash o a

variable {hash : String → U128}

/-- From phase `g` the program stays within the automaton and ends with `R`. -/
def Follows (hash : String → U128) {α : Type} (g : Phase) (p : Code α) (R : α → Phase → Prop) : Prop :=
  ∀ t, p.Obeys (traffic hash) t R g

section Follows

variable {α β : Type} {g : Phase} {R : α → Phase → Prop}

theorem follows_pure {a : α} (h : R a g) : Follows hash g (pure a : Code α) R := fun _ => h

theorem follows_bind {p : Code α} {f : α → Code β} {R' : β → Phase → Prop}
    (hp : Follows hash g p R) (hf : ∀ a g', R a g' → Follows hash g' (f a) R') :
    Follows hash g (p >>= f) R' :=
  fun t => Prog.Obeys.call (hp t) fun a g' h => hf a g' h t

theorem Follows.mono {p : Code α} {R' : α → Phase → Prop} (hp : Follows hash g p R)
    (h : ∀ a g', R a g' → R' a g') : Follows hash g p R' :=
  fun t => Prog.Obeys.mono h p g (hp t)

theorem follows_perform {o : Op} {R : Ans o → Phase → Prop} (ho : g.allow o)
    (h : ∀ a, R a (g.next hash o a)) : Follows hash g (perform o) R :=
  fun _ => ⟨ho, fun a _ => h a⟩

theorem follows_locked {m : Mutex} {body : Code α} (h : Follows hash g body R) :
    Follows hash g (locked m body) R := by
  intro t
  refine ⟨trivial, fun _ _ => ?_⟩
  change Prog.Obeys (traffic hash) t R (body >>= fun a => perform (.unlock m) >>= fun _ => pure a) g
  refine Prog.Obeys.call (h t) fun a g' hR => ?_
  exact ⟨trivial, fun _ _ => hR⟩

theorem follows_ite {c : Prop} [Decidable c] {p q : Code α} (hp : c → Follows hash g p R)
    (hq : ¬ c → Follows hash g q R) : Follows hash g (if c then p else q) R := by
  split
  · rename_i h
    exact hp h
  · rename_i h
    exact hq h

/-- Code that touches no list leaves every phase as it is. -/
def Silent (hash : String → U128) (p : Code α) : Prop :=
  ∀ g, Follows hash g p fun _ g' => g' = g

theorem silent_pure (a : α) : Silent hash (pure a : Code α) := fun _ => follows_pure rfl

theorem silent_bind {p : Code α} {f : α → Code β} (hp : Silent hash p)
    (hf : ∀ a, Silent hash (f a)) : Silent hash (p >>= f) := by
  intro g
  refine follows_bind (hp g) ?_
  rintro a _ rfl
  exact hf a _

theorem silent_ite {c : Prop} [Decidable c] {p q : Code α} (hp : Silent hash p)
    (hq : Silent hash q) : Silent hash (if c then p else q) := by
  split
  · exact hp
  · exact hq

theorem silent_locked {m : Mutex} {body : Code α} (h : Silent hash body) :
    Silent hash (locked m body) := fun g => follows_locked (h g)

/-- An operation that no phase listens to. -/
theorem silent_perform {o : Op} (ho : ∀ g : Phase, g.allow o)
    (hn : ∀ (g : Phase) (a : Ans o), g.next hash o a = g) : Silent hash (perform o) :=
  fun g => follows_perform (ho g) fun a => hn g a

theorem Silent.follows {p : Code α} (hp : Silent hash p) (h : ∀ a, R a g) : Follows hash g p R :=
  (hp g).mono fun a g' (hg : g' = g) => hg ▸ h a

theorem follows_stop {f : Empty → Code α} : Follows hash g (perform .stop >>= f) R :=
  fun _ => ⟨trivial, fun a _ => a.elim⟩

/-! ## The network and the tables -/

theorem silent_membership : Silent hash (locked .membership (perform .membership)) :=
  silent_locked (silent_perform (fun _ => trivial) fun _ _ => rfl)

theorem silent_markPeerFailed (u : Uuid) : Silent hash (markPeerFailed u) :=
  silent_locked (silent_perform (fun _ => trivial) fun _ _ => rfl)

theorem silent_clearPeerFailure (u : Uuid) : Silent hash (clearPeerFailure u) :=
  silent_locked (silent_bind (silent_perform (fun _ => trivial) fun _ _ => rfl) fun _ =>
    silent_ite (silent_perform (fun _ => trivial) fun _ _ => rfl) (silent_pure _))

theorem silent_isPeerAvailable (u : Uuid) : Silent hash (isPeerAvailable u) :=
  silent_bind silent_membership fun _ =>
    silent_ite (silent_locked (silent_bind (silent_perform (fun _ => trivial) fun _ _ => rfl)
      fun _ => silent_pure _)) (silent_pure _)

theorem silent_connectToPeer (u : Uuid) : Silent hash (connectToPeer u) := by
  refine silent_bind silent_membership fun table => ?_
  split
  · exact silent_pure _
  · exact silent_perform (fun _ => trivial) fun _ _ => rfl

theorem silent_closeConn (u : Uuid) : Silent hash (closeConn u) := by
  refine silent_bind silent_membership fun table => ?_
  split
  · exact silent_pure _
  · exact silent_perform (fun _ => trivial) fun _ _ => rfl

/-- A message is sent at most once.  When the call returns `Ok` it has been sent; when it returns
`Err` it may have been. -/
theorem follows_sendTo {u : Uuid} {m : Msg} (hm : g.allow (.send u m)) :
    Follows hash g (sendTo u m) fun b g' =>
      (b = true ∧ g' = g.next hash (.send u m) true) ∨
        (b = false ∧ (g' = g ∨ ∃ a, g' = g.next hash (.send u m) a)) := by
  have hmark : Silent hash (markPeerFailed u >>= fun _ => (pure false : Code Bool)) :=
    silent_bind (silent_markPeerFailed u) fun _ => silent_pure _
  have hmarked : Follows hash g (markPeerFailed u >>= fun _ => (pure false : Code Bool)) fun b g' =>
      b = false ∧ g' = g :=
    follows_bind (silent_markPeerFailed u g) fun _ _ hg => follows_pure ⟨rfl, hg⟩
  have herr : Follows hash g (markPeerFailed u >>= fun _ => (pure false : Code Bool)) fun b g' =>
      (b = true ∧ g' = g.next hash (.send u m) true) ∨
        (b = false ∧ (g' = g ∨ ∃ a, g' = g.next hash (.send u m) a)) :=
    hmarked.mono fun b g' h => Or.inr ⟨h.1, Or.inl h.2⟩
  refine follows_bind (silent_connectToPeer u g) ?_
  rintro connected _ rfl
  refine follows_ite (fun _ => ?_) fun _ => herr
  have hempty : Silent hash (perform (.sendEmpty u)) :=
    silent_perform (fun _ => trivial) fun _ _ => rfl
  refine follows_bind (hempty _) ?_
  rintro opened _ rfl
  refine follows_ite (fun _ => ?_) fun _ => herr
  refine follows_bind (R := fun a g' => g' = Phase.next hash _ (.send u m) a)
    (follows_perform hm fun a => rfl) ?_
  rintro sent _ rfl
  refine follows_ite (fun hs => ?_) fun hs => ?_
  · refine follows_bind (silent_clearPeerFailure u _) ?_
    rintro _ _ rfl
    refine (silent_closeConn u _).mono ?_
    rintro b _ rfl
    cases b with
    | true => exact Or.inl ⟨rfl, by rw [hs]⟩
    | false => exact Or.inr ⟨rfl, Or.inr ⟨sent, rfl⟩⟩
  · refine follows_bind (silent_markPeerFailed u _) ?_
    rintro _ _ rfl
    refine follows_bind (silent_closeConn u _) ?_
    rintro _ _ rfl
    exact follows_pure (Or.inr ⟨rfl, Or.inr ⟨sent, rfl⟩⟩)

/-- A control message leaves the phase as it is. -/
theorem silent_sendTo {u : Uuid} {m : Msg} (hm : m.control = true) : Silent hash (sendTo u m) := by
  intro g
  have hnext : ∀ a, g.next hash (.send u m) a = g := fun a => if_pos hm
  refine (follows_sendTo (Or.inl hm)).mono ?_
  rintro b g' (⟨-, h⟩ | ⟨-, h | ⟨a, h⟩⟩)
  · rw [h, hnext]
  · exact h
  · rw [h, hnext]

theorem silent_sendEach {m : Msg} (hm : m.control = true) :
    ∀ us : List Uuid, Silent hash (sendEach m us)
  | [] => silent_pure _
  | _ :: us => silent_bind (silent_sendTo hm) fun _ => silent_sendEach hm us

theorem silent_sendGossip (self : Uuid) : Silent hash (sendGossip self) := by
  refine silent_bind silent_membership fun table => ?_
  refine silent_bind silent_membership fun peers => ?_
  have hchoose : Silent hash (perform (.choose peers.keys)) :=
    silent_perform (fun _ => trivial) fun _ _ => rfl
  refine silent_bind hchoose fun choice => ?_
  split
  · exact silent_pure _
  · exact silent_ite (silent_pure _) (silent_bind (silent_sendTo rfl) fun _ => silent_pure _)

theorem silent_sendGossipTo (u : Uuid) : Silent hash (sendGossipTo u) := by
  refine silent_bind silent_membership fun table => silent_ite ?_ (silent_pure _)
  exact silent_bind silent_membership fun _ =>
    silent_bind (silent_sendTo rfl) fun _ => silent_pure _

theorem silent_failureDetection : Silent hash failureDetection :=
  silent_locked (silent_bind (silent_perform (fun _ => trivial) fun _ _ => rfl) fun _ =>
    silent_sendEach rfl _)

/-! ## Handing rows over -/

/-- A task that moves rows. -/
def IsMoving (g : Phase) : Prop := ∃ ls, g = .moving ls

theorem follows_moved {u : Uuid} {l : ShoppingList} {ls : List ShoppingList} (hl : l ∈ ls) :
    Follows hash (.moving ls) (sendTo u (.replicateList "" l true)) fun _ g' => g' = .moving ls := by
  have hm : (Phase.moving ls).allow (.send u (.replicateList "" l true)) := Or.inr ⟨l, hl, rfl⟩
  refine (follows_sendTo hm).mono ?_
  rintro b g' (⟨-, h⟩ | ⟨-, h | ⟨a, h⟩⟩) <;> exact h

theorem follows_sendRetrying {u : Uuid} {l : ShoppingList} {ls : List ShoppingList} (hl : l ∈ ls) :
    ∀ n : ℕ, Follows hash (.moving ls) (sendRetrying u (.replicateList "" l true) n)
      fun _ g' => g' = .moving ls
  | 0 => follows_pure rfl
  | n + 1 => by
    refine follows_bind (follows_moved hl) ?_
    rintro b _ rfl
    exact follows_ite (fun _ => follows_pure rfl) fun _ => follows_sendRetrying hl n

theorem follows_leaveRows {ls : List ShoppingList} :
    ∀ rows : List (U128 × ShoppingList), (∀ r ∈ rows, r.2 ∈ ls) →
      Follows hash (.moving ls) (leaveRows rows) fun _ g' => g' = .moving ls
  | [], _ => follows_pure rfl
  | (h, list) :: rows, hrows => by
    have hrest : Follows hash (.moving ls) (leaveRows rows) fun _ g' => g' = .moving ls :=
      follows_leaveRows rows fun r hr => hrows r (List.mem_cons_of_mem _ hr)
    refine follows_bind (R := fun _ g' => g' = .moving ls)
      (follows_perform trivial fun _ => rfl) ?_
    rintro ring _ rfl
    split
    · exact hrest
    · refine follows_bind (follows_sendRetrying (hrows _ List.mem_cons_self) _) ?_
      rintro _ _ rfl
      exact hrest

theorem follows_leave (self : Uuid) : Follows hash (.moving []) (leave self) fun _ => IsMoving := by
  refine follows_locked (follows_bind (R := fun _ g' => g' = .moving [])
    (follows_perform trivial fun _ => rfl) ?_)
  rintro _ _ rfl
  refine follows_locked (follows_bind (R := fun rows g' =>
    g' = .moving ((Option.getD rows []).map Prod.snd)) (follows_perform ⟨_, rfl⟩ fun _ => rfl) ?_)
  rintro rows _ rfl
  cases rows with
  | none => exact follows_pure ⟨_, rfl⟩
  | some rows =>
    refine (follows_leaveRows rows fun r hr => List.mem_map_of_mem hr).mono ?_
    rintro _ _ rfl
    exact ⟨_, rfl⟩

theorem silent_addEach : ∀ nodes : List Uuid, Silent hash (addEach nodes)
  | [] => silent_pure _
  | _ :: nodes => silent_bind (silent_perform (fun _ => trivial) fun _ _ => rfl) fun _ =>
      silent_addEach nodes

theorem follows_sendOldLists {u : Uuid} {ls : List ShoppingList} :
    ∀ old : List ShoppingList, (∀ l ∈ old, l ∈ ls) →
      Follows hash (.moving ls) (sendOldLists u old) fun _ g' => g' = .moving ls
  | [], _ => follows_pure rfl
  | l :: old, hold => by
    refine follows_bind (follows_moved (hold l List.mem_cons_self)) ?_
    rintro _ _ rfl
    exact follows_sendOldLists old fun x hx => hold x (List.mem_cons_of_mem _ hx)

theorem follows_hashring_moving (ls : List ShoppingList) :
    Follows hash (.moving ls) (locked .hashring (perform .hashring)) fun _ g' => g' = .moving ls :=
  follows_locked (follows_perform trivial fun _ => rfl)

theorem follows_addEntries (self : Uuid) (predecessors : List Uuid) :
    ∀ (es : List (Sigma fun _ : Uuid => String)) (ls : List ShoppingList),
      Follows hash (.moving ls) (addEntries self predecessors es) fun _ => IsMoving
  | [], ls => follows_pure ⟨ls, rfl⟩
  | ⟨u, addr⟩ :: es, ls => by
    refine follows_bind (R := fun _ g' => g' = .moving ls)
      (follows_perform trivial fun _ => rfl) ?_
    rintro _ _ rfl
    refine follows_ite (fun _ => ?_) fun _ => follows_addEntries self predecessors es ls
    refine follows_bind (follows_hashring_moving ls) ?_
    rintro ring _ rfl
    split
    · exact follows_addEntries self predecessors es ls
    · refine follows_bind (R := fun old g' => g' = .moving (Option.getD old []))
        (follows_locked (follows_perform ⟨ls, rfl⟩ fun _ => rfl)) ?_
      rintro old _ rfl
      cases old with
      | none => exact follows_pure ⟨_, rfl⟩
      | some old =>
        refine follows_bind (follows_sendOldLists old fun l hl => hl) ?_
        rintro _ _ rfl
        exact follows_addEntries self predecessors es old

theorem follows_handleGossip (self : Uuid) (table : MembershipTable) :
    Follows hash (.moving []) (handleGossip self table) fun _ => IsMoving := by
  refine follows_bind ((silent_locked (silent_addEach _)) _) ?_
  rintro _ _ rfl
  refine follows_locked (follows_bind (R := fun _ g' => g' = .moving [])
    (follows_perform trivial fun _ => rfl) ?_)
  rintro membership _ rfl
  refine follows_bind (follows_hashring_moving []) ?_
  rintro ring _ rfl
  exact follows_addEntries _ _ _ _

/-! ## Replication -/

theorem follows_nextAvailable (start : Uuid) {job : Job} {replicas : List Uuid} {rid : String}
    {todo : List Uuid} :
    ∀ (n : ℕ) (current : Uuid),
      Follows hash (.spreading job replicas rid todo) (nextAvailable start n current)
        fun _ g' => g' = .spreading job replicas rid todo
  | 0, _ => follows_stop
  | n + 1, current => by
    refine follows_bind (R := fun _ g' => g' = .spreading job replicas rid todo)
      (follows_locked (follows_bind (R := fun _ g' => g' = .spreading job replicas rid todo)
        (follows_perform trivial fun _ => rfl) ?_)) ?_
    · rintro ring _ rfl
      split
      · exact follows_stop
      · exact follows_pure rfl
    · rintro next _ rfl
      split
      · exact follows_pure rfl
      · refine follows_bind (silent_isPeerAvailable _ _) ?_
        rintro b _ rfl
        exact follows_ite (fun _ => follows_pure rfl) fun _ =>
          follows_ite (fun _ => follows_pure rfl) fun _ => follows_nextAvailable start n _

theorem follows_getNextAvailableNode (start : Uuid) {job : Job} {replicas : List Uuid}
    {rid : String} {todo : List Uuid} :
    Follows hash (.spreading job replicas rid todo) (getNextAvailableNode start)
      fun _ g' => g' = .spreading job replicas rid todo := by
  refine follows_bind (R := fun _ g' => g' = .spreading job replicas rid todo)
    (follows_perform trivial fun _ => rfl) ?_
  rintro n _ rfl
  exact follows_nextAvailable start n start

/-- The request is still being spread. -/
def IsSpreading (job : Job) (replicas : List Uuid) (rid : String) (g : Phase) : Prop :=
  ∃ todo, g = .spreading job replicas rid todo

/-- Sending to a replica that is still to be sent to; the others stay. -/
theorem follows_sendReplica {job : Job} {replicas : List Uuid} {rid : String} {todo : List Uuid}
    {r : Uuid} {rs : List Uuid} (hsub : (r :: rs).Subperm todo) :
    Follows hash (.spreading job replicas rid todo)
      (sendTo r (.replicateList rid job.list job.write))
      fun _ g' => ∃ todo', rs.Subperm todo' ∧ g' = .spreading job replicas rid todo' := by
  have hr : r ∈ todo := hsub.subset List.mem_cons_self
  have herase : rs.Subperm (todo.erase r) := by
    have h := hsub.erase r
    rwa [List.erase_cons_head] at h
  have hkeep : rs.Subperm todo := (List.sublist_cons_self r rs).subperm.trans hsub
  have hm : (Phase.spreading job replicas rid todo).allow
      (.send r (.replicateList rid job.list job.write)) := Or.inr (Or.inl ⟨hr, rfl⟩)
  refine (follows_sendTo hm).mono ?_
  rintro b g' (⟨-, h⟩ | ⟨-, h | ⟨a, h⟩⟩)
  · exact ⟨_, herase, h⟩
  · exact ⟨_, hkeep, h⟩
  · exact ⟨_, herase, h⟩

theorem follows_replicateTo {job : Job} (hw : job.write = true) {replicas : List Uuid}
    {rid : String} (last : Uuid) :
    ∀ (rs todo : List Uuid), rs.Subperm todo → (∀ r ∈ rs, r ∈ replicas) →
      Follows hash (.spreading job replicas rid todo) (replicateTo rid job.list true last rs)
        fun _ => IsSpreading job replicas rid
  | [], todo, _, _ => follows_pure ⟨todo, rfl⟩
  | r :: rs, todo, hsub, hmem => by
    have hmem' : ∀ x ∈ rs, x ∈ replicas := fun x hx => hmem x (List.mem_cons_of_mem _ hx)
    refine follows_bind (hw ▸ follows_sendReplica hsub) ?_
    rintro b _ ⟨todo', hsub', rfl⟩
    refine follows_ite (fun _ => follows_replicateTo hw last rs todo' hsub' hmem') fun _ => ?_
    refine follows_bind (follows_getNextAvailableNode last) ?_
    rintro next _ rfl
    split
    · exact follows_pure ⟨todo', rfl⟩
    · refine follows_bind (R := fun _ g' => g' = .spreading job replicas rid todo') ?_ ?_
      · have hm : ∀ u, (Phase.spreading job replicas rid todo').allow
            (.send u (.handoff rid job.list r)) :=
          fun u => Or.inr (Or.inr ⟨hw, r, hmem r List.mem_cons_self, rfl⟩)
        refine (follows_sendTo (hm _)).mono ?_
        rintro b g' (⟨-, h⟩ | ⟨-, h | ⟨a, h⟩⟩) <;> exact h
      · rintro _ _ rfl
        exact follows_replicateTo hw last rs todo' hsub' hmem'

theorem follows_sendEach {job : Job} {replicas : List Uuid} {rid : String} :
    ∀ (rs todo : List Uuid), rs.Subperm todo →
      Follows hash (.spreading job replicas rid todo)
        (sendEach (.replicateList rid job.list job.write) rs) fun _ => IsSpreading job replicas rid
  | [], todo, _ => follows_pure ⟨todo, rfl⟩
  | r :: rs, todo, hsub => by
    refine follows_bind (follows_sendReplica hsub) ?_
    rintro _ _ ⟨todo', hsub', rfl⟩
    exact follows_sendEach rs todo' hsub'

/-- The request has a result to store, or is refused. -/
def IsSettled (job : Job) (ok : Bool) (g : Phase) : Prop :=
  (ok = true ∧ g = .writing job job.list) ∨ (ok = false ∧ g = .refusing job)

/-- Opening a request: its id and its entry in `in_flight`. -/
theorem follows_insertInFlight {job : Job} {replicas : List Uuid} {rid : String} {q : QuoromState}
    (hq : q = QuoromState.opened job.list) :
    Follows hash (.named job replicas rid) (locked .inFlight (perform (.insertInFlight rid q)))
      fun _ g' => g' = .spreading job replicas rid replicas :=
  follows_locked (follows_perform ⟨job, replicas, rfl, hq⟩ fun _ => rfl)

theorem follows_sendWriteReplicate {job : Job} (hw : job.base = none) (replicas : List Uuid) :
    Follows hash (.chosen job replicas) (sendWriteReplicate job.list replicas)
      fun ok => IsSettled job ok := by
  refine follows_bind (R := fun u g' => g' = .named job replicas (Uuid.toString u))
    (follows_perform trivial fun _ => rfl) ?_
  rintro u _ rfl
  refine follows_bind (follows_insertInFlight rfl) ?_
  rintro _ _ rfl
  split
  · exact follows_stop
  · refine follows_bind (follows_replicateTo (by simp [Job.write, hw]) _ replicas replicas
      (List.Subperm.refl _) fun _ h => h) ?_
    rintro _ _ ⟨todo, rfl⟩
    refine follows_bind (R := fun ok g' => g' = .decided job u.toString ok)
      (follows_perform ⟨_, _, _, rfl⟩ fun _ => rfl) ?_
    rintro ok _ rfl
    refine follows_bind (R := fun _ g' => IsSettled job ok g')
      (follows_locked (follows_perform ⟨_, _, rfl⟩ fun q => ?_)) fun _ _ h => follows_pure h
    cases ok with
    | true => exact Or.inl ⟨rfl, by simp [Phase.next, Phase.afterRemove, hw]⟩
    | false => exact Or.inr ⟨rfl, rfl⟩

theorem follows_sendReadReplicate {job : Job} {l : ShoppingList} (hb : job.base = some l)
    (replicas : List Uuid) :
    Follows hash (.chosen job replicas) (sendReadReplicate job.list replicas) fun s g' =>
      match s with
      | some s => g' = .writing job { l with list := l.list.merge s.list }
      | none => g' = .refusing job := by
  refine follows_bind (R := fun u g' => g' = .named job replicas (Uuid.toString u))
    (follows_perform trivial fun _ => rfl) ?_
  rintro u _ rfl
  refine follows_bind (follows_insertInFlight rfl) ?_
  rintro _ _ rfl
  have hread : job.write = false := by simp [Job.write, hb]
  refine follows_bind (hread ▸ follows_sendEach replicas replicas (List.Subperm.refl _)) ?_
  rintro _ _ ⟨todo, rfl⟩
  refine follows_bind (R := fun ok g' => g' = .decided job u.toString ok)
    (follows_perform ⟨_, _, _, rfl⟩ fun _ => rfl) ?_
  rintro ok _ rfl
  refine follows_bind (R := fun q g' => g' = (Phase.decided job u.toString ok).afterRemove q)
    (follows_locked (follows_perform ⟨_, _, rfl⟩ fun q => rfl)) ?_
  rintro q _ rfl
  cases ok with
  | false => exact follows_pure rfl
  | true =>
    refine follows_pure ?_
    simp only [Phase.afterRemove, hb]
    split <;> simp_all

/-! ## The handlers -/

/-- A request that a peer coordinates, at its end: nothing was decided, or it was answered. -/
theorem follows_answer {job : Job} {l : ShoppingList} :
    Follows hash (.answering job l) (sendToProxy job.client (.ackList "" l)) fun _ _ => True :=
  follows_locked (follows_perform ⟨rfl, rfl⟩ fun _ => trivial)

theorem follows_refuse {job : Job} :
    Follows hash (.refusing job) (sendToProxy job.client (.nack "")) fun _ _ => True :=
  follows_locked (follows_perform ⟨rfl, rfl⟩ fun _ => trivial)

theorem follows_getReplicas {job : Job} :
    Follows hash (.start job) (getReplicas hash job.list.id)
      fun replicas g' => g' = .chosen job replicas := by
  refine follows_locked (follows_bind (R := fun h g' =>
    g' = .chosen job ((HashRing.getPreferenceList hash h job.list.id).drop 1))
    (follows_perform trivial fun _ => rfl) ?_)
  rintro h _ rfl
  exact follows_pure rfl

theorem follows_handleIncomingPut (client : ClientId) (list : ShoppingList) :
    Follows hash (.start ⟨client, list, none⟩) (handleIncomingPut hash client list)
      fun _ _ => True := by
  refine follows_bind follows_getReplicas ?_
  rintro replicas _ rfl
  refine follows_ite (fun _ => follows_pure trivial) fun _ => ?_
  refine follows_bind (follows_sendWriteReplicate rfl replicas) ?_
  rintro ok _ (⟨rfl, rfl⟩ | ⟨rfl, rfl⟩)
  · refine follows_ite (fun _ => ?_) fun h => absurd rfl h
    refine follows_locked (follows_bind (R := fun a g' =>
      g' = (Phase.writing ⟨client, list, none⟩ list).afterWrite a) (follows_perform rfl fun _ => rfl) ?_)
    rintro a _ rfl
    cases a with
    | none => exact follows_pure trivial
    | some _ => exact follows_bind follows_answer fun _ _ _ => follows_pure trivial
  · refine follows_ite (fun h => absurd h (by decide)) fun _ => ?_
    exact follows_bind follows_refuse fun _ _ _ => follows_pure trivial

theorem follows_readList (client : ClientId) (list l : ShoppingList) :
    Follows hash (.start ⟨client, list, some l⟩) (readList hash client list l)
      fun _ _ => True := by
  refine follows_bind follows_getReplicas ?_
  rintro replicas _ rfl
  refine follows_ite (fun _ => follows_pure trivial) fun _ => ?_
  refine follows_bind (follows_sendReadReplicate rfl replicas) ?_
  intro s g' hs
  cases s with
  | some s =>
    subst hs
    refine follows_bind (R := fun a g' => g' =
      (Phase.writing ⟨client, list, some l⟩ { l with list := l.list.merge s.list }).afterWrite a)
      (follows_locked (follows_perform rfl fun _ => rfl)) ?_
    rintro a _ rfl
    cases a with
    | none => exact follows_pure trivial
    | some _ => exact follows_bind follows_answer fun _ _ _ => follows_pure trivial
  | none =>
    subst hs
    exact follows_bind follows_refuse fun _ _ _ => follows_pure trivial

/-- The phase in which a request from the proxy is taken up. -/
def Phase.ofProxied (client : ClientId) : Msg → Phase
  | .getList list => .asked client list
  | .putList list => .start ⟨client, list, none⟩
  | _ => .idle

/-- **The handler of client requests refines the automaton.** -/
theorem follows_handleIncomingProxy (client : ClientId) (msg : Msg) :
    Follows hash (.ofProxied client msg) (handleIncomingProxy hash client msg)
      fun _ _ => True := by
  cases msg with
  | getList list =>
    refine follows_bind (R := fun a g' => g' = (Phase.asked client list).afterGet a)
      (follows_locked (follows_perform rfl fun _ => rfl)) ?_
    rintro a _ rfl
    cases a with
    | none => exact follows_pure trivial
    | some base =>
      cases base with
      | none => exact follows_handleIncomingPut client list
      | some l => exact follows_readList client list l
  | putList list => exact follows_handleIncomingPut client list
  | _ => exact follows_pure trivial

/-- The phase in which a message from a peer is taken up. -/
def Phase.ofIncoming (src : Uuid) : Msg → Phase
  | .replicateList rid l true => .store src rid l
  | .replicateList rid l false => .look src rid l.id
  | .handoff rid l d => .hint src rid l d
  | .ack rid => .count rid
  | .ackList rid l => .countList rid l
  | .mergeList l => .mergeIn l
  | .leave => .moving []
  | .gossip _ => .moving []
  | _ => .idle

theorem follows_reply {g : Phase} {u : Uuid} {m : Msg} (hm : g.allow (.send u m)) :
    Follows hash g (sendTo u m >>= fun _ => (pure () : Code Unit)) fun _ _ => True :=
  follows_bind (follows_sendTo hm) fun _ _ _ => follows_pure trivial

theorem follows_handleMergeList (l : ShoppingList) :
    Follows hash (.mergeIn l) (handleMergeList l) fun _ _ => True := by
  refine follows_locked (follows_bind (R := fun a g' => g' = (Phase.mergeIn l).afterGet a)
    (follows_perform rfl fun _ => rfl) ?_)
  rintro a _ rfl
  have hwrite : ∀ l' : ShoppingList, Follows hash (.mergeOut l')
      (perform (.writeShoppingList l') >>= fun _ => (pure () : Code Unit)) fun _ _ => True :=
    fun l' => follows_bind (R := fun _ _ => True) (follows_perform rfl fun _ => trivial)
      fun _ _ _ => follows_pure trivial
  cases a with
  | none => exact follows_pure trivial
  | some stored =>
    cases stored with
    | none => exact hwrite l
    | some existing => exact hwrite _

/-- **The handler of messages from peers refines the automaton.** -/
theorem follows_handleIncoming (self src : Uuid) (msg : Msg) :
    Follows hash (.ofIncoming src msg) (handleIncoming self src msg) fun _ _ => True := by
  cases msg with
  | hello u addr =>
    have hello : Silent hash (handleIncoming self src (.hello u addr)) :=
      silent_bind (silent_locked (silent_perform (fun _ => trivial) fun _ _ => rfl))
        fun _ => silent_bind (silent_sendGossipTo u) fun _ => silent_sendGossip self
    exact hello.follows fun _ => trivial
  | gossip table => exact (follows_handleGossip self table).mono fun _ _ _ => trivial
  | ack rid => exact follows_locked (follows_perform rfl fun _ => trivial)
  | ackList rid l => exact follows_locked (follows_perform rfl fun _ => trivial)
  | replicateList rid l write =>
    cases write with
    | true =>
      refine follows_bind (R := fun a g' => g' = (Phase.store src rid l).afterWrite a)
        (follows_locked (follows_perform rfl fun _ => rfl)) ?_
      rintro a _ rfl
      cases a with
      | none => exact follows_pure trivial
      | some _ => exact follows_reply (Or.inr ⟨rfl, rfl⟩)
    | false =>
      refine follows_bind (R := fun a g' => g' = (Phase.look src rid l.id).afterGet a)
        (follows_locked (follows_perform rfl fun _ => rfl)) ?_
      rintro a _ rfl
      cases a with
      | none => exact follows_pure trivial
      | some stored =>
        cases stored with
        | none => exact follows_pure trivial
        | some l' => exact follows_reply (Or.inr ⟨rfl, rfl⟩)
  | handoff rid l d =>
    refine follows_bind (R := fun _ g' => g' = .ackTo src rid)
      (follows_locked (follows_perform ⟨_, _, rfl⟩ fun _ => rfl)) ?_
    rintro _ _ rfl
    exact follows_reply (Or.inr ⟨rfl, rfl⟩)
  | mergeList l => exact follows_handleMergeList l
  | leave => exact (follows_leave self).mono fun _ _ _ => trivial
  | _ => exact follows_pure trivial

/-! ## Hinted handoff -/

/-- A round with the given hints still to be delivered. -/
def AtHints (todo : List (Uuid × ShoppingList)) (g : Phase) : Prop :=
  g = .hints todo ∨ (∃ rid h, g = .hinting rid (h :: todo)) ∨ ∃ d l, g = .delivered d l todo

theorem follows_deliverHints :
    ∀ (todo : List (Uuid × ShoppingList)) (g : Phase), AtHints todo g →
      Follows hash g (deliverHints todo) fun _ _ => True
  | [], _, _ => follows_pure trivial
  | (d, l) :: todo, g, hg => by
    refine follows_bind (R := fun u g' => g' = .hinting (Uuid.toString u) ((d, l) :: todo))
      (follows_perform trivial fun u => ?_) ?_
    · rcases hg with rfl | ⟨rid, h, rfl⟩ | ⟨d', l', rfl⟩ <;> rfl
    · rintro u _ rfl
      refine follows_bind (follows_sendTo (Or.inr ⟨rfl, rfl⟩)) ?_
      rintro b g' (⟨rfl, h⟩ | ⟨rfl, h⟩)
      · refine follows_ite (fun _ => ?_) fun h => absurd rfl h
        have hg' : g' = .delivered d l todo := h
        subst hg'
        refine follows_bind (R := fun _ g' => g' = .hints todo)
          (follows_locked (follows_perform ⟨d, l, todo, rfl, rfl⟩ fun _ => rfl)) ?_
        rintro _ _ rfl
        exact follows_deliverHints todo _ (Or.inl rfl)
      · refine follows_ite (fun h => absurd h (by decide)) fun _ => ?_
        refine follows_deliverHints todo g' ?_
        rcases h with rfl | ⟨a, rfl⟩
        · exact Or.inr (Or.inl ⟨_, _, rfl⟩)
        · cases a with
          | true => exact Or.inr (Or.inr ⟨d, l, rfl⟩)
          | false => exact Or.inl rfl

/-- **A round of hinted handoff refines the automaton.** -/
theorem follows_hintedHandoff : Follows hash .round hintedHandoff fun _ _ => True := by
  refine follows_bind (R := fun a g' => g' = .hints (Option.getD a []))
    (follows_locked (follows_perform rfl fun _ => rfl)) ?_
  rintro a _ rfl
  cases a with
  | none => exact follows_pure trivial
  | some hints => exact follows_deliverHints hints _ (Or.inl rfl)

end Follows

/-! ## Invariants of the cluster -/

/-- Which tasks are in a phase. -/
def Phase.Fits (t : Tid) (g : Phase) : Prop :=
  match g with
  | .idle => True
  | .asked _ _ | .start _ | .chosen _ _ | .named _ _ _ | .spreading _ _ _ _ | .decided _ _ _
  | .writing _ _ | .answering _ _ | .refusing _ => t = .proxied t.peer
  | .round | .hints _ | .hinting _ _ | .delivered _ _ _ => t = .hintedHandoff t.peer
  | _ => ∃ s, t = .incoming t.peer s

/-- **What an operation makes of a phase that allows it.** -/
theorem Phase.goes_next {g : Phase} {o : Op} {a : Ans o} (ho : g.allow o) :
    Goes hash g o a (g.next hash o a) := by
  cases o with
  | getShoppingList id =>
    cases g with
    | look src rid i =>
      obtain rfl : id = i := ho
      rcases a with _ | _ | l
      · exact .drop
      · exact .drop
      · exact .found
    | mergeIn l =>
      obtain rfl : id = l.id := ho
      rcases a with _ | _ | existing
      · exact .drop
      · exact .unmerged
      · exact .merged
    | asked client l =>
      obtain rfl : id = l.id := ho
      cases a with
      | none => exact .drop
      | some base => exact .based
    | _ => exact ho.elim
  | writeShoppingList l =>
    cases g with
    | store src rid l' =>
      obtain rfl : l = l' := ho
      cases a with
      | none => exact .drop
      | some _ => exact .kept
    | mergeOut l' => cases a <;> exact .drop
    | writing job l' =>
      obtain rfl : l = l' := ho
      cases a with
      | none => exact .drop
      | some _ => exact .wrote
    | _ => exact ho.elim
  | writeShoppingListHandoff l d =>
    obtain ⟨src, rid, rfl⟩ := ho
    exact .noted
  | deleteShoppingList id =>
    obtain ⟨d, l, todo, rfl, rfl⟩ := ho
    exact .deleted
  | getHintedHandoffs =>
    cases (ho : g = .round)
    exact .read
  | getOldData u h =>
    obtain ⟨ls, rfl⟩ := ho
    exact .old
  | getAllRows =>
    obtain ⟨ls, rfl⟩ := ho
    exact .all
  | hashring =>
    cases g with
    | start job => exact .choice
    | _ => exact .stay
  | newUuid =>
    cases g with
    | chosen job replicas => exact .named
    | hints todo => exact .hinted (Or.inl rfl)
    | hinting rid todo =>
      cases todo with
      | nil => exact .stay
      | cons h todo => exact .hinted (Or.inr (Or.inl ⟨rid, h, rfl⟩))
    | delivered d l todo => exact .hinted (Or.inr (Or.inr ⟨d, l, rfl⟩))
    | _ => exact .stay
  | insertInFlight r q =>
    obtain ⟨job, replicas, rfl, rfl⟩ := ho
    exact .opened
  | removeInFlight r =>
    obtain ⟨job, ok, rfl⟩ := ho
    cases ok with
    | false => exact .refused
    | true =>
      simp only [next, afterRemove]
      split
      · rename_i hbase
        exact .write hbase
      · rename_i l hbase
        split
        · rename_i s hs
          exact .join hbase hs
        · exact .refused
  | ack r => exact .drop
  | ackList r l => exact .drop
  | send u m =>
    simp only [next]
    split
    · exact .stay
    · rename_i hm
      have hsends := ho.resolve_left hm
      cases g with
      | hinting rid todo =>
        rcases todo with _ | ⟨⟨d, l⟩, todo⟩
        · exact hsends.elim
        · obtain ⟨rfl, rfl⟩ := hsends
          cases a with
          | true => exact .sent
          | false => exact .unsent
      | spreading job replicas rid todo =>
        rcases hsends with ⟨hu, rfl⟩ | ⟨-, r, -, rfl⟩
        · exact .spread hu
        · exact .stay
      | ackTo src rid => exact .drop
      | ackListTo src rid l => exact .drop
      | _ => exact .stay
  | sendProxy c m => exact .drop
  | await r =>
    obtain ⟨job, replicas, todo, rfl⟩ := ho
    exact .decided
  | _ => exact .stay

theorem Phase.fits_next {t : Tid} {g : Phase} {o : Op} {a : Ans o} (hg : g.Fits t)
    (ho : g.allow o) : (g.next hash o a).Fits t := by
  have hgo : Goes hash g o a (g.next hash o a) := goes_next ho
  generalize g.next hash o a = g' at hgo
  cases hgo with
  | drop => trivial
  | hinted h => rcases h with rfl | ⟨rid, h, rfl⟩ | ⟨d, l, rfl⟩ <;> exact hg
  | _ => exact hg

/-- The task that an arrival starts, and its first phase. -/
def begun : Arrival → Option (Tid × Phase)
  | .take r => some (.proxied r.peer, .ofProxied r.clientId r.msg)
  | .deliver p => some (.incoming p.dst p.serial, .ofIncoming p.src p.msg)
  | .tickGossip u => some (.gossip u, .idle)
  | .tickHintedHandoff u => some (.hintedHandoff u, .round)
  | .tickFailureDetection u => some (.failureDetection u, .idle)
  | _ => none

/-- The phases of the tasks after a history. -/
def phases : History hash → Tid → Phase
  | [] => fun _ => .idle
  | .did t o a :: evs => Function.update (phases evs) t ((phases evs t).next hash o a)
  | .ended t :: evs => Function.update (phases evs) t .idle
  | .arrived e :: evs =>
    match begun e with
    | none => phases evs
    | some (t, g) => Function.update (phases evs) t g

theorem phases_did (evs : History hash) (t : Tid) (o : Op) (a : Ans o) (t' : Tid) :
    phases (.did t o a :: evs) t' = if t' = t then (phases evs t).next hash o a else phases evs t' :=
  Function.update_apply _ _ _ _

theorem phases_ended (evs : History hash) (t t' : Tid) :
    phases (.ended t :: evs) t' = if t' = t then .idle else phases evs t' :=
  Function.update_apply _ _ _ _

/-- What a phase tells after a task has ended, it told before. -/
theorem tells_ended {α : Type} (f : Phase → Option α) (hidle : f .idle = none) {evs : History hash}
    {t t' : Tid} {x : α} (h : f (phases (.ended t :: evs) t') = some x) :
    f (phases evs t') = some x := by
  rw [phases_ended] at h
  split at h
  · rw [hidle] at h
    cases h
  · exact h

theorem phases_arrived (evs : History hash) (e : Arrival) (t' : Tid) :
    phases (.arrived e :: evs) t' = phases evs t' ∨
      ∃ g, begun e = some (t', g) ∧ phases (.arrived e :: evs) t' = g := by
  cases h : begun e with
  | none =>
    left
    simp only [phases, h]
  | some tg =>
    obtain ⟨t, g⟩ := tg
    simp only [phases, h]
    by_cases ht : t' = t
    · subst ht
      exact Or.inr ⟨g, rfl, Function.update_self _ _ _⟩
    · exact Or.inl (Function.update_of_ne ht _ _)

/-- What a phase tells after an arrival, and no first phase tells, it told before. -/
theorem tells_arrived {α : Type} (f : Phase → Option α)
    (hbegun : ∀ {e t g}, begun e = some (t, g) → f g = none) {evs : History hash} {e : Arrival}
    {t : Tid} {x : α} (h : f (phases (.arrived e :: evs) t) = some x) : f (phases evs t) = some x := by
  rcases phases_arrived evs e t with hsame | ⟨g, hb, hg⟩
  · rwa [hsame] at h
  · rw [hg, hbegun hb] at h
    cases h

/-- A task that has something in hand after a task has ended had it before. -/
theorem phases_of_ended {evs : History hash} {t t' : Tid} {g : Phase}
    (h : phases (.ended t :: evs) t' = g) (hg : g ≠ .idle) : phases evs t' = g := by
  rw [phases_ended] at h
  split at h
  · exact absurd h.symm hg
  · exact h

theorem phases_arrived_of_ne {evs : History hash} {e : Arrival} {t : Tid}
    (h : ∀ g, begun e ≠ some (t, g)) : phases (.arrived e :: evs) t = phases evs t := by
  rcases phases_arrived evs e t with hsame | ⟨g, hbegun, -⟩
  · exact hsame
  · exact absurd hbegun (h g)

/-- A task starts with the program of its first phase. -/
theorem begun_follows {e : Arrival} {w w' : World hash} {t : Tid} {p : Code Unit}
    (h : arrive e w = some (some (t, p), w')) :
    ∃ g, begun e = some (t, g) ∧ Follows hash g p (fun _ _ => True) ∧ g.Fits t := by
  cases e with
  | take r =>
    simp only [arrive] at h
    split at h
    · simp only [Option.some.injEq, Prod.mk.injEq] at h
      obtain ⟨⟨rfl, rfl⟩, rfl⟩ := h
      refine ⟨_, rfl, follows_handleIncomingProxy r.clientId r.msg, ?_⟩
      cases r.msg <;> trivial
    · cases h
  | deliver q =>
    simp only [arrive] at h
    split at h
    · simp only [Option.some.injEq, Prod.mk.injEq] at h
      obtain ⟨⟨rfl, rfl⟩, rfl⟩ := h
      refine ⟨_, rfl, follows_handleIncoming q.dst q.src q.msg, ?_⟩
      cases q.msg with
      | replicateList rid l write => cases write <;> exact ⟨_, rfl⟩
      | _ => first | trivial | exact ⟨_, rfl⟩
    · cases h
  | tickHintedHandoff u =>
    simp only [arrive, Option.some.injEq, Prod.mk.injEq] at h
    obtain ⟨⟨rfl, rfl⟩, rfl⟩ := h
    exact ⟨_, rfl, follows_hintedHandoff, rfl⟩
  | tickGossip u =>
    simp only [arrive, Option.some.injEq, Prod.mk.injEq] at h
    obtain ⟨⟨rfl, rfl⟩, rfl⟩ := h
    exact ⟨_, rfl, (silent_sendGossip u).follows (fun _ => trivial), trivial⟩
  | tickFailureDetection u =>
    simp only [arrive, Option.some.injEq, Prod.mk.injEq] at h
    obtain ⟨⟨rfl, rfl⟩, rfl⟩ := h
    exact ⟨_, rfl, silent_failureDetection.follows (fun _ => trivial), trivial⟩
  | request client msg =>
    simp only [arrive] at h
    split at h <;> cases h
  | lose q =>
    simp only [arrive] at h
    split at h <;> cases h
  | message src dst msg =>
    simp only [arrive] at h
    split at h <;> cases h
  | ready u => cases h

/-- An arrival that starts no task. -/
theorem begun_eq_none {e : Arrival} {w w' : World hash} (h : arrive e w = some (none, w')) :
    begun e = none := by
  cases e with
  | take r =>
    simp only [arrive] at h
    split at h <;> cases h
  | deliver q =>
    simp only [arrive] at h
    split at h <;> cases h
  | tickHintedHandoff u => cases h
  | tickGossip u => cases h
  | tickFailureDetection u => cases h
  | _ => rfl

/-- **The invariant rule of the cluster**: an invariant over the phases of the tasks is kept by the
operations that the phases allow, by the end of a task and by what arrives. -/
theorem cluster_invariant {D : Discipline (cluster hash)} (Inv : History hash → World hash → Prop)
    (hdid : ∀ evs w t o c a, Inv evs w → (∀ t, (phases evs t).Fits t) → (phases evs t).allow o →
      answer t o c w = some a → D evs w (.did t o a) → Inv (.did t o a :: evs) (effect t o a w))
    (hended : ∀ evs w t, Inv evs w → Inv (.ended t :: evs) w)
    (harrived : ∀ evs w e r w', Inv evs w → (∀ t, (phases evs t).Fits t) →
      arrive e w = some (r, w') → (∀ t g, begun e = some (t, g) → phases evs t = .idle) → D evs w (.arrived e) →
      Inv (.arrived e :: evs) w')
    {w₀ : World hash} (hinit : Inv [] w₀) {evs : History hash} {c : Config (cluster hash)}
    (hrun : Run (cluster hash) D (quiet w₀) evs c) :
    Inv evs c.state ∧ ∀ t, (phases evs t).Fits t := by
  have hfits : ∀ (gs : Tid → Phase) (t : Tid) (g : Phase), (∀ t, (gs t).Fits t) → g.Fits t →
      ∀ t', (Function.update gs t g t').Fits t' := by
    intro gs t g hgs hg t'
    by_cases h : t' = t
    · subst h
      simpa using hg
    · simpa [h] using hgs t'
  have hsound := Run.sound (traffic hash) .idle (fun _ _ => True)
    (fun evs gs w => gs = phases evs ∧ Inv evs w ∧ ∀ t, (gs t).Fits t)
    ?did ?ended ?arrived ?started ⟨rfl, hinit, fun t => show Phase.Fits t .idle from trivial⟩ hrun
  · obtain ⟨gs, ⟨rfl, hinv⟩, -⟩ := hsound
    exact hinv
  case did =>
    rintro evs gs w t o c a w' ⟨rfl, hinv, hfit⟩ hallow hact hD
    obtain ⟨ha, rfl⟩ := act_eq hact
    exact ⟨trivial, rfl, hdid evs w t o c a hinv hfit hallow ha hD,
      hfits _ t _ hfit (Phase.fits_next (hfit t) hallow)⟩
  case ended =>
    rintro evs gs w t ⟨rfl, hinv, hfit⟩ -
    exact ⟨rfl, hended evs w t hinv, hfits _ t .idle hfit trivial⟩
  case arrived =>
    rintro evs gs w e w' ⟨rfl, hinv, hfit⟩ harr hD
    have hbegun := begun_eq_none harr
    refine ⟨?_, harrived evs w e none w' hinv hfit harr (by simp [hbegun]) hD, hfit⟩
    simp only [phases, hbegun]
  case started =>
    rintro evs gs w e t p w' ⟨rfl, hinv, hfit⟩ harr hidle hD
    obtain ⟨g, hbegun, hp, hg⟩ := begun_follows harr
    refine ⟨g, hp t, ?_, harrived evs w e _ w' hinv hfit harr ?_ hD, hfits _ t g hfit hg⟩
    · simp only [phases, hbegun]
    · intro t' g' h
      rw [hbegun] at h
      cases h
      exact hidle

end Sdle
