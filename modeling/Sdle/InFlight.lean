import Sdle.Requests
import Sdle.Operations
import Sdle.Join
import Sdle.Lib.Pending

/-!
# Requests in flight are tracked exactly

Any number of `send_replicate` and `send_read_replicate` run at any peers, beside handlers of any
messages: in particular of any sequence of `Ack` and `AckList`, duplicated, late, or with ids that
nobody has drawn.

## Protocol

A request draws its id, puts a `QuoromState` under it into `in_flight`, sends, waits for its channel
or the timeout, and takes the state out again.  In between each `Ack` or `AckList` that is handled
updates the state under the id that it names; the one that makes the quorum full sends on the channel.

## Results

* `tabulated_effect` — `in_flight` and the channels of a peer refine a table of pending requests.
* `in_flight_exact` — **requests in flight are tracked exactly**, in every run.
-/

set_option autoImplicit false

namespace Sdle

open Tasks Peer Pending

variable {hash : String → U128}

/-! ## The table behind `in_flight` -/

/-- What is handed to `in_flight`. -/
abbrev TableAction := Action String QuoromState (List ShoppingList)

/-- What an operation does to the `in_flight` of its peer. -/
def actionOf : Op → Option TableAction
  | .insertInFlight r q => some (.opens r q)
  | .ack r => some (.answers r [])
  | .ackList r l => some (.answers r [l])
  | .removeInFlight r => some (.closes r)
  | _ => none

/-- A request that nobody has answered. -/
def QuoromState.Fresh (q : QuoromState) : Prop :=
  q.received = 0 ∧ q.responder = true ∧ 0 < q.needed

/-- The state of a request that was opened as `r.1` and has been answered by `r.2`. -/
def tracked (r : QuoromState × List (List ShoppingList)) : QuoromState :=
  { r.1 with
    received := r.2.length
    responder := decide (r.2.length < r.1.needed)
    lists := r.1.lists ++ r.2.flatten }

/-- `in_flight` and the channels hold what the table tells. -/
def Tabulated (acts : List TableAction) (n : Node hash) : Prop :=
  ∀ rid, n.inFlight.find? rid = (pending rid acts).map tracked ∧
    n.fired.count rid = triggers QuoromState.needed rid acts

theorem tracked_fresh {q : QuoromState} (hq : q.Fresh) : tracked (q, []) = q := by
  obtain ⟨hreceived, hresponder, hneeded⟩ := hq
  cases q with
  | mk needed received responder lists =>
    simp only at hreceived hresponder hneeded
    simp [tracked, hreceived, hresponder, hneeded]

theorem isQuoromReached_iff {q : QuoromState} : q.isQuoromReached = true ↔ q.needed ≤ q.received :=
  decide_eq_true_iff

/-- An answer updates the state that it names and fires its channel when it makes the quorum full. -/
theorem tabulated_answered {acts : List TableAction} {n : Node hash} (h : Tabulated acts n)
    (r : String) (ls : List ShoppingList) (update : QuoromState → QuoromState)
    (hupdate : ∀ q, update q = { q with received := q.received + 1, lists := q.lists ++ ls }) :
    Tabulated (.answers r ls :: acts) (n.answered r update) := by
  intro rid
  obtain ⟨hfind, hcount⟩ := h r
  obtain ⟨hfind', hcount'⟩ := h rid
  simp only [pending, triggers]
  unfold Node.answered
  cases hp : pending r acts with
  | none =>
    rw [hp] at hfind
    have hnot : ¬ (r = rid ∧ Fills QuoromState.needed (pending rid acts)) := by
      rintro ⟨rfl, x, ys, hsome, -⟩
      rw [hp] at hsome
      cases hsome
    simp only [hfind, Option.map_none, if_neg hnot, Nat.add_zero]
    refine ⟨?_, hcount'⟩
    split
    · rename_i hr
      subst hr
      rw [hfind', hp]
      rfl
    · exact hfind'
  | some x =>
    obtain ⟨q, ys⟩ := x
    rw [hp] at hfind
    simp only [hfind, Option.map_some]
    have hfull : ((update (tracked (q, ys))).isQuoromReached && (update (tracked (q, ys))).responder)
        = decide (ys.length + 1 = q.needed) := by
      rw [hupdate, Bool.eq_iff_iff]
      rw [Bool.and_eq_true, isQuoromReached_iff, decide_eq_true_iff]
      simp only [tracked, decide_eq_true_iff]
      omega
    have hnext : tracked (q, ys ++ [ls]) =
        { update (tracked (q, ys)) with
          responder := decide (ys.length + 1 < q.needed) } := by
      rw [hupdate]
      simp [tracked]
    rw [hfull]
    by_cases hr : r = rid
    · subst hr
      simp only [hp, true_and, fills_some, if_true, Option.map_some, decide_eq_true_eq]
      split
      · rename_i hlen
        refine ⟨?_, ?_⟩
        · rw [FinMap.find?_insert, if_pos rfl, hnext]
          have hlt : ¬ ys.length + 1 < q.needed := by omega
          simp [hlt]
        · rw [List.count_cons_self, hcount]
      · rename_i hlen
        refine ⟨?_, by rw [hcount]; rfl⟩
        rw [FinMap.find?_insert, if_pos rfl, hnext, hupdate]
        have hlt : ys.length < q.needed ↔ ys.length + 1 < q.needed := by omega
        simp [tracked, hlt]
    · simp only [hr, false_and, if_false, Nat.add_zero]
      split
      · exact ⟨(FinMap.find?_insert_ne _ _ (Ne.symm hr)).trans hfind',
          (List.count_cons_of_ne (by simpa using hr)).trans hcount'⟩
      · exact ⟨(FinMap.find?_insert_ne _ _ (Ne.symm hr)).trans hfind', hcount'⟩

/-- **`in_flight` and the channels of a peer refine the table**: an operation does to them what its
action does to the table. -/
theorem tabulated_after {acts : List TableAction} {n : Node hash} (h : Tabulated acts n) (t : Tid)
    (o : Op) (a : Ans o) (hfresh : ∀ r q, o = .insertInFlight r q → q.Fresh) :
    Tabulated ((actionOf o).toList ++ acts) (n.after t o a) := by
  cases o with
  | insertInFlight r q =>
    intro rid
    obtain ⟨hfind, hcount⟩ := h rid
    refine ⟨?_, hcount⟩
    simp only [Node.after, actionOf, Option.toList_some, List.singleton_append, pending,
      FinMap.find?_insert]
    by_cases hr : rid = r
    · rw [if_pos hr, if_pos hr.symm, Option.map_some, tracked_fresh (hfresh r q rfl)]
    · rw [if_neg hr, if_neg (Ne.symm hr), hfind]
  | removeInFlight r =>
    intro rid
    obtain ⟨hfind, hcount⟩ := h rid
    refine ⟨?_, hcount⟩
    simp only [Node.after, actionOf, Option.toList_some, List.singleton_append, pending,
      FinMap.find?_erase]
    by_cases hr : rid = r
    · rw [if_pos hr, if_pos hr.symm, Option.map_none]
    · rw [if_neg hr, if_neg (Ne.symm hr), hfind]
  | ack r =>
    exact tabulated_answered h r [] _ fun q => by simp [QuoromState.incrementReceived]
  | ackList r l => exact tabulated_answered h r [l] _ fun q => rfl
  | writeShoppingList l => cases a <;> exact h
  | writeShoppingListHandoff l d => cases a <;> exact h
  | deleteShoppingList id => cases a <;> exact h
  | _ => exact h

/-- The peers, whatever arrives at them. -/
abbrev peers {A : Type} (arrive : A → World hash → Option (Option (Tid × Code Unit) × World hash)) :
    Machine PeerSig where
  State := World hash
  Tid := Tid
  Choice := Choice
  Arrival := A
  act := act
  arrive := arrive

section Actions

variable {A : Type} {arrive : A → World hash → Option (Option (Tid × Code Unit) × World hash)}

/-- What a step does to the `in_flight` of a peer. -/
def actionAt (u : Uuid) : Event (peers arrive) → Option TableAction
  | .did t o _ => if t.peer = u then actionOf o else none
  | _ => none

/-- What has been done to the `in_flight` of a peer. -/
def actions (u : Uuid) (evs : List (Event (peers arrive))) : List TableAction :=
  evs.filterMap (actionAt u)

theorem actions_append (u : Uuid) (evs evs' : List (Event (peers arrive))) :
    actions u (evs ++ evs') = actions u evs ++ actions u evs' := List.filterMap_append

theorem actions_did (t : Tid) (o : Op) (a : Ans o) (evs : List (Event (peers arrive))) (u : Uuid) :
    actions u (.did t o a :: evs) =
      (if u = t.peer then (actionOf o).toList else []) ++ actions u evs := by
  unfold actions
  rw [List.filterMap_cons]
  by_cases hu : t.peer = u
  · simp only [actionAt, if_pos hu, if_pos hu.symm]
    cases actionOf o <;> rfl
  · simp only [actionAt, if_neg hu, if_neg (Ne.symm hu)]
    rfl

theorem tabulated_effect {evs : List (Event (peers arrive))} {w : World hash}
    (h : ∀ u, Tabulated (actions u evs) (w.node u)) (t : Tid) (o : Op) (a : Ans o)
    (hfresh : ∀ r q, o = .insertInFlight r q → q.Fresh) (u : Uuid) :
    Tabulated (actions u (.did t o a :: evs)) ((effect t o a w).node u) := by
  rw [actions_did, node_effect]
  split
  · exact tabulated_after (h u) t o a hfresh
  · exact h u

/-- Who puts a request in flight in a history. -/
theorem mem_actions_opens {u : Uuid} {rid : String} {q : QuoromState}
    {evs : List (Event (peers arrive))} (h : Action.opens rid q ∈ actions u evs) :
    ∃ t, t.peer = u ∧ .did t (.insertInFlight rid q) () ∈ evs := by
  obtain ⟨ev, hev, hact⟩ := List.mem_filterMap.1 h
  cases ev with
  | did t o a =>
    simp only [actionAt, Option.ite_none_right_eq_some] at hact
    obtain ⟨ht, hact⟩ := hact
    cases o <;> simp only [actionOf, Option.some.injEq, reduceCtorEq, Action.opens.injEq] at hact
    obtain ⟨rfl, rfl⟩ := hact
    exact ⟨t, ht, hev⟩
  | ended t => cases hact
  | arrived e => cases hact

theorem mem_actions_closes {u : Uuid} {rid : String} {evs : List (Event (peers arrive))}
    (h : Action.closes rid ∈ actions u evs) :
    ∃ t a, t.peer = u ∧ .did t (.removeInFlight rid) a ∈ evs := by
  obtain ⟨ev, hev, hact⟩ := List.mem_filterMap.1 h
  cases ev with
  | did t o a =>
    simp only [actionAt, Option.ite_none_right_eq_some] at hact
    obtain ⟨ht, hact⟩ := hact
    cases o <;> simp only [actionOf, Option.some.injEq, reduceCtorEq, Action.closes.injEq] at hact
    subst hact
    exact ⟨t, a, ht, hev⟩
  | ended t => cases hact
  | arrived e => cases hact

end Actions

/-! ## Calls -/

/-- What can be started at a peer: a request, or the handling of a message. -/
inductive Call where
  | replicate (list : ShoppingList) (replicas : List Uuid) (write : Bool)
  | readReplicate (list : ShoppingList) (replicas : List Uuid)
  | incoming (src : Uuid) (msg : Msg)
  deriving DecidableEq

/-- The code of a call. -/
def Call.code (peer : Uuid) : Call → Code Unit
  | .replicate list replicas write => do
    let _ ← sendReplicate list replicas write
  | .readReplicate list replicas => do
    let _ ← sendReadReplicate list replicas
  | .incoming src msg => handleIncoming peer src msg

variable (hash) in
/-- Peers at which any calls start at any time, each as a task of its own. -/
abbrev calling : Machine PeerSig :=
  peers fun (e : Tid × Call) (w : World hash) => some (some (e.1, e.2.code e.1.peer), w)

/-- How far a task is with a request id: it has drawn none, has not used it, or has put its request
in flight. -/
inductive Naming where
  | idle
  | named (rid : String)
  | used (rid : String)

/-- A task touches a request in flight only under the id that it has drawn, and puts it in flight
first. -/
def naming : Monitor PeerSig Tid Naming where
  allow _ g o :=
    match o with
    | .insertInFlight r q => g = .named r ∧ q.Fresh
    | .removeInFlight r => g = .used r
    | .await r => g = .used r
    | _ => True
  expect _ _ _ _ := True
  next _ g o a :=
    match o, a with
    | .newUuid, u => .named u.toString
    | .insertInFlight r _, _ => .used r
    | _, _ => g

section Obeys

variable {α β : Type} {t : Tid} {R : α → Naming → Prop} {g : Naming}

theorem naming_perform {o : Op} {R : Ans o → Naming → Prop} (ho : naming.allow t g o)
    (h : ∀ a, R a (naming.next t g o a)) : (perform o).Obeys naming t R g :=
  ⟨ho, fun a _ => h a⟩

theorem naming_locked {m : Mutex} {body : Code α} (h : body.Obeys naming t R g) :
    (locked m body).Obeys naming t R g := by
  refine ⟨trivial, fun _ _ => ?_⟩
  change Prog.Obeys naming t R (body >>= fun a => perform (.unlock m) >>= fun _ => pure a) g
  refine Prog.Obeys.call h fun a g' hR => ?_
  exact ⟨trivial, fun _ _ => hR⟩

/-- Sending leaves the request as it is. -/
theorem naming_network {p : Code α} (hp : p.Only Network) (g : Naming) :
    p.Obeys naming t (fun _ g' => g' = g) g := by
  refine Prog.Only.obeys (M := naming) (fun g' => g' = g) (fun g' o _ ho => ?_) (fun g' o a hg ho => ?_) p g rfl hp
  · cases o <;> trivial
  · cases o <;> first
      | exact hg
      | exact ho.elim

theorem naming_sendReplicate (list : ShoppingList) (replicas : List Uuid) (write : Bool) :
    (sendReplicate list replicas write).Obeys naming t (fun _ _ => True) g := by
  refine Prog.Obeys.call (R := fun u g' => g' = .named (Uuid.toString u))
    (naming_perform trivial fun _ => rfl) ?_
  rintro u _ rfl
  refine Prog.Obeys.call (R := fun _ g' => g' = .used (Uuid.toString u))
    (naming_locked (naming_perform ⟨rfl, rfl, rfl, ?_⟩ fun _ => rfl)) ?_
  · cases write <;> exact Nat.two_pos
  rintro _ _ rfl
  split
  · exact ⟨trivial, fun a => a.elim⟩
  · refine Prog.Obeys.call (naming_network (network_replicateTo _ _ _ _ _) _) ?_
    rintro _ _ rfl
    refine Prog.Obeys.call (R := fun _ g' => g' = .used (Uuid.toString u))
      (naming_perform rfl fun _ => rfl) ?_
    rintro _ _ rfl
    exact Prog.Obeys.call (R := fun _ _ => True)
      (naming_locked (naming_perform rfl fun _ => trivial)) fun _ _ _ => trivial

theorem naming_sendReadReplicate (list : ShoppingList) (replicas : List Uuid) :
    (sendReadReplicate list replicas).Obeys naming t (fun _ _ => True) g := by
  refine Prog.Obeys.call (R := fun u g' => g' = .named (Uuid.toString u))
    (naming_perform trivial fun _ => rfl) ?_
  rintro u _ rfl
  refine Prog.Obeys.call (R := fun _ g' => g' = .used (Uuid.toString u))
    (naming_locked (naming_perform ⟨rfl, rfl, rfl, Nat.two_pos⟩ fun _ => rfl)) ?_
  rintro _ _ rfl
  refine Prog.Obeys.call (naming_network (network_sendEach _ _) _) ?_
  rintro _ _ rfl
  refine Prog.Obeys.call (R := fun _ g' => g' = .used (Uuid.toString u))
    (naming_perform rfl fun _ => rfl) ?_
  rintro _ _ rfl
  refine Prog.Obeys.call (R := fun _ _ => True)
    (naming_locked (naming_perform rfl fun _ => trivial)) fun _ _ _ => ?_
  split <;> trivial

/-- A handler of messages has no request of its own: it never gets to a phase that has. -/
theorem naming_handleIncoming (peer src : Uuid) (msg : Msg) :
    (handleIncoming peer src msg).Obeys naming t (fun _ _ => True) g := by
  have hfollows := @follows_handleIncoming (fun _ => 0) peer src msg t
  have hfits : (Phase.ofIncoming src msg).Fits (.incoming peer 0) := by
    cases msg with
    | replicateList rid l write => cases write <;> exact ⟨_, rfl⟩
    | _ => first | trivial | exact ⟨_, rfl⟩
  refine Prog.Obeys.mono (fun _ _ _ => trivial) _ _ (Prog.Obeys.transfer
    (fun (g : Phase) (_ : Naming) => g.Fits (.incoming peer 0)) (fun g g' o hg ho => ?_)
    (fun g g' o a hg ho _ => ⟨trivial, Phase.fits_next hg ho⟩) _ _ g hfits hfollows)
  cases o with
  | insertInFlight r q =>
    obtain ⟨job, replicas, rfl, -⟩ := ho
    cases hg
  | removeInFlight r =>
    obtain ⟨job, ok, rfl⟩ := ho
    cases hg
  | await r =>
    obtain ⟨job, replicas, todo, rfl⟩ := ho
    cases hg
  | _ => trivial

theorem naming_code (peer : Uuid) (call : Call) :
    (call.code peer).Obeys naming t (fun _ _ => True) .idle := by
  cases call with
  | replicate list replicas write =>
    exact Prog.Obeys.call (naming_sendReplicate list replicas write) fun _ _ _ => trivial
  | readReplicate list replicas =>
    exact Prog.Obeys.call (naming_sendReadReplicate list replicas) fun _ _ _ => trivial
  | incoming src msg => exact naming_handleIncoming peer src msg

end Obeys

/-! ## Who uses which id -/

/-- The task has drawn the id. -/
def Drew (evs : List (Event (calling hash))) (t : Tid) (rid : String) : Prop :=
  ∃ u : Uuid, u.toString = rid ∧ .did t .newUuid u ∈ evs

/-- An id is drawn once and put in flight once, only the task that drew it uses it, and what the task
is told is what the table tells. -/
def Lawful (earlier : List (Event (calling hash))) : Event (calling hash) → Prop
  | .did _ .newUuid u => ∀ t, .did t .newUuid u ∉ earlier
  | .did t (.insertInFlight rid _) _ =>
    Drew earlier t rid ∧ ∀ t' q, .did t' (.insertInFlight rid q) () ∉ earlier
  | .did t (.await rid) b =>
    Drew earlier t rid ∧
      (b = true → 0 < triggers QuoromState.needed rid (actions t.peer earlier))
  | .did t (.removeInFlight rid) a =>
    Drew earlier t rid ∧ a = (pending rid (actions t.peer earlier)).map tracked
  | _ => True

/-- What holds of a task that is so far with an id. -/
def HoldsName (evs : List (Event (calling hash))) (t : Tid) : Naming → Prop
  | .idle => True
  | .named rid => Drew evs t rid ∧ ∀ t' q, .did t' (.insertInFlight rid q) () ∉ evs
  | .used rid => Drew evs t rid

/-- What holds in every run. -/
structure Exact (evs : List (Event (calling hash))) (gs : Tid → Naming) (w : World hash) : Prop where
  tabulated : ∀ u, Tabulated (actions u evs) (w.node u)
  drawn : ∀ t u, .did t .newUuid u ∈ evs → u ∈ w.drawn
  names : ∀ t, HoldsName evs t (gs t)
  lawful : Throughout Lawful evs

section Lawful

variable {evs : List (Event (calling hash))}

theorem Drew.mono {evs' : List (Event (calling hash))} {t : Tid} {rid : String} (h : Drew evs t rid)
    (hsub : evs ⊆ evs') : Drew evs' t rid := by
  obtain ⟨u, hu, hmem⟩ := h
  exact ⟨u, hu, hsub hmem⟩

/-- An id has one task that drew it. -/
theorem Drew.unique (hlaw : Throughout Lawful evs) {t t' : Tid} {rid : String}
    (h : Drew evs t rid) (h' : Drew evs t' rid) : t = t' := by
  obtain ⟨u, hu, hmem⟩ := h
  obtain ⟨u', hu', hmem'⟩ := h'
  obtain rfl : u = u' := Uuid.toString_injective (hu.trans hu'.symm)
  clear hu hu'
  induction evs with
  | nil => exact absurd hmem List.not_mem_nil
  | cons ev evs ih =>
    obtain ⟨hev, hlaw⟩ := hlaw
    rcases List.mem_cons.1 hmem with rfl | hold
    · rcases List.mem_cons.1 hmem' with heq | hold'
      · cases heq
        rfl
      · exact absurd hold' (hev t')
    · rcases List.mem_cons.1 hmem' with rfl | hold'
      · exact absurd hold (hev t)
      · exact ih hlaw hold hold'

/-- The law of an event of the history. -/
theorem lawful_of_mem (hlaw : Throughout Lawful evs) {ev : Event (calling hash)} (h : ev ∈ evs) :
    ∃ later earlier, evs = later ++ ev :: earlier ∧ Lawful earlier ev := by
  obtain ⟨later, earlier, rfl⟩ := List.append_of_mem h
  exact ⟨later, earlier, rfl, (throughout_iff _).1 hlaw later ev earlier rfl⟩

theorem drew_of_insert (hlaw : Throughout Lawful evs) {t : Tid} {rid : String} {q : QuoromState}
    (h : .did t (.insertInFlight rid q) () ∈ evs) : Drew evs t rid := by
  obtain ⟨later, earlier, rfl, hdrew, -⟩ := lawful_of_mem hlaw h
  exact hdrew.mono (List.subset_append_of_subset_right _ (List.subset_cons_self _ _))

theorem drew_of_remove (hlaw : Throughout Lawful evs) {t : Tid} {rid : String}
    {a : Option QuoromState} (h : .did t (.removeInFlight rid) a ∈ evs) : Drew evs t rid := by
  obtain ⟨later, earlier, rfl, hdrew, -⟩ := lawful_of_mem hlaw h
  exact hdrew.mono (List.subset_append_of_subset_right _ (List.subset_cons_self _ _))

/-- An id is put in flight at most once. -/
theorem openings_le_one (hlaw : Throughout Lawful evs) (u : Uuid) (rid : String) :
    openings rid (actions u evs) ≤ 1 := by
  induction evs with
  | nil => exact Nat.zero_le 1
  | cons ev evs ih =>
    have ih := ih hlaw.2
    cases ev with
    | ended t => exact ih
    | arrived e => exact ih
    | did t o a =>
      rw [actions_did, openings_append]
      split
      · cases o with
        | insertInFlight r q =>
          simp only [actionOf, Option.toList_some, openings]
          split
          · rename_i hr
            subst hr
            have hnone : openings r (actions u evs) = 0 := by
              refine openings_eq_zero fun q' h => ?_
              obtain ⟨t', -, h⟩ := mem_actions_opens h
              exact hlaw.1.2 t' q' h
            omega
          · simpa using ih
        | _ => simpa [actionOf, openings] using ih
      · simpa [openings] using ih

end Lawful

section Did

variable {evs : List (Event (calling hash))} {gs : Tid → Naming} {w : World hash} {t : Tid} {o : Op}
  {c : Choice} {a : Ans o}

theorem lawful_did (hex : Exact evs gs w) (hallow : naming.allow t (gs t) o)
    (ha : answer t o c w = some a) : Lawful evs (.did t o a) := by
  have hnames := hex.names t
  cases o with
  | newUuid => exact fun t' h => newUuid_fresh ha (hex.drawn t' a h)
  | insertInFlight rid q =>
    rw [hallow.1] at hnames
    exact hnames
  | await rid =>
    rw [show gs t = .used rid from hallow] at hnames
    refine ⟨hnames, fun hb => ?_⟩
    subst hb
    rw [← (hex.tabulated t.peer rid).2]
    exact List.count_pos_iff.2 (fired_of_await ha)
  | removeInFlight rid =>
    rw [show gs t = .used rid from hallow] at hnames
    refine ⟨hnames, ?_⟩
    rw [← (hex.tabulated t.peer rid).1]
    exact (Option.some.inj ha).symm
  | _ => trivial

theorem names_did (hex : Exact evs gs w) (hallow : naming.allow t (gs t) o)
    (ha : answer t o c w = some a) (t' : Tid) :
    HoldsName (.did t o a :: evs) t' (Function.update gs t (naming.next t (gs t) o a) t') := by
  have hcons : ∀ {t' rid}, Drew evs t' rid → Drew (.did t o a :: evs) t' rid :=
    fun h => h.mono (List.subset_cons_self _ _)
  -- the id of another task is not put in flight in this step
  have hkeep : (∀ q rid, gs t' = .named rid → o ≠ .insertInFlight rid q) →
      HoldsName (.did t o a :: evs) t' (gs t') := by
    intro hne
    have hnames := hex.names t'
    generalize hg : gs t' = g at hnames
    cases g with
    | idle => trivial
    | used rid => exact hcons hnames
    | named rid =>
      refine ⟨hcons hnames.1, fun t'' q h => ?_⟩
      rcases List.mem_cons.1 h with heq | h
      · cases heq
        exact hne q rid hg rfl
      · exact hnames.2 t'' q h
  by_cases ht : t' = t
  · subst ht
    rw [Function.update_self]
    cases o with
    | newUuid =>
      refine ⟨⟨a, rfl, List.mem_cons_self⟩, fun t'' q h => ?_⟩
      rcases List.mem_cons.1 h with heq | h
      · cases heq
      · obtain ⟨u, hu, hmem⟩ := drew_of_insert hex.lawful h
        rw [Uuid.toString_injective hu] at hmem
        exact newUuid_fresh ha (hex.drawn t'' _ hmem)
    | insertInFlight rid q =>
      have hnames := hex.names t'
      rw [hallow.1] at hnames
      exact hcons hnames.1
    | _ => exact hkeep fun q rid _ => nofun
  · rw [Function.update_of_ne ht]
    refine hkeep fun q rid hg ho => ht ?_
    subst ho
    have hnames := hex.names t'
    have hnames' := hex.names t
    rw [hg] at hnames
    rw [hallow.1] at hnames'
    exact hnames.1.unique hex.lawful hnames'.1

theorem exact_did (hex : Exact evs gs w) (hallow : naming.allow t (gs t) o)
    (ha : answer t o c w = some a) :
    Exact (.did t o a :: evs) (Function.update gs t (naming.next t (gs t) o a)) (effect t o a w) := by
  refine ⟨tabulated_effect hex.tabulated t o a ?fresh, fun t' u h => ?_, names_did hex hallow ha,
    lawful_did hex hallow ha, hex.lawful⟩
  case fresh =>
    rintro r q rfl
    exact hallow.2
  · rw [drawn_effect]
    rcases List.mem_cons.1 h with heq | h
    · cases heq
      exact List.mem_append_left _ (List.mem_singleton_self _)
    · exact List.mem_append_right _ (hex.drawn t' u h)

end Did

/-- A task that ends or starts has no id. -/
theorem names_other {evs : List (Event (calling hash))} {gs : Tid → Naming} {w : World hash}
    (hex : Exact evs gs w) {ev : Event (calling hash)} (hev : ∀ t o a, ev ≠ .did t o a) (t t' : Tid) :
    HoldsName (ev :: evs) t' (Function.update gs t .idle t') := by
  by_cases ht : t' = t
  · subst ht
    rw [Function.update_self]
    trivial
  · rw [Function.update_of_ne ht]
    have hnames := hex.names t'
    generalize gs t' = g at hnames
    cases g with
    | idle => trivial
    | used rid => exact hnames.mono (List.subset_cons_self _ _)
    | named rid =>
      exact ⟨hnames.1.mono (List.subset_cons_self _ _),
        fun t'' q h => hnames.2 t'' q (mem_of_other hev h)⟩

/-- **The laws hold in every run.** -/
theorem exact_run {D : Discipline (calling hash)} {w₀ : World hash}
    (hinFlight : ∀ u, (w₀.node u).inFlight = ∅) (hfired : ∀ u, (w₀.node u).fired = [])
    {evs : List (Event (calling hash))} {c : Config (calling hash)}
    (hrun : Run (calling hash) D (quiet w₀) evs c) : ∃ gs, Exact evs gs c.state := by
  have hsound := Run.sound naming .idle (fun _ _ => True) Exact ?did ?ended ?arrived ?started ?init hrun
  · obtain ⟨gs, hex, -⟩ := hsound
    exact ⟨gs, hex⟩
  case did =>
    rintro evs gs w t o c a w' hex hallow hact -
    obtain ⟨ha, rfl⟩ := act_eq hact
    exact ⟨trivial, exact_did hex hallow ha⟩
  case ended =>
    rintro evs gs w t hex -
    exact ⟨hex.tabulated, fun t' u h => hex.drawn t' u (mem_of_other (ended_ne_did t) h),
      fun t' => names_other hex (ended_ne_did t) t t', trivial, hex.lawful⟩
  case arrived =>
    rintro evs gs w e w' - harr -
    cases harr
  case started =>
    rintro evs gs w e t p w' hex harr - -
    cases harr
    exact ⟨.idle, naming_code _ _, hex.tabulated,
      fun t' u h => hex.drawn t' u (mem_of_other (arrived_ne_did e) h),
      fun t' => names_other hex (arrived_ne_did e) e.1 t', trivial, hex.lawful⟩
  case init =>
    refine ⟨fun u rid => ⟨?_, ?_⟩, fun t u h => absurd h List.not_mem_nil, fun t => trivial, trivial⟩
    · rw [hinFlight]
      exact FinMap.find?_empty rid
    · rw [hfired]
      rfl

/-! ## What a request does -/

/-- The trace of a request with the id `u` and the state `q`: what it sends lies between putting the
state in flight and waiting, which `b` is the answer to, and `a` is the state that it takes out. -/
def requestTrace (u : Uuid) (q : QuoromState) (sending : Trace) (b : Bool) (a : Option QuoromState) :
    Trace :=
  [⟨.newUuid, u⟩, ⟨.lock .inFlight, ()⟩] ++ ⟨.insertInFlight u.toString q, ()⟩ ::
    (⟨.unlock .inFlight, ()⟩ :: sending ++ ⟨.await u.toString, b⟩ ::
      ([⟨.lock .inFlight, ()⟩] ++ ⟨.removeInFlight u.toString, a⟩ :: [⟨.unlock .inFlight, ()⟩]))

theorem ends_sendReplicate {list : ShoppingList} {replicas : List Uuid} {write : Bool} {tr : Trace}
    {r : Bool} (h : (sendReplicate list replicas write).Ends tr r) :
    ∃ u sending a, tr = requestTrace u
        ⟨if write then WRITE_NODES else READ_NODES, 0, true, [list]⟩ sending r a ∧
      ∀ e ∈ sending, Network e.1 := by
  obtain ⟨tr₁, u, _, rfl, hdraw, hrest⟩ := Prog.ends_bind h
  obtain ⟨tr₂, _, tr₃, rfl, hinsert, hrest⟩ := Prog.ends_bind hrest
  rw [ends_perform hdraw, ends_read hinsert]
  split at hrest
  · obtain ⟨a, -⟩ := Prog.ends_op hrest
    exact a.elim
  · obtain ⟨sending, _, tr₄, rfl, hsending, hrest⟩ := Prog.ends_bind hrest
    obtain ⟨tr₅, b, _, rfl, hawait, hrest⟩ := Prog.ends_bind hrest
    obtain ⟨tr₆, a, tr₇, rfl, hremove, hend⟩ := Prog.ends_bind hrest
    obtain ⟨rfl, rfl⟩ := Prog.ends_pure hend
    rw [ends_perform hawait, ends_read hremove]
    exact ⟨u, sending, a, rfl, (network_replicateTo _ _ _ _ _).ends hsending⟩

theorem ends_sendReadReplicate {list : ShoppingList} {replicas : List Uuid} {tr : Trace}
    {r : Option ShoppingList} (h : (sendReadReplicate list replicas).Ends tr r) :
    ∃ u sending b a, tr = requestTrace u ⟨READ_NODES, 0, true, [list]⟩ sending b a ∧
      (∀ e ∈ sending, Network e.1) ∧ r = if b then a.bind QuoromState.mergeLists else none := by
  obtain ⟨tr₁, u, _, rfl, hdraw, hrest⟩ := Prog.ends_bind h
  obtain ⟨tr₂, _, tr₃, rfl, hinsert, hrest⟩ := Prog.ends_bind hrest
  rw [ends_perform hdraw, ends_read hinsert]
  obtain ⟨sending, _, tr₄, rfl, hsending, hrest⟩ := Prog.ends_bind hrest
  obtain ⟨tr₅, b, _, rfl, hawait, hrest⟩ := Prog.ends_bind hrest
  obtain ⟨tr₆, a, tr₇, rfl, hremove, hend⟩ := Prog.ends_bind hrest
  refine ⟨u, sending, b, a, ?_, (network_sendEach _ _).ends hsending, ?_⟩
  · rw [ends_perform hawait, ends_read hremove]
    cases b <;> obtain ⟨rfl, -⟩ := Prog.ends_pure hend <;> rfl
  · cases b <;> exact (Prog.ends_pure hend).2

/-! ## From a request's start to its end -/

section Windows

variable {evs later during before : List (Event (calling hash))} {t : Tid} {rid : String}
  {q : QuoromState}

theorem actions_insert (evs : List (Event (calling hash))) :
    actions t.peer (.did t (.insertInFlight rid q) () :: evs) = .opens rid q :: actions t.peer evs := by
  rw [actions_did, if_pos rfl]
  rfl

theorem actions_await (t : Tid) (rid : String) (b : Bool) (evs : List (Event (calling hash)))
    (u : Uuid) : actions u (.did t (.await rid) b :: evs) = actions u evs := by
  rw [actions_did]
  split <;> rfl

theorem openings_actions (h : ∀ t q, .did t (.insertInFlight rid q) () ∉ evs) (u : Uuid) :
    openings rid (actions u evs) = 0 := by
  refine openings_eq_zero fun q hmem => ?_
  obtain ⟨t, -, hmem⟩ := mem_actions_opens hmem
  exact h t q hmem

/-- What is put in flight was not in flight before, and is not put in flight again. -/
theorem inserted_once (hlaw : Throughout Lawful evs)
    (hevs : evs = later ++ .did t (.insertInFlight rid q) () :: before) :
    (∀ t' q', .did t' (.insertInFlight rid q') () ∉ later) ∧
      ∀ t' q', .did t' (.insertInFlight rid q') () ∉ before := by
  refine ⟨fun t' q' h => ?_, ((throughout_iff _).1 hlaw _ _ _ hevs).2⟩
  obtain ⟨x, y, rfl⟩ := List.append_of_mem h
  obtain ⟨-, hnone⟩ := (throughout_iff _).1 hlaw x (.did t' (.insertInFlight rid q') ())
    (y ++ .did t (.insertInFlight rid q) () :: before) (by rw [hevs, List.append_assoc]; rfl)
  exact hnone t q (List.mem_append_right _ List.mem_cons_self)

/-- Nobody but the task that put the request in flight takes it out. -/
theorem untouched_during (hlaw : Throughout Lawful evs)
    (hevs : evs = later ++ (during ++ .did t (.insertInFlight rid q) () :: before))
    (hstays : ∀ a, .did t (.removeInFlight rid) a ∉ during) (u : Uuid) :
    Untouched rid (actions u during) := by
  have hsplit : evs = (later ++ during) ++ .did t (.insertInFlight rid q) () :: before := by
    rw [hevs, List.append_assoc]
  have hdrew : Drew evs t rid :=
    drew_of_insert hlaw (by rw [hsplit]; exact List.mem_append_right _ List.mem_cons_self)
  intro act hact
  refine ⟨?_, ?_⟩
  · rintro q' rfl
    obtain ⟨t', -, h⟩ := mem_actions_opens hact
    exact (inserted_once hlaw hsplit).1 t' q' (List.mem_append_right _ h)
  · rintro rfl
    obtain ⟨t', a', -, h⟩ := mem_actions_closes hact
    have hmem : .did t' (.removeInFlight rid) a' ∈ evs := by
      rw [hsplit]
      exact List.mem_append_left _ (List.mem_append_right _ h)
    obtain rfl := (drew_of_remove hlaw hmem).unique hlaw hdrew
    exact hstays a' h

/-- **A request in flight has collected the answers with its own id** since it was put there. -/
theorem pending_during (hlaw : Throughout Lawful evs)
    (hevs : evs = later ++ (during ++ .did t (.insertInFlight rid q) () :: before))
    (hstays : ∀ a, .did t (.removeInFlight rid) a ∉ during) :
    pending rid (actions t.peer (during ++ .did t (.insertInFlight rid q) () :: before)) =
      some (q, answersTo rid (actions t.peer during)) := by
  rw [actions_append, actions_insert]
  exact pending_open (untouched_during hlaw hevs hstays t.peer)

/-- **A request waits successfully only when it has the answers that it needs.** -/
theorem needed_le_of_await (hlaw : Throughout Lawful evs)
    (hevs : evs = later ++ .did t (.await rid) true ::
      (during ++ .did t (.insertInFlight rid q) () :: before))
    (hstays : ∀ a, .did t (.removeInFlight rid) a ∉ during) (hq : 0 < q.needed) :
    q.needed ≤ (answersTo rid (actions t.peer during)).length := by
  have hsplit : evs = (later ++ [.did t (.await rid) true]) ++
      (during ++ .did t (.insertInFlight rid q) () :: before) := by rw [hevs, List.append_assoc]; rfl
  have hsplit' : evs = (later ++ .did t (.await rid) true :: during) ++
      .did t (.insertInFlight rid q) () :: before := by rw [hevs, List.append_assoc]; rfl
  have hnone := (inserted_once hlaw hsplit').2
  have hpos := ((throughout_iff _).1 hlaw _ _ _ hevs).2 rfl
  rw [actions_append, actions_insert, triggers_open hq (untouched_during hlaw hsplit hstays t.peer),
    triggers_unopened (openings_actions hnone t.peer), Nat.zero_add] at hpos
  split at hpos
  · assumption
  · exact absurd hpos (lt_irrefl 0)

end Windows

/-- **From its start to its end a request is in flight once**: it takes out what it has collected, it
has waited successfully only when that was enough, and it is not in flight afterwards. -/
theorem request_of_trace {evs later since before : List (Event (calling hash))}
    {ev : Event (calling hash)} (hlaw : Throughout Lawful evs)
    (hevs : evs = later ++ (since ++ ev :: before)) {t : Tid} {u : Uuid} {q : QuoromState}
    {sending : Trace} {b : Bool} {a : Option QuoromState}
    (htr : opsOf t since = requestTrace u q sending b a) (hsending : ∀ e ∈ sending, Network e.1)
    (hq : 0 < q.needed) :
    ∃ after during earlier, evs = after ++ .did t (.removeInFlight u.toString) a ::
        (during ++ .did t (.insertInFlight u.toString q) () :: earlier) ∧
      a = some (tracked (q, answersTo u.toString (actions t.peer during))) ∧
      (b = true → q.needed ≤ (answersTo u.toString (actions t.peer during)).length) ∧
      pending u.toString (actions t.peer evs) = none := by
  -- the steps of the request cut its history into pieces
  obtain ⟨s, s₀, rfl, -, hs⟩ := opsOf_split htr
  have hs : opsOf t s = (⟨.unlock .inFlight, ()⟩ :: sending ++
      [⟨.await u.toString, b⟩, ⟨.lock .inFlight, ()⟩]) ++
        ⟨.removeInFlight u.toString, a⟩ :: [⟨.unlock .inFlight, ()⟩] := by
    rw [hs]
    simp
  obtain ⟨s₃, during, rfl, hduring, -⟩ := opsOf_split hs
  have hwaits : opsOf t during = (⟨.unlock .inFlight, ()⟩ :: sending) ++
      ⟨.await u.toString, b⟩ :: [⟨.lock .inFlight, ()⟩] := hduring
  obtain ⟨s₂, s₁, hsplit, -, -⟩ := opsOf_split hwaits
  have hown : ∀ a', .did t (.removeInFlight u.toString) a' ∉ during := by
    intro a' h
    have hop := mem_opsOf h
    rw [hduring] at hop
    simp only [List.cons_append, List.mem_cons, List.mem_append, List.not_mem_nil, or_false] at hop
    rcases hop with hop | hop | hop | hop
    · cases hop
    · exact hsending _ hop
    · cases hop
    · cases hop
  have hremove : evs = (later ++ s₃) ++ .did t (.removeInFlight u.toString) a ::
      (during ++ .did t (.insertInFlight u.toString q) () :: (s₀ ++ ev :: before)) := by
    rw [hevs]
    simp
  have hwindow : evs = ((later ++ s₃) ++ [.did t (.removeInFlight u.toString) a]) ++
      (during ++ .did t (.insertInFlight u.toString q) () :: (s₀ ++ ev :: before)) := by
    rw [hremove]
    simp
  refine ⟨later ++ s₃, during, s₀ ++ ev :: before, hremove, ?_, ?_, ?_⟩
  · rw [((throughout_iff _).1 hlaw _ _ _ hremove).2, pending_during hlaw hwindow hown]
    rfl
  · rintro rfl
    have hawait : evs = ((later ++ s₃) ++ .did t (.removeInFlight u.toString) a :: s₂) ++
        .did t (.await u.toString) true ::
          (s₁ ++ .did t (.insertInFlight u.toString q) () :: (s₀ ++ ev :: before)) := by
      rw [hremove, hsplit]
      simp
    have hle := needed_le_of_await hlaw hawait
      (fun a' h => hown a' (by rw [hsplit]; exact List.mem_append_right _ (List.mem_cons_of_mem _ h))) hq
    refine hle.trans ?_
    rw [hsplit, actions_append, actions_await, answersTo_append, List.length_append]
    exact Nat.le_add_right _ _
  · have hinsert : evs = ((later ++ s₃) ++ .did t (.removeInFlight u.toString) a :: during) ++
        .did t (.insertInFlight u.toString q) () :: (s₀ ++ ev :: before) := by
      rw [hremove]
      simp
    have hnone := (inserted_once hlaw hinsert).1
    rw [hremove, actions_append, actions_did, if_pos rfl]
    exact pending_closed (openings_actions (fun t' q' h => hnone t' q' (List.mem_append_left _ h)) t.peer)

/-! ## The list that a read returns -/

/-- **The merged list does not depend on the order** in which the lists came: it shows what any way to
merge them gives. -/
theorem mergeLists_view {q : QuoromState} {s : ShoppingList} (h : q.mergeLists = some s)
    (hagree : AWORMap.RegistersAgree {m | ∃ x ∈ q.lists, x.list = m}) (e : Merging AWORMap)
    (he : e.states = {m | ∃ x ∈ q.lists, x.list = m}) :
    s.list.view = (e.result AWORMap.merge).view := by
  unfold QuoromState.mergeLists at h
  split at h
  · cases h
  rename_i l ls hlists
  cases h
  have hfold : ∀ (ls : List ShoppingList) (l : ShoppingList),
      (ls.foldl (fun merged l => { merged with list := merged.list.merge l.list }) l).list =
        (ls.map ShoppingList.list).foldl AWORMap.merge l.list := by
    intro ls
    induction ls with
    | nil => exact fun l => rfl
    | cons x ls ih => exact fun l => ih _
  have hstates : (Merging.ofList l.list (ls.map ShoppingList.list)).states = e.states := by
    rw [he, Merging.states_ofList, hlists]
    ext m
    simp [eq_comm]
  rw [hfold, ← Merging.result_ofList]
  exact AWORMap.view_result hagree _ e (hstates.trans he).subset hstates

/-! ## Requests in flight -/

/-- The answers with this id that a peer has handled, each with the list in it. -/
def answersIn (u : Uuid) (rid : String) (evs : List (Event (calling hash))) :
    List (List ShoppingList) := answersTo rid (actions u evs)

/-- A task has been started with a call, and what it has done since is an execution of the call's
request that returns `r`. -/
def Returned {α : Type} (evs : List (Event (calling hash))) (t : Tid) (call : Call) (request : Code α)
    (r : α) : Prop :=
  ∃ later since before : List (Event (calling hash)),
    evs = later ++ (since ++ .arrived (t, call) :: before) ∧
      request.Ends (opsOf t since) r

/-- The task has put `q` in flight under the id and taken it out again; `during` is what has happened
in between. -/
def InFlightDuring (evs : List (Event (calling hash))) (t : Tid) (rid : String) (q : QuoromState)
    (during : List (Event (calling hash))) : Prop :=
  ∃ later a before, evs = later ++ .did t (.removeInFlight rid) a ::
    (during ++ .did t (.insertInFlight rid q) () :: before)

/-- **Requests in flight are tracked exactly.** -/
theorem in_flight_exact {D : Discipline (calling hash)} {w₀ : World hash}
    (hinFlight : ∀ u, (w₀.node u).inFlight = ∅) (hfired : ∀ u, (w₀.node u).fired = [])
    {evs : List (Event (calling hash))} {c : Config (calling hash)}
    (hrun : Run (calling hash) D (quiet w₀) evs c) :
    -- a responder fires at most once
    (∀ u rid, (c.state.node u).fired.count rid ≤ 1) ∧
      -- a request in flight has collected the answers with its own id
      (∀ t rid q during before, evs = during ++ .did t (.insertInFlight rid q) () :: before →
        (∀ a, .did t (.removeInFlight rid) a ∉ during) →
        (c.state.node t.peer).inFlight.find? rid =
          some (tracked (q, answersIn t.peer rid during))) ∧
      -- an answer with another id leaves it as it is
      (∀ t o (a : Ans o) r, (o = .ack r ∨ ∃ l, o = .ackList r l) → ∀ u rid, rid ≠ r →
        ((effect t o a c.state).node u).inFlight.find? rid =
          (c.state.node u).inFlight.find? rid) ∧
      -- `send_replicate`
      (∀ t list replicas write r, Returned evs t (.replicate list replicas write)
        (sendReplicate list replicas write) r →
        ∃ rid during,
          InFlightDuring evs t rid ⟨if write then WRITE_NODES else READ_NODES, 0, true, [list]⟩ during ∧
          (c.state.node t.peer).inFlight.find? rid = none ∧
          (r = true → (if write then WRITE_NODES else READ_NODES) ≤
            (answersIn t.peer rid during).length)) ∧
      -- `send_read_replicate`
      ∀ t list replicas r, Returned evs t (.readReplicate list replicas)
        (sendReadReplicate list replicas) r →
        ∃ rid during, InFlightDuring evs t rid ⟨READ_NODES, 0, true, [list]⟩ during ∧
          (c.state.node t.peer).inFlight.find? rid = none ∧
          ∀ s, r = some s → READ_NODES ≤ (answersIn t.peer rid during).length ∧ s.id = list.id ∧
            ∀ S : Set AWORMap,
              S = {m | ∃ x ∈ list :: (answersIn t.peer rid during).flatten, x.list = m} →
              AWORMap.RegistersAgree S → ∀ e : Merging AWORMap, e.states = S →
                s.list.view = (e.result AWORMap.merge).view := by
  obtain ⟨gs, hex⟩ := exact_run hinFlight hfired hrun
  have hfind : ∀ u rid, (c.state.node u).inFlight.find? rid = (pending rid (actions u evs)).map tracked :=
    fun u rid => (hex.tabulated u rid).1
  refine ⟨fun u rid => ?_, fun t rid q during before hevs hstays => ?_,
    fun t o a r ho u rid hne => ?_, fun t list replicas write r h => ?_,
    fun t list replicas r h => ?_⟩
  · rw [(hex.tabulated u rid).2]
    exact (triggers_le_openings rid _).trans (openings_le_one hex.lawful u rid)
  · have hall : evs = [] ++ (during ++ .did t (.insertInFlight rid q) () :: before) := hevs
    rw [hfind, hevs, pending_during hex.lawful hall hstays]
    rfl
  · have hfresh : ∀ r q, o ≠ .insertInFlight r q := by
      rintro r q rfl
      rcases ho with ho | ⟨l, ho⟩ <;> cases ho
    have hafter := (tabulated_effect hex.tabulated t o a (fun r q h => absurd h (hfresh r q)) u rid).1
    rw [hafter, hfind, actions_did]
    split
    · rcases ho with rfl | ⟨l, rfl⟩ <;> simp [actionOf, pending, Ne.symm hne]
    · rfl
  · obtain ⟨later, since, before, hevs, hends⟩ := h
    obtain ⟨u, sending, a, htr, hsending⟩ := ends_sendReplicate hends
    obtain ⟨after, during, earlier, hsplit, -, hle, hnone⟩ := request_of_trace hex.lawful hevs htr hsending
      (by cases write <;> exact Nat.two_pos)
    refine ⟨u.toString, during, ⟨after, a, earlier, hsplit⟩, ?_, hle⟩
    rw [hfind, hnone]
    rfl
  · obtain ⟨later, since, before, hevs, hends⟩ := h
    obtain ⟨u, sending, b, a, htr, hsending, hr⟩ := ends_sendReadReplicate hends
    obtain ⟨after, during, earlier, hsplit, ha, hle, hnone⟩ := request_of_trace hex.lawful hevs htr
      hsending Nat.two_pos
    refine ⟨u.toString, during, ⟨after, a, earlier, hsplit⟩, ?_, fun s hs => ?_⟩
    · rw [hfind, hnone]
      rfl
    · subst hr
      rw [ha] at hs
      cases b with
      | false => cases hs
      | true =>
        have hmerge : (tracked (⟨READ_NODES, 0, true, [list]⟩,
            answersTo u.toString (actions t.peer during))).mergeLists = some s := hs
        refine ⟨hle rfl, ?_, ?_⟩
        · unfold QuoromState.mergeLists at hmerge
          cases hmerge
          exact QuoromState.id_foldl_merge _ _
        · rintro S rfl hagree e he
          exact mergeLists_view hmerge hagree e he

/-- Turns of a task that nothing goes wrong in, beside calls. -/
def callTurns (t : Tid) (n : ℕ) : List (Move (calling md5)) := List.replicate n (.turn t .yes)

/-- Server 1 reads a list from the servers 3 and 2.  Their answers come with the answer to another
request in between. -/
def readMilk (l l₃ l₂ : ShoppingList) : List (Move (calling md5)) :=
  .arrive (.proxied (.ofTail 1), .readReplicate l [.ofTail 3, .ofTail 2]) ::
  .turn (.proxied (.ofTail 1)) (.uuid (.ofTail 301)) :: callTurns (.proxied (.ofTail 1)) 29 ++
  .arrive (.incoming (.ofTail 1) 1, .incoming (.ofTail 3) (.ackList (Uuid.ofTail 301).toString l₃)) ::
  callTurns (.incoming (.ofTail 1) 1) 3 ++
  .arrive (.incoming (.ofTail 1) 2, .incoming (.ofTail 2) (.ack (Uuid.ofTail 302).toString)) ::
  callTurns (.incoming (.ofTail 1) 2) 3 ++
  .arrive (.incoming (.ofTail 1) 3, .incoming (.ofTail 2) (.ackList (Uuid.ofTail 301).toString l₂)) ::
  callTurns (.incoming (.ofTail 1) 3) 3 ++ callTurns (.proxied (.ofTail 1)) 4

/-- The list with an item that is wanted, and with the item bought. -/
def listWanted : ShoppingList := ⟨.ofTail 101, .milkWanted⟩
def listBought : ShoppingList := ⟨.ofTail 101, .milkBought⟩

/-- The first event starts this read. -/
def startsRead (t : Tid) (l : ShoppingList) (replicas : List Uuid) : Event (calling md5) → Bool
  | .arrived (t', call) => decide (t' = t ∧ call = .readReplicate l replicas)
  | _ => false

theorem in_flight_exact_milk :
    ∃ evs c, Run (calling md5) (fun _ _ _ => True) (quiet threeServers) evs c ∧
      ∃ s, Returned evs (.proxied (.ofTail 1)) (.readReplicate listWanted [.ofTail 3, .ofTail 2])
        (sendReadReplicate listWanted [.ofTail 3, .ofTail 2]) (some s) ∧
      ∃ rid during,
        InFlightDuring evs (.proxied (.ofTail 1)) rid ⟨READ_NODES, 0, true, [listWanted]⟩ during ∧
        READ_NODES ≤ (answersIn (.ofTail 1) rid during).length ∧ s.id = .ofTail 101 := by
  obtain ⟨evs, c, hrun, hcheck⟩ := exists_run (D := fun _ _ _ => True) (fun _ _ _ => true)
    (fun _ _ _ _ => trivial) (quiet threeServers) (readMilk listWanted listBought listWanted)
    (fun evs _ => evs.getLast?.any (startsRead (.proxied (.ofTail 1)) listWanted [.ofTail 3, .ofTail 2])
      && (Prog.replay (sendReadReplicate listWanted [.ofTail 3, .ofTail 2])
        (opsOf (m := calling md5) (.proxied (.ofTail 1)) evs.dropLast)).any Option.isSome)
    (by decide +kernel)
  simp only [Bool.and_eq_true, Option.any_eq_true] at hcheck
  obtain ⟨⟨ev, hlast, hev⟩, r, hreplay, hr⟩ := hcheck
  obtain ⟨s, rfl⟩ := Option.isSome_iff_exists.1 hr
  have hsplit : evs = evs.dropLast ++ [ev] := (List.dropLast_append_getLast? ev hlast).symm
  unfold startsRead at hev
  split at hev
  · rename_i t call
    obtain ⟨rfl, rfl⟩ := of_decide_eq_true hev
    have hreturned : Returned evs (.proxied (.ofTail 1))
        (.readReplicate listWanted [.ofTail 3, .ofTail 2])
        (sendReadReplicate listWanted [.ofTail 3, .ofTail 2]) (some s) :=
      ⟨[], evs.dropLast, [], hsplit, Prog.ends_of_replay hreplay⟩
    obtain ⟨rid, during, hduring, -, hread⟩ :=
      (in_flight_exact (fun _ => rfl) (fun _ => rfl) hrun).2.2.2.2 _ _ _ _ hreturned
    obtain ⟨hle, hid, -⟩ := hread s rfl
    exact ⟨evs, c, hrun, s, hreturned, rid, during, hduring, hle, hid⟩
  · cases hev

end Sdle
