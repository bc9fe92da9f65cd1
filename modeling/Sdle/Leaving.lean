import Sdle.Membership

/-!
# Leaving the cluster (`server.rs`)

A peer that leaves takes itself off its ring and sends every list that it stores to the first server
of the list's new preference list.  It keeps the guards of the ring and the storage to the end, so
that no other task comes between.

* `sent_leave` — what `leave` sends when every send succeeds: each row, to that server.
* `leave_keeps_degree_iff` — **when leaving keeps the replication degree**: when no list gets a new
  server, or the new one comes first.
-/

set_option autoImplicit false

namespace Sdle

open Tasks Peer HashRing

variable {hash : String → U128}

/-- Storage and sockets work, and no `send_to` gives a peer up as failed. -/
def Unfailing (tr : Trace) : Prop :=
  ∀ e ∈ tr, succeeds e.1 e.2 = true ∧ ∀ u, e.1 ≠ .markFailure u

instance (tr : Trace) : Decidable (Unfailing tr) :=
  decidable_of_iff (∀ e ∈ tr, succeeds e.1 e.2 = true ∧
      (match e.1 with | .markFailure _ => false | _ => true) = true) <| by
    refine forall₂_congr fun e _ => and_congr_right fun _ => ?_
    cases e.1 <;> simp

/-- The list has been sent to a server to be stored. -/
def SentTo (tr : Trace) (u : Uuid) (l : ShoppingList) : Prop :=
  ∃ id, (⟨.send u (.replicateList id l true), true⟩ : Sigma Peer.Ans) ∈ tr

theorem sentTo_append {tr₁ tr₂ : Trace} {u : Uuid} {l : ShoppingList} :
    SentTo (tr₁ ++ tr₂) u l ↔ SentTo tr₁ u l ∨ SentTo tr₂ u l := by
  unfold SentTo
  rw [← exists_or]
  exact exists_congr fun id => List.mem_append

theorem sentTo_cons {o : Op} {a : Ans o} {tr : Trace} {u : Uuid} {l : ShoppingList}
    (ho : ∀ v m, o ≠ .send v m) : SentTo (⟨o, a⟩ :: tr) u l ↔ SentTo tr u l := by
  refine exists_congr fun id => ?_
  rw [List.mem_cons]
  refine or_iff_right fun heq => ?_
  cases heq
  exact ho _ _ rfl

theorem not_sentTo_nil (u : Uuid) (l : ShoppingList) : ¬ SentTo [] u l := by
  rintro ⟨id, hmem⟩
  cases hmem

theorem Unfailing.of_cons {e : Sigma Peer.Ans} {tr : Trace} (h : Unfailing (e :: tr)) :
    Unfailing tr :=
  fun e he => h e (List.mem_cons_of_mem _ he)

theorem Unfailing.of_append {tr₁ tr₂ : Trace} (h : Unfailing (tr₁ ++ tr₂)) :
    Unfailing tr₁ ∧ Unfailing tr₂ :=
  ⟨fun e he => h e (List.mem_append_left _ he), fun e he => h e (List.mem_append_right _ he)⟩

/-! ## Sending -/

/-- A `send_to` that gives nobody up has sent its message. -/
theorem ends_sendTo {u : Uuid} {msg : Msg} {tr : Trace} {b : Bool} (h : (sendTo u msg).Ends tr b)
    (hok : Unfailing tr) : (⟨.send u msg, true⟩ : Sigma Peer.Ans) ∈ tr := by
  have hmark : ∀ {α : Type} {f : Unit → Code α} {tr : Trace} {a : α},
      (markPeerFailed u >>= f).Ends tr a → Unfailing tr → False := by
    intro α f tr a h hok
    obtain ⟨tr₁, _, tr₂, rfl, hmarked, -⟩ := Prog.ends_bind h
    rw [ends_read hmarked] at hok
    exact (hok.of_append.1 ⟨.markFailure u, ()⟩ (by simp)).2 u rfl
  obtain ⟨tr₁, connected, tr₂, rfl, hconnect, hrest⟩ := Prog.ends_bind h
  cases connected with
  | false => exact (hmark hrest hok.of_append.2).elim
  | true =>
    obtain ⟨tr₃, ready, tr₄, rfl, hready, hrest⟩ := Prog.ends_bind hrest
    cases ready with
    | false => exact (hmark hrest hok.of_append.2.of_append.2).elim
    | true =>
      obtain ⟨tr₅, sent, tr₆, rfl, hsend, hrest⟩ := Prog.ends_bind hrest
      cases sent with
      | false => exact (hmark hrest hok.of_append.2.of_append.2.of_append.2).elim
      | true =>
        rw [ends_perform hsend]
        simp

/-- However often it is tried, only the message is sent. -/
theorem sends_sendRetrying (u : Uuid) (msg : Msg) :
    ∀ n : ℕ, (sendRetrying u msg n).Only (Sends u msg)
  | 0 => only_pure _
  | n + 1 => Prog.only_bind (sends_sendTo u msg) fun _ =>
      only_ite (only_pure _) (sends_sendRetrying u msg n)

theorem sentTo_sendRetrying {u : Uuid} {l : ShoppingList} {n : ℕ} {tr : Trace}
    (h : (sendRetrying u (.replicateList "" l true) (n + 1)).Ends tr ()) (hok : Unfailing tr)
    (v : Uuid) (l' : ShoppingList) : SentTo tr v l' ↔ v = u ∧ l' = l := by
  constructor
  · rintro ⟨id, hmem⟩
    have hsends := (sends_sendRetrying u _ (n + 1)).ends h _ hmem
    obtain ⟨rfl, hmsg⟩ := hsends.2 v _ rfl
    cases hmsg
    exact ⟨rfl, rfl⟩
  · rintro ⟨rfl, rfl⟩
    obtain ⟨tr₁, sent, tr₂, rfl, hsend, -⟩ := Prog.ends_bind h
    exact ⟨"", List.mem_append_left _ (ends_sendTo hsend hok.of_append.1)⟩

/-! ## The rows -/

section Leave

variable {t : Tid} {w w' : World hash} {tr : Trace}

/-- An operation of sending leaves the peer's ring alone. -/
theorem hashring_of_routine {o : Op} (a : Ans o) (ho : Routine o) (w : World hash) :
    ((effect t o a w).node t.peer).hashring = (w.node t.peer).hashring := by
  rw [node_effect, if_pos rfl, hashring_after]
  cases o with
  | addNode u => exact ho.elim
  | removeNode u => exact ho.elim
  | _ => rfl

/-- **What the loop over the rows sends**: each list, to the first server of its preference list. -/
theorem sent_leaveRows {ring : HashRing} :
    ∀ {rows : List (U128 × ShoppingList)} {w : World hash} {tr : Trace},
      (w.node t.peer).hashring = ring → Prog.Does (cluster hash) t (leaveRows rows) w tr () w' →
      Unfailing tr → ∀ u l, SentTo tr u l ↔
        ∃ h, (h, l) ∈ rows ∧ (ring.getPreferenceListHash h).head? = some u
  | [], _, _, _, h, _, u, l => by
    obtain ⟨rfl, -⟩ := Prog.does_pure h
    refine iff_of_false (not_sentTo_nil u l) ?_
    rintro ⟨h, hmem, -⟩
    cases hmem
  | (h, list) :: rows, w, _, hring, hdoes, hok, u, l => by
    obtain ⟨read, tr₁, ⟨c, hanswer⟩, rfl, hrest⟩ := does_perform hdoes
    have hread : read = ring := (Option.some.inj hanswer).symm.trans hring
    subst hread
    have hring₁ : ((effect t .hashring read w).node t.peer).hashring = read :=
      (hashring_of_routine read trivial w).trans hring
    have hok₁ : Unfailing tr₁ := hok.of_cons
    rw [sentTo_cons (o := .hashring) nofun]
    cases hhead : (read.getPreferenceListHash h).head? with
    | none =>
      simp only [hhead] at hrest
      rw [sent_leaveRows hring₁ hrest hok₁ u l]
      refine exists_congr fun k => and_congr_left fun hk => ?_
      rw [List.mem_cons]
      refine (or_iff_right fun heq => ?_).symm
      cases heq
      rw [hhead] at hk
      cases hk
    | some first =>
      simp only [hhead] at hrest
      obtain ⟨tr₂, _, w₂, tr₃, rfl, hsend, hrows⟩ := Prog.does_bind hrest
      have hring₂ : (w₂.node t.peer).hashring = read :=
        Prog.Only.does (m := cluster hash) (t := t)
          (I := fun w : World hash => (w.node t.peer).hashring = read)
          (fun o c a w w' ho hw hact => by
            obtain ⟨-, rfl⟩ := act_eq hact
            exact (hashring_of_routine a ho.1 w).trans hw)
          (sends_sendRetrying first _ MAX_RETRIES) hsend hring₁
      rw [sentTo_append, sentTo_sendRetrying hsend.ends hok₁.of_append.1,
        sent_leaveRows hring₂ hrows hok₁.of_append.2 u l]
      constructor
      · rintro (⟨rfl, rfl⟩ | ⟨k, hk, hfirst⟩)
        · exact ⟨h, List.mem_cons_self, hhead⟩
        · exact ⟨k, List.mem_cons_of_mem _ hk, hfirst⟩
      · rintro ⟨k, hk, hfirst⟩
        rcases List.mem_cons.1 hk with heq | hk
        · cases heq
          rw [hhead] at hfirst
          exact Or.inl ⟨(Option.some.inj hfirst).symm, rfl⟩
        · exact Or.inr ⟨k, hk, hfirst⟩

/-- **What `leave` sends** when every send succeeds: each row, to the first server of its preference
list on the ring without the peer. -/
theorem sent_leave (h : Prog.Does (cluster hash) t (leave t.peer) w tr () w') (hok : Unfailing tr)
    (u : Uuid) (l : ShoppingList) :
    SentTo tr u l ↔ (w.node t.peer).storage.getShoppingList l.id = some l ∧
      ((w.node t.peer).hashring.removeNode hash t.peer).getCoordinator hash l.id = some u := by
  obtain ⟨tr₁, w₁, rfl, hbody, -⟩ := does_locked h
  obtain ⟨_, tr₂, -, rfl, hrest⟩ := does_perform hbody
  obtain ⟨tr₃, w₃, rfl, hguarded, -⟩ := does_locked hrest
  obtain ⟨answered, tr₄, ⟨c, hanswer⟩, rfl, hrows⟩ := does_perform hguarded
  have hok₃ := hok.of_cons.of_append.1.of_cons.of_cons.of_append.1
  cases answered with
  | none => exact absurd (hok₃ ⟨.getAllRows, none⟩ List.mem_cons_self).1 Bool.false_ne_true
  | some rows =>
    -- the storage is that of `w`, the ring has lost the peer
    have hstorage : rows = (w.node t.peer).storage.getAllRows := by
      have hread := Choice.attempt_eq_some hanswer
      simp only [storage_effect, if_pos, storageAfter] at hread
      exact hread.symm
    have hring : (((effect t .getAllRows (some rows) (effect t (.lock .storage) ()
        (effect t (.removeNode t.peer) () (effect t (.lock .hashring) () w)))).node t.peer).hashring) =
          (w.node t.peer).hashring.removeNode hash t.peer := by
      simp only [node_effect, if_pos, hashring_after, callOf, Option.elim, Change.apply]
    have hsent := sent_leaveRows hring hrows hok₃.of_cons u l
    rw [sentTo_cons (o := .lock .hashring) (by simp), sentTo_append,
      sentTo_cons (o := .removeNode t.peer) (by simp), sentTo_cons (o := .lock .storage) (by simp),
      sentTo_append, sentTo_cons (o := .getAllRows) (by simp), sentTo_cons (o := .unlock .storage) (by simp),
      sentTo_cons (o := .unlock .hashring) (by simp), hsent]
    simp only [not_sentTo_nil, or_false]
    rw [hstorage]
    simp only [ServerStorage.mem_getAllRows_iff]
    constructor
    · rintro ⟨k, ⟨rfl, hl⟩, hfirst⟩
      exact ⟨hl, hfirst⟩
    · rintro ⟨hl, hfirst⟩
      exact ⟨_, ⟨rfl, hl⟩, hfirst⟩

/-! ## The replication degree -/

/-- When the peer leaves, some server comes into the list's preference list, behind its first one. -/
def LosesCopy (n : Node hash) (peer : Uuid) (id : Uuid) : Prop :=
  ∃ u ∈ (n.hashring.removeNode hash peer).getPreferenceList hash id,
    u ∉ n.hashring.getPreferenceList hash id ∧
      (n.hashring.removeNode hash peer).getCoordinator hash id ≠ some u

instance (n : Node hash) (peer id : Uuid) : Decidable (LosesCopy n peer id) :=
  inferInstanceAs (Decidable (∃ u ∈ _, _))

/-- The vnodes of the peer on its ring are those that `add_node` puts there. -/
def OwnVnodes (hash : String → U128) (ring : HashRing) (peer : Uuid) : Prop :=
  ∀ h, ring.ring[h]? = some peer ↔ ∃ i < ring.virtualNodes, hash (vnodeKey peer i) = h

/-- A peer whose vnodes no other server has overwritten is taken off its ring. -/
theorem OwnVnodes.owners {ring : HashRing} {peer : Uuid} (h : OwnVnodes hash ring peer)
    (start : U128) : (ring.removeNode hash peer).owners start = (ring.owners start).erase peer := by
  have hback : (ring.removeNode hash peer).addNode hash peer = ring := by
    refine eq_of_getElem? rfl rfl fun k => ?_
    rw [getElem?_addNode, getElem?_removeNode]
    change (if ∃ i < ring.virtualNodes, _ then _ else _) = _
    split
    · rename_i hk
      exact ((h k).2 hk).symm
    · rfl
  have hout : peer ∉ (ring.removeNode hash peer).servers := by
    rw [mem_servers]
    rintro ⟨k, hk⟩
    rw [getElem?_removeNode] at hk
    split at hk
    · cases hk
    · rename_i hnot
      exact hnot ((h k).1 hk)
  have hfree : ∀ i < (ring.removeNode hash peer).virtualNodes,
      (ring.removeNode hash peer).ring[hash (vnodeKey peer i)]? = none := by
    intro i hi
    rw [getElem?_removeNode, if_pos ⟨i, hi, rfl⟩]
  rw [← owners_addNode hout hfree start, hback]

/-- A list loses a copy exactly when the peer is one of its servers and there is another one to come
in. -/
theorem losesCopy_iff {n : Node hash} {peer : Uuid} (hown : OwnVnodes hash n.hashring peer)
    (hr : 2 ≤ n.hashring.replicas) (id : Uuid) :
    LosesCopy n peer id ↔ peer ∈ n.hashring.getPreferenceList hash id ∧
      n.hashring.replicas < n.hashring.serverCount := by
  have hbefore := @getPreferenceList_eq hash n.hashring (by omega) id
  have hafter : (n.hashring.removeNode hash peer).getPreferenceList hash id =
      ((n.hashring.owners (hash id.toString)).erase peer).take n.hashring.replicas := by
    rw [← hown.owners]
    exact @getPreferenceList_eq hash (n.hashring.removeNode hash peer) (by change 1 ≤ n.hashring.replicas; omega) id
  have hnodup := nodup_owners n.hashring (hash id.toString)
  have hlen := length_owners n.hashring (hash id.toString)
  unfold LosesCopy HashRing.getCoordinator
  rw [hafter, hbefore]
  constructor
  · rintro ⟨u, hu, hnew, -⟩
    constructor
    · by_contra hout
      rw [Firsts.take_eq_of_not_mem hout] at hu
      exact hnew hu
    · by_contra hfew
      rw [List.take_of_length_le (l := n.hashring.owners _) (by omega)] at hnew
      exact hnew (List.mem_of_mem_erase (List.mem_of_mem_take hu))
  · rintro ⟨hmem, hmany⟩
    obtain ⟨u, hu, hnew, hfirst⟩ := Firsts.exists_mem_take_erase hnodup hmem (by omega) hr
    exact ⟨u, hu, hnew, hfirst⟩

/-- Every server that comes into the preference list of a list that the peer stores has been sent
the list. -/
def KeepsDegree (n : Node hash) (peer : Uuid) (tr : Trace) : Prop :=
  ∀ l, n.storage.getShoppingList l.id = some l →
    ∀ u ∈ (n.hashring.removeNode hash peer).getPreferenceList hash l.id,
      u ∉ n.hashring.getPreferenceList hash l.id → SentTo tr u l

/-- **When leaving keeps the replication degree**: exactly when no list that the peer stores gets a
new server behind its first one.  Where no other server has overwritten the peer's vnodes, that is
when the peer is on none of their preference lists, or the ring has no more servers than replicas. -/
theorem leave_keeps_degree_iff (h : Prog.Does (cluster hash) t (leave t.peer) w tr () w')
    (hok : Unfailing tr) :
    let n := w.node t.peer
    (KeepsDegree n t.peer tr ↔
      ∀ l, n.storage.getShoppingList l.id = some l → ¬ LosesCopy n t.peer l.id) ∧
    (OwnVnodes hash n.hashring t.peer → 2 ≤ n.hashring.replicas →
      (KeepsDegree n t.peer tr ↔ ∀ l, n.storage.getShoppingList l.id = some l →
        t.peer ∉ n.hashring.getPreferenceList hash l.id ∨
          n.hashring.serverCount ≤ n.hashring.replicas)) := by
  intro n
  have hkeeps : KeepsDegree n t.peer tr ↔
      ∀ l, n.storage.getShoppingList l.id = some l → ¬ LosesCopy n t.peer l.id := by
    refine forall₂_congr fun l hl => ⟨?_, fun hkept u hu hnew => ?_⟩
    · rintro hsent ⟨u, hu, hnew, hfirst⟩
      exact hfirst ((sent_leave h hok u l).1 (hsent u hu hnew)).2
    · refine (sent_leave h hok u l).2 ⟨hl, ?_⟩
      by_contra hfirst
      exact hkept ⟨u, hu, hnew, hfirst⟩
  refine ⟨hkeeps, fun hown hr => hkeeps.trans (forall₂_congr fun l _ => ?_)⟩
  rw [losesCopy_iff hown hr, not_and_or, not_lt]

end Leave

/-- Servers that know each other, the first one with the list of the item in its storage. -/
def storingFirst (servers : List Uuid) : World md5 :=
  let w : World md5 := .joined md5 servers
  let n := w.node (.ofTail 1)
  w.setNode (.ofTail 1)
    { n with storage := n.storage.writeShoppingList (ServerStorage.oneItem "milk" 201) }

/-- No list stored by server 1 is another one. -/
theorem stored_storingFirst {servers : List Uuid} {l : ShoppingList}
    (h : ((storingFirst servers).node (.ofTail 1)).storage.getShoppingList l.id = some l) :
    l = ServerStorage.oneItem "milk" 201 := by
  obtain ⟨hint, hrow⟩ := (ServerStorage.getShoppingList_eq_some _ _ _).1 h
  rw [show ((storingFirst servers).node (.ofTail 1)).storage.rows.find? _ = _ from
    ServerStorage.rows_upsert .empty (ServerStorage.oneItem "milk" 201) none _] at hrow
  split at hrow
  · exact (congrArg Row.crdtData (Option.some.inj hrow)).symm
  · cases hrow

/-- One of three servers leaves. -/
theorem leave_keeps_degree_iff_three :
    ∃ tr w', Prog.Does (cluster md5) (.incoming (.ofTail 1) 0) (leave (.ofTail 1))
        (storingFirst [.ofTail 1, .ofTail 2, .ofTail 3]) tr () w' ∧
      KeepsDegree ((storingFirst [.ofTail 1, .ofTail 2, .ofTail 3]).node (.ofTail 1)) (.ofTail 1) tr := by
  obtain ⟨tr, _, w', hleave, hok⟩ := Prog.exists_does (m := cluster md5) (t := .incoming (.ofTail 1) 0)
    (List.replicate 20 .yes) (leave (.ofTail 1)) (storingFirst [.ofTail 1, .ofTail 2, .ofTail 3])
    (fun tr => decide (Unfailing tr)) (by decide +kernel)
  refine ⟨tr, w', hleave, (leave_keeps_degree_iff hleave (of_decide_eq_true hok)).1.2 fun l hl => ?_⟩
  rw [stored_storingFirst hl]
  decide +kernel

/-- An operation does not send to this server. -/
def avoids (u : Uuid) (o : Op) : Bool :=
  match o with
  | .send v _ => decide (v ≠ u)
  | _ => true

/-- The first one of four servers leaves. -/
theorem leave_loses_copy :
    ¬ ∀ (t : Tid) (w w' : World md5) (tr : Trace), t.peer ∈ (w.node t.peer).hashring.servers →
      Prog.Does (cluster md5) t (leave t.peer) w tr () w' → Unfailing tr →
      KeepsDegree (w.node t.peer) t.peer tr := by
  intro h
  obtain ⟨tr, _, w', hleave, hcheck⟩ := Prog.exists_does (m := cluster md5)
    (t := .incoming (.ofTail 1) 0) (List.replicate 20 .yes) (leave (.ofTail 1))
    (storingFirst [.ofTail 1, .ofTail 2, .ofTail 3, .ofTail 4])
    (fun tr => decide (Unfailing tr) && tr.all fun e => avoids (.ofTail 4) e.1) (by decide +kernel)
  obtain ⟨hok, hunsent⟩ := Bool.and_eq_true_iff.1 hcheck
  have hkeeps := h (.incoming (.ofTail 1) 0) _ w' tr (by decide +kernel) hleave (of_decide_eq_true hok)
  -- server 4 takes the place of server 1, and is sent nothing
  obtain ⟨id, hmem⟩ := hkeeps (ServerStorage.oneItem "milk" 201) (by decide +kernel) (.ofTail 4)
    (by decide +kernel) (by decide +kernel)
  have havoids : decide (Uuid.ofTail 4 ≠ .ofTail 4) = true := List.all_eq_true.1 hunsent _ hmem
  exact of_decide_eq_true havoids rfl

end Sdle
