import Sdle.Leaving
import Sdle.Locks
import Sdle.Requests
import Sdle.Lib.Chains

/-!
# Looking for an available node (`server.rs`)

`get_next_available_node` follows `next_node` from a server until it meets one that is available or
comes back.  `next_node` steps from the smallest vnode of a server, so that the chain need not come
back, nor meet every server.  `send_replicate` searches from the last replica for each failed send.

* `does_getNextAvailableNode_iff` — the code is `search`, a function of the ring and of who is
  available.
* `search_ends_iff` — **when the search for an available node ends**.
* `search_sound_complete_iff` — **when it is sound and complete**; `isAvailable_after` is why a
  failure table never matters.
* `fallback_outside_iff` — **when fallback nodes are outside the replica group**.
-/

set_option autoImplicit false

namespace Sdle

open Tasks Peer

variable {hash : String → U128}

/-! ## The chain of `next_node` -/

namespace HashRing

open Relation

variable {self : HashRing} {u v : Uuid}

/-- `next_node` leads from one server to another. -/
def Leads (self : HashRing) (u v : Uuid) : Prop := self.nextNode u = some (some v)

instance (self : HashRing) : DecidableRel self.Leads := fun _ _ => inferInstanceAs (Decidable (_ = _))

/-- The smallest vnode of a server. -/
def firstVnode (self : HashRing) (u : Uuid) : ℕ := ((self.vnodes u).min?.map Fin.val).getD 0

theorem exists_min_vnodes (hu : u ∈ self.servers) :
    ∃ k : U128, (self.vnodes u).min? = some k ∧ (k, u) ∈ self.entries ∧ self.firstVnode u = k.val ∧
      ∀ j, (j, u) ∈ self.entries → k ≤ j := by
  obtain ⟨⟨j, u⟩, hj, rfl⟩ := List.mem_map.1 hu
  cases hmin : (self.vnodes u).min? with
  | none =>
    rw [List.min?_eq_none_iff] at hmin
    have hmem := mem_vnodes.2 hj
    rw [hmin] at hmem
    cases hmem
  | some k =>
    obtain ⟨hk, hleast⟩ := List.min?_eq_some_iff.1 hmin
    refine ⟨k, rfl, mem_vnodes.1 hk, ?_, fun i hi => hleast i (mem_vnodes.2 hi)⟩
    unfold firstVnode
    rw [hmin]
    rfl

/-- What `next_node` returns for a server of the ring. -/
theorem nextNode_eq {k : U128} (hk : (self.vnodes u).min? = some k) :
    self.nextNode u = if k.val + 1 < 2 ^ 128 then
      some (((self.entries.filter (fun e => decide (k < e.1)) ++ self.entries).find?
        (fun e => e.2 ≠ u)).map Prod.snd)
    else none := by
  unfold nextNode
  split
  · rename_i hempty
    have hvnodes : self.vnodes u = [] := by
      unfold vnodes
      rw [entries_of_isEmpty hempty]
      rfl
    rw [hvnodes] at hk
    cases hk
  · simp only [hk]

theorem mem_servers_of_leads (h : self.Leads u v) : u ∈ self.servers := by
  unfold Leads nextNode at h
  split at h
  · cases h
  · split at h
    · cases h
    · rename_i k hk
      exact List.mem_map_of_mem (mem_vnodes.1 (List.min?_mem hk))

theorem unique_owner {k : U128} (hu : (k, u) ∈ self.entries) (hv : (k, v) ∈ self.entries) : u = v := by
  have hread := Std.ExtTreeMap.mem_toList_iff_getElem?_eq_some.1 hu
  rw [Std.ExtTreeMap.mem_toList_iff_getElem?_eq_some.1 hv] at hread
  exact (Option.some.inj hread).symm

/-- A later vnode of another server is not skipped. -/
theorem le_of_leads (h : self.Leads u v) {k j : U128} {c : Uuid}
    (hk : (self.vnodes u).min? = some k) (hj : (j, c) ∈ self.entries) (hkj : k < j) (hcu : c ≠ u) :
    ∃ i, (i, v) ∈ self.entries ∧ i ≤ j := by
  unfold Leads at h
  rw [nextNode_eq hk] at h
  split at h
  · obtain ⟨⟨i, v⟩, hfind, rfl⟩ := Option.map_eq_some_iff.1 (Option.some.inj h)
    have hlater : (j, c) ∈ self.entries.filter fun e => decide (k < e.1) :=
      List.mem_filter.2 ⟨hj, by simpa using hkj⟩
    -- the vnode itself is found if nothing before it is
    rw [List.find?_append, Option.or_of_isSome
      (List.find?_isSome.2 ⟨(j, c), hlater, by simpa using hcu⟩)] at hfind
    obtain ⟨-, before, after, hsplit, hskipped⟩ := List.find?_eq_some_iff_append.1 hfind
    have hsorted := (ordered_entries self).filter fun e => decide (k < e.1)
    rw [hsplit] at hlater hsorted
    refine ⟨i, List.mem_of_mem_filter (List.mem_of_find?_eq_some hfind), ?_⟩
    rcases List.mem_append.1 hlater with hmem | hmem
    · exact absurd hcu (by simpa using hskipped _ hmem)
    · rcases List.mem_cons.1 hmem with heq | hmem
      · exact (congrArg Prod.fst heq).ge
      · exact ((List.pairwise_cons.1 (List.pairwise_append.1 hsorted).2.1).1 _ hmem).le
  · cases h

/-- The chain goes up to the next server in the order of the smallest vnodes, or back. -/
theorem ranked_leads (self : HashRing) :
    Chains.Ranked self.Leads self.getAllServers self.firstVnode where
  unique u v w hv hw := Option.some.inj (Option.some.inj (hv.symm.trans hw))
  closed h := List.mem_toFinset.2 (nextNode_ne self h).2
  distinct {u v} hu hv heq := by
    obtain ⟨k, -, hk, hfirst, -⟩ := exists_min_vnodes (List.mem_toFinset.1 hu)
    obtain ⟨j, -, hj, hfirst', -⟩ := exists_min_vnodes (List.mem_toFinset.1 hv)
    obtain rfl : k = j := Fin.ext (by omega)
    exact unique_owner hk hj
  next {u v c} huv hup hc huc := by
    obtain ⟨k, hk, -, hfirst, -⟩ := exists_min_vnodes (mem_servers_of_leads huv)
    obtain ⟨j, -, hj, hfirst', -⟩ := exists_min_vnodes (List.mem_toFinset.1 hc)
    obtain ⟨m, -, -, hfirst'', hleast⟩ := exists_min_vnodes (nextNode_ne self huv).2
    have hcu : c ≠ u := by
      rintro rfl
      exact lt_irrefl _ huc
    obtain ⟨i, hi, hij⟩ := le_of_leads huv hk hj (Fin.lt_def.2 (by omega)) hcu
    have hmi : m ≤ i := hleast i hi
    rw [hfirst'', hfirst']
    exact Fin.le_def.1 (hmi.trans hij)

/-- `next_node` finds nobody exactly when the server is not on the ring, or alone on it; a server
whose only vnode has the largest hash makes it overflow. -/
theorem nextNode_eq_none_iff :
    self.nextNode u = some none ↔
      u ∉ self.servers ∨ (∀ v ∈ self.servers, v = u) ∧ self.firstVnode u + 1 < 2 ^ 128 := by
  by_cases hu : u ∈ self.servers
  · obtain ⟨k, hk, -, hfirst, -⟩ := exists_min_vnodes hu
    rw [nextNode_eq hk, hfirst]
    simp only [hu, not_true, false_or]
    split
    · rename_i hlt
      simp only [hlt, and_true, Option.some.injEq, Option.map_eq_none_iff, List.find?_eq_none,
        List.mem_append, List.mem_filter]
      constructor
      · intro h v hv
        obtain ⟨e, he, rfl⟩ := List.mem_map.1 hv
        simpa using h e (Or.inr he)
      · intro h e he
        have hmem : e ∈ self.entries := he.elim And.left id
        simpa using h e.2 (List.mem_map_of_mem hmem)
    · rename_i hlt
      exact iff_of_false (fun h => nomatch h) fun h => hlt h.2
  · have hvnodes : (self.vnodes u).min? = none := by
      rw [List.min?_eq_none_iff, List.eq_nil_iff_forall_not_mem]
      exact fun k hk => hu (List.mem_map_of_mem (mem_vnodes.1 hk))
    simp only [hu, not_false_eq_true, true_or, iff_true]
    unfold nextNode
    rw [hvnodes]
    split <;> rfl

/-! ## The search -/

/-- The loop of `get_next_available_node` for a number of turns, with the servers that count as
available; the outer `none` is a run out of turns, or the overflow panic. -/
def search (self : HashRing) (available : Uuid → Bool) (start : Uuid) :
    ℕ → Uuid → Option (Option Uuid)
  | 0, _ => none
  | n + 1, current =>
    match self.nextNode current with
    | none => none
    | some none => some none
    | some (some next) =>
      if available next = true then some (some next)
      else if next = start then some none
      else search self available start n next

variable {available : Uuid → Bool} {start : Uuid}

/-- The step of the loop. -/
theorem search_succ {n : ℕ} {current next : Uuid} (h : self.Leads current next) :
    self.search available start (n + 1) current =
      if available next = true then some (some next)
      else if next = start then some none
      else self.search available start n next := by
  unfold Leads at h
  simp only [search, h]

/-- A chain that meets an available server or comes back lets the loop end. -/
theorem search_of_leads {current u : Uuid} (h : TransGen self.Leads current u)
    (hu : available u = true ∨ u = start) : ∃ n r, self.search available start n current = some r := by
  induction h using TransGen.head_induction_on with
  | @single current hstep =>
    refine ⟨1, ?_⟩
    rw [search_succ hstep]
    split
    · exact ⟨_, rfl⟩
    · rename_i hnot
      rw [if_pos (hu.resolve_left hnot)]
      exact ⟨_, rfl⟩
  | @head current next hstep _ ih =>
    obtain ⟨n, r, hr⟩ := ih
    refine ⟨n + 1, ?_⟩
    rw [search_succ hstep]
    split
    · exact ⟨_, rfl⟩
    · split
      · exact ⟨_, rfl⟩
      · exact ⟨r, hr⟩

/-- When the loop ends, the chain has met an available server, come back, or found nobody. -/
theorem leads_of_search {n : ℕ} {r : Option Uuid} :
    ∀ {current : Uuid}, self.search available start n current = some r →
      (∃ u, TransGen self.Leads current u ∧ (available u = true ∨ u = start)) ∨
        ∃ u, ReflTransGen self.Leads current u ∧ self.nextNode u = some none := by
  induction n with
  | zero => exact fun h => nomatch h
  | succ n ih =>
    intro current h
    cases hnext : self.nextNode current with
    | none =>
      simp only [search, hnext] at h
      cases h
    | some next =>
      cases next with
      | none => exact Or.inr ⟨current, .refl, hnext⟩
      | some next =>
        have hleads : self.Leads current next := hnext
        rw [search_succ hleads] at h
        split at h
        · rename_i hav
          exact Or.inl ⟨next, .single hleads, Or.inl hav⟩
        · split at h
          · rename_i hback
            exact Or.inl ⟨next, .single hleads, Or.inr hback⟩
          · rcases ih h with ⟨u, hu, hend⟩ | ⟨u, hu, hend⟩
            · exact Or.inl ⟨u, .head hleads hu, hend⟩
            · exact Or.inr ⟨u, .head hleads hu, hend⟩

/-- **When the loop ends**: the chain meets an available server, comes back to its start, or finds
nobody in the first step. -/
theorem search_ends :
    (∃ n r, self.search available start n start = some r) ↔
      (∃ u, TransGen self.Leads start u ∧ available u = true) ∨ TransGen self.Leads start start ∨
        self.nextNode start = some none := by
  constructor
  · rintro ⟨n, r, hr⟩
    rcases leads_of_search hr with ⟨u, hu, hav | rfl⟩ | ⟨u, hu, hnone⟩
    · exact Or.inl ⟨u, hu, hav⟩
    · exact Or.inr (Or.inl hu)
    · -- a server that is led to has another one before it
      rcases hu.cases_tail with rfl | ⟨v, -, hvu⟩
      · exact Or.inr (Or.inr hnone)
      · obtain ⟨hne, hmem⟩ := nextNode_ne self hvu
        rcases nextNode_eq_none_iff.1 hnone with hout | ⟨halone, -⟩
        · exact absurd hmem hout
        · exact absurd (halone v (mem_servers_of_leads hvu)).symm hne
  · rintro (⟨u, hu, hav⟩ | hback | hnone)
    · exact search_of_leads hu (Or.inl hav)
    · exact search_of_leads hback (Or.inr rfl)
    · refine ⟨1, none, ?_⟩
      simp only [search, hnone]

end HashRing

/-! ## What the loop of the peer does -/

/-- What counts as available: a peer of the membership table that the failure table lets through. -/
def Node.available (n : Node hash) (u : Uuid) : Bool :=
  (n.membership.find? u).isSome && FailureTable.isAvailable n.failure u

/-- The search reads the same from both. -/
structure Alike (n n' : Node hash) : Prop where
  hashring : n'.hashring = n.hashring
  membership : n'.membership = n.membership
  failure : n'.failure = n.failure

theorem Alike.trans {n₁ n₂ n₃ : Node hash} (h : Alike n₁ n₂) (h' : Alike n₂ n₃) : Alike n₁ n₃ :=
  ⟨h'.hashring.trans h.hashring, h'.membership.trans h.membership, h'.failure.trans h.failure⟩

theorem Alike.available {n n' : Node hash} (h : Alike n n') : n'.available = n.available := by
  unfold Node.available
  rw [h.membership, h.failure]

/-- The operations of the search. -/
def Looks : Op → Prop
  | .lock _ | .unlock _ | .membership | .hashring | .failure | .turns | .stop => True
  | _ => False

section Loop

variable {t : Tid} {w w' : World hash} {tr : Trace}

theorem alike_effect {o : Op} (ho : Looks o) (a : Ans o) (w : World hash) :
    Alike (w.node t.peer) ((effect t o a w).node t.peer) := by
  rw [node_effect, if_pos rfl]
  cases o <;> first
    | exact ho.elim
    | exact ⟨rfl, rfl, rfl⟩

theorem alike_of_does {α : Type} {p : Code α} {a : α} (hp : p.Only Looks)
    (h : Prog.Does (cluster hash) t p w tr a w') : Alike (w.node t.peer) (w'.node t.peer) :=
  Prog.Only.does (m := cluster hash) (t := t) (I := fun w' => Alike (w.node t.peer) (w'.node t.peer))
    (fun o c a w₁ w₂ ho hw hact => by
      obtain ⟨-, rfl⟩ := act_eq hact
      exact hw.trans (alike_effect ho a w₁))
    hp h ⟨rfl, rfl, rfl⟩

theorem looks_read {m : Mutex} {o : Op} (ho : Looks o) : (locked m (perform o)).Only Looks :=
  only_locked trivial trivial (only_perform ho)

theorem looks_isPeerAvailable (u : Uuid) : (isPeerAvailable u).Only Looks := by
  refine Prog.only_bind (looks_read trivial) fun table => only_ite ?_ (only_pure _)
  exact only_locked trivial trivial (Prog.only_bind (only_perform trivial) fun _ => only_pure _)

/-- What a guarded look at the peer's state answers is so. -/
theorem does_read {m : Mutex} {o : Op} {a : Ans o}
    (h : Prog.Does (cluster hash) t (locked m (perform o)) w tr a w') :
    ∃ c, answer t o c (effect t (.lock m) () w) = some a := by
  obtain ⟨_, _, -, hread, -⟩ := does_locked h
  obtain ⟨b, _, hanswer, -, hend⟩ := does_perform (f := pure) hread
  obtain ⟨-, rfl, -⟩ := Prog.does_pure hend
  exact hanswer

theorem does_isPeerAvailable {u : Uuid} {b : Bool}
    (h : Prog.Does (cluster hash) t (isPeerAvailable u) w tr b w') :
    b = (w.node t.peer).available u := by
  obtain ⟨tr₁, table, w₁, tr₂, rfl, htable, hrest⟩ := Prog.does_bind h
  obtain ⟨c, hanswer⟩ := does_read htable
  have hlock := alike_effect (t := t) (o := .lock .membership) trivial () w
  have hmembership : table = (w.node t.peer).membership :=
    (Option.some.inj hanswer).symm.trans hlock.membership
  have hread := alike_of_does (looks_read (o := .membership) trivial) htable
  subst hmembership
  unfold Node.available
  split at hrest
  · rename_i hmember
    obtain ⟨tr₃, w₃, -, hbody, -⟩ := does_locked hrest
    obtain ⟨failure, tr₄, ⟨c', hanswer'⟩, -, hend⟩ := does_perform hbody
    obtain ⟨-, rfl, -⟩ := Prog.does_pure hend
    have hlock' := alike_effect (t := t) (o := .lock .failure) trivial () w₁
    have hfailure : failure = (w.node t.peer).failure :=
      (Option.some.inj hanswer').symm.trans ((hread.trans hlock').failure)
    rw [hfailure, hmember, Bool.true_and]
  · rename_i hmember
    obtain ⟨-, rfl, -⟩ := Prog.does_pure hrest
    rw [eq_false_of_ne_true hmember, Bool.false_and]

/-- The locked step of the loop. -/
def step (current : Uuid) : Code (Option Uuid) :=
  locked .hashring do
    let ring ← perform .hashring
    match ring.nextNode current with
    | none => do
      let e ← perform .stop
      nomatch e
    | some next => pure next

theorem looks_step (current : Uuid) : (step current).Only Looks := by
  refine only_locked trivial trivial (Prog.only_bind (only_perform trivial) fun ring => ?_)
  split
  · exact ⟨trivial, fun a => a.elim⟩
  · exact only_pure _

theorem does_step {current : Uuid} {next : Option Uuid}
    (h : Prog.Does (cluster hash) t (step current) w tr next w') :
    (w.node t.peer).hashring.nextNode current = some next := by
  obtain ⟨tr₁, w₁, -, hbody, -⟩ := does_locked h
  obtain ⟨ring, tr₂, ⟨c, hanswer⟩, -, hrest⟩ := does_perform hbody
  have hlock := alike_effect (t := t) (o := .lock .hashring) trivial () w
  have hring : ring = (w.node t.peer).hashring :=
    (Option.some.inj hanswer).symm.trans hlock.hashring
  subst hring
  split at hrest
  · obtain ⟨e, -⟩ := does_perform hrest
    exact e.elim
  · rename_i hnext
    obtain ⟨-, rfl, -⟩ := Prog.does_pure hrest
    exact hnext

/-- **The loop returns what the search does.** -/
theorem search_of_does {start : Uuid} {n : ℕ} {r : Option Uuid} :
    ∀ {current : Uuid} {w : World hash} {tr : Trace},
      Prog.Does (cluster hash) t (nextAvailable start n current) w tr r w' →
      (w.node t.peer).hashring.search (w.node t.peer).available start n current = some r := by
  induction n with
  | zero =>
    intro current w tr h
    obtain ⟨e, -⟩ := does_perform h
    exact e.elim
  | succ n ih =>
    intro current w tr h
    obtain ⟨tr₁, next, w₁, tr₂, rfl, hstep, hrest⟩ := Prog.does_bind (p := step current) h
    have hnext := does_step hstep
    have hstepped : Alike (w.node t.peer) (w₁.node t.peer) := alike_of_does (looks_step current) hstep
    cases next with
    | none =>
      obtain ⟨-, rfl, -⟩ := Prog.does_pure hrest
      simp only [HashRing.search, hnext]
    | some next =>
      obtain ⟨tr₃, b, w₂, tr₄, rfl, hasked, hrest⟩ := Prog.does_bind hrest
      have hb := does_isPeerAvailable hasked
      have hlooked := hstepped.trans (alike_of_does (looks_isPeerAvailable next) hasked)
      rw [hstepped.available] at hb
      rw [HashRing.search_succ hnext, ← hb]
      cases b with
      | true =>
        obtain ⟨-, rfl, -⟩ := Prog.does_pure hrest
        rfl
      | false =>
        change Prog.Does (cluster hash) t (if next = start then _ else _) w₂ tr₄ r w' at hrest
        rw [if_neg Bool.false_ne_true]
        split at hrest
        · rename_i hback
          obtain ⟨-, rfl, -⟩ := Prog.does_pure hrest
          rw [if_pos hback]
        · rename_i hback
          rw [if_neg hback, ← ih hrest, hlooked.hashring, hlooked.available]

/-! ## That nothing keeps the loop from it -/

/-- No task has the guards that the search requests. -/
def Unguarded (n : Node hash) : Prop :=
  n.locks .hashring = none ∧ n.locks .membership = none ∧ n.locks .failure = none

/-- A look at the peer's state. -/
def readOf (n : Node hash) : (o : Op) → Option (Ans o)
  | .membership => some n.membership
  | .hashring => some n.hashring
  | .failure => some n.failure
  | _ => none

theorem act_read {o : Op} {a : Ans o} (h : readOf (w.node t.peer) o = some a) :
    act t o .yes w = some (a, w) := by
  have hsame : ∀ a : Ans o, readOf (w.node t.peer) o = some a → effect t o a w = w := by
    intro a ha
    cases o <;> first
      | exact setNode_self w t.peer
      | cases ha
  unfold act
  cases o <;> first
    | cases h
      simp [answer, hsame _ rfl]
    | cases h

theorem readOf_lock (m : Mutex) (o : Op) :
    readOf ((effect t (.lock m) () w).node t.peer) o = readOf (w.node t.peer) o := by
  have hlock := alike_effect (t := t) (o := .lock m) trivial () w
  cases o <;> first
    | exact congrArg some hlock.membership
    | exact congrArg some hlock.hashring
    | exact congrArg some hlock.failure
    | rfl

/-- What a guarded block that looks at the peer's state does. -/
theorem does_of_read {α : Type} {m : Mutex} {o : Op} {f : Ans o → Code α} {a : Ans o} {b : α}
    (hm : (w.node t.peer).locks m = none) (ha : readOf (w.node t.peer) o = some a)
    (hf : f a = pure b) :
    ∃ tr, Prog.Does (cluster hash) t (locked m (perform o >>= f)) w tr b w := by
  have hlock : act t (.lock m) .yes w = some ((), effect t (.lock m) () w) := by
    unfold act
    simp [answer, hm]
  have hunlock : act t (.unlock m) .yes (effect t (.lock m) () w) = some ((), w) := by
    unfold act
    simp [answer, effect_unlock_lock hm]
  have hread : act t o .yes (effect t (.lock m) () w) = some (a, effect t (.lock m) () w) :=
    act_read ((readOf_lock m o).trans ha)
  have hbody : Prog.Does (cluster hash) t (perform o >>= f) (effect t (.lock m) () w) [⟨o, a⟩] b
      (effect t (.lock m) () w) := by
    refine does_operation hread ?_
    rw [hf]
    exact does_return t b _
  exact ⟨_, does_operation hlock (hbody.bind (does_operation hunlock (does_return t b w)))⟩

theorem does_of_nextNode {current : Uuid} {next : Option Uuid} (hw : Unguarded (w.node t.peer))
    (h : (w.node t.peer).hashring.nextNode current = some next) :
    ∃ tr, Prog.Does (cluster hash) t (step current) w tr next w :=
  does_of_read (o := .hashring) hw.1 rfl (by rw [h])

theorem does_of_available (hw : Unguarded (w.node t.peer)) (u : Uuid) :
    ∃ tr, Prog.Does (cluster hash) t (isPeerAvailable u) w tr ((w.node t.peer).available u) w := by
  obtain ⟨tr₁, htable⟩ := does_of_read (f := pure) hw.2.1 (o := .membership) rfl rfl
  obtain ⟨tr₂, hfailure⟩ := does_of_read (t := t) (o := .failure) (m := .failure)
    (f := fun failure => pure (FailureTable.isAvailable failure u)) hw.2.2 rfl rfl
  by_cases hmember : ((w.node t.peer).membership.find? u).isSome = true
  · refine ⟨tr₁ ++ tr₂, htable.bind ?_⟩
    rw [if_pos hmember]
    unfold Node.available
    rw [hmember, Bool.true_and]
    exact hfailure
  · refine ⟨tr₁ ++ [], htable.bind ?_⟩
    rw [if_neg hmember]
    unfold Node.available
    rw [eq_false_of_ne_true hmember, Bool.false_and]
    exact does_return t false w

/-- The loop does what the search says. -/
theorem does_of_search {start : Uuid} (hw : Unguarded (w.node t.peer)) {n : ℕ} {r : Option Uuid} :
    ∀ {current : Uuid},
      (w.node t.peer).hashring.search (w.node t.peer).available start n current = some r →
      ∃ tr, Prog.Does (cluster hash) t (nextAvailable start n current) w tr r w := by
  induction n with
  | zero => exact fun h => nomatch h
  | succ n ih =>
    intro current h
    cases hnext : (w.node t.peer).hashring.nextNode current with
    | none =>
      simp only [HashRing.search, hnext] at h
      cases h
    | some next =>
      obtain ⟨tr₁, hstep⟩ := does_of_nextNode hw hnext
      cases next with
      | none =>
        simp only [HashRing.search, hnext] at h
        cases h
        exact ⟨tr₁ ++ [], hstep.bind (does_return t none w)⟩
      | some next =>
        rw [HashRing.search_succ hnext] at h
        obtain ⟨tr₂, hasked⟩ := does_of_available hw next
        refine (?_ : ∃ tr₃, Prog.Does (cluster hash) t
            (if (w.node t.peer).available next = true then pure (some next)
              else if next = start then pure none else nextAvailable start n next) w tr₃ r w).elim
          fun tr₃ hrest => ⟨tr₁ ++ (tr₂ ++ tr₃), hstep.bind (hasked.bind hrest)⟩
        split at h
        · rename_i hav
          cases h
          rw [if_pos hav]
          exact ⟨[], does_return t (some next) w⟩
        · rename_i hnot
          rw [if_neg hnot]
          split at h
          · rename_i hback
            cases h
            rw [if_pos hback]
            exact ⟨[], does_return t none w⟩
          · rename_i hback
            rw [if_neg hback]
            exact ih h

/-- **`get_next_available_node` is the search**: it can return what the search returns for some
number of turns, and nothing else. -/
theorem does_getNextAvailableNode_iff {start : Uuid} (hw : Unguarded (w.node t.peer)) {r : Option Uuid} :
    (∃ tr w', Prog.Does (cluster hash) t (getNextAvailableNode start) w tr r w') ↔
      ∃ n, (w.node t.peer).hashring.search (w.node t.peer).available start n start = some r := by
  constructor
  · rintro ⟨tr, w', h⟩
    obtain ⟨n, tr', -, -, hrest⟩ := does_perform h
    have hturns := alike_effect (t := t) (o := .turns) trivial n w
    refine ⟨n, ?_⟩
    rw [← hturns.hashring, ← hturns.available]
    exact search_of_does hrest
  · rintro ⟨n, h⟩
    obtain ⟨tr, hdoes⟩ := does_of_search hw h
    have hturns : act t .turns (.nat n) w = some (n, w) := by
      unfold act
      simp only [answer, Option.map_some]
      exact congrArg (fun w => some (n, w)) (setNode_self w t.peer)
    exact ⟨_, w, does_operation hturns hdoes⟩

end Loop

/-! ## Whether the search ends -/

namespace HashRing

/-- The server lies in an interval of servers, in the order of their smallest vnodes, in which
`next_node` goes up from each but the last, and from the last back to the first. -/
def OnLoop (self : HashRing) (u : Uuid) : Prop :=
  u ∈ self.servers ∧ ∃ last ∈ self.servers, ∃ first, self.Leads last first ∧
    self.firstVnode first ≤ self.firstVnode u ∧ self.firstVnode u ≤ self.firstVnode last ∧
    ∀ v ∈ self.servers, self.firstVnode first ≤ self.firstVnode v →
      self.firstVnode v < self.firstVnode last →
      ∃ v', self.Leads v v' ∧ self.firstVnode v < self.firstVnode v'

theorem onLoop_iff {self : HashRing} {u : Uuid} :
    self.OnLoop u ↔ Relation.TransGen self.Leads u u := by
  have hmem : ∀ {v}, v ∈ self.getAllServers ↔ v ∈ self.servers := List.mem_toFinset
  constructor
  · rintro ⟨hu, hloop⟩
    exact ((ranked_leads self).cycle_iff (hmem.2 hu)).2 (by simpa only [hmem] using hloop)
  · intro hcycle
    obtain ⟨v, huv, -⟩ := Relation.TransGen.head'_iff.1 hcycle
    have hu := mem_servers_of_leads huv
    exact ⟨hu, by simpa only [hmem] using ((ranked_leads self).cycle_iff (hmem.2 hu)).1 hcycle⟩

end HashRing

/-- **When the search for an available node ends**, and without an overflow: exactly when
`next_node` leads from the start to an available server, or the start lies on such an interval, is
not on the ring, or is alone on it with a vnode below the largest hash. -/
theorem search_ends_iff {t : Tid} {w : World hash} (hw : Unguarded (w.node t.peer)) (start : Uuid) :
    let n := w.node t.peer
    (∃ tr r w', Prog.Does (cluster hash) t (getNextAvailableNode start) w tr r w') ↔
      (∃ u, Relation.TransGen n.hashring.Leads start u ∧ n.available u = true) ∨
        n.hashring.OnLoop start ∨ start ∉ n.hashring.servers ∨
        (∀ u ∈ n.hashring.servers, u = start) ∧ n.hashring.firstVnode start + 1 < 2 ^ 128 := by
  intro n
  have hends : (∃ tr r w', Prog.Does (cluster hash) t (getNextAvailableNode start) w tr r w') ↔
      ∃ k r, n.hashring.search n.available start k start = some r := by
    constructor
    · rintro ⟨tr, r, w', h⟩
      obtain ⟨k, hk⟩ := (does_getNextAvailableNode_iff hw).1 ⟨tr, w', h⟩
      exact ⟨k, r, hk⟩
    · rintro ⟨k, r, hk⟩
      obtain ⟨tr, w', h⟩ := (does_getNextAvailableNode_iff hw).2 ⟨k, hk⟩
      exact ⟨tr, r, w', h⟩
  rw [hends, HashRing.search_ends, HashRing.onLoop_iff, HashRing.nextNode_eq_none_iff]

/-- The search starts at one of two servers. -/
theorem search_ends_iff_two :
    ∃ tr r w', Prog.Does (cluster md5) (.proxied (.ofTail 1)) (getNextAvailableNode (.ofTail 1))
      (World.joined md5 [.ofTail 1, .ofTail 2]) tr r w' :=
  (search_ends_iff (t := .proxied (.ofTail 1)) ⟨rfl, rfl, rfl⟩ (.ofTail 1)).2
    (Or.inl ⟨.ofTail 2, .single (by decide +kernel), by decide +kernel⟩)

/-- Server 4 has four servers on its ring, and knows only itself. -/
def knowsItself : World md5 :=
  let w : World md5 := .joined md5 [.ofTail 1, .ofTail 2, .ofTail 3, .ofTail 4]
  w.setNode (.ofTail 4) { w.node (.ofTail 4) with membership := tableOf [.ofTail 4] }

/-- From server 4 the chain goes round the other three. -/
theorem search_does_not_end :
    ¬ ∀ (t : Tid) (w : World md5) (start : Uuid), Unguarded (w.node t.peer) →
      ∃ tr r w', Prog.Does (cluster md5) t (getNextAvailableNode start) w tr r w' := by
  intro h
  obtain ⟨tr, r, w', hdoes⟩ := h (.proxied (.ofTail 4)) knowsItself (.ofTail 4) ⟨rfl, rfl, rfl⟩
  obtain ⟨k, hk⟩ := (does_getNextAvailableNode_iff ⟨rfl, rfl, rfl⟩).1 ⟨tr, w', hdoes⟩
  have hround : ∀ u, Relation.TransGen (knowsItself.node (.ofTail 4)).hashring.Leads (.ofTail 4) u →
      u ∈ [Uuid.ofTail 1, .ofTail 2, .ofTail 3] := by
    have hnext : ∀ u ∈ [Uuid.ofTail 4, .ofTail 1, .ofTail 2, .ofTail 3],
        ∃ v ∈ [Uuid.ofTail 1, .ofTail 2, .ofTail 3],
          (knowsItself.node (.ofTail 4)).hashring.Leads u v := by decide +kernel
    have hstep : ∀ u ∈ [Uuid.ofTail 4, .ofTail 1, .ofTail 2, .ofTail 3], ∀ v,
        (knowsItself.node (.ofTail 4)).hashring.Leads u v →
          v ∈ [Uuid.ofTail 1, .ofTail 2, .ofTail 3] := by
      intro u hu v huv
      obtain ⟨v', hv', huv'⟩ := hnext u hu
      exact (HashRing.ranked_leads _).unique huv' huv ▸ hv'
    intro u hu
    induction hu with
    | single hstart => exact hstep _ List.mem_cons_self _ hstart
    | tail _ hlast ih => exact hstep _ (List.mem_cons_of_mem _ ih) _ hlast
  rcases HashRing.search_ends.1 ⟨k, r, hk⟩ with ⟨u, hu, hav⟩ | hback | hnone
  · have hnobody : ∀ u ∈ [Uuid.ofTail 1, .ofTail 2, .ofTail 3],
        (knowsItself.node (.ofTail 4)).available u = false := by decide +kernel
    exact Bool.noConfusion ((hnobody u (hround u hu)).symm.trans hav)
  · exact absurd (hround _ hback) (by decide)
  · exact absurd hnone (by decide +kernel)

/-! ## What the search returns -/

/-- A call on a failure table. -/
inductive FailureCall where
  | mark (u : Uuid)
  | clear (u : Uuid)
  deriving DecidableEq

namespace FailureCall

/-- The peer that a call names. -/
def node : FailureCall → Uuid
  | mark u => u
  | clear u => u

/-- What a call does. -/
def apply : FailureCall → FailureTable → FailureTable
  | mark u, table => table.markFailure u
  | clear u, table => table.clearFailure u

end FailureCall

namespace FailureTable

/-- A failure table after some calls, the first one first. -/
def after (calls : List FailureCall) : FailureTable :=
  calls.foldl (fun table call => call.apply table) ∅

/-- The last call that names the peer has marked it as failed. -/
def Marked (calls : List FailureCall) (u : Uuid) : Prop :=
  (calls.filter fun call => call.node = u).getLast? = some (.mark u)

instance (calls : List FailureCall) (u : Uuid) : Decidable (Marked calls u) :=
  inferInstanceAs (Decidable (_ = _))

/-- **A failure table lets everybody through**: an entry says that the peer has failed, and
`is_available` returns just that. -/
theorem isAvailable_after (calls : List FailureCall) (u : Uuid) : (after calls).isAvailable u = true := by
  induction calls using List.reverseRecOn with
  | nil => rfl
  | append_singleton calls call ih =>
    unfold after isAvailable at ih ⊢
    rw [List.foldl_append, List.foldl_cons, List.foldl_nil]
    cases call with
    | mark v =>
      simp only [FailureCall.apply, markFailure, FinMap.find?_insert]
      by_cases huv : u = v
      · rw [if_pos huv]
      · rw [if_neg huv]
        exact ih
    | clear v =>
      simp only [FailureCall.apply, clearFailure, FinMap.find?_erase]
      by_cases huv : u = v
      · rw [if_pos huv]
      · rw [if_neg huv]
        exact ih

end FailureTable

namespace HashRing

open Relation

variable {self : HashRing} {start : Uuid}

/-- `next_node` leads to a server that is none of these. -/
def LeadsPast (self : HashRing) (members : Uuid → Bool) (u v : Uuid) : Prop :=
  self.Leads u v ∧ members v = false

/-- The first of these servers to which `next_node` leads from the start. -/
def MetFirst (self : HashRing) (members : Uuid → Bool) (start u : Uuid) : Prop :=
  ∃ v, ReflTransGen (self.LeadsPast members) start v ∧ self.Leads v u ∧ members u = true

variable {members : Uuid → Bool}

theorem unique_leadsPast : Relator.RightUnique (self.LeadsPast members) :=
  fun _ _ _ h h' => (ranked_leads self).unique h.1 h'.1

/-- The chain stops before the first one. -/
theorem not_leadsPast {u v v' : Uuid} (h : self.Leads v u) (hu : members u = true) :
    ¬ self.LeadsPast members v v' := by
  rintro ⟨hv, hv'⟩
  rw [(ranked_leads self).unique hv h, hu] at hv'
  cases hv'

theorem MetFirst.unique {u u' : Uuid} (h : self.MetFirst members start u)
    (h' : self.MetFirst members start u') : u = u' := by
  obtain ⟨v, hv, hvu, hu⟩ := h
  obtain ⟨v', hv', hvu', hu'⟩ := h'
  obtain rfl : v = v' := Chains.end_unique unique_leadsPast hv (fun _ => not_leadsPast hvu hu) hv'
    fun _ => not_leadsPast hvu' hu'
  exact (ranked_leads self).unique hvu hvu'

/-- What the search returns is the first available server that it meets. -/
theorem metFirst_of_search {n : ℕ} {u : Uuid} :
    ∀ {current : Uuid}, self.search members start n current = some (some u) →
      self.MetFirst members current u := by
  induction n with
  | zero => exact fun h => nomatch h
  | succ n ih =>
    intro current h
    unfold search at h
    split at h
    · cases h
    · cases h
    · rename_i next hnext
      split at h
      · rename_i hmember
        cases h
        exact ⟨current, .refl, hnext, hmember⟩
      · rename_i hmember
        split at h
        · cases h
        · obtain ⟨v, hv, hvu, hu⟩ := ih h
          exact ⟨v, .head ⟨hnext, eq_false_of_ne_true hmember⟩ hv, hvu, hu⟩

/-- A search that returns nobody has found nobody, or come back past nobody available. -/
theorem past_of_search {n : ℕ} :
    ∀ {current : Uuid}, self.search members start n current = some none →
      (∃ v, ReflTransGen (self.LeadsPast members) current v ∧ self.nextNode v = some none) ∨
        TransGen (self.LeadsPast members) current start := by
  induction n with
  | zero => exact fun h => nomatch h
  | succ n ih =>
    intro current h
    unfold search at h
    split at h
    · cases h
    · rename_i hnone
      exact Or.inl ⟨current, .refl, hnone⟩
    · rename_i next hnext
      split at h
      · cases h
      · rename_i hmember
        have hpast : self.LeadsPast members current next := ⟨hnext, eq_false_of_ne_true hmember⟩
        split at h
        · rename_i hback
          exact Or.inr (.single (hback ▸ hpast))
        · rcases ih h with ⟨v, hv, hnone⟩ | hback
          · exact Or.inl ⟨v, .head hpast hv, hnone⟩
          · exact Or.inr (.head hpast hback)

theorem not_metFirst_of_search {n : ℕ} (h : self.search members start n start = some none) (u : Uuid) :
    ¬ self.MetFirst members start u := by
  rintro ⟨v, hv, hvu, hu⟩
  rcases past_of_search h with ⟨v', hv', hnone⟩ | hcycle
  · have hend : ∀ x, ¬ self.LeadsPast members v' x := by
      rintro x ⟨hx, -⟩
      rw [Leads, hnone] at hx
      cases hx
    obtain rfl := Chains.end_unique unique_leadsPast hv (fun _ => not_leadsPast hvu hu) hv' hend
    rw [Leads, hnone] at hvu
    cases hvu
  · -- on the way round, every server has one behind it that is passed
    have hround := TransGen.trans_right (Chains.back_of_cycle unique_leadsPast hcycle hv) hcycle
    obtain ⟨x, hx, -⟩ := TransGen.head'_iff.1 hround
    exact not_leadsPast hvu hu hx

end HashRing

/-- The server is on the ring and another one than the start, is in the membership table, and has not
been marked as failed since it was last cleared. -/
structure Usable (n : Node hash) (calls : List FailureCall) (start u : Uuid) : Prop where
  server : u ∈ n.hashring.servers
  other : u ≠ start
  member : (n.membership.find? u).isSome = true
  unmarked : ¬ FailureTable.Marked calls u

instance (n : Node hash) (calls : List FailureCall) (start u : Uuid) : Decidable (Usable n calls start u) :=
  decidable_of_iff (u ∈ n.hashring.servers ∧ u ≠ start ∧ (n.membership.find? u).isSome = true ∧
      ¬ FailureTable.Marked calls u)
    ⟨fun h => ⟨h.1, h.2.1, h.2.2.1, h.2.2.2⟩, fun h => ⟨h.server, h.other, h.member, h.unmarked⟩⟩

/-- What a search is meant to return: a usable server, or nobody where there is none. -/
def Finds (n : Node hash) (calls : List FailureCall) (start : Uuid) : Option Uuid → Prop
  | some u => Usable n calls start u
  | none => ∀ u, ¬ Usable n calls start u

/-- **When the search for an available node is sound and complete**: exactly when the first server
of the membership table that `next_node` leads to is neither the start nor marked, or there is none
and no other server of the ring is usable either. -/
theorem search_sound_complete_iff {t : Tid} {w w' : World hash} {calls : List FailureCall}
    (hcalls : (w.node t.peer).failure = .after calls) {start : Uuid} {tr : Trace} {r : Option Uuid}
    (h : Prog.Does (cluster hash) t (getNextAvailableNode start) w tr r w') :
    let n := w.node t.peer
    let members := fun u => (n.membership.find? u).isSome
    Finds n calls start r ↔
      (∀ u, n.hashring.MetFirst members start u → u ≠ start ∧ ¬ FailureTable.Marked calls u) ∧
        ((∀ u, ¬ n.hashring.MetFirst members start u) → ∀ u, ¬ Usable n calls start u) := by
  intro n members
  obtain ⟨k, tr', -, -, hrest⟩ := does_perform h
  have hturns := alike_effect (t := t) (o := .turns) trivial k w
  have hsearch : n.hashring.search members start k start = some r := by
    have havailable : n.available = members := by
      funext u
      unfold Node.available
      rw [show n.failure = _ from hcalls, FailureTable.isAvailable_after, Bool.and_true]
    rw [← havailable, ← hturns.hashring, ← hturns.available]
    exact search_of_does hrest
  cases r with
  | some u =>
    have hu : n.hashring.MetFirst members start u := HashRing.metFirst_of_search hsearch
    constructor
    · intro hfinds
      refine ⟨fun u' hu' => ?_, fun hnone => absurd hu (hnone u)⟩
      rw [hu'.unique hu]
      exact ⟨hfinds.other, hfinds.unmarked⟩
    · rintro ⟨hmet, -⟩
      obtain ⟨v, -, hvu, hmember⟩ := id hu
      exact ⟨(HashRing.nextNode_ne _ hvu).2, (hmet u hu).1, hmember, (hmet u hu).2⟩
  | none =>
    have hnone := HashRing.not_metFirst_of_search hsearch
    exact ⟨fun hfinds => ⟨fun u hu => absurd hu (hnone u), fun _ => hfinds⟩, fun hcond => hcond.2 hnone⟩

/-- Three servers, and server 1 has made some calls on its failure table. -/
def afterCalls (calls : List FailureCall) : World md5 :=
  threeServers.setNode (.ofTail 1) { threeServers.node (.ofTail 1) with failure := .after calls }

/-- The calls mark two servers, and clear the first of them that the search comes to. -/
theorem search_sound_complete_iff_cleared :
    let calls := [.mark (.ofTail 3), .mark (.ofTail 2), .clear (.ofTail 3)]
    ∃ tr w', Prog.Does (cluster md5) (.proxied (.ofTail 1)) (getNextAvailableNode (.ofTail 1))
        (afterCalls calls) tr (some (.ofTail 3)) w' ∧
      Finds ((afterCalls calls).node (.ofTail 1)) calls (.ofTail 1) (some (.ofTail 3)) := by
  intro calls
  let n := (afterCalls calls).node (.ofTail 1)
  obtain ⟨tr, w', h⟩ := (@does_getNextAvailableNode_iff md5 (.proxied (.ofTail 1)) (afterCalls calls)
    (.ofTail 1) ⟨rfl, rfl, rfl⟩ (some (.ofTail 3))).2 ⟨1, by decide +kernel⟩
  have hleads : n.hashring.Leads (.ofTail 1) (.ofTail 3) := by decide +kernel
  have hmet : n.hashring.MetFirst (fun u => (n.membership.find? u).isSome) (.ofTail 1) (.ofTail 3) :=
    ⟨.ofTail 1, .refl, hleads, by decide +kernel⟩
  refine ⟨tr, w', h, (@search_sound_complete_iff md5 (.proxied (.ofTail 1)) (afterCalls calls) w'
    calls rfl _ _ _ h).2 ⟨fun u hu => ?_, fun hnone => absurd hmet (hnone _)⟩⟩
  rw [hu.unique hmet]
  decide

/-- The search returns a server that has been marked as failed. -/
theorem search_returns_failed :
    ¬ ∀ (t : Tid) (w w' : World md5) calls start tr r, start ∈ (w.node t.peer).hashring.servers →
      (w.node t.peer).failure = .after calls →
      Prog.Does (cluster md5) t (getNextAvailableNode start) w tr r w' →
      Finds (w.node t.peer) calls start r := by
  intro h
  obtain ⟨tr, w', hdoes⟩ := (@does_getNextAvailableNode_iff md5 (.proxied (.ofTail 1))
    (afterCalls [.mark (.ofTail 3)]) (.ofTail 1) ⟨rfl, rfl, rfl⟩ (some (.ofTail 3))).2 ⟨1, by decide +kernel⟩
  have hfinds := h (.proxied (.ofTail 1)) _ w' [.mark (.ofTail 3)] (.ofTail 1) tr _
    (by decide +kernel) rfl hdoes
  exact hfinds.unmarked (by decide)

/-! ## Handing off -/

/-- The loop of `send_replicate` over the replicas, with the replicas whose send fails and the
destinations of the `Handoff`s, each with the replica that it is for. -/
inductive Spreads (t : Tid) (rid : String) (l : ShoppingList) (write : Bool) (last : Uuid) :
    List Uuid → World hash → Trace → List Uuid → List (Uuid × Uuid) → World hash → Prop
  | done (w : World hash) : Spreads t rid l write last [] w [] [] [] w
  | sent {replica : Uuid} {replicas failed : List Uuid} {handoffs : List (Uuid × Uuid)}
      {w w₁ w₂ : World hash} {tr tr₁ : Trace}
      (send : Prog.Does (cluster hash) t (sendTo replica (.replicateList rid l write)) w tr true w₁)
      (rest : Spreads t rid l write last replicas w₁ tr₁ failed handoffs w₂) :
      Spreads t rid l write last (replica :: replicas) w (tr ++ tr₁) failed handoffs w₂
  | givenUp {replica : Uuid} {replicas : List Uuid} {w w₁ w₂ : World hash} {tr tr₁ : Trace}
      (send : Prog.Does (cluster hash) t (sendTo replica (.replicateList rid l write)) w tr false w₁)
      (nobody : Prog.Does (cluster hash) t (getNextAvailableNode last) w₁ tr₁ none w₂) :
      Spreads t rid l write last (replica :: replicas) w (tr ++ tr₁) [replica] [] w₂
  | handedOff {replica next : Uuid} {replicas failed : List Uuid} {handoffs : List (Uuid × Uuid)}
      {w w₁ w₂ w₃ w₄ : World hash} {tr tr₁ tr₂ tr₃ : Trace} {b : Bool}
      (send : Prog.Does (cluster hash) t (sendTo replica (.replicateList rid l write)) w tr false w₁)
      (found : Prog.Does (cluster hash) t (getNextAvailableNode last) w₁ tr₁ (some next) w₂)
      (handoff : Prog.Does (cluster hash) t (sendTo next (.handoff rid l replica)) w₂ tr₂ b w₃)
      (rest : Spreads t rid l write last replicas w₃ tr₃ failed handoffs w₄) :
      Spreads t rid l write last (replica :: replicas) w (tr ++ (tr₁ ++ (tr₂ ++ tr₃)))
        (replica :: failed) ((next, replica) :: handoffs) w₄

/-! ### What a trace shows of the handing off -/

/-- The servers that are sent a `Handoff`. -/
def handedTo (tr : Trace) : List Uuid :=
  tr.filterMap fun e =>
    match e with
    | ⟨.send u (.handoff _ _ _), true⟩ => some u
    | _ => none

/-- The servers that are sent a `ReplicateList`. -/
def replicatedTo (tr : Trace) : List Uuid :=
  tr.filterMap fun e =>
    match e with
    | ⟨.send u (.replicateList _ _ _), true⟩ => some u
    | _ => none

/-- How often an available node was looked for. -/
def searches (tr : Trace) : ℕ := tr.countP fun e => e.1 = .turns

/-- What a part of a trace shows of the search for an available node, whose result is known. -/
def foundOnly (start next : Uuid) (tr : Trace) : Bool :=
  tr.tails.all fun later => later.inits.all fun part =>
    (Prog.replay (getNextAvailableNode start) part).all fun r => decide (r = some next)

theorem found_of_foundOnly {start next : Uuid} {tr part : Trace} {r : Option Uuid}
    (hfound : foundOnly start next tr = true) (hpart : part <:+: tr)
    (h : (getNextAvailableNode start).Ends part r) : r = some next := by
  obtain ⟨later, hprefix, hsuffix⟩ := List.infix_iff_prefix_suffix.1 hpart
  have hlater := List.all_eq_true.1 hfound later ((List.mem_tails _ _).2 hsuffix)
  have hreplay := List.all_eq_true.1 hlater part ((List.mem_inits _ _).2 hprefix)
  rw [Prog.replay_of_ends h] at hreplay
  exact of_decide_eq_true hreplay

/-- A send that succeeds has sent the message. -/
theorem mem_of_sendTo {u : Uuid} {msg : Msg} {tr : Trace} (h : (sendTo u msg).Ends tr true) :
    (⟨.send u msg, true⟩ : Sigma Peer.Ans) ∈ tr := by
  have hmark : ∀ {tr : Trace}, ¬ (markPeerFailed u >>= fun _ => (pure false : Code Bool)).Ends tr true := by
    intro tr h
    obtain ⟨_, _, _, -, -, hrest⟩ := Prog.ends_bind h
    exact Bool.noConfusion (Prog.ends_pure hrest).2
  obtain ⟨tr₁, connected, tr₂, rfl, -, hrest⟩ := Prog.ends_bind h
  cases connected with
  | false => exact (hmark hrest).elim
  | true =>
    obtain ⟨tr₃, ready, tr₄, rfl, -, hrest⟩ := Prog.ends_bind hrest
    cases ready with
    | false => exact (hmark hrest).elim
    | true =>
      obtain ⟨tr₅, sent, tr₆, rfl, hsend, hrest⟩ := Prog.ends_bind hrest
      cases sent with
      | false =>
        obtain ⟨_, _, _, -, -, hrest⟩ := Prog.ends_bind hrest
        obtain ⟨_, _, _, -, -, hrest⟩ := Prog.ends_bind hrest
        exact Bool.noConfusion (Prog.ends_pure hrest).2
      | true =>
        rw [ends_perform hsend]
        simp

/-- A search leaves its mark on the trace. -/
theorem searches_pos {start : Uuid} {tr : Trace} {r : Option Uuid}
    (h : (getNextAvailableNode start).Ends tr r) : 0 < searches tr := by
  obtain ⟨tr₁, n, tr₂, rfl, hturns, -⟩ := Prog.ends_bind h
  rw [ends_perform hturns]
  exact List.countP_pos_iff.2 ⟨⟨.turns, n⟩, by simp, by simp⟩

section Failed

variable {t : Tid} {rid : String} {l : ShoppingList} {write : Bool} {last : Uuid} {w w' : World hash}
  {failed : List Uuid} {handoffs : List (Uuid × Uuid)}

/-- Where nothing was looked for, no send has failed. -/
theorem nothing_failed {replicas : List Uuid} {tr : Trace}
    (h : Spreads t rid l write last replicas w tr failed handoffs w') (hnone : searches tr = 0) :
    failed = [] ∧ handoffs = [] := by
  induction h with
  | done => exact ⟨rfl, rfl⟩
  | sent _ _ ih =>
    refine ih ?_
    simp only [searches, List.countP_append] at hnone ⊢
    omega
  | givenUp _ nobody =>
    have hpos := searches_pos nobody.ends
    simp only [searches, List.countP_append] at hnone hpos
    omega
  | handedOff _ found _ _ =>
    have hpos := searches_pos found.ends
    simp only [searches, List.countP_append] at hnone hpos
    omega

/-- The first replica is not sent the list, and the only search finds the server that takes over. -/
theorem first_failed {first next : Uuid} {replicas : List Uuid} {tr part : Trace}
    (h : Spreads t rid l write last (first :: replicas) w part failed handoffs w') (hpart : part <:+: tr)
    (hunsent : first ∉ replicatedTo tr) (honce : searches tr ≤ 1) (hfound : foundOnly last next tr = true) :
    failed = [first] ∧ handoffs = [(next, first)] := by
  have hmany : searches part ≤ 1 := hpart.sublist.countP_le.trans honce
  cases h with
  | sent send rest =>
    have hsent := hpart.subset (List.mem_append_left _ (mem_of_sendTo send.ends))
    exact (hunsent (List.mem_filterMap.2 ⟨_, hsent, rfl⟩)).elim
  | givenUp send nobody =>
    have hnext := found_of_foundOnly hfound ((List.suffix_append _ _).isInfix.trans hpart) nobody.ends
    cases hnext
  | @handedOff _ u _ _ _ _ _ _ _ _ tr₁ tr₂ tr₃ tr₄ _ send found handoff rest =>
    have hnext := found_of_foundOnly hfound
      (List.IsInfix.trans ⟨tr₁, tr₃ ++ tr₄, by rw [List.append_assoc]⟩ hpart) found.ends
    obtain rfl := Option.some.inj hnext
    have hnone : searches tr₄ = 0 := by
      have hpos := searches_pos found.ends
      simp only [searches, List.countP_append] at hmany hpos ⊢
      omega
    obtain ⟨rfl, rfl⟩ := nothing_failed rest hnone
    exact ⟨rfl, rfl⟩

end Failed

/-! ### Where the handoffs go -/

section Handoffs

variable {t : Tid} {rid : String} {l : ShoppingList} {write : Bool} {last : Uuid}

theorem spreads_of_does {w' : World hash} :
    ∀ {replicas : List Uuid} {w : World hash} {tr : Trace},
      Prog.Does (cluster hash) t (replicateTo rid l write last replicas) w tr () w' →
      ∃ failed handoffs, Spreads t rid l write last replicas w tr failed handoffs w'
  | [], _, _, h => by
    obtain ⟨rfl, -, rfl⟩ := Prog.does_pure h
    exact ⟨[], [], .done _⟩
  | replica :: replicas, w, _, h => by
    obtain ⟨tr₁, sent, w₁, tr₂, rfl, hsend, hrest⟩ := Prog.does_bind h
    cases sent with
    | true =>
      obtain ⟨failed, handoffs, hspreads⟩ := spreads_of_does hrest
      exact ⟨failed, handoffs, .sent hsend hspreads⟩
    | false =>
      obtain ⟨tr₃, found, w₂, tr₄, rfl, hfound, hrest⟩ := Prog.does_bind hrest
      cases found with
      | none =>
        obtain ⟨rfl, -, rfl⟩ := Prog.does_pure hrest
        rw [List.append_nil]
        exact ⟨[replica], [], .givenUp hsend hfound⟩
      | some next =>
        obtain ⟨tr₅, b, w₃, tr₆, rfl, hhandoff, hrest⟩ := Prog.does_bind hrest
        obtain ⟨failed, handoffs, hspreads⟩ := spreads_of_does hrest
        exact ⟨_, _, .handedOff hsend hfound hhandoff hspreads⟩

/-- The peer has this ring, and every server on it counts as available. -/
def Reaching (t : Tid) (ring : HashRing) (w : World hash) : Prop :=
  (w.node t.peer).hashring = ring ∧ ∀ u ∈ ring.servers, (w.node t.peer).available u = true

/-- Sending marks peers as failed and clears them, which leaves all of them available. -/
theorem reaching_effect {ring : HashRing} {w : World hash} {o : Op} (ho : Routine o) (a : Ans o)
    (h : Reaching t ring w) : Reaching t ring (effect t o a w) := by
  refine ⟨(hashring_of_routine a ho w).trans h.1, fun u hu => ?_⟩
  have hav := h.2 u hu
  unfold Node.available FailureTable.isAvailable at hav ⊢
  rw [Bool.and_eq_true] at hav
  rw [node_effect, if_pos rfl, membership_after, failure_after]
  cases o with
  | membershipInsert v addr => exact ho.elim
  | markFailure v =>
    simp only [FailureTable.markFailure, FinMap.find?_insert, hav.1, Bool.true_and]
    by_cases huv : u = v
    · rw [if_pos huv]
    · rw [if_neg huv]
      exact hav.2
  | clearFailure v =>
    simp only [FailureTable.clearFailure, FinMap.find?_erase, hav.1, Bool.true_and]
    by_cases huv : u = v
    · rw [if_pos huv]
    · rw [if_neg huv]
      exact hav.2
  | _ => exact Bool.and_eq_true_iff.2 hav

theorem reaching_of_does {ring : HashRing} {w w' : World hash} {tr : Trace} {α : Type} {p : Code α}
    {a : α} (hp : p.Only Routine) (h : Prog.Does (cluster hash) t p w tr a w')
    (hw : Reaching t ring w) : Reaching t ring w' :=
  Prog.Only.does (m := cluster hash) (t := t) (I := Reaching t ring)
    (fun o c a w₁ w₂ ho hw hact => by
      obtain ⟨-, rfl⟩ := act_eq hact
      exact reaching_effect ho a hw)
    hp h hw

theorem only_getNextAvailableNode (start : Uuid) : (getNextAvailableNode start).Only Routine :=
  Prog.only_bind (only_perform trivial) fun n => only_nextAvailable start n start

/-- Where everybody is available, the search returns the server that `next_node` returns. -/
theorem leads_of_reaching {ring : HashRing} {w w' : World hash} {tr : Trace} {r : Option Uuid}
    (hlast : last ∈ ring.servers) (hother : ∃ u ∈ ring.servers, u ≠ last) (hw : Reaching t ring w)
    (h : Prog.Does (cluster hash) t (getNextAvailableNode last) w tr r w') :
    ∃ u, r = some u ∧ ring.Leads last u := by
  obtain ⟨n, tr', -, -, hrest⟩ := does_perform h
  have hturns := reaching_effect (o := .turns) trivial n hw
  have hsearch := search_of_does hrest
  rw [hturns.1] at hsearch
  cases n with
  | zero => cases hsearch
  | succ n =>
    cases hnext : ring.nextNode last with
    | none =>
      simp only [HashRing.search, hnext] at hsearch
      cases hsearch
    | some next =>
      cases next with
      | none =>
        obtain ⟨u, hu, hne⟩ := hother
        rcases HashRing.nextNode_eq_none_iff.1 hnext with hout | ⟨halone, -⟩
        · exact absurd hlast hout
        · exact absurd (halone u hu) hne
      | some next =>
        rw [HashRing.search_succ hnext, if_pos (hturns.2 next (HashRing.nextNode_ne ring hnext).2)]
          at hsearch
        exact ⟨next, (Option.some.inj hsearch).symm, hnext⟩

/-- Each replica whose send fails is handed off, and always to the server after the last replica. -/
theorem leads_of_spreads {ring : HashRing} (hlast : last ∈ ring.servers)
    (hother : ∃ u ∈ ring.servers, u ≠ last) {replicas failed : List Uuid}
    {handoffs : List (Uuid × Uuid)} {w w' : World hash} {tr : Trace}
    (h : Spreads t rid l write last replicas w tr failed handoffs w') (hw : Reaching t ring w) :
    handoffs.map Prod.snd = failed ∧ ∀ x ∈ handoffs, ring.Leads last x.1 := by
  induction h with
  | done w => exact ⟨rfl, fun x hx => nomatch hx⟩
  | sent send _ ih => exact ih (reaching_of_does (only_sendTo _ _) send hw)
  | givenUp send nobody =>
    obtain ⟨u, hu, -⟩ := leads_of_reaching hlast hother (reaching_of_does (only_sendTo _ _) send hw) nobody
    cases hu
  | handedOff send found handoff _ ih =>
    have hsent := reaching_of_does (only_sendTo _ _) send hw
    have hfound := reaching_of_does (only_getNextAvailableNode last) found hsent
    obtain ⟨hrest, hleads⟩ := ih (reaching_of_does (only_sendTo _ _) handoff hfound)
    obtain ⟨u, hu, hlead⟩ := leads_of_reaching hlast hother hsent found
    cases hu
    refine ⟨congrArg _ hrest, fun x hx => ?_⟩
    rcases List.mem_cons.1 hx with rfl | hx
    · exact hlead
    · exact hleads x hx

/-- The last replica, and the servers that a preference list with a replica has. -/
theorem last_replica {ring : HashRing} {id : Uuid}
    (h : ((ring.getPreferenceList hash id).drop 1).getLast? = some last) :
    (ring.getPreferenceList hash id).getLast? = some last ∧ last ∈ ring.servers ∧
      ∃ u ∈ ring.servers, u ≠ last := by
  have hmem := fun u => HashRing.mem_getPreferenceList hash ring id u
  have hnodup := HashRing.nodup_getPreferenceList hash ring id
  cases hlist : ring.getPreferenceList hash id with
  | nil =>
    rw [hlist] at h
    cases h
  | cons first replicas =>
    rw [hlist, List.drop_one, List.tail_cons] at h
    rw [hlist] at hmem hnodup
    have hlast : last ∈ replicas := List.mem_of_getLast? h
    refine ⟨?_, hmem last (List.mem_cons_of_mem _ hlast), first, hmem first List.mem_cons_self, ?_⟩
    · rw [List.getLast?_cons, h]
      rfl
    · rintro rfl
      exact (List.nodup_cons.1 hnodup).1 hlast

/-- All the fallback servers are the same one. -/
theorem pairwise_handoffs_iff {ring : HashRing} {handoffs : List (Uuid × Uuid)}
    (hleads : ∀ x ∈ handoffs, ring.Leads last x.1) :
    (handoffs.Pairwise fun x y => x.1 ≠ y.1) ↔ handoffs.length ≤ 1 := by
  match handoffs, hleads with
  | [], _ => simp
  | [x], _ => simp
  | x :: y :: rest, hleads =>
    have hsame : x.1 = y.1 := (HashRing.ranked_leads ring).unique (hleads x List.mem_cons_self)
      (hleads y (List.mem_cons_of_mem _ List.mem_cons_self))
    refine iff_of_false (fun hpair => ?_) (by simp)
    exact (List.pairwise_cons.1 hpair).1 y List.mem_cons_self hsame

/-- **When fallback nodes are outside the replica group**, and each failed replica gets its own:
exactly when `next_node` leads from the last replica out of the list's preference list, and only
one send fails where there are two servers outside. -/
theorem fallback_outside_iff {w w' : World hash} {id : Uuid} {tr : Trace} {b : Bool}
    (hknown : ∀ u ∈ (w.node t.peer).hashring.servers,
      ((w.node t.peer).membership.find? u).isSome = true ∧ (w.node t.peer).failure.find? u = none)
    (h : Prog.Does (cluster hash) t (sendReplicate l
      (((w.node t.peer).hashring.getPreferenceList hash id).drop 1) write) w tr b w') :
    let ring := (w.node t.peer).hashring
    let preferenceList := ring.getPreferenceList hash id
    ∃ last ∈ preferenceList.getLast?, ∃ (rid : String) (w₁ w₂ : World hash) (tr₁ : Trace)
        (failed : List Uuid) (handoffs : List (Uuid × Uuid)),
      Spreads t rid l write last (preferenceList.drop 1) w₁ tr₁ failed handoffs w₂ ∧ tr₁ <:+: tr ∧
      (failed ≠ [] →
        ((∀ x ∈ handoffs, x.1 ∉ preferenceList) ∧ (ring.replicas + 2 ≤ ring.serverCount →
            handoffs.Pairwise fun x y => x.1 ≠ y.1) ↔
          (∀ u, ring.Leads last u → u ∉ preferenceList) ∧
            (ring.replicas + 2 ≤ ring.serverCount → failed.length = 1))) := by
  intro ring preferenceList
  have hw : Reaching t ring w := by
    refine ⟨rfl, fun u hu => ?_⟩
    obtain ⟨hmember, hunmarked⟩ := hknown u hu
    unfold Node.available FailureTable.isAvailable
    rw [hmember, hunmarked]
    rfl
  -- up to the loop
  obtain ⟨rid, tr₁, -, rfl, hrest⟩ := does_perform h
  have hw₁ := reaching_effect (o := .newUuid) trivial rid hw
  obtain ⟨tr₂, _, w₂, tr₃, rfl, hinsert, hrest⟩ := Prog.does_bind hrest
  have hw₂ := reaching_of_does (only_read (o := .insertInFlight _ _) trivial) hinsert hw₁
  cases hlast : (preferenceList.drop 1).getLast? with
  | none =>
    simp only [show (List.drop 1 (HashRing.getPreferenceList hash (w.node t.peer).hashring id)).getLast? =
      none from hlast] at hrest
    obtain ⟨e, -⟩ := does_perform hrest
    exact e.elim
  | some last =>
    simp only [show (List.drop 1 (HashRing.getPreferenceList hash (w.node t.peer).hashring id)).getLast? =
      some last from hlast] at hrest
    obtain ⟨tr₄, _, w₃, tr₅, rfl, hloop, -⟩ := Prog.does_bind hrest
    obtain ⟨failed, handoffs, hspreads⟩ := spreads_of_does hloop
    obtain ⟨hgetLast, hserver, hother⟩ := last_replica hlast
    obtain ⟨hfailed, hleads⟩ := leads_of_spreads hserver hother hspreads hw₂
    have hlength : handoffs.length = failed.length := by rw [← hfailed, List.length_map]
    refine ⟨last, hgetLast, rid.toString, w₂, w₃, tr₄, failed, handoffs, hspreads,
      ⟨⟨.newUuid, rid⟩ :: tr₂, tr₅, by simp⟩, fun hne => ?_⟩
    have hpos : 0 < failed.length := List.length_pos_of_ne_nil hne
    refine and_congr ⟨fun hout u hu => ?_, fun hout x hx => hout x.1 (hleads x hx)⟩
      (imp_congr_right fun _ => ?_)
    · obtain ⟨x, hx⟩ := List.exists_mem_of_length_pos (hlength ▸ hpos)
      rw [(HashRing.ranked_leads ring).unique hu (hleads x hx)]
      exact hout x hx
    · rw [pairwise_handoffs_iff hleads, hlength]
      omega

end Handoffs

/-- The send to the first of two replicas fails, its fallback server is found in the first turn, and
the other sends succeed. -/
def firstSendFails : List Choice :=
  .uuid (.ofTail 301) :: List.replicate 6 .yes ++ .no :: List.replicate 3 .yes ++ .nat 1 ::
    List.replicate 35 .yes ++ .no :: List.replicate 3 .yes

/-- Four servers with one vnode each, behind the hash of list 101. -/
def inLine : World md5 :=
  let w : World md5 := .joined md5 [.ofTail 1, .ofTail 2, .ofTail 3, .ofTail 4]
  let h := md5 (Uuid.ofTail 101).toString
  w.setNode (.ofTail 1) { w.node (.ofTail 1) with
    hashring := ⟨.ofList [(h + 1, Uuid.ofTail 1), (h + 2, Uuid.ofTail 2), (h + 3, Uuid.ofTail 3),
      (h + 4, Uuid.ofTail 4)], 1, REPLICAS⟩ }

/-- The send to server 2 fails, and the fourth server takes the list over for it. -/
theorem fallback_outside_iff_inLine :
    ∃ last rid w₁ w₂ tr failed handoffs,
      Spreads (.proxied (.ofTail 1)) rid (ServerStorage.oneItem "milk" 201) true last
        [.ofTail 2, .ofTail 3] (w₁ : World md5) tr failed handoffs w₂ ∧
      failed = [.ofTail 2] ∧ handoffs = [(.ofTail 4, .ofTail 2)] ∧
      ∀ x ∈ handoffs, x.1 ∉ [Uuid.ofTail 1, .ofTail 2, .ofTail 3] := by
  have hlist : (inLine.node (.ofTail 1)).hashring.getPreferenceList md5 (.ofTail 101) =
      [.ofTail 1, .ofTail 2, .ofTail 3] := by decide +kernel
  obtain ⟨tr, b, w', h, hcheck⟩ := Prog.exists_does (m := cluster md5) (t := .proxied (.ofTail 1))
    firstSendFails (sendReplicate (ServerStorage.oneItem "milk" 201)
      (((inLine.node (.ofTail 1)).hashring.getPreferenceList md5 (.ofTail 101)).drop 1) true) inLine
    (fun tr => decide (.ofTail 2 ∉ replicatedTo tr ∧ searches tr ≤ 1 ∧
      foundOnly (.ofTail 3) (.ofTail 4) tr = true)) (by decide +kernel)
  obtain ⟨hsecond, honce, hfound⟩ := of_decide_eq_true hcheck
  obtain ⟨last, hlast, rid, w₁, w₂, tr₁, failed, handoffs, hspreads, hpart, hiff⟩ :=
    fallback_outside_iff (t := .proxied (.ofTail 1)) (by decide +kernel) h
  rw [show (inLine.node (Tid.proxied (.ofTail 1)).peer).hashring.getPreferenceList md5 (.ofTail 101) =
    _ from hlist] at hlast hspreads hiff
  obtain rfl : last = .ofTail 3 := (Option.some.inj hlast).symm
  have hfourth : (inLine.node (.ofTail 1)).hashring.Leads (.ofTail 3) (.ofTail 4) := by decide +kernel
  have hfailed := first_failed hspreads hpart hsecond honce hfound
  refine ⟨_, rid, w₁, w₂, tr₁, failed, handoffs, hspreads, hfailed.1, hfailed.2,
    ((hiff (hfailed.1 ▸ List.cons_ne_nil _ _)).2 ⟨?_, ?_⟩).1⟩
  · intro u hu
    rw [(HashRing.ranked_leads _).unique hu hfourth]
    decide
  · exact fun hmany => absurd hmany (by decide +kernel)

/-- Server 1 coordinates list 101, and is to take it over for server 3. -/
theorem fallback_inside :
    ¬ ∀ (t : Tid) (w w' : World md5) (id : Uuid) l write tr b,
      (w.node t.peer).hashring.replicas < (w.node t.peer).hashring.serverCount →
      (∀ u ∈ (w.node t.peer).hashring.servers,
        ((w.node t.peer).membership.find? u).isSome = true ∧ (w.node t.peer).failure.find? u = none) →
      (w.node t.peer).hashring.getCoordinator md5 id = some t.peer →
      Prog.Does (cluster md5) t (sendReplicate l
        (((w.node t.peer).hashring.getPreferenceList md5 id).drop 1) write) w tr b w' →
      ∀ u ∈ handedTo tr, u ∉ (w.node t.peer).hashring.getPreferenceList md5 id := by
  intro h
  let w : World md5 := .joined md5 [.ofTail 1, .ofTail 2, .ofTail 3, .ofTail 4]
  obtain ⟨tr, b, w', hdoes, hcheck⟩ := Prog.exists_does (m := cluster md5) (t := .proxied (.ofTail 1))
    firstSendFails (sendReplicate (ServerStorage.oneItem "milk" 201)
      (((w.node (.ofTail 1)).hashring.getPreferenceList md5 (.ofTail 101)).drop 1) true) w
    (fun tr => decide (Uuid.ofTail 1 ∈ handedTo tr)) (by decide +kernel)
  refine h (.proxied (.ofTail 1)) w w' (.ofTail 101) _ true tr b ?_ ?_ ?_ hdoes (.ofTail 1)
    (of_decide_eq_true hcheck) ?_
  · decide +kernel
  · decide +kernel
  · decide +kernel
  · decide +kernel

end Sdle
