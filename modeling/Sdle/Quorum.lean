import Sdle.Copies

/-!
# The write quorum

* `write_quorum` — **a write quorum means distinct durable copies** in every run in which each copy of
  a request is sent to a server that is not its coordinator and has not been sent one, and a server
  that is sent a `Handoff` stores it.

The coordinator only counts answers.  `copies` says that they come from distinct servers; here they are
followed back to what those servers have stored.
-/

set_option autoImplicit false

namespace Sdle

open Tasks Peer ServerStorage

variable {hash : String → U128}

/-- The list that a server stores in a step, as its own or as a hint. -/
def keeps (v : Uuid) (ev : Event (cluster hash)) : Option ShoppingList :=
  (stored v ev).or ((hinted v ev).map Prod.fst)

/-- A server has stored a state that dominates the list. -/
def HasStored (evs : History hash) (v : Uuid) (l : ShoppingList) : Prop :=
  ∃ s ∈ evs.filterMap (keeps v), s.id = l.id ∧ l.list ≤ s.list

/-- A `ReplicateList` that only reads has been sent for a request. -/
def ReadSent (evs : History hash) (rid : String) : Prop :=
  ∃ t u l, .did t (.send u (.replicateList rid l false)) true ∈ evs

/-- When a coordinator finds its write replicated, enough distinct other servers have stored a state
that dominates the list. -/
def Secured (earlier : History hash) : Event (cluster hash) → Prop
  | .did t (.await rid) true =>
    ∀ job replicas todo, phases earlier t = .spreading job replicas rid todo → job.write = true →
      ∃ C : Finset Uuid, WRITE_NODES ≤ C.card ∧ t.peer ∉ C ∧ ∀ v ∈ C, HasStored earlier v job.list
  | _ => True

/-- Every copy of a request goes to a server that is not the coordinator and has not been sent one,
and no `Handoff` fails to be stored. -/
def separate : Discipline (cluster hash) := fun evs _ ev =>
  match ev with
  | .did _ (.writeShoppingListHandoff _ _) none => False
  | .did (.proxied u) (.send v m) true => ∀ rid, m.asks = some rid → v ≠ u ∧ v ∉ targets rid evs
  | _ => True

theorem HasStored.cons {evs : History hash} {v : Uuid} {l : ShoppingList} (h : HasStored evs v l)
    (ev : Event (cluster hash)) : HasStored (ev :: evs) v l := by
  obtain ⟨s, hs, h⟩ := h
  refine ⟨s, ?_, h⟩
  rw [List.filterMap_cons]
  split
  · exact hs
  · exact List.mem_cons_of_mem _ hs

theorem hasStored_of_keeps {evs : History hash} {v : Uuid} {l : ShoppingList}
    {ev : Event (cluster hash)} (h : keeps v ev = some l) : HasStored (ev :: evs) v l := by
  refine ⟨l, ?_, rfl, le_rfl⟩
  rw [List.filterMap_cons_some h]
  exact List.mem_cons_self

theorem ReadSent.cons {evs : History hash} {rid : String} (h : ReadSent evs rid)
    (ev : Event (cluster hash)) : ReadSent (ev :: evs) rid := by
  obtain ⟨t, u, l, hmem⟩ := h
  exact ⟨t, u, l, List.mem_cons_of_mem _ hmem⟩

theorem targets_of_readSent {evs : History hash} {rid : String} (h : ReadSent evs rid) :
    targets rid evs ≠ [] := by
  obtain ⟨t, u, l, hmem⟩ := h
  refine List.ne_nil_of_mem (a := u) ?_
  unfold targets
  rw [List.mem_filterMap]
  exact ⟨_, hmem, if_pos rfl⟩

namespace Phase

/-- The request id and the list that a task is going to store. -/
def storing : Phase → Option (String × ShoppingList)
  | .store _ rid l => some (rid, l)
  | .hint _ rid l _ => some (rid, l)
  | _ => none

/-- The request id that a task has read a row for. -/
def reading : Phase → Option String
  | .look _ rid _ => some rid
  | .ackListTo _ rid _ => some rid
  | _ => none

/-- The request id that a task is going to acknowledge. -/
def acking : Phase → Option String
  | .ackTo _ rid => some rid
  | _ => none

variable {g : Phase} {o : Op} {a : Ans o}

theorem storing_next (ho : g.allow o) {x : String × ShoppingList}
    (h : (g.next hash o a).storing = some x) : g.storing = some x := by
  have hgo : Goes hash g o a (g.next hash o a) := goes_next ho
  generalize g.next hash o a = g' at hgo h
  cases hgo with
  | stay => exact h
  | _ => cases h

theorem reading_next (ho : g.allow o) {rid : String} (h : (g.next hash o a).reading = some rid) :
    g.reading = some rid := by
  have hgo : Goes hash g o a (g.next hash o a) := goes_next ho
  generalize g.next hash o a = g' at hgo h
  cases hgo with
  | stay => exact h
  | found => exact h
  | _ => cases h

/-- What is acknowledged has been stored in this step, unless it is a hint that could not be. -/
theorem acking_next (ho : g.allow o) {t : Tid} {rid : String}
    (h : (g.next hash o a).acking = some rid) :
    g.acking = some rid ∨
      (∃ l, g.storing = some (rid, l) ∧
        keeps t.peer (.did t o a : Event (cluster hash)) = some l) ∨
      ∃ l d, (.did t o a : Event (cluster hash)) = .did t (.writeShoppingListHandoff l d) none := by
  have hgo : Goes hash g o a (g.next hash o a) := goes_next ho
  generalize g.next hash o a = g' at hgo h
  cases hgo with
  | stay => exact Or.inl h
  | kept =>
    obtain rfl := Option.some.inj h
    refine Or.inr (Or.inl ⟨_, rfl, ?_⟩)
    simp [keeps, stored]
  | noted =>
    obtain rfl := Option.some.inj h
    rename_i stored
    cases stored with
    | none => exact Or.inr (Or.inr ⟨_, _, rfl⟩)
    | some _ =>
      refine Or.inr (Or.inl ⟨_, rfl, ?_⟩)
      simp [keeps, Sdle.stored, hinted]
  | _ => cases h

theorem holds_of_storing {x : String × ShoppingList} (h : g.storing = some x) :
    g.holds = some x.1 := by
  cases g with
  | store src rid l =>
    obtain rfl := Option.some.inj h
    rfl
  | hint src rid l d =>
    obtain rfl := Option.some.inj h
    rfl
  | _ => cases h

theorem holds_of_acking {rid : String} (h : g.acking = some rid) : g.holds = some rid := by
  cases g with
  | ackTo src rid' => exact h
  | _ => cases h

theorem storing_ofIncoming {src : Uuid} {m : Msg} {x : String × ShoppingList}
    (h : (ofIncoming src m).storing = some x) : m.carries = some x := by
  cases m with
  | replicateList rid l write =>
    cases write with
    | true => exact h
    | false => cases h
  | handoff rid l d => exact h
  | _ => cases h

theorem reading_ofIncoming {src : Uuid} {m : Msg} {rid : String}
    (h : (ofIncoming src m).reading = some rid) : ∃ l, m = .replicateList rid l false := by
  cases m with
  | replicateList rid' l write =>
    cases write with
    | true => cases h
    | false =>
      obtain rfl := Option.some.inj h
      exact ⟨l, rfl⟩
  | _ => cases h

theorem acking_ofIncoming (src : Uuid) (m : Msg) : (ofIncoming src m).acking = none := by
  cases m with
  | replicateList rid l write => cases write <;> rfl
  | _ => rfl

/-- Only the coordinator of a read asks for rows. -/
theorem read_of_allow {u : Uuid} {rid : String} {l : ShoppingList}
    (ho : g.allow (.send u (.replicateList rid l false))) :
    ∃ job replicas todo, g = .spreading job replicas rid todo ∧ job.write = false := by
  rcases ho with hc | hsends
  · cases hc
  · cases g with
    | moving ls =>
      obtain ⟨l', -, hm⟩ := hsends
      cases hm
    | hinting rid' todo =>
      cases todo with
      | nil => exact hsends.elim
      | cons x todo =>
        obtain ⟨-, hm⟩ := hsends
        cases hm
    | spreading job replicas rid' todo =>
      rcases hsends with ⟨-, hm⟩ | ⟨-, r, -, hm⟩
      · obtain ⟨rfl, -, hw⟩ := Msg.replicateList.inj hm
        exact ⟨job, replicas, todo, rfl, hw.symm⟩
      · cases hm
    | ackTo src rid' => cases hsends.2
    | ackListTo src rid' l' => cases hsends.2
    | _ => exact hsends.elim

/-- Who sends which answer. -/
theorem answer_of_allow {u : Uuid} {m : Msg} (ho : g.allow (.send u m)) {rid : String}
    {x : Option ShoppingList} (hm : m.answers = some (rid, x)) :
    x = none ∧ g.acking = some rid ∨ (∃ l, x = some l) ∧ g.reading = some rid := by
  rcases ho with hc | hsends
  · rw [(asks_of_control hc).2] at hm
    cases hm
  · cases g with
    | ackTo src rid' =>
      obtain ⟨-, rfl⟩ := hsends
      obtain ⟨rfl, rfl⟩ := Prod.mk.inj (Option.some.inj hm)
      exact Or.inl ⟨rfl, rfl⟩
    | ackListTo src rid' l =>
      obtain ⟨-, rfl⟩ := hsends
      obtain ⟨rfl, rfl⟩ := Prod.mk.inj (Option.some.inj hm)
      exact Or.inr ⟨⟨l, rfl⟩, rfl⟩
    | moving ls =>
      obtain ⟨l, -, rfl⟩ := hsends
      cases hm
    | hinting rid' todo =>
      cases todo with
      | nil => exact hsends.elim
      | cons y todo =>
        obtain ⟨-, rfl⟩ := hsends
        cases hm
    | spreading job replicas rid' todo =>
      rcases hsends with ⟨-, rfl⟩ | ⟨-, r, -, rfl⟩ <;> cases hm
    | _ => exact hsends.elim

/-- Where a request that is being replicated comes from. -/
theorem spreading_next (ho : g.allow o) {job : Job} {replicas : List Uuid} {rid : String}
    {todo : List Uuid} (h : g.next hash o a = .spreading job replicas rid todo) :
    (∃ todo', g = .spreading job replicas rid todo') ∨
      g = .named job replicas rid ∧ o = .insertInFlight rid (.opened job.list) := by
  have hgo : Goes hash g o a (g.next hash o a) := goes_next ho
  rw [h] at hgo
  cases hgo with
  | stay => exact Or.inl ⟨todo, rfl⟩
  | opened => exact Or.inr ⟨rfl, rfl⟩
  | spread => exact Or.inl ⟨_, rfl⟩

end Phase

/-! ## The invariant -/

/-- What holds of the copies of the requests that have been put in flight. -/
structure Copied (evs : History hash) (w : World hash) : Prop where
  net : ∀ p ∈ w.net, ∀ rid l, p.msg.carries = some (rid, l) →
    ∀ u l₀, opened rid evs = [(u, l₀)] → l = l₀
  storing : ∀ v s rid l, (phases evs (.incoming v s)).storing = some (rid, l) →
    ∀ u l₀, opened rid evs = [(u, l₀)] → l = l₀
  acking : ∀ v s rid, (phases evs (.incoming v s)).acking = some rid →
    ∀ u l₀, opened rid evs = [(u, l₀)] → HasStored evs v l₀
  replied : ∀ rid v x, Replied evs rid v x → v ∈ targets rid evs
  acked : ∀ rid v, Replied evs rid v none →
    ∀ u l₀, opened rid evs = [(u, l₀)] → HasStored evs v l₀

/-- What holds of the requests that replicate a write. -/
structure Written (evs : History hash) (w : World hash) : Prop where
  net : ∀ p ∈ w.net, ∀ rid l, p.msg = .replicateList rid l false → ReadSent evs rid
  reading : ∀ v s rid, (phases evs (.incoming v s)).reading = some rid → ReadSent evs rid
  listed : ∀ rid v l, Replied evs rid v (some l) → ReadSent evs rid
  writes : ∀ t job replicas rid todo, phases evs t = .spreading job replicas rid todo →
    job.write = true → ¬ ReadSent evs rid

/-- The copies of a request go to distinct servers, none of them its coordinator. -/
def Distinct (evs : History hash) : Prop :=
  ∀ rid u l, opened rid evs = [(u, l)] → (targets rid evs).Nodup ∧ u ∉ targets rid evs

section Did

variable {evs : History hash} {w : World hash} {t : Tid} {o : Op} {a : Ans o}

/-- What was in flight before the step, or has just been put in flight and not been sent. -/
theorem opened_or_new (a : Ans o) (hreg : Registered evs w) (hun : Unused evs w)
    (hallow : (phases evs t).allow o) {rid : String} {u : Uuid} {l : ShoppingList}
    (h : opened rid (.did t o a :: evs) = [(u, l)]) :
    opened rid evs = [(u, l)] ∨ targets rid evs = [] ∧ ∃ q, o = .insertInFlight rid q := by
  rcases hreg.opened_did a hallow rid with ⟨heq, -⟩ | ⟨l', ho, hname, -⟩
  · rw [heq] at h
    exact Or.inl h
  · exact Or.inr ⟨(hun.named t rid hname).1, _, ho⟩

/-- A request that has been sent was in flight before the step. -/
theorem opened_before (hreg : Registered evs w) (hun : Unused evs w)
    (hallow : (phases evs t).allow o) {rid : String} {u v : Uuid} {l : ShoppingList}
    (hopen : opened rid (.did t o a :: evs) = [(u, l)]) (hv : v ∈ targets rid evs) :
    opened rid evs = [(u, l)] := by
  refine (opened_or_new a hreg hun hallow hopen).resolve_right ?_
  rintro ⟨hnone, -⟩
  rw [hnone] at hv
  exact List.not_mem_nil hv

/-- Nobody but its coordinator sends a query for a request in flight. -/
theorem pending_of_carries (hreg : Registered evs w) (hun : Unused evs w) {v : Uuid} {m : Msg}
    (hallow : (phases evs t).allow (.send v m)) {rid : String} {l : ShoppingList}
    (hm : m.carries = some (rid, l)) {u : Uuid} {l₀ : ShoppingList}
    (hopen : opened rid evs = [(u, l₀)]) :
    (phases evs t).pending = some (rid, l) ∧ u = t.peer ∧ l = l₀ := by
  have hne : opened rid evs ≠ [] := by
    rw [hopen]
    exact List.cons_ne_nil _ _
  rcases Phase.carries_of_allow hallow hm with h | rfl | h
  · exact absurd (hun.hinting t rid h).2 hne
  · obtain ⟨u', -, hu'⟩ := List.mem_map.1 (hreg.drawn "" hne)
    exact absurd hu' (Uuid.toString_ne_empty u')
  · have hpending := hreg.pending t rid l h
    rw [hopen] at hpending
    obtain ⟨rfl, rfl⟩ := Prod.mk.inj (List.cons.inj hpending).1
    exact ⟨h, rfl, rfl⟩

/-- Nobody else sends a query for a request in flight. -/
theorem targets_other (hreg : Registered evs w) (hun : Unused evs w)
    (hfits : ∀ t, (phases evs t).Fits t) (hallow : (phases evs t).allow o) {t' : Tid} (ht : t' ≠ t)
    {rid : String} {l : ShoppingList} (hp : (phases evs t').pending = some (rid, l)) :
    targets rid (.did t o a :: evs) = targets rid evs := by
  rw [targets_cons]
  cases hask : asked rid (.did t o a : Event (cluster hash)) with
  | none => rfl
  | some v =>
    obtain ⟨m, hm, hev⟩ := asked_eq_some hask
    cases hev
    obtain ⟨⟨rid', l'⟩, hcarries, rfl⟩ := Option.map_eq_some_iff.1 hm
    obtain ⟨hpending, hpeer, -⟩ :=
      pending_of_carries hreg hun hallow hcarries (hreg.pending t' rid' l hp)
    have ht' := proxied_of_pending (hfits t') hp
    rw [hpeer, ← proxied_of_pending (hfits t) hpending] at ht'
    exact absurd ht' ht

theorem copied_did (hcop : Copied evs w) (hreg : Registered evs w) (hun : Unused evs w)
    (hfit : (phases evs t).Fits t) (hallow : (phases evs t).allow o)
    (hD : ∀ l d, (.did t o a : Event (cluster hash)) ≠ .did t (.writeShoppingListHandoff l d) none) :
    Copied (.did t o a :: evs) (effect t o a w) := by
  -- a request that has just been put in flight has no copies
  have hnew : ∀ {rid u l₀}, opened rid (.did t o a :: evs) = [(u, l₀)] → ∀ {v},
      v ∈ targets rid evs → opened rid evs = [(u, l₀)] :=
    fun hopen _ hv => opened_before hreg hun hallow hopen hv
  have hreplied : ∀ {rid v x}, Replied (.did t o a :: evs) rid v x → Replied evs rid v x ∨
      ∃ s u m, m.answers = some (rid, x) ∧ t = .incoming v s ∧
        (.did t o a : Event (cluster hash)) = .did t (.send u m) true := by
    rintro rid v x ⟨s, u, m, hmem, hm⟩
    rcases List.mem_cons.1 hmem with heq | hmem
    · cases heq
      exact Or.inr ⟨s, u, m, hm, rfl, rfl⟩
    · exact Or.inl ⟨s, u, m, hmem, hm⟩
  have htarget : ∀ {rid v x}, Replied (.did t o a :: evs) rid v x → v ∈ targets rid evs := by
    intro rid v x h
    rcases hreplied h with h | ⟨s, u, m, hm, rfl, hev⟩
    · exact hcop.replied rid v x h
    · cases hev
      exact hun.holding v s rid (@Phase.answers_of_allow hash _ _ _ hallow _ _ hm true).1
  refine ⟨?net, ?storing, ?acking, fun rid v x h => targets_subset _ _ _ (htarget h), ?acked⟩
  case net =>
    intro p hp rid l hm u l₀ hopen
    rcases mem_net_effect hp with hp | ⟨v, m, rfl, hev⟩
    · have hasks : p.msg.asks = some rid := by
        rw [Msg.asks, hm]
        rfl
      exact hcop.net p hp rid l hm u l₀ (hnew hopen (hun.net p hp rid hasks))
    · cases hev
      rcases opened_or_new (o := .send v m) true hreg hun hallow hopen with hopen | ⟨-, q, ho⟩
      · exact (pending_of_carries hreg hun hallow hm hopen).2.2
      · cases ho
  case storing =>
    intro v s rid l h u l₀ hopen
    have hold : (phases evs (.incoming v s)).storing = some (rid, l) := by
      rw [phases_did] at h
      split at h
      · rename_i ht
        rw [ht]
        exact Phase.storing_next hallow h
      · exact h
    exact hcop.storing v s rid l hold u l₀
      (hnew hopen (hun.holding v s rid (Phase.holds_of_storing hold)))
  case acking =>
    intro v s rid h u l₀ hopen
    rw [phases_did] at h
    split at h
    · rename_i ht
      subst ht
      rcases Phase.acking_next (t := .incoming v s) hallow h with h | ⟨l, h, hkeeps⟩ | ⟨l, d, hev⟩
      · have hopen := hnew hopen (hun.holding v s rid (Phase.holds_of_acking h))
        exact (hcop.acking v s rid h u l₀ hopen).cons _
      · have hopen := hnew hopen (hun.holding v s rid (Phase.holds_of_storing h))
        rw [← hcop.storing v s rid l h u l₀ hopen]
        exact hasStored_of_keeps hkeeps
      · exact absurd hev (hD l d)
    · have hopen := hnew hopen (hun.holding v s rid (Phase.holds_of_acking h))
      exact (hcop.acking v s rid h u l₀ hopen).cons _
  case acked =>
    intro rid v h u l₀ hopen
    have hopen := hnew hopen (htarget h)
    rcases hreplied h with h | ⟨s, u', m, hm, rfl, hev⟩
    · exact (hcop.acked rid v h u l₀ hopen).cons _
    · cases hev
      rcases Phase.answer_of_allow hallow hm with ⟨-, hacking⟩ | ⟨⟨l, hl⟩, -⟩
      · exact (hcop.acking v s rid hacking u l₀ hopen).cons _
      · cases hl

theorem written_did (hwr : Written evs w) (hreg : Registered evs w) (hun : Unused evs w)
    (hfits : ∀ t, (phases evs t).Fits t) (hallow : (phases evs t).allow o) :
    Written (.did t o a :: evs) (effect t o a w) := by
  have hread : ∀ {rid}, ReadSent (.did t o a :: evs) rid → ReadSent evs rid ∨
      ∃ u l, (.did t o a : Event (cluster hash)) = .did t (.send u (.replicateList rid l false)) true := by
    rintro rid ⟨t', u, l, hmem⟩
    rcases List.mem_cons.1 hmem with heq | hmem
    · cases heq
      exact Or.inr ⟨u, l, rfl⟩
    · exact Or.inl ⟨t', u, l, hmem⟩
  have hreading : ∀ {v s rid}, (phases (.did t o a :: evs) (.incoming v s)).reading = some rid →
      (phases evs (.incoming v s)).reading = some rid := by
    intro v s rid h
    rw [phases_did] at h
    split at h
    · rename_i ht
      rw [ht]
      exact Phase.reading_next hallow h
    · exact h
  refine ⟨?net, fun v s rid h => (hwr.reading v s rid (hreading h)).cons _, ?listed, ?writes⟩
  case net =>
    intro p hp rid l hm
    rcases mem_net_effect hp with hp | ⟨v, m, rfl, hev⟩
    · exact (hwr.net p hp rid l hm).cons _
    · obtain rfl : m = .replicateList rid l false := hm
      rw [hev]
      exact ⟨t, v, l, List.mem_cons_self⟩
  case listed =>
    rintro rid v l ⟨s, u, m, hmem, hm⟩
    rcases List.mem_cons.1 hmem with heq | hmem
    · cases heq
      rcases Phase.answer_of_allow hallow hm with ⟨hl, -⟩ | ⟨-, hreading⟩
      · cases hl
      · exact (hwr.reading v s rid hreading).cons _
    · exact (hwr.listed rid v l ⟨s, u, m, hmem, hm⟩).cons _
  case writes =>
    intro t' job replicas rid todo h hw hsent
    have hpending : ∀ {t job replicas todo}, phases evs t = .spreading job replicas rid todo →
        opened rid evs = [(t.peer, job.list)] ∧ t = .proxied t.peer := by
      intro t job replicas todo h
      have hfit := hfits t
      have hp := hreg.pending t rid job.list (by rw [h]; rfl)
      rw [h] at hfit
      exact ⟨hp, hfit⟩
    -- the task was replicating before, or its request has just been put in flight
    have hold : (∃ todo', phases evs t' = .spreading job replicas rid todo') ∨
        (phases evs t').name = some rid ∧ ∃ q, o = .insertInFlight rid q := by
      rw [phases_did] at h
      split at h
      · rename_i ht
        subst ht
        rcases Phase.spreading_next hallow h with h | ⟨h, ho⟩
        · exact Or.inl h
        · exact Or.inr ⟨by rw [h]; rfl, _, ho⟩
      · exact Or.inl ⟨todo, h⟩
    rcases hold with ⟨todo', hold⟩ | ⟨hname, q, rfl⟩
    · rcases hread hsent with hsent | ⟨u, l, hev⟩
      · exact hwr.writes t' job replicas rid todo' hold hw hsent
      · cases hev
        obtain ⟨job', replicas', todo'', hg, hw'⟩ := Phase.read_of_allow hallow
        obtain ⟨hopen, ht⟩ := hpending hg
        obtain ⟨hopen', ht'⟩ := hpending hold
        rw [hopen] at hopen'
        have hpeer := (Prod.mk.inj (List.cons.inj hopen').1).1
        have htt : t = t' := by rw [ht, ht', hpeer]
        rw [htt, hold] at hg
        obtain ⟨rfl, -⟩ := Phase.spreading.inj hg
        rw [hw] at hw'
        cases hw'
    · rcases hread hsent with hsent | ⟨u, l, hev⟩
      · exact targets_of_readSent hsent (hun.named t' rid hname).1
      · cases hev

theorem distinct_did (hdis : Distinct evs) (hreg : Registered evs w) (hun : Unused evs w)
    (hfit : (phases evs t).Fits t) (hallow : (phases evs t).allow o)
    (hD : separate evs w (.did t o a)) : Distinct (.did t o a :: evs) := by
  intro rid u l hopen
  rw [targets_cons]
  rcases opened_or_new a hreg hun hallow hopen with hopen | ⟨hnone, q, rfl⟩
  · obtain ⟨hnodup, hu⟩ := hdis rid u l hopen
    cases hask : asked rid (.did t o a : Event (cluster hash)) with
    | none => exact ⟨hnodup, hu⟩
    | some v =>
      obtain ⟨m, hm, hev⟩ := asked_eq_some hask
      cases hev
      obtain ⟨⟨rid', l'⟩, hcarries, rfl⟩ := Option.map_eq_some_iff.1 hm
      obtain ⟨hpending, rfl, -⟩ := pending_of_carries hreg hun hallow hcarries hopen
      rw [proxied_of_pending hfit hpending] at hD
      obtain ⟨hne, hfresh⟩ := hD rid' hm
      refine ⟨List.nodup_cons.2 ⟨hfresh, hnodup⟩, fun h => ?_⟩
      rcases List.mem_cons.1 h with h | h
      · exact hne h.symm
      · exact hu h
  · rw [hnone]
    exact ⟨List.nodup_nil, List.not_mem_nil⟩

end Did

theorem copied_arrived {evs : History hash} {w w' : World hash} {e : Arrival}
    {r : Option (Tid × Code Unit)} (hcop : Copied evs w) (harr : arrive e w = some (r, w')) :
    Copied (.arrived e :: evs) w' := by
  have hreplied : ∀ {rid v x}, Replied (.arrived e :: evs : History hash) rid v x →
      Replied evs rid v x := fun h => h.of_other (arrived_ne_did e)
  refine ⟨fun p hp rid l hm => ?_, fun v s rid l h => ?_, fun v s rid h u l₀ hopen => ?_,
    fun rid v x h => hcop.replied rid v x (hreplied h),
    fun rid v h u l₀ hopen => (hcop.acked rid v (hreplied h) u l₀ hopen).cons _⟩
  · rcases net_arrive harr hp with hp | ⟨src, dst, msg, -, hext, rfl⟩
    · exact hcop.net p hp rid l hm
    · have hnone : msg.asks = none := (asks_of_external hext).1
      rw [Msg.asks, show msg.carries = some (rid, l) from hm] at hnone
      cases hnone
  · rcases phases_arrived evs e (.incoming v s) with heq | ⟨g, hbegun, hg⟩
    · rw [heq] at h
      exact hcop.storing v s rid l h
    · rw [hg] at h
      obtain ⟨p, rfl, rfl, rfl, rfl⟩ := Phase.incoming_begun hbegun
      exact hcop.net p (mem_net_of_deliver harr) rid l (Phase.storing_ofIncoming h)
  · rcases phases_arrived evs e (.incoming v s) with heq | ⟨g, hbegun, hg⟩
    · rw [heq] at h
      exact (hcop.acking v s rid h u l₀ hopen).cons _
    · rw [hg] at h
      obtain ⟨p, rfl, rfl, rfl, rfl⟩ := Phase.incoming_begun hbegun
      rw [Phase.acking_ofIncoming] at h
      cases h

theorem written_arrived {evs : History hash} {w w' : World hash} {e : Arrival}
    {r : Option (Tid × Code Unit)} (hwr : Written evs w) (harr : arrive e w = some (r, w')) :
    Written (.arrived e :: evs) w' := by
  refine ⟨fun p hp rid l hm => ?_, fun v s rid h => ?_, fun rid v l h => ?_, ?_⟩
  · rcases net_arrive harr hp with hp | ⟨src, dst, msg, -, hext, rfl⟩
    · exact (hwr.net p hp rid l hm).cons _
    · rw [show msg = .replicateList rid l false from hm] at hext
      cases hext
  · rcases phases_arrived evs e (.incoming v s) with heq | ⟨g, hbegun, hg⟩
    · rw [heq] at h
      exact (hwr.reading v s rid h).cons _
    · rw [hg] at h
      obtain ⟨p, rfl, rfl, rfl, rfl⟩ := Phase.incoming_begun hbegun
      obtain ⟨l, hm⟩ := Phase.reading_ofIncoming h
      exact (hwr.net p (mem_net_of_deliver harr) rid l hm).cons _
  · obtain ⟨s, u, m, hmem, hm⟩ := h
    rcases List.mem_cons.1 hmem with heq | hmem
    · cases heq
    · exact (hwr.listed rid v l ⟨s, u, m, hmem, hm⟩).cons _
  · rintro t job replicas rid todo h hw ⟨t', u, l, hmem⟩
    exact hwr.writes t job replicas rid todo (phases_of_arrived h rfl) hw
      ⟨t', u, l, mem_of_other (arrived_ne_did e) hmem⟩

/-- A coordinator that finds a write replicated has the copies it needs. -/
theorem secured_did {evs : History hash} {w : World hash} {t : Tid} {o : Op} {c : Choice} {a : Ans o}
    (hcop : Copied evs w) (hwr : Written evs w) (hdis : Distinct evs) (hreg : Registered evs w)
    (htr : ∀ rid, Tracked rid evs w) (ha : answer t o c w = some a) :
    Secured evs (.did t o a) := by
  cases o with
  | await rid =>
    cases a with
    | false => trivial
    | true =>
      intro job replicas todo hg hw
      have hfired : rid ∈ (w.node t.peer).fired := fired_of_await ha
      have hopen := hreg.pending t rid job.list (by rw [hg]; rfl)
      obtain ⟨hnodup, hpeer⟩ := hdis rid _ _ hopen
      obtain ⟨own, htracks⟩ := htr rid hnodup
      obtain ⟨C, hcard, hC⟩ := htracks.fired t.peer hfired
      refine ⟨C, hcard, fun h => hpeer (hC _ h).1, fun v hv => ?_⟩
      obtain ⟨-, x, hx⟩ := hC v hv
      cases x with
      | none => exact hcop.acked rid v hx _ _ hopen
      | some l => exact absurd (hwr.listed rid v l hx) (hwr.writes t job replicas rid todo hg hw)
  | _ => trivial

/-- **A write quorum means distinct durable copies**, where the copies of a request go to distinct
servers other than the coordinator, and every `Handoff` is stored. -/
theorem write_quorum {w₀ : World hash} (hw : w₀.Settled) {evs : History hash}
    {c : Config (cluster hash)} (hrun : Run (cluster hash) separate (quiet w₀) evs c) :
    Throughout Secured evs := by
  have hrun := hrun.with
    (fun evs w => Registered evs w ∧ Unused evs w ∧ ∀ rid, Tracked rid evs w)
    fun _ _ h => ⟨registered hw h, unused hw h, copies hw h⟩
  refine (cluster_invariant
    (fun evs w => Copied evs w ∧ Written evs w ∧ Distinct evs ∧ Throughout Secured evs)
    ?did ?ended ?arrived ?init hrun).1.2.2.2
  case did =>
    rintro evs w t o c a ⟨hcop, hwr, hdis, hsec⟩ hfit hallow ha ⟨hD, hreg, hun, htr⟩
    refine ⟨copied_did hcop hreg hun (hfit t) hallow fun l d h => ?_,
      written_did hwr hreg hun hfit hallow, distinct_did hdis hreg hun (hfit t) hallow hD,
      secured_did hcop hwr hdis hreg htr ha, hsec⟩
    cases h
    exact hD
  case ended =>
    rintro evs w t ⟨hcop, hwr, hdis, hsec⟩
    have hreplied : ∀ {rid v x}, Replied (.ended t :: evs : History hash) rid v x →
        Replied evs rid v x := fun h => h.of_other (ended_ne_did t)
    refine ⟨⟨hcop.net, fun v s rid l h => hcop.storing v s rid l (tells_ended Phase.storing rfl h),
      fun v s rid h u l₀ hopen => ?acking, fun rid v x h => hcop.replied rid v x (hreplied h),
      fun rid v h u l₀ hopen => (hcop.acked rid v (hreplied h) u l₀ hopen).cons _⟩,
      ⟨fun p hp rid l hm => (hwr.net p hp rid l hm).cons _, fun v s rid h => ?reading,
      fun rid v l h => (hwr.listed rid v l (hreplied h)).cons _, ?writes⟩, hdis, trivial, hsec⟩
    case acking =>
      exact (hcop.acking v s rid (tells_ended Phase.acking rfl h) u l₀ hopen).cons _
    case reading => exact (hwr.reading v s rid (tells_ended Phase.reading rfl h)).cons _
    case writes =>
      rintro t' job replicas rid todo h hjob ⟨t'', u, l, hmem⟩
      exact hwr.writes t' job replicas rid todo (phases_of_ended h Phase.noConfusion) hjob
        ⟨t'', u, l, mem_of_other (ended_ne_did t) hmem⟩
  case arrived =>
    rintro evs w e r w' ⟨hcop, hwr, hdis, hsec⟩ - harr - -
    exact ⟨copied_arrived hcop harr, written_arrived hwr harr, hdis, trivial, hsec⟩
  case init =>
    have hnet : ∀ p, p ∉ w₀.net := fun p hp => by
      rw [hw.net] at hp
      cases hp
    have hreplied : ∀ {rid v x}, ¬ Replied ([] : History hash) rid v x := by
      rintro rid v x ⟨s, u, m, hmem, -⟩
      cases hmem
    exact ⟨⟨fun p hp => absurd hp (hnet p), fun v s rid l h => (nomatch h),
      fun v s rid h => (nomatch h), fun rid v x h => absurd h hreplied,
      fun rid v h => absurd h hreplied⟩,
      ⟨fun p hp => absurd hp (hnet p), fun v s rid h => (nomatch h),
      fun rid v l h => absurd h hreplied, fun t job replicas rid todo h => (nomatch h)⟩,
      fun rid u l h => (nomatch h), trivial⟩

/-- The test for `separate`. -/
def separates (evs : History hash) : Event (cluster hash) → Bool
  | .did _ (.writeShoppingListHandoff _ _) none => false
  | .did (.proxied u) (.send v m) true => m.asks.all fun rid => decide (v ≠ u ∧ v ∉ targets rid evs)
  | _ => true

theorem separate_of_separates {evs : History hash} {w : World hash} {ev : Event (cluster hash)}
    (h : separates evs ev = true) : separate evs w ev := by
  unfold separates at h
  unfold separate
  split
  · simp at h
  · intro rid hrid
    exact of_decide_eq_true ((Option.all_eq_true _ _).1 h rid hrid)
  · trivial

/-- The request of a write that has just been found replicated. -/
def replicated : History hash → Option Job
  | .did t (.await rid) true :: earlier =>
    match phases earlier t with
    | .spreading job _ rid' _ => if rid' = rid ∧ job.write then some job else none
    | _ => none
  | _ => none

theorem eq_of_replicated {evs : History hash} {job : Job} (h : replicated evs = some job) :
    ∃ t rid replicas todo earlier, evs = .did t (.await rid) true :: earlier ∧
      phases earlier t = .spreading job replicas rid todo ∧ job.write = true := by
  unfold replicated at h
  split at h
  · split at h
    · split at h
      · rename_i hg hrid
        obtain ⟨rfl, hw⟩ := hrid
        obtain rfl := Option.some.inj h
        exact ⟨_, _, _, _, _, rfl, hg, hw⟩
      · cases h
    · cases h
  · cases h

theorem write_quorum_putMilk :
    ∃ evs c, Run (cluster md5) separate (quiet threeServers) evs c ∧
      ∃ t rid replicas todo earlier job, evs = .did t (.await rid) true :: earlier ∧
        phases earlier t = .spreading job replicas rid todo ∧ job.list = oneItem "milk" 201 ∧
        ∃ C : Finset Uuid, WRITE_NODES ≤ C.card ∧ t.peer ∉ C ∧
          ∀ v ∈ C, HasStored earlier v (oneItem "milk" 201) := by
  obtain ⟨evs, c, hrun, hcheck⟩ := exists_run (D := separate) (fun evs _ ev => separates evs ev)
    (fun _ _ _ h => separate_of_separates h) (quiet threeServers)
    ((putMoves 0 (oneItem "milk" 201) (.ofTail 301)).take 64)
    (fun evs _ => (replicated evs).any fun job => decide (job.list = oneItem "milk" 201))
    (by decide +kernel)
  obtain ⟨job, hjob, hlist⟩ := (Option.any_eq_true _ _).1 hcheck
  have hlist := of_decide_eq_true hlist
  have hsec := write_quorum (settled_joined md5 _) hrun
  obtain ⟨t, rid, replicas, todo, earlier, rfl, hg, hw⟩ := eq_of_replicated hjob
  have hcopies := hsec.1 job replicas todo hg hw
  rw [hlist] at hcopies
  exact ⟨_, c, hrun, t, rid, replicas, todo, earlier, job, rfl, hg, hlist, hcopies⟩

/-- The socket to the second replica fails, and the fallback that the ring gives is the coordinator. -/
def fallbackIsSelf : List (Move (cluster md5)) :=
  .arrive (.request [] (.putList (oneItem "milk" 201))) ::
  .arrive (.take ⟨0, .ofTail 1, [], .putList (oneItem "milk" 201)⟩) ::
  turns (.proxied (.ofTail 1)) 3 ++ .turn (.proxied (.ofTail 1)) (.uuid (.ofTail 301)) ::
  turns (.proxied (.ofTail 1)) 19 ++ .turn (.proxied (.ofTail 1)) .no ::
  turns (.proxied (.ofTail 1)) 3 ++ .turn (.proxied (.ofTail 1)) (.nat 3) ::
  turns (.proxied (.ofTail 1)) 22 ++
  .arrive (.deliver ⟨1, .ofTail 1, .ofTail 3,
    .replicateList (Uuid.ofTail 301).toString (oneItem "milk" 201) true⟩) ::
  turns (.incoming (.ofTail 3) 1) 9 ++
  .arrive (.deliver ⟨2, .ofTail 1, .ofTail 1,
    .handoff (Uuid.ofTail 301).toString (oneItem "milk" 201) (.ofTail 2)⟩) ::
  turns (.incoming (.ofTail 1) 2) 9 ++
  .arrive (.deliver ⟨3, .ofTail 3, .ofTail 1, .ack (Uuid.ofTail 301).toString⟩) ::
  turns (.incoming (.ofTail 1) 3) 3 ++
  .arrive (.deliver ⟨4, .ofTail 1, .ofTail 1, .ack (Uuid.ofTail 301).toString⟩) ::
  turns (.incoming (.ofTail 1) 4) 3 ++
  turns (.proxied (.ofTail 1)) 1

/-- The servers that store a list in a step. -/
def keeper (ev : Event (cluster hash)) : Option Uuid :=
  match ev with
  | .did t _ _ => if (keeps t.peer ev).isSome then some t.peer else none
  | _ => none

theorem keeper_of_keeps {v : Uuid} {ev : Event (cluster hash)} (h : (keeps v ev).isSome = true) :
    keeper ev = some v := by
  cases ev with
  | did t o a =>
    have hv : t.peer = v := by
      by_contra hne
      cases o with
      | writeShoppingList l => cases a <;> simp [keeps, stored, hinted, hne] at h
      | writeShoppingListHandoff l d => cases a <;> simp [keeps, stored, hinted, hne] at h
      | _ => simp [keeps, stored, hinted] at h
    subst hv
    exact if_pos h
  | ended t => simp [keeps, stored, hinted] at h
  | arrived e => simp [keeps, stored, hinted] at h

/-- The peer whose task does a step. -/
def actingPeer (ev : Event (cluster hash)) : Option Uuid :=
  match ev with
  | .did t _ _ => some t.peer
  | _ => none

/-- Without the condition, one of the two copies counted is the coordinator's own. -/
theorem write_quorum_with_self :
    ¬ ∀ evs c, Run (cluster md5) anyStep (quiet threeServers) evs c → Throughout Secured evs := by
  intro h
  obtain ⟨evs, c, hrun, hcheck⟩ := exists_run (D := anyStep) (fun _ _ _ => true)
    (fun _ _ _ _ => trivial) (quiet threeServers) fallbackIsSelf
    (fun evs _ => (replicated evs).isSome && evs.head?.bind actingPeer == some (.ofTail 1) &&
      (evs.filterMap keeper).all fun v => v == .ofTail 1 || v == .ofTail 3)
    (by decide +kernel)
  simp only [Bool.and_eq_true, Option.isSome_iff_exists] at hcheck
  obtain ⟨⟨⟨job, hjob⟩, hpeer⟩, hkeepers⟩ := hcheck
  have hsec := h evs c hrun
  obtain ⟨t, rid, replicas, todo, earlier, rfl, hg, hw⟩ := eq_of_replicated hjob
  obtain ⟨C, hcard, hself, hC⟩ := hsec.1 job replicas todo hg hw
  have hpeer : t.peer = .ofTail 1 := by simpa [actingPeer] using hpeer
  have hsub : C ⊆ {.ofTail 3} := by
    intro v hv
    obtain ⟨s, hs, -⟩ := hC v hv
    obtain ⟨ev, hmem, hev⟩ := List.mem_filterMap.1 hs
    have hkeeper : keeper ev = some v := keeper_of_keeps (by rw [hev]; rfl)
    have hone := List.all_eq_true.1 hkeepers v
      (List.mem_filterMap.2 ⟨ev, List.mem_cons_of_mem _ hmem, hkeeper⟩)
    have hne : v ≠ .ofTail 1 := fun h => hself (by rw [hpeer, ← h]; exact hv)
    simpa [hne] using hone
  have hle := (Finset.card_le_card hsub).trans_eq (Finset.card_singleton _)
  exact absurd (hcard.trans hle) (by decide)

end Sdle
