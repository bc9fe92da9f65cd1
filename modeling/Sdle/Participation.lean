import Sdle.InFlight
import Sdle.Quorum
import Sdle.Placement

/-!
# The nodes that participate

`WRITE_NODES` and `READ_NODES` are the numbers of nodes that must participate in a write and in a
read.  The coordinator is one of the nodes of a list, but it sends itself no copy and counts the
answers of the others only.

* `quorum_reached_iff` — **a quorum takes one node more**: once the answers of a set of nodes of the
  preference list, the coordinator among them, have all been handled, the quorum has been reached
  exactly if the set has more than `WRITE_NODES` (`READ_NODES`) members; on a ring of two servers it
  never is.
-/

set_option autoImplicit false

namespace Sdle

open Tasks Peer Pending ServerStorage

variable {hash : String → U128}

/-! ## What becomes of a packet -/

/-- The packets that have been sent, with what has become of each. -/
structure Posted (posted : List Packet) (evs : History hash) (w : World hash) : Prop where
  nodup : (posted.map Packet.serial).Nodup
  lt : ∀ p ∈ posted, p.serial < w.serial
  sent : ∀ t dst m, .did t (.send dst m) true ∈ evs →
    ∃ p ∈ posted, p.src = t.peer ∧ p.dst = dst ∧ p.msg = m
  fate : ∀ p ∈ posted, p ∈ w.net ∨ .arrived (.lose p) ∈ evs ∨ .arrived (.deliver p) ∈ evs

theorem posted_did {posted : List Packet} {evs : History hash} {w : World hash}
    (h : Posted posted evs w) (t : Tid) (o : Op) (a : Ans o) :
    ∃ posted, Posted posted (.did t o a :: evs) (effect t o a w) := by
  have hfate : ∀ p ∈ posted, p ∈ (effect t o a w).net ∨
      .arrived (.lose p) ∈ (.did t o a :: evs : History hash) ∨
      .arrived (.deliver p) ∈ (.did t o a :: evs : History hash) := by
    intro p hp
    rw [net_effect]
    rcases h.fate p hp with hnet | hlost | hdelivered
    · exact Or.inl (List.mem_append_right _ hnet)
    · exact Or.inr (Or.inl (List.mem_cons_of_mem _ hlost))
    · exact Or.inr (Or.inr (List.mem_cons_of_mem _ hdelivered))
  by_cases hsend : ∃ u m, (.did t o a : Event (cluster hash)) = .did t (.send u m) true
  · obtain ⟨u, m, hev⟩ := hsend
    cases hev
    refine ⟨⟨w.serial, t.peer, u, m⟩ :: posted, ?nodup, ?lt, ?sent, ?fate⟩
    case nodup =>
      refine List.nodup_cons.2 ⟨fun hmem => ?_, h.nodup⟩
      obtain ⟨p, hp, hserial⟩ := List.mem_map.1 hmem
      exact absurd (h.lt p hp) (by rw [hserial]; exact lt_irrefl _)
    case lt =>
      intro p hp
      rw [serial_effect]
      rcases List.mem_cons.1 hp with rfl | hp
      · exact Nat.lt_succ_self _
      · exact Nat.lt_succ_of_lt (h.lt p hp)
    case sent =>
      intro t' dst m' hmem
      rcases List.mem_cons.1 hmem with heq | hmem
      · cases heq
        exact ⟨_, List.mem_cons_self, rfl, rfl, rfl⟩
      · obtain ⟨p, hp, hsame⟩ := h.sent t' dst m' hmem
        exact ⟨p, List.mem_cons_of_mem _ hp, hsame⟩
    case fate =>
      intro p hp
      rcases List.mem_cons.1 hp with rfl | hp
      · exact Or.inl List.mem_cons_self
      · exact hfate p hp
  · refine ⟨posted, h.nodup, fun p hp => ?_, fun t' dst m hmem => ?_, hfate⟩
    · rw [serial_effect]
      exact Nat.lt_add_right _ (h.lt p hp)
    · rcases List.mem_cons.1 hmem with heq | hmem
      · cases heq
        exact absurd ⟨dst, m, rfl⟩ hsend
      · exact h.sent t' dst m hmem

/-- **Every packet that has been sent is on its way, lost or delivered**, and no two of them have one
serial number. -/
theorem exists_posted {D : Discipline (cluster hash)} {w₀ : World hash} {evs : History hash}
    {c : Config (cluster hash)} (hrun : Run (cluster hash) D (quiet w₀) evs c) :
    ∃ posted, Posted posted evs c.state := by
  refine Run.invariant (fun evs w => ∃ posted, Posted posted evs w) ?did ?ended ?arrived ?init hrun
  case did =>
    rintro evs w t o ch a w' ⟨posted, h⟩ hact -
    obtain ⟨-, rfl⟩ := act_eq hact
    exact posted_did h t o a
  case ended =>
    rintro evs w t ⟨posted, h⟩
    refine ⟨posted, h.nodup, h.lt, fun t' dst m hmem => ?_, fun p hp => ?_⟩
    · rcases List.mem_cons.1 hmem with heq | hmem
      · cases heq
      · exact h.sent t' dst m hmem
    · exact (h.fate p hp).imp_right (Or.imp (List.mem_cons_of_mem _) (List.mem_cons_of_mem _))
  case arrived =>
    rintro evs w e r w' ⟨posted, h⟩ harr -
    refine ⟨posted, h.nodup, fun p hp => lt_of_lt_of_le (h.lt p hp) (serial_arrive harr),
      fun t' dst m hmem => ?_, fun p hp => ?_⟩
    · rcases List.mem_cons.1 hmem with heq | hmem
      · cases heq
      · exact h.sent t' dst m hmem
    · rcases h.fate p hp with hnet | hgone
      · rcases mem_net_arrive harr hnet with hnet | rfl | rfl
        · exact Or.inl hnet
        · exact Or.inr (Or.inr List.mem_cons_self)
        · exact Or.inr (Or.inl List.mem_cons_self)
      · exact Or.inr (Or.imp (List.mem_cons_of_mem _) (List.mem_cons_of_mem _) hgone)
  case init =>
    exact ⟨[], List.nodup_nil, fun p hp => absurd hp List.not_mem_nil,
      fun t dst m h => absurd h List.not_mem_nil, fun p hp => absurd hp List.not_mem_nil⟩

/-! ## Who is asked -/

/-- No copy of the request has been handed to a fallback. -/
def Direct (rid : String) (evs : History hash) : Prop :=
  ∀ t v l r, .did t (.send v (.handoff rid l r)) true ∉ evs

/-- The servers that have been asked and those that are still to be asked are among the replicas, each
once. -/
def SpreadOut (evs : History hash) : Prop :=
  ∀ t job replicas rid todo, phases evs t = .spreading job replicas rid todo → Direct rid evs →
    (targets rid evs ++ todo).Subperm replicas

theorem Direct.tail {rid : String} {ev : Event (cluster hash)} {evs : History hash}
    (h : Direct rid (ev :: evs)) : Direct rid evs :=
  fun t v l r hmem => h t v l r (List.mem_cons_of_mem _ hmem)

/-- The coordinator, the request and the replicas that a request id has been put in flight with. -/
def requested (rid : String) : History hash → Option (Uuid × Job × List Uuid)
  | [] => none
  | .did t (.insertInFlight r _) _ :: evs =>
    if r = rid then
      match phases evs t with
      | .named job replicas _ => some (t.peer, job, replicas)
      | _ => none
    else requested rid evs
  | _ :: evs => requested rid evs

/-- What holds of the requests that have been put in flight. -/
structure Asks (evs : History hash) : Prop where
  request : ∀ t job replicas rid todo, phases evs t = .spreading job replicas rid todo →
    requested rid evs = some (t.peer, job, replicas)
  opened : ∀ rid u job replicas, requested rid evs = some (u, job, replicas) →
    opened rid evs = [(u, job.list)]
  targets : ∀ rid u job replicas, requested rid evs = some (u, job, replicas) → Direct rid evs →
    (targets rid evs).Subperm replicas

section Did

variable {evs : History hash} {w : World hash} {t : Tid} {o : Op} {c : Choice} {a : Ans o}

/-- What a step tells about the request of an id. -/
theorem requested_did (a : Ans o) (hallow : (phases evs t).allow o) (rid : String) :
    requested rid (.did t o a :: evs) = requested rid evs ∧ (∀ q, o ≠ .insertInFlight rid q) ∨
      ∃ job replicas, o = .insertInFlight rid (.opened job.list) ∧
        phases evs t = .named job replicas rid ∧
        requested rid (.did t o a :: evs) = some (t.peer, job, replicas) := by
  by_cases ho : ∃ q, o = .insertInFlight rid q
  · obtain ⟨q, rfl⟩ := ho
    obtain ⟨job, replicas, hg, rfl⟩ := hallow
    refine Or.inr ⟨job, replicas, rfl, hg, ?_⟩
    rw [requested, if_pos rfl, hg]
  · refine Or.inl ⟨?_, fun q h => ho ⟨q, h⟩⟩
    cases o with
    | insertInFlight r q => exact if_neg fun h => ho ⟨q, by rw [h]⟩
    | _ => rfl

theorem spreadOut_did (hspread : SpreadOut evs) (hreg : Registered evs w) (hun : Unused evs w)
    (hfits : ∀ t, (phases evs t).Fits t) (hallow : (phases evs t).allow o) :
    SpreadOut (.did t o a :: evs) := by
  intro t' job replicas rid todo h hdirect
  rw [phases_did] at h
  split at h
  · rename_i ht
    subst ht
    rcases Phase.spreading_next hallow h with ⟨todo', hg⟩ | ⟨hg, rfl⟩
    · have hold := hspread t' job replicas rid todo' hg hdirect.tail
      rw [hg] at h hallow
      rw [targets_cons]
      cases hask : asked rid (.did t' o a : Event (cluster hash)) with
      | none =>
        have hgo : Phase.Goes hash (.spreading job replicas rid todo') o a
          (.spreading job replicas rid todo) := h ▸ Phase.goes_next hallow
        refine List.Subperm.trans (List.Sublist.subperm ?_) hold
        cases hgo with
        | stay => exact List.Sublist.refl _
        | spread hu => exact List.Sublist.append_left List.erase_sublist _
      | some v =>
        obtain ⟨m, hm, hev⟩ := asked_eq_some hask
        cases hev
        rcases hallow with hc | ⟨hv, rfl⟩ | ⟨-, r, -, rfl⟩
        · rw [(asks_of_control hc).1] at hm
          cases hm
        · have htodo : todo = todo'.erase v := (Phase.spreading.inj h).2.2.2.symm
          subst htodo
          refine List.Subperm.trans (List.Perm.subperm ?_) hold
          calc [v] ++ targets rid evs ++ todo'.erase v
            _ = v :: (targets rid evs ++ todo'.erase v) := rfl
            List.Perm _ (targets rid evs ++ v :: todo'.erase v) := List.perm_middle.symm
            List.Perm _ (targets rid evs ++ todo') :=
              List.Perm.append_left _ (List.perm_cons_erase hv).symm
        · exact absurd List.mem_cons_self (hdirect t' v job.list r)
    · have htargets : targets rid (.did t' (.insertInFlight rid (.opened job.list)) a :: evs) = [] :=
        (hun.named t' rid (by rw [hg]; rfl)).1
      rw [hg] at h
      have htodo : replicas = todo := (Phase.spreading.inj h).2.2.2
      rw [htargets, htodo]
      exact List.Subperm.refl _
  · rename_i ht
    rw [targets_other hreg hun hfits hallow ht (l := job.list) (by rw [h]; rfl)]
    exact hspread t' job replicas rid todo h hdirect.tail

/-- A coordinator that sends a copy itself goes on with the replicas that are left. -/
theorem spreading_of_asked {rid : String} {v : Uuid} {m : Msg}
    (hfresh : Direct rid (.did t (.send v m) true :: evs)) {l : ShoppingList}
    (hallow : (phases evs t).allow (.send v m)) (hm : m.carries = some (rid, l))
    (hp : (phases evs t).pending = some (rid, l)) :
    ∃ job replicas todo todo', phases evs t = .spreading job replicas rid todo ∧
      phases (.did t (.send v m) true :: evs) t = .spreading job replicas rid todo' := by
  rcases hallow with hc | hsends
  · have hnone := (asks_of_control hc).1
    rw [Msg.asks, hm] at hnone
    cases hnone
  · cases hg : phases evs t with
    | spreading job replicas rid' todo =>
      rw [hg] at hsends hp
      obtain ⟨rfl, -⟩ := Prod.mk.inj (Option.some.inj hp)
      rcases hsends with ⟨-, rfl⟩ | ⟨-, r, -, rfl⟩
      · refine ⟨job, replicas, todo, todo.erase v, rfl, ?_⟩
        rw [phases_did, if_pos rfl, hg]
        rfl
      · exact absurd List.mem_cons_self (hfresh t v job.list r)
    | decided job rid' ok =>
      rw [hg] at hsends
      exact hsends.elim
    | _ =>
      rw [hg] at hp
      cases hp

theorem asks_did (hasks : Asks evs) (hspread : SpreadOut (.did t o a :: evs))
    (hreg : Registered evs w) (hun : Unused evs w) (hallow : (phases evs t).allow o) :
    Asks (.did t o a :: evs) := by
  refine ⟨?request, ?opened, ?targets⟩
  case request =>
    intro t' job replicas rid todo h
    rcases requested_did a hallow rid with ⟨heq, hne⟩ | ⟨job', replicas', ho, hg, heq⟩
    · rw [heq]
      rw [phases_did] at h
      split at h
      · rename_i ht
        subst ht
        rcases Phase.spreading_next hallow h with ⟨todo', h⟩ | ⟨-, ho⟩
        · exact hasks.request t' job replicas rid todo' h
        · exact absurd ho (hne _)
      · exact hasks.request t' job replicas rid todo h
    · rw [heq]
      rw [phases_did] at h
      split at h
      · rename_i ht
        subst ht
        subst ho
        rw [hg] at h
        obtain ⟨rfl, rfl, -⟩ := Phase.spreading.inj h
        rfl
      · have hname := hreg.named t rid (by rw [hg]; rfl)
        have hopen := hreg.pending t' rid job.list (by rw [h]; rfl)
        rw [hname.1] at hopen
        cases hopen
  case opened =>
    intro rid u job replicas h
    rcases requested_did a hallow rid with ⟨heq, -⟩ | ⟨job', replicas', rfl, hg, heq⟩
    · rw [heq] at h
      have hopen := hasks.opened rid u job replicas h
      rw [hreg.opened_stays a hallow (by rw [hopen]; exact List.cons_ne_nil _ _), hopen]
    · rw [heq] at h
      obtain ⟨rfl, hrest⟩ := Prod.mk.inj (Option.some.inj h)
      obtain ⟨rfl, rfl⟩ := Prod.mk.inj hrest
      rcases hreg.opened_did a hallow rid with ⟨-, hne⟩ | ⟨l, ho, -, hopen⟩
      · exact absurd rfl (hne _)
      · have hl := QuoromState.mk.inj (Op.insertInFlight.inj ho).2
        rw [hopen, (List.cons.inj hl.2.2.2).1]
  case targets =>
    intro rid u job replicas h hdirect
    rcases requested_did a hallow rid with ⟨heq, -⟩ | ⟨job', replicas', rfl, hg, -⟩
    · rw [heq] at h
      rw [targets_cons]
      cases hask : asked rid (.did t o a : Event (cluster hash)) with
      | none => exact hasks.targets rid u job replicas h hdirect.tail
      | some v =>
        obtain ⟨m, hm, hev⟩ := asked_eq_some hask
        cases hev
        obtain ⟨⟨rid', l⟩, hcarries, rfl⟩ := Option.map_eq_some_iff.1 hm
        obtain ⟨hpending, -⟩ :=
          pending_of_carries hreg hun hallow hcarries (hasks.opened rid' u job replicas h)
        obtain ⟨job', replicas', todo, todo', hg, hg'⟩ :=
          spreading_of_asked hdirect hallow hcarries (by rw [hpending])
        have hsame := hasks.request t job' replicas' rid' todo hg
        rw [h] at hsame
        obtain ⟨-, hsame⟩ := Prod.mk.inj (Option.some.inj hsame)
        obtain ⟨-, rfl⟩ := Prod.mk.inj hsame
        have hall := hspread t job' replicas rid' todo' hg' hdirect
        rw [targets_cons, hask] at hall
        exact (List.sublist_append_left _ _).subperm.trans hall
    · have hnone : targets rid (.did t (.insertInFlight rid (.opened job'.list)) a :: evs) = [] :=
        (hun.named t rid (by rw [hg]; rfl)).1
      rw [hnone]
      exact List.nil_subperm

end Did

/-- **A request goes to the replicas that it was put in flight with**, to none of them twice, as long
as no copy is handed to a fallback. -/
theorem asks {D : Discipline (cluster hash)} {w₀ : World hash} (hw : w₀.Settled) {evs : History hash}
    {c : Config (cluster hash)} (hrun : Run (cluster hash) D (quiet w₀) evs c) : Asks evs := by
  have hrun := hrun.with (fun evs w => Registered evs w ∧ Unused evs w)
    fun _ _ h => ⟨registered hw h, unused hw h⟩
  refine (cluster_invariant (fun evs _ => SpreadOut evs ∧ Asks evs) ?did ?ended ?arrived ?init
    hrun).1.2
  case did =>
    rintro evs w t o c a ⟨hspread, hasks⟩ hfits hallow - ⟨-, hreg, hun⟩
    have hspread : SpreadOut (.did t o a :: evs) := spreadOut_did hspread hreg hun hfits hallow
    exact ⟨hspread, asks_did hasks hspread hreg hun hallow⟩
  case ended =>
    rintro evs w t ⟨hspread, hasks⟩
    have hphase : ∀ {t' job replicas rid todo},
        phases (.ended t :: evs) t' = .spreading job replicas rid todo →
          phases evs t' = .spreading job replicas rid todo :=
      fun h => phases_of_ended h Phase.noConfusion
    exact ⟨fun t' job replicas rid todo h hd => hspread t' job replicas rid todo (hphase h) hd.tail,
      fun t' job replicas rid todo h => hasks.request t' job replicas rid todo (hphase h),
      hasks.opened, fun rid u job replicas h hd => hasks.targets rid u job replicas h hd.tail⟩
  case arrived =>
    rintro evs w e r w' ⟨hspread, hasks⟩ - - - -
    have hphase : ∀ {t' job replicas rid todo},
        phases (.arrived e :: evs) t' = .spreading job replicas rid todo →
          phases evs t' = .spreading job replicas rid todo := fun h => phases_of_arrived h rfl
    exact ⟨fun t' job replicas rid todo h hd => hspread t' job replicas rid todo (hphase h) hd.tail,
      fun t' job replicas rid todo h => hasks.request t' job replicas rid todo (hphase h),
      hasks.opened, fun rid u job replicas h hd => hasks.targets rid u job replicas h hd.tail⟩
  case init =>
    exact ⟨fun t job replicas rid todo h => (nomatch h),
      ⟨fun t job replicas rid todo h => (nomatch h), fun rid u job replicas h => (nomatch h),
        fun rid u job replicas h => (nomatch h)⟩⟩

/-! ## Who is answered -/

namespace Phase

/-- Who has asked the question that a task has in hand, and under which request id. -/
def replyTo : Phase → Option (Uuid × String)
  | .store src rid _ => some (src, rid)
  | .hint src rid _ _ => some (src, rid)
  | .ackTo src rid => some (src, rid)
  | .look src rid _ => some (src, rid)
  | .ackListTo src rid _ => some (src, rid)
  | _ => none

variable {g : Phase} {o : Op} {a : Ans o}

theorem holds_of_replyTo {x : Uuid × String} (h : g.replyTo = some x) : g.holds = some x.2 := by
  cases g <;> first
    | (cases h; rfl)
    | cases h

theorem replyTo_next (ho : g.allow o) {x : Uuid × String} (h : (g.next hash o a).replyTo = some x) :
    g.replyTo = some x := by
  have hgo : Goes hash g o a (g.next hash o a) := goes_next ho
  generalize g.next hash o a = g' at hgo h
  cases hgo with
  | stay => exact h
  | found => exact h
  | kept => exact h
  | noted => exact h
  | _ => cases h

/-- An answer goes to the one who has asked. -/
theorem replyTo_of_allow {u : Uuid} {m : Msg} (ho : g.allow (.send u m)) {rid : String}
    {x : Option ShoppingList} (hm : m.answers = some (rid, x)) : g.replyTo = some (u, rid) := by
  rcases ho with hc | hsends
  · rw [(asks_of_control hc).2] at hm
    cases hm
  · cases g with
    | ackTo src rid' =>
      obtain ⟨rfl, rfl⟩ := hsends
      obtain ⟨rfl, -⟩ := Prod.mk.inj (Option.some.inj hm)
      rfl
    | ackListTo src rid' l =>
      obtain ⟨rfl, rfl⟩ := hsends
      obtain ⟨rfl, -⟩ := Prod.mk.inj (Option.some.inj hm)
      rfl
    | moving ls =>
      obtain ⟨l, -, rfl⟩ := hsends
      cases hm
    | hinting rid' todo =>
      cases todo with
      | nil => exact hsends.elim
      | cons y todo =>
        obtain ⟨-, rfl⟩ := hsends
        cases hm
    | spreading job replicas rid' todo =>
      rcases hsends with ⟨-, rfl⟩ | ⟨-, r, -, rfl⟩ <;> cases hm
    | _ => exact hsends.elim

theorem replyTo_ofIncoming (src : Uuid) (m : Msg) :
    (ofIncoming src m).replyTo = m.asks.map fun rid => (src, rid) := by
  cases m with
  | replicateList rid l write => cases write <;> rfl
  | _ => rfl

end Phase

/-- Everything that is asked under the id of a request in flight is asked and answered for its
coordinator. -/
structure Addressed (evs : History hash) (w : World hash) : Prop where
  net : ∀ p ∈ w.net, ∀ rid, p.msg.asks = some rid → ∀ u l, opened rid evs = [(u, l)] → p.src = u
  holding : ∀ v s x rid, (phases evs (.incoming v s)).replyTo = some (x, rid) →
    ∀ u l, opened rid evs = [(u, l)] → x = u
  sent : ∀ v s x m rid y, .did (.incoming v s) (.send x m) true ∈ evs → m.answers = some (rid, y) →
    v ∈ targets rid evs ∧ ∀ u l, opened rid evs = [(u, l)] → x = u

theorem addressed_did {evs : History hash} {w : World hash} {t : Tid} {o : Op} {a : Ans o}
    (hadd : Addressed evs w) (hreg : Registered evs w) (hun : Unused evs w)
    (hallow : (phases evs t).allow o) : Addressed (.did t o a :: evs) (effect t o a w) := by
  have hnew : ∀ {rid u l}, opened rid (.did t o a :: evs) = [(u, l)] → ∀ {v},
      v ∈ targets rid evs → opened rid evs = [(u, l)] :=
    fun hopen _ hv => opened_before hreg hun hallow hopen hv
  have hheld : ∀ {v s x rid}, (phases evs (.incoming v s)).replyTo = some (x, rid) →
      v ∈ targets rid evs := fun h => hun.holding _ _ _ (Phase.holds_of_replyTo h)
  refine ⟨?net, ?holding, ?sent⟩
  case net =>
    intro p hp rid hm u l hopen
    rcases mem_net_effect hp with hp | ⟨v, m, rfl, hev⟩
    · exact hadd.net p hp rid hm u l (hnew hopen (hun.net p hp rid hm))
    · cases hev
      rcases opened_or_new (o := .send v m) true hreg hun hallow hopen with hopen | ⟨-, q, ho⟩
      · obtain ⟨⟨rid', l'⟩, hcarries, rfl⟩ := Option.map_eq_some_iff.1 hm
        exact (pending_of_carries hreg hun hallow hcarries hopen).2.1.symm
      · cases ho
  case holding =>
    intro v s x rid h u l hopen
    have hold : (phases evs (.incoming v s)).replyTo = some (x, rid) := by
      rw [phases_did] at h
      split at h
      · rename_i ht
        rw [ht]
        exact Phase.replyTo_next hallow h
      · exact h
    exact hadd.holding v s x rid hold u l (hnew hopen (hheld hold))
  case sent =>
    intro v s x m rid y hmem hm
    rcases List.mem_cons.1 hmem with heq | hmem
    · cases heq
      have hreply := Phase.replyTo_of_allow hallow hm
      exact ⟨targets_subset _ _ _ (hheld hreply), fun u l hopen =>
        hadd.holding v s x rid hreply u l (hnew hopen (hheld hreply))⟩
    · obtain ⟨hv, hx⟩ := hadd.sent v s x m rid y hmem hm
      exact ⟨targets_subset _ _ _ hv, fun u l hopen => hx u l (hnew hopen hv)⟩

/-- **Answers go to the coordinator.** -/
theorem addressed {D : Discipline (cluster hash)} {w₀ : World hash} (hw : w₀.Settled)
    {evs : History hash} {c : Config (cluster hash)}
    (hrun : Run (cluster hash) D (quiet w₀) evs c) : Addressed evs c.state := by
  have hrun := hrun.with (fun evs w => Registered evs w ∧ Unused evs w)
    fun _ _ h => ⟨registered hw h, unused hw h⟩
  refine (cluster_invariant Addressed ?did ?ended ?arrived ?init hrun).1
  case did =>
    rintro evs w t o c a hadd - hallow - ⟨-, hreg, hun⟩
    exact addressed_did hadd hreg hun hallow
  case ended =>
    intro evs w t hadd
    refine ⟨hadd.net, fun v s x rid h => hadd.holding v s x rid (tells_ended Phase.replyTo rfl h),
      fun v s x m rid y hmem => hadd.sent v s x m rid y (mem_of_other (ended_ne_did t) hmem)⟩
  case arrived =>
    rintro evs w e r w' hadd - harr - -
    refine ⟨fun p hp rid hm => ?_, fun v s x rid h => ?_, fun v s x m rid y hmem hm => ?_⟩
    · rcases net_arrive harr hp with hp | ⟨src, dst, msg, -, hext, rfl⟩
      · exact hadd.net p hp rid hm
      · have hnone : msg.asks = none := (asks_of_external hext).1
        rw [show msg.asks = some rid from hm] at hnone
        cases hnone
    · rcases phases_arrived evs e (.incoming v s) with heq | ⟨g, hbegun, hg⟩
      · rw [heq] at h
        exact hadd.holding v s x rid h
      · rw [hg] at h
        obtain ⟨p, rfl, rfl, rfl, rfl⟩ := Phase.incoming_begun hbegun
        rw [Phase.replyTo_ofIncoming] at h
        obtain ⟨rid', hm, heq⟩ := Option.map_eq_some_iff.1 h
        obtain ⟨rfl, rfl⟩ := Prod.mk.inj heq
        exact hadd.net p (mem_net_of_deliver harr) rid' hm
    · exact hadd.sent v s x m rid y (mem_of_other (arrived_ne_did e) hmem) hm
  case init =>
    refine ⟨fun p hp => ?_, fun v s x rid h => (nomatch h), fun v s x m rid y hmem => (nomatch hmem)⟩
    rw [hw.net] at hp
    cases hp

/-! ## What the coordinator counts -/

theorem fresh_opened (l : ShoppingList) : (QuoromState.opened l).Fresh := ⟨rfl, rfl, Nat.two_pos⟩

namespace Phase

variable {g : Phase} {o : Op} {a : Ans o}

/-- An answer is counted by a task that has it in hand. -/
theorem counts_of_allow (ho : g.allow o) {rid : String} {ls : List ShoppingList}
    (h : actionOf o = some (.answers rid ls)) : ∃ x, g.counts = some (rid, x) := by
  cases o <;> simp only [actionOf, Option.some.injEq, reduceCtorEq, Action.answers.injEq] at h
  case ack r =>
    obtain ⟨rfl, -⟩ := h
    obtain rfl : g = .count r := ho
    exact ⟨none, rfl⟩
  case ackList r l =>
    obtain ⟨rfl, -⟩ := h
    obtain rfl : g = .countList r l := ho
    exact ⟨some l, rfl⟩

/-- A coordinator has decided when it has waited. -/
theorem decided_next (ho : g.allow o) {job : Job} {rid : String} {ok : Bool} (t : Tid)
    (h : g.next hash o a = .decided job rid ok) :
    g = .decided job rid ok ∨ (.did t o a : Event (cluster hash)) = .did t (.await rid) ok := by
  have hgo : Goes hash g o a (g.next hash o a) := goes_next ho
  rw [h] at hgo
  cases hgo with
  | stay => exact Or.inl rfl
  | decided => exact Or.inr rfl

end Phase

/-- A request that is open with its coordinator, has its quorum, or has been given up. -/
def Outstanding (rid : String) (u : Uuid) (l : ShoppingList) (evs : History hash) (w : World hash) :
    Prop :=
  (∃ ys, pending rid (actions u evs) = some (.opened l, ys)) ∨ rid ∈ (w.node u).fired ∨
    ∃ t, .did t (.await rid) false ∈ evs

/-- The table of each peer holds all answers to the requests that it has in flight. -/
structure Counted (evs : History hash) (w : World hash) : Prop where
  tabulated : ∀ u, Tabulated (actions u evs) (w.node u)
  unasked : ∀ rid u, targets rid evs = [] → answersTo rid (actions u evs) = []
  collected : ∀ rid u q ys, pending rid (actions u evs) = some (q, ys) →
    ys = answersTo rid (actions u evs)
  decided : ∀ t job rid ok, phases evs t = .decided job rid ok →
    rid ∈ (w.node t.peer).fired ∨ .did t (.await rid) false ∈ evs
  outstanding : ∀ rid u l, opened rid evs = [(u, l)] → Outstanding rid u l evs w

section Did

variable {evs : History hash} {w : World hash} {t : Tid} {o : Op} {c : Choice} {a : Ans o}

/-- Nobody counts an answer to a request that has not been sent. -/
theorem not_answers_of_unasked (htr : ∀ rid, Tracked rid evs w) (hfit : (phases evs t).Fits t)
    (hallow : (phases evs t).allow o) {rid : String} (hnone : targets rid evs = []) :
    ∀ ls, actionOf o ≠ some (.answers rid ls) := by
  intro ls h
  obtain ⟨x, hx⟩ := Phase.counts_of_allow hallow h
  obtain ⟨own, htracks⟩ := htr rid (by rw [hnone]; exact List.nodup_nil)
  obtain ⟨s, ht⟩ := incoming_of_counts hfit hx
  obtain ⟨v, hv, -⟩ := htracks.counting t.peer s x (by rw [← ht]; exact hx)
  have hmem : v ∈ targets rid evs := htracks.started v (by rw [hv]; exact Stage.noConfusion)
  rw [hnone] at hmem
  exact List.not_mem_nil hmem

theorem counted_did (hc : Counted evs w) (hreg : Registered evs w) (hun : Unused evs w)
    (htr : ∀ rid, Tracked rid evs w) (hfit : (phases evs t).Fits t) (hallow : (phases evs t).allow o)
    (ha : answer t o c w = some a) : Counted (.did t o a :: evs) (effect t o a w) := by
  have hunasked : ∀ {rid}, targets rid evs = [] → ∀ u,
      answersTo rid (actions u (.did t o a :: evs)) = [] := by
    intro rid hnone u
    have hnot := not_answers_of_unasked htr hfit hallow hnone
    rw [actions_did]
    split
    · cases hact : actionOf o with
      | none => exact hc.unasked rid u hnone
      | some act =>
        cases act with
        | answers r ls =>
          have hne : r ≠ rid := by
            rintro rfl
            exact hnot ls hact
          exact (if_neg hne).trans (hc.unasked rid u hnone)
        | _ => exact hc.unasked rid u hnone
    · exact hc.unasked rid u hnone
  refine ⟨fun u => tabulated_effect hc.tabulated t o a ?fresh u, fun rid u hnone => hunasked ?_ u,
    ?collected, ?decided, ?outstanding⟩
  case fresh =>
    rintro r q rfl
    obtain ⟨job, replicas, -, rfl⟩ := hallow
    exact fresh_opened job.list
  · have hsub := targets_subset rid (.did t o a) evs
    rw [hnone] at hsub
    exact List.subset_nil.1 hsub
  case collected =>
    intro rid u q ys h
    rw [actions_did] at h ⊢
    split at h
    · rename_i hu
      rw [if_pos hu]
      cases hact : actionOf o with
      | none =>
        rw [hact] at h
        exact hc.collected rid u q ys h
      | some act =>
        rw [hact] at h
        cases act with
        | opens r q' =>
          simp only [Option.toList_some, List.singleton_append, pending, answersTo] at h ⊢
          split at h
          · rename_i hr
            subst hr
            cases h
            cases o <;> simp only [actionOf, Option.some.injEq, reduceCtorEq, Action.opens.injEq] at hact
            obtain ⟨rfl, rfl⟩ := hact
            obtain ⟨job, replicas, hg, -⟩ := hallow
            exact (hc.unasked _ u (hun.named t _ (by rw [hg]; rfl)).1).symm
          · exact hc.collected rid u q ys h
        | answers r y =>
          simp only [Option.toList_some, List.singleton_append, pending, answersTo] at h ⊢
          split at h
          · rename_i hr
            obtain ⟨⟨q', ys'⟩, hp, heq⟩ := Option.map_eq_some_iff.1 h
            obtain ⟨rfl, rfl⟩ := Prod.mk.inj heq
            rw [if_pos hr, hc.collected rid u q' ys' hp]
          · rename_i hr
            rw [if_neg hr]
            exact hc.collected rid u q ys h
        | closes r =>
          simp only [Option.toList_some, List.singleton_append, pending, answersTo] at h ⊢
          split at h
          · cases h
          · exact hc.collected rid u q ys h
    · rename_i hu
      rw [if_neg hu]
      exact hc.collected rid u q ys h
  case decided =>
    intro t' job rid ok h
    have hold : phases evs t' = .decided job rid ok →
        rid ∈ ((effect t o a w).node t'.peer).fired ∨
          .did t' (.await rid) false ∈ (.did t o a :: evs : History hash) := fun h =>
      (hc.decided t' job rid ok h).imp fired_stays (List.mem_cons_of_mem _)
    rw [phases_did] at h
    split at h
    · rename_i ht
      subst ht
      rcases Phase.decided_next hallow t' h with h | hev
      · exact hold h
      · cases hev
        cases ok with
        | true => exact Or.inl (fired_stays (fired_of_await ha))
        | false => exact Or.inr List.mem_cons_self
    · exact hold h
  case outstanding =>
    intro rid u l hopen
    rcases hreg.opened_did a hallow rid with ⟨heq, hne⟩ | ⟨l', ho, -, heq⟩
    · rw [heq] at hopen
      rcases hc.outstanding rid u l hopen with ⟨ys, hp⟩ | hfired | ⟨t', hgiven⟩
      · by_cases hclose : u = t.peer ∧ o = .removeInFlight rid
        · obtain ⟨rfl, rfl⟩ := hclose
          obtain ⟨job, ok, hg⟩ := hallow
          rcases hc.decided t job rid ok hg with hfired | hgiven
          · exact Or.inr (Or.inl (fired_stays hfired))
          · exact Or.inr (Or.inr ⟨t, List.mem_cons_of_mem _ hgiven⟩)
        · left
          rw [actions_did]
          split
          · rename_i hu
            cases o with
            | insertInFlight r q =>
              refine ⟨ys, (if_neg ?_).trans hp⟩
              rintro rfl
              exact hne q rfl
            | removeInFlight r =>
              refine ⟨ys, (if_neg ?_).trans hp⟩
              rintro rfl
              exact hclose ⟨hu, rfl⟩
            | ack r => exact pending_answers hp r []
            | ackList r l => exact pending_answers hp r [l]
            | _ => exact ⟨ys, hp⟩
          · exact ⟨ys, hp⟩
      · exact Or.inr (Or.inl (fired_stays hfired))
      · exact Or.inr (Or.inr ⟨t', List.mem_cons_of_mem _ hgiven⟩)
    · subst ho
      rw [heq] at hopen
      obtain ⟨rfl, rfl⟩ := Prod.mk.inj (List.cons.inj hopen).1
      refine Or.inl ⟨[], ?_⟩
      rw [actions_did, if_pos rfl]
      exact if_pos rfl

end Did

/-- **A coordinator counts every answer to a request that it has in flight.** -/
theorem counted {D : Discipline (cluster hash)} {w₀ : World hash} (hw : w₀.Settled)
    {evs : History hash} {c : Config (cluster hash)}
    (hrun : Run (cluster hash) D (quiet w₀) evs c) : Counted evs c.state := by
  have hrun := hrun.with
    (fun evs w => Registered evs w ∧ Unused evs w ∧ ∀ rid, Tracked rid evs w)
    fun _ _ h => ⟨registered hw h, unused hw h, copies hw h⟩
  refine (cluster_invariant Counted ?did ?ended ?arrived ?init hrun).1
  case did =>
    rintro evs w t o c a hc hfits hallow ha ⟨-, hreg, hun, htr⟩
    exact counted_did hc hreg hun htr (hfits t) hallow ha
  case ended =>
    intro evs w t hc
    refine ⟨hc.tabulated, hc.unasked, hc.collected, fun t' job rid ok h => ?_, fun rid u l hopen => ?_⟩
    · exact (hc.decided t' job rid ok (phases_of_ended h Phase.noConfusion)).imp_right
        (List.mem_cons_of_mem _)
    · exact (hc.outstanding rid u l hopen).imp_right
        (Or.imp_right fun ⟨t', h⟩ => ⟨t', List.mem_cons_of_mem _ h⟩)
  case arrived =>
    rintro evs w e r w' hc - harr - -
    have hnode := node_arrive harr
    refine ⟨fun u => ?_, hc.unasked, hc.collected, fun t' job rid ok h => ?_, fun rid u l hopen => ?_⟩
    · rw [hnode]
      exact hc.tabulated u
    · rw [hnode]
      exact (hc.decided t' job rid ok (phases_of_arrived h rfl)).imp_right (List.mem_cons_of_mem _)
    · unfold Outstanding
      rw [hnode]
      exact (hc.outstanding rid u l hopen).imp_right
        (Or.imp_right fun ⟨t', h⟩ => ⟨t', List.mem_cons_of_mem _ h⟩)
  case init =>
    refine ⟨fun u rid => ⟨?_, ?_⟩, fun rid u _ => rfl, fun rid u q ys h => (nomatch h),
      fun t job rid ok h => (nomatch h), fun rid u l h => (nomatch h)⟩
    · rw [hw.inFlight]
      exact FinMap.find?_empty rid
    · rw [hw.fired]
      rfl

/-- A peer counts at least one answer for each task that has handled one. -/
theorem card_le_answers {u : Uuid} {rid : String} {evs : History hash} (T : Finset Tid)
    (hT : ∀ t ∈ T, t.peer = u ∧
      ∃ o a ls, .did t o a ∈ evs ∧ actionOf o = some (.answers rid ls)) :
    T.card ≤ (answersTo rid (actions u evs)).length := by
  induction evs generalizing T with
  | nil =>
    rcases Finset.eq_empty_or_nonempty T with rfl | ⟨t, ht⟩
    · exact Nat.zero_le _
    · obtain ⟨-, o, a, ls, hmem, -⟩ := hT t ht
      cases hmem
  | cons ev evs ih =>
    have hsplit : answersTo rid (actions u (ev :: evs)) =
        answersTo rid (actions u evs) ++ answersTo rid (actions u [ev]) := by
      rw [← answersTo_append, ← actions_append, List.singleton_append]
    rw [hsplit, List.length_append]
    by_cases hev : ∃ t o a ls, ev = .did t o a ∧ t.peer = u ∧ actionOf o = some (.answers rid ls)
    · obtain ⟨t, o, a, ls, rfl, ht, ho⟩ := hev
      have hone : answersTo rid (actions u [(.did t o a : Event (cluster hash))]) = [ls] := by
        rw [actions_did, if_pos ht.symm, ho]
        exact if_pos rfl
      have hrest := ih (T.erase t) fun t' ht' => by
        obtain ⟨hne, ht'⟩ := Finset.mem_erase.1 ht'
        obtain ⟨hpeer, o', a', ls', hmem, ho'⟩ := hT t' ht'
        refine ⟨hpeer, o', a', ls', (List.mem_cons.1 hmem).resolve_left fun heq => ?_, ho'⟩
        cases heq
        exact hne rfl
      have hcard := Finset.pred_card_le_card_erase (s := T) (a := t)
      rw [hone, List.length_singleton]
      omega
    · refine Nat.le_add_right_of_le (ih T fun t ht => ?_)
      obtain ⟨hpeer, o, a, ls, hmem, ho⟩ := hT t ht
      refine ⟨hpeer, o, a, ls, (List.mem_cons.1 hmem).resolve_left fun heq => ?_, ho⟩
      exact hev ⟨t, o, a, ls, heq.symm, hpeer, ho⟩

/-! ## When a quorum is reached -/

/-- The servers of `S` take part in a request for a list that `u` coordinates: exactly they answer, no
copy is handed to a fallback, and all their answers have been handled before the timeout. -/
structure Participate (ring : HashRing) (u : Uuid) (job : Job) (rid : String) (S : Finset Uuid)
    (evs : History hash) (c : Config (cluster hash)) : Prop where
  coordinates : ring.getCoordinator hash job.list.id = some u
  request : requested rid evs = some (u, job, (ring.getPreferenceList hash job.list.id).drop 1)
  coordinator : u ∈ S
  members : ∀ v ∈ S, v ∈ ring.getPreferenceList hash job.list.id
  direct : Direct rid evs
  answered : ∀ v, v ≠ u → (v ∈ S ↔ ∃ x, Replied evs rid v x)
  handled : ∀ p x, p.msg.answers = some (rid, x) → p ∉ c.state.net ∧ .arrived (.lose p) ∉ evs ∧
    (.arrived (.deliver p) ∈ evs → c.pool (.incoming p.dst p.serial) = none)
  inTime : ∀ t, .did t (.await rid) false ∉ evs

/-- The code of a message that answers a request. -/
theorem ends_answer {peer src : Uuid} {m : Msg} {rid : String} {x : Option ShoppingList} {tr : Trace}
    (hm : m.answers = some (rid, x)) (h : (handleIncoming peer src m).Ends tr ()) :
    ∃ o a ls, ⟨o, a⟩ ∈ tr ∧ actionOf o = some (.answers rid ls) := by
  cases m with
  | ack r =>
    obtain ⟨rfl, -⟩ := Prod.mk.inj (Option.some.inj hm)
    have htr : tr = [⟨.lock .inFlight, ()⟩, ⟨.ack r, ()⟩, ⟨.unlock .inFlight, ()⟩] := ends_read h
    exact ⟨.ack r, (), [], by rw [htr]; exact List.mem_cons_of_mem _ List.mem_cons_self, rfl⟩
  | ackList r l =>
    obtain ⟨rfl, -⟩ := Prod.mk.inj (Option.some.inj hm)
    have htr : tr = [⟨.lock .inFlight, ()⟩, ⟨.ackList r l, ()⟩, ⟨.unlock .inFlight, ()⟩] := ends_read h
    exact ⟨.ackList r l, (), [l], by rw [htr]; exact List.mem_cons_of_mem _ List.mem_cons_self, rfl⟩
  | _ => cases hm

section Participate

variable {D : Discipline (cluster hash)} {w₀ : World hash} {evs : History hash}
  {c : Config (cluster hash)} {ring : HashRing} {u : Uuid} {job : Job} {rid : String}
  {S : Finset Uuid}

/-- The others of a preference list do not contain its coordinator. -/
theorem Participate.not_mem (hp : Participate ring u job rid S evs c) :
    u ∉ (ring.getPreferenceList hash job.list.id).drop 1 := by
  have hnodup := ring.nodup_getPreferenceList hash job.list.id
  have hhead := hp.coordinates
  unfold HashRing.getCoordinator at hhead
  cases hpref : ring.getPreferenceList hash job.list.id with
  | nil =>
    rw [hpref] at hhead
    cases hhead
  | cons v rest =>
    rw [hpref] at hhead hnodup
    obtain rfl := Option.some.inj hhead
    exact (List.nodup_cons.1 hnodup).1

/-- Two answers that are counted come from two servers of `S`. -/
theorem Participate.card_of_fired (hp : Participate ring u job rid S evs c) (hw : w₀.Settled)
    (hrun : Run (cluster hash) D (quiet w₀) evs c) (h : rid ∈ (c.state.node u).fired) :
    2 ≤ (S.erase u).card := by
  obtain ⟨l, hperm, hsub⟩ := (asks hw hrun).targets rid u job _ hp.request hp.direct
  have hnodup : (targets rid evs).Nodup :=
    hperm.nodup_iff.1 (((ring.nodup_getPreferenceList hash job.list.id).sublist
      (List.drop_sublist 1 _)).sublist hsub)
  obtain ⟨own, htracks⟩ := copies hw hrun rid hnodup
  obtain ⟨C, hcard, hC⟩ := htracks.fired u h
  refine hcard.trans (Finset.card_le_card fun v hv => ?_)
  obtain ⟨hv, hreplied⟩ := hC v hv
  have hne : v ≠ u := by
    rintro rfl
    exact hp.not_mem (hsub.subset (hperm.mem_iff.2 hv))
  exact Finset.mem_erase.2 ⟨hne, (hp.answered v hne).2 hreplied⟩

/-- The answer of each server of `S` has been handled by a task of its own. -/
theorem Participate.card_le_answers (hp : Participate ring u job rid S evs c) (hw : w₀.Settled)
    (hrun : Run (cluster hash) D (quiet w₀) evs c) :
    (S.erase u).card ≤ (answersTo rid (actions u evs)).length := by
  obtain ⟨posted, hposted⟩ := exists_posted hrun
  have hopen := (asks hw hrun).opened rid u job _ hp.request
  have hpacket : ∀ v : S.erase u, ∃ p ∈ posted, p.src = v ∧
      ∃ o a ls, .did (.incoming u p.serial) o a ∈ evs ∧ actionOf o = some (.answers rid ls) := by
    rintro ⟨v, hv⟩
    obtain ⟨hne, hv⟩ := Finset.mem_erase.1 hv
    obtain ⟨x, s, dst, m, hmem, hm⟩ := (hp.answered v hne).1 hv
    obtain rfl := ((addressed hw hrun).sent v s dst m rid x hmem hm).2 u job.list hopen
    obtain ⟨p, hmemp, hsrc, hdst, rfl⟩ := hposted.sent _ _ _ hmem
    obtain ⟨hnet, hlost, hended⟩ := hp.handled p x hm
    have hdelivered := ((hposted.fate p hmemp).resolve_left hnet).resolve_left hlost
    obtain ⟨tr, hexec⟩ := executes_of_delivered hrun hdelivered
    obtain ⟨o, a, ls, htr, ho⟩ := ends_answer hm (hexec.ends (hended hdelivered))
    have hdid := hexec.1 _ htr
    rw [hdst] at hdid
    exact ⟨p, hmemp, hsrc, o, a, ls, hdid, ho⟩
  choose p hmem hsrc hans using hpacket
  have hinj : Function.Injective fun v => Tid.incoming u (p v).serial := by
    intro v v' h
    have hserial : (p v).serial = (p v').serial := (Tid.incoming.inj h).2
    have hsame := List.inj_on_of_nodup_map hposted.nodup (hmem v) (hmem v') hserial
    exact Subtype.ext (by rw [← hsrc v, ← hsrc v', hsame])
  calc (S.erase u).card
    _ = (Finset.univ.image fun v => Tid.incoming u (p v).serial).card := by
      rw [Finset.card_image_of_injective _ hinj, Finset.card_univ, Fintype.card_coe]
    _ ≤ (answersTo rid (actions u evs)).length := by
      refine Sdle.card_le_answers _ fun t ht => ?_
      obtain ⟨v, -, rfl⟩ := Finset.mem_image.1 ht
      exact ⟨rfl, hans v⟩

/-- A coordinator that has handled two answers has its quorum. -/
theorem Participate.fired_of_card (hp : Participate ring u job rid S evs c) (hw : w₀.Settled)
    (hrun : Run (cluster hash) D (quiet w₀) evs c) (h : 2 ≤ (S.erase u).card) :
    rid ∈ (c.state.node u).fired := by
  have hc := counted hw hrun
  have hopen := (asks hw hrun).opened rid u job _ hp.request
  rcases hc.outstanding rid u job.list hopen with ⟨ys, hpending⟩ | hfired | ⟨t, hgiven⟩
  · have hlen : (QuoromState.opened job.list).needed ≤ (answersTo rid (actions u evs)).length :=
      h.trans (hp.card_le_answers hw hrun)
    rw [← hc.collected rid u _ ys hpending] at hlen
    obtain ⟨during, before, hacts, huntouched, rfl⟩ := exists_of_pending hpending
    have hcount := (hc.tabulated u rid).2
    have htriggers := @triggers_open _ _ _ _ rid (.opened job.list) before during QuoromState.needed
      Nat.two_pos huntouched
    rw [hacts, htriggers, if_pos hlen] at hcount
    exact List.count_pos_iff.1 (by omega)
  · exact hfired
  · exact absurd hgiven (hp.inTime t)

end Participate

/-- **A quorum takes one node more**: it is reached exactly if more than `WRITE_NODES` (`READ_NODES`)
nodes of the list take part, the coordinator among them, and where nothing fails exactly on the rings
of at least three servers. -/
theorem quorum_reached_iff {D : Discipline (cluster hash)} {w₀ : World hash} (hw : w₀.Settled)
    {evs : History hash} {c : Config (cluster hash)} (hrun : Run (cluster hash) D (quiet w₀) evs c)
    {ring : HashRing} {u : Uuid} {job : Job} {rid : String} {S : Finset Uuid}
    (hp : Participate ring u job rid S evs c) :
    (rid ∈ (c.state.node u).fired ↔ (if job.write then WRITE_NODES else READ_NODES) < S.card) ∧
      (ring.replicas = REPLICAS → (∀ v ∈ ring.getPreferenceList hash job.list.id, v ∈ S) →
        (rid ∈ (c.state.node u).fired ↔ 3 ≤ ring.serverCount)) := by
  have hneeded : (if job.write then WRITE_NODES else READ_NODES) = 2 := ite_self _
  have hiff : rid ∈ (c.state.node u).fired ↔ 2 < S.card := by
    rw [← Finset.card_erase_add_one hp.coordinator, Nat.lt_succ_iff]
    exact ⟨hp.card_of_fired hw hrun, hp.fired_of_card hw hrun⟩
  refine ⟨hneeded ▸ hiff, fun hreplicas hall => ?_⟩
  have hS : S = (ring.getPreferenceList hash job.list.id).toFinset := by
    ext v
    rw [List.mem_toFinset]
    exact ⟨hp.members v, hall v⟩
  have hone : 1 ≤ ring.replicas := by
    rw [hreplicas]
    decide
  rw [hiff, hS, List.toFinset_card_of_nodup (ring.nodup_getPreferenceList hash job.list.id),
    HashRing.getPreferenceList_eq hone, List.length_take, HashRing.length_owners, hreplicas]
  exact Nat.lt_min.trans (and_iff_right (by decide))

/-- The server that answers a request in a step. -/
def replier (rid : String) : Event (cluster hash) → Option Uuid
  | .did (.incoming v _) (.send _ m) true => if m.answers.map Prod.fst = some rid then some v else none
  | _ => none

/-- A step that `Participate` does not allow when the tasks of `c` are left. -/
def disturbs (rid : String) (c : Config (cluster hash)) : Event (cluster hash) → Bool
  | .did _ (.send _ (.handoff r _ _)) true => r = rid
  | .did _ (.await r) false => r = rid
  | .arrived (.lose p) => p.msg.answers.map Prod.fst = some rid
  | .arrived (.deliver p) =>
    p.msg.answers.map Prod.fst = some rid && (c.pool (.incoming p.dst p.serial)).isSome
  | _ => false

/-- The request that `u` coordinates under an id and the servers that take part in it. -/
def participants (ring : HashRing) (u : Uuid) (rid : String) (evs : History hash)
    (c : Config (cluster hash)) : Option (Job × Finset Uuid) :=
  (requested rid evs).bind fun (u', job, replicas) =>
    let preference := ring.getPreferenceList hash job.list.id
    let S := insert u (evs.filterMap (replier rid)).toFinset
    if u' = u ∧ replicas = preference.drop 1 ∧ preference.head? = some u ∧ (∀ v ∈ S, v ∈ preference) ∧
        (∀ ev ∈ evs, disturbs rid c ev = false) ∧
        ∀ p ∈ c.state.net, p.msg.answers.map Prod.fst ≠ some rid then
      some (job, S)
    else none

theorem mem_repliers {rid : String} {evs : History hash} {v : Uuid} :
    v ∈ evs.filterMap (replier rid) ↔ ∃ x, Replied evs rid v x := by
  rw [List.mem_filterMap]
  constructor
  · rintro ⟨ev, hev, h⟩
    unfold replier at h
    split at h
    · rename_i v' s u m
      split at h
      · rename_i hm
        obtain rfl := Option.some.inj h
        obtain ⟨⟨r, x⟩, hx, rfl⟩ := Option.map_eq_some_iff.1 hm
        exact ⟨x, s, u, m, hev, hx⟩
      · cases h
    · cases h
  · rintro ⟨x, s, u, m, hev, hm⟩
    refine ⟨_, hev, if_pos ?_⟩
    rw [hm]
    rfl

theorem participate_of_participants {ring : HashRing} {u : Uuid} {job : Job} {rid : String}
    {S : Finset Uuid} {evs : History hash} {c : Config (cluster hash)}
    (h : participants ring u rid evs c = some (job, S)) : Participate ring u job rid S evs c := by
  obtain ⟨⟨u', job', replicas⟩, hreq, h⟩ := Option.bind_eq_some_iff.1 h
  simp only [Option.ite_none_right_eq_some, Option.some.injEq, Prod.mk.injEq] at h
  obtain ⟨⟨rfl, rfl, hcoordinator, hmembers, hquiet, hnet⟩, rfl, rfl⟩ := h
  have hname : ∀ {p : Packet} {x}, p.msg.answers = some (rid, x) →
      p.msg.answers.map Prod.fst = some rid := fun h => by rw [h]; rfl
  refine ⟨hcoordinator, hreq, Finset.mem_insert_self _ _, hmembers, fun t v l r hmem => ?_,
    fun v hv => ?_, fun p x hx => ⟨fun hmem => ?_, fun hmem => ?_, fun hmem => ?_⟩, fun t hmem => ?_⟩
  · exact absurd (hquiet _ hmem) (by simp [disturbs])
  · rw [Finset.mem_insert, List.mem_toFinset, ← mem_repliers]
    exact or_iff_right hv
  · exact hnet p hmem (hname hx)
  · exact absurd (hquiet _ hmem) (by simp [disturbs, hname hx])
  · simpa [disturbs, hname hx] using hquiet _ hmem
  · exact absurd (hquiet _ hmem) (by simp [disturbs])

theorem quorum_reached_milk :
    ∃ evs c, Run (cluster md5) (fun _ _ _ => True) (quiet threeServers) evs c ∧
      ∃ job S, Participate (threeServers.node (.ofTail 1)).hashring (.ofTail 1) job
          (Uuid.ofTail 301).toString S evs c ∧ S.card = 3 ∧
        (Uuid.ofTail 301).toString ∈ (c.state.node (.ofTail 1)).fired := by
  obtain ⟨evs, c, hrun, hcheck⟩ := exists_run (D := fun _ _ _ => True) (fun _ _ _ => true)
    (fun _ _ _ _ => trivial) (quiet threeServers)
    ((putMoves 0 (oneItem "milk" 201) (.ofTail 301)).take 63 ++ turns (.incoming (.ofTail 1) 3) 1 ++
      turns (.incoming (.ofTail 1) 4) 1)
    (fun evs c => (participants (threeServers.node (.ofTail 1)).hashring (.ofTail 1)
      (Uuid.ofTail 301).toString evs c).any fun (x : Job × Finset Uuid) => decide (x.2.card = 3))
    (by decide +kernel)
  obtain ⟨⟨job, S⟩, hpart, hcard⟩ := (Option.any_eq_true _ _).1 hcheck
  have hpart := participate_of_participants hpart
  have hcard : S.card = 3 := of_decide_eq_true hcard
  refine ⟨evs, c, hrun, job, S, hpart, hcard, ?_⟩
  rw [(quorum_reached_iff (settled_joined md5 _) hrun hpart).1, hcard]
  cases job.write <;> decide

/-- Two servers that know each other. -/
abbrev twoServers : World md5 := .joined md5 [.ofTail 1, .ofTail 2]

/-- A `PutList` for list 101 on a ring of two servers: server 1 coordinates it, the other stores and
acknowledges it, and the acknowledgement is handled. -/
def putOnTwo : List (Move (cluster md5)) :=
  .arrive (.request [] (.putList (oneItem "milk" 201))) ::
  .arrive (.take ⟨0, .ofTail 1, [], .putList (oneItem "milk" 201)⟩) ::
  turns (.proxied (.ofTail 1)) 3 ++ .turn (.proxied (.ofTail 1)) (.uuid (.ofTail 301)) ::
  turns (.proxied (.ofTail 1)) 16 ++
  .arrive (.deliver ⟨1, .ofTail 1, .ofTail 2,
    .replicateList (Uuid.ofTail 301).toString (oneItem "milk" 201) true⟩) ::
  turns (.incoming (.ofTail 2) 1) 9 ++
  .arrive (.deliver ⟨2, .ofTail 2, .ofTail 1, .ack (Uuid.ofTail 301).toString⟩) ::
  turns (.incoming (.ofTail 1) 2) 4

/-- **On a ring of two servers no quorum is ever reached**: all nodes of the list take part, as many as
`WRITE_NODES`, and nothing fails. -/
theorem quorum_of_nodes_fails :
    ¬ ∀ (D : Discipline (cluster md5)) (w₀ : World md5), w₀.Settled →
      ∀ evs c, Run (cluster md5) D (quiet w₀) evs c → ∀ ring u job rid S,
        Participate ring u job rid S evs c →
          (if job.write then WRITE_NODES else READ_NODES) ≤ S.card →
            rid ∈ (c.state.node u).fired := by
  intro h
  obtain ⟨evs, c, hrun, hcheck⟩ := exists_run (D := fun _ _ _ => True) (fun _ _ _ => true)
    (fun _ _ _ _ => trivial) (quiet twoServers) putOnTwo
    (fun evs c => (participants (twoServers.node (.ofTail 1)).hashring (.ofTail 1)
      (Uuid.ofTail 301).toString evs c).any fun (x : Job × Finset Uuid) =>
        decide (x.2.card = 2 ∧ (Uuid.ofTail 301).toString ∉ (c.state.node (.ofTail 1)).fired))
    (by decide +kernel)
  obtain ⟨⟨job, S⟩, hpart, hcard⟩ := (Option.any_eq_true _ _).1 hcheck
  obtain ⟨hcard, hnot⟩ := of_decide_eq_true hcard
  have hcard : S.card = 2 := hcard
  refine hnot (h _ _ (settled_joined md5 _) evs c hrun _ _ job _ S
    (participate_of_participants hpart) ?_)
  rw [hcard]
  cases job.write <;> decide

end Sdle
