import Sdle.Traffic

/-!
# Hints and the peer's own data

A peer has one row per list, for what it stores itself and for what it keeps as a hint for another
server, and every write replaces the row.

* `own_data_survives` — **the peer's own data survives** every run in which ordinary writes dominate
  the rows they replace, no hint is written over an own row, and none is deleted as a hint.
* `hints_kept` — **no hint is lost** in every run in which no ordinary write meets a hint, and a
  second hint for a list comes outside the rounds of hinted handoff, has the same destination as the
  first and dominates it.
-/

set_option autoImplicit false

namespace Sdle

open Tasks Peer ServerStorage

variable {hash : String → U128}

/-! ## Own data -/

/-- What a storage operation must respect for the peer's own data to survive it.  An ordinary write
dominates the row that it replaces, unless that is a hint; a hint is not written over a row that is
none; and a delivered hint is deleted only while the row is one. -/
def SparesOwnRow (o : Op) (a : Ans o) (s : ServerStorage hash) : Prop :=
  match o, a with
  | .writeShoppingList l, some _ =>
    ∀ r, s.rows.find? (key hash l.id) = some r → r.hintedHandoff = none → r.crdtData.list ≤ l.list
  | .writeShoppingListHandoff l _, some _ =>
    ∀ r, s.rows.find? (key hash l.id) = some r → r.hintedHandoff ≠ none
  | .deleteShoppingList id, some _ =>
    ∀ r, s.rows.find? (key hash id) = some r → r.hintedHandoff ≠ none
  | _, _ => True

/-- Every storage operation of the run spares the own rows. -/
def sparing : Discipline (cluster hash) := fun _ w ev =>
  match ev with
  | .did t o a => SparesOwnRow o a (w.node t.peer).storage
  | _ => True

/-- The own data of a peer: what it has stored by ordinary writes is in a row that is no hint. -/
def OwnData (evs : History hash) (w : World hash) : Prop :=
  ∀ u, ∀ s ∈ evs.filterMap (stored u), ∃ l,
    (w.node u).storage.rows.find? (key hash s.id) = some ⟨l, none⟩ ∧ s.list ≤ l.list

theorem ownData_did {evs : History hash} {w : World hash} {t : Tid} {o : Op} {a : Ans o}
    (hown : OwnData evs w) (hD : SparesOwnRow o a (w.node t.peer).storage) :
    OwnData (.did t o a :: evs) (effect t o a w) := by
  intro u s hs
  rw [storage_effect]
  -- the rows of other peers stay, and so do their writes
  by_cases hu : u = t.peer
  swap
  · rw [if_neg hu]
    apply hown u s
    rw [List.filterMap_cons] at hs
    split at hs
    · exact hs
    · rename_i l hl
      exfalso
      cases o with
      | writeShoppingList l' => cases a <;> simp [stored, Ne.symm hu] at hl
      | _ => simp [stored] at hl
  rw [if_pos hu, hu]
  have hold : s ∈ evs.filterMap (stored u) → ∃ l,
      (w.node t.peer).storage.rows.find? (key hash s.id) = some ⟨l, none⟩ ∧ s.list ≤ l.list := by
    intro h
    rw [← hu]
    exact hown u s h
  have hkeep : stored u (.did t o a : Event (cluster hash)) = none → s ∈ evs.filterMap (stored u) := by
    intro h
    rwa [List.filterMap_cons, h] at hs
  cases o with
  | writeShoppingList l =>
    cases a with
    | none => exact hold (hkeep rfl)
    | some _ =>
      simp only [storageAfter, ServerStorage.writeShoppingList, rows_upsert]
      have hs : s = l ∨ s ∈ evs.filterMap (stored u) := by
        rw [List.filterMap_cons] at hs
        simpa [stored, hu] using hs
      split
      · refine ⟨l, rfl, ?_⟩
        rcases hs with rfl | hs
        · exact le_rfl
        · obtain ⟨l', hl', hle⟩ := hold hs
          rename_i hk
          exact le_trans hle (hD _ (hk ▸ hl') rfl)
      · rcases hs with rfl | hs
        · rename_i hk
          exact absurd rfl hk
        · exact hold hs
  | writeShoppingListHandoff l d =>
    cases a with
    | none => exact hold (hkeep rfl)
    | some _ =>
      obtain ⟨l', hl', hle⟩ := hold (hkeep rfl)
      simp only [storageAfter, ServerStorage.writeShoppingListHandoff, rows_upsert]
      split
      · rename_i hk
        exact absurd rfl (hD _ (hk ▸ hl'))
      · exact ⟨l', hl', hle⟩
  | deleteShoppingList id =>
    cases a with
    | none => exact hold (hkeep rfl)
    | some _ =>
      obtain ⟨l', hl', hle⟩ := hold (hkeep rfl)
      simp only [storageAfter, rows_delete]
      split
      · rename_i hk
        exact absurd rfl (hD _ (hk ▸ hl'))
      · exact ⟨l', hl', hle⟩
  | _ => exact hold (hkeep rfl)

/-- **Own data survives every run whose storage operations spare the own rows**: whatever a peer
has stored by an ordinary write, it still stores a state that dominates it. -/
theorem own_data_survives {w₀ : World hash} {evs : History hash} {c : Config (cluster hash)}
    (hrun : Run (cluster hash) sparing (quiet w₀) evs c) (u : Uuid) (s : ShoppingList)
    (hs : s ∈ evs.filterMap (stored u)) :
    ∃ l, (c.state.node u).storage.getShoppingList s.id = some l ∧ s.list ≤ l.list := by
  have hown : OwnData evs c.state := by
    refine Run.invariant OwnData ?_ ?_ ?_ ?_ hrun
    · intro evs w t o ch a w' hinv hact hD
      obtain ⟨-, rfl⟩ := act_eq hact
      exact ownData_did hinv hD
    · intro evs w t hinv
      exact hinv
    · intro evs w e r w' hinv harr _ u s hs
      rw [node_arrive harr]
      exact hinv u s hs
    · intro u s hs
      exact absurd hs List.not_mem_nil
  obtain ⟨l, hl, hle⟩ := hown u s hs
  exact ⟨l, (getShoppingList_eq_some _ _ _).2 ⟨none, hl⟩, hle⟩

/-- The test for `SparesOwnRow`. -/
def sparesOwnRow (o : Op) (a : Ans o) (s : ServerStorage hash) : Bool :=
  match o, a with
  | .writeShoppingList l, some _ =>
    (s.rows.find? (key hash l.id)).all fun r =>
      r.hintedHandoff.isSome || decide (r.crdtData.list ≤ l.list)
  | .writeShoppingListHandoff l _, some _ =>
    (s.rows.find? (key hash l.id)).all fun r => r.hintedHandoff.isSome
  | .deleteShoppingList id, some _ =>
    (s.rows.find? (key hash id)).all fun r => r.hintedHandoff.isSome
  | _, _ => true

theorem sparesOwnRow_iff (o : Op) (a : Ans o) (s : ServerStorage hash) :
    sparesOwnRow o a s = true ↔ SparesOwnRow o a s := by
  have hhint : ∀ h : Option Uuid, h.isSome = true ↔ h ≠ none := fun h => Option.isSome_iff_ne_none
  cases o with
  | writeShoppingList l =>
    cases a with
    | none => simp [sparesOwnRow, SparesOwnRow]
    | some _ =>
      simp only [sparesOwnRow, SparesOwnRow, Option.all_eq_true, Bool.or_eq_true, hhint,
        decide_eq_true_eq, ne_eq, or_iff_not_imp_left, not_not]
  | writeShoppingListHandoff l d =>
    cases a with
    | none => simp [sparesOwnRow, SparesOwnRow]
    | some _ => simp only [sparesOwnRow, SparesOwnRow, Option.all_eq_true, hhint]
  | deleteShoppingList id =>
    cases a with
    | none => simp [sparesOwnRow, SparesOwnRow]
    | some _ => simp only [sparesOwnRow, SparesOwnRow, Option.all_eq_true, hhint]
  | _ => simp [sparesOwnRow, SparesOwnRow]

instance (o : Op) (a : Ans o) (s : ServerStorage hash) : Decidable (SparesOwnRow o a s) :=
  decidable_of_iff _ (sparesOwnRow_iff o a s)

instance (evs : History hash) (w : World hash) (ev : Event (cluster hash)) :
    Decidable (sparing evs w ev) :=
  match ev with
  | .did t o a => inferInstanceAs (Decidable (SparesOwnRow o a (w.node t.peer).storage))
  | .ended _ => isTrue trivial
  | .arrived _ => isTrue trivial

/-- Three servers that know each other; on the way to the second are a list that it replicates and
the hint that keeps a list for the third. -/
def replicaAndHintOf (hinted : ShoppingList) : World md5 :=
  ((World.joined md5 [.ofTail 1, .ofTail 2, .ofTail 3]).post (.ofTail 1) (.ofTail 2)
    (.replicateList "r" (oneItem "milk" 201) true)).post (.ofTail 1) (.ofTail 2)
    (.handoff "r" hinted (.ofTail 3))

/-- The hint is of the list that is replicated. -/
def replicaAndHint : World md5 := replicaAndHintOf (oneItem "milk" 201)

/-- The second server handles the `ReplicateList` and stores the list. -/
def replicaStored : List (Move (cluster md5)) :=
  .arrive (.deliver ⟨0, .ofTail 1, .ofTail 2, .replicateList "r" (oneItem "milk" 201) true⟩) ::
    List.replicate 3 (.turn (.incoming (.ofTail 2) 0) .yes)

/-- Then it handles the `Handoff`, and a round of hinted handoff delivers the hint. -/
def hintDeliveredOf (hinted : ShoppingList) : List (Move (cluster md5)) :=
  replicaStored ++
    .arrive (.deliver ⟨1, .ofTail 1, .ofTail 2, .handoff "r" hinted (.ofTail 3)⟩) ::
    List.replicate 3 (.turn (.incoming (.ofTail 2) 1) .yes) ++
    .arrive (.tickHintedHandoff (.ofTail 2)) ::
    List.replicate 3 (.turn (.hintedHandoff (.ofTail 2)) .yes) ++
    .turn (.hintedHandoff (.ofTail 2)) (.uuid (.ofTail 301)) ::
    List.replicate 16 (.turn (.hintedHandoff (.ofTail 2)) .yes)

def hintDelivered : List (Move (cluster md5)) := hintDeliveredOf (oneItem "milk" 201)

/-- Another list than the one that is replicated. -/
def otherList : ShoppingList :=
  ⟨.ofTail 102, AWORMap.new.insert "bread" (Item.new 1 false (.ofTail 202))⟩

/-- The hint of the other list is stored, delivered and deleted, and the replica stays. -/
theorem own_data_survives_otherHint :
    ∃ evs c, Run (cluster md5) sparing (quiet (replicaAndHintOf otherList)) evs c ∧
      evs.filterMap (hinted (.ofTail 2)) = [(otherList, .ofTail 3)] ∧
      evs.filterMap (deliveredHint (.ofTail 2)) = [(.ofTail 3, otherList)] ∧
      (c.state.node (.ofTail 2)).storage.getHintedHandoffs = [] ∧
      ∃ l, (c.state.node (.ofTail 2)).storage.getShoppingList (.ofTail 101) = some l ∧
        (oneItem "milk" 201).list ≤ l.list := by
  obtain ⟨evs, c, hrun, hcheck⟩ := exists_run (D := sparing)
    (fun evs w ev => decide (sparing evs w ev)) (fun _ _ _ => of_decide_eq_true)
    (quiet (replicaAndHintOf otherList)) (hintDeliveredOf otherList)
    (fun evs c => decide (oneItem "milk" 201 ∈ evs.filterMap (stored (.ofTail 2)) ∧
      evs.filterMap (hinted (.ofTail 2)) = [(otherList, .ofTail 3)] ∧
      evs.filterMap (deliveredHint (.ofTail 2)) = [(.ofTail 3, otherList)] ∧
      (c.state.node (.ofTail 2)).storage.getHintedHandoffs = []))
    (by decide +kernel)
  obtain ⟨hstored, hhinted, hdelivered, hnone⟩ := of_decide_eq_true hcheck
  exact ⟨evs, c, hrun, hhinted, hdelivered, hnone,
    own_data_survives hrun (.ofTail 2) (oneItem "milk" 201) hstored⟩

/-- Without the condition the replica that was stored first is gone. -/
theorem own_data_deleted :
    ¬ ∀ evs c, Run (cluster md5) anyStep (quiet replicaAndHint) evs c →
      ∀ u, ∀ s ∈ evs.filterMap (stored u),
        ∃ l, (c.state.node u).storage.getShoppingList s.id = some l ∧ s.list ≤ l.list := by
  intro h
  obtain ⟨evs, c, hrun, hcheck⟩ := exists_run (D := anyStep) (fun _ _ _ => true)
    (fun _ _ _ _ => trivial) (quiet replicaAndHint) hintDelivered
    (fun evs c => decide (oneItem "milk" 201 ∈ evs.filterMap (stored (.ofTail 2))) &&
      ((c.state.node (.ofTail 2)).storage.getShoppingList (.ofTail 101)).isNone)
    (by decide +kernel)
  rw [Bool.and_eq_true, decide_eq_true_eq] at hcheck
  obtain ⟨l, hl, -⟩ := h evs c hrun (.ofTail 2) _ hcheck.1
  have hnone := hcheck.2
  rw [show Uuid.ofTail 101 = (oneItem "milk" 201).id from rfl, hl] at hnone
  exact Bool.noConfusion hnone

/-! ## Hints -/

/-- A round of hinted handoff of the peer has started and has not ended. -/
def inRound (peer : Uuid) : History hash → Bool
  | [] => false
  | .arrived (.tickHintedHandoff u) :: evs => if u = peer then true else inRound peer evs
  | .ended (.hintedHandoff u) :: evs => if u = peer then false else inRound peer evs
  | _ :: evs => inRound peer evs

/-- What a storage operation must respect for no hint to be lost.  An ordinary write meets no hint;
and where a hint meets another one, it comes outside the rounds of the peer, is for the same list and
destination, and dominates the one that it replaces. -/
def SparesHints (peer : Uuid) (evs : History hash) (o : Op) (a : Ans o) (s : ServerStorage hash) :
    Prop :=
  match o, a with
  | .writeShoppingList l, some _ =>
    ∀ r, s.rows.find? (key hash l.id) = some r → r.hintedHandoff = none
  | .writeShoppingListHandoff l d, some _ =>
    ∀ r, s.rows.find? (key hash l.id) = some r → ∀ d', r.hintedHandoff = some d' →
      inRound peer evs = false ∧ d' = d ∧ r.crdtData.id = l.id ∧ r.crdtData.list ≤ l.list
  | _, _ => True

/-- Every storage operation of the run spares the hints. -/
def hintSparing : Discipline (cluster hash) := fun evs w ev =>
  match ev with
  | .did t o a => SparesHints t.peer evs o a (w.node t.peer).storage
  | _ => True

/-- A hint for `d` that dominates `l` is stored. -/
def Pending (s : ServerStorage hash) (l : ShoppingList) (d : Uuid) : Prop :=
  ∃ l', (d, l') ∈ s.getHintedHandoffs ∧ l'.id = l.id ∧ l.list ≤ l'.list

/-- A list that dominates `l` has been sent to `d` by a round of the peer. -/
def Delivered (peer : Uuid) (evs : History hash) (l : ShoppingList) (d : Uuid) : Prop :=
  ∃ l', (d, l') ∈ evs.filterMap (deliveredHint peer) ∧ l'.id = l.id ∧ l.list ≤ l'.list

/-- Every hint that the peer has stored is still there, or has been delivered since. -/
def Kept (peer : Uuid) (evs : History hash) (s : ServerStorage hash) : Prop :=
  ∀ later ev earlier, evs = later ++ ev :: earlier → ∀ l d, hinted peer ev = some (l, d) →
    Delivered peer later l d ∨ Pending s l d

theorem Delivered.cons {peer d : Uuid} {evs : History hash} {l : ShoppingList}
    (h : Delivered peer evs l d) (ev : Event (cluster hash)) : Delivered peer (ev :: evs) l d := by
  obtain ⟨l', hl', h⟩ := h
  refine ⟨l', ?_, h⟩
  rw [List.filterMap_cons]
  split
  · exact hl'
  · exact List.mem_cons_of_mem _ hl'

theorem Kept.cons {peer : Uuid} {evs : History hash} {s s' : ServerStorage hash}
    {ev : Event (cluster hash)} (h : Kept peer evs s)
    (hold : ∀ later e earlier, evs = later ++ e :: earlier → ∀ l d, hinted peer e = some (l, d) →
      Pending s l d → Delivered peer later l d ∨ Pending s' l d)
    (hnew : ∀ l d, hinted peer ev = some (l, d) → Pending s' l d) : Kept peer (ev :: evs) s' := by
  intro later e earlier hsplit l d hl
  cases later with
  | nil =>
    rw [List.nil_append, List.cons.injEq] at hsplit
    rw [← hsplit.1] at hl
    exact Or.inr (hnew l d hl)
  | cons e' later =>
    rw [List.cons_append, List.cons.injEq] at hsplit
    obtain ⟨rfl, hsplit⟩ := hsplit
    rcases h later e earlier hsplit l d hl with hd | hp
    · exact Or.inl (hd.cons ev)
    · rcases hold later e earlier hsplit l d hl hp with hd | hp
      · exact Or.inl (hd.cons ev)
      · exact Or.inr hp

/-- The events since the peer has stored its last hint under a key. -/
def sinceHint (peer : Uuid) (k : U128) (evs : History hash) : History hash :=
  evs.takeWhile fun ev => (hinted peer ev).all fun h => key hash h.1.id != k

/-- They lie within the events since any earlier hint under that key. -/
theorem sinceHint_within {peer : Uuid} {k : U128} {later earlier : History hash}
    {ev : Event (cluster hash)} {l : ShoppingList} {d : Uuid} (hev : hinted peer ev = some (l, d))
    (hk : key hash l.id = k) : sinceHint peer k (later ++ ev :: earlier) <+: later := by
  induction later with
  | nil => rw [List.nil_append, sinceHint, List.takeWhile_cons_of_neg (by simp [hev, hk])]
  | cons e later ih =>
    rw [List.cons_append, sinceHint, List.takeWhile_cons]
    split
    · exact List.cons_prefix_cons.2 ⟨rfl, ih⟩
    · exact List.nil_prefix

/-- The rows of the hints that a round still has to deliver are as it has read them. -/
def Snapshot (s : ServerStorage hash) (todo : List (Uuid × ShoppingList)) : Prop :=
  (todo.map fun h => key hash h.2.id).Nodup ∧
    ∀ h ∈ todo, s.rows.find? (key hash h.2.id) = some ⟨h.2, some h.1⟩

/-- What holds in the phases of a round of hinted handoff of a peer. -/
def RoundOk (peer : Uuid) (evs : History hash) (s : ServerStorage hash) : Phase → Prop
  | .round => inRound peer evs = true
  | .hints todo => inRound peer evs = true ∧ Snapshot s todo
  | .hinting _ todo => inRound peer evs = true ∧ Snapshot s todo
  | .delivered d l todo =>
    inRound peer evs = true ∧ Snapshot s ((d, l) :: todo) ∧
      (d, l) ∈ (sinceHint peer (key hash l.id) evs).filterMap (deliveredHint peer)
  | _ => True

theorem snapshot_getHintedHandoffs (s : ServerStorage hash) : Snapshot s s.getHintedHandoffs := by
  constructor
  · have hsub : (s.getHintedHandoffs.map fun h => key hash h.2.id).Sublist s.rows.keys := by
      unfold getHintedHandoffs AList.keys List.keys
      have hent : ∀ e ∈ s.rows.entries, key hash e.2.crdtData.id = e.1 :=
        fun e he => s.keyed e.1 e.2 ((FinMap.mem_entries s.rows e.1 e.2).1 he)
      generalize s.rows.entries = es at hent
      induction es with
      | nil => exact List.Sublist.refl _
      | cons e es ih =>
        have ih := ih fun e' he' => hent e' (List.mem_cons_of_mem _ he')
        rw [List.filterMap_cons, List.map_cons]
        cases hh : e.2.hintedHandoff with
        | none => exact ih.cons _
        | some d =>
          rw [Option.map_some, List.map_cons, hent e List.mem_cons_self]
          exact ih.cons_cons _
    exact hsub.nodup s.rows.keys_nodup
  · rintro ⟨d, l⟩ h
    exact (mem_getHintedHandoffs s d l).1 h

theorem Snapshot.tail {s : ServerStorage hash} {h : Uuid × ShoppingList}
    {todo : List (Uuid × ShoppingList)} (hs : Snapshot s (h :: todo)) : Snapshot s todo :=
  ⟨(List.nodup_cons.1 hs.1).2, fun x hx => hs.2 x (List.mem_cons_of_mem _ hx)⟩

/-- Deleting the first of the hints leaves the others as they were. -/
theorem Snapshot.delete {s : ServerStorage hash} {d : Uuid} {l : ShoppingList}
    {todo : List (Uuid × ShoppingList)} (hs : Snapshot s ((d, l) :: todo)) :
    Snapshot (s.deleteShoppingList l.id) todo := by
  refine ⟨hs.tail.1, fun h hh => ?_⟩
  rw [rows_delete, if_neg, hs.tail.2 h hh]
  intro hk
  exact (List.nodup_cons.1 hs.1).1 (List.mem_map.2 ⟨h, hh, hk⟩)

/-- A step that keeps the rows that are hints and stores none over them, and is neither the start
nor the end of a round, keeps what holds in the phases. -/
theorem RoundOk.cons {peer : Uuid} {evs : History hash} {s s' : ServerStorage hash} {g : Phase}
    {ev : Event (cluster hash)} (h : RoundOk peer evs s g)
    (hh : inRound peer evs = true → ∀ l d d', hinted peer ev = some (l, d) →
      ∀ r, s.rows.find? (key hash l.id) = some r → r.hintedHandoff ≠ some d')
    (hs : inRound peer evs = true → ∀ k l d, s.rows.find? k = some ⟨l, some d⟩ →
      s'.rows.find? k = some ⟨l, some d⟩)
    (hr : inRound peer (ev :: evs) = inRound peer evs) : RoundOk peer (ev :: evs) s' g := by
  have hsnap : inRound peer evs = true → ∀ todo, Snapshot s todo → Snapshot s' todo :=
    fun hin todo h => ⟨h.1, fun x hx => hs hin _ _ _ (h.2 x hx)⟩
  cases g with
  | delivered d l todo =>
    obtain ⟨hin, hsn, hsent⟩ := h
    refine ⟨hr.trans hin, hsnap hin _ hsn, ?_⟩
    unfold sinceHint at hsent ⊢
    rw [List.takeWhile_cons_of_pos, List.filterMap_cons]
    · split
      · exact hsent
      · exact List.mem_cons_of_mem _ hsent
    · rw [Option.all_eq_true]
      rintro ⟨l', d'⟩ hl'
      simp only [bne_iff_ne]
      intro hk
      exact hh hin l' d' d hl' _ (hk ▸ hsn.2 _ List.mem_cons_self) rfl
  | round => exact hr.trans h
  | hints todo => exact ⟨hr.trans h.1, hsnap h.1 _ h.2⟩
  | hinting rid todo => exact ⟨hr.trans h.1, hsnap h.1 _ h.2⟩
  | _ => trivial

/-- An event that stores no hint of the peer and leaves its rows as they are. -/
theorem RoundOk.quiet {peer : Uuid} {evs : History hash} {s : ServerStorage hash} {g : Phase}
    {ev : Event (cluster hash)} (h : RoundOk peer evs s g) (hh : hinted peer ev = none)
    (hr : inRound peer (ev :: evs) = inRound peer evs) : RoundOk peer (ev :: evs) s g := by
  refine h.cons (fun _ l d d' hl => ?_) (fun _ _ _ _ hk => hk) hr
  rw [hh] at hl
  cases hl

/-- The invariant of the hints, for one peer. -/
def HintInv (peer : Uuid) (evs : History hash) (w : World hash) : Prop :=
  Kept peer evs (w.node peer).storage ∧
    RoundOk peer evs (w.node peer).storage (phases evs (.hintedHandoff peer))

/-- An operation of the peer that is no write and no deletion changes no row. -/
theorem hintInv_quiet {peer : Uuid} {evs : History hash} {w : World hash}
    {t : Tid} {o : Op} {a : Ans o} (hinv : HintInv peer evs w)
    (hs : storageAfter o a (w.node peer).storage = (w.node peer).storage ∨ peer ≠ t.peer)
    (hh : hinted peer (.did t o a : Event (cluster hash)) = none)
    (hg : t = .hintedHandoff peer → RoundOk peer (.did t o a :: evs) (w.node peer).storage
      ((phases evs t).next hash o a)) :
    HintInv peer (.did t o a :: evs) (effect t o a w) := by
  have hst : ((effect t o a w).node peer).storage = (w.node peer).storage := by
    rw [storage_effect]
    split
    · rename_i h
      exact hs.resolve_right (not_not.2 h)
    · rfl
  unfold HintInv
  rw [hst]
  refine ⟨hinv.1.cons (fun _ _ _ _ _ _ _ hp => Or.inr hp) fun l d h => ?_, ?_⟩
  · rw [hh] at h
    cases h
  · by_cases ht : t = .hintedHandoff peer
    · subst ht
      rw [phases_did, if_pos rfl]
      exact hg rfl
    · rw [phases_did, if_neg (Ne.symm ht)]
      exact hinv.2.quiet hh rfl

/-- A write of the peer that spares the hints. -/
theorem hintInv_write {peer : Uuid} {evs : History hash} {w : World hash}
    {t : Tid} {o : Op} {a : Ans o} {l : ShoppingList} {hint : Option Uuid}
    (hinv : HintInv peer evs w) (hpeer : peer = t.peer)
    (hs : storageAfter o a (w.node peer).storage = (w.node peer).storage.upsert l hint)
    (hrow : ∀ r, (w.node peer).storage.rows.find? (key hash l.id) = some r →
      ∀ d', r.hintedHandoff = some d' → inRound peer evs = false ∧ hint = some d' ∧
        r.crdtData.id = l.id ∧ r.crdtData.list ≤ l.list)
    (hh : ∀ l' d', hinted peer (.did t o a : Event (cluster hash)) = some (l', d') →
      l' = l ∧ hint = some d')
    (hg : ∀ evs' (s' : ServerStorage hash), RoundOk peer evs' s' ((phases evs t).next hash o a)) :
    HintInv peer (.did t o a :: evs) (effect t o a w) := by
  have hst : ((effect t o a w).node peer).storage = (w.node peer).storage.upsert l hint := by
    rw [storage_effect, if_pos hpeer, hs]
  unfold HintInv
  rw [hst]
  constructor
  · refine hinv.1.cons ?_ ?_
    · rintro later e earlier - L d - ⟨l', hl', hid, hle⟩
      rw [mem_getHintedHandoffs] at hl'
      by_cases hk : key hash l'.id = key hash l.id
      · obtain ⟨-, rfl, hid', hle'⟩ := hrow _ (hk ▸ hl') d rfl
        refine Or.inr ⟨l, ?_, hid'.symm.trans hid, le_trans hle hle'⟩
        rw [mem_getHintedHandoffs, rows_upsert, if_pos rfl]
      · refine Or.inr ⟨l', ?_, hid, hle⟩
        rw [mem_getHintedHandoffs, rows_upsert, if_neg hk, hl']
    · intro l' d' h
      obtain ⟨rfl, rfl⟩ := hh l' d' h
      refine ⟨l', ?_, rfl, le_rfl⟩
      rw [mem_getHintedHandoffs, rows_upsert, if_pos rfl]
  · by_cases ht : t = .hintedHandoff peer
    · subst ht
      rw [phases_did, if_pos rfl]
      exact hg _ _
    · rw [phases_did, if_neg (Ne.symm ht)]
      refine hinv.2.cons (fun hin l' d d' h r hr hd => ?_) (fun hin k l' d hl' => ?_) rfl
      · obtain ⟨rfl, -⟩ := hh l' d h
        exact absurd hin (by simp [(hrow r hr d' hd).1])
      · rw [rows_upsert, if_neg, hl']
        rintro rfl
        exact absurd hin (by simp [(hrow _ hl' d rfl).1])

/-- The deletion of a hint that has been delivered. -/
theorem hintInv_delete {peer : Uuid} {evs : History hash} {w : World hash}
    {d : Uuid} {l : ShoppingList} {todo : List (Uuid × ShoppingList)}
    (hinv : HintInv peer evs w) (hg : phases evs (.hintedHandoff peer) = .delivered d l todo) :
    HintInv peer (.did (.hintedHandoff peer) (.deleteShoppingList l.id) (some ()) :: evs)
      (effect (.hintedHandoff peer) (.deleteShoppingList l.id) (some ()) w) := by
  have hround := hinv.2
  rw [hg] at hround
  obtain ⟨hin, hsnap, hsent⟩ := hround
  have hst : ((effect (.hintedHandoff peer) (.deleteShoppingList l.id) (some ()) w).node peer).storage =
      (w.node peer).storage.deleteShoppingList l.id := by
    rw [storage_effect, if_pos (show peer = (Tid.hintedHandoff peer).peer from rfl)]
    rfl
  unfold HintInv
  rw [hst, phases_did, if_pos rfl, hg]
  refine ⟨hinv.1.cons ?_ fun _ _ h => (by cases h), hin, hsnap.delete⟩
  rintro later e earlier hsplit L D hev ⟨l', hl', hid, hle⟩
  rw [mem_getHintedHandoffs] at hl'
  by_cases hk : key hash l'.id = key hash l.id
  · -- the deleted row: what it held has been sent since the hint was stored
    have hrow := hsnap.2 _ List.mem_cons_self
    rw [← hk, hl'] at hrow
    obtain ⟨rfl, hD⟩ := Row.mk.inj (Option.some.inj hrow)
    obtain rfl : D = d := Option.some.inj hD
    refine Or.inl ⟨l', ?_, hid, hle⟩
    obtain ⟨ev, hmem, hdel⟩ := List.mem_filterMap.1 hsent
    rw [hsplit] at hmem
    exact List.mem_filterMap.2
      ⟨ev, (sinceHint_within hev ((congrArg (key hash) hid.symm))).subset hmem, hdel⟩
  · refine Or.inr ⟨l', ?_, hid, hle⟩
    rw [mem_getHintedHandoffs, rows_delete, if_neg hk, hl']

/-- **What an operation does to the hints of a peer.** -/
theorem hintInv_did {peer : Uuid} {evs : History hash} {w : World hash} {t : Tid}
    {o : Op} {c : Choice} {a : Ans o} (hinv : HintInv peer evs w) (hfit : (phases evs t).Fits t)
    (hallow : (phases evs t).allow o) (ha : answer t o c w = some a)
    (hD : SparesHints t.peer evs o a (w.node t.peer).storage) :
    HintInv peer (.did t o a :: evs) (effect t o a w) := by
  have hself : t = .hintedHandoff peer → RoundOk peer evs (w.node peer).storage (phases evs t) := by
    rintro rfl
    exact hinv.2
  cases o with
  | writeShoppingList l =>
    have hg : ∀ evs' (s' : ServerStorage hash), RoundOk peer evs' s' ((phases evs t).afterWrite a) := by
      intro evs' s'
      unfold Phase.afterWrite
      split <;> trivial
    cases a with
    | none => exact hintInv_quiet hinv (Or.inl rfl) rfl fun _ => hg _ _
    | some _ =>
      by_cases hp : peer = t.peer
      · subst hp
        refine hintInv_write hinv rfl rfl (fun r hr d' hd => ?_) (fun _ _ h => ?_) hg
        · rw [hD r hr] at hd
          cases hd
        · cases h
      · exact hintInv_quiet hinv (Or.inr hp) rfl fun _ => hg _ _
  | writeShoppingListHandoff l d =>
    have hg : ∀ evs' (s' : ServerStorage hash), RoundOk peer evs' s' (phases evs t).afterHint := by
      intro evs' s'
      unfold Phase.afterHint
      split <;> trivial
    cases a with
    | none => exact hintInv_quiet hinv (Or.inl rfl) rfl fun _ => hg _ _
    | some _ =>
      by_cases hp : peer = t.peer
      · subst hp
        refine hintInv_write hinv rfl rfl (fun r hr d' hd => ?_) (fun _ _ h => ?_) hg
        · obtain ⟨hin, rfl, hrest⟩ := hD r hr d' hd
          exact ⟨hin, rfl, hrest⟩
        · simp only [hinted, if_true, Option.some.injEq, Prod.mk.injEq] at h
          exact ⟨h.1.symm, congrArg some h.2⟩
      · exact hintInv_quiet hinv (Or.inr hp) (by simp [hinted, Ne.symm hp]) fun _ => hg _ _
  | deleteShoppingList id =>
    obtain ⟨d, l, todo, hg, rfl⟩ := hallow
    rw [hg] at hfit
    have ht : t = .hintedHandoff t.peer := hfit
    have hnext : (phases evs t).next hash (.deleteShoppingList l.id) a = .hints todo := by rw [hg]; rfl
    cases a with
    | none =>
      refine hintInv_quiet hinv (Or.inl rfl) rfl fun h => ?_
      have h := hself h
      rw [hg] at h
      rw [hnext]
      exact RoundOk.quiet (g := .hints todo) ⟨h.1, h.2.1.tail⟩ rfl rfl
    | some _ =>
      by_cases hp : peer = t.peer
      · subst hp
        generalize t.peer = u at ht hinv
        subst ht
        exact hintInv_delete hinv hg
      · refine hintInv_quiet hinv (Or.inr hp) rfl fun h => absurd ?_ hp
        rw [h]
        rfl
  | getHintedHandoffs =>
    refine hintInv_quiet hinv (Or.inl rfl) rfl fun h => ?_
    have hround := hself h
    rw [show phases evs t = .round from hallow] at hround
    refine RoundOk.quiet (g := .hints (Option.getD a [])) ⟨hround, ?_⟩ rfl rfl
    subst h
    cases c with
    | yes =>
      cases ha
      exact snapshot_getHintedHandoffs _
    | no =>
      cases ha
      exact ⟨List.nodup_nil, fun h hh => absurd hh List.not_mem_nil⟩
    | nat n => cases ha
    | uuid u => cases ha
  | newUuid =>
    refine hintInv_quiet hinv (Or.inl rfl) rfl fun h => ?_
    have hround := hself h
    refine RoundOk.quiet ?_ rfl rfl
    simp only [Phase.next]
    cases hg : phases evs t with
    | hints todo =>
      rw [hg] at hround
      exact hround
    | hinting rid todo =>
      rw [hg] at hround
      cases todo with
      | nil => exact hround
      | cons x todo => exact ⟨hround.1, hround.2.tail⟩
    | delivered d l todo =>
      rw [hg] at hround
      exact ⟨hround.1, hround.2.1.tail⟩
    | round =>
      rw [hg] at hround
      exact hround
    | _ => trivial
  | send u m =>
    refine hintInv_quiet hinv (Or.inl rfl) (by cases a <;> rfl) fun h => ?_
    have hround := hself h
    simp only [Phase.next]
    by_cases hm : m.control = true
    · rw [if_pos hm]
      exact hround.quiet rfl rfl
    · rw [if_neg hm]
      have hsends := hallow.resolve_left hm
      cases hg : phases evs t with
      | hinting rid todo =>
        rw [hg] at hround hsends
        rcases todo with _ | ⟨⟨d, l⟩, todo⟩
        · exact hsends.elim
        · obtain ⟨rfl, rfl⟩ := hsends
          cases a with
          | false => exact RoundOk.quiet (g := .hints todo) ⟨hround.1, hround.2.tail⟩ rfl rfl
          | true =>
            refine ⟨hround.1, hround.2, ?_⟩
            unfold sinceHint
            rw [List.takeWhile_cons_of_pos rfl, h]
            simp [deliveredHint]
      | round => rw [hg] at hsends; exact hsends.elim
      | hints todo => rw [hg] at hsends; exact hsends.elim
      | delivered d l todo => rw [hg] at hsends; exact hsends.elim
      | spreading job replicas rid todo => cases m <;> trivial
      | _ => trivial
  | getShoppingList id =>
    refine hintInv_quiet hinv (Or.inl rfl) rfl fun _ => ?_
    simp only [Phase.next, Phase.afterGet]
    split <;> trivial
  | hashring =>
    refine hintInv_quiet hinv (Or.inl rfl) rfl fun h => ?_
    have hround : RoundOk peer (.did t .hashring a :: evs) (w.node peer).storage (phases evs t) :=
      (hself h).quiet rfl rfl
    simp only [Phase.next]
    split
    · trivial
    · exact hround
  | insertInFlight r q =>
    obtain ⟨job, replicas, hg, -⟩ := hallow
    exact hintInv_quiet hinv (Or.inl rfl) rfl fun _ => by rw [hg]; trivial
  | removeInFlight r =>
    refine hintInv_quiet hinv (Or.inl rfl) rfl fun _ => ?_
    simp only [Phase.next, Phase.afterRemove]
    split
    · split
      · trivial
      · split <;> trivial
    · trivial
    · trivial
  | await r =>
    obtain ⟨job, replicas, todo, hg⟩ := hallow
    exact hintInv_quiet hinv (Or.inl rfl) rfl fun _ => by rw [hg]; trivial
  | ack r => exact hintInv_quiet hinv (Or.inl rfl) rfl fun _ => trivial
  | ackList r l => exact hintInv_quiet hinv (Or.inl rfl) rfl fun _ => trivial
  | sendProxy c m => exact hintInv_quiet hinv (Or.inl rfl) rfl fun _ => trivial
  | getOldData u h => exact hintInv_quiet hinv (Or.inl rfl) rfl fun _ => trivial
  | getAllRows => exact hintInv_quiet hinv (Or.inl rfl) rfl fun _ => trivial
  | _ => exact hintInv_quiet hinv (Or.inl rfl) rfl fun h => (hself h).quiet rfl rfl

/-- Between the operations of the tasks the rows stay as they are. -/
theorem hintInv_step {peer : Uuid} {evs : History hash} {w w' : World hash}
    {ev : Event (cluster hash)} (hinv : HintInv peer evs w) (hnode : w'.node = w.node)
    (hh : hinted peer ev = none)
    (hg : RoundOk peer (ev :: evs) (w.node peer).storage
      (phases (ev :: evs) (.hintedHandoff peer))) :
    HintInv peer (ev :: evs) w' := by
  unfold HintInv
  rw [hnode]
  refine ⟨hinv.1.cons (fun _ _ _ _ _ _ _ hp => Or.inr hp) fun l d h => ?_, hg⟩
  rw [hh] at h
  cases h

/-- **No hint is lost in a run whose storage operations spare the hints**: as long as no state that
dominates it has been sent to its destination by a round of the peer, a hint that dominates it is
stored. -/
theorem hints_kept {w₀ : World hash} {evs : History hash} {c : Config (cluster hash)}
    (hrun : Run (cluster hash) hintSparing (quiet w₀) evs c) (peer : Uuid)
    (later earlier : History hash) (ev : Event (cluster hash)) (hsplit : evs = later ++ ev :: earlier)
    (l : ShoppingList) (d : Uuid) (hev : hinted peer ev = some (l, d)) :
    Delivered peer later l d ∨ Pending (c.state.node peer).storage l d := by
  suffices h : ∀ peer, HintInv peer evs c.state from (h peer).1 later ev earlier hsplit l d hev
  refine (cluster_invariant (fun evs w => ∀ peer, HintInv peer evs w)
    ?did ?ended ?arrived ?init hrun).1
  case did =>
    intro evs w t o c a hinv hfit hallow ha hD peer
    exact hintInv_did (hinv peer) (hfit t) hallow ha hD
  case ended =>
    intro evs w t hinv peer
    refine hintInv_step (hinv peer) rfl rfl ?_
    by_cases ht : t = .hintedHandoff peer
    · subst ht
      rw [phases_ended, if_pos rfl]
      trivial
    · rw [phases_ended, if_neg (Ne.symm ht)]
      refine (hinv peer).2.quiet rfl ?_
      cases t with
      | hintedHandoff u => exact if_neg fun h => ht (congrArg _ h)
      | _ => rfl
  case arrived =>
    intro evs w e r w' hinv _ harr _ _ peer
    refine hintInv_step (hinv peer) (node_arrive harr) rfl ?_
    have hround := (hinv peer).2
    rcases phases_arrived evs e (.hintedHandoff peer) with hsame | ⟨g, hbegun, hg⟩
    · rw [hsame]
      cases e with
      | tickHintedHandoff u =>
        by_cases hu : u = peer
        · subst hu
          rw [← hsame]
          simp only [phases, begun, Function.update_self]
          exact if_pos rfl
        · exact hround.quiet rfl (if_neg hu)
      | _ => exact hround.quiet rfl rfl
    · rw [hg]
      cases e with
      | tickHintedHandoff u =>
        cases hbegun
        exact if_pos rfl
      | _ => cases hbegun
  case init =>
    intro peer
    refine ⟨?_, trivial⟩
    intro later ev earlier hsplit
    exact absurd hsplit (by simp)

/-- The test for `SparesHints`. -/
def sparesHints (peer : Uuid) (evs : History hash) (o : Op) (a : Ans o) (s : ServerStorage hash) :
    Bool :=
  match o, a with
  | .writeShoppingList l, some _ =>
    (s.rows.find? (key hash l.id)).all fun r => r.hintedHandoff.isNone
  | .writeShoppingListHandoff l d, some _ =>
    (s.rows.find? (key hash l.id)).all fun r => r.hintedHandoff.all fun d' =>
      !inRound peer evs && decide (d' = d ∧ r.crdtData.id = l.id ∧ r.crdtData.list ≤ l.list)
  | _, _ => true

theorem sparesHints_iff (peer : Uuid) (evs : History hash) (o : Op) (a : Ans o)
    (s : ServerStorage hash) : sparesHints peer evs o a s = true ↔ SparesHints peer evs o a s := by
  cases o with
  | writeShoppingList l =>
    cases a with
    | none => simp [sparesHints, SparesHints]
    | some _ =>
      simp only [sparesHints, SparesHints, Option.all_eq_true, Option.isNone_iff_eq_none]
  | writeShoppingListHandoff l d =>
    cases a with
    | none => simp [sparesHints, SparesHints]
    | some _ =>
      simp only [sparesHints, SparesHints, Option.all_eq_true, Bool.and_eq_true,
        Bool.not_eq_true', decide_eq_true_eq]
  | _ => simp [sparesHints, SparesHints]

/-- The test for `hintSparing`. -/
def sparesAll (evs : History hash) (w : World hash) (ev : Event (cluster hash)) : Bool :=
  match ev with
  | .did t o a => sparesHints t.peer evs o a (w.node t.peer).storage
  | _ => true

theorem hintSparing_of_sparesAll (evs : History hash) (w : World hash) (ev : Event (cluster hash))
    (h : sparesAll evs w ev = true) : hintSparing evs w ev := by
  cases ev with
  | did t o a => exact (sparesHints_iff _ _ _ _ _).1 h
  | _ => trivial

/-- The second server handles the `Handoff`, then the `ReplicateList`. -/
def hintReplaced : List (Move (cluster md5)) :=
  .arrive (.deliver ⟨1, .ofTail 1, .ofTail 2,
    .handoff "r" (oneItem "milk" 201) (.ofTail 3)⟩) ::
  List.replicate 3 (.turn (.incoming (.ofTail 2) 1) .yes) ++ replicaStored

/-- The hint of `hintDelivered` has been sent when the round ends. -/
theorem hints_kept_hintDelivered :
    ∃ evs c, Run (cluster md5) hintSparing (quiet replicaAndHint) evs c ∧
      ∃ later ev earlier, evs = later ++ ev :: earlier ∧
        hinted (.ofTail 2) ev = some (oneItem "milk" 201, .ofTail 3) ∧
        (Delivered (.ofTail 2) later (oneItem "milk" 201) (.ofTail 3) ∨
          Pending (c.state.node (.ofTail 2)).storage (oneItem "milk" 201) (.ofTail 3)) := by
  obtain ⟨evs, c, hrun, hcheck⟩ := exists_run (D := hintSparing) sparesAll hintSparing_of_sparesAll
    (quiet replicaAndHint) hintDelivered
    (fun evs _ => decide (evs.any fun ev =>
      hinted (.ofTail 2) ev = some (oneItem "milk" 201, .ofTail 3)))
    (by decide +kernel)
  obtain ⟨ev, hmem, hev⟩ := List.any_eq_true.1 (of_decide_eq_true hcheck)
  obtain ⟨later, earlier, hsplit⟩ := List.append_of_mem hmem
  have hev := of_decide_eq_true hev
  exact ⟨evs, c, hrun, later, ev, earlier, hsplit, hev,
    hints_kept hrun _ later earlier ev hsplit _ _ hev⟩

/-- Without the condition the hint is gone, and has not been delivered. -/
theorem hint_replaced :
    ¬ ∀ evs c, Run (cluster md5) anyStep (quiet replicaAndHint) evs c →
      ∀ peer later ev earlier, evs = later ++ ev :: earlier →
        ∀ l d, hinted peer ev = some (l, d) →
          Delivered peer later l d ∨ Pending (c.state.node peer).storage l d := by
  intro h
  obtain ⟨evs, c, hrun, hcheck⟩ := exists_run (D := anyStep) (fun _ _ _ => true)
    (fun _ _ _ _ => trivial) (quiet replicaAndHint) hintReplaced
    (fun evs c => (evs.any fun ev =>
        hinted (.ofTail 2) ev = some (oneItem "milk" 201, .ofTail 3)) &&
      ((evs.filterMap (deliveredHint (.ofTail 2))).isEmpty &&
        (c.state.node (.ofTail 2)).storage.getHintedHandoffs.isEmpty))
    (by decide +kernel)
  simp only [Bool.and_eq_true, List.isEmpty_iff] at hcheck
  obtain ⟨hany, hsent, hnone⟩ := hcheck
  obtain ⟨ev, hmem, hev⟩ := List.any_eq_true.1 hany
  obtain ⟨later, earlier, hsplit⟩ := List.append_of_mem hmem
  rcases h evs c hrun _ later ev earlier hsplit _ _ (of_decide_eq_true hev) with hd | hp
  · obtain ⟨l', hl', -⟩ := hd
    have hmem' : (Uuid.ofTail 3, l') ∈ evs.filterMap (deliveredHint (.ofTail 2)) := by
      rw [hsplit, List.filterMap_append]
      exact List.mem_append_left _ hl'
    rw [hsent] at hmem'
    exact List.not_mem_nil hmem'
  · obtain ⟨l', hl', -⟩ := hp
    rw [hnone] at hl'
    exact List.not_mem_nil hl'

end Sdle
