import Sdle.Replicas

/-!
# The quantities that a client is shown

`ShoppingListInterface::from_crdt` shows the total of an item as a `u64`.  A call that sets a
quantity adds the difference to the total that its client has read, so two clients that lower an
item at the same time lower it twice, and a negative total is shown as a huge quantity.

* `sum_nonneg` — where each call that lowers an item leaves enough of it for the lowering it has not
  observed, no causal history adds up to less than nothing.
* `shown_exactly` — **in such runs every quantity shown is the exact total**.
* `lowered_twice` — two concurrent calls that are shown as `2^64 - 1`.
-/

set_option autoImplicit false

namespace Sdle

open Sql Sql.Call ClientStorage ClientDb Histories

/-- `UPPER_ITEM_COUNT_LIMIT` of `cli.rs`. -/
def upperItemCountLimit : ℕ := 1000000

/-- The quantity is one that the input of the client accepts. -/
def InRange (_ : Fleet) (e : Edit) : Prop := 1 ≤ e.quantity ∧ e.quantity ≤ upperItemCountLimit

/-- So many calls cannot raise a count to `2^63`. -/
def editLimit : ℕ := 9223372036854

/-- A call that lowers an item leaves enough of it for the earlier calls that did and that its
client has not observed. -/
structure Orderly (w : Fleet) (e : Edit) : Prop where
  range : InRange w e
  count : w.edits.card < editLimit
  covers : e.delta < 0 → ∑ x ∈ w.edits with x.list = e.list ∧ x.name = e.name ∧ x.delta < 0 ∧
    x ∉ w.known e.client e.list, -x.delta ≤ e.quantity

/-- Every item is shown with its exact total. -/
def ShownExactly (l : ShoppingList) : Prop :=
  ∃ shown, fromCrdt l = some shown ∧ ∀ name item, l.list.items.find? name = some item →
    ∃ amount acquired, shown.items.find? name = some (amount, acquired) ∧
      (amount : ℤ) = item.amount.p.counter.total - item.amount.n.counter.total

/-! ## What calls in order add up to -/

instance : DecidableRel Edit.Before := fun e' e => inferInstanceAs (Decidable (e'.serial ∈ e.past))

/-- The edits of one item of one list. -/
def itemEdits (E : Finset Edit) (id : Uuid) (name : String) : Finset Edit :=
  E.filter fun e => e.list = id ∧ e.name = name

theorem mem_itemEdits {E : Finset Edit} {id : Uuid} {name : String} {e : Edit} :
    e ∈ itemEdits E id name ↔ e ∈ E ∧ e.list = id ∧ e.name = name :=
  Finset.mem_filter

/-- What holds of the edits of orderly calls. -/
structure Paced (E : Finset Edit) : Prop where
  card : E.card ≤ editLimit
  sets : ∀ e ∈ E, setting Edit.Before Edit.delta (itemEdits E e.list e.name) e = e.quantity
  deltaLe : ∀ e ∈ E, e.delta ≤ upperItemCountLimit
  covers : ∀ e ∈ E, e.delta < 0 → 0 ≤ (e.quantity : ℤ) +
    ∑ x ∈ missed Edit.Before Edit.delta Edit.serial (itemEdits E e.list e.name) e, x.delta

theorem paced_empty : Paced ∅ := by
  refine ⟨Nat.zero_le _, fun e he => ?_, fun e he => ?_, fun e he => ?_⟩
  all_goals exact absurd he (Finset.notMem_empty e)

/-- **No history adds up to less than nothing.** -/
theorem sum_nonneg {E H : Finset Edit} {id : Uuid} {m : String → Option Item.View}
    (hE : EditsOk E) (hP : Paced E) (hH : Observed E id H m) (name : String) :
    0 ≤ ∑ e ∈ editsOf H name, e.delta := by
  have hsub : editsOf H name ⊆ itemEdits E id name := by
    intro e he
    obtain ⟨heH, hname⟩ := mem_editsOf.1 he
    exact mem_itemEdits.2 ⟨hH.sub heH, hH.list e heH, hname⟩
  have hclosed : Closed Edit.Before (itemEdits E id name) (editsOf H name) := by
    intro e he x hx hb
    obtain ⟨hxE, -, hname⟩ := mem_itemEdits.1 hx
    exact mem_editsOf.2 ⟨hH.closed e (mem_editsOf.1 he).1 x hxE hb, hname⟩
  refine sum_nonneg_of_cover Edit.serial hclosed hsub
    (fun e he hb => lt_irrefl _ (hE.pastLt e (mem_itemEdits.1 he).1 _ hb))
    (fun e he x hx => hE.serialInj e (mem_itemEdits.1 he).1 x (mem_itemEdits.1 hx).1)
    fun e he hlow => ?_
  obtain ⟨heE, hlist, hname⟩ := mem_itemEdits.1 he
  have hsets := hP.sets e heE
  have hcovers := hP.covers e heE hlow
  rw [hlist, hname] at hsets hcovers
  rw [hsets]
  exact hcovers

/-- **No count of a history comes near `2^63`.** -/
theorem Paced.sumsFit {E H : Finset Edit} {id : Uuid} {m : String → Option Item.View}
    (hP : Paced E) (hE : EditsOk E) (hH : Observed E id H m) (name : String) :
    SumsFit (editsOf H name) := by
  have hsub : ∀ e ∈ editsOf H name, e ∈ E := fun e he => hH.sub (mem_editsOf.1 he).1
  have hp : ∀ e ∈ editsOf H name, (e.p).getD 0 ≤ upperItemCountLimit := by
    intro e he
    have hle := hP.deltaLe e (hsub e he)
    unfold Edit.p
    split
    · rw [Option.getD_some]
      omega
    · exact Nat.zero_le _
  have hcard : (editsOf H name).card ≤ editLimit := (Finset.card_le_card hsub).trans hP.card
  have hsum : ∑ e ∈ editsOf H name, (e.p).getD 0 ≤ editLimit * upperItemCountLimit := by
    refine (Finset.sum_le_card_nsmul _ _ _ hp).trans ?_
    exact Nat.mul_le_mul_right _ hcard
  have hlimit : editLimit * upperItemCountLimit < 2 ^ 63 := by decide
  have htotal : ∑ e ∈ editsOf H name, e.delta =
      ((∑ e ∈ editsOf H name, (e.p).getD 0 : ℕ) : ℤ) - (∑ e ∈ editsOf H name, (e.n).getD 0 : ℕ) := by
    rw [Finset.sum_congr rfl fun e he => hE.delta_eq (hsub e he), Finset.sum_sub_distrib]
    push_cast
    rfl
  have hnonneg := sum_nonneg hE hP hH name
  exact ⟨by omega, by omega⟩

/-! ## Steps of orderly calls -/

/-- The difference that a call makes is to what its client has read. -/
theorem delta_of_read {E H : Finset Edit} {id client : Uuid} {db : ClientDb} {l : ShoppingList}
    (hE : EditsOk E) (hH : Observed E id H (db.itemMap id))
    (hread : (readShoppingList client id).Returns db l db) (serial : ℕ) (name : String)
    (quantity : ℕ) (acquired : Bool) (past : Finset ℕ) :
    (Edit.of serial client id name quantity acquired past (l.list.items.find? name)).delta =
      quantity - ∑ x ∈ editsOf H name, x.delta := by
  have hview : (l.list.items.find? name).map Item.view = db.itemMap id name :=
    congrFun (view_of_read hread) name
  cases hfind : l.list.items.find? name with
  | none =>
    rw [hfind] at hview
    have hitems := hH.items name
    rw [← hview] at hitems
    rw [show editsOf H name = ∅ from hitems, Finset.sum_empty, sub_zero]
    rfl
  | some item =>
    rw [hfind] at hview
    rw [← hH.total_eq hE hview.symm]
    rfl

/-- **An orderly call keeps what holds of the edits.** -/
theorem Paced.add {w : Fleet} {H : Finset Edit} {id : Uuid} {m : String → Option Item.View}
    (hP : Paced w.edits) (hE : EditsOk w.edits) (hH : Observed w.edits id H m) {e : Edit}
    (hknown : w.known e.client e.list = H) (hserial : e.serial = w.edits.card) (hlist : e.list = id)
    (hpast : e.past = H.image Edit.serial)
    (hdelta : e.delta = e.quantity - ∑ x ∈ editsOf H e.name, x.delta) (horderly : Orderly w e) :
    Paced (insert e w.edits) := by
  have hcard : (insert e w.edits).card = w.edits.card + 1 :=
    Finset.card_insert_of_notMem (hE.fresh hserial)
  -- an event has observed nothing that is not older
  have hnot : ∀ x ∈ insert e w.edits, ¬ e.Before x := by
    intro x hx hb
    rcases Finset.mem_insert.1 hx with hxe | hxE
    · obtain ⟨y, hy, hys⟩ := Finset.mem_image.1 (hpast ▸ hxe ▸ hb : e.serial ∈ H.image Edit.serial)
      have hlt := hE.serialLt y (hH.sub hy)
      omega
    · have hlt := (hE.pastLt x hxE _ hb).trans (hE.serialLt x hxE)
      omega
  have hfilter : ∀ x ∈ insert e w.edits, ∀ id name,
      (itemEdits (insert e w.edits) id name).filter (Edit.Before · x) =
        (itemEdits w.edits id name).filter (Edit.Before · x) := by
    intro x hx id name
    unfold itemEdits
    rw [Finset.filter_insert]
    split
    · rw [Finset.filter_insert, if_neg (hnot x hx)]
    · rfl
  have hbefore : ∀ x ∈ w.edits, x.Before e ↔ x ∈ H := by
    intro x hxE
    unfold Edit.Before
    rw [hpast]
    refine ⟨fun hb => ?_, fun hxH => Finset.mem_image_of_mem _ hxH⟩
    obtain ⟨y, hy, hys⟩ := Finset.mem_image.1 hb
    exact hE.serialInj y (hH.sub hy) x hxE hys ▸ hy
  have hown : (itemEdits w.edits e.list e.name).filter (Edit.Before · e) = editsOf H e.name := by
    ext x
    simp only [Finset.mem_filter, mem_itemEdits, mem_editsOf]
    constructor
    · rintro ⟨⟨hxE, -, hname⟩, hb⟩
      exact ⟨(hbefore x hxE).1 hb, hname⟩
    · rintro ⟨hxH, hname⟩
      exact ⟨⟨hH.sub hxH, (hH.list x hxH).trans hlist.symm, hname⟩, (hbefore x (hH.sub hxH)).2 hxH⟩
  refine ⟨?card, fun x hx => ?sets, fun x hx => ?deltaLe, fun x hx hlow => ?covers⟩
  case card =>
    rw [hcard]
    exact horderly.count
  case sets =>
    unfold setting
    rw [hfilter x hx]
    rcases Finset.mem_insert.1 hx with rfl | hxE
    · rw [hown, hdelta]
      omega
    · exact hP.sets x hxE
  case deltaLe =>
    rcases Finset.mem_insert.1 hx with rfl | hxE
    · have hnonneg := sum_nonneg hE hP hH x.name
      have hrange : x.quantity ≤ upperItemCountLimit := horderly.range.2
      omega
    · exact hP.deltaLe x hxE
  case covers =>
    rcases Finset.mem_insert.1 hx with rfl | hxE
    · have hmissed : missed Edit.Before Edit.delta Edit.serial
          (itemEdits (insert x w.edits) x.list x.name) x =
          w.edits.filter fun y => y.list = x.list ∧ y.name = x.name ∧ y.delta < 0 ∧
            y ∉ w.known x.client x.list := by
        ext y
        simp only [missed, Finset.mem_filter, mem_itemEdits, hknown]
        constructor
        · rintro ⟨⟨hy, hl, hn⟩, hylow, hlt, hb⟩
          rcases Finset.mem_insert.1 hy with rfl | hyE
          · exact absurd hlt (lt_irrefl _)
          · exact ⟨hyE, hl, hn, hylow, fun hyH => hb ((hbefore y hyE).2 hyH)⟩
        · rintro ⟨hyE, hl, hn, hylow, hyH⟩
          refine ⟨⟨Finset.mem_insert_of_mem hyE, hl, hn⟩, hylow, ?_, fun hb => hyH ((hbefore y hyE).1 hb)⟩
          rw [hserial]
          exact hE.serialLt y hyE
      have hcovers := horderly.covers hlow
      rw [Finset.sum_neg_distrib] at hcovers
      rw [hmissed]
      omega
    · have hmissed : missed Edit.Before Edit.delta Edit.serial
          (itemEdits (insert e w.edits) x.list x.name) x =
          missed Edit.Before Edit.delta Edit.serial (itemEdits w.edits x.list x.name) x := by
        have hlt := hE.serialLt x hxE
        unfold missed itemEdits
        rw [Finset.filter_insert]
        split
        · rw [Finset.filter_insert, if_neg fun h => by omega]
        · rfl
      rw [hmissed]
      exact hP.covers x hxE hlow

/-- What an orderly call leaves behind. -/
theorem Paced.edit {w : Fleet} {past : List Fleet} (hP : Paced w.edits) (h : Consistent w past)
    {client id : Uuid} {name : String} {quantity : ℕ} {acquired : Bool} {db : ClientDb}
    {l : ShoppingList} {e : Edit} (hdb : db = w.db client)
    (hread : (readShoppingList client id).Returns db l db)
    (he : e = .of w.edits.card client id name quantity acquired
      ((w.known client id).image Edit.serial) (l.list.items.find? name))
    (horderly : Orderly w e) : Paced (insert e w.edits) := by
  have hH := h.observed w List.mem_cons_self client id
  have hdelta := delta_of_read h.edits (hdb ▸ hH) hread w.edits.card name quantity acquired
    ((w.known client id).image Edit.serial)
  obtain ⟨hserial, hclient, hlist, hname, hpast⟩ : e.serial = w.edits.card ∧ e.client = client ∧
      e.list = id ∧ e.name = name ∧ e.past = (w.known client id).image Edit.serial :=
    he ▸ Edit.of_fields _ _ _ _ _ _ _ _
  have hquantity : e.quantity = quantity := by
    rw [he]
    cases l.list.items.find? name <;> rfl
  refine hP.add h.edits hH (by rw [hclient, hlist]) hserial hlist hpast ?_ horderly
  rw [hname, hquantity, ← hdelta, he]

/-- **Nothing that an orderly step stores overflows.** -/
theorem fits_of_orderly {w w' : Fleet} {past : List Fleet} (h : Consistent w past)
    (hP : Paced w.edits) (hstep : FleetStep Orderly (fun _ => True) (w :: past) w w') :
    FleetStep Orderly Item.NoOverflow (w :: past) w w' := by
  cases hstep with
  | @edit client id name quantity acquired c c' l e hdb hquantity hread he horderly _ hrun =>
    refine .edit hdb hquantity hread he horderly (fun cast item hedited => ?_) hrun
    obtain ⟨hE, m, hnew, hitem⟩ := h.edited hdb hquantity hread he hedited
    have hdescribes := hnew.items name
    rw [hitem] at hdescribes
    exact (noOverflow_iff hdescribes).2 ((hP.edit h hdb hread he horderly).sumsFit hE hnew name)
  | editFails hdb hrun hr => exact .editFails hdb hrun hr
  | refresh hdb hs hack hrun hread hstored _ =>
    refine .refresh hdb hs hack hrun hread hstored fun name item hitem => ?_
    obtain ⟨-, -, hunion⟩ := h.written hdb hs hread
    have hdescribes := hunion.items name
    unfold AWORMap.view at hdescribes
    rw [hitem] at hdescribes
    exact (noOverflow_iff hdescribes).2 (hP.sumsFit h.edits hunion name)
  | refreshKeeps hdb hrun hkeep => exact .refreshKeeps hdb hrun hkeep

/-- **In a run of orderly calls, nothing overflows.** -/
theorem FleetRun.orderly {w : Fleet} {past : List Fleet}
    (h : FleetRun Orderly (fun _ => True) w past) :
    FleetRun Orderly Item.NoOverflow w past ∧ Paced w.edits := by
  induction h with
  | start => exact ⟨.start, paced_empty⟩
  | @step w w' past _ hstep ih =>
    obtain ⟨hrun, hP⟩ := ih
    refine ⟨.step hrun (fits_of_orderly hrun.consistent hP hstep), ?_⟩
    cases hstep with
    | edit hdb _ hread he horderly => exact hP.edit hrun.consistent hdb hread he horderly
    | editFails => exact hP
    | refresh => exact hP
    | refreshKeeps => exact hP

/-! ## What is shown -/

theorem shown_of_produced {w : Fleet} {past : List Fleet}
    (h : FleetRun Orderly (fun _ => True) w past) {id : Uuid} {s : ShoppingList} {H : Finset Edit}
    (hs : Produced (w :: past) id s H) : ShownExactly s := by
  obtain ⟨hrun, hP⟩ := h.orderly
  have hcons := hrun.consistent
  have hH := hcons.produced hs
  have hamount : ∀ name item, s.list.items.find? name = some item →
      ∃ amount acquired, shownItem item = some (amount, acquired) ∧
        (amount : ℤ) = item.amount.p.counter.total - item.amount.n.counter.total := by
    intro name item hitem
    have hview : s.list.view name = some item.view := congrArg (Option.map Item.view) hitem
    have hfits := hP.sumsFit hcons.edits hH name
    have hsum := hH.total_eq hcons.edits hview
    have hnonneg := sum_nonneg hcons.edits hP hH name
    have hdescribes := hH.items name
    rw [hview] at hdescribes
    have hover := (noOverflow_iff hdescribes).2 hfits
    have hlt := hover.1
    refine ⟨asU64 (∑ e ∈ editsOf H name, e.delta), decide (item.acquired.val ≠ 0), ?_, ?_⟩
    · unfold shownItem
      rw [hH.valueTotal hcons.edits hfits hview]
      rfl
    · rw [asU64_of_nonneg hnonneg (by omega), hsum]
  obtain ⟨shown, hshown⟩ := Option.isSome_iff_exists.1 ((fromCrdt_isSome_iff s).2
    fun name item hitem => by
      obtain ⟨amount, acquired, hitem', -⟩ := hamount name item hitem
      rw [hitem']
      rfl)
  refine ⟨shown, hshown, fun name item hitem => ?_⟩
  obtain ⟨amount, acquired, hitem', htotal⟩ := hamount name item hitem
  refine ⟨amount, acquired, ?_, htotal⟩
  rw [(fromCrdt_spec hshown).2 name, hitem]
  exact hitem'

/-- **Every quantity shown in a run of orderly calls is the exact total.** -/
theorem shown_exactly {w : Fleet} {past : List Fleet}
    (h : FleetRun Orderly (fun _ => True) w past) :
    (∀ client id, ∃ l, (readShoppingList client id).Returns (w.db client) l (w.db client) ∧
      ShownExactly l) ∧
    ∀ id s H, Produced (w :: past) id s H → ShownExactly s := by
  refine ⟨fun client id => ?_, fun id s H hs => shown_of_produced h hs⟩
  obtain ⟨l, hread⟩ := readShoppingList_returns client
    ((h.orderly.1.consistent.sound client).bounded.readable id)
  exact ⟨l, hread, shown_of_produced h (.read _ _ List.mem_cons_self hread)⟩

theorem inRange_setMilk (w : Fleet) (client : Uuid) {quantity : ℕ} (hmin : 1 ≤ quantity)
    (hmax : quantity ≤ upperItemCountLimit) : InRange w (w.setMilk client quantity) := by
  unfold InRange
  rw [Fleet.quantity_setMilk]
  exact ⟨hmin, hmax⟩

namespace Fleet

/-- Client 201 lowers the milks to two; client 202, which has not read this, lowers them to one; client
201 reads what client 202 has. -/
def lessened : Fleet := shared.edited ⟨201⟩ 2

def lessenedAgain : Fleet := lessened.edited ⟨202⟩ 1

def emptied : Fleet := lessenedAgain.refreshed ⟨201⟩ ⟨202⟩

end Fleet

/-- The last one of three milks covers the lowering that its client has not observed. -/
theorem shown_exactly_emptied :
    (Fleet.lessened.setMilk ⟨202⟩ 1).delta = -2 ∧ ShownExactly (listOf ⟨201⟩ (Fleet.emptied.db ⟨201⟩)) ∧
      (fromCrdt (listOf ⟨201⟩ (Fleet.emptied.db ⟨201⟩))).bind (·.items.find? "milk") = some (0, false) := by
  have hshared : FleetRun Orderly (fun _ => True) .shared _ := run_shared
    ⟨inRange_setMilk _ _ (by decide) (by decide), by decide, by decide +kernel⟩
  have hlessened : FleetRun Orderly (fun _ => True) .lessened _ := .step hshared
    (step_edited (by decide) rfl (by decide +kernel)
      ⟨inRange_setMilk _ _ (by decide) (by decide), by decide +kernel, by decide +kernel⟩)
  have hagain : FleetRun Orderly (fun _ => True) .lessenedAgain _ := .step hlessened
    (step_edited (by decide) rfl (by decide +kernel)
      ⟨inRange_setMilk _ _ (by decide) (by decide), by decide +kernel, by decide +kernel⟩)
  have hrun : FleetRun Orderly (fun _ => True) .emptied _ :=
    .step hagain (step_refreshed rfl rfl (by decide +kernel))
  exact ⟨by decide +kernel, (shown_exactly hrun).2 ⟨101⟩ _ _ (.read .emptied ⟨201⟩ List.mem_cons_self rfl),
    by decide +kernel⟩

/-- Three milks lowered to one by each of two clients are shown as `2^64 - 1`. -/
theorem lowered_twice :
    ¬ ∀ w past, FleetRun InRange (fun _ => True) w past → ∀ id s H, Produced (w :: past) id s H →
      ShownExactly s := by
  intro h
  obtain ⟨shown, hshown, hexact⟩ := h _ _ (run_joined (inRange_setMilk _ _ (by decide) (by decide))
    (inRange_setMilk _ _ (by decide) (by decide)) (inRange_setMilk _ _ (by decide) (by decide)))
    ⟨101⟩ (listOf ⟨201⟩ (Fleet.joined.db ⟨201⟩)) _
    (.read .joined ⟨201⟩ List.mem_cons_self rfl)
  have hwrapped : (fromCrdt (listOf ⟨201⟩ (Fleet.joined.db ⟨201⟩))).bind (·.items.find? "milk") =
      some (18446744073709551615, false) := by decide +kernel
  have htotals : ((listOf ⟨201⟩ (Fleet.joined.db ⟨201⟩)).list.items.find? "milk").map
      (fun item => (item.amount.p.counter.total, item.amount.n.counter.total)) = some (3, 4) := by
    decide +kernel
  obtain ⟨item, hitem, htotal⟩ := Option.map_eq_some_iff.1 htotals
  obtain ⟨amount, acquired, hamount, heq⟩ := hexact "milk" item hitem
  obtain ⟨hp, hn⟩ := Prod.mk.inj htotal
  rw [hshown] at hwrapped
  rw [show shown.items.find? "milk" = some (18446744073709551615, false) from hwrapped] at hamount
  cases hamount
  omega

end Sdle
