import Sdle.Cli
import Sdle.Setting

/-!
# Editing one field of an item (`handle_item_edit`)

A line on the screen of an item changes its amount or its flag, and sends both.  The field that is not
edited goes through two casts: the total is an `i64` that the view shows as a `u64`, and the store
takes the `u64` for an `i64` again and adds the difference to the total it computes itself.

* `editAmount_shown` — **an amount that is sent as it is shown is no change**, whatever the total.
* `shown_of_stored` — what a view shows is what the store has, once the merged list is stored.
* `one_field_edited` — **the two commands of the screen edit one field of one item.**
-/

set_option autoImplicit false

namespace Sdle

open Sql Sql.Call ClientStorage ClientDb

/-! ## The item that is sent back -/

/-- **An amount that is sent as it is shown is no change.** -/
theorem editAmount_shown {amount : PNCounter} {x : ℤ} (h : amount.valueTotal = some x) :
    editAmount (asU64 x) amount = some amount := by
  obtain ⟨hlow, hhigh⟩ := PNCounter.valueTotal_range h
  unfold editAmount
  rw [h, asI64_asU64 hlow hhigh]
  change Option.bind (checkedI64 (x - x)) _ = _
  rw [sub_self]
  rfl

theorem shownItem_eq_some {i : Item} {amount : ℕ} {acquired : Bool} :
    shownItem i = some (amount, acquired) ↔
      (∃ x, i.amount.valueTotal = some x ∧ asU64 x = amount) ∧
        decide (i.acquired.val ≠ 0) = acquired := by
  unfold shownItem
  cases i.amount.valueTotal with
  | none => simp
  | some x => simp

/-- What an edit makes of an item in any case. -/
theorem editItem_eq {client : Uuid} {quantity : ℕ} {acquired : Bool} {i i' : Item}
    (h : editItem client quantity acquired i = some i') :
    i'.acquired = (writtenBy client acquired i.acquired).getD i.acquired ∧
      ∃ amount, editAmount quantity i.amount = some amount ∧ i'.amount = i.amount.merge amount := by
  obtain ⟨amount, register, hamount, hregister, rfl⟩ := editItem_eq_some.1 h
  obtain ⟨hreg, hmerge⟩ := editAcquired_eq hregister
  exact ⟨by rw [← hreg]; exact hmerge, amount, hamount, rfl⟩

/-- The sums of the item are `i64`s, and its register holds a flag, at a clock that is not the last. -/
structure Item.Ordinary (i : Item) : Prop where
  p : i.amount.p.counter.total < 2 ^ 63
  n : i.amount.n.counter.total < 2 ^ 63
  val : i.acquired.val ≤ 1
  clock : i.acquired.clock < 2 ^ 32 - 1

theorem Item.Ordinary.congr {i j : Item} (h : i.Ordinary) (hview : j.view = i.view) : j.Ordinary := by
  obtain ⟨hp, hn⟩ := totals_congr hview
  have hacquired : j.acquired = i.acquired := congrArg Item.View.acquired hview
  exact ⟨hp ▸ h.p, hn ▸ h.n, hacquired ▸ h.val, hacquired ▸ h.clock⟩

/-- No count of the item reaches `2^63` when `client` sets its amount. -/
def CountsFit (client : Uuid) (quantity : ℕ) (i : Item) : Prop :=
  ∀ a, bump i.amount.p.count client (raised (deltaOf quantity i.amount)) a < ((2 ^ 63 : ℕ) : WithBot ℕ) ∧
    bump i.amount.n.count client (lowered (deltaOf quantity i.amount)) a < ((2 ^ 63 : ℕ) : WithBot ℕ)

/-- Where no count overflows, the edit does not. -/
theorem CountsFit.noWrap {client : Uuid} {quantity : ℕ} {acquired : Bool} {i : Item}
    (h : CountsFit client quantity i) (hi : i.Ordinary) (hquantity : quantity < 2 ^ 63) :
    NoWrap client quantity acquired i := by
  have hp := hi.p
  have hn := hi.n
  have hclock := hi.clock
  have hraised : 0 < deltaOf quantity i.amount →
      (i.amount.p.count client).unbotD 0 + (deltaOf quantity i.amount).toNat < 2 ^ 63 := by
    intro hpos
    have hlt := (h client).1
    rw [raised, if_pos hpos, bump_some_self] at hlt
    exact WithBot.coe_lt_coe.1 hlt
  have hlowered : deltaOf quantity i.amount < 0 →
      (i.amount.n.count client).unbotD 0 + (-deltaOf quantity i.amount).toNat < 2 ^ 63 := by
    intro hneg
    have hlt := (h client).2
    rw [lowered, if_pos hneg, bump_some_self] at hlt
    exact WithBot.coe_lt_coe.1 hlt
  exact ⟨by omega, by omega, ⟨by omega, by omega⟩, ⟨by omega, by omega⟩, ⟨by omega, by omega⟩,
    ⟨by omega, by omega⟩, ⟨by omega, by omega⟩, fun hpos => by have := hraised hpos; omega,
    fun hneg => ⟨by omega, by have := hlowered hneg; omega⟩, fun hneg => by have := hlowered hneg; omega,
    fun _ => by omega, h⟩

/-! ## What one edit puts -/

/-- No count changes, and the client sets the register to the other flag. -/
structure Toggled (client : Uuid) (s s' : Stored) : Prop where
  p : s'.p = s.p
  n : s'.n = s.n
  acquired : s'.acquired = ⟨1 - s.acquired.val, s.acquired.clock + 1, client⟩

section Item

variable {client : Uuid} {s : Stored} {i i' : Item} {amount : ℕ} {acquired : Bool}

/-- The flag that is shown is the value of the register. -/
theorem toNat_shown (hval : i.acquired.val ≤ 1) (h : decide (i.acquired.val ≠ 0) = acquired) :
    acquired.toNat = i.acquired.val := by
  subst h
  by_cases hzero : i.acquired.val = 0
  · simp [hzero]
  · simp [hzero]
    omega

/-- **The shown item with the other flag is stored with no other change.** -/
theorem toggled_of_edit (hread : ReadAs client s i) (hi : i.Ordinary)
    (hshown : shownItem i = some (amount, acquired))
    (h : editItem client amount (!acquired) i = some i') :
    Toggled client s (.update asI64 (some s) i') := by
  obtain ⟨⟨x, hx, rfl⟩, hflag⟩ := shownItem_eq_some.1 hshown
  have hval := toNat_shown hi.val hflag
  obtain ⟨hacquired, a, ha, hamount⟩ := editItem_eq h
  rw [editAmount_shown hx] at ha
  cases ha
  have hself : ∀ g : GCounter, (g.merge g).count = g.count := by
    intro g
    funext a
    rw [GCounter.count_merge, max_self]
  have hlt : ∀ (g : GCounter), g.counter.total < 2 ^ 63 → ∀ a x, (g.merge g).counter.find? a = some x →
      x < 2 ^ 63 := by
    intro g hg a x hx
    have hfind : g.counter.find? a = some x := (congrFun (hself g) a).symm.trans hx
    exact (FinMap.find?_le_total hfind).trans_lt hg
  have hp : i'.amount.p = i.amount.p.merge i.amount.p := congrArg PNCounter.p hamount
  have hn : i'.amount.n = i.amount.n.merge i.amount.n := congrArg PNCounter.n hamount
  refine ⟨?_, ?_, ?_⟩
  · change overlay asI64 i'.amount.p.counter s.p = s.p
    rw [hp]
    exact overlay_same (hself _) (hlt _ hi.p) hread.p
  · change overlay asI64 i'.amount.n.counter s.n = s.n
    rw [hn]
    exact overlay_same (hself _) (hlt _ hi.n) hread.n
  · change i'.acquired = _
    rw [hacquired, writtenBy, if_pos, ← hread.acquired]
    · cases acquired <;> simp at hval <;> simp [← hval]
    · cases acquired <;> simp at hval <;> simp [← hval]

/-- **The shown flag is no change**, with whatever amount. -/
theorem register_of_edit {quantity : ℕ} (hread : ReadAs client s i) (hval : i.acquired.val ≤ 1)
    (hshown : shownItem i = some (amount, acquired))
    (h : editItem client quantity acquired i = some i') :
    (Stored.update asI64 (some s) i').acquired = s.acquired := by
  have hflag := toNat_shown hval (shownItem_eq_some.1 hshown).2
  change i'.acquired = _
  rw [(editItem_eq h).1, writtenBy_of_eq client hflag, hread.acquired]

/-- The shown item with the other flag can be stored. -/
theorem editItem_isSome_of_shown (hi : i.Ordinary) (hshown : shownItem i = some (amount, acquired))
    (flag : Bool) : ∃ i', editItem client amount flag i = some i' := by
  obtain ⟨⟨x, hx, rfl⟩, -⟩ := shownItem_eq_some.1 hshown
  have hclock := hi.clock
  obtain ⟨register, hregister⟩ := editAcquired_returns client fun _ : flag.toNat ≠ i.acquired.val =>
    (by omega : i.acquired.clock + 1 < 2 ^ 32)
  exact ⟨_, editItem_eq_some.2 ⟨_, register, editAmount_shown hx, hregister, rfl⟩⟩

end Item

/-! ## What an edit does to the store -/

/-- What the submit of one item does: it changes the item with this key as `R` says where the store
takes it, nothing otherwise, and the store takes it when no statement fails. -/
structure Submits (key : Uuid × String) (R : Stored → Stored → Prop) (taken : Prop)
    (c c' : Conn ClientDb StorageError) : Prop where
  changes : taken → ∃ s s', c.db.content key = some s ∧ R s s' ∧
    c'.db.content = Function.update c.db.content key (some s')
  keeps : ¬ taken → c'.db.content = c.db.content
  takes : c = .calm c.db → taken

theorem Submits.of_db {key : Uuid × String} {R : Stored → Stored → Prop} {taken : Prop}
    {c c' c₁ : Conn ClientDb StorageError} (h : Submits key R taken c c') (hdb : c₁.db = c'.db) :
    Submits key R taken c c₁ :=
  ⟨fun htaken => hdb ▸ h.changes htaken, fun hnot => hdb ▸ h.keeps hnot, h.takes⟩

/-- **An edit of a stored item does to it what it does to each item that can be read for it.** -/
theorem submits_of_edit {client id : Uuid} {name : String} {quantity : ℕ} {acquired : Bool}
    {R : Stored → Stored → Prop} {c : Conn ClientDb StorageError} {l : ShoppingList} {i : Item}
    (hdistinct : c.db.SlotsDistinct) (hread : (readShoppingList client id).Returns c.db l c.db)
    (hi : l.list.items.find? name = some i)
    (hR : ∀ s j j', ReadAs client s j → j.view = i.view →
      editItem client quantity acquired j = some j' → R s (.update asI64 (some s) j'))
    (hsome : ∀ s j, ReadAs client s j → j.view = i.view →
      ∃ j', editItem client quantity acquired j = some j') :
    Submits (id, name) R
      (((handleItemStorageRequest client name quantity acquired id).run c).1 = .ok ()) c
      ((handleItemStorageRequest client name quantity acquired id).run c).2 := by
  obtain ⟨s, hs, hview⟩ : ∃ s, c.db.content (id, name) = some s ∧ s.view = i.view := by
    have hname := readShoppingList_view hread name
    unfold AWORMap.view at hname
    rw [hi] at hname
    exact Option.map_eq_some_iff.1 hname.symm
  refine ⟨fun hok => ?changes, fun hnot => ?keeps, fun hcalm => ?takes⟩
  case changes =>
    have hreturns := returns_of_run (Prod.ext hok rfl :
      (handleItemStorageRequest client name quantity acquired id).run c = (_, _))
    obtain ⟨-, cast, j', hedited, hput⟩ := handleItemStorageRequest_spec hdistinct hreturns
    rw [hs] at hedited
    cases hedited with
    | @changed _ j _ hreadAs hedit =>
      refine ⟨s, _, hs, hR s j j' hreadAs (hreadAs.view.trans hview) hedit, ?_⟩
      rw [hput, Content.put, hs]
  case keeps =>
    obtain ⟨hitems, hvalues⟩ := handleItemStorageRequest_fails
      (Prod.ext rfl rfl : (handleItemStorageRequest client name quantity acquired id).run c = (_, _))
      fun _ => hnot
    exact content_congr hitems hvalues
  case takes =>
    obtain ⟨row, hrow, hstored⟩ := Option.map_eq_some_iff.1 hs
    obtain ⟨j, hj⟩ := buildItem_returns client (hstored ▸ readable_of_returns hread name s hs)
    have hreadAs := (buildItem_spec hj).2
    rw [hstored] at hreadAs
    obtain ⟨j', hedit⟩ := hsome s j hreadAs (hreadAs.view.trans hview)
    obtain ⟨db', hreturns⟩ := handleItemStorageRequest_returns_of_edit hrow hj hedit
    rw [hcalm]
    exact congrArg Prod.fst hreturns

namespace Client

/-- What is sent after an edit leaves the store as it is. -/
theorem sendItemStorageRequest_db (clientId : Uuid) (e : Exchange) (name : String) (quantity : ℕ)
    (acquired : Bool) (id : Uuid) (c : Conn ClientDb StorageError) :
    (sendItemStorageRequest clientId e name quantity acquired id c).2.db =
      ((handleItemStorageRequest clientId name quantity acquired id).run c).2.db := by
  unfold sendItemStorageRequest
  rcases (handleItemStorageRequest clientId name quantity acquired id).run c with ⟨⟨⟩ | err | _, c₁⟩
  · have hkeep := (readOnly_readShoppingList clientId id).keeps c₁
    dsimp only
    rcases hread : (readShoppingList clientId id).run c₁ with ⟨l | err | _, c₂⟩ <;>
      rw [hread] at hkeep <;> exact hkeep
  · rfl
  · rfl

/-- The list that `retrieve_list` merged with a reply, if there was one, was stored. -/
def StoresMerged (clientId : Uuid) (e : Exchange) (id : Uuid) (c : Conn ClientDb StorageError) : Prop :=
  ∀ l r c₁, (readShoppingList clientId id).run c = (.ok l, c₁) → e.ackList = some r → Writes l r c₁

/-- **A view shows what the store has**, once the merged list is stored. -/
theorem shown_of_stored {clientId id : Uuid} {e : Exchange} {c c' : Conn ClientDb StorageError}
    {shown : ShoppingListInterface} {l : ShoppingList} (hdistinct : c.db.SlotsDistinct)
    (hview : retrieveList clientId e id c = (.ok shown, c')) (hmerged : StoresMerged clientId e id c)
    (hread : (readShoppingList clientId id).Returns c'.db l c'.db) :
    c'.db.SlotsDistinct ∧
      ∀ name, shown.items.find? name = (l.list.items.find? name).bind shownItem := by
  by_cases hok : ∃ l₀, ((readShoppingList clientId id).run c).1 = .ok l₀
  · obtain ⟨l₀, hl₀⟩ := hok
    have hlocal : (readShoppingList clientId id).run c = (.ok l₀, _) := Prod.ext hl₀ rfl
    obtain ⟨hkeep, hl₀⟩ := returns_of_read hlocal
    rcases retrieveList_of_read e hlocal with ⟨-, heq⟩ | ⟨-, err, heq⟩ <;> rw [hview] at heq
    · cases hack : e.ackList with
      | none =>
        rw [hack] at heq
        obtain ⟨hshown, rfl⟩ := Prod.mk.inj heq
        rw [hkeep] at hread ⊢
        obtain ⟨rfl, -⟩ := hread.unique hl₀
        exact ⟨hdistinct, (fromCrdt_spec (orPanic_eq_ok.1 hshown.symm)).2⟩
      | some r =>
        rw [hack] at heq
        obtain ⟨hshown, rfl⟩ := Prod.mk.inj heq
        have hw := returns_of_run (Prod.ext (hmerged l₀ r _ hlocal hack) rfl :
          (writeShoppingList (writtenList l₀ r)).run _ = (_, _))
        rw [hkeep] at hw
        have hid := (readShoppingList_spec hl₀).2.1
        have hstored : l.list.view = (writtenList l₀ r).list.view := by
          rw [view_of_read hread]
          exact itemMap_of_le (m := writtenList l₀ r) hdistinct hl₀ hid (AWORMap.le_merge_left _ _) hw
        refine ⟨(writeShoppingList_spec hdistinct hw).2.1, fun name => ?_⟩
        rw [(fromCrdt_spec (orPanic_eq_ok.1 hshown.symm)).2 name]
        exact shownItem_of_view_eq hstored.symm name
    · cases heq
  · refine absurd ?_ ((retrieveList_of_not_read (e := e) (not_exists.1 hok)).1 shown)
    rw [hview]

end Client

/-! ## The screen of an item -/

namespace Cli

/-- The store takes the item. -/
def Taken (env : Env) (item : ItemInterface) (listId : Uuid) (c : Conn ClientDb StorageError) : Prop :=
  ((handleItemStorageRequest env.clientId item.name item.amount item.acquired listId).run c).1 = .ok ()

/-- Nothing after the call of the client touches the store. -/
theorem submit_db (env : Env) (item : ItemInterface) (listId : Uuid) (afterError : State) (t : Terminal) :
    (submit env item listId afterError t).2.conn.db =
      ((handleItemStorageRequest env.clientId item.name item.amount item.acquired listId).run
        t.conn).2.db := by
  rw [← Client.sendItemStorageRequest_db env.clientId env.sending]
  change (Ui.andThen _ (call _ t)).2.conn.db = _
  unfold call
  rcases Client.sendItemStorageRequest env.clientId env.sending item.name item.amount item.acquired
    listId t.conn with ⟨⟨⟩ | e | _, conn⟩
  · rfl
  · -- the error is printed, and a line is read
    change (Ui.andThen _ (readLine _)).2.conn.db = _
    unfold readLine
    split <;> rfl
  · rfl

theorem handleItemEdit_toggle (env : Env) (item : ItemInterface) (listId : Uuid) :
    handleItemEdit env "d" item listId =
      submit env { item with acquired := !item.acquired } listId (.listEdit listId) := rfl

theorem handleItemEdit_amount (env : Env) (item : ItemInterface) (listId : Uuid) {input : String}
    {ds : List Char} {nr : ℕ} (hinput : input.toList = 'a' :: ds) (hnr : parseUsize ds = some nr)
    (hpos : 1 ≤ nr) : handleItemEdit env input item listId =
      submit env { item with amount := nr } listId (.listEdit listId) := by
  have hother : input ≠ "q" ∧ input ≠ "b" ∧ input ≠ "d" := by
    refine ⟨?_, ?_, ?_⟩ <;> rintro rfl <;> simp at hinput
  rw [handleItemEdit, if_neg hother.1, if_neg hother.2.1, if_neg hother.2.2, hinput]
  simp only [hnr]
  exact if_neg (by omega)

/-- An item of a view, as it is shown. -/
theorem shown_of_mem {shown : ShoppingListInterface} {item : ItemInterface}
    (h : item ∈ printAndProcessListItems shown) :
    shown.items.find? item.name = some (item.amount, item.acquired) := by
  obtain ⟨e, he, rfl⟩ := List.mem_map.1 h
  exact (FinMap.mem_entries _ _ _).1 he

/-- **The two commands of the screen edit one field of one item**, once the merged list is stored. -/
theorem one_field_edited {env : Env} {id : Uuid} {c c₁ : Conn ClientDb StorageError}
    {shown : ShoppingListInterface} {l : ShoppingList} {item : ItemInterface} {t : Terminal}
    (hreach : Reachable env.clientId (fun _ => True) c.db)
    (hview : Client.retrieveList env.clientId env.viewing id c = (.ok shown, c₁))
    (hmerged : Client.StoresMerged env.clientId env.viewing id c)
    (hread : (readShoppingList env.clientId id).Returns c₁.db l c₁.db)
    (hordinary : ∀ name i, l.list.items.find? name = some i → i.Ordinary)
    (hitem : item ∈ printAndProcessListItems shown) (ht : t.conn.db = c₁.db) :
    Submits (id, item.name) (Toggled env.clientId)
      (Taken env { item with acquired := !item.acquired } id t.conn) t.conn
      (handleItemEdit env "d" item id t).2.conn ∧
    ∀ input ds nr, input.toList = 'a' :: ds → parseUsize ds = some nr → 1 ≤ nr → nr < 2 ^ 63 →
      (∀ i, l.list.items.find? item.name = some i → CountsFit env.clientId nr i) →
      Submits (id, item.name) (fun s s' => s'.acquired = s.acquired)
        (Taken env { item with amount := nr } id t.conn) t.conn
        (handleItemEdit env input item id t).2.conn := by
  obtain ⟨hdistinct, hshown⟩ := Client.shown_of_stored hreach.slotsDistinct hview hmerged hread
  obtain ⟨i, hi, hshown⟩ := Option.bind_eq_some_iff.1 ((hshown item.name).symm.trans (shown_of_mem hitem))
  have hstored := hordinary item.name i hi
  rw [← ht] at hdistinct hread
  refine ⟨?toggle, fun input ds nr hinput hnr hpos hlt hcounts => ?amount⟩
  case toggle =>
    have hsubmits := submits_of_edit (R := Toggled env.clientId) hdistinct hread hi
      (fun s j j' hj hjview hedit => toggled_of_edit hj (hstored.congr hjview)
        ((shownItem_congr hjview).trans hshown) hedit)
      fun s j _ hjview => editItem_isSome_of_shown (hstored.congr hjview)
        ((shownItem_congr hjview).trans hshown) (!item.acquired)
    rw [handleItemEdit_toggle]
    exact hsubmits.of_db (submit_db _ _ _ _ _)
  case amount =>
    have hsubmits := submits_of_edit (R := fun s s' => s'.acquired = s.acquired) hdistinct hread hi
      (fun s j j' hj hjview hedit => register_of_edit hj (hstored.congr hjview).val
        ((shownItem_congr hjview).trans hshown) hedit)
      fun s j hj hjview => by
        obtain ⟨j', hedit, -⟩ := (((hcounts i hi).noWrap hstored hlt).congr hjview).editItem
          hj.pActor hj.nActor
        exact ⟨j', hedit⟩
    rw [handleItemEdit_amount env item id hinput hnr hpos]
    exact hsubmits.of_db (submit_db _ _ _ _ _)

/-- The client 201, which lowered three milks to one, gets the list of client 202, which did so too. -/
def loweredEnv : Env := { quietEnv with viewing := Fleet.loweredAgain.answer ⟨202⟩ }

/-- The screen of the milk, after the view. -/
def loweredScreen : Terminal := ⟨none, .calm (Fleet.joined.db ⟨201⟩), [], []⟩

/-- The total is `-1`, and is shown as `2^64 - 1`. -/
theorem one_field_edited_lowered :
    Submits (⟨101⟩, "milk") (Toggled ⟨201⟩)
      (Taken loweredEnv ⟨"milk", 18446744073709551615, true⟩ ⟨101⟩ loweredScreen.conn) loweredScreen.conn
      (handleItemEdit loweredEnv "d" ⟨"milk", 18446744073709551615, false⟩ ⟨101⟩ loweredScreen).2.conn ∧
    Submits (⟨101⟩, "milk") (fun s s' => s'.acquired = s.acquired)
      (Taken loweredEnv ⟨"milk", 5, false⟩ ⟨101⟩ loweredScreen.conn) loweredScreen.conn
      (handleItemEdit loweredEnv "a5" ⟨"milk", 18446744073709551615, false⟩ ⟨101⟩
        loweredScreen).2.conn := by
  have hreach : Reachable ⟨201⟩ (fun _ => True) (Fleet.loweredAgain.db ⟨201⟩) := by
    have hbought : Reachable ⟨201⟩ (fun _ => True) (Fleet.bought.db ⟨201⟩) :=
      .edit (c := .calm .empty) .empty (fun _ _ _ => trivial) (Prod.ext rfl rfl)
    exact .edit (c := .calm (Fleet.bought.db ⟨201⟩)) hbought (fun _ _ _ => trivial) (Prod.ext rfl rfl)
  have hmerged : Client.StoresMerged ⟨201⟩ loweredEnv.viewing ⟨101⟩
      (.calm (Fleet.loweredAgain.db ⟨201⟩)) := by
    intro l r c₁ hread hr
    have hlocal : (readShoppingList ⟨201⟩ ⟨101⟩).run (.calm (Fleet.loweredAgain.db ⟨201⟩)) =
      (.ok (listOf ⟨201⟩ (Fleet.loweredAgain.db ⟨201⟩)), .calm (Fleet.loweredAgain.db ⟨201⟩)) := rfl
    obtain ⟨hl, hc⟩ := Prod.mk.inj (hlocal.symm.trans hread)
    rw [← Outcome.ok.inj hl, ← hc, ← Option.some.inj hr]
    unfold Client.Writes
    decide +kernel
  have hmilk : (fromCrdt (writtenList (listOf ⟨201⟩ (Fleet.loweredAgain.db ⟨201⟩))
      (listOf ⟨202⟩ (Fleet.loweredAgain.db ⟨202⟩)))).bind (·.items.find? "milk") =
        some (18446744073709551615, false) := by decide +kernel
  obtain ⟨shown, hshown, hmilk⟩ := Option.bind_eq_some_iff.1 hmilk
  have hview : Client.retrieveList loweredEnv.clientId loweredEnv.viewing ⟨101⟩
      (.calm (Fleet.loweredAgain.db ⟨201⟩)) = (.ok shown, _) :=
    Prod.ext (congrArg Client.orPanic hshown) rfl
  have hread : (readShoppingList ⟨201⟩ ⟨101⟩).Returns (Fleet.joined.db ⟨201⟩)
    (listOf ⟨201⟩ (Fleet.joined.db ⟨201⟩)) (Fleet.joined.db ⟨201⟩) := rfl
  have hitems : ∀ e ∈ (listOf ⟨201⟩ (Fleet.joined.db ⟨201⟩)).list.items.entries,
      (e.2.amount.p.counter.total = 3 ∧ e.2.amount.n.counter.total = 4) ∧
        e.2.acquired.val = 0 ∧ e.2.acquired.clock = 0 := by decide +kernel
  have hall : ∀ name i, (listOf ⟨201⟩ (Fleet.joined.db ⟨201⟩)).list.items.find? name = some i →
      (i.amount.p.counter.total = 3 ∧ i.amount.n.counter.total = 4) ∧
        i.acquired.val = 0 ∧ i.acquired.clock = 0 :=
    fun name i hi => hitems ⟨name, i⟩ ((FinMap.mem_entries _ _ _).2 hi)
  have hordinary : ∀ name i, (listOf ⟨201⟩ (Fleet.joined.db ⟨201⟩)).list.items.find? name = some i →
      i.Ordinary := by
    intro name i hi
    obtain ⟨⟨hp, hn⟩, hval, hclock⟩ := hall name i hi
    exact ⟨by omega, by omega, by omega, by omega⟩
  have hitem : (⟨"milk", 18446744073709551615, false⟩ : ItemInterface) ∈ printAndProcessListItems shown :=
    List.mem_map.2 ⟨⟨"milk", _⟩, (FinMap.mem_entries _ _ _).2 hmilk, rfl⟩
  have ht : loweredScreen.conn.db = Fleet.joined.db ⟨201⟩ := rfl
  have hedits := one_field_edited hreach hview hmerged hread hordinary hitem ht
  refine ⟨hedits.1, hedits.2 "a5" ['5'] 5 rfl (by decide) (by decide) (by decide) fun i hi a => ?_⟩
  obtain ⟨⟨hp, hn⟩, -⟩ := hall _ i hi
  have hdelta : deltaOf 5 i.amount = 6 := by
    unfold deltaOf
    omega
  rw [hdelta]
  exact ⟨bump_lt (x := raised 6) (by rw [hp]; decide) a, bump_lt (x := lowered 6) (by rw [hn]; decide) a⟩

end Cli

end Sdle
