import Sdle.FieldEdits
import Sdle.UserLists
import Sdle.Merges

/-!
# Sessions of the client (`main.rs`)

The `client` arm of `main` renders one screen after another until the manager is done.  A session is
any number of turns of this loop, with any lines, any answers of the proxy and any failing statements.

* `Upholds` — the rule for programs on a terminal: an invariant that holds at every stop.
* `session_tidy` — **a session never panics by itself**, and writes only plain items: with letters
  for a name, and a flag that is 0 or 1.
-/

set_option autoImplicit false

namespace Sdle

open Sql Sql.Call ClientStorage ClientDb

namespace Cli

/-! ## The loop -/

/-- `ClientInterfaceManager::new`. -/
protected def Terminal.new (conn : Conn ClientDb StorageError) (stdin : List (Option String)) : Terminal :=
  { screen := some .mainMenu, conn, stdin, printed := [] }

/-- `ClientInterfaceManager::is_done`. -/
def Terminal.isDone (t : Terminal) : Bool := t.screen = some .exit

/-- The loop of `main`, with what comes from outside in each of its turns. -/
def session : List Env → Ui Unit
  | [], t => (.ok (), t)
  | env :: envs, t => if t.isDone then (.ok (), t) else Ui.andThen (fun _ => session envs) (render env t)

/-! ## Invariants of programs -/

section Programs

variable {α β : Type} {I : Terminal → Prop} {Q : α → Prop} {R : β → Prop}

/-- From a terminal with `I` the program stops, if at all, because it waits for a line or in a call of
the client; it returns something with `Q`, and `I` holds wherever it stops. -/
structure Upholds (I : Terminal → Prop) (Q : α → Prop) (p : Ui α) : Prop where
  inv : ∀ t, I t → I (p t).2
  result : ∀ t a, I t → (p t).1 = .ok a → Q a
  stops : ∀ t s, I t → (p t).1 = .error s → s = .waiting ∨ s = .client

theorem upholds_pure {a : α} (ha : Q a) : Upholds I Q (pure a) where
  inv _ ht := ht
  result _ _ _ h := Except.ok.inj h ▸ ha
  stops _ _ _ h := nomatch h

theorem Upholds.bind {p : Ui α} {f : α → Ui β} (hp : Upholds I Q p)
    (hf : ∀ a, Q a → Upholds I R (f a)) : Upholds I R (p >>= f) := by
  have hthen : ∀ t, I t → (∃ s, (p >>= f) t = (.error s, (p t).2) ∧ (p t).1 = .error s) ∨
      ∃ a, Q a ∧ (p >>= f) t = f a (p t).2 := by
    intro t ht
    change (∃ s, Ui.andThen f (p t) = _ ∧ _) ∨ ∃ a, Q a ∧ Ui.andThen f (p t) = _
    have hresult := fun a => hp.result t a ht
    rcases hrun : p t with ⟨s | a, t'⟩ <;> rw [hrun] at hresult
    · exact Or.inl ⟨s, rfl, rfl⟩
    · exact Or.inr ⟨a, hresult a rfl, rfl⟩
  constructor
  · intro t ht
    rcases hthen t ht with ⟨s, heq, -⟩ | ⟨a, ha, heq⟩ <;> rw [heq]
    · exact hp.inv t ht
    · exact (hf a ha).inv _ (hp.inv t ht)
  · intro t b ht h
    rcases hthen t ht with ⟨s, heq, -⟩ | ⟨a, ha, heq⟩ <;> rw [heq] at h
    · cases h
    · exact (hf a ha).result _ b (hp.inv t ht) h
  · intro t s ht h
    rcases hthen t ht with ⟨s', heq, hs'⟩ | ⟨a, ha, heq⟩ <;> rw [heq] at h
    · obtain rfl := Except.error.inj h
      exact hp.stops t _ ht hs'
    · exact (hf a ha).stops _ s (hp.inv t ht) h

theorem Upholds.mono {Q' : α → Prop} {p : Ui α} (hp : Upholds I Q p) (h : ∀ a, Q a → Q' a) :
    Upholds I Q' p := ⟨hp.inv, fun t a ht ha => h a (hp.result t a ht ha), hp.stops⟩

end Programs

end Cli

/-! ## Plain items -/

/-- What `build_item` lets pass as a name. -/
def PlainName (name : String) : Prop := name.toList.all Char.isAlpha = true

/-- An item with a plain name, and a flag for its register. -/
def PlainItem (name : String) (acquired : LWWReg Uuid) : Prop := PlainName name ∧ acquired.val ≤ 1

/-- All items of the list are plain. -/
def ShoppingList.Plain (l : ShoppingList) : Prop :=
  ∀ name v, l.list.view name = some v → PlainItem name v.acquired

/-- All items of the store are plain, and no two counters share an id. -/
structure PlainDb (db : ClientDb) : Prop where
  distinct : db.SlotsDistinct
  items : ∀ id name s, db.content (id, name) = some s → PlainItem name s.acquired

theorem PlainItem.merge {name : String} {r q : LWWReg Uuid} (hr : PlainItem name r)
    (hq : PlainItem name q) : PlainItem name (r.merge q) := by
  rcases LWWReg.merge_eq_or r q with h | h <;> rw [h]
  · exact hr
  · exact hq

theorem ShoppingList.Plain.merge {l m : ShoppingList} (hl : l.Plain) (hm : m.Plain) :
    ShoppingList.Plain { l with list := l.list.merge m.list } := by
  intro name v hv
  rw [AWORMap.view_merge] at hv
  unfold AWORMap.mergeView at hv
  cases hlv : l.list.view name with
  | none =>
    cases hmv : m.list.view name with
    | none => simp [hlv, hmv] at hv
    | some w =>
      simp only [hlv, hmv, Option.some.injEq] at hv
      exact hv ▸ hm name w hmv
  | some u =>
    cases hmv : m.list.view name with
    | none =>
      simp only [hlv, hmv, Option.some.injEq] at hv
      exact hv ▸ hl name u hlv
    | some w =>
      simp only [hlv, hmv, Option.some.injEq] at hv
      exact hv ▸ (hl name u hlv).merge (hm name w hmv)

/-- What servers make of plain lists is plain. -/
theorem closed_plain : ClosedUnderMerge ShoppingList.Plain := fun _ _ hl hl' _ => hl.merge hl'

theorem plainDb_empty : PlainDb .empty := by
  refine ⟨Client.sound_empty.distinct, fun id name s hs => ?_⟩
  simp [ClientDb.content, ClientDb.empty] at hs

theorem PlainDb.read {client id : Uuid} {db : ClientDb} {l : ShoppingList} (h : PlainDb db)
    (hread : (readShoppingList client id).Returns db l db) : l.Plain := by
  intro name v hv
  rw [readShoppingList_view hread] at hv
  obtain ⟨s, hs, rfl⟩ := Option.map_eq_some_iff.1 hv
  exact h.items id name s hs

/-- The register of an edited item. -/
theorem plain_edited {client : Uuid} {name : String} {quantity : ℕ} {acquired : Bool}
    {old : Option Stored} {cast : ℕ → ℤ} {item : Item} (h : Edited client quantity acquired old cast item)
    (hname : PlainName name) (hold : ∀ s, old = some s → PlainItem name s.acquired) :
    PlainItem name item.acquired := by
  have hbool : acquired.toNat ≤ 1 := Bool.toNat_le acquired
  cases h with
  | created => exact ⟨hname, hbool⟩
  | @changed s stored item hread hedit =>
    obtain ⟨amount, register, -, hregister, rfl⟩ := editItem_eq_some.1 hedit
    have hstored : PlainItem name stored.acquired := hread.acquired ▸ hold s rfl
    apply hstored.merge
    unfold editAcquired at hregister
    split at hregister
    · split at hregister <;> cases hregister
      exact ⟨hname, hbool⟩
    · cases hregister
      exact hstored

theorem PlainDb.edit {client id : Uuid} {name : String} {quantity : ℕ} {acquired : Bool}
    {c c' : Conn ClientDb StorageError} {r : Outcome StorageError Unit} (h : PlainDb c.db)
    (hname : PlainName name)
    (hrun : (handleItemStorageRequest client name quantity acquired id).run c = (r, c')) :
    PlainDb c'.db := by
  obtain ⟨hdistinct, ⟨-, hkeep⟩ | ⟨-, cast, item, hedited, hput⟩⟩ :=
    handleItemStorageRequest_run h.distinct hrun
  · exact ⟨hdistinct, hkeep ▸ h.items⟩
  · refine ⟨hdistinct, fun id' name' s hs => ?_⟩
    rw [hput] at hs
    unfold Content.put at hs
    by_cases hkey : ((id', name') : Uuid × String) = (id, name)
    · obtain ⟨rfl, rfl⟩ := Prod.mk.inj hkey
      rw [Function.update_self] at hs
      cases hs
      exact plain_edited hedited hname fun s hs => h.items id' name' s hs
    · rw [Function.update_of_ne hkey] at hs
      exact h.items id' name' s hs

theorem PlainDb.write {c c' : Conn ClientDb StorageError} {r : Outcome StorageError Unit}
    {l : ShoppingList} (h : PlainDb c.db) (hl : l.Plain) (hrun : (writeShoppingList l).run c = (r, c')) :
    PlainDb c'.db := by
  obtain ⟨hdistinct, ⟨-, hkeep⟩ | ⟨-, -, hcontent⟩⟩ := writeShoppingList_run h.distinct hrun
  · exact ⟨hdistinct, hkeep ▸ h.items⟩
  · refine ⟨hdistinct, fun id name s hs => ?_⟩
    rw [hcontent] at hs
    unfold Content.write at hs
    split at hs
    · cases hitem : l.list.items.find? name with
      | none =>
        rw [hitem] at hs
        exact h.items id name s hs
      | some item =>
        rw [hitem] at hs
        cases hs
        refine hl name item.view ?_
        rw [AWORMap.view, hitem, Option.map_some]
    · exact h.items id name s hs

/-- A refresh keeps the store plain and shows plain names, if the reply is plain. -/
theorem PlainDb.refresh {client id : Uuid} {e : Exchange} {c c' : Conn ClientDb StorageError}
    {r : Outcome ClientError ShoppingListInterface} (h : PlainDb c.db)
    (hreply : ∀ m, e.ackList = some m → m.Plain) (hrun : Client.retrieveList client e id c = (r, c')) :
    PlainDb c'.db ∧ ∀ shown, r = .ok shown → ∀ name, (shown.items.find? name).isSome → PlainName name := by
  have hshown : ∀ {l : ShoppingList} {shown : ShoppingListInterface}, l.Plain →
      fromCrdt l = some shown → ∀ name, (shown.items.find? name).isSome → PlainName name := by
    intro l shown hl hcrdt name hname
    rw [(fromCrdt_spec hcrdt).2 name] at hname
    cases hitem : l.list.items.find? name with
    | none => simp [hitem] at hname
    | some item =>
      refine (hl name item.view ?_).1
      rw [AWORMap.view, hitem, Option.map_some]
  by_cases hok : ∃ l, ((readShoppingList client id).run c).1 = .ok l
  · obtain ⟨l, hl⟩ := hok
    have hread : (readShoppingList client id).run c = (.ok l, _) := Prod.ext hl rfl
    obtain ⟨hkeep, hreturns⟩ := returns_of_read hread
    have hplain := h.read hreturns
    rw [← hkeep] at h
    rcases Client.retrieveList_of_read e hread with ⟨-, heq⟩ | ⟨-, err, heq⟩ <;> rw [hrun] at heq
    · cases hack : e.ackList with
      | none =>
        rw [hack] at heq
        obtain ⟨rfl, rfl⟩ := Prod.mk.inj heq
        exact ⟨h, fun shown hs => hshown hplain (Client.orPanic_eq_ok.1 hs)⟩
      | some m =>
        rw [hack] at heq
        obtain ⟨rfl, rfl⟩ := Prod.mk.inj heq
        have hwritten : (writtenList l m).Plain := hplain.merge (hplain.merge (hreply m hack))
        exact ⟨h.write hwritten (Prod.ext rfl rfl), fun shown hs => hshown hwritten (Client.orPanic_eq_ok.1 hs)⟩
    · obtain ⟨rfl, rfl⟩ := Prod.mk.inj heq
      refine ⟨h, fun shown hs => ?_⟩
      cases hs
  · obtain ⟨hnot, hkeep⟩ := Client.retrieveList_of_not_read (e := e) (not_exists.1 hok)
    rw [hrun] at hnot hkeep
    exact ⟨hkeep ▸ h, fun shown hs => absurd hs (hnot shown)⟩

namespace Cli

/-! ## The screens -/

/-- The complaint about an amount that no `usize` holds, or none that ends a handler. -/
def Tolerated (o : Output) : Prop :=
  o.isFinal = true → ∃ input rest, o = .invalidInput input ∧ input.toList = 'a' :: rest ∧ 2 ^ 64 ≤ decimal rest

/-- What holds throughout a session. -/
structure Tidy (t : Terminal) : Prop where
  db : PlainDb t.conn.db
  screen : ∀ id item, t.screen = some (.itemEdit id item) → PlainName item.name
  printed : ∀ o ∈ t.printed, Tolerated o

theorem tidy_new {conn : Conn ClientDb StorageError} (h : PlainDb conn.db)
    {stdin : List (Option String)} : Tidy (.new conn stdin) := by
  refine ⟨h, fun id item hs => ?_, fun o ho => ?_⟩
  · cases hs
  · cases ho

/-- The screen, if it shows one item, shows one with a plain name. -/
def PlainScreen (s : State) : Prop := ∀ id item, s = .itemEdit id item → PlainName item.name

section Screens

variable {α : Type} {Q : α → Prop}

theorem tidy_setScreen {s : State} (hs : PlainScreen s) : Upholds Tidy (fun _ => True) (setScreen s) where
  inv _ ht := ⟨ht.db, fun id item h => hs id item (Option.some.inj h), ht.printed⟩
  result _ _ _ _ := trivial
  stops _ _ _ h := nomatch h

theorem tidy_println {o : Output} (ho : Tolerated o) : Upholds Tidy (fun _ => True) (println o) where
  inv _ ht := ⟨ht.db, ht.screen, fun o' ho' => (List.mem_append.1 ho').elim (ht.printed o')
    fun h => List.mem_singleton.1 h ▸ ho⟩
  result _ _ _ _ := trivial
  stops _ _ _ h := nomatch h

theorem tolerated_of_not_final {o : Output} (h : o.isFinal = false) : Tolerated o := by
  intro hfinal
  rw [h] at hfinal
  cases hfinal

theorem tidy_readLine : Upholds Tidy (fun _ => True) readLine := by
  refine ⟨fun t ht => ?_, fun _ _ _ _ => trivial, fun t s _ h => fine_readLine.stops t s h⟩
  unfold readLine
  split
  · exact ht
  · exact ⟨ht.db, ht.screen, ht.printed⟩

theorem tidy_readValidatedInput (rules : List InputRule) :
    Upholds Tidy (fun input => isValid input rules = true) (readValidatedInput rules) := by
  refine ⟨fun t ht => ?_, fun t a _ h => valid_of_readValidatedInput h,
    fun t s _ h => (fine_readValidatedInput rules).stops t s h⟩
  have hloop : ∀ stdin t, Tidy t → Tidy (readLines rules stdin t).2 := by
    intro stdin
    induction stdin with
    | nil => exact fun t ht => ⟨ht.db, ht.screen, ht.printed⟩
    | cons line stdin ih =>
      intro t ht
      cases line with
      | none => exact ih _ ((tidy_println (tolerated_of_not_final rfl)).inv t ht)
      | some line =>
        unfold readLines
        split
        · exact ⟨ht.db, ht.screen, ht.printed⟩
        · exact ih _ ((tidy_println (tolerated_of_not_final rfl)).inv t ht)
  exact hloop t.stdin t ht

theorem tidy_call {f : Conn ClientDb StorageError → Outcome ClientError α × Conn ClientDb StorageError}
    (hf : ∀ c, PlainDb c.db → PlainDb (f c).2.db ∧ ∀ a, (f c).1 = .ok a → Q a) :
    Upholds Tidy (fun answer => ∀ a, answer = .ok a → Q a) (call f) := by
  refine ⟨fun t ht => ?_, fun t answer ht h a ha => ?_, fun t s _ h => (fine_call f).stops t s h⟩
  · obtain ⟨hdb, -⟩ := hf t.conn ht.db
    unfold call
    split <;> rename_i hrun <;> rw [hrun] at hdb <;> exact ⟨hdb, ht.screen, ht.printed⟩
  · obtain ⟨-, hQ⟩ := hf t.conn ht.db
    unfold call at h
    split at h <;> rename_i hrun <;> rw [hrun] at hQ <;> cases h
    · exact hQ a (by rw [Except.ok.inj ha])
    · cases ha

theorem plainName_of_valid {name : String}
    (h : isValid name [.custom fun s => s.toList.all Char.isAlpha] = true) : PlainName name := by
  simpa [isValid, InputRule.accepts, PlainName] using h

theorem tidy_buildItem : Upholds Tidy (fun item => PlainName item.name) buildItem := by
  apply (tidy_readValidatedInput _).bind
  intro name hname
  apply (tidy_readValidatedInput _).bind
  intro amountString hvalid
  cases hn : parseU64 amountString.toList with
  | some amount => exact upholds_pure (plainName_of_valid hname)
  | none =>
    -- no rule lets a text pass that does not parse
    unfold isValid InputRule.accepts at hvalid
    rw [List.any_cons, show parseUsize amountString.toList = none from hn] at hvalid
    cases hvalid

/-- Only the screen of an item shows an item. -/
theorem plainScreen_of_ne {s : State} (h : ∀ id item, s ≠ .itemEdit id item) : PlainScreen s := by
  intro id item hs
  exact absurd hs (h id item)

theorem plainScreen_mainMenu : PlainScreen .mainMenu := by
  apply plainScreen_of_ne
  simp

theorem plainScreen_exit : PlainScreen .exit := by
  apply plainScreen_of_ne
  simp

theorem plainScreen_listCreate (id : Uuid) : PlainScreen (.listCreate id) := by
  apply plainScreen_of_ne
  simp

theorem plainScreen_listEdit (id : Uuid) : PlainScreen (.listEdit id) := by
  apply plainScreen_of_ne
  simp

theorem tidy_submit (env : Env) {item : ItemInterface} (hname : PlainName item.name) (listId : Uuid)
    {afterError : State} (hafter : PlainScreen afterError) :
    Upholds Tidy (fun _ => True) (submit env item listId afterError) := by
  have hcall : Upholds Tidy (fun _ => True) (call (Client.sendItemStorageRequest env.clientId env.sending
      item.name item.amount item.acquired listId)) := by
    apply (tidy_call (Q := fun _ => True) fun c hc => ⟨?_, fun _ _ => trivial⟩).mono fun _ _ => trivial
    rw [Client.sendItemStorageRequest_db]
    exact hc.edit hname (Prod.ext rfl rfl)
  apply hcall.bind
  intro answer _
  cases answer with
  | ok a => exact tidy_setScreen (plainScreen_listEdit listId)
  | error e =>
    exact (tidy_println (tolerated_of_not_final rfl)).bind fun _ _ =>
      tidy_readLine.bind fun _ _ => tidy_setScreen hafter

theorem tidy_handleItemEdit (env : Env) {input : String} {item : ItemInterface} (hname : PlainName item.name)
    (listId : Uuid) (hvalid : isValid input (Shown.itemEdit item listId).rules = true) :
    Upholds Tidy (fun _ => True) (handleItemEdit env input item listId) := by
  have hlist := plainScreen_listEdit listId
  rcases itemEdit_of_valid hvalid with (rfl | rfl | rfl) | ⟨rest, hinput, hne, hdigits⟩
  · exact tidy_setScreen plainScreen_exit
  · exact @tidy_submit env { item with acquired := !item.acquired } hname listId _ hlist
  · exact tidy_setScreen hlist
  · have hother : input ≠ "q" ∧ input ≠ "b" ∧ input ≠ "d" := by
      refine ⟨?_, ?_, ?_⟩ <;> rintro rfl <;> simp at hinput
    rw [handleItemEdit, if_neg hother.1, if_neg hother.2.1, if_neg hother.2.2, hinput]
    simp only [parseUsize_of_digits hne hdigits]
    by_cases hlt : decimal rest < 2 ^ 64
    · rw [if_pos hlt]
      dsimp only
      split
      · exact (tidy_println (tolerated_of_not_final rfl)).bind fun _ _ =>
          tidy_readLine.bind fun _ _ => tidy_setScreen hlist
      · exact @tidy_submit env { item with amount := decimal rest } hname listId _ hlist
    · rw [if_neg hlt]
      have hcomplaint : Upholds Tidy (fun _ => True) (println (.invalidInput input)) :=
        tidy_println fun _ => ⟨input, rest, rfl, hinput, Nat.le_of_not_lt hlt⟩
      exact hcomplaint.bind fun _ _ => hcomplaint

theorem tidy_handleNewlistEdit (env : Env) {input : String} (listId : Uuid)
    (hvalid : isValid input (Shown.listCreate listId).rules = true) :
    Upholds Tidy (fun _ => True) (handleNewlistEdit env input listId) := by
  have hmem : input = "q" ∨ input = "b" ∨ input = "a" := by
    simpa [isValid, InputRule.accepts, Shown.rules] using hvalid
  rcases hmem with rfl | rfl | rfl
  · exact tidy_setScreen plainScreen_exit
  · exact tidy_setScreen plainScreen_mainMenu
  · exact tidy_buildItem.bind fun item hname => tidy_submit env hname listId (plainScreen_listCreate listId)

/-- A number that passes the rules selects an entry. -/
theorem tidy_select {input : String} {entries : List α} {next : α → State} {n : ℕ}
    (hn : parseUsize input.toList = some n) (hlow : 1 ≤ n) (hhigh : n ≤ entries.length)
    (hnext : ∀ entry ∈ entries, PlainScreen (next entry)) :
    Upholds Tidy (fun _ => True) (select input entries next) := by
  have hlt : n - 1 < entries.length := by omega
  unfold select
  rw [hn]
  dsimp only
  rw [if_pos hlow, List.getElem?_eq_getElem hlt]
  exact tidy_setScreen (hnext _ (List.getElem_mem hlt))

theorem tidy_handleListEdit (env : Env) {input : String} {items : List ItemInterface}
    (hitems : ∀ item ∈ items, PlainName item.name) (listId : Uuid)
    (hvalid : isValid input (Shown.listEdit items listId).rules = true) :
    Upholds Tidy (fun _ => True) (handleListEdit env input items listId) := by
  rcases number_of_valid hvalid with hmem | ⟨n, hn, hlow, hhigh⟩
  · simp only [List.mem_cons, List.not_mem_nil, or_false] at hmem
    rcases hmem with rfl | rfl | rfl | rfl
    · exact tidy_setScreen plainScreen_exit
    · exact tidy_setScreen plainScreen_mainMenu
    · exact tidy_buildItem.bind fun item hname => tidy_submit env hname listId (plainScreen_listEdit listId)
    · exact tidy_setScreen (plainScreen_listEdit listId)
  · have hother : input ≠ "q" ∧ input ≠ "b" ∧ input ≠ "r" ∧ input ≠ "a" ∧ input ≠ "d" := by
      refine ⟨?_, ?_, ?_, ?_, ?_⟩ <;> rintro rfl <;>
        simp [parseUsize, parseU64, parseDigits, toDigit] at hn
    rw [handleListEdit, if_neg hother.1, if_neg hother.2.1, if_neg hother.2.2.1, if_neg hother.2.2.2.1,
      if_neg hother.2.2.2.2]
    refine tidy_select hn hlow hhigh fun item hitem id item' h => ?_
    cases h
    exact hitems item hitem

theorem tidy_handleMainMenu (env : Env) {input : String} {lists : List Uuid}
    (hvalid : isValid input (Shown.mainMenu lists).rules = true) :
    Upholds Tidy (fun _ => True) (handleMainMenu env input lists) := by
  rcases number_of_valid hvalid with hmem | ⟨n, hn, hlow, hhigh⟩
  · simp only [List.mem_cons, List.not_mem_nil, or_false] at hmem
    rcases hmem with rfl | rfl | rfl
    · apply (tidy_readValidatedInput _).bind
      intro id hid
      cases huuid : env.parseStr id with
      | some uuid => exact tidy_setScreen (plainScreen_listEdit uuid)
      | none => simp [isValid, InputRule.accepts, huuid] at hid
    · exact tidy_setScreen plainScreen_exit
    · exact tidy_setScreen (plainScreen_listCreate _)
  · have hother : input ≠ "q" ∧ input ≠ "c" ∧ input ≠ "a" := by
      refine ⟨?_, ?_, ?_⟩ <;> rintro rfl <;>
        simp [parseUsize, parseU64, parseDigits, toDigit] at hn
    rw [handleMainMenu, if_neg hother.1, if_neg hother.2.1, if_neg hother.2.2]
    exact tidy_select hn hlow hhigh fun list _ => plainScreen_listEdit list

end Screens

/-- The answer that a screen gets while it retrieves a list, if it is one, is plain. -/
def Env.PlainReply (env : Env) : Prop := ∀ m, env.viewing.ackList = some m → m.Plain

theorem tidy_prompt (env : Env) {shown : Shown}
    (h : ∀ input, isValid input shown.rules = true →
      Upholds Tidy (fun _ => True) (shown.handle env input)) :
    Upholds Tidy (fun _ => True) (shown.prompt env) :=
  (tidy_readValidatedInput _).bind h

theorem readOnly_getUserLists (client : Uuid) : (getUserLists client).ReadOnly := by
  unfold getUserLists
  apply (readOnly_query _).bind
  intro lists
  apply (ReadOnly.foldlM (readOnly_readNext client) lists []).bind
  intro listVec
  exact readOnly_pure _

theorem tidy_printLists (env : Env) : Upholds Tidy (fun _ => True) (printLists env) := by
  have hcall : Upholds Tidy (fun _ => True) (call (Client.retrieveAvailableLists env.clientId)) := by
    apply (tidy_call (Q := fun _ => True) fun c hc => ⟨?_, fun _ _ => trivial⟩).mono fun _ _ => trivial
    have hkeep : (Client.retrieveAvailableLists env.clientId c).2.db = c.db := by
      have hkeep := (readOnly_getUserLists env.clientId).keeps c
      unfold Client.retrieveAvailableLists
      split <;> rename_i hrun <;> rw [hrun] at hkeep <;> exact hkeep
    exact hkeep ▸ hc
  apply hcall.bind
  intro answer _
  cases answer with
  | ok lists =>
    cases lists with
    | some lists => exact upholds_pure trivial
    | none => exact upholds_pure trivial
  | error e => exact (tidy_println (tolerated_of_not_final rfl)).bind fun _ _ => upholds_pure trivial

theorem tidy_takeScreen : Upholds Tidy PlainScreen takeScreen where
  inv _ ht := ⟨ht.db, fun _ _ h => (nomatch h), ht.printed⟩
  result t s ht h := by
    cases h
    cases hs : t.screen with
    | none => exact fun _ _ h => nomatch h
    | some s => exact fun id item h => ht.screen id item (hs.trans (congrArg some h))
  stops _ _ _ h := nomatch h

/-- **A screen keeps the session tidy.** -/
theorem tidy_render (env : Env) (henv : env.PlainReply) : Upholds Tidy (fun _ => True) (render env) := by
  apply tidy_takeScreen.bind
  intro screen hscreen
  cases screen with
  | mainMenu =>
    exact (tidy_printLists env).bind fun lists _ =>
      tidy_prompt env fun input hvalid => tidy_handleMainMenu env hvalid
  | listCreate listId => exact tidy_prompt env fun input hvalid => tidy_handleNewlistEdit env listId hvalid
  | listEdit listId =>
    apply (tidy_call (Q := fun shown : ShoppingListInterface =>
      ∀ name, (shown.items.find? name).isSome → PlainName name) fun c hc =>
        hc.refresh henv (Prod.ext rfl rfl)).bind
    intro answer hshown
    cases answer with
    | ok list =>
      refine tidy_prompt env fun input hvalid => tidy_handleListEdit env (fun item hitem => ?_) listId hvalid
      obtain ⟨⟨name, shown⟩, he, rfl⟩ := List.mem_map.1 hitem
      refine hshown list rfl name ?_
      rw [(FinMap.mem_entries _ _ _).1 he]
      rfl
    | error e =>
      exact (tidy_println (tolerated_of_not_final rfl)).bind fun _ _ =>
        (tidy_setScreen plainScreen_mainMenu).bind fun _ _ => tidy_readLine
  | itemEdit listId item =>
    exact tidy_prompt env fun input hvalid => tidy_handleItemEdit env (hscreen listId item rfl) listId hvalid
  | exit => exact upholds_pure trivial

/-- **A session never panics by itself, and writes only plain items**, whatever is typed and whatever
fails, if the answers of the servers are plain.  At the end of a handler it complains of nothing but an
amount that is too large. -/
theorem session_tidy (envs : List Env) (henvs : ∀ env ∈ envs, env.PlainReply) :
    Upholds Tidy (fun _ => True) (session envs) := by
  induction envs with
  | nil => exact upholds_pure trivial
  | cons env envs ih =>
    have hturn : Upholds Tidy (fun _ => True) (render env >>= fun _ => session envs) :=
      (tidy_render env (henvs env List.mem_cons_self)).bind fun _ _ =>
        ih fun e he => henvs e (List.mem_cons_of_mem _ he)
    have hsession : ∀ t, session (env :: envs) t =
        if t.isDone then (.ok (), t) else (render env >>= fun _ => session envs) t := fun _ => rfl
    refine ⟨fun t ht => ?_, fun _ _ _ _ => trivial, fun t s ht h => ?_⟩
    · rw [hsession]
      split
      · exact ht
      · exact hturn.inv t ht
    · rw [hsession] at h
      split at h
      · cases h
      · exact hturn.stops t s ht h

/-- Client 201 makes a list, without a proxy. -/
def milkEnv : Env := { quietEnv with newUuid := .ofTail 101, clientId := .ofTail 201 }

/-- It puts one milk on it, by the second try for a name, and quits. -/
def milkLines : List (Option String) :=
  ["c", "a", "m1lk", "milk", "1", "q"].map some

theorem session_tidy_milk :
    Tidy (session (List.replicate 4 milkEnv) (.new (.calm .empty) milkLines)).2 ∧
      (session (List.replicate 4 milkEnv) (.new (.calm .empty) milkLines)).2.isDone = true := by
  refine ⟨(session_tidy _ fun env henv m hm => ?_).inv _ (tidy_new plainDb_empty), by decide +kernel⟩
  rw [List.eq_of_mem_replicate henv] at hm
  cases hm

end Cli

end Sdle
