import Sdle.Client
import Sdle.Quantities
import Sdle.Lib.BigEndian

/-!
# The screens of the client (`cli.rs`)

A screen prints what it shows, reads lines until one passes `is_valid` under the rules of the screen,
and gives that line to a handler, which parses it again and sets the next screen.  `render` takes the
screen out of the manager first (`mem::replace`) and leaves the main menu there, so that a handler
that sets none falls back to it.

A `Terminal` is the manager with its client, the lines still to be read and what was printed.
`Uuid::parse_str` is from a library; it is a field of `Env`, with what else a screen gets from
outside.

* `fine_handle` — what the handlers print and how they stop, by the form of their programs.
* `sets_render` — apart from the screen of an item, each screen sets the next one.
* `commands_agree_iff` — **when validators and handlers agree**: exactly when the line is not an `a`
  with a number that no `usize` holds, on the screen of an item.
-/

set_option autoImplicit false

namespace Sdle

open Sql

namespace Cli

/-! ## Texts -/

/-- `char::is_whitespace`. -/
def isWhitespace (c : Char) : Bool :=
  let n := c.toNat
  (0x9 ≤ n && n ≤ 0xd) || n == 0x20 || n == 0x85 || n == 0xa0 || n == 0x1680 ||
    (0x2000 ≤ n && n ≤ 0x200a) || n == 0x2028 || n == 0x2029 || n == 0x202f || n == 0x205f ||
    n == 0x3000

/-- `str::trim`. -/
def trim (s : String) : String :=
  String.ofList ((s.toList.dropWhile isWhitespace).reverse.dropWhile isWhitespace).reverse

/-- `char::to_digit(10)`. -/
def toDigit (c : Char) : Option ℕ := if c.isDigit then some (c.toNat - 48) else none

/-- `x` where it is a `u64`. -/
def checkedU64 (x : ℕ) : Option ℕ := if x < 2 ^ 64 then some x else none

/-- The loop of `from_str_radix`. -/
def parseDigits (cs : List Char) : Option ℕ :=
  cs.foldlM (fun result c => do
    let mul ← checkedU64 (result * 10)
    let x ← toDigit c
    checkedU64 (mul + x)) 0

/-- `str::parse::<u64>`: a sign is allowed, but only `+`, and not alone. -/
def parseU64 : List Char → Option ℕ
  | [] => none
  | ['+'] => none
  | '+' :: cs => parseDigits cs
  | cs => parseDigits cs

/-- `str::parse::<usize>`.  A `usize` has 64 bits. -/
def parseUsize (cs : List Char) : Option ℕ := parseU64 cs

/-! ## What is read and printed -/

/-- `InputRule`. -/
inductive InputRule where
  | acceptStrings (list : List String)
  | acceptNumberRange (low high : ℕ)
  | custom (func : String → Bool)
  | acceptAll

/-- One rule of `ClientInterfaceManager::is_valid`. -/
def InputRule.accepts (input : String) : InputRule → Bool
  | acceptStrings list => list.contains input
  | acceptNumberRange low high =>
    match parseUsize input.toList with
    | some n => decide (low ≤ n ∧ n ≤ high)
    | none => false
  | custom func => func input
  | acceptAll => true

/-- `ClientInterfaceManager::is_valid`. -/
def isValid (input : String) (rules : List InputRule) : Bool := rules.any (·.accepts input)

/-- `ItemInterface`. -/
structure ItemInterface where
  name : String
  amount : ℕ
  acquired : Bool
  deriving DecidableEq

/-- `State`. -/
inductive State where
  | listCreate (listId : Uuid)
  | listEdit (listId : Uuid)
  | mainMenu
  | exit
  | itemEdit (listId : Uuid) (item : ItemInterface)
  deriving DecidableEq

/-- What is printed, apart from the lists, items and commands of a screen. -/
inductive Output where
  | tryAgain
  | errorReadingInput
  | errorRetrievingLists (e : ClientError)
  | errorRetrievingListItems
  | errorOnItemStorage (e : ClientError)
  | invalidAmount
  | invalidInput (other : String)
  | invalidSelection (other : String)
  | unknownCommand (other : String)
  deriving DecidableEq

/-- What a handler prints at its end, when it made nothing of its input. -/
def Output.isFinal : Output → Bool
  | invalidInput _ => true
  | invalidSelection _ => true
  | unknownCommand _ => true
  | _ => false

/-- Why a screen does not go on: there is no line yet, a call of the client panics, or the code itself
does: at `todo!()`, or where it expects a text to parse. -/
inductive Stop where
  | waiting
  | client
  | todo
  | expect
  deriving DecidableEq

/-- `ClientInterfaceManager`: the screen, where it was set since `mem::replace`, and the client; the
lines to be read (`none` is a line that cannot be read) and what was printed. -/
structure Terminal where
  screen : Option State
  conn : Conn ClientDb StorageError
  stdin : List (Option String)
  printed : List Output

/-- What a screen gets from outside: the client's id, `Uuid::parse_str`, a new UUID, and what the
socket does while a list is retrieved and while a change is sent. -/
structure Env where
  clientId : Uuid
  parseStr : String → Option Uuid
  newUuid : Uuid
  viewing : Exchange
  sending : Exchange

/-- A program on a terminal. -/
def Ui (α : Type) : Type := Terminal → Except Stop α × Terminal

namespace Ui

/-- Go on with the result. -/
def andThen {α β : Type} (f : α → Ui β) : Except Stop α × Terminal → Except Stop β × Terminal
  | (.ok a, t) => f a t
  | (.error s, t) => (.error s, t)

instance : Monad Ui where
  pure a := fun t => (.ok a, t)
  bind p f := fun t => andThen f (p t)

end Ui

/-- `self.screen = screen`. -/
def setScreen (screen : State) : Ui Unit := fun t => (.ok (), { t with screen := some screen })

/-- `mem::replace(&mut self.screen, State::MainMenu)`. -/
def takeScreen : Ui State := fun t => (.ok (t.screen.getD .mainMenu), { t with screen := none })

/-- `println!`. -/
def println (o : Output) : Ui Unit := fun t => (.ok (), { t with printed := t.printed ++ [o] })

/-- Stop here. -/
def stop {α : Type} (s : Stop) : Ui α := fun t => (.error s, t)

/-- `let _ = io::stdin().read_line(…)`. -/
def readLine : Ui Unit := fun t =>
  match t.stdin with
  | [] => (.error .waiting, t)
  | _ :: stdin => (.ok (), { t with stdin })

/-- The loop of `read_validated_input` over the lines that come. -/
def readLines (rules : List InputRule) : List (Option String) → Ui String
  | [], t => (.error .waiting, { t with stdin := [] })
  | none :: stdin, t =>
    readLines rules stdin { t with printed := t.printed ++ [.errorReadingInput] }
  | some line :: stdin, t =>
    if isValid (trim line) rules then (.ok (trim line), { t with stdin })
    else readLines rules stdin { t with printed := t.printed ++ [.tryAgain] }

/-- `ClientInterfaceManager::read_validated_input`. -/
def readValidatedInput (rules : List InputRule) : Ui String := fun t => readLines rules t.stdin t

/-- A call of the client. -/
def call {α : Type} (f : Conn ClientDb StorageError → Outcome ClientError α × Conn ClientDb StorageError) :
    Ui (Except ClientError α) := fun t =>
  match f t.conn with
  | (.ok a, conn) => (.ok (.ok a), { t with conn })
  | (.err e, conn) => (.ok (.error e), { t with conn })
  | (.panic, conn) => (.error .client, { t with conn })

/-! ## The handlers -/

/-- `ClientInterfaceManager::build_item`. -/
def buildItem : Ui ItemInterface := do
  let name ← readValidatedInput [.custom fun s => s.toList.all Char.isAlpha]
  let amountString ← readValidatedInput [.acceptNumberRange 1 upperItemCountLimit]
  match parseU64 amountString.toList with
  | some amount => return { name, amount, acquired := false }
  | none => stop .expect

/-- `send_item_storage_request` as the handlers call it, with the screen that follows an error. -/
def submit (env : Env) (item : ItemInterface) (listId : Uuid) (afterError : State) : Ui Unit := do
  let answer ← call (Client.sendItemStorageRequest env.clientId env.sending item.name item.amount
    item.acquired listId)
  match answer with
  | .ok _ => setScreen (.listEdit listId)
  | .error e =>
    println (.errorOnItemStorage e)
    readLine
    setScreen afterError

/-- `ClientInterfaceManager::handle_item_edit`. -/
def handleItemEdit (env : Env) (input : String) (item : ItemInterface) (listId : Uuid) : Ui Unit :=
  if input = "q" then setScreen .exit
  else if input = "b" then setScreen (.listEdit listId)
  else if input = "d" then
    submit env { item with acquired := !item.acquired } listId (.listEdit listId)
  else
    match input.toList with
    | 'a' :: rest =>
      match parseUsize rest with
      | some amount =>
        if amount < 1 then do
          println .invalidAmount
          readLine
          setScreen (.listEdit listId)
        else submit env { item with amount } listId (.listEdit listId)
      | none => do
        println (.invalidInput input)
        println (.invalidInput input)
    | _ => println (.invalidInput input)

/-- `ClientInterfaceManager::handle_newlist_edit`. -/
def handleNewlistEdit (env : Env) (input : String) (listId : Uuid) : Ui Unit :=
  if input = "q" then setScreen .exit
  else if input = "b" then setScreen .mainMenu
  else if input = "a" then do
    let item ← buildItem
    submit env item listId (.listCreate listId)
  else println (.unknownCommand input)

/-- The last branch of `handle_list_edit` and `handle_main_menu`: the number of an entry. -/
def select {α : Type} (input : String) (entries : List α) (next : α → State) : Ui Unit :=
  match parseUsize input.toList with
  | some selection =>
    -- `checked_sub(1)`
    match (if 1 ≤ selection then entries[selection - 1]? else none) with
    | some entry => setScreen (next entry)
    | none => println (.invalidSelection input)
  | none => println (.unknownCommand input)

/-- `ClientInterfaceManager::handle_list_edit`. -/
def handleListEdit (env : Env) (input : String) (items : List ItemInterface) (listId : Uuid) :
    Ui Unit :=
  if input = "q" then setScreen .exit
  else if input = "b" then setScreen .mainMenu
  else if input = "r" then setScreen (.listEdit listId)
  else if input = "a" then do
    let item ← buildItem
    submit env item listId (.listEdit listId)
  else if input = "d" then stop .todo
  else select input items (.itemEdit listId)

/-- `ClientInterfaceManager::handle_main_menu`. -/
def handleMainMenu (env : Env) (input : String) (lists : List Uuid) : Ui Unit :=
  if input = "q" then setScreen .exit
  else if input = "c" then setScreen (.listCreate env.newUuid)
  else if input = "a" then do
    let id ← readValidatedInput [.custom fun input => (env.parseStr input).isSome]
    match env.parseStr id with
    | some uuid => setScreen (.listEdit uuid)
    | none => stop .expect
  else select input lists .listEdit

/-! ## The screens -/

/-- A screen with what it shows when its line is read. -/
inductive Shown where
  | mainMenu (lists : List Uuid)
  | listCreate (listId : Uuid)
  | listEdit (items : List ItemInterface) (listId : Uuid)
  | itemEdit (item : ItemInterface) (listId : Uuid)

namespace Shown

/-- The rules that `render` passes. -/
def rules : Shown → List InputRule
  | mainMenu lists => [.acceptStrings ["a", "q", "c"], .acceptNumberRange 1 lists.length]
  | listCreate _ => [.acceptStrings ["q", "b", "a"]]
  | listEdit items _ => [.acceptStrings ["q", "b", "a", "r"], .acceptNumberRange 1 items.length]
  | itemEdit _ _ =>
    [.acceptStrings ["q", "d", "b"],
      .custom fun s =>
        match s.toList with
        | 'a' :: rest => !rest.isEmpty && rest.all Char.isDigit
        | _ => false]

/-- The handler that gets the line. -/
def handle (env : Env) (input : String) : Shown → Ui Unit
  | mainMenu lists => handleMainMenu env input lists
  | listCreate listId => handleNewlistEdit env input listId
  | listEdit items listId => handleListEdit env input items listId
  | itemEdit item listId => handleItemEdit env input item listId

/-- The end of each arm of `render`: the line is read and handled. -/
def prompt (env : Env) (shown : Shown) : Ui Unit := do
  let input ← readValidatedInput shown.rules
  shown.handle env input

end Shown

/-- `ClientInterfaceManager::print_and_process_list_items`. -/
def printAndProcessListItems (list : ShoppingListInterface) : List ItemInterface :=
  list.items.entries.map fun e => { name := e.1, amount := e.2.1, acquired := e.2.2 }

/-- `ClientInterfaceManager::print_lists`. -/
def printLists (env : Env) : Ui (List Uuid) := do
  match ← call (Client.retrieveAvailableLists env.clientId) with
  | .ok (some lists) => return lists.map ShoppingListInterface.listId
  | .ok none => return []
  | .error e =>
    println (.errorRetrievingLists e)
    return []

/-- `ClientInterfaceManager::render`. -/
def render (env : Env) : Ui Unit := do
  match ← takeScreen with
  | .mainMenu =>
    let lists ← printLists env
    Shown.prompt env (.mainMenu lists)
  | .listCreate listId => Shown.prompt env (.listCreate listId)
  | .listEdit listId =>
    match ← call (Client.retrieveList env.clientId env.viewing listId) with
    | .ok list => Shown.prompt env (.listEdit (printAndProcessListItems list) listId)
    | .error _ =>
      println .errorRetrievingListItems
      setScreen .mainMenu
      readLine
  | .itemEdit listId item => Shown.prompt env (.itemEdit item listId)
  | .exit => return

/-! ## Parsing -/

/-- The number that some decimal digits stand for. -/
def decimal (cs : List Char) : ℕ := BigEndian.value 10 (cs.map fun c => c.toNat - 48)

theorem parseDigits_eq_read (cs : List Char) :
    parseDigits cs = BigEndian.read (2 ^ 64) 10 toDigit cs := by
  unfold parseDigits BigEndian.read
  congr 1
  funext result c
  change (checkedU64 (result * 10)).bind (fun mul => (toDigit c).bind fun x => checkedU64 (mul + x)) = _
  cases toDigit c with
  | none => cases checkedU64 (result * 10) <;> rfl
  | some d =>
    simp only [Option.bind_some]
    unfold checkedU64
    by_cases h : result * 10 < 2 ^ 64
    · rw [if_pos h, Option.bind_some]
    · rw [if_neg h, Option.bind_none, if_neg (by omega)]

/-- **What the checked parser makes of digits**: their number, where a `u64` holds it. -/
theorem parseDigits_eq {cs : List Char} (h : cs.all Char.isDigit = true) :
    parseDigits cs = if decimal cs < 2 ^ 64 then some (decimal cs) else none := by
  have hdigits : cs.mapM toDigit = some (cs.map fun c => c.toNat - 48) := by
    induction cs with
    | nil => rfl
    | cons c cs ih =>
      rw [List.all_cons, Bool.and_eq_true] at h
      rw [List.mapM_cons, ih h.2, toDigit, if_pos h.1]
      rfl
  rw [parseDigits_eq_read, BigEndian.read_eq (by decide) (by decide), hdigits]
  rfl

theorem parseUsize_of_digits {cs : List Char} (hne : cs.isEmpty = false)
    (h : cs.all Char.isDigit = true) :
    parseUsize cs = if decimal cs < 2 ^ 64 then some (decimal cs) else none := by
  rw [← parseDigits_eq h]
  unfold parseUsize parseU64
  split
  · cases hne
  · simp at h
  · simp at h
  · rfl

/-! ## What the programs do in any case -/

section Programs

variable {α β : Type}

/-- The program prints none of the messages that end a handler in vain, and stops, if at all, because
it waits for a line or in a call of the client. -/
structure Fine (p : Ui α) : Prop where
  prints : ∀ t, ∃ new, (p t).2.printed = t.printed ++ new ∧ ∀ o ∈ new, o.isFinal = false
  stops : ∀ t s, (p t).1 = .error s → s = .waiting ∨ s = .client

/-- Where the program ends, it has set the next screen. -/
def Sets (p : Ui Unit) : Prop := ∀ t, (p t).1 = .ok () → (p t).2.screen.isSome = true

theorem Fine.of_silent {p : Ui α} (hprinted : ∀ t, (p t).2.printed = t.printed)
    (hstops : ∀ t s, (p t).1 = .error s → s = .waiting ∨ s = .client) : Fine p :=
  ⟨fun t => ⟨[], by rw [hprinted, List.append_nil], nofun⟩, hstops⟩

theorem fine_pure (a : α) : Fine (pure a) := .of_silent (fun _ => rfl) fun _ _ => nofun

theorem fine_setScreen (screen : State) : Fine (setScreen screen) :=
  .of_silent (fun _ => rfl) fun _ _ => nofun

theorem fine_println {o : Output} (ho : o.isFinal = false) : Fine (println o) := by
  refine ⟨fun t => ⟨[o], rfl, fun o' ho' => ?_⟩, fun _ _ => nofun⟩
  rw [List.mem_singleton.1 ho']
  exact ho

theorem fine_readLine : Fine readLine := by
  refine .of_silent (fun t => ?_) fun t s h => ?_
  · unfold readLine
    split <;> rfl
  · unfold readLine at h
    split at h
    · cases h
      exact Or.inl rfl
    · cases h

theorem fine_call (f : Conn ClientDb StorageError → Outcome ClientError α × Conn ClientDb StorageError) :
    Fine (call f) := by
  refine .of_silent (fun t => ?_) fun t s h => ?_
  · unfold call
    split <;> rfl
  · unfold call at h
    split at h
    · cases h
    · cases h
    · cases h
      exact Or.inr rfl

theorem fine_readValidatedInput (rules : List InputRule) : Fine (readValidatedInput rules) := by
  have hloop : ∀ stdin t,
      (∃ new, (readLines rules stdin t).2.printed = t.printed ++ new ∧ ∀ o ∈ new, o.isFinal = false) ∧
        ∀ s, (readLines rules stdin t).1 = .error s → s = .waiting ∨ s = .client := by
    intro stdin
    induction stdin with
    | nil =>
      intro t
      refine ⟨⟨[], (List.append_nil _).symm, nofun⟩, fun s hs => ?_⟩
      cases hs
      exact Or.inl rfl
    | cons line stdin ih =>
      -- a line that is not taken is answered, and the rest is read
      have hnext : ∀ (o : Output) (t : Terminal), o.isFinal = false →
          (∃ new, (readLines rules stdin { t with printed := t.printed ++ [o] }).2.printed =
            t.printed ++ new ∧ ∀ o ∈ new, o.isFinal = false) := by
        intro o t ho
        obtain ⟨new, hnew, hfinal⟩ := (ih { t with printed := t.printed ++ [o] }).1
        refine ⟨o :: new, by rw [hnew]; simp, fun o' ho' => ?_⟩
        rcases List.mem_cons.1 ho' with rfl | ho'
        · exact ho
        · exact hfinal o' ho'
      intro t
      cases line with
      | none => exact ⟨hnext _ t rfl, (ih _).2⟩
      | some line =>
        unfold readLines
        split
        · exact ⟨⟨[], (List.append_nil _).symm, nofun⟩, fun s => nofun⟩
        · exact ⟨hnext _ t rfl, (ih _).2⟩
  exact ⟨fun t => (hloop t.stdin t).1, fun t => (hloop t.stdin t).2⟩

/-- The line that is returned is valid. -/
theorem valid_of_readValidatedInput {rules : List InputRule} {t : Terminal} {input : String}
    (h : (readValidatedInput rules t).1 = .ok input) : isValid input rules = true := by
  have hloop : ∀ stdin t, (readLines rules stdin t).1 = .ok input → isValid input rules = true := by
    intro stdin
    induction stdin with
    | nil => exact fun _ h => nomatch h
    | cons line stdin ih =>
      intro t h
      cases line with
      | none => exact ih _ h
      | some line =>
        unfold readLines at h
        split at h
        · rename_i hvalid
          cases h
          exact hvalid
        · exact ih _ h
  exact hloop _ _ h

/-- One program after another, with what the first one can return. -/
theorem Fine.bind {p : Ui α} {f : α → Ui β} (hp : Fine p)
    (hf : ∀ a t, (p t).1 = .ok a → Fine (f a)) : Fine (p >>= f) := by
  refine ⟨fun t => ?_, fun t s hs => ?_⟩
  · change ∃ new, (Ui.andThen f (p t)).2.printed = _ ∧ _
    obtain ⟨new, hnew, hfinal⟩ := hp.prints t
    rcases hrun : p t with ⟨s | a, t'⟩
    · rw [hrun] at hnew
      exact ⟨new, hnew, hfinal⟩
    · rw [hrun] at hnew
      obtain ⟨more, hmore, hfinal'⟩ := (hf a t (by rw [hrun])).prints t'
      refine ⟨new ++ more, ?_, fun o ho => ?_⟩
      · change (f a t').2.printed = _
        rw [hmore, ← List.append_assoc, ← hnew]
      · rcases List.mem_append.1 ho with ho | ho
        · exact hfinal o ho
        · exact hfinal' o ho
  · change (Ui.andThen f (p t)).1 = .error s at hs
    rcases hrun : p t with ⟨s' | a, t'⟩ <;> rw [hrun] at hs
    · rw [← Except.error.inj hs]
      exact hp.stops t s' (by rw [hrun])
    · exact (hf a t (by rw [hrun])).stops t' s hs

theorem sets_setScreen (screen : State) : Sets (setScreen screen) := fun _ _ => rfl

theorem Sets.bind {p : Ui α} {f : α → Ui Unit} (hf : ∀ a t, (p t).1 = .ok a → Sets (f a)) :
    Sets (p >>= f) := by
  intro t h
  change (Ui.andThen f (p t)).1 = _ at h
  change (Ui.andThen f (p t)).2.screen.isSome = true
  rcases hrun : p t with ⟨s | a, t'⟩ <;> rw [hrun] at h
  · cases h
  · exact hf a t (by rw [hrun]) t' h

/-! ## The handlers on valid lines -/

theorem number_of_valid {input : String} {low high : ℕ} {list : List String}
    (h : isValid input [.acceptStrings list, .acceptNumberRange low high] = true) :
    input ∈ list ∨ ∃ n, parseUsize input.toList = some n ∧ low ≤ n ∧ n ≤ high := by
  unfold isValid at h
  simp only [List.any_cons, List.any_nil, Bool.or_false, Bool.or_eq_true] at h
  rcases h with h | h
  · exact Or.inl (List.contains_iff_mem.1 h)
  · right
    unfold InputRule.accepts at h
    cases hn : parseUsize input.toList with
    | none =>
      rw [hn] at h
      cases h
    | some n =>
      rw [hn] at h
      exact ⟨n, rfl, by simpa using h⟩

theorem fine_buildItem : Fine buildItem := by
  refine (fine_readValidatedInput _).bind fun name t _ => ?_
  refine (fine_readValidatedInput _).bind fun amountString t h => ?_
  have hvalid := valid_of_readValidatedInput h
  unfold isValid InputRule.accepts at hvalid
  cases hn : parseU64 amountString.toList with
  | some amount => exact fine_pure _
  | none =>
    rw [List.any_cons, show parseUsize amountString.toList = none from hn] at hvalid
    cases hvalid

theorem fine_submit (env : Env) (item : ItemInterface) (listId : Uuid) (afterError : State) :
    Fine (submit env item listId afterError) := by
  refine (fine_call _).bind fun answer _ _ => ?_
  cases answer with
  | ok a => exact fine_setScreen _
  | error e => exact (fine_println rfl).bind fun _ _ _ => fine_readLine.bind fun _ _ _ => fine_setScreen _

theorem sets_submit (env : Env) (item : ItemInterface) (listId : Uuid) (afterError : State) :
    Sets (submit env item listId afterError) := by
  refine Sets.bind fun answer _ _ => ?_
  cases answer with
  | ok a => exact sets_setScreen _
  | error e => exact Sets.bind fun _ _ _ => Sets.bind fun _ _ _ => sets_setScreen _

/-- The number of an entry selects it. -/
theorem select_of_number {input : String} (entries : List α) (next : α → State) {n : ℕ}
    (hn : parseUsize input.toList = some n) (hlow : 1 ≤ n) (hhigh : n ≤ entries.length) :
    ∃ entry, select input entries next = setScreen (next entry) := by
  have hlt : n - 1 < entries.length := by omega
  refine ⟨entries[n - 1], ?_⟩
  unfold select
  rw [hn]
  dsimp only
  rw [if_pos hlow, List.getElem?_eq_getElem hlt]

end Programs

/-- The handler takes one of its command branches: it says nothing else than that, does not panic by
itself, and sets the next screen. -/
structure TakesCommand (env : Env) (shown : Shown) (input : String) : Prop where
  fine : Fine (shown.handle env input)
  sets : Sets (shown.handle env input)

theorem takesCommand_of_setScreen {env : Env} {shown : Shown} {input : String} (screen : State)
    (h : shown.handle env input = setScreen screen) : TakesCommand env shown input :=
  ⟨h ▸ fine_setScreen screen, h ▸ sets_setScreen screen⟩

theorem takesCommand_of_submit {env : Env} {shown : Shown} {input : String} (item : ItemInterface)
    (listId : Uuid) (afterError : State)
    (h : shown.handle env input = submit env item listId afterError) : TakesCommand env shown input :=
  ⟨h ▸ fine_submit _ _ _ _, h ▸ sets_submit _ _ _ _⟩

theorem takesCommand_of_build {env : Env} {shown : Shown} {input : String} (listId : Uuid)
    (afterError : State)
    (h : shown.handle env input = (buildItem >>= fun item => submit env item listId afterError)) :
    TakesCommand env shown input :=
  ⟨h ▸ fine_buildItem.bind fun _ _ _ => fine_submit _ _ _ _,
    h ▸ Sets.bind fun _ _ _ => sets_submit _ _ _ _⟩

/-- The line is an `a` with a number that no `usize` holds. -/
def Shown.Overflows (input : String) : Shown → Prop
  | itemEdit _ _ => ∃ rest, input.toList = 'a' :: rest ∧ 2 ^ 64 ≤ decimal rest
  | _ => False

/-- **The screens of lists take every valid line for a command.** -/
theorem takesCommand_mainMenu (env : Env) {lists : List Uuid} {input : String}
    (hvalid : isValid input (Shown.mainMenu lists).rules = true) :
    TakesCommand env (.mainMenu lists) input := by
  by_cases hq : input = "q"
  · exact takesCommand_of_setScreen .exit (show handleMainMenu env input lists = _ from if_pos hq)
  by_cases hc : input = "c"
  · refine takesCommand_of_setScreen (.listCreate env.newUuid) ?_
    change handleMainMenu env input lists = _
    rw [handleMainMenu, if_neg hq, if_pos hc]
  by_cases ha : input = "a"
  · have hhandle : (Shown.mainMenu lists).handle env input =
        (readValidatedInput [.custom fun input => (env.parseStr input).isSome] >>= fun id =>
          match env.parseStr id with
          | some uuid => setScreen (.listEdit uuid)
          | none => stop .expect) := by
      change handleMainMenu env input lists = _
      rw [handleMainMenu, if_neg hq, if_neg hc, if_pos ha]
    have hparse : ∀ (id : String) (t : Terminal),
        (readValidatedInput [.custom fun input => (env.parseStr input).isSome] t).1 = .ok id →
          ∃ uuid, env.parseStr id = some uuid := by
      intro id t h
      have hid := valid_of_readValidatedInput h
      simpa [isValid, InputRule.accepts, Option.isSome_iff_exists] using hid
    refine ⟨hhandle ▸ (fine_readValidatedInput _).bind fun id t h => ?_,
      hhandle ▸ Sets.bind fun id t h => ?_⟩
    · obtain ⟨uuid, huuid⟩ := hparse id t h
      rw [huuid]
      exact fine_setScreen _
    · obtain ⟨uuid, huuid⟩ := hparse id t h
      rw [huuid]
      exact sets_setScreen _
  rcases number_of_valid hvalid with hmem | ⟨n, hn, hlow, hhigh⟩
  · simp [hq, hc, ha] at hmem
  · obtain ⟨list, hselect⟩ := select_of_number lists .listEdit hn hlow hhigh
    refine takesCommand_of_setScreen (.listEdit list) ?_
    change handleMainMenu env input lists = _
    rw [handleMainMenu, if_neg hq, if_neg hc, if_neg ha, hselect]

theorem takesCommand_listCreate (env : Env) {listId : Uuid} {input : String}
    (hvalid : isValid input (Shown.listCreate listId).rules = true) :
    TakesCommand env (.listCreate listId) input := by
  have hmem : input = "q" ∨ input = "b" ∨ input = "a" := by
    simpa [isValid, InputRule.accepts, Shown.rules] using hvalid
  by_cases hq : input = "q"
  · exact takesCommand_of_setScreen .exit (show handleNewlistEdit env input listId = _ from if_pos hq)
  by_cases hb : input = "b"
  · refine takesCommand_of_setScreen .mainMenu ?_
    change handleNewlistEdit env input listId = _
    rw [handleNewlistEdit, if_neg hq, if_pos hb]
  · refine takesCommand_of_build listId (.listCreate listId) ?_
    change handleNewlistEdit env input listId = _
    rw [handleNewlistEdit, if_neg hq, if_neg hb, if_pos ((hmem.resolve_left hq).resolve_left hb)]

theorem takesCommand_listEdit (env : Env) {items : List ItemInterface} {listId : Uuid} {input : String}
    (hvalid : isValid input (Shown.listEdit items listId).rules = true) :
    TakesCommand env (.listEdit items listId) input := by
  by_cases hq : input = "q"
  · exact takesCommand_of_setScreen .exit (show handleListEdit env input items listId = _ from if_pos hq)
  by_cases hb : input = "b"
  · refine takesCommand_of_setScreen .mainMenu ?_
    change handleListEdit env input items listId = _
    rw [handleListEdit, if_neg hq, if_pos hb]
  by_cases hr : input = "r"
  · refine takesCommand_of_setScreen (.listEdit listId) ?_
    change handleListEdit env input items listId = _
    rw [handleListEdit, if_neg hq, if_neg hb, if_pos hr]
  by_cases ha : input = "a"
  · refine takesCommand_of_build listId (.listEdit listId) ?_
    change handleListEdit env input items listId = _
    rw [handleListEdit, if_neg hq, if_neg hb, if_neg hr, if_pos ha]
  rcases number_of_valid hvalid with hmem | ⟨n, hn, hlow, hhigh⟩
  · simp [hq, hb, hr, ha] at hmem
  · -- no rule lets the `d` of the deletion that is not there pass
    have hd : input ≠ "d" := by
      rintro rfl
      simp [parseUsize, parseU64, parseDigits, toDigit] at hn
    obtain ⟨item, hselect⟩ := select_of_number items (.itemEdit listId) hn hlow hhigh
    refine takesCommand_of_setScreen (.itemEdit listId item) ?_
    change handleListEdit env input items listId = _
    rw [handleListEdit, if_neg hq, if_neg hb, if_neg hr, if_neg ha, if_neg hd, hselect]

/-- What passes on the screen of an item. -/
theorem itemEdit_of_valid {item : ItemInterface} {listId : Uuid} {input : String}
    (h : isValid input (Shown.itemEdit item listId).rules = true) :
    (input = "q" ∨ input = "d" ∨ input = "b") ∨ ∃ rest, input.toList = 'a' :: rest ∧
      rest.isEmpty = false ∧ rest.all Char.isDigit = true := by
  unfold isValid at h
  simp only [Shown.rules, List.any_cons, List.any_nil, Bool.or_false, Bool.or_eq_true] at h
  rcases h with h | h
  · left
    simpa using List.contains_iff_mem.1 h
  · right
    unfold InputRule.accepts at h
    dsimp only at h
    split at h
    · rename_i rest hinput
      rw [Bool.and_eq_true, Bool.not_eq_true'] at h
      exact ⟨rest, hinput, h.1, h.2⟩
    · cases h

/-- **The screen of an item takes a valid line for a command unless its number is too large.** -/
theorem takesCommand_itemEdit_iff (env : Env) {item : ItemInterface} {listId : Uuid} {input : String}
    (hvalid : isValid input (Shown.itemEdit item listId).rules = true) :
    TakesCommand env (.itemEdit item listId) input ↔
      ¬ (Shown.itemEdit item listId).Overflows input := by
  rcases itemEdit_of_valid hvalid with hmem | ⟨rest, hinput, hne, hdigits⟩
  · have hnot : ¬ (Shown.itemEdit item listId).Overflows input := by
      rintro ⟨rest, hinput, -⟩
      rcases hmem with rfl | rfl | rfl <;> simp at hinput
    refine iff_of_true ?_ hnot
    rcases hmem with rfl | rfl | rfl
    · exact takesCommand_of_setScreen .exit rfl
    · exact takesCommand_of_submit { item with acquired := !item.acquired } listId (.listEdit listId)
        rfl
    · exact takesCommand_of_setScreen (.listEdit listId) rfl
  · have hother : input ≠ "q" ∧ input ≠ "b" ∧ input ≠ "d" := by
      refine ⟨?_, ?_, ?_⟩ <;> rintro rfl <;> simp at hinput
    have hhandle : (Shown.itemEdit item listId).handle env input =
        (match parseUsize rest with
        | some amount =>
          if amount < 1 then do
            println .invalidAmount
            readLine
            setScreen (.listEdit listId)
          else submit env { item with amount } listId (.listEdit listId)
        | none => do
          println (.invalidInput input)
          println (.invalidInput input)) := by
      change handleItemEdit env input item listId = _
      rw [handleItemEdit, if_neg hother.1, if_neg hother.2.1, if_neg hother.2.2, hinput]
      rfl
    have hoverflows : (Shown.itemEdit item listId).Overflows input ↔ ¬ decimal rest < 2 ^ 64 := by
      unfold Shown.Overflows
      simp [hinput]
    rw [hoverflows, not_not]
    rw [parseUsize_of_digits hne hdigits] at hhandle
    by_cases hlt : decimal rest < 2 ^ 64
    · refine iff_of_true ?_ hlt
      rw [if_pos hlt] at hhandle
      dsimp only at hhandle
      by_cases hzero : decimal rest < 1
      · rw [if_pos hzero] at hhandle
        exact ⟨hhandle ▸ (fine_println rfl).bind fun _ _ _ => fine_readLine.bind fun _ _ _ =>
            fine_setScreen _,
          hhandle ▸ Sets.bind fun _ _ _ => Sets.bind fun _ _ _ => sets_setScreen _⟩
      · rw [if_neg hzero] at hhandle
        exact takesCommand_of_submit _ _ _ hhandle
    · refine iff_of_false (fun h => ?_) hlt
      rw [if_neg hlt] at hhandle
      have hfine := h.fine
      rw [hhandle] at hfine
      obtain ⟨new, hnew, hfinal⟩ := hfine.prints ⟨none, .calm .empty, [], []⟩
      have hprinted : new = [.invalidInput input, .invalidInput input] := hnew.symm
      have hbad := hfinal (.invalidInput input) (by rw [hprinted]; exact List.mem_cons_self)
      cases hbad

theorem sets_prompt (env : Env) {shown : Shown}
    (h : ∀ input, isValid input shown.rules = true → TakesCommand env shown input) :
    Sets (shown.prompt env) :=
  Sets.bind fun input _ hread => (h input (valid_of_readValidatedInput hread)).sets

/-- **Apart from the screen of an item, each screen sets the next one** where it ends. -/
theorem sets_render (env : Env) {t : Terminal} (hexit : t.screen ≠ some .exit)
    (hitem : ∀ listId item, t.screen ≠ some (.itemEdit listId item))
    (h : (render env t).1 = .ok ()) : (render env t).2.screen.isSome = true := by
  have hmain : Sets (printLists env >>= fun lists => Shown.prompt env (.mainMenu lists)) :=
    Sets.bind fun _ _ _ => sets_prompt env fun _ => takesCommand_mainMenu env
  obtain ⟨screen, conn, stdin, printed⟩ := t
  cases screen with
  | none => exact hmain _ h
  | some screen =>
    cases screen with
    | mainMenu => exact hmain _ h
    | exit => exact absurd rfl hexit
    | itemEdit listId item => exact absurd rfl (hitem listId item)
    | listCreate listId =>
      have hcreate : Sets (Shown.prompt env (.listCreate listId)) :=
        sets_prompt env fun _ => takesCommand_listCreate env
      exact hcreate _ h
    | listEdit listId =>
      refine Sets.bind (p := call (Client.retrieveList env.clientId env.viewing listId))
        (fun answer _ _ => ?_) ⟨none, conn, stdin, printed⟩ h
      cases answer with
      | ok list => exact sets_prompt env fun _ => takesCommand_listEdit env
      | error e =>
        -- the menu is set before the line is read
        intro t _
        change (readLine _).2.screen.isSome = true
        unfold readLine
        split <;> rfl

/-- **When validators and command handlers agree.** -/
theorem commands_agree_iff (env : Env) {shown : Shown} {input : String}
    (hvalid : isValid input shown.rules = true) :
    TakesCommand env shown input ↔ ¬ shown.Overflows input := by
  cases shown with
  | mainMenu lists => exact iff_of_true (takesCommand_mainMenu env hvalid) not_false
  | listCreate listId => exact iff_of_true (takesCommand_listCreate env hvalid) not_false
  | listEdit items listId => exact iff_of_true (takesCommand_listEdit env hvalid) not_false
  | itemEdit item listId => exact takesCommand_itemEdit_iff env hvalid

/-- The client 201, with a proxy that does not answer. -/
def quietEnv : Env where
  clientId := ⟨201⟩
  parseStr _ := none
  newUuid := ⟨1⟩
  viewing := ⟨true, true, true, .eagain⟩
  sending := ⟨true, true, true, .eagain⟩

theorem commands_agree_iff_five :
    TakesCommand quietEnv (.itemEdit ⟨"milk", 2, false⟩ ⟨101⟩) "a5" ↔
      ¬ (Shown.itemEdit ⟨"milk", 2, false⟩ ⟨101⟩).Overflows "a5" :=
  commands_agree_iff quietEnv (by decide +kernel)

/-- The first number that is too large passes `is_valid`, and falls back to the main menu. -/
theorem large_amount_falls_back :
    let shown := Shown.itemEdit ⟨"milk", 2, false⟩ ⟨101⟩
    let input := "a18446744073709551616"
    isValid input shown.rules = true ∧
      ((shown.handle quietEnv input ⟨none, .calm .empty, [], []⟩).2.screen = none ∧
        (shown.handle quietEnv input ⟨none, .calm .empty, [], []⟩).2.printed =
          [.invalidInput input, .invalidInput input]) ∧
      ¬ TakesCommand quietEnv shown input := by
  have hscreen : ((Shown.itemEdit ⟨"milk", 2, false⟩ ⟨101⟩).handle quietEnv "a18446744073709551616"
      ⟨none, .calm .empty, [], []⟩).2.screen = none := by decide +kernel
  refine ⟨by decide +kernel, ⟨hscreen, by decide +kernel⟩, fun h => ?_⟩
  have hset := h.sets ⟨none, .calm .empty, [], []⟩ (by decide +kernel)
  rw [hscreen] at hset
  cases hset

end Cli

end Sdle
