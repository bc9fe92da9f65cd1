import Mathlib.Logic.Basic

/-!
# Calls on a database connection

A `Call` runs on a connection and returns, returns an error or panics.  The connection carries,
besides the database, the faults to come: for each statement the error, if any, with which it
fails.  A call is kept together with the law that connects it to the undisturbed database: a run
that returns does what it does when no statement fails, so that one fault-free meaning
(`Call.Returns`) says what every successful run does.

* `returns_bind`, `returns_query`, `returns_stmt`, `returns_transaction`, `returns_forM_cons` — the
  fault-free meaning of each way to build a call.
* `returns_of_run` — **a run that returns has the fault-free meaning**, whatever the faults.
* `SameFrom` — calls that end in the same way from two databases, by the form of the call.
* `ReadOnly`, `Atomic` — calls that never change the database, and calls that leave it alone unless
  they return; `atomic_transaction`, `ReadOnly.bind_atomic`.
-/

set_option autoImplicit false

namespace Sql

variable {σ ε α β : Type}

/-- How a call ends. -/
inductive Outcome (ε α : Type) where
  | ok (a : α)
  | err (e : ε)
  | panic
  deriving DecidableEq

namespace Outcome

/-- The value of a fallible computation, or its error. -/
def ofExcept : Except ε α → Outcome ε α
  | .ok a => .ok a
  | .error e => .err e

theorem ofExcept_eq_ok {x : Except ε α} {a : α} : ofExcept x = .ok a ↔ x = .ok a := by
  cases x <;> simp [ofExcept]

end Outcome

/-- A connection: the database, and the faults of the statements to come, outside a transaction
(`reads`) and as part of one (`writes`). -/
structure Conn (σ ε : Type) where
  db : σ
  reads : List (Option ε)
  writes : List (Option ε)

namespace Conn

/-- A connection on which no statement fails. -/
def calm (db : σ) : Conn σ ε := ⟨db, [], []⟩

/-- The connection after one more statement outside a transaction. -/
def spendRead (c : Conn σ ε) : Conn σ ε := { c with reads := c.reads.tail }

/-- The connection after one more statement of a transaction. -/
def spendWrite (c : Conn σ ε) : Conn σ ε := { c with writes := c.writes.tail }

end Conn

/-- A call on a connection.  Without faults it leaves none behind, and where it returns it does
what it does without faults. -/
structure Call (σ ε α : Type) where
  run : Conn σ ε → Outcome ε α × Conn σ ε
  calm : ∀ db, (run (.calm db)).2 = .calm (run (.calm db)).2.db
  sound : ∀ c a c', run c = (.ok a, c') → run (.calm c.db) = (.ok a, .calm c'.db)

namespace Call

/-- Without faults, a run ends with some outcome and some database. -/
theorem run_calm (p : Call σ ε α) (db : σ) : ∃ r db', p.run (.calm db) = (r, .calm db') :=
  ⟨_, _, Prod.ext rfl (p.calm db)⟩

/-- A call that does not look at the connection. -/
def lift (r : Outcome ε α) : Call σ ε α where
  run c := (r, c)
  calm _ := rfl
  sound c a c' h := by
    obtain ⟨rfl, rfl⟩ := Prod.mk.inj h
    rfl

/-- Return an error. -/
def fail (e : ε) : Call σ ε α := lift (.err e)

/-- The value of a computation that panics where it has none. -/
def orPanic : Option α → Call σ ε α
  | some a => lift (.ok a)
  | none => lift .panic

/-- Go on with the result. -/
def andThen (f : α → Call σ ε β) : Outcome ε α × Conn σ ε → Outcome ε β × Conn σ ε
  | (.ok a, c) => (f a).run c
  | (.err e, c) => (.err e, c)
  | (.panic, c) => (.panic, c)

/-- One call after another, unless the first ends without a result. -/
protected def bind (p : Call σ ε α) (f : α → Call σ ε β) : Call σ ε β where
  run c := andThen f (p.run c)
  calm db := by
    obtain ⟨r, db', hrun⟩ := p.run_calm db
    rw [hrun]
    cases r with
    | ok a => exact (f a).calm db'
    | err e => rfl
    | panic => rfl
  sound c b c'' h := by
    rcases hrun : p.run c with ⟨a | e | _, c'⟩ <;> rw [hrun] at h
    · rw [p.sound c a c' hrun]
      exact (f a).sound c' b c'' h
    · cases h
    · cases h

instance : Monad (Call σ ε) where
  pure a := lift (.ok a)
  bind := Call.bind

/-- A query outside a transaction. -/
def query (q : σ → Except ε α) : Call σ ε α where
  run c :=
    match c.reads.head?.join with
    | some e => (.err e, c.spendRead)
    | none => (.ofExcept (q c.db), c.spendRead)
  calm _ := rfl
  sound c a c' h := by
    split at h
    · cases h
    · obtain ⟨hq, rfl⟩ := Prod.mk.inj h
      exact Prod.ext hq rfl

/-- A statement of a transaction. -/
def stmt (s : σ → Except ε (α × σ)) : Call σ ε α where
  run c :=
    match c.writes.head?.join with
    | some e => (.err e, c.spendWrite)
    | none =>
      match s c.db with
      | .ok (a, db) => (.ok a, { c.spendWrite with db })
      | .error e => (.err e, c.spendWrite)
  calm db := by
    dsimp only [Conn.calm, List.head?_nil, Option.join_none]
    split <;> rfl
  sound c a c' h := by
    split at h
    · cases h
    · split at h
      · rename_i db hs
        obtain ⟨ha, rfl⟩ := Prod.mk.inj h
        cases ha
        dsimp only [Conn.calm, List.head?_nil, Option.join_none]
        rw [hs]
        rfl
      · cases h

/-- The statements of `p` between `BEGIN` and `COMMIT`, or, where one of these fails or `p` does not
return, a rollback. -/
def transaction (p : Call σ ε α) : Call σ ε α where
  run c :=
    match c.writes.head?.join with
    | some e => (.err e, c.spendWrite)
    | none =>
      match p.run c.spendWrite with
      | (.ok a, c') =>
        match c'.writes.head?.join with
        | some e => (.err e, { c'.spendWrite with db := c.db })
        | none => (.ok a, c'.spendWrite)
      | (.err e, c') => (.err e, { c' with db := c.db })
      | (.panic, c') => (.panic, { c' with db := c.db })
  calm db := by
    have hspend : (Conn.calm db : Conn σ ε).spendWrite = .calm db := rfl
    have hhead : (Conn.calm db : Conn σ ε).writes.head?.join = none := rfl
    obtain ⟨r, db', hrun⟩ := p.run_calm db
    dsimp only
    rw [hhead, hspend, hrun]
    cases r <;> rfl
  sound c a c'' h := by
    have hspend : (Conn.calm c.db : Conn σ ε).spendWrite = .calm c.db := rfl
    have hhead : (Conn.calm c.db : Conn σ ε).writes.head?.join = none := rfl
    rw [hhead, hspend]
    split at h
    · cases h
    · split at h
      · rename_i b c' hrun
        split at h
        · cases h
        · obtain ⟨ha, rfl⟩ := Prod.mk.inj h
          cases ha
          have hcalm : p.run (.calm c.db) = _ := p.sound c.spendWrite _ _ hrun
          rw [hcalm]
          rfl
      · cases h
      · cases h

/-! ## The fault-free meaning -/

/-- Without faults the call returns `a` and leaves the database `db'`. -/
def Returns (p : Call σ ε α) (db : σ) (a : α) (db' : σ) : Prop :=
  p.run (.calm db) = (.ok a, .calm db')

/-- **A run that returns has the fault-free meaning.** -/
theorem returns_of_run {p : Call σ ε α} {c c' : Conn σ ε} {a : α} (h : p.run c = (.ok a, c')) :
    p.Returns c.db a c'.db :=
  p.sound c a c' h

theorem Returns.unique {p : Call σ ε α} {db db₁ db₂ : σ} {a b : α} (h₁ : p.Returns db a db₁)
    (h₂ : p.Returns db b db₂) : a = b ∧ db₁ = db₂ := by
  have h := h₁.symm.trans h₂
  obtain ⟨ha, hc⟩ := Prod.mk.inj h
  exact ⟨Outcome.ok.inj ha, congrArg Conn.db hc⟩

theorem returns_lift {r : Outcome ε α} {db db' : σ} {a : α} :
    (lift r : Call σ ε α).Returns db a db' ↔ r = .ok a ∧ db' = db := by
  unfold Returns lift
  constructor
  · intro h
    obtain ⟨hr, hc⟩ := Prod.mk.inj h
    exact ⟨hr, (congrArg Conn.db hc).symm⟩
  · rintro ⟨rfl, rfl⟩
    rfl

@[simp] theorem returns_pure {a b : α} {db db' : σ} :
    (pure a : Call σ ε α).Returns db b db' ↔ b = a ∧ db' = db := by
  refine returns_lift.trans (and_congr_left' ⟨fun h => ?_, fun h => ?_⟩)
  · exact (Outcome.ok.inj h).symm
  · rw [h]

@[simp] theorem not_returns_fail {e : ε} {a : α} {db db' : σ} :
    ¬ (fail e : Call σ ε α).Returns db a db' := by
  intro h
  exact nomatch (returns_lift.1 h).1

@[simp] theorem returns_orPanic {x : Option α} {a : α} {db db' : σ} :
    (orPanic x : Call σ ε α).Returns db a db' ↔ x = some a ∧ db' = db := by
  cases x with
  | none =>
    refine ⟨fun h => ?_, fun h => ?_⟩
    · exact nomatch (returns_lift.1 h).1
    · exact nomatch h.1
  | some b => exact returns_pure.trans (and_congr_left' ⟨fun h => by rw [h], fun h =>
      (Option.some.inj h).symm⟩)

@[simp] theorem returns_query {q : σ → Except ε α} {a : α} {db db' : σ} :
    (query q).Returns db a db' ↔ q db = .ok a ∧ db' = db := by
  unfold Returns query
  constructor
  · intro h
    obtain ⟨hq, hc⟩ := Prod.mk.inj h
    exact ⟨Outcome.ofExcept_eq_ok.1 hq, (congrArg Conn.db hc).symm⟩
  · rintro ⟨hq, rfl⟩
    exact Prod.ext (Outcome.ofExcept_eq_ok.2 hq) rfl

@[simp] theorem returns_stmt {s : σ → Except ε (α × σ)} {a : α} {db db' : σ} :
    (stmt s).Returns db a db' ↔ s db = .ok (a, db') := by
  unfold Returns stmt
  dsimp only [Conn.calm, List.head?_nil, Option.join_none]
  constructor
  · intro h
    split at h
    · rename_i hs
      obtain ⟨ha, hc⟩ := Prod.mk.inj h
      have hdb := congrArg Conn.db hc
      dsimp only at hdb
      rw [hs, Outcome.ok.inj ha, hdb]
    · cases h
  · intro h
    rw [h]
    rfl

theorem returns_bind {p : Call σ ε α} {f : α → Call σ ε β} {b : β} {db db'' : σ} :
    (p >>= f).Returns db b db'' ↔ ∃ a db', p.Returns db a db' ∧ (f a).Returns db' b db'' := by
  constructor
  · intro h
    obtain ⟨r, db', hrun⟩ := p.run_calm db
    change andThen f (p.run (.calm db)) = _ at h
    rw [hrun] at h
    cases r with
    | ok a => exact ⟨a, db', hrun, h⟩
    | err e => cases h
    | panic => cases h
  · rintro ⟨a, db', hp, hf⟩
    change andThen f (p.run (.calm db)) = _
    rw [hp]
    exact hf

@[simp] theorem returns_transaction {p : Call σ ε α} {a : α} {db db' : σ} :
    p.transaction.Returns db a db' ↔ p.Returns db a db' := by
  have hspend : (Conn.calm db : Conn σ ε).spendWrite = .calm db := rfl
  have hhead : (Conn.calm db : Conn σ ε).writes.head?.join = none := rfl
  obtain ⟨r, db₁, hrun⟩ := p.run_calm db
  unfold Returns transaction
  dsimp only
  rw [hhead, hspend, hrun]
  cases r with
  | ok b => exact Iff.rfl
  | err e => simp
  | panic => simp

@[simp] theorem returns_forM_nil {γ : Type} {f : γ → Call σ ε PUnit} {db db' : σ} {u : PUnit} :
    (forM [] f).Returns db u db' ↔ db' = db := by
  simp

theorem returns_forM_cons {γ : Type} {f : γ → Call σ ε PUnit} {x : γ} {xs : List γ} {db db'' : σ}
    {u : PUnit} :
    (forM (x :: xs) f).Returns db u db'' ↔
      ∃ db', (f x).Returns db ⟨⟩ db' ∧ (forM xs f).Returns db' u db'' := by
  rw [List.forM_cons, returns_bind]
  constructor
  · rintro ⟨⟨⟩, db', hx, hxs⟩
    exact ⟨db', hx, hxs⟩
  · rintro ⟨db', hx, hxs⟩
    exact ⟨⟨⟩, db', hx, hxs⟩

/-- The rule that a loop returns.  `P` speaks of the rounds still to come. -/
theorem forM_returns {γ : Type} {f : γ → Call σ ε PUnit} (P : List γ → σ → Prop)
    (step : ∀ x xs db, P (x :: xs) db → ∃ db', (f x).Returns db ⟨⟩ db' ∧ P xs db') :
    ∀ xs db, P xs db → ∃ db', (forM xs f).Returns db ⟨⟩ db' ∧ P [] db' := by
  intro xs
  induction xs with
  | nil =>
    intro db hP
    exact ⟨db, returns_forM_nil.2 rfl, hP⟩
  | cons x xs ih =>
    intro db hP
    obtain ⟨db', hx, hP'⟩ := step x xs db hP
    obtain ⟨db'', hxs, hP''⟩ := ih db' hP'
    exact ⟨db'', returns_forM_cons.2 ⟨db', hx, hxs⟩, hP''⟩

/-! ## What calls keep -/

section Keeps

variable {τ : Type} {g : σ → τ}

/-- A call that returns leaves this part of the store as it is. -/
def Keeps (p : Call σ ε α) (g : σ → τ) : Prop := ∀ db a db', p.Returns db a db' → g db' = g db

theorem keeps_pure (a : α) : (pure a : Call σ ε α).Keeps g := by
  intro db b db' h
  rw [(returns_pure.1 h).2]

theorem keeps_stmt {s : σ → Except ε (α × σ)} (h : ∀ db a db', s db = .ok (a, db') → g db' = g db) :
    (stmt s).Keeps g :=
  fun db a db' hs => h db a db' (returns_stmt.1 hs)

theorem Keeps.bind {p : Call σ ε α} {f : α → Call σ ε β} (hp : p.Keeps g) (hf : ∀ a, (f a).Keeps g) :
    (p >>= f).Keeps g := by
  intro db b db'' h
  obtain ⟨a, db', hfirst, hrest⟩ := returns_bind.1 h
  exact (hf a db' b db'' hrest).trans (hp db a db' hfirst)

theorem Keeps.transaction {p : Call σ ε α} (hp : p.Keeps g) : p.transaction.Keeps g :=
  fun db a db' h => hp db a db' (returns_transaction.1 h)

/-- A loop keeps what each of its rounds keeps. -/
theorem keeps_forM {γ : Type} {f : γ → Call σ ε PUnit} (hf : ∀ x, (f x).Keeps g) :
    ∀ xs : List γ, (forM xs f).Keeps g
  | [] => keeps_pure _
  | x :: xs => by
    rw [List.forM_cons]
    exact (hf x).bind fun _ => keeps_forM hf xs

end Keeps

/-! ## Calls that do not panic -/

/-- The call ends with a result or an error. -/
def NoPanic (p : Call σ ε α) : Prop := ∀ c, (p.run c).1 ≠ .panic

theorem noPanic_pure (a : α) : (pure a : Call σ ε α).NoPanic := fun _ => nofun

theorem noPanic_query (q : σ → Except ε α) : (query q).NoPanic := by
  intro c
  unfold query
  dsimp only
  split
  · exact nofun
  · cases q c.db <;> exact nofun

theorem noPanic_stmt (s : σ → Except ε (α × σ)) : (stmt s).NoPanic := by
  intro c
  unfold stmt
  dsimp only
  split
  · exact nofun
  · split <;> exact nofun

/-- One call after another, from one connection. -/
theorem run_bind_ne_panic {p : Call σ ε α} {f : α → Call σ ε β} {c : Conn σ ε}
    (hp : (p.run c).1 ≠ .panic)
    (hf : ∀ a c', p.run c = (.ok a, c') → ((f a).run c').1 ≠ .panic) :
    ((p >>= f).run c).1 ≠ .panic := by
  change (andThen f (p.run c)).1 ≠ .panic
  rcases hrun : p.run c with ⟨a | e | _, c'⟩
  · exact hf a c' hrun
  · exact nofun
  · rw [hrun] at hp
    exact absurd rfl hp

theorem NoPanic.bind {p : Call σ ε α} {f : α → Call σ ε β} (hp : p.NoPanic)
    (hf : ∀ a, (f a).NoPanic) : (p >>= f).NoPanic :=
  fun c => run_bind_ne_panic (hp c) fun a c' _ => hf a c'

theorem NoPanic.transaction {p : Call σ ε α} (hp : p.NoPanic) : p.transaction.NoPanic := by
  intro c
  unfold Call.transaction
  dsimp only
  split
  · exact nofun
  · have hbody := hp c.spendWrite
    split
    · split <;> exact nofun
    · exact nofun
    · rename_i hrun
      rw [hrun] at hbody
      exact absurd rfl hbody

theorem noPanic_forM {γ : Type} {f : γ → Call σ ε PUnit} (hf : ∀ x, (f x).NoPanic) :
    ∀ xs : List γ, (forM xs f).NoPanic
  | [] => noPanic_pure _
  | x :: xs => by
    rw [List.forM_cons]
    exact (hf x).bind fun _ => noPanic_forM hf xs

/-! ## Calls that only read, and calls that are all or nothing -/

/-- The call never changes the database, and faults of transactions do not touch it. -/
structure ReadOnly (p : Call σ ε α) : Prop where
  keeps : ∀ c, (p.run c).2.db = c.db
  calm : ∀ c, c.reads = [] → p.run c = ((p.run (.calm c.db)).1, c)

/-- Unless the call returns, it leaves the database as it was. -/
def Atomic (p : Call σ ε α) : Prop :=
  ∀ c r c', p.run c = (r, c') → (∀ a, r ≠ .ok a) → c'.db = c.db

theorem readOnly_lift (r : Outcome ε α) : (lift r : Call σ ε α).ReadOnly :=
  ⟨fun _ => rfl, fun _ _ => rfl⟩

theorem readOnly_pure (a : α) : (pure a : Call σ ε α).ReadOnly := readOnly_lift _

theorem readOnly_orPanic (x : Option α) : (orPanic x : Call σ ε α).ReadOnly := by
  cases x <;> exact readOnly_lift _

theorem readOnly_query (q : σ → Except ε α) : (query q).ReadOnly := by
  refine ⟨fun c => ?_, fun c h => ?_⟩
  · unfold query
    dsimp only
    split <;> rfl
  · cases c
    cases h
    rfl

theorem ReadOnly.bind {p : Call σ ε α} {f : α → Call σ ε β} (hp : p.ReadOnly)
    (hf : ∀ a, (f a).ReadOnly) : (p >>= f).ReadOnly := by
  refine ⟨fun c => ?_, fun c h => ?_⟩
  · have hkeep := hp.keeps c
    change (andThen f (p.run c)).2.db = c.db
    rcases hrun : p.run c with ⟨a | e | _, c'⟩ <;> rw [hrun] at hkeep
    · exact ((hf a).keeps c').trans hkeep
    · exact hkeep
    · exact hkeep
  · have hcalm := hp.calm (.calm c.db) rfl
    change andThen f (p.run c) = ((andThen f (p.run (.calm c.db))).1, c)
    rw [hp.calm c h]
    rcases hrun : p.run (.calm c.db) with ⟨a | e | _, c'⟩
    · rw [hrun] at hcalm
      have hc' : c' = .calm c.db := (Prod.mk.inj hcalm).2
      rw [hc']
      exact (hf a).calm c h
    · rfl
    · rfl

theorem ReadOnly.foldlM {γ : Type} {f : α → γ → Call σ ε α} (hf : ∀ a x, (f a x).ReadOnly) :
    ∀ (xs : List γ) (a : α), (xs.foldlM f a).ReadOnly
  | [], a => readOnly_pure a
  | x :: xs, a => by
    rw [List.foldlM_cons]
    exact (hf a x).bind fun b => ReadOnly.foldlM hf xs b

/-- Where only transactions can fail, a call that only reads does what it does without faults. -/
theorem ReadOnly.run_of_returns {p : Call σ ε α} (hp : p.ReadOnly) {c : Conn σ ε} {a : α} {db' : σ}
    (hc : c.reads = []) (h : p.Returns c.db a db') : p.run c = (.ok a, c) := by
  rw [hp.calm c hc, show p.run (.calm c.db) = (.ok a, .calm db') from h]

theorem ReadOnly.bind_atomic {p : Call σ ε α} {f : α → Call σ ε β} (hp : p.ReadOnly)
    (hf : ∀ a, (f a).Atomic) : (p >>= f).Atomic := by
  intro c r c'' h hr
  have hkeep := hp.keeps c
  change andThen f (p.run c) = _ at h
  rcases hrun : p.run c with ⟨a | e | _, c'⟩ <;> rw [hrun] at h hkeep
  · exact (hf a c' r c'' h hr).trans hkeep
  · obtain ⟨-, rfl⟩ := Prod.mk.inj h
    exact hkeep
  · obtain ⟨-, rfl⟩ := Prod.mk.inj h
    exact hkeep

/-- Without faults the call ends in the same way from both databases. -/
def SameFrom (p : Call σ ε α) (db db' : σ) : Prop := (p.run (.calm db')).1 = (p.run (.calm db)).1

theorem sameFrom_lift (r : Outcome ε α) (db db' : σ) : (lift r : Call σ ε α).SameFrom db db' := rfl

theorem sameFrom_query {q : σ → Except ε α} {db db' : σ} (h : q db' = q db) :
    (query q).SameFrom db db' := congrArg Outcome.ofExcept h

theorem SameFrom.bind {p : Call σ ε α} {f : α → Call σ ε β} {db db' : σ} (hp : p.ReadOnly)
    (h : p.SameFrom db db') (hf : ∀ a, (f a).SameFrom db db') : (p >>= f).SameFrom db db' := by
  have hrun : ∀ db, p.run (.calm db) = ((p.run (.calm db)).1, .calm db) :=
    fun db => hp.calm (.calm db) rfl
  have hfirst : (p.run (.calm db')).1 = (p.run (.calm db)).1 := h
  change (andThen f (p.run (.calm db'))).1 = (andThen f (p.run (.calm db))).1
  rw [hrun db', hrun db, hfirst]
  cases (p.run (.calm db)).1 with
  | ok a => exact hf a
  | err e => rfl
  | panic => rfl

theorem SameFrom.foldlM {γ : Type} {f : α → γ → Call σ ε α} {db db' : σ}
    (hread : ∀ a x, (f a x).ReadOnly) (hf : ∀ a x, (f a x).SameFrom db db') :
    ∀ (xs : List γ) (a : α), (xs.foldlM f a).SameFrom db db'
  | [], _ => rfl
  | x :: xs, a => by
    rw [List.foldlM_cons]
    exact SameFrom.bind (hread a x) (hf a x) fun b => SameFrom.foldlM hread hf xs b

/-- What ends a call early ends it whatever was to follow. -/
theorem andThen_fst_of_ne_ok {f : α → Call σ ε β} {x y : Outcome ε α × Conn σ ε} (h : x.1 = y.1)
    (hne : ∀ a, x.1 ≠ .ok a) : (andThen f x).1 = (andThen f y).1 := by
  obtain ⟨r, c⟩ := x
  obtain ⟨r', c'⟩ := y
  obtain rfl : r = r' := h
  cases r with
  | ok a => exact absurd rfl (hne a)
  | err e => rfl
  | panic => rfl

/-- A loop that ends early does not get to the rounds that follow. -/
theorem run_foldlM_append {γ : Type} {f : α → γ → Call σ ε α} {ys : List γ} {c : Conn σ ε} :
    ∀ (xs : List γ) (a : α), (∀ b, ((xs.foldlM f a).run c).1 ≠ .ok b) →
      ((xs ++ ys).foldlM f a).run c = (xs.foldlM f a).run c := by
  intro xs
  induction xs generalizing c with
  | nil => exact fun a h => absurd rfl (h a)
  | cons x xs ih =>
    intro a h
    rw [List.foldlM_cons] at h
    rw [List.cons_append, List.foldlM_cons, List.foldlM_cons]
    change andThen _ ((f a x).run c) = andThen _ ((f a x).run c)
    replace h : ∀ b, (andThen (fun a => xs.foldlM f a) ((f a x).run c)).1 ≠ .ok b := h
    rcases hround : (f a x).run c with ⟨b | e | _, c₁⟩ <;> rw [hround] at h
    · exact ih b h
    · rfl
    · rfl

/-- A transaction happens as a whole or not at all. -/
theorem atomic_transaction (p : Call σ ε α) : p.transaction.Atomic := by
  intro c r c'' h hr
  unfold transaction at h
  dsimp only at h
  split at h
  · obtain ⟨-, rfl⟩ := Prod.mk.inj h
    rfl
  · split at h
    · split at h
      · obtain ⟨-, rfl⟩ := Prod.mk.inj h
        rfl
      · obtain ⟨rfl, -⟩ := Prod.mk.inj h
        exact absurd rfl (hr _)
    · obtain ⟨-, rfl⟩ := Prod.mk.inj h
      rfl
    · obtain ⟨-, rfl⟩ := Prod.mk.inj h
      rfl

/-- A transaction of one statement that the database accepts returns unless `BEGIN`, the statement
or `COMMIT` fails. -/
theorem transaction_stmt_ok_iff {s : σ → Except ε (α × σ)} {c : Conn σ ε} {a : α} {db : σ}
    (hs : s c.db = .ok (a, db)) :
    (∃ c', (stmt s).transaction.run c = (.ok a, c')) ↔ ∀ f ∈ c.writes.take 3, f = none := by
  obtain ⟨db₀, reads, writes⟩ := c
  dsimp only at hs
  rcases writes with _ | ⟨_ | e, _ | ⟨_ | e, _ | ⟨_ | e, rest⟩⟩⟩ <;>
    simp [transaction, stmt, hs, Conn.spendWrite]

end Call

end Sql
