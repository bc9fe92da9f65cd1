import Mathlib.Logic.Function.Basic

/-!
# Tasks that interleave operation by operation

A program (`Prog`) is a tree of operations with the continuation of each answer.  A `Machine` says
what an operation does to a shared state when a task performs it, and what can arrive from outside;
a configuration holds the remaining program of every running task.  One step is one operation of
one task, the end of a task, or an arrival; a `Run` is a sequence of steps, labelled by its history
of events with the newest first.

A `Monitor` follows a task on the side: what it may do next, what it may expect to be answered, and
how its phase changes.  `Prog.Obeys` is the check of a program against a monitor; it is a
recursion on the program and composes over `bind` (`obeys_bind`).

* `Run.sound` — **the invariant rule**: when every program obeys the monitor from its start, and a
  global invariant over the phases and the state justifies each expected answer and is kept by each
  allowed operation, then the invariant holds in every configuration of every run.
* `Run.split`, `Run.join`, `Run.append` — a run in two parts; `Run.sound_from` is the rule for the second one.
* `exec_run` — an executable schedule is a run.
* `Prog.wp`, `wp_iff` — the same for one task that runs alone: what all its executions have in
  common; `wp_of_obeys` is its invariant rule.
* `Prog.Ends` — the traces of one task, with any answers; `Only.ends` — which operations occur in them.
* `Prog.Does` — the traces of a task that runs alone, with the states in which it starts and ends.
* `Run.executions` — **what the tasks of a run do are executions of the programs started**.
-/

set_option autoImplicit false

namespace Tasks

/-- The operations of a system, with the type of the answer to each. -/
structure Sig where
  Op : Type
  Ans : Op → Type

/-- A program: a result, or an operation and what to do with its answer. -/
inductive Prog (S : Sig) (α : Type) : Type
  | pure (a : α) : Prog S α
  | op (o : S.Op) (k : S.Ans o → Prog S α) : Prog S α

namespace Prog

variable {S : Sig} {α β γ : Type}

/-- Run `f` on the result. -/
protected def bind : Prog S α → (α → Prog S β) → Prog S β
  | pure a, f => f a
  | op o k, f => op o fun a => (k a).bind f

instance : Monad (Prog S) where
  pure := Prog.pure
  bind := Prog.bind

/-- One operation. -/
def perform (o : S.Op) : Prog S (S.Ans o) := op o pure

end Prog

/-! ## Monitors -/

/-- What each task may do in a phase, what it may expect as an answer, and its next phase. -/
structure Monitor (S : Sig) (T G : Type) where
  allow : T → G → S.Op → Prop
  expect : T → G → (o : S.Op) → S.Ans o → Prop
  next : T → G → (o : S.Op) → S.Ans o → G

namespace Prog

variable {S : Sig} {T G α β : Type}

/-- From phase `g` the program only does what the monitor allows, as long as it is answered what
the monitor expects, and it ends in a phase that has `Q`. -/
def Obeys (M : Monitor S T G) (t : T) (Q : α → G → Prop) : Prog S α → G → Prop
  | .pure a, g => Q a g
  | .op o k, g => M.allow t g o ∧ ∀ a, M.expect t g o a → (k a).Obeys M t Q (M.next t g o a)

variable {M : Monitor S T G} {t : T}

@[simp] theorem obeys_pure {Q : α → G → Prop} {a : α} {g : G} :
    Obeys M t Q (Pure.pure a) g ↔ Q a g := Iff.rfl

@[simp] theorem obeys_op {Q : α → G → Prop} {o : S.Op} {k : S.Ans o → Prog S α} {g : G} :
    Obeys M t Q (.op o k) g ↔
      M.allow t g o ∧ ∀ a, M.expect t g o a → (k a).Obeys M t Q (M.next t g o a) := Iff.rfl

theorem obeys_bind {Q : β → G → Prop} (f : α → Prog S β) :
    ∀ (p : Prog S α) (g : G),
      Obeys M t Q (p >>= f) g ↔ Obeys M t (fun a g' => Obeys M t Q (f a) g') p g
  | .pure _, _ => Iff.rfl
  | .op _ k, _ =>
    and_congr_right fun _ => forall₂_congr fun a _ => obeys_bind f (k a) _

theorem Obeys.mono {Q R : α → G → Prop} (hQR : ∀ a g, Q a g → R a g) :
    ∀ (p : Prog S α) (g : G), Obeys M t Q p g → Obeys M t R p g
  | .pure a, g, h => hQR a g h
  | .op _ k, _, h => ⟨h.1, fun a ha => Obeys.mono hQR (k a) _ (h.2 a ha)⟩

/-- The rule for a call: what the callee ensures is what the rest of the program needs. -/
theorem Obeys.call {Q : β → G → Prop} {R : α → G → Prop} {p : Prog S α} {f : α → Prog S β} {g : G}
    (hp : Obeys M t R p g) (hf : ∀ a g', R a g' → Obeys M t Q (f a) g') :
    Obeys M t Q (p >>= f) g :=
  (obeys_bind f p g).2 (Obeys.mono hf p g hp)

/-- A program that obeys one monitor obeys another that allows no less, as far as a relation between
the phases is kept. -/
theorem Obeys.transfer {H : Type} {N : Monitor S T H} (R : G → H → Prop)
    (hallow : ∀ g h o, R g h → M.allow t g o → N.allow t h o)
    (hnext : ∀ g h o a, R g h → M.allow t g o → N.expect t h o a →
      M.expect t g o a ∧ R (M.next t g o a) (N.next t h o a)) {Q : α → G → Prop} :
    ∀ (p : Prog S α) (g : G) (h : H), R g h → Obeys M t Q p g →
      Obeys N t (fun a h' => ∃ g', R g' h' ∧ Q a g') p h
  | .pure _, g, _, hR, hp => ⟨g, hR, hp⟩
  | .op o k, g, h, hR, hp => by
    refine ⟨hallow g h o hR hp.1, fun a ha => ?_⟩
    obtain ⟨hexp, hnextR⟩ := hnext g h o a hR hp.1 ha
    exact Obeys.transfer R hallow hnext (k a) _ _ hnextR (hp.2 a hexp)

end Prog

/-! ## Machines -/

/-- A system of tasks over a shared state.  `act` is undefined where an operation is blocked or the
choice is none that the environment has. -/
structure Machine (S : Sig) where
  State : Type
  Tid : Type
  Choice : Type
  Arrival : Type
  act : Tid → (o : S.Op) → Choice → State → Option (S.Ans o × State)
  arrive : Arrival → State → Option (Option (Tid × Prog S Unit) × State)

variable {S : Sig} (m : Machine S)

/-- What can happen in a step. -/
inductive Event where
  | did (t : m.Tid) (o : S.Op) (a : S.Ans o)
  | ended (t : m.Tid)
  | arrived (e : m.Arrival)

/-- The running tasks and the shared state. -/
structure Config where
  pool : m.Tid → Option (Prog S Unit)
  state : m.State

variable [DecidableEq m.Tid]

/-- One step.  A task starts only when no task of its name is running. -/
inductive Step : Config m → Event m → Config m → Prop
  | did {pool : m.Tid → Option (Prog S Unit)} {σ σ' : m.State} {t : m.Tid} {o : S.Op}
      {k : S.Ans o → Prog S Unit} {c : m.Choice} {a : S.Ans o} (live : pool t = some (.op o k))
      (act : m.act t o c σ = some (a, σ')) :
      Step ⟨pool, σ⟩ (.did t o a) ⟨Function.update pool t (some (k a)), σ'⟩
  | ended {pool : m.Tid → Option (Prog S Unit)} {σ : m.State} {t : m.Tid}
      (live : pool t = some (.pure ())) :
      Step ⟨pool, σ⟩ (.ended t) ⟨Function.update pool t none, σ⟩
  | arrived {pool : m.Tid → Option (Prog S Unit)} {σ σ' : m.State} {e : m.Arrival}
      (arrive : m.arrive e σ = some (none, σ')) : Step ⟨pool, σ⟩ (.arrived e) ⟨pool, σ'⟩
  | started {pool : m.Tid → Option (Prog S Unit)} {σ σ' : m.State} {e : m.Arrival} {t : m.Tid}
      {p : Prog S Unit} (arrive : m.arrive e σ = some (some (t, p), σ')) (free : pool t = none) :
      Step ⟨pool, σ⟩ (.arrived e) ⟨Function.update pool t (some p), σ'⟩

/-- A condition on the steps of a run: on the history so far, the state and the event. -/
abbrev Discipline := List (Event m) → m.State → Event m → Prop

/-- The runs from a configuration whose steps all meet a condition. -/
inductive Run (D : Discipline m) (c₀ : Config m) : List (Event m) → Config m → Prop
  | init : Run D c₀ [] c₀
  | step {evs : List (Event m)} {ev : Event m} {c c' : Config m} (run : Run D c₀ evs c)
      (disc : D evs c.state ev) (step : Step m c ev c') : Run D c₀ (ev :: evs) c'

variable {m}

/-- No task runs. -/
def quiet (σ : m.State) : Config m := ⟨fun _ => none, σ⟩

/-- **The invariant rule**, from any configuration.  A task that is not running is in the phase `g₀`,
and a task ends in a phase that has `E`. -/
theorem Run.sound_from {G : Type} (M : Monitor S m.Tid G) (g₀ : G) {D : Discipline m}
    (E : m.Tid → G → Prop) (Inv : List (Event m) → (m.Tid → G) → m.State → Prop)
    (hdid : ∀ evs gs σ t o c a σ', Inv evs gs σ → M.allow t (gs t) o →
      m.act t o c σ = some (a, σ') → D evs σ (.did t o a) →
      M.expect t (gs t) o a ∧
        Inv (.did t o a :: evs) (Function.update gs t (M.next t (gs t) o a)) σ')
    (hended : ∀ evs gs σ t, Inv evs gs σ → E t (gs t) → Inv (.ended t :: evs) (Function.update gs t g₀) σ)
    (harrived : ∀ evs gs σ e σ', Inv evs gs σ → m.arrive e σ = some (none, σ') →
      D evs σ (.arrived e) → Inv (.arrived e :: evs) gs σ')
    (hstarted : ∀ evs gs σ e t p σ', Inv evs gs σ → m.arrive e σ = some (some (t, p), σ') →
      gs t = g₀ → D evs σ (.arrived e) →
      ∃ g, p.Obeys M t (fun _ g' => E t g') g ∧
        Inv (.arrived e :: evs) (Function.update gs t g) σ')
    {c₀ : Config m} {gs₀ : m.Tid → G} (hinit : Inv [] gs₀ c₀.state)
    (hpool₀ : ∀ t, (∀ p, c₀.pool t = some p → p.Obeys M t (fun _ g => E t g) (gs₀ t)) ∧
      (c₀.pool t = none → gs₀ t = g₀))
    {evs : List (Event m)} {c : Config m} (hrun : Run m D c₀ evs c) :
    ∃ gs, Inv evs gs c.state ∧ ∀ t,
      (∀ p, c.pool t = some p → p.Obeys M t (fun _ g => E t g) (gs t)) ∧
      (c.pool t = none → gs t = g₀) := by
  induction hrun with
  | init => exact ⟨gs₀, hinit, hpool₀⟩
  | step _ hD hstep ih =>
    obtain ⟨gs, hinv, hpool⟩ := ih
    cases hstep with
    | @did pool σ σ' t o k c a live act =>
      obtain ⟨hallow, hk⟩ := (hpool t).1 _ live
      obtain ⟨hexp, hinv'⟩ := hdid _ gs σ t o c a σ' hinv hallow act hD
      refine ⟨_, hinv', fun t' => ?_⟩
      by_cases h : t' = t
      · subst h
        simp only [Function.update_self, Option.some.injEq, reduceCtorEq, false_implies, and_true]
        rintro p rfl
        exact hk a hexp
      · simp only [Function.update_of_ne h]
        exact hpool t'
    | @ended pool σ t live =>
      refine ⟨_, hended _ gs σ t hinv ((hpool t).1 _ live), fun t' => ?_⟩
      by_cases h : t' = t
      · subst h
        simp
      · simp only [Function.update_of_ne h]
        exact hpool t'
    | @arrived pool σ σ' e arrive => exact ⟨gs, harrived _ gs σ e σ' hinv arrive hD, hpool⟩
    | @started pool σ σ' e t p arrive free =>
      obtain ⟨g, hp, hinv'⟩ := hstarted _ gs σ e t p σ' hinv arrive ((hpool t).2 free) hD
      refine ⟨_, hinv', fun t' => ?_⟩
      by_cases h : t' = t
      · subst h
        simp only [Function.update_self, Option.some.injEq, reduceCtorEq, false_implies, and_true]
        rintro q rfl
        exact hp
      · simp only [Function.update_of_ne h]
        exact hpool t'

/-- The invariant rule, where no task runs at first. -/
theorem Run.sound {G : Type} (M : Monitor S m.Tid G) (g₀ : G) {D : Discipline m}
    (E : m.Tid → G → Prop) (Inv : List (Event m) → (m.Tid → G) → m.State → Prop)
    (hdid : ∀ evs gs σ t o c a σ', Inv evs gs σ → M.allow t (gs t) o →
      m.act t o c σ = some (a, σ') → D evs σ (.did t o a) →
      M.expect t (gs t) o a ∧
        Inv (.did t o a :: evs) (Function.update gs t (M.next t (gs t) o a)) σ')
    (hended : ∀ evs gs σ t, Inv evs gs σ → E t (gs t) → Inv (.ended t :: evs) (Function.update gs t g₀) σ)
    (harrived : ∀ evs gs σ e σ', Inv evs gs σ → m.arrive e σ = some (none, σ') →
      D evs σ (.arrived e) → Inv (.arrived e :: evs) gs σ')
    (hstarted : ∀ evs gs σ e t p σ', Inv evs gs σ → m.arrive e σ = some (some (t, p), σ') →
      gs t = g₀ → D evs σ (.arrived e) →
      ∃ g, p.Obeys M t (fun _ g' => E t g') g ∧
        Inv (.arrived e :: evs) (Function.update gs t g) σ')
    {σ₀ : m.State} (hinit : Inv [] (fun _ => g₀) σ₀)
    {evs : List (Event m)} {c : Config m} (hrun : Run m D (quiet σ₀) evs c) :
    ∃ gs, Inv evs gs c.state ∧ ∀ t,
      (∀ p, c.pool t = some p → p.Obeys M t (fun _ g => E t g) (gs t)) ∧
      (c.pool t = none → gs t = g₀) :=
  Run.sound_from M g₀ E Inv hdid hended harrived hstarted hinit
    (fun _ => ⟨fun _ hp => (Option.some_ne_none _ hp.symm).elim, fun _ => rfl⟩) hrun

/-- The runs of an invariant rule with nothing to follow about the tasks. -/
theorem Run.invariant {D : Discipline m} (Inv : List (Event m) → m.State → Prop)
    (hdid : ∀ evs σ t o c a σ', Inv evs σ → m.act t o c σ = some (a, σ') →
      D evs σ (.did t o a) → Inv (.did t o a :: evs) σ')
    (hended : ∀ evs σ t, Inv evs σ → Inv (.ended t :: evs) σ)
    (harrived : ∀ evs σ e r σ', Inv evs σ → m.arrive e σ = some (r, σ') →
      D evs σ (.arrived e) → Inv (.arrived e :: evs) σ')
    {c₀ c : Config m} (hinit : Inv [] c₀.state) {evs : List (Event m)} (hrun : Run m D c₀ evs c) :
    Inv evs c.state := by
  induction hrun with
  | init => exact hinit
  | step _ hD hstep ih =>
    cases hstep with
    | did live act => exact hdid _ _ _ _ _ _ _ ih act hD
    | ended live => exact hended _ _ _ ih
    | arrived arrive => exact harrived _ _ _ _ _ ih arrive hD
    | started arrive free => exact harrived _ _ _ _ _ ih arrive hD

/-- Each event of a run has met the condition when it happened. -/
theorem Run.disc_of_mem {D : Discipline m} {c₀ c : Config m} {evs : List (Event m)}
    (hrun : Run m D c₀ evs c) {ev : Event m} (h : ev ∈ evs) : ∃ evs' σ, D evs' σ ev := by
  induction hrun with
  | init => exact absurd h List.not_mem_nil
  | step _ hD _ ih =>
    rcases List.mem_cons.1 h with rfl | h
    · exact ⟨_, _, hD⟩
    · exact ih h

/-- A run in two parts. -/
theorem Run.split {D : Discipline m} {c₀ : Config m} {later evs : List (Event m)} :
    ∀ {c : Config m}, Run m D c₀ (later ++ evs) c →
      ∃ c', Run m D c₀ evs c' ∧ Run m (fun evs' => D (evs' ++ evs)) c' later c := by
  induction later with
  | nil => exact fun {c} hrun => ⟨c, hrun, .init⟩
  | cons ev later ih =>
    intro c hrun
    cases hrun with
    | step hrun hD hstep =>
      obtain ⟨c', hearlier, hlater⟩ := ih hrun
      exact ⟨c', hearlier, .step hlater hD hstep⟩

/-- A run that goes on. -/
theorem Run.join {D : Discipline m} {c₀ c c' : Config m} {later evs : List (Event m)}
    (hrun : Run m D c₀ evs c) (hlater : Run m (fun evs' => D (evs' ++ evs)) c later c') :
    Run m D c₀ (later ++ evs) c' := by
  induction hlater with
  | init => exact hrun
  | step _ hD hstep ih => exact .step ih hD hstep

/-- Two runs one after the other. -/
theorem Run.append {D D' : Discipline m} {c₀ c c' : Config m} {later evs : List (Event m)}
    (hrun : Run m D c₀ evs c) (hlater : Run m D' c later c') :
    Run m (fun _ _ _ => True) c₀ (later ++ evs) c' := by
  induction hlater with
  | init =>
    induction hrun with
    | init => exact .init
    | step _ _ hstep ih => exact .step ih trivial hstep
  | step _ _ hstep ih => exact .step ih trivial hstep

/-- What had happened at some moment of a run was a run. -/
theorem Run.earlier {D : Discipline m} {c₀ c : Config m} {later evs : List (Event m)}
    (hrun : Run m D c₀ (later ++ evs) c) : ∃ c', Run m D c₀ evs c' := by
  obtain ⟨c', hearlier, -⟩ := hrun.split
  exact ⟨c', hearlier⟩

/-- What holds of every run may be assumed at each of its steps. -/
theorem Run.with {D : Discipline m} {c₀ c : Config m} {evs : List (Event m)}
    (J : List (Event m) → m.State → Prop)
    (hJ : ∀ evs c, Run m D c₀ evs c → J evs c.state) (hrun : Run m D c₀ evs c) :
    Run m (fun evs σ ev => D evs σ ev ∧ J evs σ) c₀ evs c := by
  induction hrun with
  | init => exact .init
  | step hrun hD hstep ih => exact .step ih ⟨hD, hJ _ _ hrun⟩ hstep

/-- A run whose steps meet a condition meets a weaker one. -/
theorem Run.mono {D D' : Discipline m} (h : ∀ evs σ ev, D evs σ ev → D' evs σ ev) {c₀ c : Config m}
    {evs : List (Event m)} (hrun : Run m D c₀ evs c) : Run m D' c₀ evs c := by
  induction hrun with
  | init => exact .init
  | step _ hD hstep ih => exact .step ih (h _ _ _ hD) hstep

/-- Every event of a history has a property, given what happened before it. -/
def Throughout (P : List (Event m) → Event m → Prop) : List (Event m) → Prop
  | [] => True
  | ev :: evs => P evs ev ∧ Throughout P evs

omit [DecidableEq m.Tid] in
theorem throughout_iff {P : List (Event m) → Event m → Prop} (evs : List (Event m)) :
    Throughout P evs ↔ ∀ later ev earlier, evs = later ++ ev :: earlier → P earlier ev := by
  induction evs with
  | nil => exact iff_of_true trivial fun later ev earlier h => absurd h (by simp)
  | cons e evs ih =>
    constructor
    · rintro ⟨he, hevs⟩ later ev earlier h
      cases later with
      | nil =>
        obtain ⟨rfl, rfl⟩ := List.cons.inj h
        exact he
      | cons e' later => exact ih.1 hevs later ev earlier (List.cons.inj h).2
    · intro h
      refine ⟨h [] e evs rfl, ih.2 fun later ev earlier hsplit => ?_⟩
      exact h (e :: later) ev earlier (by rw [hsplit]; rfl)

/-- What holds of the events of every run may be assumed of each event. -/
theorem Run.throughout {D : Discipline m} {c₀ c : Config m} {P : List (Event m) → Event m → Prop}
    {evs : List (Event m)} (hP : ∀ evs c, Run m D c₀ evs c → Throughout P evs)
    (hrun : Run m D c₀ evs c) : Run m (fun evs σ ev => D evs σ ev ∧ P evs ev) c₀ evs c := by
  induction hrun with
  | init => exact .init
  | step hrun hD hstep ih => exact .step ih ⟨hD, (hP _ _ (hrun.step hD hstep)).1⟩ hstep

/-! ## Schedules -/

/-- A move of a schedule: the next operation of a task (or its end) with the choice of the
environment, or an arrival. -/
inductive Move (m : Machine S) where
  | turn (t : m.Tid) (c : m.Choice)
  | arrive (e : m.Arrival)

/-- The step that a move makes. -/
def next (c : Config m) : Move m → Option (Event m × Config m)
  | .turn t ch =>
    match c.pool t with
    | none => none
    | some (.pure _) => some (.ended t, ⟨Function.update c.pool t none, c.state⟩)
    | some (.op o k) =>
      (m.act t o ch c.state).map fun r => (.did t o r.1, ⟨Function.update c.pool t (some (k r.1)), r.2⟩)
  | .arrive e =>
    match m.arrive e c.state with
    | none => none
    | some (none, σ) => some (.arrived e, ⟨c.pool, σ⟩)
    | some (some (t, p), σ) =>
      match c.pool t with
      | none => some (.arrived e, ⟨Function.update c.pool t (some p), σ⟩)
      | some _ => none

theorem next_step {c c' : Config m} {mv : Move m} {ev : Event m} (h : next c mv = some (ev, c')) :
    Step m c ev c' := by
  cases mv with
  | turn t ch =>
    simp only [next] at h
    split at h
    · cases h
    · rename_i hp
      cases h
      exact Step.ended hp
    · rename_i o k hp
      obtain ⟨⟨a, σ'⟩, hact, heq⟩ := Option.map_eq_some_iff.1 h
      cases heq
      exact Step.did hp hact
  | arrive e =>
    simp only [next] at h
    split at h
    · cases h
    · rename_i σ' ha
      cases h
      exact Step.arrived ha
    · rename_i t p σ' ha
      split at h
      · rename_i hp
        cases h
        exact Step.started ha hp
      · cases h

/-- Make the moves of a schedule, checking a condition on the steps. -/
def exec (ok : List (Event m) → m.State → Event m → Bool) :
    List (Move m) → List (Event m) × Config m → Option (List (Event m) × Config m)
  | [], c => some c
  | mv :: mvs, (evs, c) =>
    match next c mv with
    | none => none
    | some (ev, c') => if ok evs c.state ev then exec ok mvs (ev :: evs, c') else none

/-- **A schedule that can be executed is a run.** -/
theorem exec_run {D : Discipline m} {ok : List (Event m) → m.State → Event m → Bool}
    (hok : ∀ evs σ ev, ok evs σ ev = true → D evs σ ev) {c₀ : Config m} :
    ∀ (mvs : List (Move m)) {evs evs' : List (Event m)} {c c' : Config m}, Run m D c₀ evs c →
      exec ok mvs (evs, c) = some (evs', c') → Run m D c₀ evs' c'
  | [], _, _, _, _, hrun, h => by
    cases h
    exact hrun
  | mv :: mvs, evs, _, c, _, hrun, h => by
    simp only [exec] at h
    split at h
    · cases h
    · rename_i ev c₁ hnext
      split at h
      · rename_i hev
        exact exec_run hok mvs (.step hrun (hok _ _ _ hev) (next_step hnext)) h
      · cases h

/-- A property of what a schedule leads to is one of a run. -/
theorem exists_run {D : Discipline m} (ok : List (Event m) → m.State → Event m → Bool)
    (hok : ∀ evs σ ev, ok evs σ ev = true → D evs σ ev) (c₀ : Config m) (mvs : List (Move m))
    (check : List (Event m) → Config m → Bool)
    (h : (exec ok mvs ([], c₀)).any (fun r => check r.1 r.2) = true) :
    ∃ evs c, Run m D c₀ evs c ∧ check evs c = true := by
  obtain ⟨⟨evs, c⟩, hexec, hcheck⟩ := (Option.any_eq_true _ _).1 h
  exact ⟨evs, c, exec_run hok mvs .init hexec, hcheck⟩

/-! ## A task alone -/

namespace Prog

variable {α β : Type}

/-- Every execution of the program by the task alone performs only operations that are fine in the
state where it requests them, and ends with `Q`. -/
def wp (m : Machine S) (t : m.Tid) (fine : S.Op → m.State → Prop) (Q : α → m.State → Prop) :
    Prog S α → m.State → Prop
  | .pure a, σ => Q a σ
  | .op o k, σ => fine o σ ∧ ∀ c a σ', m.act t o c σ = some (a, σ') → (k a).wp m t fine Q σ'

/-- The executions of a program by a task alone. -/
inductive Reaches (m : Machine S) (t : m.Tid) : Prog S α → m.State → Prog S α → m.State → Prop
  | refl {p : Prog S α} {σ : m.State} : Reaches m t p σ p σ
  | step {o : S.Op} {k : S.Ans o → Prog S α} {σ σ₁ σ₂ : m.State} {c : m.Choice} {a : S.Ans o}
      {q : Prog S α} (act : m.act t o c σ = some (a, σ₁)) (rest : Reaches m t (k a) σ₁ q σ₂) :
      Reaches m t (.op o k) σ q σ₂

variable {t : m.Tid} {fine : S.Op → m.State → Prop}

omit [DecidableEq m.Tid] in
theorem wp_bind {Q : β → m.State → Prop} (f : α → Prog S β) :
    ∀ (p : Prog S α) (σ : m.State),
      wp m t fine Q (p >>= f) σ ↔ wp m t fine (fun a σ' => wp m t fine Q (f a) σ') p σ
  | .pure _, _ => Iff.rfl
  | .op _ k, _ =>
    and_congr_right fun _ => forall_congr' fun _ => forall₃_congr fun a _ _ => wp_bind f (k a) _

omit [DecidableEq m.Tid] in
/-- **`wp` speaks about exactly the operations that the executions reach.** -/
theorem wp_iff {p : Prog S α} {σ : m.State} :
    wp m t fine (fun _ _ => True) p σ ↔
      ∀ o k σ', Reaches m t p σ (.op o k) σ' → fine o σ' := by
  constructor
  · intro h o k σ' hreach
    generalize hq : Prog.op o k = q at hreach
    induction hreach with
    | refl =>
      subst hq
      exact h.1
    | step act _ ih => exact ih (h.2 _ _ _ act) hq
  · intro h
    induction p generalizing σ with
    | pure a => trivial
    | op o k ih =>
      refine ⟨h o k σ .refl, fun c a σ' hact => ih a ?_⟩
      intro o' k' σ'' hreach
      exact h o' k' σ'' (.step hact hreach)

omit [DecidableEq m.Tid] in
/-- **The invariant rule for a task alone.** -/
theorem wp_of_obeys {G : Type} {M : Monitor S m.Tid G} (Inv : G → m.State → Prop)
    (hstep : ∀ g σ o c a σ', Inv g σ → M.allow t g o → m.act t o c σ = some (a, σ') →
      M.expect t g o a ∧ Inv (M.next t g o a) σ')
    (hfine : ∀ g σ o, Inv g σ → M.allow t g o → fine o σ) {R : α → G → Prop} :
    ∀ (p : Prog S α) (g : G) (σ : m.State), Inv g σ → p.Obeys M t R g →
      p.wp m t fine (fun _ _ => True) σ
  | .pure _, _, _, _, _ => trivial
  | .op o k, g, σ, hinv, hp => by
    refine ⟨hfine g σ o hinv hp.1, fun c a σ' hact => ?_⟩
    obtain ⟨hexpect, hinv'⟩ := hstep g σ o c a σ' hinv hp.1 hact
    exact wp_of_obeys Inv hstep hfine (k a) _ σ' hinv' (hp.2 a hexpect)

/-! ## Traces -/

/-- The program ends with a result after operations that were answered as the trace says. -/
inductive Ends : Prog S α → List (Sigma S.Ans) → α → Prop
  | pure (a : α) : Ends (.pure a) [] a
  | op {o : S.Op} {k : S.Ans o → Prog S α} {a : S.Ans o} {tr : List (Sigma S.Ans)} {b : α}
      (rest : Ends (k a) tr b) : Ends (.op o k) (⟨o, a⟩ :: tr) b

theorem ends_pure {a b : α} {tr : List (Sigma S.Ans)} (h : Ends (Pure.pure a : Prog S α) tr b) :
    tr = [] ∧ b = a := by
  cases h
  exact ⟨rfl, rfl⟩

theorem ends_op {o : S.Op} {k : S.Ans o → Prog S α} {tr : List (Sigma S.Ans)} {b : α}
    (h : Ends (.op o k) tr b) : ∃ a tr', tr = ⟨o, a⟩ :: tr' ∧ Ends (k a) tr' b := by
  cases h with
  | op rest => exact ⟨_, _, rfl, rest⟩

theorem ends_bind {f : α → Prog S β} {tr : List (Sigma S.Ans)} {b : β} :
    ∀ {p : Prog S α}, Ends (p >>= f) tr b →
      ∃ tr₁ a tr₂, tr = tr₁ ++ tr₂ ∧ Ends p tr₁ a ∧ Ends (f a) tr₂ b := by
  intro p
  induction p generalizing tr with
  | pure a => exact fun h => ⟨[], a, tr, rfl, .pure a, h⟩
  | op o k ih =>
    intro h
    obtain ⟨a, tr', htr, hrest⟩ := ends_op h
    subst htr
    obtain ⟨tr₁, x, tr₂, rfl, hp, hf⟩ := ih a hrest
    exact ⟨⟨o, a⟩ :: tr₁, x, tr₂, rfl, .op hp, hf⟩

/-- Follow a trace, and give the result if the program ends with it. -/
def replay [DecidableEq S.Op] : Prog S α → List (Sigma S.Ans) → Option α
  | .pure a, [] => some a
  | .pure _, _ :: _ => none
  | .op _ _, [] => none
  | .op o k, ⟨o', a⟩ :: tr => if h : o' = o then replay (k (h ▸ a)) tr else none

theorem ends_of_replay [DecidableEq S.Op] :
    ∀ {p : Prog S α} {tr : List (Sigma S.Ans)} {a : α}, replay p tr = some a → p.Ends tr a
  | .pure a, [], _, h => by
    cases h
    exact .pure a
  | .pure _, _ :: _, _, h => nomatch h
  | .op _ _, [], _, h => nomatch h
  | .op o k, ⟨o', a⟩ :: tr, b, h => by
    rw [replay] at h
    split at h
    · rename_i ho
      subst ho
      exact .op (ends_of_replay h)
    · cases h

theorem replay_of_ends [DecidableEq S.Op] {p : Prog S α} {tr : List (Sigma S.Ans)} {a : α}
    (h : p.Ends tr a) : replay p tr = some a := by
  induction h with
  | pure a => rfl
  | op _ ih =>
    rw [replay, dif_pos rfl]
    exact ih

/-- The program performs only some operations, whatever they are answered. -/
def Only (fine : S.Op → Prop) : Prog S α → Prop
  | .pure _ => True
  | .op o k => fine o ∧ ∀ a, (k a).Only fine

theorem only_bind {fine : S.Op → Prop} {f : α → Prog S β} :
    ∀ {p : Prog S α}, p.Only fine → (∀ a, (f a).Only fine) → (p >>= f).Only fine
  | .pure a, _, hf => hf a
  | .op _ _, hp, hf => ⟨hp.1, fun a => only_bind (hp.2 a) hf⟩

theorem Only.mono {fine fine' : S.Op → Prop} (h : ∀ o, fine o → fine' o) :
    ∀ {p : Prog S α}, p.Only fine → p.Only fine'
  | .pure _, _ => trivial
  | .op _ _, hp => ⟨h _ hp.1, fun a => Only.mono h (hp.2 a)⟩

/-- A program that performs only what a monitor allows in every phase of a kind. -/
theorem Only.obeys {T G : Type} {M : Monitor S T G} {t : T} {fine : S.Op → Prop} (I : G → Prop) (hallow : ∀ g o, I g → fine o → M.allow t g o)
    (hnext : ∀ g o a, I g → fine o → I (M.next t g o a)) :
    ∀ (p : Prog S α) (g : G), I g → p.Only fine → Obeys M t (fun _ g' => I g') p g
  | .pure _, _, hg, _ => hg
  | .op _ k, g, hg, hp =>
    ⟨hallow g _ hg hp.1, fun a _ => Only.obeys I hallow hnext (k a) _ (hnext g _ a hg hp.1) (hp.2 a)⟩

/-- After operations that were answered as the trace says, the program has `q` left to do. -/
inductive Leads : Prog S α → List (Sigma S.Ans) → Prog S α → Prop
  | refl (p : Prog S α) : Leads p [] p
  | op {o : S.Op} {k : S.Ans o → Prog S α} {a : S.Ans o} {tr : List (Sigma S.Ans)} {q : Prog S α}
      (rest : Leads (k a) tr q) : Leads (.op o k) (⟨o, a⟩ :: tr) q

theorem Leads.snoc {p : Prog S α} {tr : List (Sigma S.Ans)} {o : S.Op} {k : S.Ans o → Prog S α}
    (h : p.Leads tr (.op o k)) (a : S.Ans o) : p.Leads (tr ++ [⟨o, a⟩]) (k a) := by
  generalize hq : Prog.op o k = q at h
  induction h with
  | refl =>
    subst hq
    exact .op (.refl _)
  | op _ ih => exact .op (ih hq)

theorem Leads.ends {p : Prog S α} {tr : List (Sigma S.Ans)} {a : α} (h : p.Leads tr (.pure a)) :
    p.Ends tr a := by
  generalize hq : Prog.pure a = q at h
  induction h with
  | refl =>
    subst hq
    exact .pure a
  | op _ ih => exact .op (ih hq)

theorem Only.leads {fine : S.Op → Prop} {p q : Prog S α} {tr : List (Sigma S.Ans)}
    (hp : p.Only fine) (h : p.Leads tr q) : ∀ e ∈ tr, fine e.1 := by
  induction h with
  | refl => exact fun e he => absurd he List.not_mem_nil
  | op _ ih =>
    intro e he
    rcases List.mem_cons.1 he with rfl | he
    · exact hp.1
    · exact ih (hp.2 _) e he

omit [DecidableEq m.Tid] in
theorem Only.reaches {fine : S.Op → Prop} {p : Prog S α} {o : S.Op} {k : S.Ans o → Prog S α}
    {σ σ' : m.State} (hp : p.Only fine) (h : Reaches m t p σ (.op o k) σ') : fine o := by
  generalize hq : Prog.op o k = q at h
  induction h with
  | refl =>
    subst hq
    exact hp.1
  | step _ _ ih => exact ih (hp.2 _) hq

theorem Ends.leads {p : Prog S α} {tr : List (Sigma S.Ans)} {a : α} (h : p.Ends tr a) :
    p.Leads tr (.pure a) := by
  induction h with
  | pure a => exact .refl _
  | op _ ih => exact .op ih

theorem Only.ends {fine : S.Op → Prop} {p : Prog S α} {tr : List (Sigma S.Ans)} {b : α}
    (hp : p.Only fine) (h : p.Ends tr b) : ∀ e ∈ tr, fine e.1 :=
  hp.leads h.leads

/-! ## What a task alone does -/

/-- Run by the task alone, the program ends with a result and in a state after operations that were
answered as the trace says. -/
inductive Does (m : Machine S) (t : m.Tid) :
    Prog S α → m.State → List (Sigma S.Ans) → α → m.State → Prop
  | pure (a : α) (σ : m.State) : Does m t (.pure a) σ [] a σ
  | op {o : S.Op} {k : S.Ans o → Prog S α} {σ σ₁ σ₂ : m.State} {c : m.Choice} {a : S.Ans o}
      {tr : List (Sigma S.Ans)} {b : α} (act : m.act t o c σ = some (a, σ₁))
      (rest : Does m t (k a) σ₁ tr b σ₂) : Does m t (.op o k) σ (⟨o, a⟩ :: tr) b σ₂

omit [DecidableEq m.Tid] in
theorem does_pure {a b : α} {σ σ' : m.State} {tr : List (Sigma S.Ans)}
    (h : Does m t (Pure.pure a : Prog S α) σ tr b σ') : tr = [] ∧ b = a ∧ σ' = σ := by
  cases h
  exact ⟨rfl, rfl, rfl⟩

omit [DecidableEq m.Tid] in
theorem does_op {o : S.Op} {k : S.Ans o → Prog S α} {σ σ' : m.State} {tr : List (Sigma S.Ans)}
    {b : α} (h : Does m t (.op o k) σ tr b σ') :
    ∃ c a σ₁ tr', m.act t o c σ = some (a, σ₁) ∧ tr = ⟨o, a⟩ :: tr' ∧ Does m t (k a) σ₁ tr' b σ' := by
  cases h with
  | op act rest => exact ⟨_, _, _, _, act, rfl, rest⟩

omit [DecidableEq m.Tid] in
theorem does_bind {f : α → Prog S β} {σ σ' : m.State} {tr : List (Sigma S.Ans)} {b : β} :
    ∀ {p : Prog S α}, Does m t (p >>= f) σ tr b σ' →
      ∃ tr₁ a σ₁ tr₂, tr = tr₁ ++ tr₂ ∧ Does m t p σ tr₁ a σ₁ ∧ Does m t (f a) σ₁ tr₂ b σ' := by
  intro p
  induction p generalizing σ tr with
  | pure a => exact fun h => ⟨[], a, σ, tr, rfl, .pure a σ, h⟩
  | op o k ih =>
    intro h
    obtain ⟨c, a, σ₁, tr', hact, rfl, hrest⟩ := does_op h
    obtain ⟨tr₁, x, σ₂, tr₂, rfl, hp, hf⟩ := ih a hrest
    exact ⟨⟨o, a⟩ :: tr₁, x, σ₂, tr₂, rfl, .op hact hp, hf⟩

omit [DecidableEq m.Tid] in
theorem Does.bind {p : Prog S α} {f : α → Prog S β} {σ σ₁ σ₂ : m.State} {tr tr' : List (Sigma S.Ans)}
    {a : α} {b : β} (h : Does m t p σ tr a σ₁) (h' : Does m t (f a) σ₁ tr' b σ₂) :
    Does m t (p >>= f) σ (tr ++ tr') b σ₂ := by
  induction h with
  | pure a σ => exact h'
  | op act _ ih => exact .op act (ih h')

omit [DecidableEq m.Tid] in
theorem Does.ends {p : Prog S α} {σ σ' : m.State} {tr : List (Sigma S.Ans)} {a : α}
    (h : Does m t p σ tr a σ') : p.Ends tr a := by
  induction h with
  | pure a σ => exact .pure a
  | op _ _ ih => exact .op ih

omit [DecidableEq m.Tid] in
/-- What every operation of the program keeps holds at its end. -/
theorem Only.does {fine : S.Op → Prop} {I : m.State → Prop}
    (hI : ∀ o c a σ σ', fine o → I σ → m.act t o c σ = some (a, σ') → I σ') {p : Prog S α}
    (hp : p.Only fine) {σ σ' : m.State} {tr : List (Sigma S.Ans)} {a : α}
    (h : Does m t p σ tr a σ') (hσ : I σ) : I σ' := by
  induction h with
  | pure a σ => exact hσ
  | op act _ ih => exact ih (hp.2 _) (hI _ _ _ _ _ hp.1 hσ act)

/-- Run the program with these choices of the environment. -/
def play (m : Machine S) (t : m.Tid) :
    List m.Choice → Prog S α → m.State → Option (List (Sigma S.Ans) × α × m.State)
  | _, .pure a, σ => some ([], a, σ)
  | [], .op _ _, _ => none
  | c :: cs, .op o k, σ =>
    match m.act t o c σ with
    | none => none
    | some (a, σ') => (play m t cs (k a) σ').map fun r => (⟨o, a⟩ :: r.1, r.2)

omit [DecidableEq m.Tid] in
theorem does_of_play :
    ∀ (cs : List m.Choice) {p : Prog S α} {σ σ' : m.State} {tr : List (Sigma S.Ans)} {a : α},
      play m t cs p σ = some (tr, a, σ') → Does m t p σ tr a σ'
  | _, .pure a, _, _, _, _, h => by
    unfold play at h
    cases h
    exact .pure a _
  | [], .op _ _, _, _, _, _, h => by cases h
  | c :: cs, .op o k, σ, _, _, _, h => by
    unfold play at h
    split at h
    · cases h
    · rename_i b σ₁ hact
      obtain ⟨⟨tr, x, σ'⟩, hplay, heq⟩ := Option.map_eq_some_iff.1 h
      cases heq
      exact .op hact (does_of_play cs hplay)

omit [DecidableEq m.Tid] in
/-- A property of what the program does with some choices is one of what it can do. -/
theorem exists_does (cs : List m.Choice) (p : Prog S α) (σ : m.State)
    (check : List (Sigma S.Ans) → Bool) (h : (play m t cs p σ).any (fun r => check r.1) = true) :
    ∃ tr a σ', Does m t p σ tr a σ' ∧ check tr = true := by
  obtain ⟨⟨tr, a, σ'⟩, hplay, hcheck⟩ := (Option.any_eq_true _ _).1 h
  exact ⟨tr, a, σ', does_of_play cs hplay, hcheck⟩

end Prog

/-! ## The operations of one task -/

omit [DecidableEq m.Tid] in
/-- What has been done had been done before a task ended or something arrived. -/
theorem mem_of_other {evs : List (Event m)} {ev : Event m} (hev : ∀ t o a, ev ≠ .did t o a)
    {t : m.Tid} {o : S.Op} {a : S.Ans o} (h : .did t o a ∈ ev :: evs) : .did t o a ∈ evs := by
  rcases List.mem_cons.1 h with heq | h
  · exact absurd heq.symm (hev t o a)
  · exact h

omit [DecidableEq m.Tid] in
theorem ended_ne_did (t : m.Tid) (t' : m.Tid) (o : S.Op) (a : S.Ans o) :
    (.ended t : Event m) ≠ .did t' o a := fun h => nomatch h

omit [DecidableEq m.Tid] in
theorem arrived_ne_did (e : m.Arrival) (t' : m.Tid) (o : S.Op) (a : S.Ans o) :
    (.arrived e : Event m) ≠ .did t' o a := fun h => nomatch h

/-- What a task has done in a history, oldest first. -/
def opsOf (t : m.Tid) : List (Event m) → List (Sigma S.Ans)
  | [] => []
  | .did t' o a :: evs => if t' = t then opsOf t evs ++ [⟨o, a⟩] else opsOf t evs
  | _ :: evs => opsOf t evs

theorem opsOf_append (t : m.Tid) (evs evs' : List (Event m)) :
    opsOf t (evs ++ evs') = opsOf t evs' ++ opsOf t evs := by
  induction evs with
  | nil => exact (List.append_nil _).symm
  | cons ev evs ih =>
    cases ev with
    | did t' o a =>
      simp only [List.cons_append, opsOf, ih]
      split
      · exact List.append_assoc _ _ _
      · rfl
    | ended t' => exact ih
    | arrived e => exact ih

theorem mem_opsOf {t : m.Tid} {o : S.Op} {a : S.Ans o} {evs : List (Event m)}
    (h : Event.did t o a ∈ evs) : ⟨o, a⟩ ∈ opsOf t evs := by
  obtain ⟨later, earlier, rfl⟩ := List.append_of_mem h
  rw [opsOf_append, opsOf, if_pos rfl]
  exact List.mem_append_left _ (List.mem_append_right _ List.mem_cons_self)

/-- An operation in the middle of a task's trace splits the history. -/
theorem opsOf_split {t : m.Tid} {o : S.Op} {a : S.Ans o} {evs : List (Event m)}
    {tr₁ tr₂ : List (Sigma S.Ans)} (h : opsOf t evs = tr₁ ++ ⟨o, a⟩ :: tr₂) :
    ∃ later earlier, evs = later ++ .did t o a :: earlier ∧ opsOf t earlier = tr₁ ∧
      opsOf t later = tr₂ := by
  induction evs generalizing tr₂ with
  | nil => exact absurd h.symm (by simp [opsOf])
  | cons ev evs ih =>
    have hskip : opsOf t (ev :: evs) = opsOf t evs →
        ∃ later earlier, ev :: evs = later ++ .did t o a :: earlier ∧ opsOf t earlier = tr₁ ∧
          opsOf t later = tr₂ := by
      intro hsame
      rw [hsame] at h
      obtain ⟨later, earlier, rfl, h₁, h₂⟩ := ih h
      refine ⟨ev :: later, earlier, rfl, h₁, ?_⟩
      have heq := hsame
      rw [← List.cons_append, opsOf_append, opsOf_append t later] at heq
      exact (List.append_cancel_left heq).trans h₂
    cases ev with
    | ended t' => exact hskip rfl
    | arrived e => exact hskip rfl
    | did t' o' a' =>
      by_cases ht : t' = t
      · subst ht
        rw [opsOf, if_pos rfl] at h
        rcases List.eq_nil_or_concat tr₂ with rfl | ⟨tr, x, rfl⟩
        · obtain ⟨htr, hlast⟩ := List.append_inj' h rfl
          cases hlast
          exact ⟨[], evs, rfl, htr, rfl⟩
        · rw [List.concat_eq_append, ← List.cons_append, ← List.append_assoc] at h
          obtain ⟨htr, hlast⟩ := List.append_inj' h rfl
          cases hlast
          obtain ⟨later, earlier, rfl, h₁, h₂⟩ := ih htr
          refine ⟨.did t' o' a' :: later, earlier, rfl, h₁, ?_⟩
          rw [opsOf, if_pos rfl, h₂, List.concat_eq_append]
      · exact hskip (if_neg ht)

/-! ## The executions in a run -/

variable (m) in
/-- The arrival starts this program as this task. -/
def Starts (e : m.Arrival) (t : m.Tid) (p : Prog S Unit) : Prop :=
  ∃ σ σ', m.arrive e σ = some (some (t, p), σ')

/-- The trace of an execution of `p` by `t` in a history: it has ended, or it is what the task is
at now. -/
def Executes (evs : List (Event m)) (pool : m.Tid → Option (Prog S Unit)) (t : m.Tid)
    (p : Prog S Unit) (tr : List (Sigma S.Ans)) : Prop :=
  (∀ x ∈ tr, Event.did t x.1 x.2 ∈ evs) ∧ ∃ q, p.Leads tr q ∧ (q = .pure () ∨ pool t = some q)

omit [DecidableEq m.Tid] in
theorem Executes.ends {evs : List (Event m)} {pool : m.Tid → Option (Prog S Unit)} {t : m.Tid}
    {p : Prog S Unit} {tr : List (Sigma S.Ans)} (h : Executes evs pool t p tr)
    (hpool : pool t = none) : p.Ends tr () := by
  obtain ⟨-, q, hq, rfl | hlive⟩ := h
  · exact hq.ends
  · rw [hpool] at hlive
    cases hlive

/-- An execution after one more step. -/
theorem Executes.step {evs : List (Event m)} {ev : Event m} {c c' : Config m} {t : m.Tid}
    {p : Prog S Unit} {tr : List (Sigma S.Ans)} (h : Executes evs c.pool t p tr)
    (hstep : Step m c ev c') :
    ∃ tr', tr ⊆ tr' ∧ Executes (ev :: evs) c'.pool t p tr' := by
  obtain ⟨htr, q, hq, hlive⟩ := h
  have hkeep : ∀ x ∈ tr, Event.did t x.1 x.2 ∈ ev :: evs := fun x hx => List.mem_cons_of_mem _ (htr x hx)
  rcases hlive with rfl | hlive
  · exact ⟨tr, List.Subset.refl tr, hkeep, _, hq, Or.inl rfl⟩
  · cases hstep with
    | @did pool σ σ' t' o k c a live act =>
      by_cases ht : t = t'
      · subst ht
        have hqk : Prog.op o k = q := Option.some.inj (live.symm.trans hlive)
        subst hqk
        refine ⟨tr ++ [⟨o, a⟩], List.subset_append_left tr _, fun x hx => ?_, k a, hq.snoc a,
          Or.inr (Function.update_self _ _ _)⟩
        rcases List.mem_append.1 hx with hx | hx
        · exact hkeep x hx
        · rw [List.mem_singleton.1 hx]
          exact List.mem_cons_self
      · exact ⟨tr, List.Subset.refl tr, hkeep, q, hq,
          Or.inr ((Function.update_of_ne ht _ _).trans hlive)⟩
    | @ended pool σ t' live =>
      refine ⟨tr, List.Subset.refl tr, hkeep, q, hq, ?_⟩
      by_cases ht : t = t'
      · subst ht
        exact Or.inl (Option.some.inj (hlive.symm.trans live))
      · exact Or.inr ((Function.update_of_ne ht _ _).trans hlive)
    | arrived => exact ⟨tr, List.Subset.refl tr, hkeep, q, hq, Or.inr hlive⟩
    | @started pool σ σ' e t' p' arrive free =>
      refine ⟨tr, List.Subset.refl tr, hkeep, q, hq, Or.inr ?_⟩
      by_cases ht : t = t'
      · subst ht
        rw [show pool t = some q from hlive] at free
        cases free
      · exact (Function.update_of_ne ht _ _).trans hlive

/-- **What the tasks of a run do are executions of the programs that were started.** -/
theorem Run.executions {D : Discipline m} {σ₀ : m.State} {evs : List (Event m)} {c : Config m}
    (hrun : Run m D (quiet σ₀) evs c) :
    (∀ t q, c.pool t = some q → ∃ e p tr, Event.arrived e ∈ evs ∧ Starts m e t p ∧
      (∀ x ∈ tr, Event.did t x.1 x.2 ∈ evs) ∧ p.Leads tr q) ∧
    (∀ t o a, Event.did t o a ∈ evs → ∃ e p tr, Event.arrived e ∈ evs ∧ Starts m e t p ∧
      Executes evs c.pool t p tr ∧ ⟨o, a⟩ ∈ tr) ∧
    ∀ e t p, Event.arrived e ∈ evs → (∀ σ r, m.arrive e σ = some r → r.1 = some (t, p)) →
      ∃ tr, Executes evs c.pool t p tr := by
  induction hrun with
  | init =>
    exact ⟨fun t q h => (Option.some_ne_none q h.symm).elim, fun t o a h => absurd h List.not_mem_nil,
      fun e t p h => absurd h List.not_mem_nil⟩
  | @step evs ev c c' _ _ hstep ih =>
    obtain ⟨hlive, hdid, hstarted⟩ := ih
    have hdid' : ∀ t o a, Event.did t o a ∈ evs → ∃ e p tr, Event.arrived e ∈ ev :: evs ∧
        Starts m e t p ∧ Executes (ev :: evs) c'.pool t p tr ∧ ⟨o, a⟩ ∈ tr := by
      intro t o a h
      obtain ⟨e, p, tr, he, hstart, hexec, hmem⟩ := hdid t o a h
      obtain ⟨tr', hsub, hexec'⟩ := hexec.step hstep
      exact ⟨e, p, tr', List.mem_cons_of_mem _ he, hstart, hexec', hsub hmem⟩
    have hstarted' : ∀ e t p, Event.arrived e ∈ evs →
        (∀ σ r, m.arrive e σ = some r → r.1 = some (t, p)) → ∃ tr, Executes (ev :: evs) c'.pool t p tr := by
      intro e t p h hall
      obtain ⟨tr, hexec⟩ := hstarted e t p h hall
      obtain ⟨tr', -, hexec'⟩ := hexec.step hstep
      exact ⟨tr', hexec'⟩
    have hkeep : ∀ t q, c.pool t = some q → ∃ e p tr, Event.arrived e ∈ ev :: evs ∧ Starts m e t p ∧
        (∀ x ∈ tr, Event.did t x.1 x.2 ∈ ev :: evs) ∧ p.Leads tr q := by
      intro t q hq
      obtain ⟨e, p, tr, he, hstart, htr, hleads⟩ := hlive t q hq
      exact ⟨e, p, tr, List.mem_cons_of_mem _ he, hstart,
        fun x hx => List.mem_cons_of_mem _ (htr x hx), hleads⟩
    have hothers : (∀ t o a, ev ≠ .did t o a) → ∀ t o a, Event.did t o a ∈ ev :: evs →
        ∃ e p tr, Event.arrived e ∈ ev :: evs ∧ Starts m e t p ∧
          Executes (ev :: evs) c'.pool t p tr ∧ ⟨o, a⟩ ∈ tr := by
      intro hne t o a h
      rcases List.mem_cons.1 h with heq | h
      · exact absurd heq.symm (hne t o a)
      · exact hdid' t o a h
    have holder : (∀ e, ev ≠ .arrived e) → ∀ e t p, Event.arrived e ∈ ev :: evs →
        (∀ σ r, m.arrive e σ = some r → r.1 = some (t, p)) →
        ∃ tr, Executes (ev :: evs) c'.pool t p tr := by
      intro hne e t p h hall
      rcases List.mem_cons.1 h with heq | h
      · exact absurd heq.symm (hne e)
      · exact hstarted' e t p h hall
    cases hstep with
    | @did pool σ σ' t o k ch a live act =>
      obtain ⟨e, p, tr, he, hstart, htr, hleads⟩ := hkeep t _ live
      have hnow : ∀ x ∈ tr ++ [⟨o, a⟩], Event.did t x.1 x.2 ∈ Event.did t o a :: evs := by
        intro x hx
        rcases List.mem_append.1 hx with hx | hx
        · exact htr x hx
        · rw [List.mem_singleton.1 hx]
          exact List.mem_cons_self
      refine ⟨fun t' q hq => ?_, fun t' o' a' h => ?_, holder (fun e h => nomatch h)⟩
      · by_cases ht : t' = t
        · subst ht
          cases (Function.update_self t' (some (k a)) pool).symm.trans hq
          exact ⟨e, p, tr ++ [⟨o, a⟩], he, hstart, hnow, hleads.snoc a⟩
        · exact hkeep t' q ((Function.update_of_ne ht _ _).symm.trans hq)
      · rcases List.mem_cons.1 h with heq | h
        · cases heq
          exact ⟨e, p, tr ++ [⟨o, a⟩], he, hstart,
            ⟨hnow, k a, hleads.snoc a, Or.inr (Function.update_self _ _ _)⟩,
            List.mem_append_right _ List.mem_cons_self⟩
        · exact hdid' t' o' a' h
    | @ended pool σ t live =>
      refine ⟨fun t' q hq => ?_, hothers (fun t o a h => nomatch h), holder (fun e h => nomatch h)⟩
      by_cases ht : t' = t
      · subst ht
        cases (Function.update_self t' none pool).symm.trans hq
      · exact hkeep t' q ((Function.update_of_ne ht _ _).symm.trans hq)
    | @arrived pool σ σ' e arrive =>
      refine ⟨hkeep, hothers (fun t o a h => nomatch h), fun e t p h hall => ?_⟩
      · rcases List.mem_cons.1 h with heq | h
        · cases heq
          cases hall σ _ arrive
        · exact hstarted' e t p h hall
    | @started pool σ σ' e t p arrive free =>
      refine ⟨fun t' q hq => ?_, hothers (fun t o a h => nomatch h), fun e' t' p' h hall => ?_⟩
      · by_cases ht : t' = t
        · subst ht
          cases (Function.update_self t' (some p) pool).symm.trans hq
          exact ⟨e, p, [], List.mem_cons_self, ⟨σ, σ', arrive⟩, fun x hx => absurd hx List.not_mem_nil,
            .refl p⟩
        · exact hkeep t' q ((Function.update_of_ne ht _ _).symm.trans hq)
      · rcases List.mem_cons.1 h with heq | h
        · cases heq
          cases hall σ _ arrive
          exact ⟨[], fun x hx => absurd hx List.not_mem_nil, p, .refl p,
            Or.inr (Function.update_self _ _ _)⟩
        · exact hstarted' e' t' p' h hall

end Tasks
