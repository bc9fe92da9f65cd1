import Sdle.Lib.Tasks
import Mathlib.Data.Set.Basic

/-!
# What the tasks of a machine know

Tasks that pass on only what they have been told.  A `Lore` says which facts an operation passes on,
and which its answer tells.

* `Prog.Repeats` — the check of a program, from the facts that it starts with; it composes over
  `bind` (`Repeats.bind`).
* `Run.known` — **nothing is made up**: where the state tells no more than it holds and every program
  that starts repeats what there is, each fact that the state holds or a task has passed on was held at
  the beginning or has been brought by an arrival.
-/

set_option autoImplicit false

namespace Tasks

/-- The facts that an operation passes on, and those that its answer tells. -/
structure Lore (S : Sig) (F : Type) where
  passes : S.Op → Set F
  tells : (o : S.Op) → S.Ans o → Set F

variable {S : Sig} {F α β : Type} {L : Lore S F}

/-- A task passes on what it knows; its phase is what it has been told. -/
def Lore.monitor (L : Lore S F) (T : Type) : Monitor S T (Set F) where
  allow _ g o := L.passes o ⊆ g
  expect _ _ _ _ := True
  next _ g o a := g ∪ L.tells o a

namespace Prog

/-- A task that knows `g` passes on only what it knows by then, and with a result `a` it knows `R a`. -/
def Repeats (L : Lore S F) (R : α → Set F) : Prog S α → Set F → Prop
  | .pure a, g => R a ⊆ g
  | .op o k, g => L.passes o ⊆ g ∧ ∀ a, (k a).Repeats L R (g ∪ L.tells o a)

variable {R : α → Set F} {Q : β → Set F} {g h : Set F}

theorem repeats_pure {a : α} (h : R a ⊆ g) : Repeats L R (Pure.pure a) g := h

theorem repeats_op {o : S.Op} {k : S.Ans o → Prog S α} (ho : L.passes o ⊆ g)
    (hk : ∀ a, (k a).Repeats L R (g ∪ L.tells o a)) : Repeats L R (.op o k) g := ⟨ho, hk⟩

/-- Who knows more may do the same. -/
theorem Repeats.mono : ∀ {p : Prog S α} {g h : Set F}, p.Repeats L R g → g ⊆ h → p.Repeats L R h
  | .pure _, _, _, hp, hgh => Set.Subset.trans hp hgh
  | .op _ _, _, _, hp, hgh =>
    ⟨Set.Subset.trans hp.1 hgh, fun a => (hp.2 a).mono (Set.union_subset_union_left _ hgh)⟩

theorem Repeats.weaken {R' : α → Set F} (hR : ∀ a, R' a ⊆ R a) :
    ∀ {p : Prog S α} {g : Set F}, p.Repeats L R g → p.Repeats L R' g
  | .pure a, _, hp => Set.Subset.trans (hR a) hp
  | .op _ _, _, hp => ⟨hp.1, fun a => (hp.2 a).weaken hR⟩

/-- What the result of the first program tells, the second one knows. -/
theorem Repeats.bind {f : α → Prog S β} : ∀ {p : Prog S α} {g : Set F}, p.Repeats L R g →
    (∀ a, (f a).Repeats L Q (g ∪ R a)) → (p >>= f).Repeats L Q g
  | .pure a, g, hp, hf => by
    have ha := hf a
    rw [Set.union_eq_self_of_subset_right hp] at ha
    exact ha
  | .op o k, g, hp, hf => by
    refine ⟨hp.1, fun a => Repeats.bind (hp.2 a) fun b => (hf b).mono ?_⟩
    exact Set.union_subset_union_left _ Set.subset_union_left

theorem Repeats.obeys {T : Type} {t : T} : ∀ {p : Prog S α} {g : Set F}, p.Repeats L R g →
    p.Obeys (L.monitor T) t (fun _ _ => True) g
  | .pure _, _, _ => trivial
  | .op _ _, _, hp => ⟨hp.1, fun a _ => (hp.2 a).obeys⟩

end Prog

section Run

variable {m : Machine S} (holds : m.State → Set F) (brings : m.Arrival → Set F)

/-- What was held at the beginning or has been brought since. -/
def brought (σ₀ : m.State) (evs : List (Event m)) : Set F :=
  holds σ₀ ∪ {f | ∃ e, .arrived e ∈ evs ∧ f ∈ brings e}

variable {holds brings}

theorem brought_cons {σ₀ : m.State} {evs : List (Event m)} (ev : Event m) :
    brought holds brings σ₀ evs ⊆ brought holds brings σ₀ (ev :: evs) := by
  rintro f (hf | ⟨e, he, hf⟩)
  · exact Or.inl hf
  · exact Or.inr ⟨e, List.mem_cons_of_mem _ he, hf⟩

theorem brings_subset_brought {σ₀ : m.State} {evs : List (Event m)} (e : m.Arrival) :
    brings e ⊆ brought holds brings σ₀ (.arrived e :: evs) := fun _ hf =>
  Or.inr ⟨e, List.mem_cons_self, hf⟩

variable [DecidableEq m.Tid]

/-- **Nothing is made up.** -/
theorem Run.known {D : Discipline m}
    (hact : ∀ t o c a σ σ', m.act t o c σ = some (a, σ') →
      L.tells o a ⊆ holds σ ∧ holds σ' ⊆ holds σ ∪ L.passes o)
    (harrive : ∀ e r σ σ', m.arrive e σ = some (r, σ') → holds σ' ⊆ holds σ ∪ brings e)
    (hstart : ∀ e t p σ σ', m.arrive e σ = some (some (t, p), σ') →
      p.Repeats L (fun _ => ∅) (holds σ ∪ brings e))
    {σ₀ : m.State} {evs : List (Event m)} {c : Config m} (hrun : Run m D (quiet σ₀) evs c) :
    holds c.state ⊆ brought holds brings σ₀ evs ∧
      ∀ t o a, .did t o a ∈ evs → L.passes o ⊆ brought holds brings σ₀ evs := by
  have hsound := Run.sound (L.monitor m.Tid) ∅ (fun _ _ => True)
    (fun evs gs σ => holds σ ⊆ brought holds brings σ₀ evs ∧
      (∀ t, gs t ⊆ brought holds brings σ₀ evs) ∧
      ∀ t o a, .did t o a ∈ evs → L.passes o ⊆ brought holds brings σ₀ evs)
    ?did ?ended ?arrived ?started ⟨Set.subset_union_left, fun _ => Set.empty_subset _, nofun⟩ hrun
  · obtain ⟨gs, ⟨hholds, -, hpassed⟩, -⟩ := hsound
    exact ⟨hholds, hpassed⟩
  case did =>
    rintro evs gs σ t o c a σ' ⟨hholds, hknows, hpassed⟩ hallow hact' -
    obtain ⟨htells, hnew⟩ := hact t o c a σ σ' hact'
    have hpasses : L.passes o ⊆ brought holds brings σ₀ evs := Set.Subset.trans hallow (hknows t)
    refine ⟨trivial, ?_, fun t' => ?_, fun t' o' a' hmem => ?_⟩
    · apply Set.Subset.trans hnew
      exact Set.Subset.trans (Set.union_subset hholds hpasses) (brought_cons _)
    · apply Set.Subset.trans _ (brought_cons _)
      by_cases h : t' = t
      · subst h
        rw [Function.update_self]
        exact Set.union_subset (hknows t') (Set.Subset.trans htells hholds)
      · rw [Function.update_of_ne h]
        exact hknows t'
    · apply Set.Subset.trans _ (brought_cons _)
      rcases List.mem_cons.1 hmem with heq | hmem
      · cases heq
        exact hpasses
      · exact hpassed t' o' a' hmem
  case ended =>
    rintro evs gs σ t ⟨hholds, hknows, hpassed⟩ -
    refine ⟨Set.Subset.trans hholds (brought_cons _), fun t' => ?_, fun t' o' a' hmem => ?_⟩
    · by_cases h : t' = t
      · subst h
        rw [Function.update_self]
        exact Set.empty_subset _
      · rw [Function.update_of_ne h]
        exact Set.Subset.trans (hknows t') (brought_cons _)
    · rcases List.mem_cons.1 hmem with heq | hmem
      · cases heq
      · exact Set.Subset.trans (hpassed t' o' a' hmem) (brought_cons _)
  case arrived =>
    rintro evs gs σ e σ' ⟨hholds, hknows, hpassed⟩ harr -
    refine ⟨?_, fun t' => Set.Subset.trans (hknows t') (brought_cons _), fun t' o' a' hmem => ?_⟩
    · apply Set.Subset.trans (harrive e none σ σ' harr)
      exact Set.union_subset (Set.Subset.trans hholds (brought_cons _)) (brings_subset_brought e)
    · rcases List.mem_cons.1 hmem with heq | hmem
      · cases heq
      · exact Set.Subset.trans (hpassed t' o' a' hmem) (brought_cons _)
  case started =>
    rintro evs gs σ e t p σ' ⟨hholds, hknows, hpassed⟩ harr - -
    have hthere : holds σ ∪ brings e ⊆ brought holds brings σ₀ (.arrived e :: evs) :=
      Set.union_subset (Set.Subset.trans hholds (brought_cons _)) (brings_subset_brought e)
    refine ⟨holds σ ∪ brings e, (hstart e t p σ σ' harr).obeys,
      Set.Subset.trans (harrive e _ σ σ' harr) hthere, fun t' => ?_, fun t' o' a' hmem => ?_⟩
    · by_cases h : t' = t
      · subst h
        rw [Function.update_self]
        exact hthere
      · rw [Function.update_of_ne h]
        exact Set.Subset.trans (hknows t') (brought_cons _)
    · rcases List.mem_cons.1 hmem with heq | hmem
      · cases heq
      · exact Set.Subset.trans (hpassed t' o' a' hmem) (brought_cons _)

end Run

end Tasks
