import Mathlib.Data.List.Basic

/-!
# Tables of pending requests

A table of requests that wait for answers: a request is opened under a key, answers come with a key
in any number and order, and the request is closed.  Its trigger fires when an answer makes full the
number that it needs.  A history lists what has happened to the table, the newest first.

* `pending_open`, `pending_closed` — what the table holds of a request while it is open and after it
  has been closed: **the answers with its own key since it was opened**, in their order.
* `triggers_open` — the trigger has fired when there are enough of them, and only then.
* `triggers_le_openings` — **a trigger fires at most once for each opening**.
-/

set_option autoImplicit false

namespace Pending

variable {K X Y : Type}

/-- What happens to a table of requests. -/
inductive Action (K X Y : Type) where
  | opens (k : K) (x : X)
  | answers (k : K) (y : Y)
  | closes (k : K)

variable [DecidableEq K]

/-- The request that is open under a key, with the answers it has collected, oldest first. -/
def pending (k : K) : List (Action K X Y) → Option (X × List Y)
  | [] => none
  | .opens k' x :: acts => if k' = k then some (x, []) else pending k acts
  | .answers k' y :: acts =>
    if k' = k then (pending k acts).map fun r => (r.1, r.2 ++ [y]) else pending k acts
  | .closes k' :: acts => if k' = k then none else pending k acts

/-- An answer makes the number needed full. -/
def Fills (needed : X → ℕ) (r : Option (X × List Y)) : Prop :=
  ∃ x ys, r = some (x, ys) ∧ ys.length + 1 = needed x

instance (needed : X → ℕ) (r : Option (X × List Y)) : Decidable (Fills needed r) :=
  match r with
  | none => isFalse fun ⟨_, _, h, _⟩ => nomatch h
  | some (x, ys) =>
    decidable_of_iff (ys.length + 1 = needed x)
      ⟨fun h => ⟨x, ys, rfl, h⟩, fun ⟨_, _, hr, h⟩ => by cases hr; exact h⟩

/-- How often the trigger of a key has fired. -/
def triggers (needed : X → ℕ) (k : K) : List (Action K X Y) → ℕ
  | [] => 0
  | .answers k' _ :: acts =>
    triggers needed k acts + if k' = k ∧ Fills needed (pending k acts) then 1 else 0
  | _ :: acts => triggers needed k acts

/-- The answers that came with a key, oldest first. -/
def answersTo (k : K) : List (Action K X Y) → List Y
  | [] => []
  | .answers k' y :: acts => if k' = k then answersTo k acts ++ [y] else answersTo k acts
  | _ :: acts => answersTo k acts

/-- How often a key has been opened. -/
def openings (k : K) : List (Action K X Y) → ℕ
  | [] => 0
  | .opens k' _ :: acts => openings k acts + if k' = k then 1 else 0
  | _ :: acts => openings k acts

/-- The key is neither opened nor closed. -/
def Untouched (k : K) (acts : List (Action K X Y)) : Prop :=
  ∀ act ∈ acts, (∀ x, act ≠ .opens k x) ∧ act ≠ .closes k

section Lemmas

variable {k : K} {x : X} {acts during : List (Action K X Y)} {needed : X → ℕ}

omit [DecidableEq K] in
theorem Untouched.tail {act : Action K X Y} (h : Untouched k (act :: acts)) : Untouched k acts :=
  fun a ha => h a (List.mem_cons_of_mem _ ha)

theorem fills_some {x : X} {ys : List Y} : Fills needed (some (x, ys)) ↔ ys.length + 1 = needed x := by
  constructor
  · rintro ⟨x', ys', hr, h⟩
    cases hr
    exact h
  · intro h
    exact ⟨x, ys, rfl, h⟩

theorem answersTo_append (acts acts' : List (Action K X Y)) :
    answersTo k (acts ++ acts') = answersTo k acts' ++ answersTo k acts := by
  induction acts with
  | nil => simp [answersTo]
  | cons act acts ih =>
    cases act with
    | answers k' y =>
      simp only [List.cons_append, answersTo, ih]
      split
      · rw [List.append_assoc]
      · rfl
    | opens k' x => exact ih
    | closes k' => exact ih

/-- Answers keep a request open. -/
theorem pending_answers {ys : List Y} (h : pending k acts = some (x, ys)) (k' : K) (y : Y) :
    ∃ ys, pending k (.answers k' y :: acts) = some (x, ys) := by
  simp only [pending, h, Option.map_some]
  split
  · exact ⟨_, rfl⟩
  · exact ⟨ys, rfl⟩

/-- **An open request has collected the answers with its own key.** -/
theorem pending_append (hd : Untouched k during) :
    pending k (during ++ acts) =
      (pending k acts).map fun r => (r.1, r.2 ++ answersTo k during) := by
  induction during with
  | nil => simp [answersTo]
  | cons act during ih =>
    have ih := ih hd.tail
    have hact := hd act List.mem_cons_self
    cases act with
    | opens k' x =>
      have hne : k' ≠ k := by
        rintro rfl
        exact hact.1 x rfl
      simp only [List.cons_append, pending, answersTo, if_neg hne]
      exact ih
    | closes k' =>
      have hne : k' ≠ k := by
        rintro rfl
        exact hact.2 rfl
      simp only [List.cons_append, pending, answersTo, if_neg hne]
      exact ih
    | answers k' y =>
      simp only [List.cons_append, pending, answersTo, ih]
      split
      · simp [Function.comp_def]
      · rfl

theorem pending_open (hd : Untouched k during) :
    pending k (during ++ .opens k x :: acts) = some (x, answersTo k during) := by
  rw [pending_append hd]
  simp [pending]

/-- **The trigger of an open request has fired when it has the answers it needs.** -/
theorem triggers_open (hx : 0 < needed x) (hd : Untouched k during) :
    triggers needed k (during ++ .opens k x :: acts) =
      triggers needed k acts + if needed x ≤ (answersTo k during).length then 1 else 0 := by
  induction during with
  | nil =>
    have hnot : ¬ needed x ≤ 0 := Nat.not_le.2 hx
    simp [triggers, answersTo, hnot]
  | cons act during ih =>
    have ih := ih hd.tail
    cases act with
    | opens k' x' => exact ih
    | closes k' => exact ih
    | answers k' y =>
      simp only [List.cons_append, triggers, answersTo, ih, pending_open hd.tail, fills_some]
      by_cases hk : k' = k
      · simp only [hk, true_and, if_true, List.length_append, List.length_singleton]
        split <;> split <;> split <;> omega
      · simp [hk]

/-- One for a request that still lacks answers. -/
def lacking (needed : X → ℕ) : Option (X × List Y) → ℕ
  | none => 0
  | some (x, ys) => if ys.length < needed x then 1 else 0

omit [DecidableEq K] in
theorem lacking_le_one (r : Option (X × List Y)) : lacking needed r ≤ 1 := by
  rcases r with _ | ⟨x, ys⟩
  · exact Nat.zero_le 1
  · simp only [lacking]
    split
    · exact Nat.le_refl 1
    · exact Nat.zero_le 1

/-- An answer that fills a request uses up its opening. -/
theorem lacking_answers (r : Option (X × List Y)) (y : Y) :
    lacking needed (r.map fun r => (r.1, r.2 ++ [y])) + (if Fills needed r then 1 else 0) =
      lacking needed r := by
  rcases r with _ | ⟨x, ys⟩
  · have hnot : ¬ Fills needed (none : Option (X × List Y)) := fun ⟨_, _, h, _⟩ => nomatch h
    simp [lacking, hnot]
  · simp only [Option.map_some, lacking, fills_some, List.length_append, List.length_singleton]
    split <;> split <;> split <;> omega

theorem triggers_add_lacking (k : K) (acts : List (Action K X Y)) :
    triggers needed k acts + lacking needed (pending k acts) ≤ openings k acts := by
  induction acts with
  | nil => simp [triggers, pending, openings, lacking]
  | cons act acts ih =>
    cases act with
    | opens k' x =>
      simp only [triggers, pending, openings]
      split
      · have hone := @lacking_le_one X Y needed (some (x, []))
        omega
      · exact ih
    | closes k' =>
      simp only [triggers, pending, openings]
      split
      · exact Nat.le_trans (Nat.le_add_right _ _) ih
      · exact ih
    | answers k' y =>
      simp only [triggers, pending, openings]
      by_cases hk : k' = k
      · have hfill := @lacking_answers X Y needed (pending k acts) y
        simp only [hk, true_and, if_true]
        omega
      · simpa [hk] using ih

/-- **A trigger fires at most once for each opening.** -/
theorem triggers_le_openings (k : K) (acts : List (Action K X Y)) :
    triggers needed k acts ≤ openings k acts :=
  Nat.le_trans (Nat.le_add_right _ _) (triggers_add_lacking k acts)

theorem triggers_unopened (h : openings k acts = 0) : triggers needed k acts = 0 :=
  Nat.le_zero.1 (h ▸ triggers_le_openings k acts)

/-- **Nothing is pending under a key that has been closed and not been opened again.** -/
theorem pending_closed {later : List (Action K X Y)} (h : openings k later = 0) :
    pending k (later ++ .closes k :: acts) = none := by
  induction later with
  | nil => simp [pending]
  | cons act later ih =>
    cases act with
    | opens k' x =>
      simp only [openings] at h
      have hne : k' ≠ k := by
        rintro rfl
        simp at h
      simp only [if_neg hne, Nat.add_zero] at h
      simp only [List.cons_append, pending, if_neg hne]
      exact ih h
    | answers k' y =>
      simp only [List.cons_append, pending, ih h]
      exact ite_self _
    | closes k' =>
      simp only [List.cons_append, pending, ih h]
      exact ite_self _

/-- A request that is open has been opened and not been touched since. -/
theorem exists_of_pending {ys : List Y} (h : pending k acts = some (x, ys)) :
    ∃ during before, acts = during ++ .opens k x :: before ∧ Untouched k during ∧
      ys = answersTo k during := by
  induction acts generalizing ys with
  | nil => cases h
  | cons act acts ih =>
    have hskip : pending k acts = some (x, ys) → (∀ x, act ≠ .opens k x) → act ≠ .closes k →
        (∀ during, answersTo k (act :: during) = answersTo k during) →
        ∃ during before, act :: acts = during ++ .opens k x :: before ∧ Untouched k during ∧
          ys = answersTo k during := by
      intro h hopens hcloses hanswers
      obtain ⟨during, before, rfl, huntouched, rfl⟩ := ih h
      refine ⟨act :: during, before, rfl, fun a ha => ?_, (hanswers during).symm⟩
      rcases List.mem_cons.1 ha with rfl | ha
      · exact ⟨hopens, hcloses⟩
      · exact huntouched a ha
    cases act with
    | opens k' x' =>
      simp only [pending] at h
      split at h
      · rename_i hk
        cases h
        subst hk
        exact ⟨[], acts, rfl, fun a ha => absurd ha List.not_mem_nil, rfl⟩
      · rename_i hk
        refine hskip h (fun y hy => ?_) nofun fun during => rfl
        cases hy
        exact hk rfl
    | closes k' =>
      simp only [pending] at h
      split at h
      · cases h
      · rename_i hk
        refine hskip h nofun (fun hy => ?_) fun during => rfl
        cases hy
        exact hk rfl
    | answers k' y =>
      simp only [pending] at h
      split at h
      · rename_i hk
        subst hk
        obtain ⟨⟨x', ys'⟩, hp, heq⟩ := Option.map_eq_some_iff.1 h
        cases heq
        obtain ⟨during, before, rfl, huntouched, rfl⟩ := ih hp
        refine ⟨.answers k' y :: during, before, rfl, fun a ha => ?_, ?_⟩
        · rcases List.mem_cons.1 ha with rfl | ha
          · exact ⟨nofun, nofun⟩
          · exact huntouched a ha
        · simp only [answersTo, if_true]
      · rename_i hk
        exact hskip h nofun nofun fun during => if_neg hk

theorem openings_append (acts acts' : List (Action K X Y)) :
    openings k (acts ++ acts') = openings k acts + openings k acts' := by
  induction acts with
  | nil => simp [openings]
  | cons act acts ih =>
    cases act with
    | opens k' x =>
      simp only [List.cons_append, openings, ih]
      omega
    | answers k' y => exact ih
    | closes k' => exact ih

theorem openings_eq_zero (h : ∀ x, Action.opens k x ∉ acts) : openings k acts = 0 := by
  induction acts with
  | nil => rfl
  | cons act acts ih =>
    have ih := ih fun x hx => h x (List.mem_cons_of_mem _ hx)
    cases act with
    | opens k' x =>
      have hne : k' ≠ k := by
        rintro rfl
        exact h x List.mem_cons_self
      simp only [openings, ih, if_neg hne]
    | answers k' y => exact ih
    | closes k' => exact ih

end Lemmas

end Pending
