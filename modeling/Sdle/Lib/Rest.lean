import Sdle.Lib.Tasks
import Mathlib.Logic.Hydra
import Mathlib.Algebra.BigOperators.Group.Finset.Basic

/-!
# Coming to rest

A step of a task takes it further down its program, so that without arrivals the work of a machine
shrinks like the heads of a hydra.

* `acc_advances` — the tasks that run cannot go on for ever by themselves.
* `Run.rest` — **where some task can always move, the tasks come to an end**.
-/

set_option autoImplicit false

namespace Tasks

open Relation

variable {S : Sig} {α : Type}

/-- What is left of a program after one operation. -/
inductive Prog.Child : Prog S α → Prog S α → Prop
  | mk (o : S.Op) (k : S.Ans o → Prog S α) (a : S.Ans o) : Child (k a) (.op o k)

/-- A program is a tree without infinite paths. -/
theorem Prog.child_wf : WellFounded (@Prog.Child S α) := by
  refine ⟨fun p => ?_⟩
  induction p with
  | pure a => exact ⟨_, fun _ h => by cases h⟩
  | op o k ih =>
    refine ⟨_, fun _ h => ?_⟩
    cases h
    exact ih _

variable {m : Machine S} [DecidableEq m.Tid]

/-- A step that nothing from outside takes part in. -/
def Internal (ev : Event m) : Prop := ∀ e, ev ≠ .arrived e

/-- A task has made a step. -/
def Advances (c' c : Config m) : Prop := ∃ ev, Internal ev ∧ Step m c ev c'

/-- Only these tasks run. -/
def Config.Within (F : Finset m.Tid) (c : Config m) : Prop := ∀ t, c.pool t ≠ none → t ∈ F

/-- What is left to do, task by task. -/
def Config.work (F : Finset m.Tid) (c : Config m) : Multiset (Prog S Unit) :=
  ∑ t ∈ F, (c.pool t).elim 0 fun p => {p}

theorem work_eq_add {F : Finset m.Tid} {t : m.Tid} (ht : t ∈ F) (c : Config m) :
    c.work F = (c.pool t).elim 0 (fun p => {p}) + c.work (F.erase t) :=
  (Finset.add_sum_erase F (fun t => (c.pool t).elim (0 : Multiset (Prog S Unit)) fun p => {p}) ht).symm

/-- The other tasks have as much to do as before. -/
theorem work_erase_update (F : Finset m.Tid) (t : m.Tid) (p : Option (Prog S Unit))
    (pool : m.Tid → Option (Prog S Unit)) (σ σ' : m.State) :
    Config.work (F.erase t) ⟨Function.update pool t p, σ'⟩ = Config.work (F.erase t) ⟨pool, σ⟩ := by
  apply Finset.sum_congr rfl
  intro t' ht'
  show (Function.update pool t p t').elim 0 _ = _
  rw [Function.update_of_ne (Finset.ne_of_mem_erase ht')]

theorem within_update {F : Finset m.Tid} {t : m.Tid} (ht : t ∈ F) {pool : m.Tid → Option (Prog S Unit)}
    {σ : m.State} (hF : Config.Within F ⟨pool, σ⟩) (p : Option (Prog S Unit)) (σ' : m.State) :
    Config.Within F ⟨Function.update pool t p, σ'⟩ := by
  intro t' ht'
  by_cases h : t' = t
  · rw [h]
    exact ht
  · apply hF t'
    simpa only [Function.update_of_ne h] using ht'

/-- **A step leaves less to do.** -/
theorem cut_of_step {F : Finset m.Tid} {c c' : Config m} (hF : c.Within F) (h : Advances c' c) :
    CutExpand Prog.Child (c'.work F) (c.work F) ∧ c'.Within F := by
  obtain ⟨ev, hev, hstep⟩ := h
  cases hstep with
  | @did pool σ σ' t o k _ a live _ =>
    have ht : t ∈ F := hF t (by simp [live])
    refine ⟨?_, within_update ht hF _ _⟩
    rw [work_eq_add ht, work_eq_add ht, work_erase_update F t _ pool σ σ', cutExpand_add_right]
    simp only [live, Function.update_self]
    exact cutExpand_singleton_singleton (.mk o k a)
  | @ended pool σ t live =>
    have ht : t ∈ F := hF t (by simp [live])
    refine ⟨?_, within_update ht hF _ _⟩
    rw [work_eq_add ht, work_eq_add ht, work_erase_update F t _ pool σ σ, cutExpand_add_right]
    simp only [live, Function.update_self]
    exact cutExpand_zero
  | arrived => exact absurd rfl (hev _)
  | started => exact absurd rfl (hev _)

/-- **The tasks cannot go on for ever by themselves.** -/
theorem acc_advances {F : Finset m.Tid} {c : Config m} (hF : c.Within F) : Acc Advances c := by
  generalize hw : c.work F = w
  induction w using (Prog.child_wf (S := S)).cutExpand.induction generalizing c with
  | _ w ih =>
    refine ⟨_, fun c' hc' => ?_⟩
    obtain ⟨hcut, hF'⟩ := cut_of_step hF hc'
    rw [hw] at hcut
    exact ih _ hcut hF' rfl

/-- Finitely many tasks run. -/
theorem Run.within {D : Discipline m} {c₀ c : Config m} {evs : List (Event m)}
    (h₀ : ∃ F, c₀.Within F) (hrun : Run m D c₀ evs c) : ∃ F, c.Within F := by
  induction hrun with
  | init => exact h₀
  | @step evs ev c c' _ _ hstep ih =>
    obtain ⟨F, hF⟩ := ih
    by_cases hev : Internal ev
    · exact ⟨F, (cut_of_step hF ⟨ev, hev, hstep⟩).2⟩
    · cases hstep with
      | did | ended => exact absurd (fun _ h => by cases h) hev
      | arrived => exact ⟨F, hF⟩
      | @started pool σ σ' e t p _ _ =>
        have hmore : Config.Within (insert t F) ⟨pool, σ⟩ := fun t' ht' =>
          Finset.mem_insert_of_mem (hF t' ht')
        exact ⟨insert t F, within_update (Finset.mem_insert_self t F) hmore _ _⟩

/-- **Where some task can always move, the tasks come to an end**, whatever they have done so far. -/
theorem Run.rest {D : Discipline m} {c₀ : Config m} (Done : Config m → Prop)
    (h₀ : ∃ F, c₀.Within F)
    (hmove : ∀ evs c, Run m D c₀ evs c →
      Done c ∨ ∃ ev c', Internal ev ∧ D evs c.state ev ∧ Step m c ev c')
    {evs : List (Event m)} {c : Config m} (hrun : Run m D c₀ evs c) :
    ∃ since c', Run m (fun evs' => D (evs' ++ evs)) c since c' ∧ (∀ ev ∈ since, Internal ev) ∧ Done c' := by
  obtain ⟨F, hF⟩ := hrun.within h₀
  induction acc_advances hF generalizing evs with
  | intro c _ ih =>
    rcases hmove evs c hrun with hdone | ⟨ev, c', hev, hD, hstep⟩
    · exact ⟨[], c, .init, fun _ h => absurd h List.not_mem_nil, hdone⟩
    · have hadv : Advances c' c := ⟨ev, hev, hstep⟩
      obtain ⟨since, c'', hrun', hsince, hdone⟩ :=
        ih c' hadv (hrun.step hD hstep) (cut_of_step hF hadv).2
      have hfirst : Run m (fun evs' => D (evs' ++ evs)) c [ev] c' := .step .init hD hstep
      refine ⟨since ++ [ev], c'', hfirst.join ?_, fun ev' hev' => ?_, hdone⟩
      · apply hrun'.mono
        intro evs' σ ev' hD'
        rw [List.append_assoc]
        exact hD'
      · rcases List.mem_append.1 hev' with h | h
        · exact hsince ev' h
        · rw [List.mem_singleton.1 h]
          exact hev

end Tasks
