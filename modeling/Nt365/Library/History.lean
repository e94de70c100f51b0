import Mathlib.Data.List.Basic

/-!
# What holds before each event

A run is a list of events. `Throughout P before run` says that `P` holds of each event of the run and of all that has
happened before it, `before` included. A run is gone through from its front, event by event
(`throughout_cons`).
-/

namespace Nt365.Library

variable {α : Type*} {P : List α → α → Prop} {before run : List α} {e : α}

/-- `P` holds of each event and what came before it. -/
def Throughout (P : List α → α → Prop) (before run : List α) : Prop :=
  ∀ past event future, run = past ++ event :: future → P (before ++ past) event

theorem throughout_nil : Throughout P before [] := fun past event future h =>
  absurd h.symm (List.append_ne_nil_of_right_ne_nil past (List.cons_ne_nil event future))

theorem throughout_cons : Throughout P before (e :: run) ↔ P before e ∧ Throughout P (before ++ [e]) run := by
  constructor
  · intro h
    refine ⟨by simpa using h [] e run rfl, fun past event future hrun => ?_⟩
    simpa using h (e :: past) event future (by rw [hrun, List.cons_append])
  · rintro ⟨he, h⟩ past event future hrun
    cases past with
    | nil =>
      obtain ⟨rfl, rfl⟩ := List.cons.inj hrun
      simpa using he
    | cons first past =>
      obtain ⟨rfl, htail⟩ := List.cons.inj hrun
      simpa using h past event future htail

theorem throughout_concat (h : Throughout P before run) (he : P (before ++ run) e) : Throughout P before (run ++ [e]) := by
  intro past event future hsplit
  rcases List.eq_nil_or_concat' future with rfl | ⟨future, last, rfl⟩
  · obtain ⟨rfl, hlast⟩ := List.append_inj' hsplit rfl
    obtain rfl := List.singleton_inj.1 hlast
    exact he
  · rw [← List.cons_append, ← List.append_assoc] at hsplit
    exact h past event future (List.append_inj' hsplit rfl).1

/-- What holds of every event of the run whatever came before it. -/
theorem throughout_of_forall_mem (h : ∀ past, ∀ event ∈ run, P (before ++ past) event) : Throughout P before run := by
  rintro past event future rfl
  exact h past event (List.mem_append_right past (List.mem_cons_self ..))

end Nt365.Library
