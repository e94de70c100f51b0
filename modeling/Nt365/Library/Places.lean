import Mathlib.Data.List.Nodup
import Mathlib.Logic.Function.Basic

/-!
# Tasks and the places where they wait

A task of a cooperative scheduler is dead, is the one that runs, or is in one place: the queue of tasks that are ready, the
list of those that wait for an event, or a slot that holds one task. `Placed` says that the queue, the list and the slots
hold each task where a map of places has it, so that no task is in two places or in none. Each move of a
scheduler changes the place of one task.
-/

namespace Nt365.Library

variable {T S : Type*}

/-- Where a task is. -/
inductive Place (S : Type*) where
  | dead
  | running
  | ready
  | waiting
  | slot (σ : S)

/-- The queue, the list, the slots and the running task agree with the map of places. -/
structure Placed (place : T → Place S) (alive ready waiting : List T) (slot : S → Option T)
    (running : Option T) : Prop where
  alive_iff : ∀ u, u ∈ alive ↔ place u ≠ .dead
  ready_iff : ∀ u, u ∈ ready ↔ place u = .ready
  waiting_iff : ∀ u, u ∈ waiting ↔ place u = .waiting
  slot_iff : ∀ σ u, slot σ = some u ↔ place u = .slot σ
  running_iff : ∀ u, running = some u ↔ place u = .running
  alive_nodup : alive.Nodup
  ready_nodup : ready.Nodup
  waiting_nodup : waiting.Nodup

variable {place : T → Place S} {alive ready waiting alive' ready' waiting' : List T} {slot slot' : S → Option T}
  {running running' : Option T} {t : T} {σ : S}

theorem placed_nil : Placed (fun _ : T => .dead) [] [] [] (fun _ : S => none) none where
  alive_iff _ := by simp
  ready_iff _ := by simp
  waiting_iff _ := by simp
  slot_iff _ _ := by simp
  running_iff _ := by simp
  alive_nodup := List.nodup_nil
  ready_nodup := List.nodup_nil
  waiting_nodup := List.nodup_nil

section

namespace Placed

variable (h : Placed place alive ready waiting slot running)

include h

theorem mem_alive_of_running (ht : running = some t) : t ∈ alive := by
  simp [h.alive_iff, (h.running_iff t).1 ht]

theorem at_iff (t : T) : (t ∈ alive ↔ place t ≠ .dead) ∧ (t ∈ ready ↔ place t = .ready) ∧ (t ∈ waiting ↔ place t = .waiting) ∧
    (∀ σ, slot σ = some t ↔ place t = .slot σ) ∧ (running = some t ↔ place t = .running) :=
  ⟨h.alive_iff t, h.ready_iff t, h.waiting_iff t, fun σ => h.slot_iff σ t, h.running_iff t⟩

theorem ready_concat (ht : place t ≠ .ready) : (ready ++ [t]).Nodup := by
  rw [← List.concat_eq_append]
  exact .concat (fun hr => ht ((h.ready_iff t).1 hr)) h.ready_nodup

end Placed

end

variable [DecidableEq T]

namespace Placed

/-- **A move**: task `t` goes to another place, and all else stays where it is. -/
theorem move (h : Placed place alive ready waiting slot running) (t : T) (new : Place S)
    (halive : ∀ u, u ∈ alive' ↔ if u = t then new ≠ .dead else u ∈ alive)
    (hready : ∀ u, u ∈ ready' ↔ if u = t then new = .ready else u ∈ ready)
    (hwaiting : ∀ u, u ∈ waiting' ↔ if u = t then new = .waiting else u ∈ waiting)
    (hslot : ∀ σ u, slot' σ = some u ↔ if u = t then new = .slot σ else slot σ = some u)
    (hrunning : ∀ u, running' = some u ↔ if u = t then new = .running else running = some u)
    (halive' : alive'.Nodup) (hready' : ready'.Nodup) (hwaiting' : waiting'.Nodup) :
    Placed (Function.update place t new) alive' ready' waiting' slot' running' := by
  refine ⟨fun u => ?_, fun u => ?_, fun u => ?_, fun σ u => ?_, fun u => ?_, halive', hready', hwaiting'⟩
  all_goals grind [h.alive_iff, h.ready_iff, h.waiting_iff, h.slot_iff, h.running_iff]

theorem resume (h : Placed place alive (t :: ready) waiting slot none) :
    Placed (Function.update place t .running) alive ready waiting slot (some t) := by
  have hat := h.at_iff t
  have ht := (h.ready_iff t).1 (List.mem_cons_self ..)
  obtain ⟨hnot, hnodup⟩ := List.nodup_cons.1 h.ready_nodup
  refine h.move t _ ?_ ?_ ?_ ?_ ?_ h.alive_nodup hnodup h.waiting_nodup
  all_goals
    intros
    split <;> simp_all [eq_comm]
theorem pass (h : Placed place alive ready waiting slot (some t)) :
    Placed (Function.update place t .ready) alive (ready ++ [t]) waiting slot none := by
  have hat := h.at_iff t
  have ht := (h.running_iff t).1 rfl
  refine h.move t _ ?_ ?_ ?_ ?_ ?_ h.alive_nodup (h.ready_concat (by simp [ht])) h.waiting_nodup
  all_goals
    intros
    split <;> simp_all [eq_comm]
theorem await (h : Placed place alive ready waiting slot (some t)) :
    Placed (Function.update place t .waiting) alive ready (waiting ++ [t]) slot none := by
  have hat := h.at_iff t
  have ht := (h.running_iff t).1 rfl
  have hnot : t ∉ waiting := fun hw => by simp [(h.waiting_iff t).1 hw] at ht
  refine h.move t _ ?_ ?_ ?_ ?_ ?_ h.alive_nodup h.ready_nodup (by simpa using List.Nodup.concat hnot h.waiting_nodup)
  all_goals
    intros
    split <;> simp_all [eq_comm]
theorem signal {l₁ l₂ : List T} (h : Placed place alive ready (l₁ ++ t :: l₂) slot running) :
    Placed (Function.update place t .ready) alive (ready ++ [t]) (l₁ ++ l₂) slot running := by
  have hat := h.at_iff t
  have ht := (h.waiting_iff t).1 (by simp)
  obtain ⟨hnot, hnodup⟩ := List.nodup_cons.1 (List.nodup_middle.1 h.waiting_nodup)
  refine h.move t _ ?_ ?_ ?_ ?_ ?_ h.alive_nodup (h.ready_concat (by simp [ht])) hnodup
  all_goals
    intros
    split <;> simp_all [eq_comm]
theorem spawn (h : Placed place alive ready waiting slot running) (ht : t ∉ alive) :
    Placed (Function.update place t .ready) (alive ++ [t]) (ready ++ [t]) waiting slot running := by
  have hat := h.at_iff t
  have hdead : place t = .dead := not_not.1 (mt (h.alive_iff t).2 ht)
  refine h.move t _ ?_ ?_ ?_ ?_ ?_ (by simpa using List.Nodup.concat ht h.alive_nodup) (h.ready_concat (by simp [hdead]))
    h.waiting_nodup
  all_goals
    intros
    split <;> simp_all [eq_comm]
theorem finish (h : Placed place alive ready waiting slot (some t)) :
    Placed (Function.update place t .dead) (alive.erase t) ready waiting slot none := by
  have hat := h.at_iff t
  have ht := (h.running_iff t).1 rfl
  refine h.move t _ ?_ ?_ ?_ ?_ ?_ (h.alive_nodup.erase t) h.ready_nodup h.waiting_nodup
  all_goals
    intros
    split <;> simp_all [eq_comm, h.alive_nodup.mem_erase_iff]

variable [DecidableEq S]

theorem park (h : Placed place alive ready waiting slot (some t)) (hσ : slot σ = none) :
    Placed (Function.update place t (.slot σ)) alive ready waiting (Function.update slot σ (some t)) none := by
  have hat := h.at_iff t
  refine h.move t _ ?_ ?_ ?_ ?_ ?_ h.alive_nodup h.ready_nodup h.waiting_nodup
  all_goals grind
theorem wake (h : Placed place alive ready waiting slot running) (hσ : slot σ = some t) :
    Placed (Function.update place t .ready) alive (ready ++ [t]) waiting (Function.update slot σ none) running := by
  have hat := h.at_iff t
  have ht := (h.slot_iff σ t).1 hσ
  refine h.move t _ ?_ ?_ ?_ ?_ ?_ h.alive_nodup (h.ready_concat (by simp [ht])) h.waiting_nodup
  all_goals grind

end Placed

end Nt365.Library
