import Mathlib.Logic.Function.Basic

/-!
# Lists of stores

A list of stores to a memory is made from the first to the last. An address that is not stored to keeps its
value; one that all stores to it agree on has that value.
-/

namespace Nt365.Library

variable {α β : Type*} [DecidableEq α] {mem : α → β} {ws ws' : List (α × β)} {a : α} {v : β}

/-- The memory after the stores. -/
def storeAll (mem : α → β) (ws : List (α × β)) : α → β := ws.foldl (fun mem w => Function.update mem w.1 w.2) mem

theorem storeAll_append : storeAll mem (ws ++ ws') = storeAll (storeAll mem ws) ws' := List.foldl_append ..

theorem storeAll_of_forall_ne (h : ∀ w ∈ ws, w.1 ≠ a) : storeAll mem ws a = mem a := by
  induction ws generalizing mem with
  | nil => rfl
  | cons w ws ih =>
    rw [List.forall_mem_cons] at h
    rw [storeAll, List.foldl_cons, ← storeAll, ih h.2, Function.update_of_ne h.1.symm]

theorem storeAll_of_mem (hmem : (a, v) ∈ ws) (h : ∀ w ∈ ws, w.1 = a → w.2 = v) : storeAll mem ws a = v := by
  induction ws generalizing mem with
  | nil => cases hmem
  | cons w ws ih =>
    rw [List.forall_mem_cons] at h
    rw [storeAll, List.foldl_cons, ← storeAll]
    by_cases hlater : (a, v) ∈ ws
    · exact ih hlater h.2
    · obtain rfl : (a, v) = w := (List.mem_cons.mp hmem).resolve_right hlater
      have hnone : ∀ w ∈ ws, w.1 ≠ a := by
        intro w hw heq
        refine hlater ?_
        rw [← heq, ← h.2 w hw heq]
        exact hw
      rw [storeAll_of_forall_ne hnone, Function.update_self]

end Nt365.Library
