import Nt365.Library.Linked

/-!
# Free lists

The free places of a store, linked through the places themselves: from `head` on, `next` visits every free
place once and arrives at `nil`, which is no place. A place is taken from the head and put back there.
-/

namespace Nt365.Library

variable {α : Type*} {next next' : α → α} {nil head a : α} {free free' : α → Prop}

/-- Following `next` from `head` visits exactly the free places, each once, and arrives at `nil`. -/
def FreeList (next : α → α) (nil head : α) (free : α → Prop) : Prop :=
  ∃ xs, Linked next head xs nil ∧ xs.Nodup ∧ ∀ a, a ∈ xs ↔ free a

namespace FreeList

theorem of_none_free (h : ∀ a, ¬free a) : FreeList next nil nil free :=
  ⟨[], rfl, List.nodup_nil, fun a => iff_of_false List.not_mem_nil (h a)⟩

section

variable (h : FreeList next nil head free)

include h

theorem congr (hnext : ∀ a, free a → next' a = next a) (hfree : ∀ a, free' a ↔ free a) : FreeList next' nil head free' := by
  obtain ⟨xs, hlinked, hnodup, hmem⟩ := h
  refine ⟨xs, hlinked.congr fun a ha => hnext a ((hmem a).mp ha), hnodup, fun a => ?_⟩
  rw [hmem a, hfree a]

theorem not_free_of_head_eq_nil (hnil : ¬free nil) (hhead : head = nil) : ¬free a := by
  obtain ⟨xs, hlinked, -, hmem⟩ := h
  cases xs with
  | nil => exact fun ha => List.not_mem_nil ((hmem a).mpr ha)
  | cons x xs =>
    obtain ⟨rfl, -⟩ := hlinked
    exact absurd ((hmem nil).mp (by rw [hhead]; exact List.mem_cons_self)) hnil

/-- The head is free, and the places after it are the other ones. -/
theorem pop (hhead : head ≠ nil) : free head ∧ FreeList next nil (next head) fun a => free a ∧ a ≠ head := by
  obtain ⟨xs, hlinked, hnodup, hmem⟩ := h
  cases xs with
  | nil => exact absurd hlinked hhead
  | cons x xs =>
    obtain ⟨rfl, hrest⟩ := hlinked
    rw [List.nodup_cons] at hnodup
    refine ⟨(hmem head).mp List.mem_cons_self, xs, hrest, hnodup.2, fun a => ?_⟩
    change a ∈ xs ↔ free a ∧ a ≠ head
    rw [← hmem a, List.mem_cons]
    constructor
    · exact fun ha => ⟨.inr ha, ne_of_mem_of_not_mem ha hnodup.1⟩
    · rintro ⟨rfl | ha, hne⟩
      · exact absurd rfl hne
      · exact ha

/-- A place that was not free, linked to the head, is the new head. -/
theorem push (hnew : ¬free a) (hlink : next' a = head)
    (hnext : ∀ b, free b → next' b = next b) : FreeList next' nil a fun b => b = a ∨ free b := by
  obtain ⟨xs, hlinked, hnodup, hmem⟩ := h
  refine ⟨a :: xs, ⟨rfl, ?_⟩, ?_, fun b => ?_⟩
  · rw [hlink]
    exact hlinked.congr fun b hb => hnext b ((hmem b).mp hb)
  · exact List.nodup_cons.mpr ⟨fun ha => hnew ((hmem a).mp ha), hnodup⟩
  · rw [List.mem_cons, hmem b]

end

end FreeList

end Nt365.Library
