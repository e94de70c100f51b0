import Mathlib.Data.List.Basic
import Mathlib.Data.Int.Order.Basic

/-!
# Walking a sorted list and stopping early

A list sorted by a key is searched for an element that blocks a request. The walk stops
at the first element whose key is past the end of the request, since no element after it
can matter.

## What is proved

On a sorted list the walk misses nothing (`walk_eq_none_iff`), and the place where it
stops splits the list at the end of the request (`walk_split`). On a list that is not
sorted neither holds.
-/

namespace Nt365.Library

open List

variable {α : Type*}

/-- The walk from position `k` on: `none` if it meets a blocking element, and otherwise
the position where it stops. -/
def walk (key : α → ℤ) (blocks : α → Bool) (stop : ℤ) : List α → ℕ → Option ℕ
  | [], k => some k
  | x :: xs, k =>
    if stop < key x then some k
    else if blocks x then none
    else walk key blocks stop xs (k + 1)

/-- Sorted by the key. -/
def SortedBy (key : α → ℤ) (xs : List α) : Prop := xs.Pairwise fun x y => key x ≤ key y

variable {key : α → ℤ} {blocks : α → Bool} {stop : ℤ}

theorem SortedBy.tail {x : α} {xs : List α} (h : SortedBy key (x :: xs)) : SortedBy key xs :=
  (pairwise_cons.mp h).2

theorem SortedBy.head_le {x y : α} {xs : List α} (h : SortedBy key (x :: xs)) (hy : y ∈ xs) : key x ≤ key y :=
  (pairwise_cons.mp h).1 y hy

/-- **The walk misses nothing** in a sorted list. -/
theorem walk_eq_none_iff {xs : List α} (h : SortedBy key xs) (k : ℕ) :
    walk key blocks stop xs k = none ↔ ∃ x ∈ xs, key x ≤ stop ∧ blocks x = true := by
  induction xs generalizing k with
  | nil => simp [walk]
  | cons x xs ih =>
    rw [walk]
    by_cases hx : stop < key x
    · rw [if_pos hx]
      constructor
      · intro hnone
        cases hnone
      · rintro ⟨y, hy, hle, -⟩
        -- everything from here on is past the end of the request
        rcases mem_cons.mp hy with rfl | hy
        · omega
        · have := h.head_le hy
          omega
    · rw [if_neg hx]
      by_cases hb : blocks x = true
      · rw [if_pos hb]
        exact ⟨fun _ => ⟨x, mem_cons_self, by omega, hb⟩, fun _ => rfl⟩
      · rw [if_neg hb, ih h.tail]
        constructor
        · rintro ⟨y, hy, hle, hyb⟩
          exact ⟨y, mem_cons_of_mem _ hy, hle, hyb⟩
        · rintro ⟨y, hy, hle, hyb⟩
          rcases mem_cons.mp hy with rfl | hy
          · exact absurd hyb hb
          · exact ⟨y, hy, hle, hyb⟩

/-- **Where the walk stops**: what comes before starts by the end of the request, and in
a sorted list what comes after starts past it. -/
theorem walk_split {xs : List α} (h : SortedBy key xs) {k j : ℕ} (hw : walk key blocks stop xs k = some j) :
    ∃ pre post, xs = pre ++ post ∧ j = k + pre.length ∧ (∀ x ∈ pre, key x ≤ stop) ∧ ∀ x ∈ post, stop < key x := by
  induction xs generalizing k with
  | nil =>
    rw [walk, Option.some.injEq] at hw
    exact ⟨[], [], rfl, by simpa using hw.symm, by simp, by simp⟩
  | cons x xs ih =>
    rw [walk] at hw
    by_cases hx : stop < key x
    · rw [if_pos hx, Option.some.injEq] at hw
      refine ⟨[], x :: xs, rfl, by simpa using hw.symm, by simp, ?_⟩
      intro y hy
      rcases mem_cons.mp hy with rfl | hy
      · exact hx
      · exact lt_of_lt_of_le hx (h.head_le hy)
    · rw [if_neg hx] at hw
      by_cases hb : blocks x = true
      · rw [if_pos hb] at hw
        cases hw
      · rw [if_neg hb] at hw
        obtain ⟨pre, post, rfl, rfl, hpre, hpost⟩ := ih h.tail hw
        refine ⟨x :: pre, post, rfl, by rw [length_cons]; omega, ?_, hpost⟩
        intro y hy
        rcases mem_cons.mp hy with rfl | hy
        · omega
        · exact hpre y hy

/-- An element put between those that start no later and those that start no earlier. -/
theorem SortedBy.insert {pre post : List α} {x : α} (h : SortedBy key (pre ++ post)) (hpre : ∀ y ∈ pre, key y ≤ key x)
    (hpost : ∀ y ∈ post, key x ≤ key y) : SortedBy key (pre ++ x :: post) := by
  obtain ⟨h₁, h₂, h₃⟩ := pairwise_append.mp h
  refine pairwise_append.mpr ⟨h₁, pairwise_cons.mpr ⟨hpost, h₂⟩, ?_⟩
  intro y hy z hz
  rcases mem_cons.mp hz with rfl | hz
  · exact hpre y hy
  · exact h₃ y hy z hz

end Nt365.Library
