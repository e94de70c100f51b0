import Mathlib.Data.List.Nodup

/-!
# Linked places

A list kept in an array: each place names the next one. `Linked next h xs t` says which places are
visited from `h` on and where the list goes after them; it does not say what is stored at `t`.
-/

namespace Nt365.Library

open List

variable {α : Type*} {next next' : α → α}

/-- Following `next` from `h` visits `xs` and arrives at `t`. -/
def Linked (next : α → α) : α → List α → α → Prop
  | h, [], t => h = t
  | h, x :: xs, t => h = x ∧ Linked next (next x) xs t

/-- The first `n` places from `h` on. -/
def visit (next : α → α) : ℕ → α → List α
  | 0, _ => []
  | n + 1, h => h :: visit next n (next h)

variable {h t : α} {xs ys : List α}

@[simp] theorem linked_nil : Linked next h [] t ↔ h = t := Iff.rfl

@[simp] theorem linked_cons {x : α} : Linked next h (x :: xs) t ↔ h = x ∧ Linked next (next x) xs t := Iff.rfl

theorem linked_append : Linked next h (xs ++ ys) t ↔ ∃ m, Linked next h xs m ∧ Linked next m ys t := by
  induction xs generalizing h with
  | nil => simp
  | cons x xs ih => simp [ih, and_assoc]

theorem Linked.congr (hl : Linked next h xs t) (heq : ∀ x ∈ xs, next' x = next x) : Linked next' h xs t := by
  induction xs generalizing h with
  | nil => exact hl
  | cons x xs ih =>
    obtain ⟨rfl, hrest⟩ := hl
    refine ⟨rfl, ?_⟩
    rw [heq h mem_cons_self]
    exact ih hrest fun y hy => heq y (mem_cons_of_mem _ hy)

theorem Linked.visit_length (hl : Linked next h xs t) : visit next xs.length h = xs := by
  induction xs generalizing h with
  | nil => rfl
  | cons x xs ih =>
    obtain ⟨rfl, hrest⟩ := hl
    rw [length_cons, visit, ih hrest]

/-- The last place linked to another list: the two lists are one. -/
theorem Linked.join {m a : α} {x : α} (hx : Linked next h (xs ++ [x]) m) (hy : Linked next a ys t)
    (hnotin : x ∉ xs) (hnotin' : x ∉ ys) (heq : ∀ y, y ≠ x → next' y = next y) (hlast : next' x = a) :
    Linked next' h (xs ++ [x] ++ ys) t := by
  rw [linked_append] at hx
  obtain ⟨p, hxs, hp⟩ := hx
  have hxs' : Linked next' h xs p := hxs.congr fun y hmem => heq y (ne_of_mem_of_not_mem hmem hnotin)
  have hys' : Linked next' a ys t := hy.congr fun y hmem => heq y (ne_of_mem_of_not_mem hmem hnotin')
  rw [linked_append]
  exact ⟨a, linked_append.mpr ⟨p, hxs', hp.1, hlast⟩, hys'⟩

/-- From one place to another there is one way that does not pass the other. -/
theorem Linked.unique (hx : Linked next h xs t) (hy : Linked next h ys t) (htx : t ∉ xs) (hty : t ∉ ys) : xs = ys := by
  induction xs generalizing h ys with
  | nil =>
    obtain rfl : h = t := hx
    cases ys with
    | nil => rfl
    | cons y ys => exact absurd (hy.1 ▸ mem_cons_self) hty
  | cons x xs ih =>
    obtain ⟨rfl, hx⟩ := hx
    cases ys with
    | nil =>
      obtain rfl : h = t := hy
      exact absurd mem_cons_self htx
    | cons y ys =>
      obtain ⟨rfl, hy⟩ := hy
      rw [mem_cons, not_or] at htx hty
      rw [ih hx hy htx.2 hty.2]

/-- A way that arrives passes no place twice: from there on it would go on forever. -/
theorem Linked.nodup (hl : Linked next h xs t) (ht : t ∉ xs) : xs.Nodup := by
  induction xs generalizing h with
  | nil => exact nodup_nil
  | cons x xs ih =>
    have htail := (mem_cons.not.mp ht ∘ .inr : t ∉ xs)
    refine nodup_cons.mpr ⟨fun hmem => ?_, ih hl.2 htail⟩
    obtain ⟨ys, zs, rfl⟩ := append_of_mem hmem
    obtain ⟨m, -, -, hzs⟩ := linked_append.mp hl.2
    have hagain : Linked next h (x :: zs) t := ⟨hl.1, hzs⟩
    have heq := hl.unique hagain ht fun hin => ht (mem_cons_of_mem _ (mem_append_right _ hin))
    have hlength := congrArg List.length heq
    simp only [length_cons, length_append] at hlength
    omega

end Nt365.Library
