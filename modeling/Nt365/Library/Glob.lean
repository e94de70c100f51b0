import Mathlib.Data.List.Basic
import Mathlib.Data.List.Infix

/-!
# The language of a pattern with wild cards

A pattern is a list of literals, single-character wild cards and stars. `Accepts` says which
words it describes. The lemmas take a word apart at its first character, which is how a
matcher reads it.
-/

namespace Nt365.Library

inductive Glob (α : Type*) where
  | lit (a : α)
  | any
  | star
deriving DecidableEq

namespace Glob

variable {α : Type*}

/-- The word is in the language of the pattern. -/
def Accepts : List (Glob α) → List α → Prop
  | [], w => w = []
  | .lit a :: g, w => ∃ v, w = a :: v ∧ Accepts g v
  | .any :: g, w => ∃ x v, w = x :: v ∧ Accepts g v
  | .star :: g, w => ∃ u v, w = u ++ v ∧ Accepts g v

/-- The character that a pattern other than a star takes. -/
def Takes : Glob α → α → Prop
  | .lit a, x => a = x
  | .any, _ => True
  | .star, _ => False

variable {g : List (Glob α)} {c : α} {v w : List α}

theorem Accepts.star (h : Accepts g w) : Accepts (.star :: g) w := ⟨[], w, rfl, h⟩

/-- A star takes the first character, or nothing. -/
theorem accepts_star_cons : Accepts (.star :: g) (c :: v) ↔ Accepts (.star :: g) v ∨ Accepts g (c :: v) := by
  constructor
  · rintro ⟨u, w, huw, hw⟩
    cases u with
    | nil => exact .inr (by rwa [huw])
    | cons x u =>
      obtain ⟨rfl, rfl⟩ := List.cons.inj huw
      exact .inl ⟨u, w, rfl, hw⟩
  · rintro (⟨u, w, rfl, hw⟩ | h)
    · exact ⟨c :: u, w, rfl, hw⟩
    · exact h.star

theorem accepts_cons {x : Glob α} (hx : x ≠ .star) : Accepts (x :: g) (c :: v) ↔ x.Takes c ∧ Accepts g v := by
  cases x with
  | lit a => simp [Accepts, Takes, eq_comm]
  | any => simp [Accepts, Takes]
  | star => exact absurd rfl hx

theorem accepts_nil : Accepts g [] ↔ ∀ x ∈ g, x = .star := by
  induction g with
  | nil => simp [Accepts]
  | cons x g ih =>
    cases x with
    | lit a => simp [Accepts]
    | any => simp [Accepts]
    | star =>
      constructor
      · rintro ⟨u, v, huv, hv⟩
        obtain ⟨-, rfl⟩ := List.append_eq_nil_iff.mp huv.symm
        simpa using ih.mp hv
      · intro h
        exact (ih.mpr fun x hx => h x (List.mem_cons_of_mem _ hx)).star

/-- A star and a literal word: the words that end in it. -/
theorem accepts_star_literals {x : List α} : Accepts (.star :: x.map Glob.lit) w ↔ x <:+ w := by
  have hliterals (v : List α) : Accepts (x.map Glob.lit) v ↔ v = x := by
    induction x generalizing v with
    | nil => rfl
    | cons a x ih => simp [Accepts, ih]
  constructor
  · rintro ⟨u, v, rfl, hv⟩
    rw [(hliterals v).mp hv]
    exact List.suffix_append u x
  · rintro ⟨u, rfl⟩
    exact ⟨u, x, rfl, (hliterals x).mpr rfl⟩

end Glob

end Nt365.Library
