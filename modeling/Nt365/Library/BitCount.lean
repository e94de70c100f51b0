import Mathlib.Data.List.Range
import Mathlib.Tactic.Common

/-!
# Counting the bits of a range

How many bits of a vector are set between two positions, and what filling a range does to that count.
-/

namespace Nt365.Library

/-- The number of set bits from `a` up to `b`. -/
def countIn (p : ℕ → Bool) (a b : ℕ) : ℕ := (List.range' a (b - a)).countP p

/-- The vector with the bits from `a` up to `b` set to a value. -/
def fillIn (p : ℕ → Bool) (value : Bool) (a b : ℕ) : ℕ → Bool := fun i => if a ≤ i ∧ i < b then value else p i

variable {p q : ℕ → Bool} {a b c n i : ℕ} {value : Bool}

theorem countIn_append (hab : a ≤ b) (hbc : b ≤ c) : countIn p a c = countIn p a b + countIn p b c := by
  unfold countIn
  have hsplit := List.range'_append_1 (s := a) (m := b - a) (n := c - b)
  rw [Nat.add_sub_of_le hab, show b - a + (c - b) = c - a by omega] at hsplit
  rw [← hsplit, List.countP_append]

theorem countIn_congr (h : ∀ i, a ≤ i → i < b → p i = q i) : countIn p a b = countIn q a b := by
  refine List.countP_congr fun i hi => ?_
  rw [List.mem_range'_1] at hi
  rw [h i hi.1 (by omega)]

theorem countIn_eq_zero_iff : countIn p a b = 0 ↔ ∀ i, a ≤ i → i < b → p i = false := by
  unfold countIn
  rw [List.countP_eq_zero]
  constructor
  · intro h i ha hb
    exact Bool.eq_false_iff.mpr (h i (List.mem_range'_1.mpr ⟨ha, by omega⟩))
  · intro h i hi
    rw [List.mem_range'_1] at hi
    exact Bool.eq_false_iff.mp (h i hi.1 (by omega))

theorem countIn_not : countIn p a b + countIn (fun i => !p i) a b = b - a := by
  unfold countIn
  have hlength := List.length_eq_countP_add_countP p (l := List.range' a (b - a))
  rw [List.length_range'] at hlength
  have hnot : (fun i => !p i) = fun i => decide ¬p i = true := by
    funext i
    cases p i <;> rfl
  rw [hnot]
  exact hlength.symm

theorem countIn_le : countIn p a b ≤ b - a := countIn_not ▸ Nat.le_add_right _ _

theorem countIn_of_forall (h : ∀ i, a ≤ i → i < b → p i = true) : countIn p a b = b - a := by
  have hclear : countIn (fun i => !p i) a b = 0 := countIn_eq_zero_iff.mpr fun i ha hb => by rw [h i ha hb]; rfl
  rw [← countIn_not (p := p), hclear, Nat.add_zero]

theorem fillIn_of_mem (ha : a ≤ i) (hb : i < b) : fillIn p value a b i = value := if_pos ⟨ha, hb⟩

theorem fillIn_of_not_mem (h : ¬(a ≤ i ∧ i < b)) : fillIn p value a b i = p i := if_neg h

variable (value) in
/-- Outside the range the count stays, inside it is that of the value. -/
theorem countIn_fillIn_add (hab : a ≤ b) (hb : b ≤ n) :
    countIn (fillIn p value a b) 0 n + countIn p a b = countIn p 0 n + countIn (fun _ => value) a b := by
  have houtside : ∀ i, ¬(a ≤ i ∧ i < b) → fillIn p value a b i = p i := fun i h => fillIn_of_not_mem h
  rw [countIn_append (Nat.zero_le a) (hab.trans hb), countIn_append hab hb, countIn_append (p := p) (Nat.zero_le a) (hab.trans hb),
    countIn_append (p := p) hab hb, countIn_congr (p := fillIn p value a b) (q := p) (a := 0) fun i _ hi => houtside i (by omega),
    countIn_congr (p := fillIn p value a b) (q := p) (a := b) fun i hi _ => houtside i (by omega),
    countIn_congr (p := fillIn p value a b) (q := fun _ => value) (a := a) fun i ha hb => fillIn_of_mem ha hb]
  omega

/-- **Setting a range** adds the bits that were clear in it. -/
theorem countIn_fillIn_true (hab : a ≤ b) (hb : b ≤ n) :
    countIn (fillIn p true a b) 0 n = countIn p 0 n + countIn (fun i => !p i) a b := by
  have hadd := countIn_fillIn_add (p := p) true hab hb
  have hnot := countIn_not (p := p) (a := a) (b := b)
  rw [countIn_of_forall (p := fun _ => true) fun _ _ _ => rfl] at hadd
  omega

/-- **Clearing a range** takes the bits away that were set in it. -/
theorem countIn_fillIn_false (hab : a ≤ b) (hb : b ≤ n) : countIn (fillIn p false a b) 0 n + countIn p a b = countIn p 0 n := by
  rw [countIn_fillIn_add _ hab hb, countIn_eq_zero_iff.mpr fun _ _ _ => rfl, Nat.add_zero]

end Nt365.Library
