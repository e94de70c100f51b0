import Mathlib.Data.Nat.Notation

/-!
# Positions in a row

Scans for positions in a row that have a property: `Row p i n` says that the `n` positions from `i` on have it. A scan in steps
knows the row that ends where it stands (`RowTail`) and the row that begins there (`RowHead`); a row across that place is at most
the two together.
-/

namespace Nt365.Library

variable {p : ℕ → Prop} {a b c d i j m n : ℕ}

/-- The `n` positions from `i` on have the property. -/
def Row (p : ℕ → Prop) (i n : ℕ) : Prop := ∀ j, i ≤ j → j < i + n → p j

theorem row_zero : Row p i 0 := fun _ hle hlt => absurd hlt (Nat.not_lt.mpr hle)

theorem Row.mono (h : Row p i n) (hle : i ≤ j) (hend : j + m ≤ i + n) : Row p j m := fun k hk hlt => h k (by omega) (by omega)

theorem Row.append (h : Row p i n) (hnext : Row p (i + n) m) : Row p i (n + m) := by
  intro j hle hlt
  rcases Nat.lt_or_ge j (i + n) with hj | hj
  · exact h j hle hj
  · exact hnext j hj (by omega)

/-- The positions before `c`, back to `a` at most, end with `n` in a row and no more. -/
structure RowTail (p : ℕ → Prop) (a c n : ℕ) : Prop where
  le : a + n ≤ c
  row : Row p (c - n) n
  stop : a + n < c → ¬p (c - n - 1)

/-- The positions from `c` on, up to `d` at most, begin with `n` in a row and no more. -/
structure RowHead (p : ℕ → Prop) (c d n : ℕ) : Prop where
  le : c + n ≤ d
  row : Row p c n
  stop : c + n < d → ¬p (c + n)

theorem rowTail_zero (a : ℕ) : RowTail p a a 0 := ⟨Nat.le_refl a, row_zero, fun h => absurd h (Nat.lt_irrefl a)⟩

theorem RowTail.le_of_row (h : RowTail p a c n) (ha : a ≤ i) (hi : i + m = c) (hrow : Row p i m) : m ≤ n := by
  refine Nat.le_of_not_lt fun hlt => ?_
  have hle := h.le
  exact h.stop (by omega) (hrow _ (by omega) (by omega))

theorem RowHead.le_of_row (h : RowHead p c d n) (hd : c + m ≤ d) (hrow : Row p c m) : m ≤ n := by
  refine Nat.le_of_not_lt fun hlt => ?_
  exact h.stop (by omega) (hrow _ (by omega) (by omega))

/-- The tail goes on through positions that all have the property. -/
theorem RowTail.extend (h : RowTail p a c n) (hrow : Row p c m) : RowTail p a (c + m) (n + m) := by
  have hle := h.le
  have hstart : c + m - (n + m) = c - n := by omega
  refine ⟨by omega, ?_, fun hlt => ?_⟩
  · rw [hstart]
    refine h.row.append ?_
    rwa [Nat.sub_add_cancel (by omega)]
  · rw [hstart]
    exact h.stop (by omega)

/-- A tail that stops is the tail from any earlier start. -/
theorem RowTail.widen (h : RowTail p c d n) (hlt : c + n < d) (ha : a ≤ c) : RowTail p a d n :=
  ⟨by omega, h.row, fun _ => h.stop hlt⟩

/-- A row across `c` is at most the tail and the head there. -/
theorem Row.le_tail_add_head (hrow : Row p i m) (htail : RowTail p a c n) (hhead : RowHead p c d j) (ha : a ≤ i) (hi : i ≤ c)
    (hc : c ≤ i + m) (hd : i + m ≤ d) : m ≤ n + j := by
  have hbefore : c - i ≤ n := htail.le_of_row ha (by omega) (hrow.mono (Nat.le_refl i) (by omega))
  have hafter : i + m - c ≤ j := hhead.le_of_row (by omega) (hrow.mono hi (by omega))
  omega

theorem RowTail.append_head (htail : RowTail p a c n) (hhead : RowHead p c d j) : Row p (c - n) (n + j) := by
  have hle := htail.le
  refine htail.row.append ?_
  rw [Nat.sub_add_cancel (by omega)]
  exact hhead.row

/-- The longest row between `a` and `b` has `n` positions. -/
structure LongestRow (p : ℕ → Prop) (a b n : ℕ) : Prop where
  attained : ∃ i, a ≤ i ∧ i + n ≤ b ∧ Row p i n
  bound : ∀ i m, a ≤ i → i + m ≤ b → Row p i m → m ≤ n

/-! ### Rows of a part, at the part's own positions -/

section Part

variable {q : ℕ → Prop} (hq : ∀ j < d, q j ↔ p (c + j))
include hq

theorem row_iff_of_part (hle : i + n ≤ d) : Row q i n ↔ Row p (c + i) n := by
  constructor
  · intro h j hj hlt
    have hp := (hq (j - c) (by omega)).mp (h (j - c) (by omega) (by omega))
    rwa [Nat.add_sub_of_le (by omega)] at hp
  · exact fun h j hj hlt => (hq j (by omega)).mpr (h (c + j) (by omega) (by omega))

theorem RowHead.of_part (h : RowHead q 0 d n) : RowHead p c (c + d) n := by
  have hle := h.le
  refine ⟨by omega, (row_iff_of_part hq hle).mp h.row, fun hlt => ?_⟩
  have hstop := h.stop (by omega)
  rwa [Nat.zero_add, hq n (by omega)] at hstop

theorem RowTail.of_part (h : RowTail q 0 d n) : RowTail p c (c + d) n := by
  have hle := h.le
  have hstart : c + d - n = c + (d - n) := by omega
  refine ⟨by omega, ?_, fun hlt => ?_⟩
  · rw [hstart]
    exact (row_iff_of_part hq (by omega)).mp h.row
  · rw [hstart, Nat.add_sub_assoc (by omega), ← hq _ (by omega)]
    exact h.stop (by omega)

theorem LongestRow.of_part (h : LongestRow q 0 d n) : LongestRow p c (c + d) n := by
  obtain ⟨⟨i, -, hd, hrow⟩, hbound⟩ := h
  refine ⟨⟨c + i, by omega, by omega, (row_iff_of_part hq hd).mp hrow⟩, fun i m hc hd hrow => ?_⟩
  refine hbound (i - c) m (Nat.zero_le _) (by omega) ((row_iff_of_part hq (by omega)).mpr ?_)
  rwa [Nat.add_sub_of_le hc]

end Part

end Nt365.Library
