import Mathlib.Data.Int.Notation
import Mathlib.Data.List.Basic

/-!
# Lua strings

A Lua string is a list of characters of some kind. `sub s i j` is `string.sub`: the characters from position `i`
to position `j`, both counted from 1, a negative position from the end.
-/

namespace Nt365.Library.LuaString

variable {α : Type*}

variable (s : List α)

/-- `string.sub(s, i, j)`. -/
def sub (i j : ℤ) : List α :=
  let first := if i < 0 then max (s.length + i + 1) 1 else max i 1
  let last := if j < 0 then s.length + j + 1 else min j s.length
  (s.drop (first - 1).toNat).take (last + 1 - first).toNat

theorem sub_eq_take (i j : ℕ) : sub s (i + 1) j = (s.drop i).take (j - i) := by
  have hfirst : ¬ (i : ℤ) + 1 < 0 := by omega
  have hlast : ¬ (j : ℤ) < 0 := by omega
  have hmax : max ((i : ℤ) + 1) 1 = i + 1 := by omega
  rw [sub, if_neg hfirst, if_neg hlast, hmax]
  have hdrop : ((i : ℤ) + 1 - 1).toNat = i := by omega
  rw [hdrop]
  -- the end is cut at the length, and so is what is taken
  rcases Nat.le_total j s.length with hj | hj
  · congr 1
    omega
  · rw [List.take_of_length_le (by rw [List.length_drop]; omega),
      List.take_of_length_le (by rw [List.length_drop]; omega)]

theorem sub_one (j : ℕ) : sub s 1 j = s.take j := by
  simpa using sub_eq_take s 0 j

theorem sub_to_end (i : ℕ) : sub s (i + 1) (-1) = s.drop i := by
  have hfirst : ¬ (i : ℤ) + 1 < 0 := by omega
  have hmax : max ((i : ℤ) + 1) 1 = i + 1 := by omega
  rw [sub, if_neg hfirst, if_pos (by decide), hmax]
  have hdrop : ((i : ℤ) + 1 - 1).toNat = i := by omega
  rw [hdrop, List.take_of_length_le (by rw [List.length_drop]; omega)]

end Nt365.Library.LuaString
