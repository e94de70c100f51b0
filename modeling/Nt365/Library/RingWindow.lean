import Nt365.Library.Word
import Mathlib.Data.Nat.Bitwise
import Mathlib.Data.Nat.ModEq
import Mathlib.Logic.Function.Basic

/-!
# Windows of a ring

A ring of `num` slots with two indices that run freely modulo `2 ^ 16`: entries are pushed at `hi`
and taken at `lo`. If `num` divides `2 ^ 15` and at most `num` entries are in the ring, the window
between the indices is a queue, however often the indices wrap.
-/

namespace Nt365.Library

variable {α : Type*} {num lo hi : ℕ}

/-- The number of entries between two indices. -/
def pendingCount (lo hi : ℕ) : ℕ := (hi + 65536 - lo) % 65536

/-- The entries between two indices. -/
def window (num : ℕ) (slots : ℕ → α) (lo hi : ℕ) : List α :=
  (List.range (pendingCount lo hi)).map fun k => slots ((lo + k) % num)

@[simp] theorem length_window (slots : ℕ → α) : (window num slots lo hi).length = pendingCount lo hi := by
  simp [window]

@[simp] theorem pendingCount_self (lo : ℕ) : pendingCount lo lo = 0 := by
  simp [pendingCount]

theorem window_self (slots : ℕ → α) : window num slots lo lo = [] := by
  simp [window]

theorem window_eq_nil_iff {slots : ℕ → α} (hlo : lo < 65536) (hhi : hi < 65536) : window num slots lo hi = [] ↔ lo = hi := by
  rw [← List.length_eq_zero_iff, length_window, pendingCount]
  omega

theorem pendingCount_push (hlo : lo < 65536) (hhi : hi < 65536) (h : pendingCount lo hi < 65535) :
    pendingCount lo (u16 (hi + 1)) = pendingCount lo hi + 1 := by
  unfold pendingCount u16 at *
  omega

theorem pendingCount_pop (hlo : lo < 65536) (hhi : hi < 65536) (h : lo ≠ hi) :
    pendingCount lo hi = pendingCount (u16 (lo + 1)) hi + 1 := by
  unfold pendingCount u16 at *
  omega

theorem hi_mod (hnum : num ∣ 32768) (hlo : lo < 65536) (hhi : hi < 65536) : hi % num = (lo + pendingCount lo hi) % num := by
  have h : (lo + pendingCount lo hi) % 65536 = hi := by
    unfold pendingCount
    omega
  rw [← Nat.mod_mod_of_dvd (lo + pendingCount lo hi) (hnum.trans (by decide : 32768 ∣ 65536)), h]

theorem slot_ne_push (hnum : num ∣ 32768) (hlo : lo < 65536) (hhi : hi < 65536) (hfull : pendingCount lo hi < num) {k : ℕ}
    (hk : k < pendingCount lo hi) : (lo + k) % num ≠ hi % num := by
  rw [hi_mod hnum hlo hhi]
  intro h
  have hmod : k % num = pendingCount lo hi % num := Nat.ModEq.add_left_cancel' lo h
  rw [Nat.mod_eq_of_lt (by omega), Nat.mod_eq_of_lt hfull] at hmod
  omega

/-- **Push**: the window is longer by the new entry. -/
theorem window_push (hnum : num ∣ 32768) (hlo : lo < 65536) (hhi : hi < 65536) (hfull : pendingCount lo hi < num) (slots : ℕ → α)
    (x : α) : window num (Function.update slots (hi % num) x) lo (u16 (hi + 1)) = window num slots lo hi ++ [x] := by
  have hle : num ≤ 32768 := Nat.le_of_dvd (by decide) hnum
  rw [window, pendingCount_push hlo hhi (by omega), List.range_succ, List.map_append, window, List.map_singleton,
    hi_mod hnum hlo hhi, Function.update_self]
  congr 1
  apply List.map_congr_left
  intro k hk
  rw [← hi_mod hnum hlo hhi, Function.update_of_ne (slot_ne_push hnum hlo hhi hfull (List.mem_range.mp hk))]

/-- **Pop**: the window begins with the entry at its lower index. -/
theorem window_pop (hnum : num ∣ 32768) (hlo : lo < 65536) (hhi : hi < 65536) (h : lo ≠ hi) (slots : ℕ → α) :
    window num slots lo hi = slots (lo % num) :: window num slots (u16 (lo + 1)) hi := by
  rw [window, pendingCount_pop hlo hhi h, List.range_succ_eq_map, List.map_cons, List.map_map, Nat.add_zero, window]
  congr 1
  apply List.map_congr_left
  intro k _
  have hmod : (u16 (lo + 1) + k) % num = (lo + 1 + k) % num := by
    rw [u16, Nat.add_mod, Nat.mod_mod_of_dvd _ (hnum.trans (by decide : 32768 ∣ 65536)), ← Nat.add_mod]
  rw [Function.comp_apply, hmod, Nat.succ_eq_add_one, Nat.add_assoc lo 1 k, Nat.add_comm 1 k]

end Nt365.Library
