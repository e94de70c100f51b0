import Nt365.Library.Buffer
import Mathlib.Tactic.LinearCombination

/-!
# Signed numbers as bytes

The little-endian bytes of a number in two's complement, and what a buffer that holds them is read
as. A number fits in `m + 1` bytes if it is between `-128 * 256 ^ m` and `128 * 256 ^ m`; its last byte
then has its sign.
-/

namespace Nt365.Library

/-- A signed number of `n` bytes. -/
def signedLe (B : Buffer) (off n : ℕ) : ℤ :=
  if n = 0 then 0 else if 128 ≤ B.le (off + n - 1) 1 then (B.le off n : ℤ) - 256 ^ n else B.le off n

/-- The bytes of the buffer from an offset on. -/
def Buffer.Holds (B : Buffer) (off : ℕ) (bs : List Byte) : Prop := ∀ i b, bs[i]? = some b → B.byte (off + i) = b

/-- The low `n` bytes of a number. -/
def signedBytes : ℕ → ℤ → List Byte
  | 0, _ => []
  | n + 1, x => BitVec.ofInt 8 x :: signedBytes n (x / 256)

section Bytes

variable {B : Buffer} {off : ℕ} {bs cs : List Byte}

theorem holds_append : B.Holds off (bs ++ cs) ↔ B.Holds off bs ∧ B.Holds (off + bs.length) cs := by
  constructor
  · intro h
    refine ⟨fun i b hb => ?_, fun i b hb => ?_⟩
    · have hi : i < bs.length := (List.getElem?_eq_some_iff.mp hb).1
      exact h i b (by rw [List.getElem?_append_left hi, hb])
    · rw [Nat.add_assoc]
      refine h _ b ?_
      rw [List.getElem?_append_right (Nat.le_add_right _ _), Nat.add_sub_cancel_left, hb]
  · rintro ⟨hbs, hcs⟩ i b hb
    by_cases hi : i < bs.length
    · rw [List.getElem?_append_left hi] at hb
      exact hbs i b hb
    · rw [List.getElem?_append_right (Nat.le_of_not_lt hi)] at hb
      have hbyte := hcs _ b hb
      rwa [show off + bs.length + (i - bs.length) = off + i by omega] at hbyte

theorem holds_cons {b : Byte} : B.Holds off (b :: bs) ↔ B.byte off = b ∧ B.Holds (off + 1) bs := by
  rw [← List.singleton_append, holds_append]
  refine and_congr_left' ⟨fun h => h 0 b rfl, fun h i c hc => ?_⟩
  cases i with
  | zero =>
    cases hc
    exact h
  | succ i => cases hc

@[simp] theorem length_signedBytes (n : ℕ) (x : ℤ) : (signedBytes n x).length = n := by
  induction n generalizing x with
  | zero => rfl
  | succ n ih => rw [signedBytes, List.length_cons, ih]

theorem emod_pow_succ (x : ℤ) (n : ℕ) : x % 256 ^ (n + 1) = x % 256 + 256 * (x / 256 % 256 ^ n) := by
  have hx : x = x % 256 + 256 * (x / 256 % 256 ^ n) + 256 ^ (n + 1) * (x / 256 / 256 ^ n) := by
    have h₁ := Int.emod_add_mul_ediv x 256
    have h₂ := Int.emod_add_mul_ediv (x / 256) (256 ^ n)
    rw [pow_succ]
    linear_combination -h₁ - 256 * h₂
  conv_lhs => rw [hx, Int.add_mul_emod_self_left]
  refine Int.emod_eq_of_lt (by omega) ?_
  rw [pow_succ]
  omega

theorem Buffer.Holds.le_eq {n : ℕ} {x : ℤ} (h : B.Holds off (signedBytes n x)) : (B.le off n : ℤ) = x % 256 ^ n := by
  induction n generalizing off x with
  | zero => simp [Buffer.le]
  | succ n ih =>
    rw [signedBytes, holds_cons] at h
    rw [Buffer.le, emod_pow_succ, Nat.cast_add, Nat.cast_mul, ih h.2, h.1, BitVec.toNat_ofInt]
    have hmod := Int.emod_nonneg x (show (256 : ℤ) ≠ 0 by decide)
    norm_num
    omega

theorem Buffer.last_ge_iff (B : Buffer) (off m : ℕ) : 128 ≤ B.le (off + m) 1 ↔ 128 * 256 ^ m ≤ B.le off (m + 1) := by
  rw [B.le_one, B.le_succ off m]
  have hlow := B.le_lt off m
  constructor
  · intro h
    have hmul := Nat.mul_le_mul_left (256 ^ m) h
    omega
  · intro h
    by_contra hlt
    have hmul := Nat.mul_le_mul_left (256 ^ m) (show (B.byte (off + m)).toNat ≤ 127 by omega)
    omega

/-- A number that fits in `m + 1` bytes. -/
def FitsBytes (m : ℕ) (x : ℤ) : Prop := -(128 * 256 ^ m) ≤ x ∧ x < 128 * 256 ^ m

theorem FitsBytes.emod {m : ℕ} {x : ℤ} (h : FitsBytes m x) : x % 256 ^ (m + 1) = if x < 0 then x + 256 ^ (m + 1) else x := by
  obtain ⟨hlo, hhi⟩ := h
  split
  · rw [← Int.add_emod_right]
    exact Int.emod_eq_of_lt (by omega) (by omega)
  · exact Int.emod_eq_of_lt (by omega) (by omega)

theorem Buffer.Holds.last_ge_iff {m : ℕ} {x : ℤ} (h : B.Holds off (signedBytes (m + 1) x)) (hx : FitsBytes m x) :
    128 ≤ B.le (off + m) 1 ↔ x < 0 := by
  have hle := h.le_eq
  rw [hx.emod] at hle
  have hcast : ((128 * 256 ^ m : ℕ) : ℤ) = 128 * 256 ^ m := by push_cast; rfl
  obtain ⟨hlo, hhi⟩ := hx
  rw [B.last_ge_iff]
  split at hle <;> omega

/-- **A number that a buffer holds** is read as itself. -/
theorem Buffer.Holds.signedLe_eq {m : ℕ} {x : ℤ} (h : B.Holds off (signedBytes (m + 1) x)) (hx : FitsBytes m x) :
    signedLe B off (m + 1) = x := by
  have hle := h.le_eq
  rw [hx.emod] at hle
  rw [signedLe, if_neg (Nat.succ_ne_zero m), show off + (m + 1) - 1 = off + m by omega]
  by_cases hneg : x < 0
  · rw [if_pos hneg] at hle
    rw [if_pos ((h.last_ge_iff hx).mpr hneg), hle]
    omega
  · rw [if_neg hneg] at hle
    rw [if_neg (fun hge => hneg ((h.last_ge_iff hx).mp hge)), hle]

end Bytes

end Nt365.Library
