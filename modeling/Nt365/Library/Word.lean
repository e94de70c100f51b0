import Mathlib.Data.Nat.Notation
import Mathlib.Data.Int.Notation

/-!
# Unsigned machine words

`USHORT` and `ULONG` arithmetic of a 32-bit machine: values are natural numbers below
`2 ^ 16` or `2 ^ 32`, and addition and subtraction wrap. The lemmas say when an operation does not wrap,
which is what almost every use of them needs.
-/

namespace Nt365.Library

/-- The value of a natural number cast to a 16-bit unsigned word. -/
def u16 (n : ℕ) : ℕ := n % 65536

/-- The value of a natural number cast to a 32-bit unsigned word. -/
def u32 (n : ℕ) : ℕ := n % 4294967296

/-- The largest 32-bit word. -/
def maxUlong : ℕ := 4294967295

variable (a b : ℕ)

/-- 32-bit addition. -/
def add32 : ℕ := (a + b) % 4294967296

/-- 32-bit subtraction. -/
def sub32 : ℕ := (a + (4294967296 - b % 4294967296)) % 4294967296

/-- 32-bit multiplication. -/
def mul32 : ℕ := a * b % 4294967296

theorem u16_of_lt {n : ℕ} (h : n < 65536) : u16 n = n := Nat.mod_eq_of_lt h

theorem u32_of_lt {n : ℕ} (h : n < 4294967296) : u32 n = n := Nat.mod_eq_of_lt h

theorem add32_of_lt {a b : ℕ} (h : a + b < 4294967296) : add32 a b = a + b := Nat.mod_eq_of_lt h

theorem sub32_of_le {a b : ℕ} (ha : a < 4294967296) (h : b ≤ a) : sub32 a b = a - b := by
  unfold sub32
  omega

theorem mul32_of_lt {a b : ℕ} (h : a * b < 4294967296) : mul32 a b = a * b := Nat.mod_eq_of_lt h

theorem add32_lt : add32 a b < 4294967296 := Nat.mod_lt _ (by omega)

end Nt365.Library
