import Nt365.Library.Word
import Mathlib.Data.BitVec
import Mathlib.Algebra.Order.Ring.Int
import Mathlib.Tactic.Ring

/-!
# Buffers of bytes

A buffer has a size, and a read outside it is an error. Numbers are little-endian. `anyOf` is the
operator `||` of C: the conditions after the first true one are not evaluated, so what they would
read does not matter.
-/

namespace Nt365.Library

abbrev Byte : Type := BitVec 8

/-- A buffer; what `byte` is outside the size is never read. -/
structure Buffer where
  size : ℕ
  byte : ℕ → Byte

/-- A 64-bit signed word. -/
def wrap64 (n : ℤ) : ℤ := n.bmod 18446744073709551616

theorem wrap64_of_lt {n : ℤ} (hlo : -9223372036854775808 ≤ n) (hhi : n < 9223372036854775808) : wrap64 n = n := by
  unfold wrap64
  rw [Int.bmod_eq_of_le] <;> omega

theorem wrap64_sub {x c : ℤ} (hlo : 0 ≤ c) (hhi : c < 9223372036854775808) : wrap64 (wrap64 (x + c) - x) = c := by
  unfold wrap64
  rw [Int.bmod_def, Int.bmod_def]
  split <;> split <;> omega

namespace Buffer

variable (B : Buffer)

/-- The value of `n` bytes. -/
def le (off : ℕ) : ℕ → ℕ
  | 0 => 0
  | n + 1 => (B.byte off).toNat + 256 * le (off + 1) n

@[simp] theorem le_zero (off : ℕ) : B.le off 0 = 0 := rfl

theorem le_one (off : ℕ) : B.le off 1 = (B.byte off).toNat := by
  simp [le]

theorem le_lt (off n : ℕ) : B.le off n < 256 ^ n := by
  induction n generalizing off with
  | zero => exact Nat.one_pos
  | succ n ih =>
    have hrest := ih (off + 1)
    have hbyte := (B.byte off).isLt
    rw [le, pow_succ]
    omega

theorem le_succ (off n : ℕ) : B.le off (n + 1) = B.le off n + 256 ^ n * (B.byte (off + n)).toNat := by
  induction n generalizing off with
  | zero => simp [le]
  | succ n ih =>
    rw [le, ih (off + 1), le, pow_succ, Nat.add_right_comm off 1 n, Nat.add_assoc off n 1]
    ring

/-- The value of `n` bytes, if they are in the buffer. -/
def read {ε : Type*} (outside : ε) (off n : ℕ) : Except ε ℕ := if off + n ≤ B.size then .ok (B.le off n) else .error outside

end Buffer

/-! ### The operator `||` -/

def anyOf {ε : Type*} : List (Except ε Bool) → Except ε Bool
  | [] => .ok false
  | c :: cs => c.bind fun b => if b then .ok true else anyOf cs

section AnyOf

variable {ε : Type*} {cs : List (Except ε Bool)}

@[simp] theorem anyOf_nil : anyOf ([] : List (Except ε Bool)) = .ok false := rfl

@[simp] theorem anyOf_cons_ok (b : Bool) : anyOf (.ok b :: cs) = if b then .ok true else anyOf cs := rfl

@[simp] theorem anyOf_cons_error (e : ε) : anyOf (.error e :: cs) = .error e := rfl

theorem anyOf_decide_cons {p q : Prop} [Decidable p] [Decidable q] {cs : List (Except ε Bool)} (h : anyOf cs = .ok (decide q)) :
    anyOf (.ok (decide p) :: cs) = .ok (decide (p ∨ q)) := by
  rw [anyOf_cons_ok, h, Bool.decide_or]
  cases decide p <;> rfl

theorem anyOf_decide_one {p : Prop} [Decidable p] : anyOf [(.ok (decide p) : Except ε Bool)] = .ok (decide p) := by
  rw [anyOf_cons_ok, anyOf_nil]
  cases decide p <;> rfl

/-- A condition on a record, and how many bytes of the record must be read for it. -/
structure Guard where
  need : ℕ
  cond : Bool

/-- The condition of a record at `a`. -/
def Guard.eval (B : Buffer) (outside : ε) (a : ℕ) (g : Guard) : Except ε Bool :=
  if a + g.need ≤ B.size then .ok g.cond else .error outside

theorem Guard.eval_neg {B : Buffer} {outside : ε} {a n : ℕ} (h : ¬a + n ≤ B.size) (c : Bool) :
    Guard.eval B outside a ⟨n, c⟩ = .error outside := if_neg h

/-- How many bytes are read until a condition is true, with those that were read before. -/
def needed : List Guard → ℕ → ℕ
  | [], n => n
  | g :: gs, n => if g.cond then max n g.need else needed gs (max n g.need)

theorem le_needed (gs : List Guard) (n : ℕ) : n ≤ needed gs n := by
  induction gs generalizing n with
  | nil => exact Nat.le_refl n
  | cons g gs ih =>
    rw [needed]
    split
    · exact Nat.le_max_left _ _
    · exact (Nat.le_max_left _ _).trans (ih _)

theorem Guard.need_le {g : Guard} {gs : List Guard} (hany : gs.any Guard.cond = false) (hg : g ∈ gs) (n : ℕ) :
    g.need ≤ needed gs n := by
  induction gs generalizing n with
  | nil => cases hg
  | cons g' gs ih =>
    obtain ⟨hcond, hany⟩ := Bool.or_eq_false_iff.mp hany
    rw [needed, hcond, if_neg Bool.false_ne_true]
    rcases List.mem_cons.mp hg with rfl | hg
    · exact (Nat.le_max_right _ _).trans (le_needed _ _)
    · exact ih hany hg _

theorem needed_append (gs gs' : List Guard) (n : ℕ) :
    needed (gs ++ gs') n = if gs.any Guard.cond then needed gs n else needed gs' (needed gs n) := by
  induction gs generalizing n with
  | nil => rfl
  | cons g gs ih =>
    rw [List.cons_append, needed, needed, ih, List.any_cons]
    cases g.cond <;> rfl

/-- **The conditions of a record** are an error exactly if a byte that they need is outside. -/
theorem anyOf_guards (B : Buffer) (outside : ε) {a : ℕ} (gs : List Guard) {n : ℕ} (hn : a + n ≤ B.size) :
    anyOf (gs.map (Guard.eval B outside a)) =
      if a + needed gs n ≤ B.size then .ok (gs.any Guard.cond) else .error outside := by
  induction gs generalizing n with
  | nil => rw [List.map_nil, anyOf_nil, needed, if_pos hn, List.any_nil]
  | cons g gs ih =>
    rw [List.map_cons, needed, List.any_cons]
    by_cases hg : a + g.need ≤ B.size
    · have hmax : a + max n g.need ≤ B.size := by omega
      rw [Guard.eval, if_pos hg, anyOf_cons_ok, ih hmax]
      cases g.cond with
      | true => rw [if_pos rfl, if_pos rfl, if_pos hmax, Bool.true_or]
      | false => rw [if_neg Bool.false_ne_true, if_neg Bool.false_ne_true, Bool.false_or]
    · have hlarge : ¬a + (if g.cond then max n g.need else needed gs (max n g.need)) ≤ B.size := by
        have hle := le_needed gs (max n g.need)
        split <;> omega
      rw [Guard.eval, if_neg hg, anyOf_cons_error, if_neg hlarge]

end AnyOf

end Nt365.Library
