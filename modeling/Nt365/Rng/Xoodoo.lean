import Mathlib.Data.BitVec
import Mathlib.Data.Fin.VecNotation
import Mathlib.Data.Fintype.BigOperators
import Mathlib.Tactic.FinCases

/-!
# The Xoodoo permutation

`RNG/XOODOO.C` computes Xoodoo[12] on twelve lanes of 32 bits. It is a permutation: a round can be
undone, because chi is its own inverse on a column and because the fold of theta, iterated often
enough, is zero.
-/

namespace Nt365.Rng

/-- A state: 12 little-endian lanes. -/
abbrev Lanes : Type := Fin 12 → BitVec 32

variable (x : BitVec 32)

/-- `ROTL32`. -/
def rotl32 (n : ℕ) : BitVec 32 := (x <<< n) ||| (x >>> (32 - n))

def rngpRoundConstants : List (BitVec 32) :=
  [0x58, 0x38, 0x3C0, 0xD0, 0x120, 0x14, 0x60, 0x2C, 0x380, 0xF0, 0x1A0, 0x12]

/-- The parity of a column. -/
def parity (S : Lanes) :
    Fin 4 → BitVec 32 := ![S 0 ^^^ S 4 ^^^ S 8, S 1 ^^^ S 5 ^^^ S 9, S 2 ^^^ S 6 ^^^ S 10, S 3 ^^^ S 7 ^^^ S 11]

/-- "The (5,14) fold across neighbouring columns." -/
def fold (p : BitVec 32) : BitVec 32 := rotl32 p 5 ^^^ rotl32 p 14

def folded (p : Fin 4 → BitVec 32) : Fin 4 → BitVec 32 := ![fold (p 3), fold (p 0), fold (p 1), fold (p 2)]

/-- "Theta mix + iota (into plane 0) + rho-west." -/
def mix (S : Lanes) (constant : BitVec 32) : Lanes :=
  let e := folded (parity S)
  ![e 0 ^^^ S 0 ^^^ constant, e 1 ^^^ S 1, e 2 ^^^ S 2, e 3 ^^^ S 3,
    e 3 ^^^ S 7, e 0 ^^^ S 4, e 1 ^^^ S 5, e 2 ^^^ S 6,
    rotl32 (e 0 ^^^ S 8) 11, rotl32 (e 1 ^^^ S 9) 11, rotl32 (e 2 ^^^ S 10) 11, rotl32 (e 3 ^^^ S 11) 11]

/-- "Chi (the only non-linear step) + rho-east." -/
def chiEast (t : Lanes) : Lanes :=
  ![(~~~(t 4) &&& t 8) ^^^ t 0, (~~~(t 5) &&& t 9) ^^^ t 1, (~~~(t 6) &&& t 10) ^^^ t 2, (~~~(t 7) &&& t 11) ^^^ t 3,
    rotl32 ((~~~(t 8) &&& t 0) ^^^ t 4) 1, rotl32 ((~~~(t 9) &&& t 1) ^^^ t 5) 1,
    rotl32 ((~~~(t 10) &&& t 2) ^^^ t 6) 1, rotl32 ((~~~(t 11) &&& t 3) ^^^ t 7) 1,
    rotl32 ((~~~(t 2) &&& t 6) ^^^ t 10) 8, rotl32 ((~~~(t 3) &&& t 7) ^^^ t 11) 8,
    rotl32 ((~~~(t 0) &&& t 4) ^^^ t 8) 8, rotl32 ((~~~(t 1) &&& t 5) ^^^ t 9) 8]

def rngpXoodoo (S : Lanes) : Lanes := rngpRoundConstants.foldl (fun S constant => chiEast (mix S constant)) S

-- the known answer of the self-test: `Xoodoo[12](0)`
example : rngpXoodoo (fun _ => 0) =
    ![0x89D5D88D, 0xA963FCBF, 0x1B232D19, 0xFFA5A014, 0x36B18106, 0xAFC7C1FE, 0xAEE57CBE, 0xA77540BD, 0x2E86E870,
      0xFEF5B7C9, 0x8B4FADF2, 0x5E4F4062] := by
  decide +kernel

/-! ### Rotations -/

theorem getLsbD_rotl32 {n i : ℕ} (hn : n < 32) (hi : i < 32) : (rotl32 x n).getLsbD i = x.getLsbD ((i + 32 - n) % 32) := by
  rw [rotl32, BitVec.getLsbD_or, BitVec.getLsbD_shiftLeft, BitVec.getLsbD_ushiftRight]
  by_cases h : i < n
  · rw [show (i + 32 - n) % 32 = 32 - n + i by omega]
    simp [h]
  · rw [show (i + 32 - n) % 32 = i - n by omega, BitVec.getLsbD_of_ge x (32 - n + i) (by omega)]
    simp [h, hi]

theorem rotl32_xor (x y : BitVec 32) {n : ℕ} (hn : n < 32) : rotl32 (x ^^^ y) n = rotl32 x n ^^^ rotl32 y n := by
  apply BitVec.eq_of_getLsbD_eq
  intro i hi
  simp only [BitVec.getLsbD_xor, getLsbD_rotl32 _ hn hi]

theorem rotl32_rotl32 {m n : ℕ} (hm : m < 32) (hn : n < 32) : rotl32 (rotl32 x m) n = rotl32 x ((m + n) % 32) := by
  apply BitVec.eq_of_getLsbD_eq
  intro i hi
  rw [getLsbD_rotl32 _ hn hi, getLsbD_rotl32 _ hm (by omega), getLsbD_rotl32 _ (by omega) hi]
  congr 1
  omega

theorem rotl32_injective {n : ℕ} (hn : n < 32) : Function.Injective fun x => rotl32 x n := by
  intro x y h
  apply BitVec.eq_of_getLsbD_eq
  intro i hi
  have hbit := congrArg (fun z : BitVec 32 => z.getLsbD ((i + n) % 32)) h
  simp only [getLsbD_rotl32 _ hn (show (i + n) % 32 < 32 by omega)] at hbit
  rwa [show ((i + n) % 32 + 32 - n) % 32 = i by omega] at hbit

/-! ### The fold -/

/-- A fold with other distances. -/
def foldBy (m n : ℕ) (p : BitVec 32) : BitVec 32 := rotl32 p m ^^^ rotl32 p n

/-- Folding twice doubles the distances: the mixed terms cancel. -/
theorem foldBy_foldBy {m n : ℕ} (hm : m < 32) (hn : n < 32) (p : BitVec 32) :
    foldBy m n (foldBy m n p) = foldBy ((m + m) % 32) ((n + n) % 32) p := by
  simp only [foldBy, rotl32_xor _ _ hm, rotl32_xor _ _ hn, rotl32_rotl32 _ hm hm, rotl32_rotl32 _ hn hn,
    rotl32_rotl32 _ hn hm, rotl32_rotl32 _ hm hn, Nat.add_comm n m]
  generalize rotl32 p ((m + n) % 32) = mixed
  rw [BitVec.xor_assoc, ← BitVec.xor_assoc mixed, BitVec.xor_self, BitVec.zero_xor]

theorem fold_four (p : BitVec 32) : fold (fold (fold (fold p))) = foldBy 20 24 p := by
  have htwo : ∀ p, fold (fold p) = foldBy 10 28 p := fun p => foldBy_foldBy (by decide) (by decide) p
  rw [htwo, htwo, foldBy_foldBy (by decide) (by decide)]

/-- Only zero is its own fourth fold. -/
theorem eq_zero_of_fold_four {d : BitVec 32} (h : d = fold (fold (fold (fold d)))) : d = 0 := by
  rw [fold_four] at h
  have h8 : d = foldBy 8 16 d := by
    conv_lhs => rw [h, h]
    rw [foldBy_foldBy (by decide) (by decide)]
  have h16 : d = foldBy 16 0 d := by
    conv_lhs => rw [h8, h8]
    rw [foldBy_foldBy (by decide) (by decide)]
  have hzero : rotl32 d 0 = d := by
    apply BitVec.eq_of_getLsbD_eq
    intro i hi
    rw [getLsbD_rotl32 _ (by decide) hi]
    congr 1
    omega
  rw [foldBy, hzero] at h16
  have hrot : rotl32 d 16 = rotl32 0 16 := by
    calc rotl32 d 16 = rotl32 d 16 ^^^ d ^^^ d := by rw [BitVec.xor_assoc, BitVec.xor_self, BitVec.xor_zero]
      _ = d ^^^ d := by rw [← h16]
      _ = rotl32 0 16 := by rw [BitVec.xor_self]; rfl
  exact rotl32_injective (by decide) hrot

theorem fold_xor (p q : BitVec 32) : fold (p ^^^ q) = fold p ^^^ fold q := by
  rw [fold, rotl32_xor _ _ (by decide), rotl32_xor _ _ (by decide), fold, fold]
  ac_rfl

theorem fold_zero : fold 0 = 0 := by decide

/-! ### A round -/

/-- A column with the fold `e` added to each of its lanes: its parity changes by `e`. -/
theorem parity_of_mixed {a b c a' b' c' e e' : BitVec 32} (ha : e ^^^ a = e' ^^^ a') (hb : e ^^^ b = e' ^^^ b')
    (hc : e ^^^ c = e' ^^^ c') : (a ^^^ b ^^^ c) ^^^ (a' ^^^ b' ^^^ c') = e ^^^ e' := by
  have ha' : a' = e' ^^^ (e ^^^ a) := by rw [ha, ← BitVec.xor_assoc, BitVec.xor_self, BitVec.zero_xor]
  have hb' : b' = e' ^^^ (e ^^^ b) := by rw [hb, ← BitVec.xor_assoc, BitVec.xor_self, BitVec.zero_xor]
  have hc' : c' = e' ^^^ (e ^^^ c) := by rw [hc, ← BitVec.xor_assoc, BitVec.xor_self, BitVec.zero_xor]
  rw [ha', hb', hc']
  apply BitVec.eq_of_getLsbD_eq
  intro i _
  simp only [BitVec.getLsbD_xor]
  generalize a.getLsbD i = a, b.getLsbD i = b, c.getLsbD i = c, e.getLsbD i = e, e'.getLsbD i = e'
  revert a b c e e'
  decide

/-- The parities of four columns are known from their differences with the folds. -/
theorem parity_unique {p q : Fin 4 → BitVec 32} (h : ∀ x, p x ^^^ q x = folded p x ^^^ folded q x) : p = q := by
  have h0 : p 0 ^^^ q 0 = fold (p 3 ^^^ q 3) := (h 0).trans (fold_xor _ _).symm
  have h1 : p 1 ^^^ q 1 = fold (p 0 ^^^ q 0) := (h 1).trans (fold_xor _ _).symm
  have h2 : p 2 ^^^ q 2 = fold (p 1 ^^^ q 1) := (h 2).trans (fold_xor _ _).symm
  have h3 : p 3 ^^^ q 3 = fold (p 2 ^^^ q 2) := (h 3).trans (fold_xor _ _).symm
  have hzero : p 0 ^^^ q 0 = 0 := eq_zero_of_fold_four (by rw [← h1, ← h2, ← h3, ← h0])
  rw [hzero, fold_zero] at h1
  rw [h1, fold_zero] at h2
  rw [h2, fold_zero] at h3
  funext x
  fin_cases x
  · exact BitVec.xor_eq_zero_iff.mp hzero
  · exact BitVec.xor_eq_zero_iff.mp h1
  · exact BitVec.xor_eq_zero_iff.mp h2
  · exact BitVec.xor_eq_zero_iff.mp h3

theorem mix_injective (constant : BitVec 32) : Function.Injective fun S => mix S constant := by
  intro S T h
  have hlane : ∀ i, mix S constant i = mix T constant i := congrFun h
  have hrot : ∀ {x y : BitVec 32}, rotl32 x 11 = rotl32 y 11 → x = y := fun h => rotl32_injective (by decide) h
  -- the lanes before they are moved and rotated
  have h0 := (BitVec.xor_left_inj constant).mp (hlane 0)
  have h1 : folded (parity S) 1 ^^^ S 1 = folded (parity T) 1 ^^^ T 1 := hlane 1
  have h2 : folded (parity S) 2 ^^^ S 2 = folded (parity T) 2 ^^^ T 2 := hlane 2
  have h3 : folded (parity S) 3 ^^^ S 3 = folded (parity T) 3 ^^^ T 3 := hlane 3
  have h7 : folded (parity S) 3 ^^^ S 7 = folded (parity T) 3 ^^^ T 7 := hlane 4
  have h4 : folded (parity S) 0 ^^^ S 4 = folded (parity T) 0 ^^^ T 4 := hlane 5
  have h5 : folded (parity S) 1 ^^^ S 5 = folded (parity T) 1 ^^^ T 5 := hlane 6
  have h6 : folded (parity S) 2 ^^^ S 6 = folded (parity T) 2 ^^^ T 6 := hlane 7
  have h8 := hrot (hlane 8)
  have h9 := hrot (hlane 9)
  have h10 := hrot (hlane 10)
  have h11 := hrot (hlane 11)
  have hparity : parity S = parity T := by
    apply parity_unique
    intro x
    fin_cases x
    · exact parity_of_mixed h0 h4 h8
    · exact parity_of_mixed h1 h5 h9
    · exact parity_of_mixed h2 h6 h10
    · exact parity_of_mixed h3 h7 h11
  simp only [hparity, BitVec.xor_right_inj] at h0 h1 h2 h3 h4 h5 h6 h7 h8 h9 h10 h11
  funext i
  fin_cases i
  exacts [h0, h1, h2, h3, h4, h5, h6, h7, h8, h9, h10, h11]

/-- Chi on a column is its own inverse, so the column is known from the result. -/
theorem chi_injective {a b c a' b' c' : BitVec 32} (ha : (~~~b &&& c) ^^^ a = (~~~b' &&& c') ^^^ a')
    (hb : (~~~c &&& a) ^^^ b = (~~~c' &&& a') ^^^ b') (hc : (~~~a &&& b) ^^^ c = (~~~a' &&& b') ^^^ c') :
    a = a' ∧ b = b' ∧ c = c' := by
  have hbit : ∀ a b c a' b' c' : Bool, ((!b && c) ^^ a) = ((!b' && c') ^^ a') → ((!c && a) ^^ b) = ((!c' && a') ^^ b') →
      ((!a && b) ^^ c) = ((!a' && b') ^^ c') → a = a' ∧ b = b' ∧ c = c' := by decide
  have hat : ∀ i, i < 32 → a.getLsbD i = a'.getLsbD i ∧ b.getLsbD i = b'.getLsbD i ∧ c.getLsbD i = c'.getLsbD i := by
    intro i hi
    have hai := congrArg (fun z : BitVec 32 => z.getLsbD i) ha
    have hbi := congrArg (fun z : BitVec 32 => z.getLsbD i) hb
    have hci := congrArg (fun z : BitVec 32 => z.getLsbD i) hc
    simp only [BitVec.getLsbD_xor, BitVec.getLsbD_and, BitVec.getLsbD_not, hi, decide_true, Bool.true_and] at hai hbi hci
    exact hbit _ _ _ _ _ _ hai hbi hci
  exact ⟨BitVec.eq_of_getLsbD_eq fun i hi => (hat i hi).1, BitVec.eq_of_getLsbD_eq fun i hi => (hat i hi).2.1,
    BitVec.eq_of_getLsbD_eq fun i hi => (hat i hi).2.2⟩

theorem chiEast_injective : Function.Injective chiEast := by
  intro t u h
  have hlane : ∀ i, chiEast t i = chiEast u i := congrFun h
  have hrot : ∀ {n : ℕ} {x y : BitVec 32}, n < 32 → rotl32 x n = rotl32 y n → x = y := fun hn h => rotl32_injective hn h
  obtain ⟨h0, h4, h8⟩ := chi_injective (hlane 0) (hrot (n := 1) (by decide) (hlane 4)) (hrot (n := 8) (by decide) (hlane 10))
  obtain ⟨h1, h5, h9⟩ := chi_injective (hlane 1) (hrot (n := 1) (by decide) (hlane 5)) (hrot (n := 8) (by decide) (hlane 11))
  obtain ⟨h2, h6, h10⟩ := chi_injective (hlane 2) (hrot (n := 1) (by decide) (hlane 6)) (hrot (n := 8) (by decide) (hlane 8))
  obtain ⟨h3, h7, h11⟩ := chi_injective (hlane 3) (hrot (n := 1) (by decide) (hlane 7)) (hrot (n := 8) (by decide) (hlane 9))
  funext i
  fin_cases i
  exacts [h0, h1, h2, h3, h4, h5, h6, h7, h8, h9, h10, h11]

/-- **Xoodoo is a permutation** of the states. -/
theorem rngpXoodoo_bijective : Function.Bijective rngpXoodoo := by
  have hrounds : ∀ constants : List (BitVec 32),
      Function.Injective fun S => constants.foldl (fun S constant => chiEast (mix S constant)) S := by
    intro constants
    induction constants with
    | nil => exact fun S T h => h
    | cons constant constants ih => exact fun S T h => mix_injective constant (chiEast_injective (ih h))
  have : Finite (BitVec 32) := Finite.of_equiv _ (BitVec.equivFin (m := 32)).toEquiv.symm
  exact Finite.injective_iff_bijective.mp (hrounds rngpRoundConstants)

/-! ### The five steps of a round -/

/-- A state as three planes of four lanes. -/
abbrev Planes : Type := Fin 3 → Fin 4 → BitVec 32

def planes (S : Lanes) : Planes := fun y x => S ⟨4 * y + x, by omega⟩

def theta (A : Planes) : Planes := fun y x => fold (A 0 (x - 1) ^^^ A 1 (x - 1) ^^^ A 2 (x - 1)) ^^^ A y x

def rhoWest (A : Planes) : Planes := ![A 0, fun x => A 1 (x - 1), fun x => rotl32 (A 2 x) 11]

def iota (constant : BitVec 32) (A : Planes) : Planes := fun y x => if y = 0 ∧ x = 0 then A y x ^^^ constant else A y x

def chi (A : Planes) : Planes := fun y x => (~~~(A (y + 1) x) &&& A (y + 2) x) ^^^ A y x

def rhoEast (A : Planes) : Planes := ![A 0, fun x => rotl32 (A 1 x) 1, fun x => rotl32 (A 2 (x - 2)) 8]

/-- **A pass of the loop** is theta, rho-west, iota, chi and rho-east, and Xoodoo is a permutation of the states. -/
theorem rngpXoodoo_steps :
    (∀ S constant, planes (chiEast (mix S constant)) = rhoEast (chi (iota constant (rhoWest (theta (planes S)))))) ∧
      Function.Bijective rngpXoodoo := by
  refine ⟨fun S constant => ?_, rngpXoodoo_bijective⟩
  funext y x
  fin_cases y <;> fin_cases x <;> rfl

end Nt365.Rng
