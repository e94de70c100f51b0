import Nt365.Library.Rows
import Nt365.Library.Word
import Mathlib.Tactic.NormNum

/-!
# Bit maps

The bit maps of `RTL/BITMAP.C`: a buffer of longwords, of which some routines go through the longwords and some through the bytes.
The routines for clear bits and those for set bits are the same code but for a complement, so they are modelled together, with a
`Sense`.

## The model

A longword of the buffer is a `BitVec 32`, a byte a `BitVec 8`. The buffer has the longwords that the bits need, and an access
outside it is a fault. Indices are natural numbers; 32-bit arithmetic is written out where a sum can leave 32 bits.
-/

namespace Nt365.Rtl.BitMap

open Nt365.Library BitVec

abbrev UCHAR := BitVec 8

/-- An access outside the buffer. -/
inductive Fault
  | outside
  deriving DecidableEq, Repr

/-- `RTL_BITMAP`. -/
structure RtlBitmap where
  sizeOfBitMap : ℕ
  buffer : List (BitVec 32)
  size_lt : sizeOfBitMap < 4294967296
  length_eq : buffer.length = (sizeOfBitMap + 31) / 32

namespace RtlBitmap

variable (bm : RtlBitmap)

/-- Bit `i` of the buffer. -/
def bit (i : ℕ) : Bool := (bm.buffer.getD (i / 32) 0).getLsbD (i % 32)

/-- Byte `k` of the buffer. -/
def byteAt (k : ℕ) : UCHAR := (bm.buffer.getD (k / 4) 0).extractLsb' (8 * (k % 4)) 8

/-- `GET_BYTE`, at byte `k`. -/
def getByte (k : ℕ) : Except Fault UCHAR := if k < 4 * bm.buffer.length then .ok (bm.byteAt k) else .error .outside

/-- An assignment to longword `i`. -/
def updateLong (i : ℕ) (f : BitVec 32 → BitVec 32) : Except Fault RtlBitmap :=
  if i < bm.buffer.length then
    .ok { bm with buffer := bm.buffer.modify i f, length_eq := by rw [List.length_modify, bm.length_eq] }
  else .error .outside

end RtlBitmap

/-- A longword with byte `r` replaced. -/
def replaceByte (long : BitVec 32) (r : ℕ) (byte : UCHAR) : BitVec 32 :=
  (long &&& ~~~(0xff#32 <<< (8 * r))) ||| (byte.setWidth 32 <<< (8 * r))

/-- An assignment to byte `k`. -/
def RtlBitmap.updateByte (bm : RtlBitmap) (k : ℕ) (f : UCHAR → UCHAR) : Except Fault RtlBitmap :=
  bm.updateLong (k / 4) fun long => replaceByte long (k % 4) (f (bm.byteAt k))

/-! ### The tables -/

/-- How many contiguous bits are clear in a byte. -/
def rtlpBitsClearAnywhere : List ℕ :=
  [8, 7, 6, 6, 5, 5, 5, 5, 4, 4, 4, 4, 4, 4, 4, 4,
   4, 3, 3, 3, 3, 3, 3, 3, 3, 3, 3, 3, 3, 3, 3, 3,
   5, 4, 3, 3, 2, 2, 2, 2, 3, 2, 2, 2, 2, 2, 2, 2,
   4, 3, 2, 2, 2, 2, 2, 2, 3, 2, 2, 2, 2, 2, 2, 2,
   6, 5, 4, 4, 3, 3, 3, 3, 3, 2, 2, 2, 2, 2, 2, 2,
   4, 3, 2, 2, 2, 1, 1, 1, 3, 2, 1, 1, 2, 1, 1, 1,
   5, 4, 3, 3, 2, 2, 2, 2, 3, 2, 1, 1, 2, 1, 1, 1,
   4, 3, 2, 2, 2, 1, 1, 1, 3, 2, 1, 1, 2, 1, 1, 1,
   7, 6, 5, 5, 4, 4, 4, 4, 3, 3, 3, 3, 3, 3, 3, 3,
   4, 3, 2, 2, 2, 2, 2, 2, 3, 2, 2, 2, 2, 2, 2, 2,
   5, 4, 3, 3, 2, 2, 2, 2, 3, 2, 1, 1, 2, 1, 1, 1,
   4, 3, 2, 2, 2, 1, 1, 1, 3, 2, 1, 1, 2, 1, 1, 1,
   6, 5, 4, 4, 3, 3, 3, 3, 3, 2, 2, 2, 2, 2, 2, 2,
   4, 3, 2, 2, 2, 1, 1, 1, 3, 2, 1, 1, 2, 1, 1, 1,
   5, 4, 3, 3, 2, 2, 2, 2, 3, 2, 1, 1, 2, 1, 1, 1,
   4, 3, 2, 2, 2, 1, 1, 1, 3, 2, 1, 1, 2, 1, 1, 0]

/-- How many contiguous low order bits are clear in a byte. -/
def rtlpBitsClearLow : List ℕ :=
  [8, 0, 1, 0, 2, 0, 1, 0, 3, 0, 1, 0, 2, 0, 1, 0,
   4, 0, 1, 0, 2, 0, 1, 0, 3, 0, 1, 0, 2, 0, 1, 0,
   5, 0, 1, 0, 2, 0, 1, 0, 3, 0, 1, 0, 2, 0, 1, 0,
   4, 0, 1, 0, 2, 0, 1, 0, 3, 0, 1, 0, 2, 0, 1, 0,
   6, 0, 1, 0, 2, 0, 1, 0, 3, 0, 1, 0, 2, 0, 1, 0,
   4, 0, 1, 0, 2, 0, 1, 0, 3, 0, 1, 0, 2, 0, 1, 0,
   5, 0, 1, 0, 2, 0, 1, 0, 3, 0, 1, 0, 2, 0, 1, 0,
   4, 0, 1, 0, 2, 0, 1, 0, 3, 0, 1, 0, 2, 0, 1, 0,
   7, 0, 1, 0, 2, 0, 1, 0, 3, 0, 1, 0, 2, 0, 1, 0,
   4, 0, 1, 0, 2, 0, 1, 0, 3, 0, 1, 0, 2, 0, 1, 0,
   5, 0, 1, 0, 2, 0, 1, 0, 3, 0, 1, 0, 2, 0, 1, 0,
   4, 0, 1, 0, 2, 0, 1, 0, 3, 0, 1, 0, 2, 0, 1, 0,
   6, 0, 1, 0, 2, 0, 1, 0, 3, 0, 1, 0, 2, 0, 1, 0,
   4, 0, 1, 0, 2, 0, 1, 0, 3, 0, 1, 0, 2, 0, 1, 0,
   5, 0, 1, 0, 2, 0, 1, 0, 3, 0, 1, 0, 2, 0, 1, 0,
   4, 0, 1, 0, 2, 0, 1, 0, 3, 0, 1, 0, 2, 0, 1, 0]

/-- How many contiguous high order bits are clear in a byte. -/
def rtlpBitsClearHigh : List ℕ :=
  [8, 7, 6, 6, 5, 5, 5, 5, 4, 4, 4, 4, 4, 4, 4, 4,
   3, 3, 3, 3, 3, 3, 3, 3, 3, 3, 3, 3, 3, 3, 3, 3,
   2, 2, 2, 2, 2, 2, 2, 2, 2, 2, 2, 2, 2, 2, 2, 2,
   2, 2, 2, 2, 2, 2, 2, 2, 2, 2, 2, 2, 2, 2, 2, 2,
   1, 1, 1, 1, 1, 1, 1, 1, 1, 1, 1, 1, 1, 1, 1, 1,
   1, 1, 1, 1, 1, 1, 1, 1, 1, 1, 1, 1, 1, 1, 1, 1,
   1, 1, 1, 1, 1, 1, 1, 1, 1, 1, 1, 1, 1, 1, 1, 1,
   1, 1, 1, 1, 1, 1, 1, 1, 1, 1, 1, 1, 1, 1, 1, 1,
   0, 0, 0, 0, 0, 0, 0, 0, 0, 0, 0, 0, 0, 0, 0, 0,
   0, 0, 0, 0, 0, 0, 0, 0, 0, 0, 0, 0, 0, 0, 0, 0,
   0, 0, 0, 0, 0, 0, 0, 0, 0, 0, 0, 0, 0, 0, 0, 0,
   0, 0, 0, 0, 0, 0, 0, 0, 0, 0, 0, 0, 0, 0, 0, 0,
   0, 0, 0, 0, 0, 0, 0, 0, 0, 0, 0, 0, 0, 0, 0, 0,
   0, 0, 0, 0, 0, 0, 0, 0, 0, 0, 0, 0, 0, 0, 0, 0,
   0, 0, 0, 0, 0, 0, 0, 0, 0, 0, 0, 0, 0, 0, 0, 0,
   0, 0, 0, 0, 0, 0, 0, 0, 0, 0, 0, 0, 0, 0, 0, 0]

def fillMask (n : ℕ) : UCHAR := [0x00, 0x01, 0x03, 0x07, 0x0F, 0x1F, 0x3F, 0x7F, 0xFF].getD n 0

def zeroMask (n : ℕ) : UCHAR := [0xFF, 0xFE, 0xFC, 0xF8, 0xF0, 0xE0, 0xC0, 0x80, 0x00].getD n 0

/-- Which bits a routine is for. -/
inductive Sense
  | clear
  | set
  deriving DecidableEq, Repr

namespace Sense

/-- The bit that is looked for. -/
def want : Sense → Bool
  | clear => false
  | set => true

/-- The byte with which the tables are read. -/
def view : Sense → UCHAR → UCHAR
  | clear, byte => byte
  | set, byte => ~~~byte

/-- `RtlpBitsClearAnywhere[Byte]`, `RtlpBitSetAnywhere(Byte)`. -/
def anywhere (s : Sense) (byte : UCHAR) : ℕ := rtlpBitsClearAnywhere.getD (s.view byte).toNat 0

/-- `RtlpBitsClearLow[Byte]`, `RtlpBitsSetLow(Byte)`. -/
def low (s : Sense) (byte : UCHAR) : ℕ := rtlpBitsClearLow.getD (s.view byte).toNat 0

/-- `RtlpBitsClearHigh[Byte]`, `RtlpBitsSetHigh(Byte)`. -/
def high (s : Sense) (byte : UCHAR) : ℕ := rtlpBitsClearHigh.getD (s.view byte).toNat 0

/-- A byte of which every bit is wanted. -/
def full : Sense → UCHAR
  | clear => 0x00
  | set => 0xff

/-- A byte of which no bit is wanted. -/
def empty : Sense → UCHAR
  | clear => 0xff
  | set => 0x00

/-- Every bit of the mask is wanted. -/
def fits : Sense → UCHAR → UCHAR → Bool
  | clear, bitMask, byte => bitMask &&& byte = 0
  | set, bitMask, byte => bitMask &&& byte = bitMask

/-- "Set any unused bits in the last byte so we won't count them", with `n` bits in use. -/
def hideUnused : Sense → ℕ → UCHAR → UCHAR
  | clear, n, byte => byte ||| zeroMask n
  | set, n, byte => byte &&& fillMask n

end Sense

/-- `SizeInBytes`. The sum wraps for the seven largest sizes. -/
def sizeInBytes (bm : RtlBitmap) : ℕ := add32 bm.sizeOfBitMap 7 / 8

/-- The bits after the last one are made such that they do not count. -/
def hideUnusedBits (s : Sense) (bm : RtlBitmap) : Except Fault RtlBitmap :=
  if bm.sizeOfBitMap % 8 ≠ 0 then bm.updateByte (sub32 (sizeInBytes bm) 1) (s.hideUnused (bm.sizeOfBitMap % 8)) else .ok bm

/-- The number of shifts after which the mask fits into the byte. Eight shifts leave no bit of the mask, so `fuel` above that is
enough. -/
def shiftToFit (s : Sense) (byte : UCHAR) : ℕ → UCHAR → ℕ
  | 0, _ => 0
  | fuel + 1, bitMask => if s.fits bitMask byte then 0 else shiftToFit s byte fuel (bitMask <<< 1) + 1

/-! ### The bits of bytes and longwords -/

variable {bm : RtlBitmap} {s : Sense} {byte : UCHAR} {i j k n : ℕ}

theorem byteAt_getLsbD (hj : j < 8) : (bm.byteAt k).getLsbD j = bm.bit (8 * k + j) := by
  unfold RtlBitmap.byteAt RtlBitmap.bit
  rw [getLsbD_extractLsb', show (8 * k + j) / 32 = k / 4 by omega, show (8 * k + j) % 32 = 8 * (k % 4) + j by omega]
  simp [hj]

theorem fillMask_getLsbD (hn : n ≤ 8) : (fillMask n).getLsbD j = decide (j < n) := by
  rcases Nat.lt_or_ge j 8 with hj | hj
  · exact (by decide +kernel : ∀ n < 9, ∀ j < 8, (fillMask n).getLsbD j = decide (j < n)) n (by omega) j hj
  · rw [getLsbD_of_ge _ _ hj, decide_eq_false (by omega)]

theorem zeroMask_getLsbD (hn : n ≤ 8) (hj : j < 8) : (zeroMask n).getLsbD j = decide (n ≤ j) :=
  (by decide +kernel : ∀ n < 9, ∀ j < 8, (zeroMask n).getLsbD j = decide (n ≤ j)) n (by omega) j hj

theorem Sense.view_getLsbD (hj : j < 8) : (s.view byte).getLsbD j = false ↔ byte.getLsbD j = s.want := by
  cases s with
  | clear => rfl
  | set =>
    rw [view, getLsbD_not]
    simp [hj, want]

/-! ### What the tables say -/

/-- What each entry of a table says of its byte, the tables say of every byte. -/
theorem table_spec {table : List ℕ} {P : ℕ × ℕ → Prop} (hlength : table.length = 256) (h : ∀ x ∈ table.zipIdx, P x)
    (byte : UCHAR) : P (table.getD byte.toNat 0, byte.toNat) := by
  have hlt : byte.toNat < table.length := by
    rw [hlength]
    exact byte.isLt
  refine h _ (List.mem_zipIdx_iff_getElem?.mpr ?_)
  dsimp only
  rw [List.getD_eq_getElem?_getD, List.getElem?_eq_getElem hlt]
  rfl

/-- The low table counts the clear bits from bit 0 on. -/
theorem clearLow_spec (byte : UCHAR) : RowHead (fun j => byte.getLsbD j = false) 0 8 (rtlpBitsClearLow.getD byte.toNat 0) := by
  have htable : ∀ x ∈ rtlpBitsClearLow.zipIdx, x.1 ≤ 8 ∧ (∀ j < x.1, x.2.testBit j = false) ∧
    (x.1 < 8 → x.2.testBit x.1 = true) := by
    decide +kernel
  obtain ⟨hle, hrow, hstop⟩ := table_spec (by decide +kernel) htable byte
  refine ⟨by omega, fun j _ hlt => hrow j (by omega), fun hlt => ?_⟩
  rw [Nat.zero_add] at hlt ⊢
  exact fun hclear => Bool.false_ne_true (hclear.symm.trans (hstop hlt))

/-- The high table counts the clear bits down from bit 7. -/
theorem clearHigh_spec (byte : UCHAR) : RowTail (fun j => byte.getLsbD j = false) 0 8 (rtlpBitsClearHigh.getD byte.toNat 0) := by
  have htable : ∀ x ∈ rtlpBitsClearHigh.zipIdx, x.1 ≤ 8 ∧ (∀ j < 8, 8 - x.1 ≤ j → x.2.testBit j = false) ∧
      (x.1 < 8 → x.2.testBit (8 - x.1 - 1) = true) := by
    decide +kernel
  obtain ⟨hle, hrow, hstop⟩ := table_spec (by decide +kernel) htable byte
  refine ⟨by omega, fun j hj hlt => hrow j (by omega) hj, fun hlt => ?_⟩
  exact fun hclear => Bool.false_ne_true (hclear.symm.trans (hstop (by omega)))

/-- The third table has the longest row of clear bits. -/
theorem clearAnywhere_spec (byte : UCHAR) :
    LongestRow (fun j => byte.getLsbD j = false) 0 8 (rtlpBitsClearAnywhere.getD byte.toNat 0) := by
  have htable : ∀ x ∈ rtlpBitsClearAnywhere.zipIdx,
      (∃ i ∈ List.range 9, i + x.1 ≤ 8 ∧ ∀ j < x.1, x.2.testBit (i + j) = false) ∧
      ∀ i < 8 - x.1, ∃ j ∈ List.range (x.1 + 1), x.2.testBit (i + j) = true := by
    decide +kernel
  obtain ⟨⟨i, -, hi, hrow⟩, hbound⟩ := table_spec (by decide +kernel) htable byte
  refine ⟨⟨i, Nat.zero_le i, hi, fun j hj hlt => ?_⟩, fun i m _ hi hrow => ?_⟩
  · have hclear := hrow (j - i) (by omega)
    rwa [Nat.add_sub_of_le hj] at hclear
  · -- a longer row would be one of just one bit more
    refine Nat.le_of_not_lt fun hlt => ?_
    obtain ⟨j, hj, hset⟩ := hbound i (by omega)
    have hclear := hrow (i + j) (by omega) (by rw [List.mem_range] at hj; omega)
    exact Bool.false_ne_true (hclear.symm.trans hset)

/-- Bit `i` is one that is looked for. -/
def RtlBitmap.Wanted (bm : RtlBitmap) (s : Sense) (i : ℕ) : Prop := bm.bit i = s.want

theorem view_byteAt (hj : j < 8) : (s.view (bm.byteAt k)).getLsbD j = false ↔ bm.Wanted s (8 * k + j) := by
  rw [Sense.view_getLsbD hj, byteAt_getLsbD hj]
  rfl

theorem rowHead_low (bm : RtlBitmap) (s : Sense) (k : ℕ) : RowHead (bm.Wanted s) (8 * k) (8 * k + 8) (s.low (bm.byteAt k)) :=
  (clearLow_spec _).of_part fun _ => view_byteAt

theorem rowTail_high (bm : RtlBitmap) (s : Sense) (k : ℕ) : RowTail (bm.Wanted s) (8 * k) (8 * k + 8) (s.high (bm.byteAt k)) :=
  (clearHigh_spec _).of_part fun _ => view_byteAt

theorem longestRow_anywhere (bm : RtlBitmap) (s : Sense) (k : ℕ) :
    LongestRow (bm.Wanted s) (8 * k) (8 * k + 8) (s.anywhere (bm.byteAt k)) :=
  (clearAnywhere_spec _).of_part fun _ => view_byteAt

/-! ### Full bytes -/

theorem byte_eq_full_iff : byte = s.full ↔ ∀ j < 8, byte.getLsbD j = s.want := by
  have hfull : ∀ j < 8, s.full.getLsbD j = s.want := by
    cases s <;> decide
  constructor
  · rintro rfl
    exact hfull
  · intro h
    exact eq_of_getLsbD_eq fun j hj => (h j hj).trans (hfull j hj).symm

theorem byteAt_eq_full_iff : bm.byteAt k = s.full ↔ Row (bm.Wanted s) (8 * k) 8 := by
  rw [byte_eq_full_iff]
  constructor
  · intro h j hj hlt
    have hbit := h (j - 8 * k) (by omega)
    rwa [byteAt_getLsbD (by omega), Nat.add_sub_of_le hj] at hbit
  · intro h j hj
    rw [byteAt_getLsbD hj]
    exact h (8 * k + j) (by omega) (by omega)

theorem low_lt_of_ne_full (h : bm.byteAt k ≠ s.full) : s.low (bm.byteAt k) < 8 := by
  have hhead := rowHead_low bm s k
  have hle := hhead.le
  refine Nat.lt_of_le_of_ne (by omega) fun heq => h (byteAt_eq_full_iff.2 ?_)
  have hrow := hhead.row
  rwa [heq] at hrow

theorem high_lt_of_ne_full (h : bm.byteAt k ≠ s.full) : s.high (bm.byteAt k) < 8 := by
  have htail := rowTail_high bm s k
  have hle := htail.le
  refine Nat.lt_of_le_of_ne (by omega) fun heq => h (byteAt_eq_full_iff.2 ?_)
  have hrow := htail.row
  rwa [heq, Nat.add_sub_cancel] at hrow

theorem high_empty : s.high s.empty = 0 := by
  cases s <;> decide

/-! ### Assignments -/

theorem getByte_of_lt (hk : k < 4 * bm.buffer.length) : bm.getByte k = .ok (bm.byteAt k) := if_pos hk

theorem updateLong_spec {f : BitVec 32 → BitVec 32} (hi : i < bm.buffer.length) :
    ∃ bm', bm.updateLong i f = .ok bm' ∧ bm'.sizeOfBitMap = bm.sizeOfBitMap ∧
      ∀ j, bm'.bit j = if j / 32 = i then (f (bm.buffer.getD i 0)).getLsbD (j % 32) else bm.bit j := by
  refine ⟨_, if_pos hi, rfl, fun j => ?_⟩
  unfold RtlBitmap.bit
  dsimp only
  rw [List.getD_eq_getElem?_getD, List.getElem?_modify]
  by_cases hj : j / 32 = i
  · rw [if_pos hj, hj, List.getD_eq_getElem?_getD, List.getElem?_eq_getElem hi]
    simp
  · rw [if_neg hj, List.getD_eq_getElem?_getD]
    simp [Ne.symm hj]

theorem replaceByte_getLsbD {long : BitVec 32} {r : ℕ} (hj : j < 32) :
    (replaceByte long r byte).getLsbD j = if j / 8 = r then byte.getLsbD (j % 8) else long.getLsbD j := by
  have hmask : ∀ m, (0xff#32).getLsbD m = decide (m < 8) := by
    intro m
    rw [getLsbD_ofNat, show (255 : ℕ) = 2 ^ 8 - 1 from rfl, Nat.testBit_two_pow_sub_one]
    by_cases hm : m < 8
    · simp [hm, show m < 32 by omega]
    · simp [hm]
  unfold replaceByte
  simp only [getLsbD_or, getLsbD_and, getLsbD_not, getLsbD_shiftLeft, getLsbD_setWidth, hmask, hj,
    decide_true, Bool.true_and]
  split_ifs with hbyte
  · rw [show j - 8 * r = j % 8 by omega, decide_eq_false (show ¬j < 8 * r by omega), decide_eq_true (show j % 8 < 8 by omega),
      decide_eq_true (show j % 8 < 32 by omega)]
    simp
  · rcases Nat.lt_or_ge j (8 * r) with hlt | hge
    · simp [hlt]
    · rw [decide_eq_false (show ¬j - 8 * r < 8 by omega), getLsbD_of_ge byte (j - 8 * r) (by omega)]
      simp

theorem updateByte_spec {f : UCHAR → UCHAR} (hk : k < 4 * bm.buffer.length) :
    ∃ bm', bm.updateByte k f = .ok bm' ∧ bm'.sizeOfBitMap = bm.sizeOfBitMap ∧
      ∀ j, bm'.bit j = if j / 8 = k then (f (bm.byteAt k)).getLsbD (j % 8) else bm.bit j := by
  obtain ⟨bm', heq, hsize, hbits⟩ :=
    updateLong_spec (f := fun long => replaceByte long (k % 4) (f (bm.byteAt k))) (show k / 4 < bm.buffer.length by omega)
  refine ⟨bm', heq, hsize, fun j => ?_⟩
  rw [hbits j]
  by_cases hlong : j / 32 = k / 4
  · rw [if_pos hlong, replaceByte_getLsbD (by omega)]
    by_cases hj : j / 8 = k
    · rw [if_pos hj, if_pos (by omega), show j % 32 % 8 = j % 8 by omega]
    · rw [if_neg hj, if_neg (by omega), ← hlong]
      rfl
  · rw [if_neg hlong, if_neg (show j / 8 ≠ k by omega)]

/-! ### The bits after the last one -/

theorem sizeInBytes_of_le (h : bm.sizeOfBitMap ≤ 4294967288) : sizeInBytes bm = (bm.sizeOfBitMap + 7) / 8 := by
  unfold sizeInBytes
  rw [add32_of_lt (by omega)]

theorem sizeInBytes_le (h : bm.sizeOfBitMap ≤ 4294967288) : sizeInBytes bm ≤ 4 * bm.buffer.length := by
  rw [sizeInBytes_of_le h, bm.length_eq]
  omega

theorem Sense.hideUnused_getLsbD (hn : n ≤ 8) (hj : j < 8) :
    (s.hideUnused n byte).getLsbD j = if j < n then byte.getLsbD j else !s.want := by
  cases s with
  | clear =>
    rw [hideUnused, getLsbD_or, zeroMask_getLsbD hn hj]
    by_cases hlt : j < n
    · simp [hlt, Nat.not_le.mpr hlt]
    · simp [hlt, Nat.not_lt.mp hlt, want]
  | set =>
    rw [hideUnused, getLsbD_and, fillMask_getLsbD hn]
    by_cases hlt : j < n <;> simp [hlt, want]

/-- What the searches see: the bits of the bit map, and no wanted bit after them. -/
structure Hidden (s : Sense) (bm bm' : RtlBitmap) : Prop where
  size_eq : bm'.sizeOfBitMap = bm.sizeOfBitMap
  wanted : ∀ i, i < 8 * sizeInBytes bm → (bm'.Wanted s i ↔ i < bm.sizeOfBitMap ∧ bm.Wanted s i)

theorem hideUnusedBits_spec (h : bm.sizeOfBitMap ≤ 4294967288) : ∃ bm', hideUnusedBits s bm = .ok bm' ∧ Hidden s bm bm' := by
  have hbytes := sizeInBytes_of_le h
  unfold hideUnusedBits
  by_cases hodd : bm.sizeOfBitMap % 8 ≠ 0
  · have hle := sizeInBytes_le h
    rw [if_pos hodd, sub32_of_le (by omega) (by omega)]
    obtain ⟨bm', heq, hsize, hbits⟩ :=
      updateByte_spec (f := s.hideUnused (bm.sizeOfBitMap % 8)) (show sizeInBytes bm - 1 < 4 * bm.buffer.length by omega)
    refine ⟨bm', heq, hsize, fun i hi => ?_⟩
    unfold RtlBitmap.Wanted
    rw [hbits i]
    by_cases hlast : i / 8 = sizeInBytes bm - 1
    · rw [if_pos hlast, Sense.hideUnused_getLsbD (by omega) (by omega), byteAt_getLsbD (by omega), ← hlast, Nat.div_add_mod]
      by_cases hused : i < bm.sizeOfBitMap
      · rw [if_pos (by omega), and_iff_right hused]
      · rw [if_neg (by omega)]
        simp [hused]
    · rw [if_neg hlast, and_iff_right (show i < bm.sizeOfBitMap by omega)]
  · rw [if_neg hodd]
    refine ⟨bm, rfl, rfl, fun i hi => ?_⟩
    rw [and_iff_right (by omega)]

/-- With one of the seven largest sizes the byte before the buffer is written. -/
theorem hideUnusedBits_of_gt (h : 4294967288 < bm.sizeOfBitMap) : hideUnusedBits s bm = .error .outside := by
  have hlt := bm.size_lt
  have hbytes : sizeInBytes bm = 0 := by
    unfold sizeInBytes add32
    omega
  unfold hideUnusedBits
  rw [if_pos (by omega), hbytes]
  refine if_neg ?_
  rw [bm.length_eq]
  unfold sub32
  omega

theorem Hidden.row_iff {bm' : RtlBitmap} (h : Hidden s bm bm') (hi : i + n ≤ 8 * sizeInBytes bm) (hn : 0 < n) :
    Row (bm'.Wanted s) i n ↔ i + n ≤ bm.sizeOfBitMap ∧ Row (bm.Wanted s) i n := by
  constructor
  · intro hrow
    refine ⟨?_, fun j hj hlt => ((h.wanted j (by omega)).mp (hrow j hj hlt)).2⟩
    have hlast := ((h.wanted (i + n - 1) (by omega)).mp (hrow _ (by omega) (by omega))).1
    omega
  · rintro ⟨hend, hrow⟩ j hj hlt
    exact (h.wanted j (by omega)).mpr ⟨by omega, hrow j hj hlt⟩

/-! ### The place of a row in a byte -/

theorem shiftedMask_getLsbD (hn : n ≤ 8) : (fillMask n <<< i).getLsbD j = true ↔ j < 8 ∧ i ≤ j ∧ j < i + n := by
  rw [getLsbD_shiftLeft, fillMask_getLsbD hn]
  simp only [Bool.and_eq_true, Bool.not_eq_true', decide_eq_true_eq, decide_eq_false_iff_not]
  omega

theorem and_eq_iff {mask want' : UCHAR} {want : Bool} (hwant : ∀ j, want'.getLsbD j = (want && mask.getLsbD j)) :
    mask &&& byte = want' ↔ ∀ j, mask.getLsbD j = true → byte.getLsbD j = want := by
  constructor
  · intro h j hj
    have hbit := congrArg (BitVec.getLsbD · j) h
    simpa [hwant, hj] using hbit
  · intro h
    refine eq_of_getLsbD_eq fun j _ => ?_
    rw [getLsbD_and, hwant]
    cases hset : mask.getLsbD j with
    | false => simp
    | true => simp [h j hset]

theorem fits_iff (hn : n ≤ 8) : s.fits (fillMask n <<< i) byte = true ↔ ∀ j < 8, i ≤ j → j < i + n → byte.getLsbD j = s.want := by
  have hbits : s.fits (fillMask n <<< i) byte = true ↔ ∀ j, (fillMask n <<< i).getLsbD j = true → byte.getLsbD j = s.want := by
    cases s with
    | clear => exact decide_eq_true_iff.trans (and_eq_iff fun _ => getLsbD_zero)
    | set => exact decide_eq_true_iff.trans (and_eq_iff fun _ => rfl)
  simp only [hbits, shiftedMask_getLsbD hn, and_imp]

/-- The shifts stop at the first place where the mask fits. -/
theorem shiftToFit_spec {i₀ fuel : ℕ} (hfits : s.fits (fillMask n <<< i₀) byte) (hi : i ≤ i₀) (hfuel : i₀ - i < fuel) :
    i + shiftToFit s byte fuel (fillMask n <<< i) ≤ i₀ ∧
      s.fits (fillMask n <<< (i + shiftToFit s byte fuel (fillMask n <<< i))) byte := by
  induction fuel generalizing i with
  | zero => exact absurd hfuel (Nat.not_lt_zero _)
  | succ fuel ih =>
    rw [shiftToFit]
    split_ifs with hfit
    · exact ⟨hi, hfit⟩
    · have hlt : i < i₀ := Nat.lt_of_le_of_ne hi fun heq => hfit (heq ▸ hfits)
      have hnext := ih (i := i + 1) hlt (by omega)
      rw [← shiftLeft_add, ← Nat.add_assoc, Nat.add_right_comm]
      exact hnext

/-- A row that the third table promises is found. -/
theorem row_shiftToFit (hn : n ≤ s.anywhere (bm.byteAt k)) :
    shiftToFit s (bm.byteAt k) 9 (fillMask n) + n ≤ 8 ∧
      Row (bm.Wanted s) (8 * k + shiftToFit s (bm.byteAt k) 9 (fillMask n)) n := by
  obtain ⟨⟨i, hk, hi, hrow⟩, -⟩ := longestRow_anywhere bm s k
  have hfits : s.fits (fillMask n <<< (i - 8 * k)) (bm.byteAt k) := by
    refine (fits_iff (by omega)).mpr fun j h8 hj hlt => ?_
    rw [byteAt_getLsbD h8]
    exact hrow _ (by omega) (by omega)
  have hspec := shiftToFit_spec (i := 0) hfits (Nat.zero_le _) (show _ < 9 by omega)
  rw [shiftLeft_zero, Nat.zero_add] at hspec
  refine ⟨by omega, fun j hj hlt => ?_⟩
  have hwant := (fits_iff (by omega)).mp hspec.2 (j - 8 * k) (by omega) (by omega) (by omega)
  rwa [byteAt_getLsbD (by omega), Nat.add_sub_of_le (by omega)] at hwant

end Nt365.Rtl.BitMap
