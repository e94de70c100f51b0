import Nt365.Rtl.BitMap
import Nt365.Library.Loop

/-!
# Ranges of bits

`RtlSetBits` and `RtlClearBits` fill a range by longwords, `RtlAreBitsSet` and `RtlAreBitsClear` test one by bytes
(`RTL/BITMAP.C`). A fill changes the bits of its range and no others (`fillBits_spec`), and a test sees a fill.

A test adds the start and the length in 32 bits. If the sum wraps, the end lies before the start, or at the last index there
is: the bits looked at are then others than those of the range, and may be outside the buffer. The answer is right exactly
if the sum does not wrap, or the wrapped sum is beyond the bit map, or there is an unwanted bit among those looked at
(`bitRanges_exact_iff`).
-/

namespace Nt365.Rtl.BitMap

open Nt365.Library BitVec

/-- `LeftShiftUlong`. -/
def leftShiftUlong (e₁ : BitVec 32) (e₂ : ℕ) : BitVec 32 := if e₂ < 32 then e₁ <<< e₂ else 0

/-- `RightShiftUlong`. -/
def rightShiftUlong (e₁ : BitVec 32) (e₂ : ℕ) : BitVec 32 := if e₂ < 32 then e₁ >>> e₂ else 0

namespace Sense

/-- `*CurrentLong |= mask`, `*CurrentLong &= ~mask`. -/
def store : Sense → BitVec 32 → BitVec 32 → BitVec 32
  | set, mask, long => long ||| mask
  | clear, mask, long => long &&& ~~~mask

/-- What a whole longword is filled with. -/
def whole : Sense → BitVec 32
  | set => 0xffffffff#32
  | clear => 0

/-- The last longword, with the mask of the bits that are left alone. -/
def storeLast : Sense → BitVec 32 → BitVec 32 → BitVec 32
  | set, others, long => long ||| ~~~others
  | clear, others, long => long &&& others

end Sense

/-- The longwords after the first one. -/
def fillLongs (s : Sense) (bm : RtlBitmap) (currentLong number : ℕ) : Except Fault RtlBitmap :=
  if 32 ≤ number then do
    let bm ← bm.updateLong currentLong fun _ => s.whole
    fillLongs s bm (currentLong + 1) (number - 32)
  else if 0 < number then bm.updateLong currentLong (s.storeLast (leftShiftUlong 0xffffffff#32 number))
  else .ok bm
termination_by number

/-- `RtlSetBits` and `RtlClearBits`. -/
def fillBits (s : Sense) (bm : RtlBitmap) (startingIndex number : ℕ) : Except Fault RtlBitmap :=
  if number = 0 then .ok bm
  else
    let bitOffset := startingIndex % 32
    let currentLong := startingIndex / 32
    if add32 bitOffset number ≤ 32 then
      bm.updateLong currentLong (s.store (leftShiftUlong (rightShiftUlong 0xffffffff#32 (sub32 32 number)) bitOffset))
    else do
      let bm ← bm.updateLong currentLong (s.store (leftShiftUlong 0xffffffff#32 bitOffset))
      fillLongs s bm (currentLong + 1) (sub32 number (32 - bitOffset))

def rtlSetBits (bm : RtlBitmap) (startingIndex numberToSet : ℕ) : Except Fault RtlBitmap :=
  fillBits .set bm startingIndex numberToSet

def rtlClearBits (bm : RtlBitmap) (startingIndex numberToClear : ℕ) : Except Fault RtlBitmap :=
  fillBits .clear bm startingIndex numberToClear

/-- The whole bytes from `position` on, and the bits of the last byte under the mask. -/
def testBytes (s : Sense) (bm : RtlBitmap) (lastMask : UCHAR) : ℕ → ℕ → Except Fault Bool
  | 0, position => do
    let byte ← bm.getByte position
    .ok (lastMask &&& s.view byte = 0)
  | n + 1, position => do
    let byte ← bm.getByte position
    if byte ≠ s.full then .ok false else testBytes s bm lastMask n (position + 1)

/-- `EndingIndex`. -/
def endingIndex (startingIndex length : ℕ) : ℕ := sub32 (add32 startingIndex length) 1

/-- `RtlAreBitsSet` and `RtlAreBitsClear`. -/
def areBits (s : Sense) (bm : RtlBitmap) (startingIndex length : ℕ) : Except Fault Bool :=
  if bm.sizeOfBitMap < add32 startingIndex length ∨ length = 0 then .ok false
  else
    let startingByte := startingIndex / 8
    let endingByte := endingIndex startingIndex length / 8
    let startingMask := zeroMask (startingIndex % 8)
    let endingMask := fillMask (endingIndex startingIndex length % 8 + 1)
    if startingByte = endingByte then do
      let byte ← bm.getByte startingByte
      .ok (startingMask &&& endingMask &&& s.view byte = 0)
    else do
      let byte ← bm.getByte startingByte
      if startingMask &&& s.view byte ≠ 0 then .ok false
      else testBytes s bm endingMask (endingByte - (startingByte + 1)) (startingByte + 1)

def rtlAreBitsClear (bm : RtlBitmap) (startingIndex length : ℕ) : Except Fault Bool := areBits .clear bm startingIndex length

def rtlAreBitsSet (bm : RtlBitmap) (startingIndex length : ℕ) : Except Fault Bool := areBits .set bm startingIndex length

variable {bm bm' : RtlBitmap} {s : Sense} {byte : UCHAR} {long : BitVec 32} {i j k n : ℕ}

/-! ### The masks of longwords -/

theorem allOnes_getLsbD (hj : j < 32) : (0xffffffff#32).getLsbD j = true := by
  have hones : (0xffffffff#32) = BitVec.allOnes 32 := by decide
  rw [hones, getLsbD_allOnes, decide_eq_true hj]

theorem allOnes_getLsbD_eq : (0xffffffff#32).getLsbD j = decide (j < 32) := by
  by_cases hj : j < 32
  · rw [allOnes_getLsbD hj, decide_eq_true hj]
  · rw [getLsbD_of_ge _ _ (by omega), decide_eq_false hj]

theorem leftShiftUlong_getLsbD (hn : n < 32) (hj : j < 32) : (leftShiftUlong 0xffffffff#32 n).getLsbD j = decide (n ≤ j) := by
  rw [leftShiftUlong, if_pos hn, getLsbD_shiftLeft, allOnes_getLsbD_eq, Bool.eq_iff_iff]
  simp only [Bool.and_eq_true, Bool.not_eq_true', decide_eq_true_eq, decide_eq_false_iff_not]
  omega

theorem fieldMask_getLsbD {offset : ℕ} (hn : n ≠ 0) (hoffset : offset + n ≤ 32) (hj : j < 32) :
    (leftShiftUlong (rightShiftUlong 0xffffffff#32 (32 - n)) offset).getLsbD j = decide (offset ≤ j ∧ j < offset + n) := by
  rw [leftShiftUlong, rightShiftUlong, if_pos (by omega), if_pos (by omega), getLsbD_shiftLeft, getLsbD_ushiftRight,
    allOnes_getLsbD_eq, Bool.eq_iff_iff]
  simp only [Bool.and_eq_true, Bool.not_eq_true', decide_eq_true_eq, decide_eq_false_iff_not]
  omega

theorem store_getLsbD {mask : BitVec 32} (hj : j < 32) :
    (s.store mask long).getLsbD j = if mask.getLsbD j then s.want else long.getLsbD j := by
  cases s <;> cases hmask : mask.getLsbD j <;>
    simp only [Sense.store, Sense.want, getLsbD_or, getLsbD_and, getLsbD_not, hmask, hj] <;> simp

theorem whole_getLsbD (hj : j < 32) : s.whole.getLsbD j = s.want := by
  cases s with
  | clear => exact getLsbD_zero
  | set => exact allOnes_getLsbD hj

theorem storeLast_getLsbD (hn : n < 32) (hj : j < 32) :
    (s.storeLast (leftShiftUlong 0xffffffff#32 n) long).getLsbD j = if j < n then s.want else long.getLsbD j := by
  have hmask := leftShiftUlong_getLsbD hn hj
  by_cases hlt : j < n
  · rw [decide_eq_false (Nat.not_le.mpr hlt)] at hmask
    cases s <;> simp only [Sense.storeLast, Sense.want, getLsbD_or, getLsbD_and, getLsbD_not, hmask, hj, hlt] <;> simp
  · rw [decide_eq_true (Nat.not_lt.mp hlt)] at hmask
    cases s <;> simp only [Sense.storeLast, Sense.want, getLsbD_or, getLsbD_and, getLsbD_not, hmask, hj, hlt] <;> simp

/-! ### Fills -/

/-- A bit map filled from `i` on for `n` bits. -/
structure Filled (s : Sense) (bm : RtlBitmap) (i n : ℕ) (bm' : RtlBitmap) : Prop where
  size_eq : bm'.sizeOfBitMap = bm.sizeOfBitMap
  bit_eq : ∀ j, bm'.bit j = if i ≤ j ∧ j < i + n then s.want else bm.bit j

theorem Filled.length_eq (h : Filled s bm i n bm') : bm'.buffer.length = bm.buffer.length := by
  rw [bm'.length_eq, bm.length_eq, h.size_eq]

theorem Filled.trans {bm'' : RtlBitmap} {m : ℕ} (h : Filled s bm i n bm') (h' : Filled s bm' (i + n) m bm'') :
    Filled s bm i (n + m) bm'' := by
  refine ⟨h'.size_eq.trans h.size_eq, fun j => ?_⟩
  rw [h'.bit_eq, h.bit_eq]
  split_ifs <;> first | rfl | omega

/-- An assignment to a longword fills the range that its mask has there. -/
theorem filled_of_updateLong {f : BitVec 32 → BitVec 32} (hk : k < bm.buffer.length)
    (hf : ∀ j, j / 32 = k → (f (bm.buffer.getD k 0)).getLsbD (j % 32) = if i ≤ j ∧ j < i + n then s.want else bm.bit j)
    (hrange : 32 * k ≤ i ∧ i + n ≤ 32 * k + 32) : ∃ bm', bm.updateLong k f = .ok bm' ∧ Filled s bm i n bm' := by
  obtain ⟨bm', heq, hsize, hbits⟩ := updateLong_spec (f := f) hk
  refine ⟨bm', heq, hsize, fun j => ?_⟩
  rw [hbits j]
  by_cases hj : j / 32 = k
  · rw [if_pos hj, hf j hj]
  · rw [if_neg hj, if_neg (by omega)]

theorem bit_eq_getLsbD (hj : j / 32 = k) : bm.bit j = (bm.buffer.getD k 0).getLsbD (j % 32) := by
  rw [RtlBitmap.bit, hj]

theorem fillLongs_spec (h : 32 * k + n ≤ 32 * bm.buffer.length) :
    ∃ bm', fillLongs s bm k n = .ok bm' ∧ Filled s bm (32 * k) n bm' := by
  induction n using Nat.strong_induction_on generalizing bm k with
  | _ n ih =>
    rw [fillLongs]
    split_ifs with hwhole hlast
    · obtain ⟨mid, heq, hfilled⟩ := filled_of_updateLong (s := s) (f := fun _ => s.whole) (i := 32 * k) (n := 32)
        (show k < bm.buffer.length by omega) (fun j hj => by rw [whole_getLsbD (by omega), if_pos (by omega)]) (by omega)
      obtain ⟨bm', hrest, hfilled'⟩ := ih (n - 32) (by omega)
        (show 32 * (k + 1) + (n - 32) ≤ 32 * mid.buffer.length by rw [hfilled.length_eq]; omega)
      refine ⟨bm', ?_, ?_⟩
      · rw [heq, ok_bind]
        exact hrest
      · have hboth := hfilled.trans (m := n - 32) hfilled'
        rwa [Nat.add_sub_of_le hwhole] at hboth
    · refine filled_of_updateLong (by omega) (fun j hj => ?_) (by omega)
      rw [storeLast_getLsbD (by omega) (by omega), bit_eq_getLsbD hj]
      split_ifs <;> first | rfl | omega
    · refine ⟨bm, rfl, rfl, fun j => ?_⟩
      rw [if_neg (by omega)]

/-- **A fill changes exactly the bits of its range.** -/
theorem fillBits_spec (h : i + n ≤ bm.sizeOfBitMap) : ∃ bm', fillBits s bm i n = .ok bm' ∧ Filled s bm i n bm' := by
  have hsize := bm.size_lt
  have hlength := bm.length_eq
  rw [fillBits]
  split_ifs with hzero
  · refine ⟨bm, rfl, rfl, fun j => ?_⟩
    rw [if_neg (by omega)]
  · dsimp only
    rw [add32_of_lt (by omega)]
    split_ifs with hone
    · rw [sub32_of_le (by omega) (by omega)]
      refine filled_of_updateLong (by omega) (fun j hj => ?_) (by omega)
      rw [store_getLsbD (by omega), fieldMask_getLsbD hzero hone (by omega), bit_eq_getLsbD hj]
      simp only [decide_eq_true_eq]
      split_ifs <;> first | rfl | omega
    · obtain ⟨mid, heq, hfilled⟩ := filled_of_updateLong (s := s)
        (f := s.store (leftShiftUlong 0xffffffff#32 (i % 32))) (i := i) (n := 32 - i % 32)
        (show i / 32 < bm.buffer.length by omega)
        (fun j hj => by
          rw [store_getLsbD (by omega), leftShiftUlong_getLsbD (by omega) (by omega), bit_eq_getLsbD hj]
          simp only [decide_eq_true_eq]
          split_ifs <;> first | rfl | omega) (by omega)
      obtain ⟨bm', hrest, hfilled'⟩ := fillLongs_spec (s := s)
        (show 32 * (i / 32 + 1) + (n - (32 - i % 32)) ≤ 32 * mid.buffer.length by rw [hfilled.length_eq]; omega)
      rw [heq, ok_bind, sub32_of_le (by omega) (by omega)]
      refine ⟨bm', hrest, ?_⟩
      rw [show 32 * (i / 32 + 1) = i + (32 - i % 32) by omega] at hfilled'
      have hboth := hfilled.trans hfilled'
      rwa [Nat.add_sub_of_le (by omega)] at hboth

/-! ### Tests -/

theorem mask_and_view_eq_zero {mask : UCHAR} :
    mask &&& s.view byte = 0 ↔ ∀ j < 8, mask.getLsbD j = true → byte.getLsbD j = s.want := by
  constructor
  · intro h j hj hmask
    have hbit : (mask &&& s.view byte).getLsbD j = false := by
      rw [h]
      exact getLsbD_zero
    rw [getLsbD_and, hmask, Bool.true_and] at hbit
    exact (Sense.view_getLsbD hj).mp hbit
  · intro h
    refine eq_of_getLsbD_eq fun j hj => ?_
    rw [getLsbD_and]
    cases hmask : mask.getLsbD j with
    | false => exact getLsbD_zero.symm
    | true => exact ((Sense.view_getLsbD hj).mpr (h j hj hmask)).trans getLsbD_zero.symm

/-- There is an unwanted bit in the buffer from `a` up to `b`. -/
def Spoilt (s : Sense) (bm : RtlBitmap) (a b : ℕ) : Prop := ∃ i, a ≤ i ∧ i < b ∧ i < 32 * bm.buffer.length ∧ ¬bm.Wanted s i

/-- How a test of the bits from `a` up to `b` ends: with `false` if it sees an unwanted bit, with `true` if it sees all the
bits and none is unwanted, and otherwise with an access outside the buffer. -/
structure Tested (s : Sense) (bm : RtlBitmap) (a b : ℕ) (r : Except Fault Bool) : Prop where
  spoilt : Spoilt s bm a b → r = .ok false
  clean : ¬Spoilt s bm a b → r = .ok true ∨ r = .error .outside
  inside : a < b → b ≤ 32 * bm.buffer.length → ¬Spoilt s bm a b → r = .ok true

variable {a b c : ℕ} {r : Except Fault Bool} {mask : UCHAR}

theorem tested_outside (h : 32 * bm.buffer.length ≤ a) : Tested s bm a b (.error .outside) where
  spoilt := fun ⟨i, ha, _, hi, _⟩ => by omega
  clean _ := .inr rfl
  inside _ _ _ := by omega

theorem tested_false (h : Spoilt s bm a b) : Tested s bm a b (.ok false) :=
  ⟨fun _ => rfl, fun hnot => absurd h hnot, fun _ _ hnot => absurd h hnot⟩

theorem Tested.cons (h : Tested s bm c b r) (hrow : ∀ i, a ≤ i → i < c → bm.Wanted s i) (hac : a ≤ c) (hcb : c < b) :
    Tested s bm a b r := by
  have hiff : Spoilt s bm a b ↔ Spoilt s bm c b := by
    constructor
    · rintro ⟨i, ha, hb, hi, hnot⟩
      exact ⟨i, Nat.le_of_not_lt fun hlt => hnot (hrow i ha hlt), hb, hi, hnot⟩
    · rintro ⟨i, hc, hb, hi, hnot⟩
      exact ⟨i, by omega, hb, hi, hnot⟩
  refine ⟨fun hs => h.spoilt (hiff.mp hs), fun hs => h.clean fun hs' => hs (hiff.mpr hs'), fun _ hb hs => ?_⟩
  exact h.inside hcb hb fun hs' => hs (hiff.mpr hs')

/-- A mask over byte `k` shows the bits from `a` up to `b` that the byte has. -/
def Shows (mask : UCHAR) (k a b : ℕ) : Prop := ∀ j < 8, mask.getLsbD j = true ↔ a ≤ 8 * k + j ∧ 8 * k + j < b

theorem Shows.wanted_iff (h : Shows mask k a b) (ha : 8 * k ≤ a) (hb : b ≤ 8 * k + 8) :
    mask &&& s.view (bm.byteAt k) = 0 ↔ ∀ i, a ≤ i → i < b → bm.Wanted s i := by
  rw [mask_and_view_eq_zero]
  constructor
  · intro hall i hi hlt
    have hbit := hall (i - 8 * k) (by omega) ((h _ (by omega)).mpr (by omega))
    rwa [byteAt_getLsbD (by omega), Nat.add_sub_of_le (by omega)] at hbit
  · intro hall j hj hmask
    obtain ⟨hle, hlt⟩ := (h j hj).mp hmask
    rw [byteAt_getLsbD hj]
    exact hall _ hle hlt

theorem Shows.spoilt (h : Shows mask k a b) (ha : 8 * k ≤ a) (hb : b ≤ 8 * k + 8) (hk : k < 4 * bm.buffer.length)
    (hne : mask &&& s.view (bm.byteAt k) ≠ 0) : Spoilt s bm a b := by
  by_contra hnot
  refine hne ((h.wanted_iff ha hb).mpr fun i hi hlt => ?_)
  by_contra hunwanted
  exact hnot ⟨i, hi, hlt, by omega, hunwanted⟩

theorem tested_last (h : Shows mask k a b) (ha : 8 * k ≤ a) (hb : b ≤ 8 * k + 8) :
    Tested s bm a b (do let byte ← bm.getByte k; .ok (mask &&& s.view byte = 0)) := by
  by_cases hk : k < 4 * bm.buffer.length
  · rw [getByte_of_lt hk, ok_bind]
    by_cases hzero : mask &&& s.view (bm.byteAt k) = 0
    · rw [decide_eq_true hzero]
      have hclean : ¬Spoilt s bm a b := fun ⟨i, hi, hlt, _, hnot⟩ => hnot ((h.wanted_iff ha hb).mp hzero i hi hlt)
      exact ⟨fun hs => absurd hs hclean, fun _ => .inl rfl, fun _ _ _ => rfl⟩
    · rw [decide_eq_false hzero]
      exact tested_false (h.spoilt ha hb hk hzero)
  · rw [RtlBitmap.getByte, if_neg hk]
    exact tested_outside (by omega)

theorem tested_first (h : Shows mask k a (8 * k + 8)) (ha : 8 * k ≤ a) (hend : a ≤ 8 * k + 8) (hb : 8 * k + 8 < b)
    (hrest : Tested s bm (8 * k + 8) b r) :
    Tested s bm a b (do let byte ← bm.getByte k; if mask &&& s.view byte ≠ 0 then .ok false else r) := by
  by_cases hk : k < 4 * bm.buffer.length
  · rw [getByte_of_lt hk, ok_bind]
    split_ifs with hne
    · obtain ⟨i, hi, hlt, hin, hnot⟩ := h.spoilt ha le_rfl hk hne
      exact tested_false ⟨i, hi, by omega, hin, hnot⟩
    · exact hrest.cons ((h.wanted_iff ha le_rfl).mp (not_not.mp hne)) hend hb
  · rw [RtlBitmap.getByte, if_neg hk]
    exact tested_outside (by omega)

theorem shows_zeroMask : Shows (zeroMask (i % 8)) (i / 8) i (8 * (i / 8) + 8) := by
  intro j hj
  rw [zeroMask_getLsbD (by omega) hj, decide_eq_true_iff]
  omega

theorem shows_fillMask (hn : n ≤ 8) : Shows (fillMask n) k (8 * k) (8 * k + n) := by
  intro j hj
  rw [fillMask_getLsbD hn, decide_eq_true_iff]
  omega

/-- A byte that is not full is one of which some bit is unwanted. -/
theorem full_iff_mask : byte ≠ s.full ↔ fillMask 8 &&& s.view byte ≠ 0 := by
  rw [ne_eq, byte_eq_full_iff, ne_eq, mask_and_view_eq_zero]
  refine not_congr (forall₂_congr fun j hj => ?_)
  rw [fillMask_getLsbD le_rfl, decide_eq_true hj]
  exact ⟨fun hwant _ => hwant, fun hwant => hwant rfl⟩

theorem testBytes_tested (hn : n ≤ 8) (hpos : 0 < n) (m : ℕ) :
    Tested s bm (8 * k) (8 * (k + m) + n) (testBytes s bm (fillMask n) m k) := by
  induction m generalizing k with
  | zero => exact tested_last (shows_fillMask hn) le_rfl (by omega)
  | succ m ih =>
    have hrest := ih (k := k + 1)
    rw [show k + 1 + m = k + (m + 1) by omega] at hrest
    have htested := tested_first (shows_fillMask (k := k) (n := 8) le_rfl) le_rfl (by omega) (by omega) hrest
    rw [testBytes]
    simp only [full_iff_mask]
    exact htested

/-- The end of the bits that a test looks at. -/
def lookedEnd (startingIndex endingIndex : ℕ) : ℕ :=
  if startingIndex ≤ endingIndex then endingIndex + 1
  else if startingIndex / 8 = endingIndex / 8 then startingIndex
  else 8 * (startingIndex / 8 + 1) + endingIndex % 8 + 1

/-- A test that passes the check of the range tests the bits it looks at. -/
theorem areBits_tested (h : ¬(bm.sizeOfBitMap < add32 i n ∨ n = 0)) :
    Tested s bm i (lookedEnd i (endingIndex i n)) (areBits s bm i n) := by
  rw [areBits, if_neg h]
  generalize endingIndex i n = e
  dsimp only
  by_cases hbyte : i / 8 = e / 8
  · rw [if_pos hbyte]
    refine tested_last (fun j hj => ?_) (by omega) ?_
    · rw [getLsbD_and, zeroMask_getLsbD (by omega) hj, fillMask_getLsbD (by omega), Bool.and_eq_true, decide_eq_true_iff,
        decide_eq_true_iff]
      unfold lookedEnd
      split_ifs <;> omega
    · unfold lookedEnd
      split_ifs <;> omega
  · rw [if_neg hbyte]
    have hend : 8 * (i / 8 + 1 + (e / 8 - (i / 8 + 1))) + (e % 8 + 1) = lookedEnd i e := by
      unfold lookedEnd
      split_ifs <;> omega
    refine tested_first shows_zeroMask (by omega) (by omega) (by rw [← hend]; omega) ?_
    rw [← hend]
    exact testBytes_tested (k := i / 8 + 1) (n := e % 8 + 1) (by omega) (by omega) _

/-- What a test should say. -/
def InRange (s : Sense) (bm : RtlBitmap) (i n : ℕ) : Prop :=
  n ≠ 0 ∧ i + n ≤ bm.sizeOfBitMap ∧ ∀ j, i ≤ j → j < i + n → bm.bit j = s.want

/-- **A test whose sum does not wrap is right.** -/
theorem areBits_of_lt (hlt : i + n < 4294967296) : ∃ b, areBits s bm i n = .ok b ∧ (b = true ↔ InRange s bm i n) := by
  by_cases hrange : bm.sizeOfBitMap < add32 i n ∨ n = 0
  · refine ⟨false, by rw [areBits, if_pos hrange], iff_of_false Bool.false_ne_true fun hin => ?_⟩
    rw [add32_of_lt hlt] at hrange
    exact hrange.elim (fun h => absurd hin.2.1 (by omega)) hin.1
  · have htested := areBits_tested (s := s) hrange
    rw [add32_of_lt hlt] at hrange
    have hend : lookedEnd i (endingIndex i n) = i + n := by
      unfold lookedEnd endingIndex
      rw [add32_of_lt hlt, sub32_of_le hlt (by omega), if_pos (by omega)]
      omega
    have hlength := bm.length_eq
    rw [hend] at htested
    by_cases hspoilt : Spoilt s bm i (i + n)
    · refine ⟨false, htested.spoilt hspoilt, iff_of_false Bool.false_ne_true fun hin => ?_⟩
      obtain ⟨j, hj, hlt, -, hnot⟩ := hspoilt
      exact hnot (hin.2.2 j hj hlt)
    · refine ⟨true, htested.inside (by omega) (by omega) hspoilt, iff_of_true rfl ⟨by omega, by omega, fun j hj hlt => ?_⟩⟩
      by_contra hnot
      exact hspoilt ⟨j, hj, hlt, by omega, hnot⟩

/-- When the answer of a test can be trusted. -/
def Trusted (s : Sense) (bm : RtlBitmap) (i n : ℕ) : Prop :=
  i + n < 4294967296 ∨ bm.sizeOfBitMap < i + n - 4294967296 ∨ Spoilt s bm i (lookedEnd i (endingIndex i n))

/-- A test is right exactly if it can be trusted. -/
theorem areBits_exact_iff (hi : i < 4294967296) (hn : n < 4294967296) :
    (∃ b, areBits s bm i n = .ok b ∧ (b = true ↔ InRange s bm i n)) ↔ Trusted s bm i n := by
  rcases Nat.lt_or_ge (i + n) 4294967296 with hlt | hge
  · exact iff_of_true (areBits_of_lt hlt) (.inl hlt)
  have hsize := bm.size_lt
  have hnot : ¬InRange s bm i n := fun hin => absurd hin.2.1 (by omega)
  have hsum : add32 i n = i + n - 4294967296 := by
    unfold add32
    omega
  have hfalse : (∃ b, areBits s bm i n = .ok b ∧ (b = true ↔ InRange s bm i n)) ↔ areBits s bm i n = .ok false := by
    constructor
    · rintro ⟨b, heq, hb⟩
      rw [heq, Bool.eq_false_iff.mpr fun htrue => hnot (hb.mp htrue)]
    · exact fun heq => ⟨false, heq, iff_of_false Bool.false_ne_true hnot⟩
  rw [hfalse]
  by_cases hrange : bm.sizeOfBitMap < add32 i n ∨ n = 0
  · refine iff_of_true (by rw [areBits, if_pos hrange]) (.inr (.inl ?_))
    rw [← hsum]
    exact hrange.resolve_right (by omega)
  · have htested := areBits_tested (s := s) hrange
    rw [hsum] at hrange
    constructor
    · intro heq
      refine .inr (.inr ?_)
      by_contra hclean
      rcases htested.clean hclean with h | h
      · rw [heq] at h
        cases h
      · rw [heq] at h
        cases h
    · rintro (hlt | hsize | hspoilt)
      · omega
      · exact absurd (.inl hsize) hrange
      · exact htested.spoilt hspoilt

theorem areBits_of_filled (h : Filled s bm i n bm') (hn : i + n ≤ bm.sizeOfBitMap) : areBits s bm' i n = .ok (decide (n ≠ 0)) := by
  have hsize := bm.size_lt
  obtain ⟨b, heq, hb⟩ := areBits_of_lt (s := s) (show i + n < 4294967296 by omega)
  have hin : InRange s bm' i n ↔ n ≠ 0 := by
    refine ⟨And.left, fun hne => ⟨hne, by rw [h.size_eq]; exact hn, fun j hj hlt => ?_⟩⟩
    rw [h.bit_eq j, if_pos ⟨hj, hlt⟩]
  have hdecide : b = decide (n ≠ 0) := by
    rw [Bool.eq_iff_iff, decide_eq_true_iff]
    exact hb.trans hin
  rw [heq, hdecide]

/-- **Ranges of bits.** `RtlAreBitsClear` and `RtlAreBitsSet` are right exactly where they can be trusted; `RtlSetBits` and
`RtlClearBits` change exactly the bits of a range of the bit map, and the test of a range that is not empty is true afterwards. -/
theorem bitRanges_exact_iff (bm : RtlBitmap) {startingIndex length : ℕ} (hi : startingIndex < 4294967296)
    (hn : length < 4294967296) :
    ((∃ b, rtlAreBitsClear bm startingIndex length = .ok b ∧ (b = true ↔ length ≠ 0 ∧ startingIndex + length ≤ bm.sizeOfBitMap ∧
        ∀ j, startingIndex ≤ j → j < startingIndex + length → bm.bit j = false)) ↔ Trusted .clear bm startingIndex length) ∧
      ((∃ b, rtlAreBitsSet bm startingIndex length = .ok b ∧ (b = true ↔ length ≠ 0 ∧ startingIndex + length ≤ bm.sizeOfBitMap ∧
        ∀ j, startingIndex ≤ j → j < startingIndex + length → bm.bit j = true)) ↔ Trusted .set bm startingIndex length) ∧
      (startingIndex + length ≤ bm.sizeOfBitMap →
        (∃ bm', rtlSetBits bm startingIndex length = .ok bm' ∧ Filled .set bm startingIndex length bm' ∧
          rtlAreBitsSet bm' startingIndex length = .ok (decide (length ≠ 0))) ∧
        ∃ bm', rtlClearBits bm startingIndex length = .ok bm' ∧ Filled .clear bm startingIndex length bm' ∧
          rtlAreBitsClear bm' startingIndex length = .ok (decide (length ≠ 0))) := by
  refine ⟨areBits_exact_iff hi hn, areBits_exact_iff hi hn, fun hrange => ⟨?_, ?_⟩⟩
  · obtain ⟨bm', heq, hfilled⟩ := fillBits_spec (s := .set) hrange
    exact ⟨bm', heq, hfilled, areBits_of_filled hfilled hrange⟩
  · obtain ⟨bm', heq, hfilled⟩ := fillBits_spec (s := .clear) hrange
    exact ⟨bm', heq, hfilled, areBits_of_filled hfilled hrange⟩

/-- Forty bits, of which the first four are set. -/
def lowNibble : RtlBitmap := ⟨40, [0x0000000f, 0], by decide, by decide⟩

/-- A range across two longwords. -/
theorem bitRanges_exact_lowNibble :
    (∃ b, rtlAreBitsClear lowNibble 4 36 = .ok b ∧ (b = true ↔ 36 ≠ 0 ∧ 4 + 36 ≤ lowNibble.sizeOfBitMap ∧
        ∀ j, 4 ≤ j → j < 4 + 36 → lowNibble.bit j = false)) ∧
      ∃ bm', rtlSetBits lowNibble 4 36 = .ok bm' ∧ Filled .set lowNibble 4 36 bm' ∧
        rtlAreBitsSet bm' 4 36 = .ok (decide (36 ≠ 0)) := by
  obtain ⟨hclear, -, hfill⟩ := bitRanges_exact_iff lowNibble (show 4 < 4294967296 by decide) (show 36 < 4294967296 by decide)
  exact ⟨hclear.mpr (.inl (by decide)), (hfill (by decide)).1⟩

/-- With the length `0xffffffff` the end is before the start, in the same byte: no bit is looked at, and four set bits are
said to be clear. -/
theorem areBits_wraps : rtlAreBitsClear lowNibble 3 4294967295 = .ok true ∧ lowNibble.bit 3 = true ∧
    ¬3 + 4294967295 ≤ lowNibble.sizeOfBitMap := by
  decide

end Nt365.Rtl.BitMap
