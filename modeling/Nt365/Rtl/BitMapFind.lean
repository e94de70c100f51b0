import Nt365.Rtl.BitMap
import Nt365.Library.Loop

/-!
# Finding bits in a row

`RtlFindClearBits` and `RtlFindSetBits` (`RTL/BITMAP.C`) search from the byte of a hint to the end of the bit map and then from its
start to as far behind the hint as a run from before it can reach. There are three searches, for up to nine bits, up to fourteen
and more.

What they find is right, and what they do not find is not there, with one exception. The search for fifteen bits or more
wants `(NumberToFind - 7) / 8` full bytes before the byte in hand, but a run of `8 m + 7` bits that ends with its last full
byte has one less there: it is found only with the byte after it. At the end of the bit map there is none
(`findBits_exact_iff`).
-/

namespace Nt365.Rtl.BitMap

open Nt365.Library

/-- Up to nine bits: in one byte or two. -/
def findFew (s : Sense) (bm : RtlBitmap) (numberToFind : ℕ) : ℕ → ℕ → UCHAR → Except Fault (Option ℕ)
  | 0, _, _ => .ok none
  | n + 1, byteIndex, previousByte => do
    let currentByte ← bm.getByte byteIndex
    let currentBitIndex := 8 * byteIndex
    let startingIndex := sub32 currentBitIndex (s.high previousByte)
    if numberToFind ≤ s.anywhere currentByte then
      .ok (some (currentBitIndex + shiftToFit s currentByte 9 (fillMask numberToFind)))
    else if numberToFind ≤ s.high previousByte + s.low currentByte ∧ add32 startingIndex numberToFind ≤ bm.sizeOfBitMap then
      .ok (some startingIndex)
    else findFew s bm numberToFind n (byteIndex + 1) currentByte

/-- Ten bits to fourteen: in two bytes, or in three with a full one between. -/
def findSome (s : Sense) (bm : RtlBitmap) (numberToFind : ℕ) : ℕ → ℕ → UCHAR → UCHAR → Except Fault (Option ℕ)
  | 0, _, _, _ => .ok none
  | n + 1, byteIndex, previousPreviousByte, previousByte => do
    let currentByte ← bm.getByte byteIndex
    let currentBitIndex := 8 * byteIndex
    let startingIndex := sub32 currentBitIndex (s.high previousByte)
    let startingIndex₃ := sub32 (sub32 currentBitIndex 8) (s.high previousPreviousByte)
    if numberToFind ≤ s.high previousByte + s.low currentByte ∧ add32 startingIndex numberToFind ≤ bm.sizeOfBitMap then
      .ok (some startingIndex)
    else if (previousByte = s.full ∧ numberToFind ≤ s.high previousPreviousByte + 8 + s.low currentByte) ∧
        add32 startingIndex₃ numberToFind ≤ bm.sizeOfBitMap then
      .ok (some startingIndex₃)
    else findSome s bm numberToFind n (byteIndex + 1) previousByte currentByte

/-- The run of full bytes that the search for fifteen bits or more has open: their number, and the byte before them. -/
structure OpenRun where
  fullBytesFound : ℕ
  startOfRunByte : UCHAR
  startOfRunIndex : ℤ

/-- The bit at which the open run starts. -/
def OpenRun.startingIndex (run : OpenRun) (s : Sense) : ℕ :=
  ((run.startOfRunIndex * 8 + (8 - (s.high run.startOfRunByte : ℤ))) % 4294967296).toNat

/-- The open run after one more byte. -/
def OpenRun.next (run : OpenRun) (s : Sense) (byteIndex : ℕ) (currentByte : UCHAR) : OpenRun :=
  if currentByte = s.full then { run with fullBytesFound := run.fullBytesFound + 1 } else ⟨0, currentByte, byteIndex⟩

/-- Fifteen bits or more. -/
def findMany (s : Sense) (bm : RtlBitmap) (numberToFind : ℕ) : ℕ → ℕ → OpenRun → Except Fault (Option ℕ)
  | 0, _, _ => .ok none
  | n + 1, byteIndex, run => do
    let currentByte ← bm.getByte byteIndex
    if ((numberToFind - 7) / 8 ≤ run.fullBytesFound ∧
        numberToFind ≤ s.high run.startOfRunByte + run.fullBytesFound * 8 + s.low currentByte) ∧
        add32 (run.startingIndex s) numberToFind ≤ bm.sizeOfBitMap then
      .ok (some (run.startingIndex s))
    else findMany s bm numberToFind n (byteIndex + 1) (run.next s byteIndex currentByte)

/-- One time through the main loop. -/
def findIn (s : Sense) (bm : RtlBitmap) (numberToFind startByteIndex endByteIndex : ℕ) : Except Fault (Option ℕ) :=
  if numberToFind ≤ 9 then findFew s bm numberToFind (endByteIndex - startByteIndex) startByteIndex s.empty
  else if numberToFind < 15 then findSome s bm numberToFind (endByteIndex - startByteIndex) startByteIndex s.empty s.empty
  else findMany s bm numberToFind (endByteIndex - startByteIndex) startByteIndex ⟨0, s.empty, startByteIndex - 1⟩

/-- `EndByteIndex` of the second time through the main loop. -/
def secondEnd (sizeInBytes hintByte numberToFind : ℕ) : ℕ :=
  if numberToFind < 2 then hintByte
  else if sizeInBytes < hintByte + (numberToFind - 2) / 8 + 1 then sizeInBytes
  else hintByte + (numberToFind - 2) / 8 + 1

/-- What is returned, with the bit map that is left. -/
structure FoundBits where
  startingIndex : ℕ
  bitMap : RtlBitmap

/-- `RtlFindClearBits` and `RtlFindSetBits`. -/
def findBits (s : Sense) (bm : RtlBitmap) (numberToFind hintIndex : ℕ) : Except Fault FoundBits := do
  let hidden ← hideUnusedBits s bm
  let hintByte := (if bm.sizeOfBitMap ≤ hintIndex then 0 else hintIndex) / 8
  match ← findIn s hidden numberToFind hintByte (sizeInBytes bm) with
  | some startingIndex => .ok ⟨startingIndex, hidden⟩
  | none =>
    if hintByte ≠ 0 then
      match ← findIn s hidden numberToFind 0 (secondEnd (sizeInBytes bm) hintByte numberToFind) with
      | some startingIndex => .ok ⟨startingIndex, hidden⟩
      | none => .ok ⟨4294967295, hidden⟩
    else .ok ⟨4294967295, hidden⟩

def rtlFindClearBits (bm : RtlBitmap) (numberToFind hintIndex : ℕ) : Except Fault FoundBits :=
  findBits .clear bm numberToFind hintIndex

def rtlFindSetBits (bm : RtlBitmap) (numberToFind hintIndex : ℕ) : Except Fault FoundBits :=
  findBits .set bm numberToFind hintIndex

/-! ### One time through the main loop -/

/-- What a search between two bits owes: what it finds is there, and what it does not find is a run of `8 m + 7` bits, fifteen at
least, that ends where the search ends. Such a run it does not find. -/
structure Searched (p : ℕ → Prop) (count a b : ℕ) (r : Option ℕ) : Prop where
  sound : ∀ i, r = some i → a ≤ i ∧ i + count ≤ b ∧ Row p i count
  complete : r = none → ∀ i, a ≤ i → i + count ≤ b → Row p i count → 15 ≤ count ∧ count % 8 = 7 ∧ i + count = b
  late : ∀ i, r = some i → 15 ≤ count → count % 8 = 7 → b % 8 = 0 → i + count ≠ b

theorem searched_some {p : ℕ → Prop} {count a b i : ℕ} (ha : a ≤ i) (hb : i + count ≤ b) (hrow : Row p i count)
    (hlate : 15 ≤ count → count % 8 = 7 → b % 8 = 0 → i + count ≠ b) : Searched p count a b (some i) where
  sound _ heq := Option.some.inj heq ▸ ⟨ha, hb, hrow⟩
  complete h := nomatch h
  late _ heq := Option.some.inj heq ▸ hlate

theorem searched_none {p : ℕ → Prop} {count a b : ℕ}
    (h : ∀ i, a ≤ i → i + count ≤ b → Row p i count → 15 ≤ count ∧ count % 8 = 7 ∧ i + count = b) :
    Searched p count a b none where
  sound _ heq := nomatch heq
  complete _ := h
  late _ heq := nomatch heq

section Search

variable {bm : RtlBitmap} {s : Sense} {count start limit k n stop : ℕ} (hlimit : limit ≤ 4 * bm.buffer.length)
  (hfit : ∀ i, Row (bm.Wanted s) i count → i + count ≤ 8 * limit → i + count ≤ bm.sizeOfBitMap)
include hlimit hfit

omit hlimit in
theorem size_check {i : ℕ} (hrow : Row (bm.Wanted s) i count) (hend : i + count ≤ 8 * limit) :
    add32 i count ≤ bm.sizeOfBitMap := by
  have hle := hfit i hrow hend
  have hlt := bm.size_lt
  rwa [add32_of_lt (by omega)]

theorem findFew_spec {previousByte : UCHAR} (hnumber : count ≤ 9) (hn : k + n = stop) (hend : stop ≤ limit) (hstart : start ≤ k)
    (hprevious : RowTail (bm.Wanted s) (max (8 * start) (8 * k - 8)) (8 * k) (s.high previousByte))
    (hnone : ∀ i, 8 * start ≤ i → i + count ≤ 8 * k → ¬Row (bm.Wanted s) i count) :
    ∃ r, findFew s bm count n k previousByte = .ok r ∧ Searched (bm.Wanted s) count (8 * start) (8 * stop) r := by
  induction n generalizing k previousByte with
  | zero => exact ⟨none, rfl, searched_none fun i ha hb hrow => absurd hrow (hnone i ha (by omega))⟩
  | succ n ih =>
    have hlt := bm.size_lt
    have hlength := bm.length_eq
    have htail := hprevious.le
    have hhead := rowHead_low bm s k
    have hlow := hhead.le
    rw [findFew, getByte_of_lt (by omega), ok_bind]
    dsimp only
    rw [sub32_of_le (by omega) (by omega)]
    by_cases hbyte : count ≤ s.anywhere (bm.byteAt k)
    · rw [if_pos hbyte]
      obtain ⟨hle, hrow⟩ := row_shiftToFit hbyte
      exact ⟨_, rfl, searched_some (by omega) (by omega) hrow (by omega)⟩
    rw [if_neg hbyte]
    by_cases htwo : count ≤ s.high previousByte + s.low (bm.byteAt k)
    · have hrow : Row (bm.Wanted s) (8 * k - s.high previousByte) count := (hprevious.append_head hhead).mono le_rfl (by omega)
      rw [if_pos ⟨htwo, size_check hfit hrow (by omega)⟩]
      exact ⟨_, rfl, searched_some (by omega) (by omega) hrow (by omega)⟩
    rw [if_neg fun h => htwo h.1]
    have hnext : RowTail (bm.Wanted s) (max (8 * start) (8 * (k + 1) - 8)) (8 * (k + 1)) (s.high (bm.byteAt k)) := by
      rw [show max (8 * start) (8 * (k + 1) - 8) = 8 * k by omega]
      exact rowTail_high bm s k
    -- a run that is new with this byte lies in it, or crosses into it from the byte before
    have hnone' : ∀ i, 8 * start ≤ i → i + count ≤ 8 * (k + 1) → ¬Row (bm.Wanted s) i count := by
      intro i ha hb hrow
      rcases Nat.lt_or_ge (8 * k) (i + count) with hover | hbefore
      · rcases Nat.lt_or_ge i (8 * k) with hi | hi
        · exact htwo (hrow.le_tail_add_head hprevious hhead (by omega) hi.le hover.le hb)
        · exact hbyte ((longestRow_anywhere bm s k).bound i _ hi hb hrow)
      · exact hnone i ha hbefore hrow
    exact ih (by omega) (by omega) hnext hnone'

/-- The bytes before the one in hand, as the search for ten bits to fourteen has them. -/
structure TwoBytes (s : Sense) (bm : RtlBitmap) (start k : ℕ) (previousPreviousByte previousByte : UCHAR) : Prop where
  previous : RowTail (bm.Wanted s) (max (8 * start) (8 * k - 8)) (8 * k) (s.high previousByte)
  full_iff : previousByte = s.full ↔ start < k ∧ Row (bm.Wanted s) (8 * k - 8) 8
  previousPrevious : start < k → RowTail (bm.Wanted s) (max (8 * start) (8 * k - 16)) (8 * k - 8) (s.high previousPreviousByte)

omit hlimit hfit in
theorem twoBytes_start : TwoBytes s bm start start s.empty s.empty where
  previous := by
    rw [high_empty, Nat.max_eq_left (by omega)]
    exact rowTail_zero _
  full_iff := iff_of_false (by cases s <;> decide) fun h => absurd h.1 (Nat.lt_irrefl _)
  previousPrevious h := absurd h (Nat.lt_irrefl _)

omit hlimit hfit in
theorem TwoBytes.next {previousPreviousByte previousByte : UCHAR} (h : TwoBytes s bm start k previousPreviousByte previousByte)
    (hstart : start ≤ k) : TwoBytes s bm start (k + 1) previousByte (bm.byteAt k) where
  previous := by
    rw [show max (8 * start) (8 * (k + 1) - 8) = 8 * k by omega]
    exact rowTail_high bm s k
  full_iff := by
    rw [byteAt_eq_full_iff, and_iff_right (by omega), show 8 * (k + 1) - 8 = 8 * k by omega]
  previousPrevious _ := by
    rw [show 8 * (k + 1) - 16 = 8 * k - 8 by omega, show 8 * (k + 1) - 8 = 8 * k by omega]
    exact h.previous

theorem findSome_spec {previousPreviousByte previousByte : UCHAR} (hten : 9 < count) (hnumber : count < 15)
    (hn : k + n = stop) (hend : stop ≤ limit) (hstart : start ≤ k) (htwo : TwoBytes s bm start k previousPreviousByte previousByte)
    (hnone : ∀ i, 8 * start ≤ i → i + count ≤ 8 * k → ¬Row (bm.Wanted s) i count) :
    ∃ r, findSome s bm count n k previousPreviousByte previousByte = .ok r ∧
      Searched (bm.Wanted s) count (8 * start) (8 * stop) r := by
  induction n generalizing k previousPreviousByte previousByte with
  | zero => exact ⟨none, rfl, searched_none fun i ha hb hrow => absurd hrow (hnone i ha (by omega))⟩
  | succ n ih =>
    have hlt := bm.size_lt
    have hlength := bm.length_eq
    have htail := htwo.previous.le
    have hhead := rowHead_low bm s k
    have hlow := hhead.le
    rw [findSome, getByte_of_lt (by omega), ok_bind]
    dsimp only
    by_cases hfits : count ≤ s.high previousByte + s.low (bm.byteAt k)
    · have hrow : Row (bm.Wanted s) (8 * k - s.high previousByte) count := (htwo.previous.append_head hhead).mono le_rfl (by omega)
      rw [sub32_of_le (by omega) (by omega), if_pos ⟨hfits, size_check hfit hrow (by omega)⟩]
      exact ⟨_, rfl, searched_some (by omega) (by omega) hrow (by omega)⟩
    rw [if_neg fun h => hfits h.1]
    by_cases hthree : previousByte = s.full ∧ count ≤ s.high previousPreviousByte + 8 + s.low (bm.byteAt k)
    · obtain ⟨hbefore, hmiddle⟩ := htwo.full_iff.mp hthree.1
      have htail₃ := (htwo.previousPrevious hbefore).extend hmiddle
      rw [Nat.sub_add_cancel (by omega)] at htail₃
      have hle := htail₃.le
      have hrow := (htail₃.append_head hhead).mono (m := count) le_rfl (by omega)
      rw [sub32_of_le (a := 8 * k) (by omega) (by omega), sub32_of_le (by omega) (by omega), Nat.sub_sub, Nat.add_comm 8,
        if_pos ⟨hthree, size_check hfit hrow (by omega)⟩]
      exact ⟨_, rfl, searched_some (by omega) (by omega) hrow (by omega)⟩
    rw [if_neg fun h => hthree h.1]
    have hnone' : ∀ i, 8 * start ≤ i → i + count ≤ 8 * (k + 1) → ¬Row (bm.Wanted s) i count := by
      intro i ha hb hrow
      rcases Nat.lt_or_ge (8 * k) (i + count) with hover | hbefore
      · -- the run starts in the byte before, or goes through all of it
        rcases Nat.lt_or_ge i (8 * k - 8) with hi | hi
        · have hmiddle : Row (bm.Wanted s) (8 * k - 8) 8 := hrow.mono hi.le (by omega)
          have htail₃ := (htwo.previousPrevious (by omega)).extend hmiddle
          rw [Nat.sub_add_cancel (by omega)] at htail₃
          refine hthree ⟨htwo.full_iff.mpr ⟨by omega, hmiddle⟩, ?_⟩
          exact hrow.le_tail_add_head htail₃ hhead (by omega) (by omega) hover.le hb
        · exact hfits (hrow.le_tail_add_head htwo.previous hhead (by omega) (by omega) hover.le hb)
      · exact hnone i ha hbefore hrow
    exact ih (by omega) (by omega) (htwo.next hstart) hnone'

/-- The open run before the byte in hand, as the search for fifteen bits or more has it. A run that it missed so far ends
here, with its full bytes just counted. -/
structure OpenAt (s : Sense) (bm : RtlBitmap) (count start k : ℕ) (run : OpenRun) : Prop where
  tail : RowTail (bm.Wanted s) (8 * start) (8 * k) (s.high run.startOfRunByte + run.fullBytesFound * 8)
  high_lt : s.high run.startOfRunByte < 8
  index : run.startOfRunIndex * 8 + 8 + (run.fullBytesFound * 8 : ℕ) = (8 * k : ℕ)
  missed : ∀ i, 8 * start ≤ i → i + count ≤ 8 * k → Row (bm.Wanted s) i count →
    i + count = 8 * k ∧ count = 7 + run.fullBytesFound * 8 ∧ s.high run.startOfRunByte = 7

omit hlimit hfit in
theorem openAt_start (hnumber : 0 < count) : OpenAt s bm count start start ⟨0, s.empty, start - 1⟩ where
  tail := by
    rw [high_empty]
    exact rowTail_zero _
  high_lt := by
    rw [high_empty]
    decide
  index := by
    dsimp only
    push_cast
    omega
  missed i ha hb _ := absurd hb (by omega)

omit hlimit hfit in
theorem OpenAt.startingIndex_eq {run : OpenRun} (h : OpenAt s bm count start k run) (hk : 8 * k < 4294967296) :
    run.startingIndex s = 8 * k - (s.high run.startOfRunByte + run.fullBytesFound * 8) := by
  have hindex := h.index
  have hle := h.tail.le
  unfold OpenRun.startingIndex
  push_cast at hindex
  omega

omit hlimit hfit in
/-- **One byte that does not end the search keeps the open run.** -/
theorem OpenAt.next {run : OpenRun} (h : OpenAt s bm count start k run) (hnumber : 15 ≤ count) (hstart : start ≤ k)
    (hnot : ¬((count - 7) / 8 ≤ run.fullBytesFound ∧
      count ≤ s.high run.startOfRunByte + run.fullBytesFound * 8 + s.low (bm.byteAt k))) :
    OpenAt s bm count start (k + 1) (run.next s k (bm.byteAt k)) := by
  have hhead := rowHead_low bm s k
  have hlow := hhead.le
  have hhigh := h.high_lt
  -- a run that ends with this byte wants all of it, and one full byte more than there are
  have hmissed : ∀ i, 8 * start ≤ i → i + count ≤ 8 * k + 8 → Row (bm.Wanted s) i count →
      bm.byteAt k = s.full ∧ i + count = 8 * k + 8 ∧ count = 15 + run.fullBytesFound * 8 ∧ s.high run.startOfRunByte = 7 := by
    intro i ha hb hrow
    rcases Nat.lt_or_ge (8 * k) (i + count) with hover | hbefore
    · have hbefore : 8 * k - i ≤ s.high run.startOfRunByte + run.fullBytesFound * 8 :=
        h.tail.le_of_row ha (by omega) (hrow.mono le_rfl (by omega))
      have hafter : i + count - 8 * k ≤ s.low (bm.byteAt k) := hhead.le_of_row (by omega) (hrow.mono (by omega) (by omega))
      have hfull : bm.byteAt k = s.full := by
        by_contra hne
        have := low_lt_of_ne_full hne
        omega
      exact ⟨hfull, by omega, by omega, by omega⟩
    · obtain ⟨-, hnumber, hhigh⟩ := h.missed i ha hbefore hrow
      exact absurd ⟨by omega, by omega⟩ hnot
  have hindex := h.index
  unfold OpenRun.next
  split_ifs with hfull
  · refine ⟨?_, hhigh, ?_, fun i ha hb hrow => ?_⟩
    · have htail := h.tail.extend (byteAt_eq_full_iff.mp hfull)
      rwa [Nat.add_assoc, ← Nat.succ_mul] at htail
    · dsimp only
      push_cast at hindex ⊢
      omega
    · obtain ⟨-, hend, heq, hseven⟩ := hmissed i ha hb hrow
      exact ⟨hend, by dsimp only; omega, hseven⟩
  · have hhigh := high_lt_of_ne_full hfull
    refine ⟨?_, hhigh, ?_, fun i ha hb hrow => absurd (hmissed i ha hb hrow).1 hfull⟩
    · exact (rowTail_high bm s k).widen (by omega) (by omega)
    · dsimp only
      push_cast
      omega

theorem findMany_spec {run : OpenRun} (hnumber : 15 ≤ count) (hn : k + n = stop) (hend : stop ≤ limit) (hstart : start ≤ k)
    (h : OpenAt s bm count start k run) :
    ∃ r, findMany s bm count n k run = .ok r ∧ Searched (bm.Wanted s) count (8 * start) (8 * stop) r := by
  induction n generalizing k run with
  | zero =>
    refine ⟨none, rfl, searched_none fun i ha hb hrow => ?_⟩
    obtain ⟨hi, heq, -⟩ := h.missed i ha (by omega) hrow
    exact ⟨hnumber, by omega, by omega⟩
  | succ n ih =>
    have hlt := bm.size_lt
    have hlength := bm.length_eq
    have htail := h.tail.le
    have hhead := rowHead_low bm s k
    have hlow := hhead.le
    have hindex := h.startingIndex_eq (by omega)
    rw [findMany, getByte_of_lt (by omega), ok_bind, hindex]
    by_cases hfits : (count - 7) / 8 ≤ run.fullBytesFound ∧
        count ≤ s.high run.startOfRunByte + run.fullBytesFound * 8 + s.low (bm.byteAt k)
    · have hrow := (h.tail.append_head hhead).mono (m := count) le_rfl (by omega)
      rw [if_pos ⟨hfits, size_check hfit hrow (by omega)⟩]
      refine ⟨_, rfl, searched_some (by omega) (by omega) hrow fun _ hseven height hat => ?_⟩
      -- a run at the end would have all its bits before the byte in hand
      have hhigh := h.high_lt
      omega
    · rw [if_neg fun hboth => hfits hboth.1]
      exact ih (by omega) (by omega) (h.next hnumber hstart hfits)

/-- **One time through the main loop.** -/
theorem findIn_spec {endByteIndex : ℕ} (hnumber : 0 < count) (hend : endByteIndex ≤ limit) (hstart : start ≤ endByteIndex) :
    ∃ r, findIn s bm count start endByteIndex = .ok r ∧
      Searched (bm.Wanted s) count (8 * start) (8 * endByteIndex) r := by
  have hnone : ∀ i, 8 * start ≤ i → i + count ≤ 8 * start → ¬Row (bm.Wanted s) i count := fun i ha hb => absurd hb (by omega)
  unfold findIn
  split_ifs with hnine hfifteen
  · exact findFew_spec hlimit hfit hnine (by omega) hend le_rfl (twoBytes_start).previous hnone
  · exact findSome_spec hlimit hfit (by omega) hfifteen (by omega) hend le_rfl twoBytes_start hnone
  · exact findMany_spec hlimit hfit (by omega) (by omega) hend le_rfl (openAt_start hnumber)

end Search

/-! ### Both times -/

variable {bm : RtlBitmap} {s : Sense} {count hintIndex : ℕ}

/-- The run that is missed: one of `8 m + 7` bits, fifteen at least, at the end of a bit map of whole bytes. -/
def AtEnd (bm : RtlBitmap) (count i : ℕ) : Prop :=
  15 ≤ count ∧ count % 8 = 7 ∧ bm.sizeOfBitMap % 8 = 0 ∧ i + count = bm.sizeOfBitMap

/-- What the search returns: a run that is not of the kind that is missed, or nothing if there are only such. -/
def Returned (s : Sense) (bm : RtlBitmap) (count : ℕ) (r : Option ℕ) : Prop :=
  match r with
  | some i => i + count ≤ bm.sizeOfBitMap ∧ Row (bm.Wanted s) i count ∧ ¬AtEnd bm count i
  | none => ∀ i, i + count ≤ bm.sizeOfBitMap → Row (bm.Wanted s) i count → AtEnd bm count i

theorem findBits_spec (hnumber : 0 < count) (h : bm.sizeOfBitMap ≤ 4294967288) :
    ∃ hidden r, findBits s bm count hintIndex = .ok ⟨r.getD 4294967295, hidden⟩ ∧ Returned s bm count r := by
  obtain ⟨hidden, hhide, hhidden⟩ := hideUnusedBits_spec (s := s) h
  have hlength : hidden.buffer.length = bm.buffer.length := by rw [hidden.length_eq, bm.length_eq, hhidden.size_eq]
  have hbytes := sizeInBytes_of_le h
  have hlimit : sizeInBytes bm ≤ 4 * hidden.buffer.length := by
    rw [hlength]
    exact sizeInBytes_le h
  have hfit : ∀ i, Row (hidden.Wanted s) i count → i + count ≤ 8 * sizeInBytes bm → i + count ≤ hidden.sizeOfBitMap := by
    intro i hrow hend
    rw [hhidden.size_eq]
    exact ((hhidden.row_iff hend hnumber).mp hrow).1
  unfold findBits
  rw [hhide, ok_bind]
  dsimp only
  generalize hhint : (if bm.sizeOfBitMap ≤ hintIndex then 0 else hintIndex) / 8 = hintByte
  have hhintByte : hintByte ≤ sizeInBytes bm := by
    rw [← hhint]
    split_ifs <;> omega
  obtain ⟨first, hfirst, hsearched⟩ := findIn_spec hlimit hfit hnumber le_rfl hhintByte
  -- what a search up to a byte finds is returned
  have hfound : ∀ a endByteIndex i, endByteIndex ≤ sizeInBytes bm →
    Searched (hidden.Wanted s) count a (8 * endByteIndex) (some i) →
      Returned s bm count (some i) := by
    intro a endByteIndex i hend hsearched
    obtain ⟨-, hle, hrow⟩ := hsearched.sound i rfl
    obtain ⟨hsize, hrow'⟩ := (hhidden.row_iff (by omega) hnumber).mp hrow
    refine ⟨hsize, hrow', fun ⟨hfifteen, hseven, height, hat⟩ => hsearched.late i rfl hfifteen hseven (by omega) (by omega)⟩
  rw [hfirst, ok_bind]
  cases first with
  | some i => exact ⟨hidden, some i, rfl, hfound _ _ i le_rfl hsearched⟩
  | none =>
    dsimp only
    have hlast := hsearched.complete rfl
    by_cases hzero : hintByte = 0
    · rw [if_neg (not_not.mpr hzero)]
      refine ⟨hidden, none, rfl, fun i hend hrow => ?_⟩
      obtain ⟨hfifteen, hseven, hat⟩ := hlast i (by omega) (by omega) ((hhidden.row_iff (by omega) hnumber).mpr ⟨hend, hrow⟩)
      exact ⟨hfifteen, hseven, by omega, by omega⟩
    · rw [if_pos hzero]
      have hsecond : secondEnd (sizeInBytes bm) hintByte count ≤ sizeInBytes bm := by
        unfold secondEnd
        split_ifs <;> omega
      obtain ⟨second, hsecondEq, hsearched₂⟩ := findIn_spec hlimit hfit hnumber hsecond (Nat.zero_le _)
      rw [hsecondEq, ok_bind]
      cases second with
      | some i => exact ⟨hidden, some i, rfl, hfound _ _ i hsecond hsearched₂⟩
      | none =>
        refine ⟨hidden, none, rfl, fun i hend hrow => ?_⟩
        have hrow' := (hhidden.row_iff (by omega) hnumber).mpr ⟨hend, hrow⟩
        rcases Nat.lt_or_ge i (8 * hintByte) with hi | hi
        · -- a run from before the hint ends before the second end
          have hreach : i + count ≤ 8 * secondEnd (sizeInBytes bm) hintByte count := by
            unfold secondEnd
            split_ifs <;> omega
          obtain ⟨hfifteen, hseven, hat⟩ := hsearched₂.complete rfl i (Nat.zero_le _) hreach hrow'
          have hend₂ : secondEnd (sizeInBytes bm) hintByte count = sizeInBytes bm := by
            unfold secondEnd at hat ⊢
            split_ifs at hat ⊢ <;> omega
          exact ⟨hfifteen, hseven, by omega, by omega⟩
        · obtain ⟨hfifteen, hseven, hat⟩ := hlast i hi (by omega) hrow'
          exact ⟨hfifteen, hseven, by omega, by omega⟩

/-- What the caller is told about the bits. -/
def RightAnswer (s : Sense) (bm : RtlBitmap) (count startingIndex : ℕ) : Prop :=
  (startingIndex ≠ 4294967295 → startingIndex + count ≤ bm.sizeOfBitMap ∧ Row (bm.Wanted s) startingIndex count) ∧
    (startingIndex = 4294967295 → ∀ i, i + count ≤ bm.sizeOfBitMap → ¬Row (bm.Wanted s) i count)

/-- All the runs there are, and there is one, are at the end. -/
def OnlyAtEnd (s : Sense) (bm : RtlBitmap) (count : ℕ) : Prop :=
  (∃ i, i + count ≤ bm.sizeOfBitMap ∧ Row (bm.Wanted s) i count) ∧
    ∀ i, i + count ≤ bm.sizeOfBitMap → Row (bm.Wanted s) i count → AtEnd bm count i

theorem findBits_exact_iff (hnumber : 0 < count) :
    (∃ found, findBits s bm count hintIndex = .ok found ∧ RightAnswer s bm count found.startingIndex) ↔
      bm.sizeOfBitMap ≤ 4294967288 ∧ ¬OnlyAtEnd s bm count := by
  by_cases hsize : bm.sizeOfBitMap ≤ 4294967288
  · obtain ⟨hidden, r, heq, hreturned⟩ := findBits_spec (s := s) hnumber hsize
    rw [and_iff_right hsize]
    have hiff : (∃ found, findBits s bm count hintIndex = .ok found ∧ RightAnswer s bm count found.startingIndex) ↔
        RightAnswer s bm count (r.getD 4294967295) := by
      rw [heq]
      constructor
      · rintro ⟨found, hok, hright⟩
        cases hok
        exact hright
      · exact fun hright => ⟨_, rfl, hright⟩
    rw [hiff]
    cases r with
    | some i =>
      obtain ⟨hend, hrow, hnot⟩ := hreturned
      exact iff_of_true ⟨fun _ => ⟨hend, hrow⟩, fun h => absurd h (by dsimp only [Option.getD_some]; omega)⟩
        fun honly => hnot (honly.2 i hend hrow)
    | none =>
      constructor
      · rintro ⟨-, hnone⟩ ⟨⟨i, hend, hrow⟩, -⟩
        exact hnone rfl i hend hrow
      · intro honly
        exact ⟨fun h => absurd rfl h, fun _ i hend hrow => honly ⟨⟨i, hend, hrow⟩, hreturned⟩⟩
  · refine iff_of_false ?_ fun h => hsize h.1
    rintro ⟨found, heq, -⟩
    rw [findBits, hideUnusedBits_of_gt (by omega)] at heq
    cases heq

/-- **Finding bits in a row.** Both searches are right exactly if the size is not one of the seven largest and the runs of
the number of bits, if there are any, are not all at the end of the bit map, in whole bytes and with a number of the form `8
m + 7` from fifteen on. -/
theorem findBits_rows_exact_iff (bm : RtlBitmap) (hintIndex : ℕ) (hnumber : 1 ≤ count) :
    ((∃ found, rtlFindClearBits bm count hintIndex = .ok found ∧ RightAnswer .clear bm count found.startingIndex) ↔
        bm.sizeOfBitMap ≤ 4294967288 ∧ ¬OnlyAtEnd .clear bm count) ∧
      ((∃ found, rtlFindSetBits bm count hintIndex = .ok found ∧ RightAnswer .set bm count found.startingIndex) ↔
        bm.sizeOfBitMap ≤ 4294967288 ∧ ¬OnlyAtEnd .set bm count) :=
  ⟨findBits_exact_iff hnumber, findBits_exact_iff hnumber⟩

/-- Sixteen bits, of which only the first is set. -/
def afterFirst : RtlBitmap := ⟨16, [0xffff0001], by decide, by decide⟩

/-- Fourteen clear bits are found. -/
theorem findBits_rows_exact_afterFirst :
    ∃ found, rtlFindClearBits afterFirst 14 0 = .ok found ∧ RightAnswer .clear afterFirst 14 found.startingIndex := by
  refine (findBits_rows_exact_iff afterFirst 0 (by decide)).1.mpr ⟨by decide, fun honly => ?_⟩
  have hrow : Row (afterFirst.Wanted .clear) 1 14 := by
    have hbits : ∀ j < 15, 1 ≤ j → afterFirst.bit j = false := by decide
    exact fun j hj hlt => hbits j (by omega) hj
  exact absurd (honly.2 1 (by decide) hrow).1 (by decide)

/-- Fifteen clear bits are not, although bits 1 to 15 are clear. -/
theorem findBits_misses_end : (rtlFindClearBits afterFirst 15 0).toOption.map FoundBits.startingIndex = some 4294967295 ∧
    ∀ j < 16, 1 ≤ j → afterFirst.bit j = false := by
  decide +kernel

end Nt365.Rtl.BitMap
