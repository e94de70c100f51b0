import Nt365.Rtl.BitMap
import Nt365.Library.Loop

/-!
# The longest run

`RtlFindLongestRunClear` and `RtlFindLongestRunSet` (`RTL/BITMAP.C`) go once through the bytes of a bit map. They carry the
longest run so far and the run that is open at the end of the byte in hand: `Scanned` says that every run so far is at most
the longer of the two, and each byte keeps it (`scanned_step`).
-/

namespace Nt365.Rtl.BitMap

open Nt365.Library

/-- The runs of the scan. -/
structure RunScan where
  longestRunSize : ℕ
  longestRunIndex : ℕ
  currentRunSize : ℕ
  currentRunIndex : ℕ

/-- The longest run is superseded by the current one, if that is longer. -/
def RunScan.supersede (scan : RunScan) : RunScan :=
  if scan.longestRunSize < scan.currentRunSize then
    { scan with longestRunSize := scan.currentRunSize, longestRunIndex := scan.currentRunIndex }
  else scan

/-- "The next run starts with the remaining clear bits in the current byte." -/
def RunScan.startNext (scan : RunScan) (s : Sense) (currentByteIndex : ℕ) (currentByte : UCHAR) : RunScan :=
  { scan with
    currentRunSize := s.high currentByte
    currentRunIndex := currentByteIndex * 8 + (8 - s.high currentByte) }

/-- "Check if the current byte contains a run inside of it." -/
def RunScan.lookInside (scan : RunScan) (s : Sense) (currentByteIndex : ℕ) (currentByte : UCHAR) : RunScan :=
  let temp := s.anywhere currentByte
  if scan.longestRunSize < 8 ∧ scan.currentRunSize < 8 ∧ scan.longestRunSize < temp ∧ scan.currentRunSize < temp then
    { scan with longestRunIndex := currentByteIndex * 8 + shiftToFit s currentByte 9 (fillMask temp), longestRunSize := temp }
  else scan

/-- One byte of the scan. -/
def RunScan.step (scan : RunScan) (s : Sense) (currentByteIndex : ℕ) (currentByte : UCHAR) : RunScan :=
  if currentByte ≠ s.full then
    let scan := { scan with currentRunSize := scan.currentRunSize + s.low currentByte }
    (scan.supersede.startNext s currentByteIndex currentByte).lookInside s currentByteIndex currentByte
  else { scan with currentRunSize := scan.currentRunSize + 8 }

/-- The scan of `n` bytes from `currentByteIndex` on. -/
def scanBytes (s : Sense) (bm : RtlBitmap) : ℕ → ℕ → RunScan → Except Fault RunScan
  | 0, _, scan => .ok scan
  | n + 1, currentByteIndex, scan => do
    let currentByte ← bm.getByte currentByteIndex
    scanBytes s bm n (currentByteIndex + 1) (scan.step s currentByteIndex currentByte)

/-- What is returned, with the bit map that is left. -/
structure LongestRun where
  size : ℕ
  startingIndex : ℕ
  bitMap : RtlBitmap

/-- `RtlFindLongestRunClear` and `RtlFindLongestRunSet`. -/
def findLongestRun (s : Sense) (bm : RtlBitmap) : Except Fault LongestRun := do
  let hidden ← hideUnusedBits s bm
  let scan ← scanBytes s hidden (sizeInBytes bm) 0 ⟨0, 0, 0, 0⟩
  .ok ⟨scan.supersede.longestRunSize, scan.supersede.longestRunIndex, hidden⟩

def rtlFindLongestRunClear (bm : RtlBitmap) : Except Fault LongestRun := findLongestRun .clear bm

def rtlFindLongestRunSet (bm : RtlBitmap) : Except Fault LongestRun := findLongestRun .set bm

variable {bm : RtlBitmap} {s : Sense} {scan : RunScan} {p : ℕ → Prop} {c k n : ℕ}

/-! ### The scan -/

/-- The longest run so far, given a bound on the runs other than it. -/
structure Found (p : ℕ → Prop) (c : ℕ) (scan : RunScan) : Prop where
  le : scan.longestRunIndex + scan.longestRunSize ≤ c
  row : Row p scan.longestRunIndex scan.longestRunSize

/-- The scan up to `c`: the current run ends there, and no run so far is longer than both. -/
structure Scanned (p : ℕ → Prop) (c : ℕ) (scan : RunScan) : Prop extends Found p c scan where
  current : scan.currentRunIndex + scan.currentRunSize = c
  tail : RowTail p 0 c scan.currentRunSize
  bound : ∀ i m, i + m ≤ c → Row p i m → m ≤ scan.longestRunSize ∨ m ≤ scan.currentRunSize

theorem scanned_start : Scanned p 0 ⟨0, 0, 0, 0⟩ where
  le := le_rfl
  row := row_zero
  current := rfl
  tail := rowTail_zero 0
  bound i m hle _ := .inl (by omega)

/-- The current run with the low bits of the next byte, if it is longer, supersedes the longest one. -/
theorem found_supersede (h : Scanned p c scan) {m : ℕ} (hrow : Row p c m) :
    Found p (c + m) (RunScan.supersede { scan with currentRunSize := scan.currentRunSize + m }) := by
  have hcurrent := h.current
  have hle := h.le
  unfold RunScan.supersede
  dsimp only
  split_ifs
  · refine ⟨by dsimp only; omega, ?_⟩
    have hboth := (h.tail.extend hrow).row
    rwa [show c + m - (scan.currentRunSize + m) = scan.currentRunIndex by omega] at hboth
  · exact ⟨by dsimp only; omega, h.row⟩

variable (scan) in
theorem le_supersede :
    scan.longestRunSize ≤ scan.supersede.longestRunSize ∧ scan.currentRunSize ≤ scan.supersede.longestRunSize := by
  unfold RunScan.supersede
  split_ifs with hlt
  · exact ⟨hlt.le, le_rfl⟩
  · exact ⟨le_rfl, Nat.le_of_not_lt hlt⟩

/-- A run that ends in the byte in hand is in the byte, or goes on from the current run. -/
theorem Scanned.run_cases (h : Scanned (bm.Wanted s) (8 * k) scan) {i m : ℕ} (hend : i + m ≤ 8 * k + 8)
    (hrow : Row (bm.Wanted s) i m) :
    m ≤ scan.longestRunSize ∨ m ≤ scan.currentRunSize + s.low (bm.byteAt k) ∨ m ≤ s.anywhere (bm.byteAt k) := by
  rcases Nat.lt_or_ge (8 * k) (i + m) with hover | hbefore
  · rcases Nat.lt_or_ge i (8 * k) with hi | hi
    · exact .inr (.inl (hrow.le_tail_add_head h.tail (rowHead_low bm s k) (Nat.zero_le i) hi.le hover.le hend))
    · exact .inr (.inr ((longestRow_anywhere bm s k).bound i m hi hend hrow))
  · exact (h.bound i m hbefore hrow).imp_right fun hle => .inl (by omega)

variable (bm) in
/-- Afterwards no run in the byte is longer than both. -/
theorem le_lookInside (hcurrent : scan.currentRunSize < 8) :
    scan.longestRunSize ≤ (scan.lookInside s k (bm.byteAt k)).longestRunSize ∧
      (s.anywhere (bm.byteAt k) ≤ (scan.lookInside s k (bm.byteAt k)).longestRunSize ∨
        s.anywhere (bm.byteAt k) ≤ scan.currentRunSize) := by
  obtain ⟨i, hi, hend, -⟩ := (longestRow_anywhere bm s k).attained
  unfold RunScan.lookInside
  dsimp only
  split_ifs with hlonger
  · exact ⟨hlonger.2.2.1.le, .inl le_rfl⟩
  · exact ⟨le_rfl, by omega⟩

variable (bm scan) in
theorem lookInside_current : (scan.lookInside s k (bm.byteAt k)).currentRunSize = scan.currentRunSize ∧
    (scan.lookInside s k (bm.byteAt k)).currentRunIndex = scan.currentRunIndex := by
  unfold RunScan.lookInside
  dsimp only
  split_ifs <;> exact ⟨rfl, rfl⟩

theorem Found.lookInside (h : Found (bm.Wanted s) (8 * k + 8) scan) :
    Found (bm.Wanted s) (8 * k + 8) (scan.lookInside s k (bm.byteAt k)) := by
  unfold RunScan.lookInside
  dsimp only
  split_ifs
  · obtain ⟨hle, hrow⟩ := row_shiftToFit (s := s) (k := k) le_rfl
    rw [Nat.mul_comm k 8]
    exact ⟨by dsimp only; omega, hrow⟩
  · exact h

/-- **One byte keeps the scan.** -/
theorem scanned_step (h : Scanned (bm.Wanted s) (8 * k) scan) :
    Scanned (bm.Wanted s) (8 * k + 8) (scan.step s k (bm.byteAt k)) := by
  unfold RunScan.step
  have hlow := (rowHead_low bm s k).le
  have hanywhere := (longestRow_anywhere bm s k).attained
  by_cases hfull : bm.byteAt k ≠ s.full
  · rw [if_pos hfull]
    dsimp only
    have hhigh := high_lt_of_ne_full hfull
    have hfound := found_supersede h (rowHead_low bm s k).row
    have hlonger := le_supersede { scan with currentRunSize := scan.currentRunSize + s.low (bm.byteAt k) }
    generalize RunScan.supersede { scan with currentRunSize := scan.currentRunSize + s.low (bm.byteAt k) } =
      super at hfound hlonger ⊢
    obtain ⟨hsize, hindex⟩ := lookInside_current bm (super.startNext s k (bm.byteAt k)) (s := s) (k := k)
    obtain ⟨hkeep, hinside⟩ := le_lookInside bm (s := s) (k := k)
      (show (super.startNext s k (bm.byteAt k)).currentRunSize < 8 from hhigh)
    have hnext : Found (bm.Wanted s) (8 * k + 8) (super.startNext s k (bm.byteAt k)) := ⟨hfound.le.trans hlow, hfound.row⟩
    refine ⟨hnext.lookInside, ?_, ?_, fun i m hend hrow => ?_⟩
    · rw [hsize, hindex]
      dsimp only [RunScan.startNext]
      omega
    · rw [hsize]
      exact (rowTail_high bm s k).widen (by omega) (Nat.zero_le _)
    · rw [hsize]
      dsimp only [RunScan.startNext] at hkeep hinside hlonger ⊢
      rcases h.run_cases hend hrow with hle | hle | hle
      · exact .inl (by omega)
      · exact .inl (by omega)
      · omega
  · rw [if_neg hfull]
    have hcurrent := h.current
    have hrow := byteAt_eq_full_iff.mp (not_not.mp hfull)
    refine ⟨⟨?_, h.row⟩, ?_, h.tail.extend hrow, fun i m hend hrow => ?_⟩
    · exact h.le.trans (Nat.le_add_right _ _)
    · dsimp only
      omega
    · obtain ⟨j, hj, hj', -⟩ := hanywhere
      rcases h.run_cases hend hrow with hle | hle | hle
      · exact .inl hle
      · exact .inr (by dsimp only; omega)
      · exact .inr (by dsimp only; omega)

theorem scanBytes_spec (hend : k + n ≤ 4 * bm.buffer.length) (h : Scanned (bm.Wanted s) (8 * k) scan) :
    ∃ scan', scanBytes s bm n k scan = .ok scan' ∧ Scanned (bm.Wanted s) (8 * (k + n)) scan' := by
  induction n generalizing k scan with
  | zero => exact ⟨scan, rfl, h⟩
  | succ n ih =>
    obtain ⟨scan', heq, hscanned⟩ := ih (k := k + 1) (by omega) (scanned_step h)
    refine ⟨scan', ?_, ?_⟩
    · rw [scanBytes, getByte_of_lt (by omega), ok_bind]
      exact heq
    · rwa [Nat.add_assoc, Nat.add_comm 1] at hscanned

/-! ### The result -/

/-- What the caller is told: the length of the longest run, and where there is one. -/
structure Longest (s : Sense) (bm : RtlBitmap) (run : LongestRun) : Prop where
  longest : LongestRow (bm.Wanted s) 0 bm.sizeOfBitMap run.size
  row : run.size ≠ 0 → run.startingIndex + run.size ≤ bm.sizeOfBitMap ∧ Row (bm.Wanted s) run.startingIndex run.size

theorem findLongestRun_spec (h : bm.sizeOfBitMap ≤ 4294967288) : ∃ run, findLongestRun s bm = .ok run ∧ Longest s bm run := by
  obtain ⟨hidden, heq, hhidden⟩ := hideUnusedBits_spec (s := s) h
  have hlength : hidden.buffer.length = bm.buffer.length := by rw [hidden.length_eq, bm.length_eq, hhidden.size_eq]
  have hbytes := sizeInBytes_of_le h
  obtain ⟨scan, hscan, hscanned⟩ :=
    scanBytes_spec (s := s) (k := 0) (n := sizeInBytes bm) (by rw [hlength, Nat.zero_add]; exact sizeInBytes_le h)
      scanned_start
  rw [Nat.zero_add] at hscanned
  refine ⟨_, by rw [findLongestRun, heq, ok_bind, hscan, ok_bind], ?_⟩
  have hfound := found_supersede hscanned row_zero
  have hlonger := le_supersede scan
  -- a run of the bit map is one that the scan saw, and the other way round
  have hseen : ∀ i m, i + m ≤ bm.sizeOfBitMap → Row (bm.Wanted s) i m → m ≤ scan.supersede.longestRunSize := by
    intro i m hend hrow
    rcases Nat.eq_zero_or_pos m with rfl | hpos
    · exact Nat.zero_le _
    · rcases hscanned.bound i m (by omega) ((hhidden.row_iff (by omega) hpos).mpr ⟨hend, hrow⟩) with hle | hle
      · exact hle.trans hlonger.1
      · exact hle.trans hlonger.2
  have hrow : scan.supersede.longestRunSize ≠ 0 →
      scan.supersede.longestRunIndex + scan.supersede.longestRunSize ≤ bm.sizeOfBitMap ∧
        Row (bm.Wanted s) scan.supersede.longestRunIndex scan.supersede.longestRunSize := fun hne =>
    (hhidden.row_iff hfound.le (Nat.pos_of_ne_zero hne)).mp hfound.row
  refine ⟨⟨?_, fun i m _ hend hrow => hseen i m hend hrow⟩, hrow⟩
  by_cases hzero : scan.supersede.longestRunSize = 0
  · refine ⟨0, le_rfl, ?_, ?_⟩
    · dsimp only
      omega
    · dsimp only
      rw [hzero]
      exact row_zero
  · exact ⟨_, Nat.zero_le _, hrow hzero⟩

theorem findLongestRun_exact_iff : (∃ run, findLongestRun s bm = .ok run ∧ Longest s bm run) ↔ bm.sizeOfBitMap ≤ 4294967288 := by
  refine ⟨fun h => ?_, findLongestRun_spec⟩
  by_contra hgt
  obtain ⟨run, heq, -⟩ := h
  rw [findLongestRun, hideUnusedBits_of_gt (by omega)] at heq
  cases heq

/-- **The longest run.** Both routines find it exactly if the size is not one of the seven largest, for which `SizeInBytes`
wraps to zero and the byte before the buffer is written. -/
theorem longestRun_exact_iff (bm : RtlBitmap) :
    ((∃ run, rtlFindLongestRunClear bm = .ok run ∧ Longest .clear bm run) ↔ bm.sizeOfBitMap ≤ 4294967288) ∧
      ((∃ run, rtlFindLongestRunSet bm = .ok run ∧ Longest .set bm run) ↔ bm.sizeOfBitMap ≤ 4294967288) :=
  ⟨findLongestRun_exact_iff, findLongestRun_exact_iff⟩

/-- A bit map of `0xfffffff9` clear bits. -/
def hugeBitMap : RtlBitmap := ⟨4294967289, List.replicate 134217728 0, by decide, by rw [List.length_replicate]⟩

/-- `Buffer[SizeInBytes - 1]` is not in the buffer of the huge bit map. -/
theorem longestRun_huge :
    rtlFindLongestRunClear hugeBitMap = .error .outside ∧ rtlFindLongestRunSet hugeBitMap = .error .outside := by
  have hsize : 4294967288 < hugeBitMap.sizeOfBitMap := by decide
  constructor
  · rw [rtlFindLongestRunClear, findLongestRun, hideUnusedBits_of_gt hsize]
    rfl
  · rw [rtlFindLongestRunSet, findLongestRun, hideUnusedBits_of_gt hsize]
    rfl

example : (rtlFindLongestRunClear ⟨20, [0x000c0811], by decide, by decide⟩).toOption.map
    (fun run => (run.size, run.startingIndex)) = some (6, 5) := by
  decide +kernel

end Nt365.Rtl.BitMap
