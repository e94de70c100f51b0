import Nt365.Library.ListAt
import Nt365.Library.RunMap
import Nt365.Library.Word

/-!
# Large map control blocks

A map control block (MCB) keeps the retrieval mapping of a file in memory: which
logical block of the disk (LBN) holds each virtual block of the file (VBN). It is an
array of pairs. "The pairs from 0 to PairCount - 1 are valid": pair `i` describes the
VBNs from `NextVbn[i-1]` (from `0` if `i` is `0`) up to `NextVbn[i] - 1`, which map to
consecutive LBNs from `Lbn[i]` on, or to nothing if `Lbn[i]` is `UNUSED_LBN`.

This module is the code of `LARGEMCB.C`: the macros that read a run, the binary
search, the two routines that make and close room in the array, and the public
routines that add, remove, truncate and split.

## The model

The array is the list of the valid pairs, so `PairCount` is its length; what the
buffer holds past `PairCount` is never read. `FsRtlAddLargeEntry` opens slots that its
caller writes before anything reads them; they are opened as `⟨0, 0⟩`. Pool
allocations succeed (the code raises a status otherwise, and does not return), and
the fast mutex makes each routine one step. `ULONG` arithmetic wraps.
-/

namespace Nt365.FsRtl

open Nt365.Library

namespace LargeMcb

/-- `UNUSED_LBN`, `-1` as a `ULONG`: the LBN of a hole. -/
def unusedLbn : ℕ := 0xffffffff

/-- `INITIAL_MAXIMUM_PAIR_COUNT`. -/
def initialMaximumPairCount : ℕ := 15

/-- `MAPPING`: a pair of the array. -/
structure Mapping where
  /-- The first VBN after the run. -/
  nextVbn : ℕ
  /-- The LBN of the run's first VBN, or `UNUSED_LBN`. -/
  lbn : ℕ
  deriving DecidableEq, Repr

/-- `NONOPAQUE_MCB`: how many pairs the buffer has room for, and the valid pairs. -/
structure Mcb where
  /-- `MaximumPairCount`. -/
  maximumPairCount : ℕ
  /-- The pairs from `0` to `PairCount - 1`. -/
  mapping : List Mapping
  deriving DecidableEq, Repr

namespace Mcb

/-- `PairCount`. -/
def pairCount (mcb : Mcb) : ℕ := mcb.mapping.length

/-- `Mapping[i]`. -/
def pair (mcb : Mcb) (i : ℕ) : Mapping := mcb.mapping.getD i ⟨0, 0⟩

/-! ### The parts of a run -/

/-- `StartingVbn(MCB, I)`. -/
def startingVbn (mcb : Mcb) (i : ℕ) : ℕ := if i = 0 then 0 else (mcb.pair (i - 1)).nextVbn

/-- `EndingVbn(MCB, I)`. -/
def endingVbn (mcb : Mcb) (i : ℕ) : ℕ := sub32 (mcb.pair i).nextVbn 1

/-- `PreviousEndingVbn(MCB, I)`. -/
def previousEndingVbn (mcb : Mcb) (i : ℕ) : ℕ := if i = 0 then 0xffffffff else mcb.endingVbn (i - 1)

/-- `NextStartingVbn(MCB, I)`. -/
def nextStartingVbn (mcb : Mcb) (i : ℕ) : ℕ := if mcb.pairCount ≤ i then 0 else mcb.startingVbn (i + 1)

/-- `StartingLbn(MCB, I)`. -/
def startingLbn (mcb : Mcb) (i : ℕ) : ℕ := (mcb.pair i).lbn

/-- `EndingLbn(MCB, I)`. -/
def endingLbn (mcb : Mcb) (i : ℕ) : ℕ :=
  if mcb.startingLbn i = unusedLbn then unusedLbn
  else sub32 (sub32 (add32 (mcb.pair i).lbn (mcb.pair i).nextVbn) (mcb.startingVbn i)) 1

/-- `PreviousEndingLbn(MCB, I)`. -/
def previousEndingLbn (mcb : Mcb) (i : ℕ) : ℕ := if i = 0 then unusedLbn else mcb.endingLbn (i - 1)

/-- `NextStartingLbn(MCB, I)`. -/
def nextStartingLbn (mcb : Mcb) (i : ℕ) : ℕ :=
  if sub32 mcb.pairCount 1 ≤ i then unusedLbn else mcb.startingLbn (i + 1)

/-- `SectorsWithinRun(MCB, I)`. -/
def sectorsWithinRun (mcb : Mcb) (i : ℕ) : ℕ := add32 (sub32 (mcb.endingVbn i) (mcb.startingVbn i)) 1

/-- `Mapping[i].Lbn = lbn`. -/
def setLbn (mcb : Mcb) (i lbn : ℕ) : Mcb := { mcb with mapping := mcb.mapping.modify i ({ · with lbn := lbn }) }

/-- `Mapping[i].NextVbn = nextVbn`. -/
def setNextVbn (mcb : Mcb) (i nextVbn : ℕ) : Mcb :=
  { mcb with mapping := mcb.mapping.modify i ({ · with nextVbn := nextVbn }) }

/-- `Mapping[i].Lbn = lbn; Mapping[i].NextVbn = nextVbn`. -/
def setPair (mcb : Mcb) (i lbn nextVbn : ℕ) : Mcb := (mcb.setLbn i lbn).setNextVbn i nextVbn

end Mcb

/-! ### Private routines -/

/-- The loop of `FsRtlFindLargeIndex`; the indices are `LONG`s. -/
def findLargeIndexLoop (mcb : Mcb) (vbn : ℕ) (minIndex maxIndex : ℤ) : Option ℕ :=
  if minIndex ≤ maxIndex then
    let midIndex := (maxIndex + minIndex) / 2
    if vbn < mcb.startingVbn midIndex.toNat then findLargeIndexLoop mcb vbn minIndex (midIndex - 1)
    else if vbn > mcb.endingVbn midIndex.toNat then findLargeIndexLoop mcb vbn (midIndex + 1) maxIndex
    else some midIndex.toNat
  else none
termination_by (maxIndex + 1 - minIndex).toNat

variable (mcb : Mcb)

/-- `FsRtlFindLargeIndex`: the index of the run that contains `vbn`. On `none` the code
returns `FALSE` and leaves `PairCount` in `Index`. -/
def fsRtlFindLargeIndex (vbn : ℕ) : Option ℕ :=
  findLargeIndexLoop mcb vbn 0 ((mcb.pairCount : ℤ) - 1)

/-- How many pairs the buffer is to have room for, when `needed` are needed: "we won't
double without bounds we'll stop doubling if the pair count gets too high". -/
def newMaximumPairCount (maximum needed : ℕ) : ℕ :=
  if maximum < needed then if maximum < 2048 then maximum * 2 else maximum + 2048 else maximum

/-- `FsRtlAddLargeEntry`: make room for `amountToAdd` pairs at `whereToAddIndex`, in a
larger buffer if need be. -/
def fsRtlAddLargeEntry (whereToAddIndex amountToAdd : ℕ) : Mcb where
  maximumPairCount := newMaximumPairCount mcb.maximumPairCount (mcb.pairCount + amountToAdd)
  mapping := mcb.mapping.take whereToAddIndex ++ List.replicate amountToAdd ⟨0, 0⟩ ++ mcb.mapping.drop whereToAddIndex

/-- `FsRtlRemoveLargeEntry`: close up `amountToRemove` pairs from `whereToRemoveIndex` on. -/
def fsRtlRemoveLargeEntry (whereToRemoveIndex amountToRemove : ℕ) : Mcb :=
  { mcb with mapping := mcb.mapping.take whereToRemoveIndex ++ mcb.mapping.drop (whereToRemoveIndex + amountToRemove) }

/-! ### Adding -/

/-- The first part of `FsRtlAddLargeMcbEntry`: trim the request to what does not overlap
the run it starts in, or else the run its hole is followed by. `none` if the request is
contained in an existing run, when there is nothing to do. -/
def trimRequest (vbn lbn sectorCount : ℕ) : Option (ℕ × ℕ × ℕ) :=
  match fsRtlFindLargeIndex mcb vbn with
  | none => some (vbn, lbn, sectorCount)
  | some index =>
    let endVbn := sub32 (add32 vbn sectorCount) 1
    if mcb.startingLbn index ≠ unusedLbn then
      if endVbn ≤ mcb.endingVbn index then none
      else
        let vbn := mcb.nextStartingVbn index
        some (vbn, add32 (mcb.endingLbn index) 1, add32 (sub32 endVbn vbn) 1)
    else
      match fsRtlFindLargeIndex mcb endVbn with
      | none => some (vbn, lbn, sectorCount)
      | some endIndex =>
        -- `Index == EndIndex - 1`; both are indices of the array
        if index + 1 = endIndex then some (vbn, lbn, sub32 (mcb.startingVbn endIndex) vbn)
        else some (vbn, lbn, sectorCount)

/-- The second part: the run goes at the end of the mapping, `index` being `PairCount`. -/
def appendRun (vbn lbn sectorCount : ℕ) : Mcb :=
  let index := mcb.pairCount
  if index ≠ 0 ∧ add32 (mcb.previousEndingVbn index) 1 = vbn ∧ add32 (mcb.previousEndingLbn index) 1 = lbn then
    -- `--LastRun--|---NewRun--|`
    mcb.setNextVbn (index - 1) (add32 (mcb.pair (index - 1)).nextVbn sectorCount)
  else if vbn = 0 ∨ add32 (mcb.previousEndingVbn index) 1 = vbn then
    -- `--LastRun--||---NewRun--|` or `0:|--NewRun--|`
    (fsRtlAddLargeEntry mcb index 1).setPair index lbn (add32 vbn sectorCount)
  else
    -- `--LastRun--|   hole   |---NewRun--|` or `0:  hole  |--NewRun--|`
    ((fsRtlAddLargeEntry mcb index 2).setPair index unusedLbn vbn).setPair (index + 1) lbn (add32 vbn sectorCount)

/-- The third part: the run goes into the hole at `index`, if that is a hole and the run
fits in it; otherwise the request overwrites an existing mapping. -/
def fillHole (index vbn lbn sectorCount : ℕ) : Bool × Mcb :=
  let lastVbn := sub32 (add32 vbn sectorCount) 1
  if mcb.startingLbn index = unusedLbn ∧ mcb.startingVbn index ≤ vbn ∧ lastVbn ≤ mcb.endingVbn index then
    if mcb.startingVbn index < vbn ∧ lastVbn < mcb.endingVbn index then
      -- hole at both ends
      (true, ((fsRtlAddLargeEntry mcb index 2).setPair index unusedLbn vbn).setPair (index + 1) lbn (add32 vbn sectorCount))
    else if mcb.startingVbn index = vbn ∧ lastVbn < mcb.endingVbn index then
      if add32 (mcb.previousEndingLbn index) 1 = lbn then
        -- hole at rear and continue
        (true, mcb.setNextVbn (index - 1) (add32 (mcb.pair (index - 1)).nextVbn sectorCount))
      else
        -- hole at rear and not continue
        (true, (fsRtlAddLargeEntry mcb index 1).setPair index lbn (add32 vbn sectorCount))
    else if mcb.startingVbn index < vbn ∧ lastVbn = mcb.endingVbn index then
      if mcb.nextStartingLbn index = add32 lbn sectorCount then
        -- hole at front and continue
        (true, (mcb.setNextVbn index vbn).setLbn (index + 1) lbn)
      else
        -- hole at front and not continue
        (true, ((fsRtlAddLargeEntry mcb index 1).setPair index unusedLbn vbn).setLbn (index + 1) lbn)
    else if add32 (mcb.previousEndingLbn index) 1 = lbn ∧ mcb.nextStartingLbn index = add32 lbn sectorCount then
      -- no holes, and continues both runs
      (true, fsRtlRemoveLargeEntry (mcb.setNextVbn (index - 1) (mcb.pair (index + 1)).nextVbn) index 2)
    else if mcb.nextStartingLbn index = add32 lbn sectorCount then
      -- no holes, and continues following
      (true, fsRtlRemoveLargeEntry (mcb.setLbn (index + 1) lbn) index 1)
    else if add32 (mcb.previousEndingLbn index) 1 = lbn then
      -- no holes, and continues earlier
      (true, fsRtlRemoveLargeEntry (mcb.setNextVbn (index - 1) (mcb.pair index).nextVbn) index 1)
    else
      -- no holes, and continues none
      (true, mcb.setLbn index lbn)
  else (false, mcb)

/-- `FsRtlAddLargeMcbEntry`. -/
def fsRtlAddLargeMcbEntry (largeVbn largeLbn largeSectorCount : ℕ) : Bool × Mcb :=
  match trimRequest mcb (u32 largeVbn) (u32 largeLbn) (u32 largeSectorCount) with
  | none => (true, mcb)
  | some (vbn, lbn, sectorCount) =>
    if mcb.pairCount = 0 ∨ add32 (mcb.previousEndingVbn mcb.pairCount) 1 ≤ vbn then
      (true, appendRun mcb vbn lbn sectorCount)
    else
      match fsRtlFindLargeIndex mcb vbn with
      | none => (true, appendRun mcb vbn lbn sectorCount)
      | some index => fillHole mcb index vbn lbn sectorCount

/-! ### Removing -/

/-- Whether the run before `index` is a real run, or there is none. -/
def previousNotHole (index : ℕ) : Prop := mcb.previousEndingLbn index ≠ unusedLbn ∨ index = 0

instance (mcb : Mcb) (index : ℕ) : Decidable (previousNotHole mcb index) := inferInstanceAs (Decidable (_ ∨ _))

/-- The branch "Removes the entire run" of `FsRtlRemoveMcbEntryPrivate`. -/
def removeEntireRun (index : ℕ) : Mcb :=
  if mcb.startingLbn index = unusedLbn then mcb
  else if index = sub32 mcb.pairCount 1 then
    if previousNotHole mcb index then fsRtlRemoveLargeEntry mcb index 1
    else fsRtlRemoveLargeEntry mcb (index - 1) 2
  else if previousNotHole mcb index ∧ mcb.nextStartingLbn index ≠ unusedLbn then mcb.setLbn index unusedLbn
  else if previousNotHole mcb index ∧ mcb.nextStartingLbn index = unusedLbn then fsRtlRemoveLargeEntry mcb index 1
  else if mcb.previousEndingLbn index = unusedLbn ∧ mcb.nextStartingLbn index ≠ unusedLbn then
    fsRtlRemoveLargeEntry (mcb.setLbn index unusedLbn) (index - 1) 1
  else fsRtlRemoveLargeEntry mcb (index - 1) 2

/-- The branch "Removes first part of run". -/
def removeFirstPart (index vbn sectorCount : ℕ) : Mcb :=
  if mcb.startingLbn index = unusedLbn then mcb
  else if previousNotHole mcb index then
    let mcb := (fsRtlAddLargeEntry mcb index 1).setPair index unusedLbn (add32 vbn sectorCount)
    mcb.setLbn (index + 1) (add32 (mcb.pair (index + 1)).lbn sectorCount)
  else
    let mcb := mcb.setNextVbn (index - 1) (add32 (mcb.pair (index - 1)).nextVbn sectorCount)
    mcb.setLbn index (add32 (mcb.pair index).lbn sectorCount)

/-- The branch "Removes last part of run". -/
def removeLastPart (index amountToRemove : ℕ) : Mcb :=
  if mcb.startingLbn index = unusedLbn then mcb
  else if index = sub32 mcb.pairCount 1 then mcb.setNextVbn index (sub32 (mcb.pair index).nextVbn amountToRemove)
  else if mcb.nextStartingLbn index = unusedLbn then mcb.setNextVbn index (sub32 (mcb.pair index).nextVbn amountToRemove)
  else
    let mcb := fsRtlAddLargeEntry mcb (index + 1) 1
    let mcb := mcb.setPair (index + 1) unusedLbn (mcb.pair index).nextVbn
    mcb.setNextVbn index (sub32 (mcb.pair index).nextVbn amountToRemove)

/-- The branch "Remove middle of run". -/
def removeMiddle (index vbn sectorCount : ℕ) : Mcb :=
  if mcb.startingLbn index = unusedLbn then mcb
  else
    let mcb := fsRtlAddLargeEntry mcb index 2
    let mcb := mcb.setPair index (mcb.pair (index + 2)).lbn vbn
    let mcb := mcb.setPair (index + 1) unusedLbn (add32 vbn sectorCount)
    mcb.setLbn (index + 2)
      (add32 (mcb.pair (index + 2)).lbn (add32 (mcb.sectorsWithinRun index) (mcb.sectorsWithinRun (index + 1))))

/-- One iteration of the loop of `FsRtlRemoveMcbEntryPrivate`, at the run found: the
mapping after it, and the `Vbn` and `SectorCount` still to remove. -/
def removeStep (index vbn sectorCount : ℕ) : Mcb × ℕ × ℕ :=
  if mcb.startingVbn index = vbn ∧ mcb.endingVbn index < add32 vbn sectorCount then
    let i := mcb.sectorsWithinRun index
    (removeEntireRun mcb index, add32 vbn i, sub32 sectorCount i)
  else if mcb.startingVbn index = vbn then (removeFirstPart mcb index vbn sectorCount, add32 vbn sectorCount, 0)
  else if mcb.endingVbn index < add32 vbn sectorCount then
    let amountToRemove := add32 (sub32 (mcb.endingVbn index) vbn) 1
    (removeLastPart mcb index amountToRemove, add32 vbn amountToRemove, sub32 sectorCount amountToRemove)
  else (removeMiddle mcb index vbn sectorCount, add32 vbn sectorCount, 0)

/-- The loop `while (SectorCount > 0)` of `FsRtlRemoveMcbEntryPrivate`, at most `fuel`
iterations of it. `none` if that is not enough. -/
def removeLoop : ℕ → Mcb → ℕ → ℕ → Option Mcb
  | 0, _, _, _ => none
  | fuel + 1, mcb, vbn, sectorCount =>
    if 0 < sectorCount then
      match fsRtlFindLargeIndex mcb vbn with
      | none => some mcb
      | some index =>
        let (mcb, vbn, sectorCount) := removeStep mcb index vbn sectorCount
        removeLoop fuel mcb vbn sectorCount
    else some mcb

/-- `FsRtlRemoveMcbEntryPrivate`. Every iteration removes at least one sector, so there
are at most `sectorCount` of them. -/
def fsRtlRemoveMcbEntryPrivate (vbn sectorCount : ℕ) : Option Mcb :=
  if vbn = 0 ∧ 0 < mcb.pairCount ∧ (mcb.pair (mcb.pairCount - 1)).nextVbn ≤ sectorCount then
    some { mcb with mapping := [] }
  else removeLoop (sectorCount + 1) mcb vbn sectorCount

/-- `FsRtlRemoveLargeMcbEntry`. -/
def fsRtlRemoveLargeMcbEntry (largeVbn largeSectorCount : ℕ) : Option Mcb :=
  fsRtlRemoveMcbEntryPrivate mcb (u32 largeVbn) (u32 largeSectorCount)

/-- The end of `FsRtlTruncateLargeMcb`: "shrink the mapping pair buffer if the new pair
count will fit within a quarter of the current maximum pair count and the current
maximum is greater than the initial pair count". -/
def shrinkBuffer : Mcb :=
  if mcb.pairCount < mcb.maximumPairCount / 4 ∧ initialMaximumPairCount < mcb.maximumPairCount then
    let newMax := mcb.pairCount * 2
    { mcb with maximumPairCount := if newMax < initialMaximumPairCount then initialMaximumPairCount else newMax }
  else mcb

/-- `FsRtlTruncateLargeMcb`. -/
def fsRtlTruncateLargeMcb (largeVbn : ℕ) : Option Mcb :=
  let vbn := u32 largeVbn
  if vbn = 0 then some (shrinkBuffer { mcb with mapping := [] })
  else if 0 < mcb.pairCount then (fsRtlRemoveMcbEntryPrivate mcb vbn (sub32 0xffffffff vbn)).map shrinkBuffer
  else some (shrinkBuffer mcb)

/-! ### Splitting -/

/-- `Mapping[i].NextVbn += amount`. -/
def Mapping.shift (amount : ℕ) (pair : Mapping) : Mapping := { pair with nextVbn := add32 pair.nextVbn amount }

/-- The last loop of `FsRtlSplitLargeMcb`: shift the runs from `index` on by `amount`. -/
def shiftRuns (index amount : ℕ) : Mcb :=
  { mcb with mapping := mcb.mapping.take index ++ (mcb.mapping.drop index).map (Mapping.shift amount) }

/-- `FsRtlSplitLargeMcb`. -/
def fsRtlSplitLargeMcb (largeVbn largeAmount : ℕ) : Bool × Mcb :=
  let vbn := u32 largeVbn
  let amount := u32 largeAmount
  match fsRtlFindLargeIndex mcb vbn with
  | none => (false, mcb)
  | some index =>
    if mcb.startingLbn index = unusedLbn then (true, shiftRuns mcb index amount)
    else if mcb.startingVbn index = vbn ∧ index ≠ 0 ∧ mcb.previousEndingLbn index = unusedLbn then
      -- between a hole and an existing run
      (true, shiftRuns mcb (index - 1) amount)
    else if mcb.startingVbn index = vbn then
      -- between two existing runs
      let mcb := (fsRtlAddLargeEntry mcb index 1).setPair index unusedLbn (add32 vbn amount)
      (true, shiftRuns mcb (index + 1) amount)
    else
      -- inside an existing run
      let mcb := fsRtlAddLargeEntry mcb index 2
      let mcb := mcb.setPair index (mcb.pair (index + 2)).lbn vbn
      let mcb := mcb.setPair (index + 1) unusedLbn (add32 vbn amount)
      let mcb := mcb.setLbn (index + 2)
        (sub32 (add32 (mcb.pair (index + 2)).lbn (mcb.startingVbn (index + 1))) (mcb.startingVbn index))
      (true, shiftRuns mcb (index + 2) amount)

/-- `FsRtlInitializeLargeMcb`. -/
def fsRtlInitializeLargeMcb : Mcb := ⟨initialMaximumPairCount, []⟩

end LargeMcb

end Nt365.FsRtl
