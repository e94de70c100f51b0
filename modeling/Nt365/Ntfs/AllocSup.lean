import Nt365.FsRtl.LargeMcbLookup
import Nt365.Library.SignedBytes
import Nt365.Ntfs.CheckSup

/-!
# Mapping pairs

`NTFS/ALLOCSUP.C` keeps the mapping of a file on disk as mapping pairs: for each run a byte with two
counts, the number of clusters, and the difference of the first cluster to that of the run before.
`NtfsGetSizeForMappingPairs` says how many bytes they take and where they must stop,
`NtfsBuildMappingPairs` writes them, and `NtfsLookupAllocation` reads them into an MCB.

## The model

`VCN`s and `LCN`s are integers; where bytes from disk are added up, the sums wrap. `MSize` wraps as a
`ULONG`. Bytes are written to a list, and are read from a buffer with the attribute record; the record
is in one attribute, so `NtfsLookupNextAttributeForScb` and the looking up of the attribute are left out.
Each loop over an MCB has as many iterations as it has pairs, and three.
-/

namespace Nt365.Ntfs

open Nt365.Library Nt365.FsRtl.LargeMcb

/-- What the routines raise, and what they must not do. -/
inductive Raise where
  /-- `STATUS_FILE_CORRUPT_ERROR`. -/
  | corrupt
  | fault (fault : Fault)
  deriving DecidableEq

/-- `UNUSED_LCN`. -/
def unusedLcn : ℤ := -1

/-- `MAXLONGLONG`. -/
def maxLonglong : ℤ := 9223372036854775807

/-- `MAXULONG`. -/
def maxUlong : ℕ := 4294967295

/-! ### Changes -/

/-- A `LONGLONG` as its bytes. -/
def quadPart (x : ℤ) : ℕ := (x % 18446744073709551616).toNat

/-- `GetPositiveByte` and `GetNegativeByte`: how many bytes are skipped, if the high bytes are `fill`. -/
def getByte (fill w : ℕ) : ℕ :=
  let cp := if w / 256 ^ 4 ≠ fill * 0x1010101 then 4 else 0
  let cp := if w / 256 ^ (cp + 2) % 65536 ≠ fill * 0x101 then cp + 2 else cp
  let cp := if w / 256 ^ (cp + 1) % 256 ≠ fill then cp + 1 else cp
  if w / 256 ^ cp % 256 / 128 ≠ fill / 128 then cp + 1 else cp

def getPositiveByte : ℕ → ℕ := getByte 0

def getNegativeByte : ℕ → ℕ := getByte 0xff

/-- "`cp - (PCHAR)&Change + 1`": the number of bytes of a change. -/
def changeBytes (change : ℤ) :
    ℕ := (if change < 0 then getNegativeByte (quadPart change) else getPositiveByte (quadPart change)) + 1

/-! ### Walking an MCB -/

/-- `RunVcn`, `RunLcn` and `RunCount`. -/
structure Extent where
  vcn : ℤ
  lcn : ℤ
  count : ℤ
  deriving DecidableEq

/-- What the two loops over an MCB have in common: the run that was found, if any, `RunIndex`, `NextVcn`
and `CurrentLcn`. -/
structure Walk where
  found : Option Extent
  runIndex : ℕ
  nextVcn : ℤ
  currentLcn : ℤ

section Walk

variable (mcb : Mcb)

/-- The lookup before the loop. -/
def Walk.start (lowestVcn : ℤ) : Walk :=
  match fsRtlLookupLargeMcbEntry mcb lowestVcn with
  | some (lcn, count, index) => ⟨some ⟨lowestVcn, lcn, count⟩, index, lowestVcn, 0⟩
  | none => ⟨none, 0, lowestVcn, 0⟩

/-- The run of an iteration; if none was found it is "the hole up to" this VCN. -/
def Walk.run (w : Walk) (stop : ℤ) : Extent :=
  match w.found with
  | some run => run
  | none => ⟨w.nextVcn, unusedLcn, stop - w.nextVcn⟩

/-- `RunIndex` after "Advance the RunIndex for the next call". -/
def Walk.nextIndex (w : Walk) : ℕ :=
  match w.found with
  | some _ => add32 w.runIndex 1
  | none => add32 (maxUlong - 1) 1

variable (currentLcn : ℤ)

/-- `CurrentLcn` after a run. -/
def nextLcn (run : Extent) : ℤ := if run.lcn ≠ unusedLcn then run.lcn else currentLcn

/-- The end of an iteration over this run. -/
def Walk.next (w : Walk) (run : Extent) : Walk where
  found := (fsRtlGetNextLargeMcbEntry mcb w.nextIndex).map fun (vcn, lcn, count) => ⟨vcn, lcn, count⟩
  runIndex := w.nextIndex
  nextVcn := run.vcn + run.count
  currentLcn := nextLcn w.currentLcn run

/-- The bytes that a run takes. -/
def runSize (run : Extent) : ℕ :=
  1 + changeBytes (run.vcn + run.count - run.vcn) + if run.lcn ≠ unusedLcn then changeBytes (run.lcn - currentLcn) else 0

/-! ### Size -/

/-- The variables of `NtfsGetSizeForMappingPairs`; `LastSize` is `MSize` at the head of the loop. -/
structure Sizing where
  walk : Walk
  mSize : ℕ
  highestVcn : ℤ

/-- "the next Vcn is beyond the one we are to stop on". -/
def beyond (stopOnVcn : Option ℤ) (vcn : ℤ) : Bool :=
  match stopOnVcn with
  | none => false
  | some stop => decide (vcn > stop)

def sizeBody (bytesAvailable : ℕ) (stopOnVcn : Option ℤ) (s : Sizing) : Except Raise (Sizing ⊕ ℕ × ℤ) :=
  if s.walk.found = none ∧ stopOnVcn = none then .ok (.inr (add32 s.mSize 1, s.highestVcn))
  else
    let run := s.walk.run (stopOnVcn.getD 0 + 1)
    if beyond stopOnVcn run.vcn then
      .ok (.inr (add32 s.mSize 1, if stopOnVcn = some maxLonglong then run.vcn else s.highestVcn))
    else
      let mSize := add32 s.mSize (runSize s.walk.currentLcn run)
      if add32 mSize 1 > bytesAvailable then .ok (.inr (add32 s.mSize 1, run.vcn))
      else
        .ok (.inl ⟨s.walk.next mcb run, mSize, if beyond stopOnVcn (run.vcn + run.count) then stopOnVcn.getD 0 + 1
          else s.highestVcn⟩)

/-- `NtfsGetSizeForMappingPairs`: the size, and `StoppedOnVcn`. -/
def ntfsGetSizeForMappingPairs (bytesAvailable : ℕ) (lowestVcn : ℤ) (stopOnVcn : Option ℤ) : Except Raise (ℕ × ℤ) :=
  loop (.fault .endless) (sizeBody mcb bytesAvailable stopOnVcn) (mcb.pairCount + 3) ⟨.start mcb lowestVcn, 0, maxLonglong⟩

/-! ### Building -/

/-- The bytes of a run. -/
def runBytes (run : Extent) : List Byte :=
  let changeV := run.vcn + run.count - run.vcn
  let changeL := run.lcn - currentLcn
  let sizeV := changeBytes changeV
  let sizeL := if run.lcn ≠ unusedLcn then changeBytes changeL else 0
  BitVec.ofNat 8 (sizeV + sizeL * 16) :: (signedBytes sizeV changeV ++ signedBytes sizeL changeL)

structure Building where
  walk : Walk
  mappingPairs : List Byte

def buildBody (highestVcn : ℤ) (s : Building) : Except Raise (Building ⊕ List Byte × ℤ) :=
  if s.walk.found = none ∧ highestVcn = maxLonglong then .ok (.inr (s.mappingPairs ++ [0], s.walk.nextVcn - 1))
  else
    let run := s.walk.run highestVcn
    if run.vcn ≥ highestVcn then .ok (.inr (s.mappingPairs ++ [0], s.walk.nextVcn - 1))
    else
      let run := if run.vcn + run.count > highestVcn then { run with count := highestVcn - run.vcn } else run
      .ok (.inl ⟨s.walk.next mcb run, s.mappingPairs ++ runBytes s.walk.currentLcn run⟩)

/-- `NtfsBuildMappingPairs`: the bytes, and `HighestVcn`. -/
def ntfsBuildMappingPairs (lowestVcn highestVcn : ℤ) : Except Raise (List Byte × ℤ) :=
  loop (.fault .endless) (buildBody mcb highestVcn) (mcb.pairCount + 3) ⟨.start mcb lowestVcn, []⟩

end Walk

/-! ### Decoding -/

section Decode

variable (B : Buffer)

/-- Bytes of the attribute record. -/
def bytesAt (off n : ℕ) : Except Raise ℕ := B.read (.fault .outside) off n

/-- The variables of `NtfsLookupAllocation`. -/
structure Decoding where
  ch : ℕ
  highestCandidate : ℤ
  currentLcn : ℤ
  mcb : Mcb

/-- "Now add it in to the mcb." -/
def addRun (s : Decoding) (currentVcn : ℤ) : Except Raise Decoding :=
  if s.currentLcn ≥ 0 then
    if s.highestCandidate / 4294967296 ≠ 0 then .error .corrupt
    else
      match fsRtlAddLargeMcbEntry s.mcb (lowPart currentVcn) (lowPart s.currentLcn)
          (lowPart (s.highestCandidate - currentVcn)) with
      | (false, _) => .error .corrupt
      | (true, mcb) => .ok { s with mcb := mcb }
  else .ok s

/-- An iteration of the loop over mapping pairs; the attribute record ends at `recordEnd`. -/
def lookupBody (recordEnd : ℕ) (s : Decoding) : Except Raise (Decoding ⊕ Decoding) := do
  let c ← bytesAt B s.ch 1
  if c = 0 then return .inr s
  else
    let vcnBytes := c % 16
    let lcnBytes := lcnCount c
    if vcnBytes = 0 ∨ vcnBytes > 8 ∨ lcnBytes > 8 ∨ s.ch + 1 + vcnBytes + lcnBytes + 1 > recordEnd then .error .corrupt
    else
      let last ← bytesAt B (s.ch + vcnBytes) 1
      if last ≥ 128 then .error .corrupt
      else
        let vcnChange ← bytesAt B (s.ch + 1) vcnBytes
        let ch := s.ch + 1 + vcnBytes
        let highestCandidate := wrap64 (s.highestCandidate + vcnChange)
        if lcnBytes = 0 then return .inl { s with ch := ch, highestCandidate := highestCandidate }
        else
          let last ← bytesAt B (ch + lcnBytes - 1) 1
          let change ← bytesAt B ch lcnBytes
          let lcnChange : ℤ := if last ≥ 128 then change - 256 ^ lcnBytes else change
          let s ← addRun ⟨ch + lcnBytes, highestCandidate, wrap64 (s.currentLcn + lcnChange), s.mcb⟩ s.highestCandidate
          return .inl s

/-- The loop of `NtfsLookupAllocation` over one attribute record: the runs are added to the MCB. -/
def lookupAllocation (recordEnd mappingPairs : ℕ) (lowestVcn : ℤ) (mcb : Mcb) : Except Raise Mcb :=
  (loop (.fault .endless) (lookupBody B recordEnd) (B.size + 1) ⟨mappingPairs, lowestVcn, 0, mcb⟩).map Decoding.mcb

/-- An iteration of the loop of `NtfsGetHighestVcn`, at `ch` and `NextVcn`. -/
def highestBody (s : ℕ × ℤ) : Except Raise (ℕ × ℤ ⊕ ℤ) := do
  let (ch, nextVcn) := s
  let c ← bytesAt B ch 1
  if c = 0 then return .inr (nextVcn - 1)
  else
    let last ← bytesAt B (ch + 1 + c % 16 - 1) 1
    if last ≥ 128 then .error .corrupt
    else if c % 16 > 8 then .error (.fault (.overrun (c % 16)))
    else
      let change ← bytesAt B (ch + 1) (c % 16)
      return .inl (add32 (ch + 1 + c % 16) (lcnCount c), wrap64 (nextVcn + change))

/-- `NtfsGetHighestVcn`. -/
def ntfsGetHighestVcn (lowestVcn : ℤ) (mappingPairs : ℕ) : Except Raise ℤ :=
  loop (.fault .endless) (highestBody B) (B.size + 1) (mappingPairs, lowestVcn)

end Decode

/-! ### Records -/

/-- `LowestVcn`, `HighestVcn` and the mapping pairs of an attribute record. -/
structure MappingRecord where
  lowestVcn : ℤ
  highestVcn : ℤ
  mappingPairs : List Byte

/-- Records, each from the VCN on which the last one stopped, until `StopOnVcn` is passed or nothing is
left; the `i`th has room for `bytesAvailable i` bytes. -/
def mappingRecords (mcb : Mcb) (stopOnVcn : Option ℤ) (bytesAvailable : ℕ → ℕ) : ℕ → ℕ → ℤ → Except Raise (List MappingRecord)
  | 0, _, _ => .error (.fault .endless)
  | n + 1, i, lowestVcn => do
    let (_, stoppedOnVcn) ← ntfsGetSizeForMappingPairs mcb (bytesAvailable i) lowestVcn stopOnVcn
    let (mappingPairs, highestVcn) ← ntfsBuildMappingPairs mcb lowestVcn stoppedOnVcn
    if stoppedOnVcn = maxLonglong ∨ beyond stopOnVcn stoppedOnVcn then return [⟨lowestVcn, highestVcn, mappingPairs⟩]
    else
      let records ← mappingRecords mcb stopOnVcn bytesAvailable n (i + 1) stoppedOnVcn
      return ⟨lowestVcn, highestVcn, mappingPairs⟩ :: records

/-- Bytes as a buffer. -/
def bufferOf (bs : List Byte) : Buffer := ⟨bs.length, fun i => bs.getD i 0⟩

/-- The records are read one after another. -/
def readRecords : List MappingRecord → Mcb → Except Raise Mcb
  | [], mcb => .ok mcb
  | r :: rs, mcb => do
    let mcb ← lookupAllocation (bufferOf r.mappingPairs) r.mappingPairs.length 0 r.lowestVcn mcb
    readRecords rs mcb

end Nt365.Ntfs
