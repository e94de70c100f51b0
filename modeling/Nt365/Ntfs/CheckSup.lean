import Nt365.Library.Buffer
import Nt365.Library.Loop

/-!
# Checking file records

`NTFS/CHECKSUP.C` checks a file record segment that was read from disk: `NtfsCheckFileRecord` walks
its attributes, `NtfsCheckAttributeRecord` checks one of them and decodes its mapping pairs, and
`NtfsCheckIndexHeader` walks the entries of an index root.

## The model

A pointer is its offset in the segment, which is not within 64 KB of the ends of the address space.
A read outside the segment is an error, and so is a copy of more than eight bytes into `Change`.
Each loop has as many iterations as the segment has bytes. `AttributeListPresent` is left out: no
check uses it.
-/

namespace Nt365.Ntfs

open Nt365.Library

/-- What a check must not do. -/
inductive Fault where
  /-- It reads outside the segment. -/
  | outside
  /-- It copies this many bytes into a variable of eight. -/
  | overrun (bytes : ℕ)
  /-- It does not end. -/
  | endless
  deriving DecidableEq

/-- The fields of the `VCB` that the checks use; `BytesPerFileRecordSegment` is the size of the buffer. -/
structure Vcb where
  totalClusters : ℤ
  clusterShift : ℕ
  /-- `TotalClusters` is a `LONGLONG`. -/
  totalClusters_lt : totalClusters < 9223372036854775808

/-! ### Attribute records -/

section Fields

variable (B : Buffer) (a : ℕ)

def typeCode : ℕ := B.le a 4
def recordLength : ℕ := B.le (a + 4) 4
def formCode : ℕ := B.le (a + 8) 1
def nameLength : ℕ := B.le (a + 9) 1
def nameOffset : ℕ := B.le (a + 10) 2
def valueLength : ℕ := B.le (a + 16) 4
def valueOffset : ℕ := B.le (a + 20) 2
def lowestVcn : ℤ := wrap64 (B.le (a + 16) 8)
def highestVcn : ℤ := wrap64 (B.le (a + 24) 8)
def mappingPairsOffset : ℕ := B.le (a + 32) 2
def allocatedLength : ℤ := wrap64 (B.le (a + 40) 8)
def fileSize : ℤ := wrap64 (B.le (a + 48) 8)
def validDataLength : ℤ := wrap64 (B.le (a + 56) 8)

/-- Bytes of the segment. -/
def field (off n : ℕ) : Except Fault ℕ := B.read .outside off n

end Fields

/-- `$END`. -/
def endCode : ℕ := 0xFFFFFFFF

/-- `$FILE_NAME`. -/
def fileNameCode : ℕ := 0x30

/-- `$INDEX_ROOT`. -/
def indexRootCode : ℕ := 0x90

/-- The other type codes that a resident attribute may have. -/
def otherCodes : List ℕ := [0x10, 0x20, 0x40, 0x50, 0x60, 0x70, 0x80, 0xA0, 0xB0, 0xC0, 0xD0, 0xE0]

/-- `RESIDENT_FORM`. -/
def residentForm : ℕ := 0

/-- `NONRESIDENT_FORM`. -/
def nonresidentForm : ℕ := 1

section Check

variable (vcb : Vcb) (B : Buffer)

variable (a : ℕ)

/-- "Check the fixed part of the attribute record header." -/
def badHeader : Except Fault Bool :=
  anyOf [
    do
      let length ← field B (a + 4) 4
      return decide (length ≥ B.size),
    do
      let length ← field B (a + 4) 4
      return decide (a + length ≥ B.size),
    do
      let nameLength ← field B (a + 9) 1
      if nameLength ≠ 0 then
        let nameOffset ← field B (a + 10) 2
        let length ← field B (a + 4) 4
        return decide (nameOffset + nameLength > length)
      else return false]

/-- "Check the resident attribute fields." -/
def badResident : Except Fault Bool :=
  anyOf [
    do
      let valueLength ← field B (a + 16) 4
      let length ← field B (a + 4) 4
      return decide (valueLength ≥ length),
    do
      let valueOffset ← field B (a + 20) 2
      let valueLength ← field B (a + 16) 4
      let length ← field B (a + 4) 4
      return decide (add32 valueOffset valueLength > length)]

/-- "Check the nonresident attribute fields". -/
def badNonresident : Except Fault Bool :=
  anyOf [
    do
      let lowestVcn ← field B (a + 16) 8
      if lowestVcn ≠ 0 then
        let base ← field B 32 8
        return decide (base = 0)
      else return false,
    do
      let lowestVcn ← field B (a + 16) 8
      let highestVcn ← field B (a + 24) 8
      return decide (wrap64 lowestVcn > wrap64 (wrap64 highestVcn + 1)),
    do
      let mappingPairsOffset ← field B (a + 32) 2
      let length ← field B (a + 4) 4
      return decide (mappingPairsOffset ≥ length),
    do
      let validDataLength ← field B (a + 56) 8
      let fileSize ← field B (a + 48) 8
      return decide (wrap64 validDataLength > wrap64 fileSize),
    do
      let fileSize ← field B (a + 48) 8
      let allocatedLength ← field B (a + 40) 8
      return decide (wrap64 fileSize > wrap64 allocatedLength)]

/-- `ch`, `NextVcn` and `CurrentLcn`. -/
structure Pair where
  ch : ℕ
  nextVcn : ℤ
  currentLcn : ℤ

/-- `RtlCopyMemory( &Change, ch, n )` of a number. -/
def copyChange (ch n : ℕ) : Except Fault ℕ := if n > 8 then .error (.overrun n) else field B ch n

/-- `*ch >> 4`: of a negative character it is a number close to `2 ^ 32`. -/
def lcnCount (c : ℕ) : ℕ := if c < 128 then c / 16 else c / 16 + 4294967280

/-- The run from one pair to the next must be on the volume. -/
def checkRun (s t : Pair) : Pair ⊕ Option ℤ :=
  if wrap64 (t.currentLcn + wrap64 (t.nextVcn - s.nextVcn)) > vcb.totalClusters then .inr none else .inl t

/-- The rest of an iteration: the changes of a pair are copied and added. -/
def pairCopy (s : Pair) (vcnBytes lcnBytes : ℕ) : Except Fault (Pair ⊕ Option ℤ) := do
  let vcnChange ← copyChange B (s.ch + 1) vcnBytes
  let last ← field B (sub32 (add32 (s.ch + 1 + vcnBytes) lcnBytes) 1) 1
  let lcnChange ← copyChange B (s.ch + 1 + vcnBytes) lcnBytes
  return checkRun vcb s ⟨s.ch + 1 + vcnBytes + lcnBytes, wrap64 (s.nextVcn + vcnChange),
    wrap64 (s.currentLcn + (if last ≥ 128 then (lcnChange : ℤ) - 256 ^ lcnBytes else lcnChange))⟩

/-- An iteration of the loop over mapping pairs: the end with `NextVcn`, or a pair that is not valid. -/
def pairBody (nextAttribute : ℕ) (s : Pair) : Except Fault (Pair ⊕ Option ℤ) := do
  let c ← field B s.ch 1
  if c = 0 then return .inr (some s.nextVcn)
  else if add32 (s.ch + 1 + c % 16 + 1) (lcnCount c) > nextAttribute then return .inr none
  else
    let last ← field B (s.ch + 1 + c % 16 - 1) 1
    if last ≥ 128 then return .inr none else pairCopy vcb B s (c % 16) (lcnCount c)

/-- The mapping pairs are valid and agree with `HighestVcn`. -/
def mappingPairsAgree : Except Fault Bool := do
  let length ← field B (a + 4) 4
  let lowestVcn ← field B (a + 16) 8
  let offset ← field B (a + 32) 2
  let r ← loop .endless (pairBody vcb B (a + length)) (B.size + 1) ⟨a + offset, wrap64 lowestVcn, 0⟩
  match r with
  | none => return false
  | some nextVcn =>
    let highestVcn ← field B (a + 24) 8
    return decide (nextVcn = wrap64 (wrap64 highestVcn + 1))

/-- An iteration of the loop over index entries. -/
def entryBody (minIndexEntry endOfIndex headerFlags : ℕ) (entry : ℕ) : Except Fault (ℕ ⊕ Bool) := do
  let length ← field B (entry + 8) 2
  let bad ← anyOf [
    .ok (decide (length < minIndexEntry)),
    .ok (decide (entry + length > endOfIndex)),
    do
      let flags ← field B (entry + 12) 2
      return decide (flags % 2 ≠ headerFlags % 2)]
  if bad then return .inr false
  else
    let flags ← field B (entry + 12) 2
    if flags / 2 % 2 = 1 then return .inr true
    else return .inl (entry + length)

/-- `NtfsCheckIndexHeader`. -/
def ntfsCheckIndexHeader (header bytesAvailable : ℕ) : Except Fault Bool := do
  let flags ← field B (header + 12) 1
  let minIndexEntry := if flags % 2 = 1 then 16 + 8 else 16
  let first ← field B header 4
  let free ← field B (header + 4) 4
  let available ← field B (header + 8) 4
  if first > sub32 bytesAvailable minIndexEntry ∨ free > bytesAvailable ∨ available > bytesAvailable ∨
      add32 first minIndexEntry > free ∨ free > available then
    return false
  else loop .endless (entryBody B minIndexEntry (header + free) flags) (B.size + 1) (add32 header first)

/-- `NtfsCheckIndexRoot`. -/
def ntfsCheckIndexRoot (root attributeSize : ℕ) : Except Fault Bool := do
  let bad ← anyOf [
    .ok (decide (attributeSize < 32)),
    do
      let indexedAttributeType ← field B root 4
      return decide (indexedAttributeType ≠ fileNameCode),
    do
      let collationRule ← field B (root + 4) 4
      return decide (collationRule ≠ 1),
    do
      let bytesPerIndexBuffer ← field B (root + 8) 4
      let clustersPerIndexBuffer ← field B (root + 12) 1
      return decide (bytesPerIndexBuffer ≠ u32 (clustersPerIndexBuffer <<< vcb.clusterShift)),
    do
      let clustersPerIndexBuffer ← field B (root + 12) 1
      return decide (clustersPerIndexBuffer ∉ [1, 2, 4, 8])]
  if bad then return false
  else ntfsCheckIndexHeader B (root + 16) (attributeSize - 32 + 16)

/-- "Now check the attributes by type code, if they are resident." -/
def checkValue : Except Fault Bool := do
  let valueOffset ← field B (a + 20) 2
  let length ← field B (a + 16) 4
  let typeCode ← field B a 4
  if typeCode = fileNameCode then
    let fileNameLength ← field B (a + valueOffset + 64) 1
    return !decide (fileNameLength * 2 > add32 (sub32 length 72) 2)
  else if typeCode = indexRootCode then ntfsCheckIndexRoot vcb B (a + valueOffset) length
  else return decide (typeCode ∈ otherCodes)

/-- `NtfsCheckAttributeRecord`. -/
def ntfsCheckAttributeRecord : Except Fault Bool := do
  let bad ← badHeader B a
  if bad then return false
  else
    let formCode ← field B (a + 8) 1
    if formCode = residentForm then
      let bad ← badResident B a
      if bad then return false else checkValue vcb B a
    else if formCode = nonresidentForm then
      let bad ← badNonresident B a
      if bad then return false else mappingPairsAgree vcb B a
    else return false

/-- "Check the file record header for consistency." -/
def badFileRecord : Except Fault Bool :=
  anyOf [
    do
      let signature ← field B 0 4
      return decide (signature ≠ 0x454C4946),
    do
      let updateSequenceArrayOffset ← field B 4 2
      return decide (updateSequenceArrayOffset > 512 - (4096 / 512 + 1) * 2),
    do
      let updateSequenceArraySize ← field B 6 2
      return decide (sub32 (updateSequenceArraySize * 512) 512 ≠ B.size),
    do
      let firstAttributeOffset ← field B 20 2
      return decide (firstAttributeOffset < 48 ∨ firstAttributeOffset > B.size - 24),
    do
      let flags ← field B 22 2
      return decide (flags % 2 ≠ 1),
    do
      let bytesAvailable ← field B 28 4
      return decide (bytesAvailable ≠ B.size)]

/-- An iteration of the loop over attributes. -/
def attributeBody : Except Fault (ℕ ⊕ Bool) := do
  let typeCode ← field B a 4
  if typeCode = endCode then return .inr true
  else
    let valid ← ntfsCheckAttributeRecord vcb B a
    if valid then
      let length ← field B (a + 4) 4
      return .inl (a + length)
    else return .inr false

/-- `NtfsCheckFileRecord`. -/
def ntfsCheckFileRecord : Except Fault Bool := do
  let bad ← badFileRecord B
  if bad then return false
  else
    let first ← field B 20 2
    loop .endless (attributeBody vcb B) (B.size + 1) first

end Check

end Nt365.Ntfs
