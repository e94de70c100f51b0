import Mathlib.Logic.Function.Basic
import Nt365.Library.Buffer
import Nt365.Library.Loop

/-!
# LZNT1 compression

`RTL/LZNT1.C`: the two match functions, the compression of a chunk and of a buffer, and the decompression of a chunk, a
buffer and a fragment.

## The model

A pointer is an offset in its buffer. The input is a buffer whose `size` is how far the memory can be read;
`UncompressedBufferSize` is another number, as the copy of an incompressible chunk does not keep to it. A read outside the
memory, a write outside the output, and an access past the end of the work space are errors.
-/

namespace Nt365.Rtl.Lznt1

open Nt365.Library

inductive Fault
  | outside
  | fuel
deriving DecidableEq

inductive Status
  | success
  | bufferAllZeros
  | bufferTooSmall
  | badCompressionBuffer
deriving DecidableEq

inductive Engine
  | standard
  | maximum
deriving DecidableEq

/-- `RtlCompressWorkSpaceSizeLZNT1`: the size of the work space, `sizeof(LZNT1_STANDARD_WORKSPACE)` with its 4096 entries of
16 bytes at offset 20 or `sizeof(LZNT1_MAXIMUM_WORKSPACE)`. -/
def rtlCompressWorkSpaceSize : Engine → ℕ
  | .standard => 65556
  | .maximum => 16

variable (B : Buffer)

/-- The bytes of a buffer, one at a time. -/
def fetch (i : ℕ) : Except Fault Byte := if i < B.size then .ok (B.byte i) else .error .outside

/-- A write to a buffer of this size. -/
def store (size : ℕ) (out : ℕ → Byte) (i : ℕ) (b : Byte) : Except Fault (ℕ → Byte) :=
  if i < size then .ok (Function.update out i b) else .error .outside

/-- `RtlStoreUshort`. -/
def storeUshort (size : ℕ) (out : ℕ → Byte) (i v : ℕ) : Except Fault (ℕ → Byte) := do
  let out ← store size out i (BitVec.ofNat 8 v)
  store size out (i + 1) (BitVec.ofNat 8 (v / 256))

/-- `RtlRetrieveUshort`. -/
def retrieveUshort (i : ℕ) : Except Fault ℕ := do
  let b0 ← fetch B i
  let b1 ← fetch B (i + 1)
  return b0.toNat + 256 * b1.toNat

/-! ### Copy tokens -/

/-- `FormatMaxLength`. -/
def formatMaxLength : List ℕ := [4098, 2050, 1026, 514, 258, 130, 66, 34, 18]

/-- `FormatMaxDisplacement`. -/
def formatMaxDisplacement : List ℕ := [16, 32, 64, 128, 256, 512, 1024, 2048, 4096]

/-- `while (UncompressedBuffer + FormatMaxDisplacement[Format] < Pointer) Format += 1`, for the position of the pointer
in the chunk. -/
def nextFormat (position : ℕ) : ℕ → ℕ → Except Fault ℕ
  | 0, _ => .error .fuel
  | k + 1, format =>
    match formatMaxDisplacement[format]? with
    | none => .error .outside
    | some d => if d < position then nextFormat position k (format + 1) else .ok format

/-- `SetLZNT1`: the length has the low `12 - format` bits of the token. -/
def setLznt1 (format length displacement : ℕ) : ℕ :=
  (length - 3) % 2 ^ (12 - format) + (displacement - 1) % 2 ^ (4 + format) * 2 ^ (12 - format)

/-- `GetLZNT1Length`. -/
def getLznt1Length (format token : ℕ) : ℕ := token % 2 ^ (12 - format) + 3

/-- `GetLZNT1Displacement`. -/
def getLznt1Displacement (format token : ℕ) : ℕ := token / 2 ^ (12 - format) + 1

/-! ### The match functions -/

/-- `COMPRESS_ENTRY`; a child is known by its place in the table. -/
structure CompressEntry where
  key : ℕ
  index0 : ℕ
  index1 : ℕ
  leftChild : Option ℕ
  rightChild : Option ℕ

/-- The child on the side of a key. -/
def CompressEntry.child (e : CompressEntry) (ziv : ℕ) : Option ℕ := if ziv < e.key then e.leftChild else e.rightChild

/-- The entry with a child on the side of a key. -/
def CompressEntry.withChild (e : CompressEntry) (ziv i : ℕ) : CompressEntry :=
  if ziv < e.key then { e with leftChild := some i } else { e with rightChild := some i }

/-- `LZNT1_STANDARD_WORKSPACE`; the one of the other engine has its first four fields. -/
structure WorkSpace where
  uncompressedBuffer : ℕ
  endOfUncompressedBufferPlus1 : ℕ
  maxLength : ℕ
  matchedString : ℕ
  nextFreeEntry : ℕ
  table : ℕ → CompressEntry

/-- The parameters of a compression. -/
structure Call where
  engine : Engine
  source : Buffer
  uncompressedBufferSize : ℕ
  compressedBufferSize : ℕ
  workSpaceSize : ℕ

namespace Call

variable (c : Call)

/-- An access to the bytes of the work space up to an offset. -/
def touch (upTo : ℕ) : Except Fault Unit := if upTo ≤ c.workSpaceSize then .ok () else .error .outside

/-- An access to an entry of the table. -/
def entry (w : WorkSpace) (i : ℕ) : Except Fault CompressEntry := do
  c.touch (36 + 16 * i)
  return w.table i

end Call

/-- The search of the tree, from an entry on: the entry with the key, or the one under which it belongs. -/
def search (c : Call) (w : WorkSpace) (ziv : ℕ) : ℕ → ℕ → Except Fault (ℕ × CompressEntry)
  | 0, _ => .error .fuel
  | fuel + 1, i => do
    let entry ← c.entry w i
    if ziv = entry.key then return (i, entry)
    else
      match entry.child ziv with
      | none => return (i, entry)
      | some child => search c w ziv fuel child

/-- `do { q++; } while ((q < EndOfUncompressedBuffer) && (*q == *p++))`. -/
def matchEnd (c : Call) (endOfUncompressedBuffer : ℕ) : ℕ → ℕ → ℕ → Except Fault ℕ
  | 0, _, _ => .error .fuel
  | fuel + 1, q, p => do
    if q + 1 < endOfUncompressedBuffer then
      let a ← fetch c.source (q + 1)
      let b ← fetch c.source p
      if a = b then matchEnd c endOfUncompressedBuffer fuel (q + 1) (p + 1) else return q + 1
    else return q + 1

variable (c : Call)

/-- The longer of the two matches of an entry: its index, and its length. -/
def longestMatch (w : WorkSpace) (zivString : ℕ) (entry : CompressEntry) : Except Fault (ℕ × ℕ) := do
  let last := w.endOfUncompressedBufferPlus1 - 1
  let q ← matchEnd c last 4096 (zivString + 2) (w.uncompressedBuffer + entry.index0 + 3)
  if entry.index1 ≠ 0xffff then
    let q' ← matchEnd c last 4096 (zivString + 2) (w.uncompressedBuffer + entry.index1 + 3)
    if q - zivString < q' - zivString then return (entry.index1, q' - zivString) else return (entry.index0, q - zivString)
  else return (entry.index0, q - zivString)

/-- The three bytes of the ziv. -/
def fetchZiv (zivString : ℕ) : Except Fault ℕ := do
  let z0 ← fetch c.source zivString
  let z1 ← fetch c.source (zivString + 1)
  let z2 ← fetch c.source (zivString + 2)
  return z0.toNat + 256 * z1.toNat + 65536 * z2.toNat

/-- `LZNT1FindMatchStandard`: the length of the match, or 0. -/
def lznt1FindMatchStandard (zivString : ℕ) (w : WorkSpace) : Except Fault (ℕ × WorkSpace) := do
  c.touch 18
  let ziv ← fetchZiv c zivString
  let new : CompressEntry := ⟨ziv, zivString - w.uncompressedBuffer, 0xffff, none, none⟩
  if w.nextFreeEntry ≠ 0 then
    let (i, entry) ← search c w ziv 4096 1
    if ziv = entry.key then
      let (index, longestLength) ← longestMatch c w zivString entry
      let aged := { entry with index1 := entry.index0, index0 := zivString - w.uncompressedBuffer }
      return (if w.maxLength < longestLength then w.maxLength else longestLength,
        { w with table := Function.update w.table i aged, matchedString := w.uncompressedBuffer + index })
    else
      let _ ← c.entry w w.nextFreeEntry
      return (0, { w with
        nextFreeEntry := u16 (w.nextFreeEntry + 1)
        table := Function.update (Function.update w.table w.nextFreeEntry new) i (entry.withChild ziv w.nextFreeEntry) })
  else
    let _ ← c.entry w 1
    return (0, { w with nextFreeEntry := 2, table := Function.update w.table 1 new })

/-- The `while` loop of `LZNT1FindMatchMaximum`. -/
def matchCount (c : Call) (w : WorkSpace) (zivString q : ℕ) : ℕ → ℕ → Except Fault ℕ
  | 0, _ => .error .fuel
  | fuel + 1, i => do
    if i < w.maxLength ∧ zivString + i < w.endOfUncompressedBufferPlus1 then
      let a ← fetch c.source (zivString + i)
      let b ← fetch c.source (q + i)
      if a = b then matchCount c w zivString q fuel (i + 1) else return i
    else return i

/-- The `for` loop of `LZNT1FindMatchMaximum`, for `n` more strings: the best length, and where it is. -/
def bestMatch (c : Call) (w : WorkSpace) (zivString : ℕ) : ℕ → ℕ → ℕ × ℕ → Except Fault (ℕ × ℕ)
  | 0, _, best => return best
  | n + 1, q, best => do
    let i ← matchCount c w zivString q 4097 0
    bestMatch c w zivString n (q + 1) (if best.1 ≤ i then (i, q) else best)

/-- `LZNT1FindMatchMaximum`: the length of the match, or 0. -/
def lznt1FindMatchMaximum (zivString : ℕ) (w : WorkSpace) : Except Fault (ℕ × WorkSpace) := do
  c.touch 16
  let (best, matched) ← bestMatch c w zivString (zivString - w.uncompressedBuffer) w.uncompressedBuffer (0, w.matchedString)
  return (if best < 3 then 0 else best, { w with matchedString := matched })

/-- `MatchFunction`. -/
def findMatch : ℕ → WorkSpace → Except Fault (ℕ × WorkSpace) :=
  match c.engine with
  | .standard => lznt1FindMatchStandard c
  | .maximum => lznt1FindMatchMaximum c

/-- The match for a position, where three bytes are left. -/
def nextMatch (endOfInput position : ℕ) (w : WorkSpace) : Except Fault (ℕ × WorkSpace) :=
  if position + 3 ≤ endOfInput then findMatch c position w else .ok (0, w)

/-! ### Compressing a chunk -/

/-- The variables of the loop of `LZNT1CompressChunk`. -/
structure Pass where
  inputPointer : ℕ
  outputPointer : ℕ
  flagPointer : ℕ
  flagByte : Byte
  flagBit : ℕ
  nullCharacter : Byte
  format : ℕ
  out : ℕ → Byte
  work : WorkSpace

/-- The end of an iteration: the next flag bit, and after eight of them the flag byte. -/
def nextFlag (s : Pass) : Except Fault (Pass ⊕ Pass) :=
  if (s.flagBit + 1) % 8 = 0 then do
    let out ← store c.compressedBufferSize s.out s.flagPointer s.flagByte
    return .inl { s with flagBit := 0, out, flagByte := 0, flagPointer := s.outputPointer, outputPointer := s.outputPointer + 1 }
  else .ok (.inl { s with flagBit := s.flagBit + 1 })

/-- A literal. -/
def putLiteral (endOfChunk : ℕ) (s : Pass) : Except Fault (Pass ⊕ Pass) :=
  if endOfChunk ≤ s.outputPointer then .ok (.inr s)
  else do
    let b ← fetch c.source s.inputPointer
    let out ← store c.compressedBufferSize s.out s.outputPointer b
    nextFlag c { s with
      flagByte := s.flagByte &&& ~~~(1#8 <<< s.flagBit)
      nullCharacter := s.nullCharacter ||| b
      out, inputPointer := s.inputPointer + 1, outputPointer := s.outputPointer + 1 }

/-- A copy token. -/
def putCopy (endOfChunk length : ℕ) (s : Pass) : Except Fault (Pass ⊕ Pass) :=
  if endOfChunk ≤ s.outputPointer + 1 then .ok (.inr s)
  else do
    let displacement := s.inputPointer - s.work.matchedString
    let out ← storeUshort c.compressedBufferSize s.out s.outputPointer (setLznt1 s.format length displacement)
    nextFlag c { s with
      flagByte := s.flagByte ||| 1#8 <<< s.flagBit
      out, inputPointer := s.inputPointer + length, outputPointer := s.outputPointer + 2 }

/-- An iteration of the loop. Where the format has changed, so has `MaxLength`. -/
def chunkBody (chunk endOfInput endOfChunk : ℕ) (s : Pass) : Except Fault (Pass ⊕ Pass) :=
  if s.inputPointer < endOfInput then do
    let format ← nextFormat (s.inputPointer - chunk) 10 s.format
    let work := { s.work with maxLength := formatMaxLength.getD format 0 }
    let (length, work) ← nextMatch c endOfInput s.inputPointer work
    if length = 0 then putLiteral c endOfChunk { s with format, work } else putCopy c endOfChunk length { s with format, work }
  else .ok (.inr s)

/-- What the compression of a chunk leaves. -/
structure Compressed where
  status : Status
  size : ℕ
  out : ℕ → Byte
  work : WorkSpace

/-- `RtlCopyMemory` of `n` bytes from a buffer. -/
def copyMemory (B : Buffer) (size : ℕ) : ℕ → ℕ → ℕ → (ℕ → Byte) → Except Fault (ℕ → Byte)
  | 0, _, _, out => .ok out
  | n + 1, target, place, out => do
    let b ← fetch B place
    let out ← store size out target b
    copyMemory B size n (target + 1) (place + 1) out

/-- The header of a chunk of this size. -/
def chunkHeader (size : ℕ) (compressed : Bool) : ℕ := (size - 3) % 4096 + 3 * 4096 + if compressed then 32768 else 0

/-- The last flag byte, where it has room. -/
def lastFlag (endOfChunk : ℕ) (s : Pass) : Except Fault (ℕ → Byte) :=
  if s.flagPointer < endOfChunk then store c.compressedBufferSize s.out s.flagPointer s.flagByte else .ok s.out

/-- The end of `LZNT1CompressChunk`. -/
def finishChunk (chunk endOfInput compressedBuffer endOfChunk : ℕ) (s : Pass) : Except Fault Compressed :=
  if s.inputPointer < endOfInput then
    if compressedBuffer + 4098 ≤ c.compressedBufferSize then do
      let out ← copyMemory c.source c.compressedBufferSize 4096 (compressedBuffer + 2) chunk s.out
      let out ← storeUshort c.compressedBufferSize out compressedBuffer (chunkHeader 4098 false)
      return ⟨.success, 4098, out, s.work⟩
    else .ok ⟨.bufferTooSmall, 0, s.out, s.work⟩
  else do
    let out ← lastFlag c endOfChunk s
    let outputPointer := if s.flagPointer < endOfChunk then s.outputPointer else s.outputPointer - 1
    let out ← storeUshort c.compressedBufferSize out compressedBuffer (chunkHeader (outputPointer - compressedBuffer) true)
    return ⟨if s.nullCharacter = 0 then .bufferAllZeros else .success, outputPointer - compressedBuffer, out, s.work⟩

/-- `LZNT1CompressChunk`. -/
def lznt1CompressChunk (chunk compressedBuffer : ℕ) (out : ℕ → Byte) (work : WorkSpace) : Except Fault Compressed := do
  let endOfInput := if chunk + 4096 < c.uncompressedBufferSize then chunk + 4096 else c.uncompressedBufferSize
  let endOfChunk := if compressedBuffer + 4098 < c.compressedBufferSize then compressedBuffer + 4098 else c.compressedBufferSize
  c.touch 18
  let work := { work with
    nextFreeEntry := 0, uncompressedBuffer := chunk, endOfUncompressedBufferPlus1 := endOfInput, maxLength := 4098 }
  let s ← loop .fuel (chunkBody c chunk endOfInput endOfChunk) 4097
    ⟨chunk, compressedBuffer + 3, compressedBuffer + 2, 0, 0, 0, 0, out, work⟩
  finishChunk c chunk endOfInput compressedBuffer endOfChunk s

/-- The loop of `RtlCompressBufferLZNT1`, from a chunk on, with `AllZero`. -/
def compressLoop (c : Call) : ℕ → ℕ → ℕ → Bool → (ℕ → Byte) → WorkSpace → Except Fault Compressed
  | 0, _, _, _, _, _ => .error .fuel
  | fuel + 1, chunk, compressedChunk, allZero, out, work =>
    if chunk < c.uncompressedBufferSize then do
      let r ← lznt1CompressChunk c chunk compressedChunk out work
      if r.status = .bufferTooSmall then return r
      else compressLoop c fuel (chunk + 4096) (compressedChunk + r.size) (allZero && r.status = .bufferAllZeros) r.out r.work
    else do
      let status := if allZero then Status.bufferAllZeros else .success
      if compressedChunk + 2 ≤ c.compressedBufferSize then
        let out ← storeUshort c.compressedBufferSize out compressedChunk 0
        return ⟨status, compressedChunk + 2, out, work⟩
      else return ⟨status, compressedChunk, out, work⟩

/-- `RtlCompressBufferLZNT1`. -/
def rtlCompressBufferLznt1 (out : ℕ → Byte) (work : WorkSpace) : Except Fault Compressed :=
  compressLoop c (c.uncompressedBufferSize + 1) 0 0 true out work

/-! ### Decompressing -/

/-- The variables of the loop of `LZNT1DecompressChunk`. -/
structure Expansion where
  outputPointer : ℕ
  inputPointer : ℕ
  flagByte : Byte
  flagBit : ℕ
  format : ℕ
  out : ℕ → Byte

/-- The bytes of a copy token, one after the other. -/
def copyBack (size displacement : ℕ) : ℕ → ℕ → (ℕ → Byte) → Except Fault (ℕ → Byte)
  | 0, _, out => .ok out
  | n + 1, o, out => do
    let out ← store size out o (out (o - displacement))
    copyBack size displacement n (o + 1) out

/-- The end of an iteration: the next flag bit, and after eight of them the next flag byte. -/
def fetchFlag (endOfCompressedBuffer : ℕ) (s : Expansion) : Except Fault (Expansion ⊕ Option Expansion) :=
  if (s.flagBit + 1) % 8 = 0 then
    if endOfCompressedBuffer ≤ s.inputPointer then .ok (.inr (some { s with flagBit := 0 }))
    else do
      let flagByte ← fetch B s.inputPointer
      return .inl { s with flagBit := 0, flagByte, inputPointer := s.inputPointer + 1 }
  else .ok (.inl { s with flagBit := s.flagBit + 1 })

/-- A copy token, with the checks of its displacement and its length. -/
def takeCopy (uncompressedBuffer endOfUncompressedBuffer endOfCompressedBuffer : ℕ) (s : Expansion) :
    Except Fault (Expansion ⊕ Option Expansion) :=
  if endOfCompressedBuffer ≤ s.inputPointer + 1 then .ok (.inr none)
  else do
    let token ← retrieveUshort B s.inputPointer
    let displacement := getLznt1Displacement s.format token
    let length := getLznt1Length s.format token
    if s.outputPointer - uncompressedBuffer < displacement then return .inr none
    else
      let length := if endOfUncompressedBuffer ≤ s.outputPointer + length then
        endOfUncompressedBuffer - s.outputPointer else length
      let out ← copyBack endOfUncompressedBuffer displacement length s.outputPointer s.out
      fetchFlag B endOfCompressedBuffer
        { s with out, inputPointer := s.inputPointer + 2, outputPointer := s.outputPointer + length }

/-- An iteration of the loop; `none` is a bad buffer. -/
def expandBody (uncompressedBuffer endOfUncompressedBuffer endOfCompressedBuffer : ℕ) (s : Expansion) :
    Except Fault (Expansion ⊕ Option Expansion) :=
  if s.outputPointer < endOfUncompressedBuffer ∧ s.inputPointer < endOfCompressedBuffer then do
    let format ← nextFormat (s.outputPointer - uncompressedBuffer) 10 s.format
    if s.flagByte.getLsbD s.flagBit then
      takeCopy B uncompressedBuffer endOfUncompressedBuffer endOfCompressedBuffer { s with format }
    else
      let b ← fetch B s.inputPointer
      let out ← store endOfUncompressedBuffer s.out s.outputPointer b
      fetchFlag B endOfCompressedBuffer
        { s with format, out, inputPointer := s.inputPointer + 1, outputPointer := s.outputPointer + 1 }
  else .ok (.inr (some s))

/-- `LZNT1DecompressChunk`: the size of the chunk and the output, or `none` for a bad buffer. -/
def lznt1DecompressChunk (uncompressedBuffer endOfUncompressedBuffer compressedBuffer endOfCompressedBuffer : ℕ)
    (out : ℕ → Byte) : Except Fault (Option (ℕ × (ℕ → Byte))) := do
  let flagByte ← fetch B (compressedBuffer + 2)
  let r ← loop .fuel (expandBody B uncompressedBuffer endOfUncompressedBuffer endOfCompressedBuffer)
    (endOfCompressedBuffer - compressedBuffer + 1) ⟨uncompressedBuffer, compressedBuffer + 3, flagByte, 0, 0, out⟩
  return r.map fun s => (s.outputPointer - uncompressedBuffer, s.out)

/-! ### Decompressing a buffer -/

/-- The variables of `RtlDecompressBufferLZNT1`. -/
structure Inflation where
  compressedChunk : ℕ
  header : ℕ
  uncompressedChunk : ℕ
  out : ℕ → Byte

/-- A chunk that ends at `next`: its size and the output, or `none` for a bad buffer. -/
def inflateChunk (size next : ℕ) (s : Inflation) : Except Fault (Option (ℕ × (ℕ → Byte))) :=
  if 32768 ≤ s.header then lznt1DecompressChunk B s.uncompressedChunk size s.compressedChunk next s.out
  else do
    let n := min 4096 (size - s.uncompressedChunk)
    let out ← copyMemory B size n s.uncompressedChunk (s.compressedChunk + 2) s.out
    return some (n, out)

/-- An iteration of the loop. A chunk of fewer than 4096 bytes is filled up with zeros if another follows. -/
def inflateBody (size : ℕ) (s : Inflation) : Except Fault (Inflation ⊕ Option (ℕ × (ℕ → Byte))) :=
  let next := s.compressedChunk + (s.header % 4096 + 3)
  if B.size < next then .ok (.inr none)
  else do
    match ← inflateChunk B size next s with
    | none => return .inr none
    | some (n, out) =>
      let current := s.uncompressedChunk + n
      if current = size ∨ B.size < next + 2 then return .inr (some (current, out))
      else
        let header ← retrieveUshort B next
        if header = 0 ∨ n < 4096 ∧ size ≤ s.uncompressedChunk + 4096 then return .inr (some (current, out))
        else
          let out ← copyMemory ⟨4096, 0⟩ size (4096 - n) current 0 out
          return .inl ⟨next, header, max current (s.uncompressedChunk + 4096), out⟩

/-- `RtlDecompressBufferLZNT1`: the size and the output, or `none` for a bad buffer. -/
def rtlDecompressBufferLznt1 (size : ℕ) (out : ℕ → Byte) : Except Fault (Option (ℕ × (ℕ → Byte))) := do
  let header ← retrieveUshort B 0
  loop .fuel (inflateBody B size) (B.size + 1) ⟨0, header, 0, out⟩

/-! ### Decompressing a fragment -/

/-- What a decompression leaves. -/
structure Decompressed where
  status : Status
  size : ℕ
  out : ℕ → Byte

/-- The variables of `RtlDecompressFragmentLZNT1`. -/
structure Extraction where
  compressedChunk : ℕ
  header : ℕ
  fragmentOffset : ℕ
  currentUncompressedFragment : ℕ
  uncompressedFragmentSize : ℕ
  out : ℕ → Byte
  work : ℕ → Byte

/-- `GetCompressedChunkSize` of the header, and the chunk after. -/
def Extraction.nextChunk (s : Extraction) : ℕ := s.compressedChunk + (s.header % 4096 + 3)

/-- An iteration of the loop that skips chunks: it ends with a result, or where the fragment begins. -/
def skipBody (s : Extraction) : Except Fault (Extraction ⊕ (Decompressed ⊕ Extraction)) :=
  if 4096 ≤ s.fragmentOffset then
    if B.size < s.nextChunk then .ok (.inr (.inl ⟨.badCompressionBuffer, s.compressedChunk, s.out⟩))
    else do
      let header ← retrieveUshort B s.nextChunk
      if header = 0 then return .inr (.inl ⟨.success, 0, s.out⟩)
      else return .inl { s with fragmentOffset := s.fragmentOffset - 4096, compressedChunk := s.nextChunk, header }
  else .ok (.inr (.inr s))

/-- The part of a chunk that is in the fragment: its size, the fragment and the work space, or `none` for a bad buffer. The
work space has 65536 bytes. -/
def extractChunk (endOfFragment : ℕ) (s : Extraction) : Except Fault (Option (ℕ × (ℕ → Byte) × (ℕ → Byte))) :=
  let copySize := min (4096 - s.fragmentOffset) s.uncompressedFragmentSize
  if 32768 ≤ s.header then
    if s.fragmentOffset = 0 ∧ copySize = 4096 then do
      let r ← lznt1DecompressChunk B s.currentUncompressedFragment endOfFragment s.compressedChunk s.nextChunk s.out
      return r.map fun (n, out) => (n, out, s.work)
    else do
      match ← lznt1DecompressChunk B 0 65536 s.compressedChunk s.nextChunk s.work with
      | none => return none
      | some (_, work) =>
        let out ← copyMemory ⟨65536, work⟩ endOfFragment copySize s.currentUncompressedFragment s.fragmentOffset s.out
        return some (copySize, out, work)
  else do
    let out ← copyMemory B endOfFragment copySize s.currentUncompressedFragment (s.compressedChunk + 2 + s.fragmentOffset) s.out
    return some (copySize, out, s.work)

/-- An iteration of the loop that extracts the fragment. -/
def extractBody (endOfFragment : ℕ) (s : Extraction) : Except Fault (Extraction ⊕ Decompressed) :=
  if B.size < s.nextChunk then .ok (.inr ⟨.badCompressionBuffer, s.compressedChunk, s.out⟩)
  else do
    match ← extractChunk B endOfFragment s with
    | none => return .inr ⟨.badCompressionBuffer, s.compressedChunk, s.out⟩
    | some (copySize, out, work) =>
      let current := s.currentUncompressedFragment + copySize
      if s.uncompressedFragmentSize - copySize = 0 then return .inr ⟨.success, current, out⟩
      else
        let header ← retrieveUshort B s.nextChunk
        if header = 0 then return .inr ⟨.success, current, out⟩
        else return .inl ⟨s.nextChunk, header, 0, current, s.uncompressedFragmentSize - copySize, out, work⟩

/-- `RtlDecompressFragmentLZNT1`. -/
def rtlDecompressFragmentLznt1 (fragmentOffset fragmentSize : ℕ) (out work : ℕ → Byte) : Except Fault Decompressed := do
  let header ← retrieveUshort B 0
  match ← loop .fuel (skipBody B) (B.size + 1) ⟨0, header, fragmentOffset, 0, fragmentSize, out, work⟩ with
  | .inl r => return r
  | .inr s => loop .fuel (extractBody B fragmentSize) (B.size + 1) s

end Nt365.Rtl.Lznt1
