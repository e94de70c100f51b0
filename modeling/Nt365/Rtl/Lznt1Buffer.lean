import Nt365.Rtl.Lznt1Compress

/-!
# Compressing a buffer

`RtlCompressBufferLZNT1` compresses chunk after chunk. A chunk that has no room as it is compressed is copied, 4096 bytes of
it, also where the input has fewer.
-/

namespace Nt365.Rtl.Lznt1

open Nt365.Library

section Blocked

variable {c : Call} {chunk stop dest : ℕ}

/-- Zeros always have room: there are at most three literals. -/
theorem Blocked.not_zeros (h : Blocked c chunk stop dest) (hend : stop ≤ chunk + 4096)
    (hroom : dest + 4098 ≤ c.compressedBufferSize) : ¬Zeros c.source chunk stop := by
  obtain ⟨is, n, hcoded, hn, hzeros, hbig, -⟩ := h
  intro hz
  have h3 := hzeros hz
  have hsizes := hcoded.sizes
  omega

end Blocked

theorem zeros_split {B : Buffer} {chunk n : ℕ} :
    Zeros B chunk n ↔ Zeros B chunk (min (chunk + 4096) n) ∧ Zeros B (chunk + 4096) n := by
  refine ⟨fun h => ⟨fun p h1 h2 => h p h1 (by omega), fun p h1 h2 => h p (by omega) h2⟩, fun ⟨h, h'⟩ p h1 h2 => ?_⟩
  by_cases hp : p < chunk + 4096
  · exact h p h1 (by omega)
  · exact h' p (by omega) h2

/-! ### What is written -/

/-- A chunk as it is written, and its size. -/
inductive ChunkAt (B : Buffer) (mem : ℕ → Byte) (chunk stop pos : ℕ) : ℕ → Prop
  | packed {is : List Item} {bs : List Byte} (hcoded : Coded B chunk stop is (stop - chunk)) (hpayload : Payload is bs)
      (hle : bs.length ≤ 4096) (hheader : Laid mem pos (ushort (chunkHeader (bs.length + 2) true)))
      (hlaid : Laid mem (pos + 2) bs) : ChunkAt B mem chunk stop pos (bs.length + 2)
  | stored (hheader : Laid mem pos (ushort (chunkHeader 4098 false)))
      (hlaid : ∀ k < 4096, mem (pos + 2 + k) = B.byte (chunk + k)) : ChunkAt B mem chunk stop pos 4098

/-- The chunks of an input of `n` bytes from `chunk` on, and the ending header where it had room. -/
inductive Stream (B : Buffer) (n : ℕ) (D : Buffer) : ℕ → ℕ → Prop
  | done {chunk pos : ℕ} (hn : n ≤ chunk) (hend : pos = D.size ∨ pos + 2 = D.size ∧ Laid D.byte pos (ushort 0)) :
      Stream B n D chunk pos
  | chunk {chunk pos size : ℕ} (hlt : chunk < n) (h : ChunkAt B D.byte chunk (min (chunk + 4096) n) pos size)
      (rest : Stream B n D (chunk + 4096) (pos + size)) : Stream B n D chunk pos

/-- A chunk stays as it is written, if what is written after it leaves it. -/
theorem Outcome.chunkAt {c : Call} {chunk stop dest : ℕ} {before mem : ℕ → Byte} {r : Compressed}
    (h : Outcome c chunk stop dest before (.ok r)) (hstatus : r.status ≠ .bufferTooSmall)
    (hmem : ∀ i < dest + r.size, mem i = r.out i) :
    ChunkAt c.source mem chunk stop dest r.size ∧ ∀ i < dest, mem i = before i := by
  cases h with
  | packed hcoded hpayload hsize hle _ hheader hlaid hframe =>
    rw [hsize] at hheader hmem ⊢
    exact ⟨.packed hcoded hpayload (by omega) (hheader.congr fun i _ (hi : i < dest + 2) => hmem i (by omega))
      (hlaid.congr fun i _ hi => hmem i (by omega)), fun i hi => (hmem i (by omega)).trans (hframe i hi)⟩
  | stored _ _ hsize _ hheader hlaid hframe =>
    rw [hsize] at hmem ⊢
    exact ⟨.stored (hheader.congr fun i _ (hi : i < dest + 2) => hmem i (by omega))
      fun k hk => (hmem _ (by omega)).trans (hlaid k hk), fun i hi => (hmem i (by omega)).trans (hframe i hi)⟩
  | tooSmall _ _ hsmall => exact absurd hsmall hstatus

/-- What the loop over the chunks leaves, from a chunk on. -/
structure Streamed (c : Call) (chunk pos : ℕ) (allZero : Bool) (before : ℕ → Byte) (r : Compressed) : Prop where
  zeros : r.status = .bufferAllZeros ↔ allZero = true ∧ Zeros c.source chunk c.uncompressedBufferSize
  stream : Stream c.source c.uncompressedBufferSize ⟨r.size, r.out⟩ chunk pos
  frame : ∀ i < pos, r.out i = before i

section Loop

variable {c : Call} {chunk : ℕ} (fuel pos : ℕ) (allZero : Bool) (out : ℕ → Byte) (work : WorkSpace)

/-- After the last chunk comes the ending header, where it has room. -/
theorem compressLoop_done (h : c.uncompressedBufferSize ≤ chunk) :
    ∃ size out', compressLoop c (fuel + 1) chunk pos allZero out work =
        .ok ⟨if allZero then .bufferAllZeros else .success, size, out', work⟩ ∧
      (pos = size ∨ pos + 2 = size ∧ Laid out' pos (ushort 0)) ∧
        ∀ i < pos, out' i = out i := by
  rw [compressLoop, if_neg (Nat.not_lt.2 h)]
  by_cases hroom : pos + 2 ≤ c.compressedBufferSize
  · obtain ⟨out', hstore, hlaid, hsame⟩ := storeUshort_spec (show pos + 1 < c.compressedBufferSize by omega) out 0
    exact ⟨_, out', by rw [if_pos hroom, hstore]; rfl, .inr ⟨rfl, hlaid⟩, fun i hi => hsame i (.inl hi)⟩
  · exact ⟨_, out, if_neg hroom, .inl rfl, fun _ _ => rfl⟩

/-- **A step of the loop**: a chunk that is to be copied is not all in memory, or there is no room, or the loop goes on. -/
theorem compressLoop_chunk (hsize : c.uncompressedBufferSize ≤ c.source.size)
    (hwork : max 18 (rtlCompressWorkSpaceSize c.engine) ≤ c.workSpaceSize) (hlt : chunk < c.uncompressedBufferSize) :
    ∃ x, compressLoop c (fuel + 1) chunk pos allZero out work = x ∧
      (x = .error .outside ∧ Blocked c chunk (min (chunk + 4096) c.uncompressedBufferSize) pos ∧
          pos + 4098 ≤ c.compressedBufferSize ∧ c.source.size < chunk + 4096 ∨
        ∃ r, Outcome c chunk (min (chunk + 4096) c.uncompressedBufferSize) pos out (.ok r) ∧
          if r.status = .bufferTooSmall then x = .ok r ∧ c.compressedBufferSize < pos + 4098
          else x = compressLoop c fuel (chunk + 4096) (pos + r.size)
            (allZero && decide (r.status = .bufferAllZeros)) r.out r.work) := by
  have hspec := lznt1CompressChunk_spec pos (show chunk < min (chunk + 4096) c.uncompressedBufferSize by omega)
    rfl ⟨by omega, by omega, hwork⟩ out work
  refine ⟨_, rfl, ?_⟩
  rw [compressLoop, if_pos hlt]
  cases hr : lznt1CompressChunk c chunk pos out work with
  | error e =>
    rw [hr] at hspec
    cases hspec with
    | outside hblocked hroom hread => exact .inl ⟨rfl, hblocked, hroom, Nat.lt_of_not_le hread⟩
  | ok r =>
    rw [hr] at hspec
    refine .inr ⟨r, hspec, ?_⟩
    rw [ok_bind]
    split_ifs with hsmall
    · cases hspec with
      | packed _ _ _ _ _ _ _ _ hstatus => obtain ⟨-, hstatus⟩ | ⟨-, hstatus⟩ := hstatus <;> cases hsmall.symm.trans hstatus
      | stored _ _ _ _ _ _ _ hstatus => cases hsmall.symm.trans hstatus
      | tooSmall _ hroom => exact ⟨rfl, Nat.lt_of_not_le hroom⟩
    · rfl

end Loop

/-- **The loop over the chunks** ends with all of them written, unless it has to copy one that is not in memory or the
room is too small. -/
theorem compressLoop_spec (c : Call) (hsize : c.uncompressedBufferSize ≤ c.source.size)
    (hwork : max 18 (rtlCompressWorkSpaceSize c.engine) ≤ c.workSpaceSize) {fuel : ℕ} (chunk pos : ℕ) (allZero : Bool)
    (out : ℕ → Byte) (work : WorkSpace) (hchunk : 4096 ∣ chunk) (hfuel : c.uncompressedBufferSize - chunk < fuel) :
    c.source.size < 4096 * ((c.uncompressedBufferSize + 4095) / 4096) ∧
        compressLoop c fuel chunk pos allZero out work = .error .outside ∨
      ∃ r, compressLoop c fuel chunk pos allZero out work = .ok r ∧
        (r.status = .bufferTooSmall ∧ c.compressedBufferSize < pos +
          4098 * ((c.uncompressedBufferSize - chunk + 4095) / 4096) ∨
          r.status ≠ .bufferTooSmall ∧ Streamed c chunk pos allZero out r) := by
  induction fuel generalizing chunk pos allZero out work with
  | zero => omega
  | succ fuel ih =>
    by_cases hlt : chunk < c.uncompressedBufferSize
    · obtain ⟨x, hx, ⟨rfl, -, -, hread⟩ | ⟨r, hspec, hnext⟩⟩ := compressLoop_chunk fuel pos allZero out work hsize hwork hlt
      · exact .inl ⟨by omega, hx⟩
      split_ifs at hnext with hsmall
      · exact .inr ⟨r, hx.trans hnext.1, .inl ⟨hsmall, by omega⟩⟩
      · have hiff : r.size ≤ 4098 ∧
            (r.status = .bufferAllZeros ↔ Zeros c.source chunk (min (chunk + 4096) c.uncompressedBufferSize)) := by
          cases hspec with
          | packed _ _ _ hle _ _ _ _ hstatus =>
            refine ⟨hle, ?_⟩
            obtain ⟨hz, hstatus⟩ | ⟨hz, hstatus⟩ := hstatus <;> simp [hstatus, hz]
          | stored hblocked _ hsize hroom _ _ _ hstatus =>
            exact ⟨hsize.le, by simp [hstatus, hblocked.not_zeros (Nat.min_le_left ..) hroom]⟩
          | tooSmall _ _ hstatus => exact absurd hstatus hsmall
        rw [hx, hnext]
        obtain h | ⟨r', hr', ⟨hstatus, hroom⟩ | ⟨hstatus, hzeros, hstream, hframe⟩⟩ :=
          ih (chunk + 4096) (pos + r.size) (allZero && decide (r.status = .bufferAllZeros)) r.out r.work
            (Nat.dvd_add_self_right.2 hchunk) (by omega)
        · exact .inl h
        · exact .inr ⟨r', hr', .inl ⟨hstatus, by omega⟩⟩
        · obtain ⟨hat, hbefore⟩ := hspec.chunkAt hsmall hframe
          refine .inr ⟨r', hr', .inr ⟨hstatus, hzeros.trans ?_, .chunk hlt hat hstream, hbefore⟩⟩
          rw [Bool.and_eq_true, decide_eq_true_iff, hiff.2, and_assoc, ← zeros_split]
    · obtain ⟨size, out', hdone, hend, hsame⟩ := compressLoop_done fuel pos allZero out work (Nat.le_of_not_lt hlt)
      rw [hdone]
      have hzeros : Zeros c.source chunk c.uncompressedBufferSize := fun p h1 h2 => by omega
      refine .inr ⟨_, rfl, .inr ⟨?_, ?_, .done (Nat.le_of_not_lt hlt) hend, hsame⟩⟩
      · cases allZero <;> simp
      · cases allZero <;> simp [hzeros]

/-! ### More memory -/

/-- The call with more memory to read and a larger work space. -/
def Call.roomy (c : Call) : Call :=
  { c with source := ⟨c.source.size + c.uncompressedBufferSize + 4096, c.source.byte⟩, workSpaceSize := c.workSpaceSize + 65556 }

section Roomy

variable (c : Call)

theorem fetch_roomy (i : ℕ) : Extends (fetch c.source i) (fetch c.roomy.source i) := by
  refine ⟨fun b h => ?_⟩
  unfold fetch at h
  split_ifs at h with hi
  rw [← h]
  exact fetch_of_lt (Nat.lt_add_right _ (Nat.lt_add_right _ hi))

theorem touch_roomy (i : ℕ) : Extends (c.touch i) (c.roomy.touch i) := by
  refine ⟨fun b h => ?_⟩
  unfold Call.touch at h
  split_ifs at h with hi
  exact Call.touch_of_le (Nat.le_add_right_of_le hi)

theorem entry_roomy (w : WorkSpace) (i : ℕ) : Extends (c.entry w i) (c.roomy.entry w i) := .bind (touch_roomy c _) fun _ => .refl _

theorem search_roomy (w : WorkSpace) (ziv fuel i : ℕ) : Extends (search c w ziv fuel i) (search c.roomy w ziv fuel i) := by
  induction fuel generalizing i with
  | zero => exact .refl _
  | succ fuel ih =>
    refine .bind (entry_roomy c w i) fun e => .ite (.refl _) ?_
    split
    · exact .refl _
    · exact ih _

theorem matchEnd_roomy (last fuel q p : ℕ) : Extends (matchEnd c last fuel q p) (matchEnd c.roomy last fuel q p) := by
  induction fuel generalizing q p with
  | zero => exact .refl _
  | succ fuel ih =>
    exact .ite (.bind (fetch_roomy c _) fun _ => .bind (fetch_roomy c _) fun _ => .ite (ih _ _) (.refl _)) (.refl _)

theorem longestMatch_roomy (w : WorkSpace) (ziv : ℕ) (e : CompressEntry) :
    Extends (longestMatch c w ziv e) (longestMatch c.roomy w ziv e) :=
  .bind (matchEnd_roomy c ..) fun _ => .ite (.bind (matchEnd_roomy c ..) fun _ => .refl _) (.refl _)

theorem fetchZiv_roomy (ziv : ℕ) : Extends (fetchZiv c ziv) (fetchZiv c.roomy ziv) :=
  .bind (fetch_roomy c _) fun _ => .bind (fetch_roomy c _) fun _ => .bind (fetch_roomy c _) fun _ => .refl _

theorem lznt1FindMatchStandard_roomy (ziv : ℕ) (w : WorkSpace) :
    Extends (lznt1FindMatchStandard c ziv w) (lznt1FindMatchStandard c.roomy ziv w) :=
  .bind (touch_roomy c _) fun _ => .bind (fetchZiv_roomy c _) fun _ =>
    .ite (.bind (search_roomy c ..) fun _ => .ite (.bind (longestMatch_roomy c ..) fun _ => .refl _)
      (.bind (entry_roomy c ..) fun _ => .refl _))
      (.bind (entry_roomy c ..) fun _ => .refl _)

theorem matchCount_roomy (w : WorkSpace) (ziv q fuel i : ℕ) :
    Extends (matchCount c w ziv q fuel i) (matchCount c.roomy w ziv q fuel i) := by
  induction fuel generalizing i with
  | zero => exact .refl _
  | succ fuel ih => exact .ite (.bind (fetch_roomy c _) fun _ => .bind (fetch_roomy c _) fun _ => .ite (ih _) (.refl _)) (.refl _)

theorem bestMatch_roomy (w : WorkSpace) (ziv n q : ℕ) (best : ℕ × ℕ) :
    Extends (bestMatch c w ziv n q best) (bestMatch c.roomy w ziv n q best) := by
  induction n generalizing q best with
  | zero => exact .refl _
  | succ n ih => exact .bind (matchCount_roomy c ..) fun _ => ih _ _

theorem findMatch_roomy (ziv : ℕ) (w : WorkSpace) : Extends (findMatch c ziv w) (findMatch c.roomy ziv w) := by
  rw [findMatch, findMatch, show c.roomy.engine = c.engine from rfl]
  cases c.engine with
  | standard => exact lznt1FindMatchStandard_roomy c ziv w
  | maximum => exact .bind (touch_roomy c _) fun _ => .bind (bestMatch_roomy c ..) fun _ => .refl _

theorem chunkBody_roomy (chunk stop endOfChunk : ℕ) (s : Pass) :
    Extends (chunkBody c chunk stop endOfChunk s) (chunkBody c.roomy chunk stop endOfChunk s) :=
  .ite (.bind (.refl _) fun _ => .bind (.ite (findMatch_roomy c ..) (.refl _)) fun _ =>
    .ite (.ite (.refl _) (.bind (fetch_roomy c _) fun _ => .refl _)) (.refl _)) (.refl _)

theorem copyMemory_roomy (size n target place : ℕ) (out : ℕ → Byte) :
    Extends (copyMemory c.source size n target place out) (copyMemory c.roomy.source size n target place out) := by
  induction n generalizing target place out with
  | zero => exact .refl _
  | succ n ih => exact .bind (fetch_roomy c _) fun _ => .bind (.refl _) fun _ => ih _ _ _

theorem lznt1CompressChunk_roomy (chunk dest : ℕ) (out : ℕ → Byte) (work : WorkSpace) :
    Extends (lznt1CompressChunk c chunk dest out work) (lznt1CompressChunk c.roomy chunk dest out work) :=
  .bind (touch_roomy c _) fun _ => .bind (.loop (chunkBody_roomy c _ _ _) ..) fun _ =>
    .ite (.ite (.bind (copyMemory_roomy c ..) fun _ => .refl _) (.refl _)) (.refl _)

theorem compressLoop_roomy (fuel chunk pos : ℕ) (allZero : Bool) (out : ℕ → Byte) (work : WorkSpace) :
    Extends (compressLoop c fuel chunk pos allZero out work)
    (compressLoop c.roomy fuel chunk pos allZero out work) := by
  induction fuel generalizing chunk pos allZero out work with
  | zero => exact .refl _
  | succ fuel ih => exact .ite (.bind (lznt1CompressChunk_roomy c ..) fun _ => .ite (.refl _) (ih ..)) (.refl _)

end Roomy

/-- A call that returns has written all of the chunks, unless the compressed buffer was too small. -/
theorem streamed_of_eq_ok {c : Call} {out : ℕ → Byte} {work : WorkSpace} {r : Compressed}
    (hr : rtlCompressBufferLznt1 c out work = .ok r) (hstatus : r.status ≠ .bufferTooSmall) : Streamed c.roomy 0 0 true out r := by
  have hwork : max 18 (rtlCompressWorkSpaceSize c.engine) ≤ 65556 := by cases c.engine <;> decide
  have hr' : rtlCompressBufferLznt1 c.roomy out work = .ok r := (compressLoop_roomy c ..).eq_ok r hr
  obtain ⟨hsize, -⟩ | ⟨r', hr'', hor⟩ := compressLoop_spec c.roomy (by dsimp only [Call.roomy]; omega)
    (hwork.trans (Nat.le_add_left ..)) 0 0 true
    out work (dvd_zero _) (Nat.lt_succ_self _)
  · dsimp only [Call.roomy] at hsize
    omega
  · cases hr'.symm.trans hr''
    exact (hor.resolve_left fun h => hstatus h.1).2

/-- A call returns where the memory of the chunks and of the work space is there, and with 4098 bytes for each chunk the
room is enough. -/
theorem exists_eq_ok (c : Call) (out : ℕ → Byte) (work : WorkSpace)
    (hsize : 4096 * ((c.uncompressedBufferSize + 4095) / 4096) ≤ c.source.size)
    (hwork : max 18 (rtlCompressWorkSpaceSize c.engine) ≤ c.workSpaceSize) : ∃ r, rtlCompressBufferLznt1 c out work = .ok r ∧
      (4098 * ((c.uncompressedBufferSize + 4095) / 4096) ≤ c.compressedBufferSize → r.status ≠ .bufferTooSmall) := by
  obtain ⟨h, -⟩ | ⟨r, hr, hor⟩ := compressLoop_spec c (by omega) hwork 0 0 true out work (dvd_zero _) (Nat.lt_succ_self _)
  · omega
  · exact ⟨r, hr, fun h => hor.elim (fun h => by omega) And.left⟩

/-- A work space of zeros. -/
def blankWorkSpace : WorkSpace := ⟨0, 0, 0, 0, 0, fun _ => ⟨0, 0, 0, none, none⟩⟩

/-- **All zeros**: a call that returns and had room returns `STATUS_BUFFER_ALL_ZEROS` exactly for zeros. It returns where
the memory of the chunks and of the work space is there. -/
theorem rtlCompressBufferLznt1_allZeros (c : Call) (out : ℕ → Byte) (work : WorkSpace) :
    (∀ r, rtlCompressBufferLznt1 c out work = .ok r → r.status ≠ .bufferTooSmall →
      (r.status = .bufferAllZeros ↔ ∀ i < c.uncompressedBufferSize, c.source.byte i = 0)) ∧
    (4096 * ((c.uncompressedBufferSize + 4095) / 4096) ≤ c.source.size →
      max 18 (rtlCompressWorkSpaceSize c.engine) ≤ c.workSpaceSize →
      ∃ r, rtlCompressBufferLznt1 c out work = .ok r) := by
  refine ⟨fun r hr hstatus => ?_, fun hsize hwork => ?_⟩
  · exact (streamed_of_eq_ok hr hstatus).zeros.trans ⟨fun h i hi => h.2 i (Nat.zero_le i) hi, fun h => ⟨rfl, fun p _ hp => h p hp⟩⟩
  · obtain ⟨r, hr, -⟩ := exists_eq_ok c out work hsize hwork
    exact ⟨r, hr⟩

/-- Two chunks of zeros, with room for both and just the work space that is written. -/
theorem rtlCompressBufferLznt1_allZeros_chunks :
    ∃ r, rtlCompressBufferLznt1 ⟨.maximum, ⟨8192, 0⟩, 5000, 9000, 18⟩ 0 blankWorkSpace = .ok r ∧ r.status = .bufferAllZeros := by
  obtain ⟨r, hr, hroom⟩ := exists_eq_ok ⟨.maximum, ⟨8192, 0⟩, 5000, 9000, 18⟩ 0 blankWorkSpace (by decide) (by decide)
  exact ⟨r, hr, ((rtlCompressBufferLznt1_allZeros _ 0 blankWorkSpace).1 r hr (hroom (by decide))).2 fun _ _ => rfl⟩

/-! ### Literals only -/

/-- An offset in a chunk written in two digits, the second one marked. -/
def digit (i : ℕ) : ℕ := if i % 2 = 0 then i / 2 / 64 else 64 + i / 2 % 64

theorem digit_lt {i : ℕ} (h : i < 4096) : digit i < 256 := by
  unfold digit
  split_ifs <;> omega

theorem digit_injective {i j : ℕ} (hi : i < 4096) (hj : j < 4096) (h0 : digit i = digit j) (h1 : digit (i + 1) = digit (j + 1))
    (h2 : digit (i + 2) = digit (j + 2)) : i = j := by
  unfold digit at h0 h1 h2
  split_ifs at h0 h1 h2 <;> omega

/-- Bytes of which no three in a row come twice. -/
def incompressible (p : ℕ) : Byte := BitVec.ofNat 8 (digit p)

/-- If no three bytes come twice, each item is a literal. -/
theorem tokens_of_injective {B : Buffer} {chunk stop : ℕ}
    (h : ∀ p q, chunk ≤ p → p < q → q + 3 ≤ stop → zivAt B p ≠ zivAt B q) (fuel : ℕ) {p : ℕ} {starts : List ℕ}
    (hfuel : stop ≤ p + fuel) (hstarts : ∀ q ∈ starts, chunk ≤ q ∧ q < p) (hchunk : chunk ≤ p) :
    tokens B chunk stop fuel p starts = List.replicate (stop - p) false := by
  induction fuel generalizing p starts with
  | zero => rw [tokens, show stop - p = 0 by omega, List.replicate_zero]
  | succ fuel ih =>
    rw [tokens]
    split_ifs with h3
    · have hnil : positions B (zivAt B p) starts = [] := by
        refine List.filter_eq_nil_iff.2 fun q hq hz => ?_
        exact h q p (hstarts q hq).1 (hstarts q hq).2 h3 (of_decide_eq_true hz)
      rw [greedyLength, hnil, show stop - p = stop - (p + 1) + 1 by omega, List.replicate_succ]
      exact congrArg _ (ih (by omega) (mem_starts hchunk hstarts) (by omega))
    · rfl

theorem zivAt_incompressible {size p q : ℕ} (hlt : p < q) (hq : q + 3 ≤ 4096) :
    zivAt ⟨size, incompressible⟩ p ≠ zivAt ⟨size, incompressible⟩ q := by
  intro h
  have hdigit (d : ℕ) (hd : d < 3) : digit (p + d) = digit (q + d) := by
    have h := congrArg BitVec.toNat (byte_eq_of_zivAt_eq h hd)
    simp only [incompressible, BitVec.toNat_ofNat] at h
    rwa [Nat.mod_eq_of_lt (digit_lt (by omega)), Nat.mod_eq_of_lt (digit_lt (by omega))] at h
  have := digit_injective (by omega) (by omega) (hdigit 0 (by omega)) (hdigit 1 (by omega)) (hdigit 2 (by omega))
  omega

/-! ### Outside the buffers -/

/-- A call with buffers of exactly the sizes that it is told. -/
def exactCall (engine : Engine) (n compressedBufferSize : ℕ) (byte : ℕ → Byte) : Call :=
  ⟨engine, ⟨n, byte⟩, n, compressedBufferSize, rtlCompressWorkSpaceSize engine⟩

/-- The other engine writes to the work space past its end. -/
theorem rtlCompressBufferLznt1_maximum {n : ℕ} (hn : 1 ≤ n) (compressedBufferSize : ℕ) (byte : ℕ → Byte) (out : ℕ → Byte)
    (work : WorkSpace) : rtlCompressBufferLznt1 (exactCall .maximum n compressedBufferSize byte) out work = .error .outside := by
  rw [rtlCompressBufferLznt1, compressLoop, if_pos
    (show 0 < (exactCall .maximum n compressedBufferSize byte).uncompressedBufferSize from hn)]
  rfl

/-- The bytes that full chunks take, where they have room. -/
def chunksSize (B : Buffer) : ℕ → ℕ
  | 0 => 0
  | k + 1 => chunksSize B k + 2 + min 4096 (writtenSize (chunkTokens B (4096 * k) (4096 * k + 4096)))

theorem chunksSize_mono (B : Buffer) : Monotone (chunksSize B) :=
  monotone_nat_of_le_succ fun k => by rw [chunksSize]; omega

/-- The last chunk is short, its items and flags take more than 4096 bytes, and 4098 bytes are left for it. -/
def Overreads (B : Buffer) (n compressedBufferSize : ℕ) : Prop :=
  n % 4096 ≠ 0 ∧ 4096 < codedSize (chunkTokens B (4096 * (n / 4096)) n) ∧ chunksSize B (n / 4096) + 4098 ≤ compressedBufferSize

theorem codedSize_le_writtenSize (ts : List Bool) : codedSize ts ≤ writtenSize ts := by
  unfold codedSize writtenSize
  omega

/-- The loop goes outside the buffers at the last chunk only, where it copies 4096 bytes. -/
theorem compressLoop_ok_iff {c : Call} {n : ℕ} (hc : c = exactCall .standard n c.compressedBufferSize c.source.byte)
    {k fuel pos : ℕ} (hk : k ≤ n / 4096) (hfuel : n / 4096 + 1 < k + fuel)
    (hplace : pos = chunksSize c.source k ∨
      c.compressedBufferSize < pos + 4098 ∧ c.compressedBufferSize < chunksSize c.source (n / 4096) + 4098)
    (allZero : Bool) (out : ℕ → Byte) (work : WorkSpace) :
    (∃ r, compressLoop c fuel (4096 * k) pos allZero out work = .ok r) ↔
      ¬Overreads c.source n c.compressedBufferSize := by
  have hengine : c.engine = .standard := by rw [hc]; rfl
  have hn : c.uncompressedBufferSize = n := by rw [hc]; rfl
  have hsize : c.source.size = n := by rw [hc]; rfl
  have hwork : max 18 (rtlCompressWorkSpaceSize c.engine) ≤ c.workSpaceSize := by rw [hc]; exact le_rfl
  induction fuel generalizing k pos allZero out work with
  | zero => omega
  | succ fuel ih =>
    have hmono := chunksSize_mono c.source hk
    by_cases hlt : 4096 * k < c.uncompressedBufferSize
    · obtain ⟨x, hx, hstep⟩ := compressLoop_chunk fuel pos allZero out work (by omega) hwork hlt
      rw [hx]
      rw [hn] at hstep
      obtain ⟨rfl, ⟨_, _, -, -, -, -, hbig⟩, hroom, hread⟩ | ⟨r, hspec, hnext⟩ := hstep
      · have := hbig hengine
        obtain rfl : k = n / 4096 := by omega
        rw [show min (4096 * (n / 4096) + 4096) n = n by omega] at this
        exact iff_of_false (fun ⟨_, h⟩ => by cases h) (not_not.2 ⟨by omega, by omega, by omega⟩)
      · split_ifs at hnext with hsmall
        · refine iff_of_true ⟨r, hnext.1⟩ fun h => ?_
          have := h.2.2
          omega
        rw [hnext]
        by_cases hlast : k = n / 4096
        · obtain ⟨fuel, rfl⟩ : ∃ j, fuel = j + 1 := ⟨fuel - 1, by omega⟩
          obtain ⟨_, _, hdone, -⟩ := compressLoop_done fuel (pos + r.size) (allZero && decide (r.status = .bufferAllZeros))
            r.out r.work (show c.uncompressedBufferSize ≤ 4096 * k + 4096 by omega)
          refine iff_of_true ⟨_, hdone⟩ fun h => ?_
          have := h.2.1
          cases hspec with
          | packed _ _ _ _ _ _ _ _ _ hsizes =>
            have := (hsizes hengine).1
            rw [hlast, show min (4096 * (n / 4096) + 4096) n = n by omega] at this
            omega
          | stored _ hread => omega
          | tooSmall _ _ hstatus => exact hsmall hstatus
        · rw [show min (4096 * k + 4096) n = 4096 * k + 4096 by omega] at hspec
          refine ih (k := k + 1) (by omega) (by omega) ?_ _ _ _
          rw [chunksSize]
          cases hspec with
          | packed _ _ _ _ _ _ _ _ _ hsizes =>
            have := (hsizes hengine).2
            omega
          | stored hblocked _ hstored =>
            obtain ⟨_, _, -, -, -, -, hbig⟩ := hblocked
            have := hbig hengine
            have := codedSize_le_writtenSize (chunkTokens c.source (4096 * k) (4096 * k + 4096))
            omega
          | tooSmall _ _ hstatus => exact absurd hstatus hsmall
    · obtain ⟨_, _, hdone, -⟩ := compressLoop_done fuel pos allZero out work (Nat.le_of_not_lt hlt)
      exact iff_of_true ⟨_, hdone⟩ fun h => absurd h.1 (by omega)

/-- **Inside the buffers**: the compression keeps to its buffers, if and only if the engine is the standard one and the last
chunk is not one that is short, does not get smaller and is copied. -/
theorem rtlCompressBufferLznt1_inside_iff (engine : Engine) {n : ℕ} (hn : 1 ≤ n) (compressedBufferSize : ℕ) (byte out : ℕ → Byte)
    (work : WorkSpace) :
    (∃ r, rtlCompressBufferLznt1 (exactCall engine n compressedBufferSize byte) out work = .ok r) ↔
      engine = .standard ∧ ¬Overreads ⟨n, byte⟩ n compressedBufferSize := by
  cases engine with
  | maximum =>
    refine iff_of_false (fun ⟨r, hr⟩ => ?_) fun h => by cases h.1
    rw [rtlCompressBufferLznt1_maximum hn] at hr
    cases hr
  | standard =>
    rw [and_iff_right rfl]
    exact compressLoop_ok_iff (c := exactCall .standard n compressedBufferSize byte) rfl (k := 0) (Nat.zero_le _)
      (show n / 4096 + 1 < 0 + (n + 1) by omega) (.inl rfl) true out work

/-- A full chunk that is copied, and a short one that would be, but for the room. -/
theorem rtlCompressBufferLznt1_inside_iff_copied :
    (∃ r, rtlCompressBufferLznt1 (exactCall .standard 4096 4098 incompressible) 0 blankWorkSpace = .ok r) ∧
      ∃ r, rtlCompressBufferLznt1 (exactCall .standard 3641 4097 incompressible) 0 blankWorkSpace = .ok r :=
  ⟨(rtlCompressBufferLznt1_inside_iff .standard (by decide) 4098 incompressible 0 blankWorkSpace).2 ⟨rfl, fun h => h.1 rfl⟩,
    (rtlCompressBufferLznt1_inside_iff .standard (by decide) 4097 incompressible 0 blankWorkSpace).2
      ⟨rfl, fun h => absurd h.2.2 (by omega)⟩⟩

/-- The other engine with one byte; and 3641 bytes that do not get smaller, with room for a full chunk. -/
theorem rtlCompressBufferLznt1_outside : rtlCompressBufferLznt1 (exactCall .maximum 1 16 0) 0 blankWorkSpace = .error .outside ∧
    ∀ r, rtlCompressBufferLznt1 (exactCall .standard 3641 4098 incompressible) 0 blankWorkSpace ≠ .ok r := by
  refine ⟨rtlCompressBufferLznt1_maximum le_rfl 16 0 0 blankWorkSpace, fun r hr => ?_⟩
  refine (compressLoop_ok_iff (c := exactCall .standard 3641 4098 incompressible) (n := 3641) rfl (k := 0) (Nat.zero_le _)
    (show 3641 / 4096 + 1 < 0 + (3641 + 1) by decide) (.inl rfl) true 0 blankWorkSpace).1 ⟨r, hr⟩ ⟨by decide, ?_, le_rfl⟩
  have hts : chunkTokens ⟨3641, incompressible⟩ 0 3641 = List.replicate 3641 false :=
    tokens_of_injective (fun p q _ hlt hq => zivAt_incompressible hlt (by omega)) 4096 (by decide)
      (fun q hq => (nomatch hq)) le_rfl
  show 4096 < codedSize (chunkTokens ⟨3641, incompressible⟩ 0 3641)
  rw [hts, codedSize, List.length_replicate]
  omega

end Nt365.Rtl.Lznt1
