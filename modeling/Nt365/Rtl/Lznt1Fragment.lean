import Nt365.Rtl.Lznt1Buffer
import Nt365.Rtl.Lznt1Expand

/-!
# Decompressing a buffer and a fragment of it

`RtlDecompressBufferLZNT1` gives back what was compressed (`rtlDecompressBufferLznt1_compressed`).

`RtlDecompressFragmentLZNT1` takes each chunk for 4096 bytes, and it reads the header after the last chunk also where there
was no room for one. So it gives the slice of the input for a fragment that lies in the input, and for some that go past its
end (`rtlDecompressFragmentLznt1_slice_iff`).
-/

namespace Nt365.Rtl.Lznt1

open Nt365.Library

section Stream

variable {B D : Buffer} {chunk stop pos size n m : ℕ}

/-! ### The headers -/

theorem retrieveUshort_header {b : Bool} (h : Laid D.byte pos (ushort (chunkHeader size b))) (h3 : 3 ≤ size) (hle : size ≤ 4098)
    (hsize : pos + size ≤ D.size) : ∃ v, retrieveUshort D pos = .ok v ∧ v ≠ 0 ∧ v % 4096 + 3 = size ∧ (32768 ≤ v ↔ b = true) := by
  have hheader : chunkHeader size b = size - 3 + 12288 + if b then 32768 else 0 := by
    rw [chunkHeader, Nat.mod_eq_of_lt (by omega)]
  refine ⟨_, retrieveUshort_eq h (by omega) ?_, ?_⟩ <;> rw [hheader] <;> cases b <;> simp <;> omega

theorem retrieveUshort_outside (h : D.size ≤ pos) : retrieveUshort D pos = .error .outside := by
  rw [retrieveUshort, fetch, if_neg (by omega)]
  rfl

theorem Payload.length_pos {is : List Item} {bs : List Byte} (h : Payload is bs) (hne : is ≠ []) : 1 ≤ bs.length := by
  have := h.le_length
  have := List.length_pos_of_ne_nil hne
  omega

theorem ChunkAt.header (h : ChunkAt B D.byte chunk stop pos size) (hlt : chunk < stop) (hsize : pos + size ≤ D.size) :
    ∃ v, retrieveUshort D pos = .ok v ∧ v ≠ 0 ∧ v % 4096 + 3 = size := by
  cases h with
  | packed hcoded hpayload hle hheader =>
    have := hpayload.length_pos (hcoded.ne_nil (by omega))
    obtain ⟨v, hv, hne, hmod, -⟩ := retrieveUshort_header hheader (by omega) (by omega) hsize
    exact ⟨v, hv, hne, hmod⟩
  | stored hheader =>
    obtain ⟨v, hv, hne, hmod, -⟩ := retrieveUshort_header hheader (by omega) le_rfl hsize
    exact ⟨v, hv, hne, hmod⟩

theorem Stream.le (h : Stream B n D chunk pos) : pos ≤ D.size := by
  induction h with
  | done _ hend => omega
  | chunk _ _ _ ih => omega

theorem Stream.header (h : Stream B n D chunk pos) (hlt : chunk < n) : ∃ v, retrieveUshort D pos = .ok v ∧ v ≠ 0 := by
  cases h with
  | done hn => omega
  | chunk _ hat hrest =>
    obtain ⟨v, hv, hne, -⟩ := hat.header (by omega) hrest.le
    exact ⟨v, hv, hne⟩

/-- The word at a place. -/
def word (D : Buffer) (i : ℕ) : ℕ := (D.byte i).toNat + 256 * (D.byte (i + 1)).toNat

theorem retrieveUshort_word {v : ℕ} (h : retrieveUshort D pos = .ok v) : v = word D pos := by
  unfold retrieveUshort fetch at h
  split_ifs at h <;> cases h
  rfl

/-- The place after `k` chunks, by the sizes in their headers. -/
def chunkPlace (D : Buffer) (pos : ℕ) : ℕ → ℕ
  | 0 => pos
  | k + 1 => chunkPlace D (pos + (word D pos % 4096 + 3)) k

/-- There is a header after the last chunk of an input of `n` bytes, from a chunk on that is at this place. -/
def Ended (D : Buffer) (n chunk pos : ℕ) : Prop := chunkPlace D pos ((n - chunk + 4095) / 4096) + 2 ≤ D.size

/-- The last chunk is compressed. -/
def LastPacked (D : Buffer) (n chunk pos : ℕ) : Prop := 32768 ≤ word D (chunkPlace D pos ((n - chunk - 1) / 4096))

/-- The fragment lies in the input; or there is a header after the last chunk, and the fragment begins after the last chunk,
or that is full, or it is compressed and all of its 4096 bytes are asked for. -/
def Sound (D : Buffer) (n chunk pos fragmentOffset m : ℕ) : Prop :=
  fragmentOffset + m ≤ n ∨ Ended D n chunk pos ∧ (4096 * ((n - 1) / 4096) + 4096 ≤ fragmentOffset ∨ 4096 ∣ n ∨
    LastPacked D n chunk pos ∧ fragmentOffset ≤ 4096 * ((n - 1) / 4096) ∧ 4096 * ((n - 1) / 4096) + 4096 ≤ fragmentOffset + m)

/-- The chunk after this one. -/
theorem chunkPlace_succ {v : ℕ} (hv : retrieveUshort D pos = .ok v) (hsize : v % 4096 + 3 = size) (k : ℕ) :
    chunkPlace D pos (k + 1) = chunkPlace D (pos + size) k := by
  rw [chunkPlace, ← retrieveUshort_word hv, hsize]

theorem ended_iff_next {v : ℕ} (hv : retrieveUshort D pos = .ok v) (hsize : v % 4096 + 3 = size) (hend : chunk + 4096 < n) :
    (Ended D n (chunk + 4096) (pos + size) ↔ Ended D n chunk pos) ∧
    (LastPacked D n (chunk + 4096) (pos + size) ↔ LastPacked D n chunk pos) := by
  rw [Ended, Ended, LastPacked, LastPacked, show (n - chunk + 4095) / 4096 = (n - (chunk + 4096) + 4095) / 4096 + 1 by omega,
    show (n - chunk - 1) / 4096 = (n - (chunk + 4096) - 1) / 4096 + 1 by omega, chunkPlace_succ hv hsize, chunkPlace_succ hv hsize]
  exact ⟨Iff.rfl, Iff.rfl⟩

theorem ended_iff_last {v : ℕ} (hv : retrieveUshort D pos = .ok v) (hsize : v % 4096 + 3 = size) (hlt : chunk < n)
    (hend : n ≤ chunk + 4096) : Ended D n chunk pos ↔ pos + size + 2 ≤ D.size := by
  rw [Ended, show (n - chunk + 4095) / 4096 = 0 + 1 by omega, chunkPlace_succ hv hsize, chunkPlace]

/-- What comes after the last chunk. -/
theorem Stream.tail (h : Stream B n D chunk pos) (hn : n ≤ chunk) :
    pos + 2 ≤ D.size ∧ retrieveUshort D pos = .ok 0 ∨ ¬pos + 2 ≤ D.size ∧ retrieveUshort D pos = .error .outside := by
  cases h with
  | done _ hend =>
    obtain hend | ⟨hend, hlaid⟩ := hend
    · exact .inr ⟨by omega, retrieveUshort_outside (by omega)⟩
    · exact .inl ⟨by omega, retrieveUshort_eq hlaid (by omega) (by decide)⟩
  | chunk hlt => omega

/-! ### A chunk -/

theorem Restored.append {target k k' : ℕ} {before out out' : ℕ → Byte} (h : Restored B chunk target before k out)
    (h' : Restored B (chunk + k) (target + k) out k' out') : Restored B chunk target before (k + k') out' := by
  refine ⟨fun i hi => ?_, fun j hj => (h'.2 j (by omega)).trans (h.2 j (by omega))⟩
  by_cases hlt : i < k
  · exact (h'.2 _ (by omega)).trans (h.1 i hlt)
  · have := h'.1 (i - k) (by omega)
    rwa [show target + k + (i - k) = target + i by omega, show chunk + k + (i - k) = chunk + i by omega] at this

/-- The extraction is at a chunk, for a fragment of `m` bytes. -/
structure At (D : Buffer) (pos m : ℕ) (s : Extraction) : Prop where
  chunk : s.compressedChunk = pos
  header : retrieveUshort D pos = .ok s.header
  stop : s.currentUncompressedFragment + s.uncompressedFragmentSize = m

theorem At.nextChunk {s : Extraction} (hs : At D pos m s) (h : ChunkAt B D.byte chunk stop pos size) (hlt : chunk < stop)
    (hsize : pos + size ≤ D.size) : s.nextChunk = pos + size := by
  obtain ⟨v, hv, -, hmod⟩ := h.header hlt hsize
  cases hs.header.symm.trans hv
  rw [Extraction.nextChunk, hs.chunk, hmod]

/-- **The part of a chunk** that is in the fragment. It goes to the end of the fragment or to the end of the chunk, or
past that. -/
theorem extractChunk_spec {s : Extraction} (h : ChunkAt B D.byte chunk stop pos size) (hlt : chunk < stop)
    (hend : stop ≤ chunk + 4096) (hsize : pos + size ≤ D.size) (hs : At D pos m s) (hoffset : s.fragmentOffset < 4096) :
    ∃ k out work, extractChunk D m s = .ok (some (k, out, work)) ∧
      k = (if 32768 ≤ s.header ∧ s.fragmentOffset = 0 ∧ 4096 ≤ s.uncompressedFragmentSize then stop - chunk
        else min (4096 - s.fragmentOffset) s.uncompressedFragmentSize) ∧
      (s.fragmentOffset + k ≤ stop - chunk →
        Restored B (chunk + s.fragmentOffset) s.currentUncompressedFragment s.out k out) := by
  have hstop := hs.stop
  have hnext := hs.nextChunk h hlt hsize
  rw [extractChunk, hnext, hs.chunk]
  dsimp only
  generalize hcopySize : min (4096 - s.fragmentOffset) s.uncompressedFragmentSize = copySize
  cases h with
  | @packed is bs hcoded hpayload hle hheader hlaid =>
    have hpos := hpayload.length_pos (hcoded.ne_nil (by omega))
    obtain ⟨v, hv, -, -, hflag⟩ := retrieveUshort_header hheader (by omega) (by omega) hsize
    cases hs.header.symm.trans hv
    rw [if_pos (hflag.2 rfl), show pos + (bs.length + 2) = pos + 2 + bs.length by omega]
    by_cases hwhole : s.fragmentOffset = 0 ∧ copySize = 4096
    · obtain ⟨out, hchunk, hrestored⟩ := lznt1DecompressChunk_spec hcoded hpayload hlaid hlt hend (by omega)
        (show s.currentUncompressedFragment + (stop - chunk) ≤ m by omega) s.out
      rw [if_pos hwhole, hchunk, ok_bind]
      refine ⟨_, out, s.work, rfl, (if_pos ⟨hflag.2 rfl, hwhole.1, by omega⟩).symm, fun _ => ?_⟩
      rwa [hwhole.1]
    · obtain ⟨work, hchunk, hrestored⟩ := lznt1DecompressChunk_spec hcoded hpayload hlaid hlt hend (by omega)
        (show 0 + (stop - chunk) ≤ 65536 by omega) s.work
      obtain ⟨out, hcopy, hbytes, hsame⟩ := copyMemory_spec (B := ⟨65536, work⟩)
        (show s.currentUncompressedFragment + copySize ≤ m by omega)
        (show s.fragmentOffset + copySize ≤ 65536 by omega) s.out
      rw [if_neg hwhole, hchunk, ok_bind]
      dsimp only
      rw [hcopy, ok_bind]
      refine ⟨copySize, out, work, rfl, (if_neg (by omega)).symm, fun hle => ⟨fun i hi => ?_, hsame⟩⟩
      have := hrestored.1 (s.fragmentOffset + i) (by omega)
      rw [hbytes i hi, Nat.add_assoc chunk, ← this, Nat.zero_add]
  | stored hheader hlaid =>
    obtain ⟨v, hv, -, -, hflag⟩ := retrieveUshort_header hheader (by omega) le_rfl hsize
    cases hs.header.symm.trans hv
    obtain ⟨out, hcopy, hbytes, hsame⟩ := copyMemory_spec (B := D) (show s.currentUncompressedFragment + copySize ≤ m by omega)
      (show pos + 2 + s.fragmentOffset + copySize ≤ D.size by omega) s.out
    rw [if_neg (fun h => Bool.false_ne_true (hflag.1 h)), hcopy, ok_bind]
    refine ⟨copySize, out, s.work, rfl, (if_neg fun h => Bool.false_ne_true (hflag.1 h.1)).symm, fun _ => ⟨fun i hi => ?_, hsame⟩⟩
    rw [hbytes i hi, Nat.add_assoc (pos + 2), hlaid _ (by omega), Nat.add_assoc]

/-! ### The loops -/

/-- How far the part of the last chunk goes, against what is left of the input. -/
theorem lastPart {f u j k : ℕ} {p : Prop} [Decidable p] (hchunk : 4096 ∣ chunk) (hlt : chunk < n) (hend : n ≤ chunk + 4096)
    (hf : f < 4096)
    (hu : 0 < u) (hj : j = if p ∧ f = 0 ∧ 4096 ≤ u then n - chunk else min (4096 - f) u) (hk : k = min u (n - (chunk + f))) :
    (j = k → f + j ≤ n - chunk) ∧
    (u - j = 0 → (j = k ↔ chunk + f + u ≤ n) ∧ (¬chunk + f + u ≤ n → ¬(4096 ∣ n ∨ p ∧ f = 0 ∧ 4096 ≤ u))) ∧
    (u - j ≠ 0 → ¬chunk + f + u ≤ n ∧ (j = k ↔ 4096 ∣ n ∨ p ∧ f = 0 ∧ 4096 ≤ u)) := by
  by_cases hwhole : p ∧ f = 0 ∧ 4096 ≤ u
  · rw [if_pos hwhole] at hj
    simp only [hwhole, and_self, or_true, not_true_eq_false, iff_true]
    omega
  · rw [if_neg hwhole] at hj
    simp only [hwhole, or_false]
    omega

/-- **The extraction** gives the bytes of the input, as far as it goes, exactly for what is `Sound`; otherwise the size
is another one. -/
theorem Stream.extract (h : Stream B n D chunk pos) (hlt : chunk < n) (hchunk : 4096 ∣ chunk) {fuel : ℕ} {s : Extraction}
    (hs : At D pos m s)
    (hoffset : s.fragmentOffset < 4096) (hpos : 0 < s.uncompressedFragmentSize) (hfuel : D.size - pos < fuel) {k : ℕ}
    (hk : k = min s.uncompressedFragmentSize (n - (chunk + s.fragmentOffset))) :
    Sound D n chunk pos (chunk + s.fragmentOffset) s.uncompressedFragmentSize ∧
        (∃ d, loop .fuel (extractBody D m) fuel s = .ok d ∧ d.status = .success ∧ d.size = s.currentUncompressedFragment + k ∧
          Restored B (chunk + s.fragmentOffset) s.currentUncompressedFragment s.out k d.out) ∨
      ¬Sound D n chunk pos (chunk + s.fragmentOffset) s.uncompressedFragmentSize ∧
        ∀ d, loop .fuel (extractBody D m) fuel s = .ok d → d.size ≠ s.currentUncompressedFragment + k := by
  induction h generalizing fuel s k with
  | done hn => omega
  | @chunk chunk pos size _ hat rest ih =>
    have hle := rest.le
    have hstop := hs.stop
    obtain ⟨v, hv, -, hsize⟩ := hat.header (by omega) hle
    obtain ⟨j, out, work, hextract, hj, hrestored⟩ := extractChunk_spec hat (by omega) (by omega) hle hs hoffset
    obtain ⟨fuel, rfl⟩ : ∃ k, fuel = k + 1 := ⟨fuel - 1, by omega⟩
    have hbody : extractBody D m s = if s.uncompressedFragmentSize - j = 0 then
      .ok (.inr ⟨.success, s.currentUncompressedFragment + j, out⟩)
        else retrieveUshort D (pos + size) >>= fun header => if header = 0 then
          .ok (.inr ⟨.success, s.currentUncompressedFragment + j, out⟩)
          else .ok (.inl ⟨pos + size, header, 0, s.currentUncompressedFragment + j, s.uncompressedFragmentSize - j, out,
            work⟩) := by
      rw [extractBody, hs.nextChunk hat (by omega) hle, if_neg (by omega), hextract, ok_bind]
      rfl
    have hword : v = s.header := Except.ok.inj (hv.symm.trans hs.header)
    by_cases hend : chunk + 4096 < n
    · replace hj : j = min (4096 - s.fragmentOffset) s.uncompressedFragmentSize := by
        split_ifs at hj <;> omega
      by_cases hrem : s.uncompressedFragmentSize - j = 0
      · rw [if_pos hrem] at hbody
        rw [loop_leave hbody]
        exact .inl ⟨.inl (by omega), _, rfl, rfl, by dsimp only; omega, (show j = k by omega) ▸ hrestored (by omega)⟩
      · obtain ⟨v', hv', hne⟩ := rest.header hend
        rw [if_neg hrem, hv', ok_bind, if_neg hne] at hbody
        have hs' : At D (pos + size) m ⟨pos + size, v', 0, s.currentUncompressedFragment + j, s.uncompressedFragmentSize - j,
          out, work⟩ :=
          ⟨rfl, hv', by dsimp only; omega⟩
        have hsound : Sound D n chunk pos (chunk + s.fragmentOffset) s.uncompressedFragmentSize ↔
            Sound D n (chunk + 4096) (pos + size) (chunk + 4096 + 0) (s.uncompressedFragmentSize - j) := by
          rw [Sound, Sound, (ended_iff_next hv hsize hend).1, (ended_iff_next hv hsize hend).2]
          unfold Ended LastPacked
          omega
        rw [loop_go hbody, hsound, show k = j + (k - j) by omega, ← Nat.add_assoc]
        obtain ⟨hin, d, hd, hstatus, hdsize, hrest⟩ | ⟨hout, hne⟩ :=
          ih hend (Nat.dvd_add_self_right.2 hchunk) hs' (show 0 < 4096 by decide)
          (Nat.pos_of_ne_zero hrem) (show D.size - (pos + size) < fuel by omega) (k := k - j) (by dsimp only; omega)
        · refine .inl ⟨hin, d, hd, hstatus, hdsize, ?_⟩
          rw [show chunk + 4096 + 0 = chunk + s.fragmentOffset + j by omega] at hrest
          exact (hrestored (by omega)).append hrest
        · exact .inr ⟨hout, hne⟩
    · have hended := ended_iff_last hv hsize hlt (Nat.le_of_not_lt hend)
      have hpacked : LastPacked D n chunk pos ↔ 32768 ≤ s.header := by
        rw [LastPacked, show (n - chunk - 1) / 4096 = 0 by omega, chunkPlace, ← retrieveUshort_word hs.header]
      have hsound : Sound D n chunk pos (chunk + s.fragmentOffset) s.uncompressedFragmentSize ↔
          chunk + s.fragmentOffset + s.uncompressedFragmentSize ≤ n ∨ pos + size + 2 ≤ D.size ∧
            (4096 ∣ n ∨ 32768 ≤ s.header ∧ s.fragmentOffset = 0 ∧ 4096 ≤ s.uncompressedFragmentSize) := by
        rw [Sound, hended, hpacked, show 4096 * ((n - 1) / 4096) = chunk by omega]
        omega
      rw [show min (chunk + 4096) n = n by omega] at hj hrestored
      obtain ⟨hsame, hall, hrest⟩ := lastPart hchunk hlt (Nat.le_of_not_lt hend) hoffset hpos hj hk
      by_cases hrem : s.uncompressedFragmentSize - j = 0
      · rw [if_pos hrem] at hbody
        rw [loop_leave hbody, hsound]
        obtain ⟨hiff, hnot⟩ := hall hrem
        by_cases hjk : j = k
        · exact .inl ⟨.inl (hiff.1 hjk), _, rfl, rfl, by rw [hjk], hjk ▸ hrestored (hsame hjk)⟩
        · refine .inr ⟨fun h => hnot (mt hiff.2 hjk) (h.resolve_left (mt hiff.2 hjk)).2, fun d hd => ?_⟩
          cases hd
          exact fun h => hjk (Nat.add_left_cancel h)
      · obtain ⟨hgt, hiff⟩ := hrest hrem
        rw [hsound, or_iff_right hgt]
        obtain ⟨hroom, htail⟩ | ⟨hroom, htail⟩ := rest.tail (Nat.le_of_not_lt hend)
        · rw [if_neg hrem, htail, ok_bind, if_pos rfl] at hbody
          rw [loop_leave hbody, and_iff_right hroom, ← hiff]
          by_cases hjk : j = k
          · exact .inl ⟨hjk, _, rfl, rfl, by rw [hjk], hjk ▸ hrestored (hsame hjk)⟩
          · refine .inr ⟨hjk, fun d hd => ?_⟩
            cases hd
            exact fun h => hjk (Nat.add_left_cancel h)
        · refine .inr ⟨fun h => hroom h.1, fun d hd => ?_⟩
          rw [loop, hbody, if_neg hrem, htail] at hd
          cases hd

/-- **The skipping** ends at the chunk where the fragment begins, or the fragment begins after the last chunk. -/
theorem Stream.skip (h : Stream B n D chunk pos) (hlt : chunk < n) (hchunk : 4096 ∣ chunk) {fuel : ℕ} {s : Extraction}
    (hs : At D pos m s) (hfuel : D.size - pos < fuel) :
    (∃ chunk' pos' s', loop .fuel (skipBody D) fuel s = .ok (.inr s') ∧ Stream B n D chunk' pos' ∧ chunk' < n ∧ 4096 ∣ chunk' ∧
      At D pos' m s' ∧
      s'.fragmentOffset < 4096 ∧ chunk' + s'.fragmentOffset = chunk + s.fragmentOffset ∧
        s'.uncompressedFragmentSize = s.uncompressedFragmentSize ∧
      (Ended D n chunk' pos' ↔ Ended D n chunk pos) ∧ (LastPacked D n chunk' pos' ↔ LastPacked D n chunk pos)) ∨
      4096 * ((n - 1) / 4096) + 4096 ≤ chunk + s.fragmentOffset ∧
        (Ended D n chunk pos ∧ loop .fuel (skipBody D) fuel s = .ok (.inl ⟨.success, 0, s.out⟩) ∨
          ¬Ended D n chunk pos ∧ loop .fuel (skipBody D) fuel s = .error .outside) := by
  induction h generalizing fuel s with
  | done hn => omega
  | @chunk chunk pos size _ hat rest ih =>
    have hle := rest.le
    obtain ⟨v, hv, -, hsize⟩ := hat.header (by omega) hle
    obtain ⟨fuel, rfl⟩ : ∃ k, fuel = k + 1 := ⟨fuel - 1, by omega⟩
    by_cases hoffset : 4096 ≤ s.fragmentOffset
    · have hbody : skipBody D s = retrieveUshort D (pos + size) >>= fun header =>
        if header = 0 then .ok (.inr (.inl ⟨.success, 0, s.out⟩))
          else .ok (.inl { s with fragmentOffset := s.fragmentOffset - 4096, compressedChunk := pos + size, header }) := by
        rw [skipBody, if_pos hoffset, hs.nextChunk hat (by omega) hle, if_neg (by omega)]
        rfl
      by_cases hend : chunk + 4096 < n
      · obtain ⟨v', hv', hne⟩ := rest.header hend
        obtain ⟨hended, hpacked⟩ := ended_iff_next hv hsize hend
        rw [hv', ok_bind, if_neg hne] at hbody
        rw [loop_go hbody, ← hended, ← hpacked]
        have hs' : At D (pos + size) m
            { s with fragmentOffset := s.fragmentOffset - 4096, compressedChunk := pos + size, header := v' } :=
          ⟨rfl, hv', hs.stop⟩
        have hsum : chunk + 4096 + (s.fragmentOffset - 4096) = chunk + s.fragmentOffset := by omega
        exact hsum ▸ ih hend (Nat.dvd_add_self_right.2 hchunk) hs' (show D.size - (pos + size) < fuel by omega)
      · refine .inr ⟨by omega, ?_⟩
        rw [ended_iff_last hv hsize hlt (Nat.le_of_not_lt hend)]
        obtain ⟨hroom, htail⟩ | ⟨hroom, htail⟩ := rest.tail (Nat.le_of_not_lt hend)
        · rw [htail, ok_bind, if_pos rfl] at hbody
          exact .inl ⟨hroom, loop_leave hbody⟩
        · rw [htail] at hbody
          exact .inr ⟨hroom, by rw [loop, hbody]; rfl⟩
    · exact .inl ⟨chunk, pos, s, loop_leave (by rw [skipBody, if_neg hoffset]), .chunk hlt hat rest, hlt, hchunk,
        hs, by omega, rfl, rfl, Iff.rfl, Iff.rfl⟩

/-- The result of a decompression is the slice of the input from an offset on, as far as the `m` bytes and the input go. -/
def Sliced (B : Buffer) (n fragmentOffset m : ℕ) : Except Fault Decompressed → Prop
  | .ok d => d.status = .success ∧ d.size = min m (n - fragmentOffset) ∧ ∀ i < d.size, d.out i = B.byte (fragmentOffset + i)
  | .error _ => False

/-- **A fragment** of the chunks is the slice of the input exactly if it is `Sound`. -/
theorem Stream.fragment (h : Stream B n D 0 0) (hn : 1 ≤ n) (hm : 1 ≤ m) (fragmentOffset : ℕ) (out work : ℕ → Byte) :
    Sliced B n fragmentOffset m (rtlDecompressFragmentLznt1 D fragmentOffset m out work) ↔ Sound D n 0 0 fragmentOffset m := by
  obtain ⟨v, hv, -⟩ := h.header hn
  have hs : At D 0 m ⟨0, v, fragmentOffset, 0, m, out, work⟩ := ⟨rfl, hv, Nat.zero_add m⟩
  rw [rtlDecompressFragmentLznt1, hv, ok_bind]
  obtain ⟨chunk, pos, s, hloop, hstream, hlt, hchunk, hs', hoffset, hplace, hleft, hended, hpacked⟩ | ⟨hpast,
    ⟨hended, hloop⟩ | ⟨hended, hloop⟩⟩ :=
    h.skip hn (dvd_zero _) hs (show D.size - 0 < D.size + 1 by omega)
  · rw [hloop, ok_bind]
    dsimp only at hplace hleft ⊢
    rw [Nat.zero_add] at hplace
    have hstop := hs'.stop
    have hzero : s.currentUncompressedFragment = 0 := by omega
    have hspec := hstream.extract hlt hchunk hs' hoffset (by omega) (show D.size - pos < D.size + 1 by omega) rfl
    rw [Sound, hended, hpacked, hplace, hleft, ← Sound, hzero, Nat.zero_add] at hspec
    obtain ⟨hsound, d, hd, hstatus, hsize, hbytes, -⟩ | ⟨hsound, hne⟩ := hspec
    · refine iff_of_true ?_ hsound
      rw [hd]
      refine ⟨hstatus, hsize, fun i hi => ?_⟩
      have := hbytes i (by omega)
      rwa [Nat.zero_add] at this
    · refine iff_of_false (fun hsliced => ?_) hsound
      cases hr : loop .fuel (extractBody D m) (D.size + 1) s with
      | error e =>
        rw [hr] at hsliced
        exact hsliced
      | ok d =>
        rw [hr] at hsliced
        exact hne d hr hsliced.2.1
  · dsimp only at hpast
    rw [Nat.zero_add] at hpast
    rw [hloop]
    exact iff_of_true ⟨rfl, by dsimp only; omega, fun i hi => absurd hi (Nat.not_lt_zero i)⟩ (.inr ⟨hended, .inl hpast⟩)
  · dsimp only at hpast
    rw [hloop]
    refine iff_of_false id fun hsound => ?_
    obtain h | h := hsound
    · omega
    · exact hended h.1

/-! ### The whole buffer -/

theorem inflateChunk_spec {v : ℕ} (h : ChunkAt B D.byte chunk (min (chunk + 4096) n) pos size) (hlt : chunk < n)
    (hsize : pos + size ≤ D.size) (hv : retrieveUshort D pos = .ok v) (before : ℕ → Byte) :
    v % 4096 + 3 = size ∧ ∃ out, inflateChunk D n (pos + size) ⟨pos, v, chunk, before⟩ = .ok (some (min 4096 (n - chunk), out)) ∧
      Restored B chunk chunk before (min 4096 (n - chunk)) out := by
  have hbytes : min (chunk + 4096) n - chunk = min 4096 (n - chunk) := by omega
  cases h with
  | @packed is bs hcoded hpayload hle hheader hlaid =>
    have hpos := hpayload.length_pos (hcoded.ne_nil (by omega))
    obtain ⟨w, hw, -, hmod, hflag⟩ := retrieveUshort_header hheader (by omega) (by omega) hsize
    cases hv.symm.trans hw
    obtain ⟨out, hchunk, hrestored⟩ := lznt1DecompressChunk_spec hcoded hpayload hlaid (by omega) (by omega) (by omega)
      (show chunk + (min (chunk + 4096) n - chunk) ≤ n by omega) before
    rw [hbytes] at hchunk hrestored
    refine ⟨hmod, out, ?_, hrestored⟩
    rw [inflateChunk, if_pos (hflag.2 rfl), show pos + (bs.length + 2) = pos + 2 + bs.length by omega]
    exact hchunk
  | stored hheader hlaid =>
    obtain ⟨w, hw, -, hmod, hflag⟩ := retrieveUshort_header hheader (by omega) le_rfl hsize
    cases hv.symm.trans hw
    obtain ⟨out, hcopy, hcopied, hsame⟩ := copyMemory_spec (B := D) (show chunk + min 4096 (n - chunk) ≤ n by omega)
      (show pos + 2 + min 4096 (n - chunk) ≤ D.size by omega) before
    refine ⟨hmod, out, ?_, fun i hi => ?_, hsame⟩
    · rw [inflateChunk, if_neg fun h => Bool.false_ne_true (hflag.1 h)]
      dsimp only
      rw [hcopy]
      rfl
    · rw [hcopied i hi, hlaid _ (by omega)]

/-- **The loop** gives the chunks back one by one. -/
theorem Stream.inflate (h : Stream B n D chunk pos) (hlt : chunk < n) {fuel v : ℕ} (hv : retrieveUshort D pos = .ok v)
    (hfuel : D.size - pos < fuel) (before : ℕ → Byte) :
    ∃ out, loop .fuel (inflateBody D n) fuel ⟨pos, v, chunk, before⟩ = .ok (some (n, out)) ∧
      Restored B chunk chunk before (n - chunk) out := by
  induction h generalizing fuel v before with
  | done hn => omega
  | @chunk chunk pos size _ hat rest ih =>
    have hle := rest.le
    obtain ⟨hsize, out, hchunk, hrestored⟩ := inflateChunk_spec hat hlt hle hv before
    obtain ⟨fuel, rfl⟩ : ∃ k, fuel = k + 1 := ⟨fuel - 1, by omega⟩
    have hbody := inflateBody.eq_1 D n ⟨pos, v, chunk, before⟩
    dsimp only at hbody
    rw [hsize, if_neg (by omega), hchunk, ok_bind] at hbody
    dsimp only at hbody
    by_cases hend : n ≤ chunk + 4096
    · rw [if_pos (.inl (by omega)), show chunk + min 4096 (n - chunk) = n by omega] at hbody
      refine ⟨out, loop_leave hbody, ?_⟩
      rwa [show n - chunk = min 4096 (n - chunk) by omega]
    · obtain ⟨w, hw, hne⟩ := rest.header (by omega)
      have hroom : pos + size + 2 ≤ D.size := by
        cases rest with
        | done hn => omega
        | chunk _ hat' rest' =>
          obtain ⟨_, -, -, hsize'⟩ := hat'.header (by omega) rest'.le
          have := rest'.le
          omega
      rw [show min 4096 (n - chunk) = 4096 by omega] at hbody hrestored
      rw [if_neg (by omega), hw, ok_bind, if_neg (by omega), copyMemory, ok_bind, Nat.max_self] at hbody
      obtain ⟨out', hloop, hrest⟩ := ih (by omega) hw (show D.size - (pos + size) < fuel by omega) out
      refine ⟨out', (loop_go hbody).trans hloop, ?_⟩
      have := hrestored.append hrest
      rwa [show 4096 + (n - (chunk + 4096)) = n - chunk by omega] at this

end Stream

/-! ### Fragments -/

/-- **Fragments**: a fragment of what the compression wrote is the slice of the input if and only if it lies in the input;
or the compression had room for the ending header, and the fragment begins after the last chunk, or the last chunk is full,
or it is compressed and the fragment has all of its 4096 bytes. -/
theorem rtlDecompressFragmentLznt1_slice_iff {c : Call} {out : ℕ → Byte} {work : WorkSpace} {r : Compressed} {m : ℕ}
    (hn : 1 ≤ c.uncompressedBufferSize) (hm : 1 ≤ m) (hr : rtlCompressBufferLznt1 c out work = .ok r)
    (hstatus : r.status ≠ .bufferTooSmall) (fragmentOffset : ℕ) (fragment workSpace : ℕ → Byte) :
    Sliced c.source c.uncompressedBufferSize fragmentOffset m
        (rtlDecompressFragmentLznt1 ⟨r.size, r.out⟩ fragmentOffset m fragment workSpace) ↔
      Sound ⟨r.size, r.out⟩ c.uncompressedBufferSize 0 0 fragmentOffset m :=
  (streamed_of_eq_ok hr hstatus).stream.fragment hn hm fragmentOffset fragment workSpace

/-- Two chunks of bytes that recur, with room for both. -/
def recurring : Call := ⟨.standard, ⟨8192, fun p => BitVec.ofNat 8 (p % 7)⟩, 5000, 8196, 65556⟩

theorem exists_recurring : ∃ r, rtlCompressBufferLznt1 recurring 0 blankWorkSpace = .ok r ∧ r.status ≠ .bufferTooSmall := by
  obtain ⟨r, hr, hroom⟩ := exists_eq_ok recurring 0 blankWorkSpace (by decide) (by decide)
  exact ⟨r, hr, hroom (by decide)⟩

/-- The end of the first chunk and the beginning of the second. -/
theorem rtlDecompressFragmentLznt1_slice_iff_across : ∃ r, rtlCompressBufferLznt1 recurring 0 blankWorkSpace = .ok r ∧
    Sliced recurring.source 5000 4000 500 (rtlDecompressFragmentLznt1 ⟨r.size, r.out⟩ 4000 500 0 0) := by
  obtain ⟨r, hr, hstatus⟩ := exists_recurring
  exact ⟨r, hr, (rtlDecompressFragmentLznt1_slice_iff (c := recurring) (by decide) (by decide) hr hstatus 4000 0 0).2
    (.inl (by decide))⟩

/-- Two bytes of an input of one byte: the second is a byte of the work space. -/
theorem rtlDecompressFragmentLznt1_past_input :
    ∃ r, rtlCompressBufferLznt1 ⟨.standard, ⟨4096, 0⟩, 1, 4098, 65556⟩ 0 blankWorkSpace = .ok r ∧
    r.status ≠ .bufferTooSmall ∧ ¬Sliced ⟨4096, 0⟩ 1 0 2 (rtlDecompressFragmentLznt1 ⟨r.size, r.out⟩ 0 2 0 0) := by
  obtain ⟨r, hr, hroom⟩ := exists_eq_ok ⟨.standard, ⟨4096, 0⟩, 1, 4098, 65556⟩ 0 blankWorkSpace (by decide) (by decide)
  have hstatus := hroom (by decide)
  refine ⟨r, hr, hstatus, fun h => ?_⟩
  have hsound : Sound ⟨r.size, r.out⟩ 1 0 0 0 2 := ((streamed_of_eq_ok hr hstatus).stream.fragment le_rfl (by decide) 0 0 0).1 h
  unfold Sound at hsound
  omega

/-! ### The round trip -/

/-- **Round trip**: what the compression of a buffer writes is decompressed to the buffer. -/
theorem rtlDecompressBufferLznt1_compressed {c : Call} {out : ℕ → Byte} {work : WorkSpace} {r : Compressed}
    (hn : 1 ≤ c.uncompressedBufferSize) (hr : rtlCompressBufferLznt1 c out work = .ok r) (hstatus : r.status ≠ .bufferTooSmall)
    (before : ℕ → Byte) :
    ∃ out', rtlDecompressBufferLznt1 ⟨r.size, r.out⟩ c.uncompressedBufferSize before =
      .ok (some (c.uncompressedBufferSize, out')) ∧
      ∀ i < c.uncompressedBufferSize, out' i = c.source.byte i := by
  have hstream := (streamed_of_eq_ok hr hstatus).stream
  obtain ⟨v, hv, -⟩ := hstream.header hn
  obtain ⟨out', hloop, hbytes, -⟩ := hstream.inflate hn hv (Nat.lt_succ_self _) before
  refine ⟨out', by rw [rtlDecompressBufferLznt1, hv, ok_bind]; exact hloop, fun i hi => ?_⟩
  have := hbytes i hi
  rwa [Nat.zero_add] at this

theorem rtlDecompressBufferLznt1_compressed_recurring : ∃ r out, rtlCompressBufferLznt1 recurring 0 blankWorkSpace = .ok r ∧
    rtlDecompressBufferLznt1 ⟨r.size, r.out⟩ 5000 0 = .ok (some (5000, out)) ∧ ∀ i < 5000, out i = recurring.source.byte i := by
  obtain ⟨r, hr, hstatus⟩ := exists_recurring
  obtain ⟨out, hout⟩ := rtlDecompressBufferLznt1_compressed (c := recurring) (by decide) hr hstatus 0
  exact ⟨r, out, hr, hout⟩

end Nt365.Rtl.Lznt1
