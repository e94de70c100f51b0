import Nt365.Ntfs.AllocSupPairs

/-!
# Mapping pairs round trip

Decoding the bytes of a chain of extents adds exactly what the MCB maps there. With what sizing and
building do in step, the mapping pairs of a record, read back, are the mapping up to where sizing
stopped; and records after records, each from where the last stopped, are the whole mapping.
-/

namespace Nt365.Ntfs

open Nt365.Library Nt365.FsRtl.LargeMcb List

/-! ### Reading one pair -/

/-- The bytes of an extent: the counts, the clusters, and the change of the LCN. -/
structure RunShape (lcn : ℤ) (e : Extent) (m sizeL : ℕ) : Prop where
  bytes : runBytes lcn e = BitVec.ofNat 8 (m + 1 + sizeL * 16) :: (signedBytes (m + 1) e.count ++ signedBytes sizeL (e.lcn - lcn))
  size : runSize lcn e = m + 2 + sizeL
  vcn : m ≤ 4 ∧ FitsBytes m e.count
  hole : e.lcn = unusedLcn → sizeL = 0
  lcn : e.lcn ≠ unusedLcn → ∃ l ≤ 4, sizeL = l + 1 ∧ FitsBytes l (e.lcn - lcn)

theorem Piece.shape {mcb : Mcb} {e : Extent} (h : Piece mcb e) {lcn : ℤ} (hlcn : LcnOk lcn) :
    ∃ m sizeL, RunShape lcn e m sizeL := by
  have hcount := h.count
  have hstop := h.stop
  have hvcn := h.vcn
  have hchange : e.vcn + e.count - e.vcn = e.count := by omega
  obtain ⟨m, hm, hbytes, hfits⟩ := changeBytes_fits (x := e.count) (by omega) (by omega)
  by_cases hu : e.lcn = unusedLcn
  · refine ⟨m, 0, ?_, ?_, ⟨hm, hfits⟩, fun _ => rfl, fun hne => absurd hu hne⟩
    · simp only [runBytes, hchange, hbytes, hu, ne_eq, not_true_eq_false, if_false]
    · simp only [runSize, hchange, hbytes, hu, ne_eq, not_true_eq_false, if_false]
      omega
  · have hrun := h.lcn hu
    obtain ⟨l, hl, hbytes', hfits'⟩ := changeBytes_fits (x := e.lcn - lcn) (by have := hlcn.1; have := hlcn.2; omega)
      (by have := hlcn.1; have := hlcn.2; omega)
    refine ⟨m, l + 1, ?_, ?_, ⟨hm, hfits⟩, fun hu' => absurd hu' hu, fun _ => ⟨l, hl, rfl, hfits'⟩⟩
    · simp only [runBytes, hchange, hbytes, hbytes', ne_eq, hu, not_false_eq_true, if_true]
    · simp only [runSize, hchange, hbytes, hbytes', ne_eq, hu, not_false_eq_true, if_true]
      omega

/-- What a buffer that holds the bytes of an extent is read as. -/
structure ReadAs (B : Buffer) (p : ℕ) (lcn : ℤ) (e : Extent) (m sizeL : ℕ) : Prop where
  counts : B.le p 1 = m + 1 + sizeL * 16
  small : m ≤ 4 ∧ sizeL ≤ 5
  last : B.le (p + (m + 1)) 1 < 128
  change : (B.le (p + 1) (m + 1) : ℤ) = e.count
  hole : e.lcn = unusedLcn → sizeL = 0
  lcn : e.lcn ≠ unusedLcn → sizeL ≠ 0 ∧ signedLe B (p + 1 + (m + 1)) sizeL = e.lcn - lcn

section Read

variable {B : Buffer} {mcb : Mcb} {e : Extent} {lcn : ℤ} {p : ℕ} {m sizeL : ℕ}

theorem RunShape.readAs (h : RunShape lcn e m sizeL) (hpiece : Piece mcb e) (hB : B.Holds p (runBytes lcn e)) :
    ReadAs B p lcn e m sizeL := by
  rw [h.bytes, holds_cons, holds_append, length_signedBytes] at hB
  obtain ⟨hcounts, hvcn, hlcn⟩ := hB
  have hcount := hpiece.count
  have hsizeL : sizeL ≤ 5 := by
    by_cases hu : e.lcn = unusedLcn
    · rw [h.hole hu]
      omega
    · obtain ⟨l, hl, rfl, -⟩ := h.lcn hu
      omega
  refine ⟨?_, ⟨h.vcn.1, hsizeL⟩, ?_, ?_, h.hole, fun hu => ?_⟩
  · have hm := h.vcn.1
    rw [B.le_one, hcounts, BitVec.toNat_ofNat]
    omega
  · have hneg := hvcn.last_ge_iff h.vcn.2
    rw [show p + (m + 1) = p + 1 + m by omega]
    omega
  · rw [hvcn.le_eq, h.vcn.2.emod, if_neg (by omega)]
  · obtain ⟨l, -, rfl, hfits⟩ := h.lcn hu
    exact ⟨Nat.succ_ne_zero l, hlcn.signedLe_eq hfits⟩

theorem bytesAt_ok {off n : ℕ} (h : off + n ≤ B.size) : bytesAt B off n = .ok (B.le off n) := by
  rw [bytesAt, Buffer.read, if_pos h]

theorem lcnCount_of_lt {c : ℕ} (h : c < 128) : lcnCount c = c / 16 := if_pos h

theorem wrap64_of_small {x : ℤ} (hlo : 0 ≤ x) (hhi : x ≤ 4294967296) : wrap64 x = x := wrap64_of_lt (by omega) (by omega)

/-- The MCB after an extent was read. -/
def addExtent (mcb : Mcb) (e : Extent) : Mcb :=
  if e.lcn = unusedLcn then mcb else appendRun mcb e.vcn.toNat e.lcn.toNat e.count.toNat

theorem addRun_eq {mcb' : Mcb} {ch : ℕ} (hpiece : Piece mcb e) (hu : e.lcn ≠ unusedLcn) (hp : mcb'.Plain)
    (hv : mcb'.endVbn ≤ e.vcn) :
    addRun ⟨ch, e.vcn + e.count, e.lcn, mcb'⟩ e.vcn = .ok ⟨ch, e.vcn + e.count, e.lcn, addExtent mcb' e⟩ := by
  obtain ⟨hlcn, hlcn', hvcn⟩ := hpiece.lcn hu
  have hv₀ := hpiece.vcn
  have hcount := hpiece.count
  have hlow : ∀ x : ℤ, 0 ≤ x → x < 4294967296 → lowPart x = x.toNat := by
    intro x h₀ hlt
    unfold lowPart
    omega
  rw [addRun, if_pos (show e.lcn ≥ 0 from hlcn), if_neg (by dsimp only; omega), hlow _ hv₀ (by omega), hlow _ hlcn (by omega),
    show e.vcn + e.count - e.vcn = e.count by omega, hlow _ (by omega) (by omega),
    fsRtlAddLargeMcbEntry_end hp (by omega) (by omega) (by omega), addExtent, if_neg hu]

theorem Piece.reads (hpiece : Piece mcb e) (hlcn : LcnOk lcn) (hB : B.Holds p (runBytes lcn e))
    (hend : p + runSize lcn e ≤ B.size) :
    ∃ m sizeL, ReadAs B p lcn e m sizeL ∧ runSize lcn e = m + 2 + sizeL ∧ bytesAt B p 1 = .ok (m + 1 + sizeL * 16) ∧
      (m + 1 + sizeL * 16) % 16 = m + 1 ∧ lcnCount (m + 1 + sizeL * 16) = sizeL ∧
        bytesAt B (p + (m + 1)) 1 = .ok (B.le (p + (m + 1)) 1) ∧
      bytesAt B (p + 1) (m + 1) = .ok (B.le (p + 1) (m + 1)) ∧ wrap64 (e.vcn + e.count) = e.vcn + e.count := by
  obtain ⟨m, sizeL, hshape⟩ := hpiece.shape hlcn
  have h := hshape.readAs hpiece hB
  have hbytes := hshape.size
  have hsmall := h.small
  have hvcn := hpiece.vcn
  have hcount := hpiece.count
  refine ⟨m, sizeL, h, hbytes, ?_, by omega, ?_, bytesAt_ok (by omega), bytesAt_ok (by omega),
    wrap64_of_small (by omega) hpiece.stop⟩
  · rw [bytesAt_ok (by omega), h.counts]
  · rw [lcnCount_of_lt (by omega)]
    omega

/-- **An iteration of the loop** over mapping pairs reads an extent. -/
theorem lookupBody_run {mcb' : Mcb} {recordEnd : ℕ} (hpiece : Piece mcb e) (hlcn : LcnOk lcn) (hB : B.Holds p (runBytes lcn e))
    (hend : p + runSize lcn e + 1 ≤ recordEnd) (hsize : recordEnd ≤ B.size) (hp : mcb'.Plain) (hv : mcb'.endVbn ≤ e.vcn) :
    lookupBody B recordEnd ⟨p, e.vcn, lcn, mcb'⟩ =
      .ok (.inl ⟨p + runSize lcn e, e.vcn + e.count, nextLcn lcn e, addExtent mcb' e⟩) := by
  obtain ⟨m, sizeL, ⟨-, ⟨hm, hl⟩, hlast, hchange, hhole, hread⟩, hbytes, hfirst, hc, hc', hlast', hvcn, hsum⟩ :=
    hpiece.reads hlcn hB (by omega)
  simp only [lookupBody, hfirst, hlast', hvcn, hc, hc', bind, Except.bind, hchange, hsum]
  rw [if_neg (by omega), if_neg (by omega), if_neg (by omega)]
  by_cases hu : e.lcn = unusedLcn
  · rw [if_pos (hhole hu), hbytes, hhole hu, nextLcn, if_neg (not_not.mpr hu), addExtent, if_pos hu,
      show p + (m + 2 + 0) = p + 1 + (m + 1) by omega]
    rfl
  · obtain ⟨hne, hsigned⟩ := hread hu
    have htop : bytesAt B (p + 1 + (m + 1) + sizeL - 1) 1 = .ok (B.le (p + 1 + (m + 1) + sizeL - 1) 1) := bytesAt_ok (by omega)
    have hle : bytesAt B (p + 1 + (m + 1)) sizeL = .ok (B.le (p + 1 + (m + 1)) sizeL) := bytesAt_ok (by omega)
    rw [signedLe, if_neg hne] at hsigned
    have hcur : wrap64 (lcn + (e.lcn - lcn)) = e.lcn := by
      have hrange := hpiece.lcn hu
      have hcount := hpiece.count
      rw [show lcn + (e.lcn - lcn) = e.lcn by omega]
      exact wrap64_of_small hrange.1 (by omega)
    rw [if_neg hne]
    simp only [htop, hle, ge_iff_le, hsigned, hcur, addRun_eq hpiece hu hp hv]
    rw [hbytes, nextLcn, if_pos hu, show p + 1 + (m + 1) + sizeL = p + (m + 2 + sizeL) by omega]
    rfl

theorem highestBody_run (hpiece : Piece mcb e) (hlcn : LcnOk lcn) (hB : B.Holds p (runBytes lcn e))
    (hend : p + runSize lcn e ≤ B.size)
    (hsize : B.size < 4294967296) : highestBody B (p, e.vcn) = .ok (.inl (p + runSize lcn e, e.vcn + e.count)) := by
  obtain ⟨m, sizeL, ⟨-, ⟨hm, -⟩, hlast, hchange, -, -⟩, hbytes, hfirst, hc, hc', hlast', hvcn, hsum⟩ := hpiece.reads hlcn hB hend
  simp only [highestBody, hfirst, bind, Except.bind, hc, hc', show p + 1 + (m + 1) - 1 = p + (m + 1) by omega, hlast', hvcn,
    hchange, hsum]
  rw [if_neg (by omega), if_neg (by omega), if_neg (by omega), add32_of_lt (by omega), hbytes,
    show p + 1 + (m + 1) + sizeL = p + (m + 2 + sizeL) by omega]
  rfl

end Read

/-! ### Reading a chain -/

section Chain

variable {B : Buffer} {mcb : Mcb}

theorem addExtent_spec {mcb' : Mcb} {e : Extent} (hpiece : Piece mcb e) (hp : mcb'.Plain) (hc : mcb'.Closed)
    (hv : mcb'.endVbn ≤ e.vcn) :
    (addExtent mcb' e).Plain ∧ (addExtent mcb' e).Closed ∧ (addExtent mcb' e).endVbn ≤ e.vcn + e.count ∧
      ∀ v : ℕ, (addExtent mcb' e).view v = if e.vcn ≤ v ∧ v < e.vcn + e.count then mcb.view v else mcb'.view v := by
  have hv₀ := hpiece.vcn
  have hcount := hpiece.count
  rw [addExtent]
  by_cases hu : e.lcn = unusedLcn
  · rw [if_pos hu]
    refine ⟨hp, hc, by omega, fun v => ?_⟩
    split
    · rw [hpiece.hole hu v (by omega) (by omega), hp.ordered.view_end (by omega)]
    · rfl
  · rw [if_neg hu]
    obtain ⟨hlcn, hlcn', hvcn⟩ := hpiece.lcn hu
    obtain ⟨hplain, hclosed, hend, hview⟩ := appendRun_plain e.vcn.toNat e.lcn.toNat e.count.toNat hp hc (by omega)
      (by omega) (by omega) (by omega)
    refine ⟨hplain, hclosed, by omega, fun v => ?_⟩
    rw [hview, PMap.assign, PMap.on]
    by_cases hin : e.vcn ≤ v ∧ v < e.vcn + e.count
    · rw [if_pos (by omega), if_pos hin, hpiece.run hu v hin.1 hin.2, Option.some.injEq]
      omega
    · rw [if_neg (by omega), if_neg hin]

/-- **Decoding a chain** of extents gives what the MCB maps there. -/
theorem lookup_chain {es : List Extent} {v t lcn : ℤ} {p recordEnd k : ℕ} {mcb' : Mcb} (hchain : Chain mcb v es t)
    (hlcn : LcnOk lcn)
    (hB : B.Holds p (encode lcn es ++ [0])) (hend : p + (encode lcn es).length + 1 ≤ recordEnd) (hsize : recordEnd ≤ B.size)
    (hk : (encode lcn es).length < k) (hp : mcb'.Plain) (hc : mcb'.Closed) (hv : mcb'.endVbn ≤ v) :
    ∃ s, loop (.fault .endless) (lookupBody B recordEnd) k ⟨p, v, lcn, mcb'⟩ = .ok s ∧ s.mcb.Plain ∧ s.mcb.Closed ∧
      s.mcb.endVbn ≤ t ∧
      ∀ x : ℕ, s.mcb.view x = if v ≤ x ∧ x < t then mcb.view x else mcb'.view x := by
  induction es generalizing v lcn p k mcb' with
  | nil =>
    obtain ⟨k, rfl⟩ : ∃ j, k = j + 1 := ⟨k - 1, by omega⟩
    rw [encode, nil_append, holds_cons] at hB
    have hzero : bytesAt B p 1 = .ok 0 := by
      rw [encode, length_nil] at hend
      rw [bytesAt_ok (by omega), B.le_one, hB.1]
      rfl
    have hbody : lookupBody B recordEnd ⟨p, v, lcn, mcb'⟩ = .ok (.inr ⟨p, v, lcn, mcb'⟩) := by
      simp only [lookupBody, hzero, bind, Except.bind, if_true]
      rfl
    refine ⟨_, loop_leave hbody, hp, hc, by rwa [← show v = t from hchain], fun x => ?_⟩
    rw [if_neg (by rw [show v = t from hchain]; omega)]
  | cons e es ih =>
    obtain ⟨rfl, hpiece, hrest⟩ := hchain
    have hsz := (runSize_bounds hpiece hlcn).1
    rw [encode, append_assoc, holds_append] at hB
    rw [encode, length_append] at hend hk
    rw [length_runBytes] at hB hend hk
    obtain ⟨k, rfl⟩ : ∃ j, k = j + 1 := ⟨k - 1, by omega⟩
    have hbody := lookupBody_run hpiece hlcn hB.1 (show p + runSize lcn e + 1 ≤ recordEnd by omega) hsize hp hv
    obtain ⟨hplain, hclosed, hend', hview⟩ := addExtent_spec hpiece hp hc hv
    obtain ⟨s, hloop, hs, hs', hst, hsview⟩ := ih hrest (hpiece.nextLcn_ok hlcn) hB.2 (by omega)
      (show _ < k by omega) hplain hclosed hend'
    refine ⟨s, by rw [loop_go hbody, hloop], hs, hs', hst, fun x => ?_⟩
    have hle := hrest.le
    have hcount := hpiece.count
    rw [hsview, hview]
    split_ifs <;> first | rfl | omega

theorem highest_chain {es : List Extent} {v t lcn : ℤ} {p k : ℕ} (hchain : Chain mcb v es t) (hlcn : LcnOk lcn)
    (hB : B.Holds p (encode lcn es ++ [0])) (hend : p + (encode lcn es).length + 1 ≤ B.size) (hsize : B.size < 4294967296)
    (hk : (encode lcn es).length < k) : loop (.fault .endless) (highestBody B) k (p, v) = .ok (t - 1) := by
  induction es generalizing v lcn p k with
  | nil =>
    obtain ⟨k, rfl⟩ : ∃ j, k = j + 1 := ⟨k - 1, by omega⟩
    rw [encode, nil_append, holds_cons] at hB
    have hzero : bytesAt B p 1 = .ok 0 := by
      rw [encode, length_nil] at hend
      rw [bytesAt_ok (by omega), B.le_one, hB.1]
      rfl
    refine loop_leave ?_
    simp only [highestBody, hzero, bind, Except.bind, if_true, ← show v = t from hchain]
    rfl
  | cons e es ih =>
    obtain ⟨rfl, hpiece, hrest⟩ := hchain
    have hsz := (runSize_bounds hpiece hlcn).1
    rw [encode, append_assoc, holds_append] at hB
    rw [encode, length_append] at hend hk
    rw [length_runBytes] at hB hend hk
    obtain ⟨k, rfl⟩ : ∃ j, k = j + 1 := ⟨k - 1, by omega⟩
    have hbody := highestBody_run hpiece hlcn hB.1 (by omega) hsize
    rw [loop_go hbody]
    exact ih hrest (hpiece.nextLcn_ok hlcn) hB.2 (by omega) (by omega)

end Chain

/-! ### Records -/

section Records

variable {mcb : Mcb} (hp : mcb.Plain) (hmany : mcb.pairCount ≤ 536870912) {stop : Option ℤ}

include hp hmany

theorem record_sized {v : ℤ} (h₀ : 0 ≤ v) (hlt : v < 4294967296) (hstop : ∀ t, stop = some t → v ≤ t ∧ t < 4294967296) {avail : ℕ}
    (ha : 18 ≤ avail) (ha' : avail < 4294967296) :
    ∃ n S es e, ntfsGetSizeForMappingPairs mcb avail v stop = .ok (n, S) ∧ Sized mcb avail stop (Walk.start mcb v) 0 n S es e ∧
      ntfsBuildMappingPairs mcb v S = .ok (encode 0 es ++ [0], e - 1) := by
  have hok : Sizing.Ok mcb avail stop ⟨.start mcb v, 0, maxLonglong⟩ := by
    refine ⟨start_at hp h₀ hlt, fun t ht => ?_, by dsimp only; omega, rfl, ?_⟩
    · dsimp only
      rw [nextVcn_start]
      exact hstop t ht
    · dsimp only
      rw [nextVcn_start]
      split <;> omega
  obtain ⟨n, S, es, e, hsize, hsized, hbuild⟩ := size_build hp hmany hok ha' (fun _ => by omega) []
    (show mcb.pairCount + 1 < mcb.pairCount + 3 by omega) (show mcb.pairCount + 1 < mcb.pairCount + 3 by omega)
  refine ⟨n, S, es, e, hsize, hsized, ?_⟩
  rw [ntfsBuildMappingPairs, hbuild, nil_append, currentLcn_start]

omit hp hmany in
theorem holds_bufferOf (bs : List Byte) : (bufferOf bs).Holds 0 bs := by
  intro i b hb
  rw [Nat.zero_add]
  show bs.getD i 0 = b
  rw [List.getD, hb]
  rfl

omit hp hmany in
theorem lookupAllocation_chain {es : List Extent} {v e : ℤ} (hchain : Chain mcb v es e) {B : Buffer} {p recordEnd : ℕ}
    (hB : B.Holds p (encode 0 es ++ [0])) (hend : p + (encode 0 es ++ [0]).length ≤ recordEnd) (hsize : recordEnd ≤ B.size)
    {mcb' : Mcb} (hplain : mcb'.Plain) (hclosed : mcb'.Closed) (hv : mcb'.endVbn ≤ v) :
    ∃ mcb'', lookupAllocation B recordEnd p v mcb' = .ok mcb'' ∧ mcb''.Plain ∧ mcb''.Closed ∧ mcb''.endVbn ≤ e ∧
      ∀ x : ℕ, mcb''.view x = if v ≤ x ∧ x < e then mcb.view x else mcb'.view x := by
  rw [length_append, length_singleton] at hend
  obtain ⟨s, hloop, hs⟩ := lookup_chain hchain ⟨le_rfl, by decide⟩ hB (by omega) hsize
    (show _ < B.size + 1 by omega) hplain hclosed hv
  refine ⟨s.mcb, ?_, hs⟩
  rw [lookupAllocation, hloop]
  rfl

/-- **Records after records** are the mapping, up to `StopOnVcn`. -/
theorem records_read {avail : ℕ → ℕ} (ha : ∀ i, 18 ≤ avail i ∧ avail i < 4294967296) {v : ℤ} (h₀ : 0 ≤ v) (hlt : v < 4294967296)
    (hstop : ∀ t, stop = some t → v ≤ t ∧ t < 4294967296) {mcb' : Mcb} (hplain : mcb'.Plain) (hclosed : mcb'.Closed)
    (hv : mcb'.endVbn ≤ v) (i : ℕ) :
    ∃ k records mcb'', mappingRecords mcb stop avail k i v = .ok records ∧ readRecords records mcb' = .ok mcb'' ∧
      ∀ x : ℕ, mcb''.view x = if v ≤ x ∧ ∀ t, stop = some t → x ≤ t then mcb.view x else mcb'.view x := by
  -- each record covers at least one cluster
  induction hd : (4294967296 - v).toNat using Nat.strong_induction_on generalizing v mcb' i with
  | h d ih =>
    obtain ⟨n, S, es, e, hsize, hsized, hbuild⟩ := record_sized hp hmany h₀ hlt hstop (ha i).1 (ha i).2
    have hchain := hsized.chain
    rw [nextVcn_start] at hchain
    have hle := hchain.le
    obtain ⟨mcb₁, hread, hplain₁, hclosed₁, hend₁, hview₁⟩ := lookupAllocation_chain hchain (holds_bufferOf (encode 0 es ++ [0]))
      (show _ ≤ (encode 0 es ++ [0]).length by omega) le_rfl hplain hclosed hv
    by_cases hdone : S = maxLonglong ∨ beyond stop S = true
    · refine ⟨1, [⟨v, e - 1, encode 0 es ++ [0]⟩], mcb₁, ?_, ?_, fun x => ?_⟩
      · simp only [mappingRecords, hsize, hbuild, bind, Except.bind, if_pos hdone]
        rfl
      · rw [readRecords, hread]
        rfl
      · rw [hview₁]
        obtain hS | ⟨hS, hnone, hend⟩ := hsized.stopped
        · -- the last record goes up to `StopOnVcn`
          have hstop_le := hchain.stop_le (by omega)
          have hne : S ≠ maxLonglong := by unfold maxLonglong; omega
          have hbeyond := hdone.resolve_left hne
          cases stop with
          | none => cases hbeyond
          | some t =>
            have hlt' := of_decide_eq_true hbeyond
            have hwithin := hsized.within t rfl
            refine if_congr ?_ rfl rfl
            constructor
            · rintro ⟨hx, hx'⟩
              exact ⟨hx, fun t' ht' => by rw [← Option.some.inj ht']; omega⟩
            · rintro ⟨hx, hx'⟩
              have hxt := hx' t rfl
              exact ⟨hx, by omega⟩
        · -- nothing is left
          by_cases hx : v ≤ x
          · rw [if_pos (show v ≤ x ∧ ∀ t, stop = some t → (x : ℤ) ≤ t from ⟨hx, fun t ht => by rw [hnone] at ht; cases ht⟩)]
            split
            · rfl
            · rw [hplain.ordered.view_end (by omega), hp.ordered.view_end (by omega)]
          · rw [if_neg fun h => hx h.1, if_neg fun h => hx h.1]
    · have hne : S ≠ maxLonglong := fun h => hdone (.inl h)
      obtain rfl : S = e := hsized.stopped.resolve_right fun h => hne h.1
      have hlt' : S < 4294967296 := by
        cases stop with
        | none => exact hsized.cut rfl hne
        | some t =>
          have ht := hstop t rfl
          have hnot : ¬S > t := fun h => hdone (.inr (decide_eq_true h))
          omega
      have hprogress : v < S := by
        cases es with
        | nil =>
          have h18 := (ha i).1
          have hsmall := (hsized.progress rfl).resolve_left hne
          omega
        | cons x es =>
          have hcount := hchain.2.1.count
          have hrest := hchain.2.2.le
          omega
      have hstop' : ∀ t, stop = some t → S ≤ t ∧ t < 4294967296 := by
        rintro t rfl
        have hnot : ¬S > t := fun h => hdone (.inr (decide_eq_true h))
        exact ⟨by omega, (hstop t rfl).2⟩
      obtain ⟨k, records, mcb₂, hrecords, hread₂, hview₂⟩ :=
        ih _ (by omega) (by omega) hlt' hstop' hplain₁ hclosed₁ hend₁ (i + 1) rfl
      refine ⟨k + 1, ⟨v, S - 1, encode 0 es ++ [0]⟩ :: records, mcb₂, ?_, ?_, fun x => ?_⟩
      · simp only [mappingRecords, hsize, hbuild, bind, Except.bind, if_neg hdone, hrecords]
        rfl
      · rw [readRecords, hread]
        exact hread₂
      · rw [hview₂, hview₁]
        by_cases hx : v ≤ x
        · by_cases hx' : (x : ℤ) < S
          · rw [if_neg (fun h => by have := h.1; omega), if_pos ⟨hx, hx'⟩, if_pos ⟨hx, fun t ht => by have := hstop' t ht; omega⟩]
          · have hcongr : (S ≤ x ∧ ∀ t, stop = some t → (x : ℤ) ≤ t) ↔ (v ≤ x ∧ ∀ t, stop = some t → (x : ℤ) ≤ t) :=
              and_congr_left fun _ => by omega
            rw [if_neg (show ¬(v ≤ x ∧ (x : ℤ) < S) from fun h => hx' h.2)]
            exact if_congr hcongr rfl rfl
        · rw [if_neg (fun h => by have := h.1; omega), if_neg (fun h => hx h.1), if_neg (fun h => hx h.1)]

/-- **Mapping pairs round trip.** For an MCB in memory, a `LowestVcn` below `2 ^ 32` and `StopOnVcn` from it
on: the mapping pairs fit, take what sizing says, and are read back as the mapping up to where sizing
stopped; and records after records are the mapping up to `StopOnVcn`. -/
theorem mappingPairs_round_trip {lowestVcn : ℤ} (h₀ : 0 ≤ lowestVcn) (hlt : lowestVcn < 4294967296)
    (hstop : ∀ t, stop = some t → lowestVcn ≤ t ∧ t < 4294967296) {bytesAvailable : ℕ} (ha : 18 ≤ bytesAvailable)
    (ha' : bytesAvailable < 4294967296) :
    (∃ n S bytes H, ntfsGetSizeForMappingPairs mcb bytesAvailable lowestVcn stop = .ok (n, S) ∧ n ≤ bytesAvailable ∧
      ntfsBuildMappingPairs mcb lowestVcn S = .ok (bytes, H) ∧ bytes.length ≤ n ∧ (stop = none → bytes.length = n) ∧
      (S ≠ maxLonglong → H + 1 = S) ∧
      ∀ (B : Buffer) (p recordEnd : ℕ), B.Holds p bytes → p + bytes.length ≤ recordEnd → recordEnd ≤ B.size → B.size < 4294967296 →
        (∃ mcb', lookupAllocation B recordEnd p lowestVcn fsRtlInitializeLargeMcb = .ok mcb' ∧
          ∀ v : ℕ, mcb'.view v = if lowestVcn ≤ v ∧ v ≤ H then mcb.view v else none) ∧
        ntfsGetHighestVcn B lowestVcn p = .ok H) ∧
    ∀ avail : ℕ → ℕ, (∀ i, 18 ≤ avail i ∧ avail i < 4294967296) →
      ∃ k records mcb', mappingRecords mcb stop avail k 0 lowestVcn = .ok records ∧
        readRecords records fsRtlInitializeLargeMcb = .ok mcb' ∧
        ∀ v : ℕ, mcb'.view v = if lowestVcn ≤ v ∧ ∀ t, stop = some t → v ≤ t then mcb.view v else none := by
  have hplain : fsRtlInitializeLargeMcb.Plain := ⟨fun i hi => absurd hi (Nat.not_lt_zero i),
    fun i hi => absurd hi (Nat.not_lt_zero i)⟩
  have hclosed : fsRtlInitializeLargeMcb.Closed := fun p hmem => by cases hmem
  have hempty : (fsRtlInitializeLargeMcb.endVbn : ℤ) ≤ lowestVcn := h₀
  refine ⟨?_, fun avail havail => records_read hp hmany havail h₀ hlt hstop hplain hclosed hempty 0⟩
  obtain ⟨n, S, es, e, hsize, hsized, hbuild⟩ := record_sized hp hmany h₀ hlt hstop ha ha'
  have hchain := hsized.chain
  have hlen := hsized.size
  rw [nextVcn_start] at hchain
  rw [currentLcn_start] at hlen
  refine ⟨n, S, _, e - 1, hsize, hsized.fits, hbuild, ?_, fun hnone => ?_, fun hne => ?_,
    fun B p recordEnd hB hend hin h32 => ⟨?_, ?_⟩⟩
  · rw [length_append, length_singleton]
    omega
  · have hlen := hsized.size_eq hnone
    rw [currentLcn_start] at hlen
    rw [length_append, length_singleton]
    omega
  · rw [hsized.stopped.resolve_right fun h => hne h.1]
    omega
  · obtain ⟨mcb', hread, -, -, -, hview⟩ := lookupAllocation_chain hchain hB hend hin hplain hclosed hempty
    refine ⟨mcb', hread, fun v => ?_⟩
    rw [hview]
    exact if_congr (by omega) rfl rfl
  · rw [length_append, length_singleton] at hend
    exact highest_chain hchain ⟨le_rfl, by decide⟩ hB (by omega) h32 (by omega)

end Records

/-- An MCB with a hole between two runs. -/
def holeMcb : Mcb := ⟨15, [⟨4, 100⟩, ⟨6, unusedLbn⟩, ⟨9, 0⟩]⟩

theorem holeMcb_plain : holeMcb.Plain where
  ordered := by
    rw [Mcb.Ordered]
    decide
  lbns := by decide

/-- From VCN `1` of this MCB up to VCN `20`. -/
theorem mappingPairs_round_trip_holeMcb :
    ∃ n S bytes H, ntfsGetSizeForMappingPairs holeMcb 18 1 (some 20) = .ok (n, S) ∧ n ≤ 18 ∧
      ntfsBuildMappingPairs holeMcb 1 S = .ok (bytes, H) ∧ bytes.length ≤ n := by
  obtain ⟨n, S, bytes, H, hsize, hle, hbuild, hlen, -⟩ :=
    (mappingPairs_round_trip holeMcb_plain (by decide) (show (0 : ℤ) ≤ 1 by decide)
    (by decide) (fun t (ht : some 20 = some t) => by rw [← Option.some.inj ht]; decide) (le_refl 18) (by decide)).1
  exact ⟨n, S, bytes, H, hsize, hle, hbuild, hlen⟩

/-- A `LowestVcn` of `2 ^ 32`: the lookup takes it for `0`, and what is written is read as corrupt. -/
theorem mappingPairs_not_large :
    ∃ n S bytes H, ntfsGetSizeForMappingPairs holeMcb 18 4294967296 none = .ok (n, S) ∧
      ntfsBuildMappingPairs holeMcb 4294967296 S = .ok (bytes, H) ∧
      lookupAllocation (bufferOf bytes) bytes.length 0 4294967296 fsRtlInitializeLargeMcb = .error .corrupt := by
  have hlow : fsRtlLookupLargeMcbEntry holeMcb 4294967296 = fsRtlLookupLargeMcbEntry holeMcb (0 : ℕ) := by
    rw [fsRtlLookupLargeMcbEntry, fsRtlLookupLargeMcbEntry, show lowPart 4294967296 = lowPart (0 : ℕ) by decide]
  have hlookup : fsRtlLookupLargeMcbEntry holeMcb 4294967296 = some (100, 4, 0) := by
    obtain ⟨i, hi, hle, -, hsome⟩ := holeMcb_plain.lookup_some (v := 0) (by decide)
    have hfirst : ∀ j < 3, holeMcb.startingVbn j ≤ 0 → j = 0 := by decide
    obtain rfl := hfirst i hi hle
    rw [hlow, hsome]
    decide
  have hstart : Walk.start holeMcb 4294967296 = ⟨some ⟨4294967296, 100, 4⟩, 0, 4294967296, 0⟩ := by
    rw [Walk.start, hlookup]
  refine ⟨9, maxLonglong, [0x11, 4, 100, 1, 2, 0x11, 3, 156, 0], 8, ?_, ?_, ?_⟩
  · rw [ntfsGetSizeForMappingPairs, hstart]
    decide +kernel
  · rw [ntfsBuildMappingPairs, hstart]
    decide +kernel
  · decide +kernel

end Nt365.Ntfs
