import Nt365.Ntfs.AllocSup

/-!
# Mapping pairs say what the MCB maps

The routines that size and build mapping pairs walk the runs of an MCB, and the third reads them back.
`Chain` says that extents lie end to end and are what the MCB maps; `encode` is their bytes. The two
walks are followed in step: where the first stops, the second has written the `encode` of a chain up to
there. Decoding the bytes of a chain adds its extents to an MCB.
-/

namespace Nt365.Ntfs

open Nt365.Library Nt365.FsRtl.LargeMcb Option

/-! ### Changes -/

/-- The last byte of a change, from its distance to zero. -/
def changeLast (w : ℕ) : ℕ :=
  if w < 128 then 0 else if w < 32768 then 1 else if w < 8388608 then 2 else if w < 2147483648 then 3 else 4

variable {w : ℕ} {x : ℤ} {mcb : Mcb} {e : Extent}

/-- The bytes that are skipped: for a negative number those of its complement. -/
theorem getByte_eq {fill x : ℕ} (h : w < 549755813888) (hx : fill = 0 ∧ x = w ∨ fill = 0xff ∧ x + w = 18446744073709551615) :
    getByte fill x = changeLast w := by
  unfold getByte changeLast
  by_cases hhigh : x / 256 ^ 4 = fill * 0x1010101
  · by_cases hmid : x / 256 ^ 2 % 65536 = fill * 0x101
    · by_cases hlow : x / 256 ^ 1 % 256 = fill
      · simp only [hhigh, hmid, hlow, ne_eq, not_true_eq_false, if_false, Nat.zero_add, Nat.pow_zero, Nat.div_one]
        split_ifs <;> omega
      · simp only [hhigh, hmid, hlow, ne_eq, not_true_eq_false, not_false_eq_true, if_true, if_false, Nat.zero_add]
        split_ifs <;> omega
    · by_cases hlow : x / 256 ^ 3 % 256 = fill
      all_goals
        simp only [hhigh, hmid, hlow, ne_eq, not_true_eq_false, not_false_eq_true, if_true, if_false, Nat.zero_add, Nat.reduceAdd]
        split_ifs <;> omega
  · have hmid : x / 256 ^ 6 % 65536 = fill * 0x101 := by omega
    have hlow : x / 256 ^ 5 % 256 = fill := by omega
    simp only [hhigh, hmid, hlow, ne_eq, not_true_eq_false, not_false_eq_true, if_true, if_false, Nat.reduceAdd]
    split_ifs <;> omega

theorem changeBytes_of_nonneg (h₀ : 0 ≤ x) (h : x < 549755813888) : changeBytes x = changeLast x.toNat + 1 := by
  rw [changeBytes, if_neg (by omega), getPositiveByte, getByte_eq (w := x.toNat) (by omega) (.inl ⟨rfl, ?_⟩)]
  unfold quadPart
  omega

theorem changeBytes_of_neg (h₀ : x < 0) (h : -549755813888 ≤ x) : changeBytes x = changeLast (-x - 1).toNat + 1 := by
  rw [changeBytes, if_pos h₀, getNegativeByte, getByte_eq (w := (-x - 1).toNat) (by omega) (.inr ⟨rfl, ?_⟩)]
  unfold quadPart
  omega

theorem changeLast_le (w : ℕ) : changeLast w ≤ 4 := by
  unfold changeLast
  split_ifs <;> omega

theorem changeLast_mono {v : ℕ} (h : v ≤ w) : changeLast v ≤ changeLast w := by
  unfold changeLast
  split_ifs <;> omega

theorem mul_changeLast_le (w : ℕ) : 128 * changeLast w ≤ w := by
  unfold changeLast
  split_ifs <;> omega

theorem lt_changeLast (h : w < 549755813888) : w < 128 * 256 ^ changeLast w := by
  unfold changeLast
  split_ifs <;> omega

/-- **A change fits** in the bytes that it takes, which are at most five. -/
theorem changeBytes_fits (hlo : -549755813888 ≤ x) (hhi : x < 549755813888) : ∃ m ≤ 4, changeBytes x = m + 1 ∧ FitsBytes m x := by
  by_cases hneg : x < 0
  · refine ⟨_, changeLast_le _, changeBytes_of_neg hneg hlo, ?_⟩
    have hlt := lt_changeLast (show (-x - 1).toNat < 549755813888 by omega)
    have hcast : ((128 * 256 ^ changeLast (-x - 1).toNat : ℕ) : ℤ) = 128 * 256 ^ changeLast (-x - 1).toNat := by push_cast; rfl
    constructor <;> omega
  · refine ⟨_, changeLast_le _, changeBytes_of_nonneg (by omega) hhi, ?_⟩
    have hlt := lt_changeLast (show x.toNat < 549755813888 by omega)
    have hcast : ((128 * 256 ^ changeLast x.toNat : ℕ) : ℤ) = 128 * 256 ^ changeLast x.toNat := by push_cast; rfl
    constructor <;> omega

/-! ### Extents -/

/-- An extent is what the MCB maps. -/
structure Piece (mcb : Mcb) (e : Extent) : Prop where
  vcn : 0 ≤ e.vcn
  count : 0 < e.count
  stop : e.vcn + e.count ≤ 4294967296
  hole : e.lcn = unusedLcn → ∀ v : ℕ, e.vcn ≤ v → v < e.vcn + e.count → mcb.view v = none
  lcn : e.lcn ≠ unusedLcn → 0 ≤ e.lcn ∧ e.lcn + e.count ≤ 4294967295 ∧ e.vcn + e.count ≤ 4294967295
  run : e.lcn ≠ unusedLcn → ∀ v : ℕ, e.vcn ≤ v → v < e.vcn + e.count → mcb.view v = some (e.lcn + (v - e.vcn)).toNat

theorem Piece.trim (h : Piece mcb e) {count : ℤ} (hpos : 0 < count) (hle : count ≤ e.count) :
    Piece mcb { e with count := count } where
  vcn := h.vcn
  count := hpos
  stop := by
    have hstop := h.stop
    dsimp only
    omega
  hole hu v hlo hhi := h.hole hu v hlo (by dsimp only at hhi; omega)
  lcn hu := by
    have hlcn := h.lcn hu
    dsimp only at *
    omega
  run hu v hlo hhi := h.run hu v hlo (by dsimp only at hhi; omega)

/-- **Extents end to end** from one VCN to another, that are what the MCB maps. -/
def Chain (mcb : Mcb) : ℤ → List Extent → ℤ → Prop
  | v, [], t => v = t
  | v, e :: es, t => e.vcn = v ∧ Piece mcb e ∧ Chain mcb (v + e.count) es t

/-- The bytes of extents. -/
def encode : ℤ → List Extent → List Byte
  | _, [] => []
  | currentLcn, e :: es => runBytes currentLcn e ++ encode (nextLcn currentLcn e) es

theorem Chain.le {v t : ℤ} {es : List Extent} (h : Chain mcb v es t) : v ≤ t := by
  induction es generalizing v with
  | nil => exact le_of_eq h
  | cons e es ih =>
    have hcount := h.2.1.count
    have hrest := ih h.2.2
    omega

theorem Chain.stop_le {v t : ℤ} {es : List Extent} (h : Chain mcb v es t) (hv : v ≤ 4294967296) : t ≤ 4294967296 := by
  induction es generalizing v with
  | nil => exact h ▸ hv
  | cons e es ih =>
    obtain ⟨rfl, hpiece, hrest⟩ := h
    exact ih hrest hpiece.stop

/-- A cluster of the volume, as `CurrentLcn` is. -/
def LcnOk (lcn : ℤ) : Prop := 0 ≤ lcn ∧ lcn < 4294967295

theorem Piece.nextLcn_ok (h : Piece mcb e) {lcn : ℤ} (hlcn : LcnOk lcn) : LcnOk (nextLcn lcn e) := by
  rw [nextLcn]
  split
  · have hrun := h.lcn ‹_›
    have hcount := h.count
    exact ⟨hrun.1, by omega⟩
  · exact hlcn

theorem length_runBytes (lcn : ℤ) (e : Extent) : (runBytes lcn e).length = runSize lcn e := by
  simp only [runBytes, runSize, List.length_cons, List.length_append, length_signedBytes]
  omega

theorem Piece.changeBytes_count (h : Piece mcb e) :
    changeBytes (e.vcn + e.count - e.vcn) = changeLast e.count.toNat + 1 := by
  have hcount := h.count
  have hstop := h.stop
  have hvcn := h.vcn
  rw [show e.vcn + e.count - e.vcn = e.count by omega, changeBytes_of_nonneg (by omega) (by omega)]

/-- What a run takes: at most eleven bytes, and fewer the shorter it is. -/
theorem runSize_bounds (h : Piece mcb e) {lcn : ℤ} (hlcn : LcnOk lcn) :
    1 ≤ runSize lcn e ∧ runSize lcn e ≤ 11 ∧ 128 * (runSize lcn e : ℤ) ≤ 896 + e.count := by
  have hcount := h.count
  have hmul := mul_changeLast_le e.count.toNat
  have hle := changeLast_le e.count.toNat
  rw [runSize, h.changeBytes_count]
  split
  · have hrun := h.lcn ‹_›
    obtain ⟨m, hm, hbytes, -⟩ := changeBytes_fits (x := e.lcn - lcn) (by have := hlcn.1; have := hlcn.2; omega)
      (by have := hlcn.1; have := hlcn.2; omega)
    rw [hbytes]
    omega
  · omega

theorem runSize_trim (h : Piece mcb e) (lcn : ℤ) (count : ℤ) (hpos : 0 < count) (hle : count ≤ e.count) :
    runSize lcn { e with count := count } ≤ runSize lcn e := by
  have hmono := changeLast_mono (show count.toNat ≤ e.count.toNat by omega)
  rw [runSize, runSize, h.changeBytes_count, (h.trim hpos hle).changeBytes_count]
  dsimp only
  omega

/-! ### Walking -/

/-- A walk is at the run that begins at `NextVcn`, or past the last. -/
structure Walk.At (mcb : Mcb) (w : Walk) : Prop where
  vcn : 0 ≤ w.nextVcn ∧ w.nextVcn ≤ 4294967296
  lcn : LcnOk w.currentLcn
  none : w.found = none → mcb.endVbn ≤ w.nextVcn
  some : ∀ run, w.found = some run → run.vcn = w.nextVcn ∧ Piece mcb run ∧ w.runIndex < mcb.pairCount ∧
    run.vcn + run.count = (mcb.pair w.runIndex).nextVbn

section Walk

variable {mcb : Mcb}

/-- The run of an index, from one of its VCNs on, is an extent. -/
theorem piece_at (hp : mcb.Plain) {i v : ℕ} (hi : i < mcb.pairCount) (hlo : mcb.startingVbn i ≤ v)
    (hhi : v < (mcb.pair i).nextVbn) : Piece mcb ⟨v, mcb.lbnAt i v, ((mcb.pair i).nextVbn : ℤ) - v⟩ := by
  have hnext := (hp.ordered i hi).2
  have hlbn := hp.lbns i hi
  refine ⟨by dsimp only; omega, by dsimp only; omega, by dsimp only; omega, ?_, ?_, ?_⟩
  · intro hu x hx hx'
    dsimp only at hu hx hx'
    rw [hp.ordered.view_at hi (by omega) (by omega)]
    rw [Mcb.lbnAt] at hu
    split at hu
    · exact if_pos ‹_›
    · unfold unusedLcn at hu
      omega
  · intro hu
    dsimp only at hu ⊢
    rw [Mcb.lbnAt] at hu ⊢
    split at hu
    · exact absurd rfl hu
    · have hle := hlbn ‹_›
      rw [if_neg ‹_›]
      omega
  · intro hu x hx hx'
    dsimp only at hu hx hx' ⊢
    rw [Mcb.lbnAt] at hu ⊢
    split at hu
    · exact absurd rfl hu
    · rw [hp.ordered.view_at hi (by omega) (by omega), if_neg ‹_›, if_neg ‹_›, Option.some.injEq]
      omega

theorem start_at (hp : mcb.Plain) {v : ℤ} (h₀ : 0 ≤ v) (hlt : v < 4294967296) : (Walk.start mcb v).At mcb := by
  obtain ⟨v, rfl⟩ := Int.eq_ofNat_of_zero_le h₀
  have hlcn : LcnOk 0 := ⟨le_rfl, by decide⟩
  rw [Walk.start]
  by_cases hv : v < mcb.endVbn
  · obtain ⟨i, hi, hlo, hhi, hlookup⟩ := hp.lookup_some hv
    rw [hlookup]
    refine ⟨by dsimp only; omega, hlcn, fun h => (by cases h), fun run hrun => ?_⟩
    obtain rfl := Option.some.inj hrun
    exact ⟨rfl, piece_at hp hi hlo hhi, hi, by dsimp only; omega⟩
  · rw [hp.lookup_none (by omega) (by omega)]
    exact ⟨by dsimp only; omega, hlcn, fun _ => by dsimp only; omega, fun run hrun => by cases hrun⟩

theorem nextVcn_start (v : ℤ) : (Walk.start mcb v).nextVcn = v := by
  rw [Walk.start]
  split <;> rfl

theorem currentLcn_start (v : ℤ) : (Walk.start mcb v).currentLcn = 0 := by
  rw [Walk.start]
  split <;> rfl

theorem Walk.At.next (hp : mcb.Plain) (hmany : mcb.pairCount < 4294967295) {w : Walk} (h : w.At mcb) {run : Extent}
    (hrun : w.found = .some run) : (w.next mcb run).At mcb ∧ (w.next mcb run).runIndex = w.runIndex + 1 := by
  obtain ⟨hvcn, hpiece, hi, hend⟩ := h.some run hrun
  have hstop := hpiece.stop
  have hindex : w.nextIndex = w.runIndex + 1 := by
    rw [Walk.nextIndex, hrun]
    exact add32_of_lt (by omega)
  have hstart : mcb.startingVbn (w.runIndex + 1) = (mcb.pair w.runIndex).nextVbn := startingVbn_succ w.runIndex
  refine ⟨?_, hindex⟩
  rw [Walk.next, hindex]
  by_cases hlast : w.runIndex + 1 < mcb.pairCount
  · obtain ⟨hlt, -⟩ := hp.ordered _ hlast
    rw [hp.getNext_some hlast]
    refine ⟨⟨by have := hpiece.vcn; dsimp only; omega, hstop⟩, hpiece.nextLcn_ok h.lcn, fun h => (by cases h), fun r hr => ?_⟩
    obtain rfl := Option.some.inj hr
    refine ⟨by dsimp only; omega, piece_at hp hlast le_rfl hlt, hlast, by dsimp only; omega⟩
  · rw [getNext_none (by omega)]
    refine ⟨⟨by have := hpiece.vcn; dsimp only; omega, hstop⟩, hpiece.nextLcn_ok h.lcn, fun _ => ?_, fun r hr => by cases hr⟩
    rw [← startingVbn_pairCount, show mcb.pairCount = w.runIndex + 1 by omega, hstart]
    dsimp only
    omega

/-- After the hole at the end nothing is found. -/
theorem found_next_of_none (hmany : mcb.pairCount < 4294967295) {w : Walk} (h : w.found = none) (run : Extent) :
    (w.next mcb run).found = none := by
  rw [Walk.next, Walk.nextIndex, h]
  dsimp only
  rw [getNext_none (by unfold maxUlong; rw [add32_of_lt (by omega)]; omega)]
  rfl

theorem Walk.At.hole (hp : mcb.Plain) {w : Walk} (h : w.At mcb) (hnone : w.found = .none) {stop : ℤ} (hlt : w.nextVcn < stop)
    (hstop : stop ≤ 4294967296) : Piece mcb ⟨w.nextVcn, unusedLcn, stop - w.nextVcn⟩ := by
  have hend := h.none hnone
  refine ⟨h.vcn.1, by dsimp only; omega, by dsimp only; omega, fun _ v hv _ => ?_, fun hu => absurd rfl hu,
    fun hu => absurd rfl hu⟩
  dsimp only at hv
  exact hp.ordered.view_end (by omega)

/-- The run of an iteration is an extent from `NextVcn` on. -/
theorem Walk.At.run (hp : mcb.Plain) {w : Walk} (h : w.At mcb) (stop : ℤ) (hlt : w.nextVcn < stop) (hstop : stop ≤ 4294967296) :
    (w.run stop).vcn = w.nextVcn ∧ Piece mcb (w.run stop) := by
  rw [Walk.run]
  cases hf : w.found with
  | none => exact ⟨rfl, h.hole hp hf hlt hstop⟩
  | some run => exact ⟨(h.some run hf).1, (h.some run hf).2.1⟩

end Walk

/-! ### Sizing and building -/

/-- What sizing from a walk stops with, `n` and `S`, is what building takes to write the extents `es`
up to `e`. -/
structure Sized (mcb : Mcb) (avail : ℕ) (stop : Option ℤ) (w : Walk) (mSize n : ℕ) (S : ℤ) (es : List Extent) (e : ℤ) : Prop where
  chain : Chain mcb w.nextVcn es e
  size : mSize + (encode w.currentLcn es).length + 1 ≤ n
  size_eq : stop = none → mSize + (encode w.currentLcn es).length + 1 = n
  fits : n ≤ avail
  stopped : S = e ∨ S = maxLonglong ∧ stop = none ∧ mcb.endVbn ≤ e
  within : ∀ t, stop = some t → e ≤ t + 1
  progress : es = [] → S = maxLonglong ∨ avail < mSize + 12
  cut : stop = none → S ≠ maxLonglong → e < 4294967296

section Lockstep

variable {mcb : Mcb} {avail : ℕ} {stop : Option ℤ}

variable {s : Sizing} {S : ℤ}

variable (mcb avail) in
/-- An iteration of sizing over a run that is not beyond `StopOnVcn`. -/
theorem sizeBody_eq (hsome : ¬(s.walk.found = none ∧ stop = none)) (hin : beyond stop (s.walk.run (stop.getD 0 + 1)).vcn = false) :
    sizeBody mcb avail stop s =
      if add32 (add32 s.mSize (runSize s.walk.currentLcn (s.walk.run (stop.getD 0 + 1)))) 1 > avail then
        .ok (.inr (add32 s.mSize 1, (s.walk.run (stop.getD 0 + 1)).vcn))
      else .ok (.inl ⟨s.walk.next mcb (s.walk.run (stop.getD 0 + 1)),
        add32 s.mSize (runSize s.walk.currentLcn (s.walk.run (stop.getD 0 + 1))),
        if beyond stop ((s.walk.run (stop.getD 0 + 1)).vcn + (s.walk.run (stop.getD 0 + 1)).count) then stop.getD 0 + 1
          else s.highestVcn⟩) := by
  rw [sizeBody, if_neg hsome]
  simp only [hin, Bool.false_eq_true, if_false]

variable (mcb avail) in
theorem sizeBody_beyond {t : ℤ} (hbeyond : t < (s.walk.run (t + 1)).vcn) (ht : t < 4294967296) :
    sizeBody mcb avail (some t) s = .ok (.inr (add32 s.mSize 1, s.highestVcn)) := by
  have hmax : some t ≠ some maxLonglong := by
    intro h
    have h := Option.some.inj h
    unfold maxLonglong at h
    omega
  rw [sizeBody, if_neg (by simp)]
  simp only [beyond, getD_some, gt_iff_lt, hbeyond, decide_true, if_true, if_neg hmax]

variable (mcb) in
theorem buildBody_stop {b : Building} (hS : S ≤ 4294967296) (hge : S ≤ (b.walk.run S).vcn) :
    buildBody mcb S b = .ok (.inr (b.mappingPairs ++ [0], b.walk.nextVcn - 1)) := by
  have hmax : S ≠ maxLonglong := by unfold maxLonglong; omega
  rw [buildBody, if_neg fun h => hmax h.2]
  exact if_pos hge

variable (mcb) in
/-- Building writes a run that ends before `HighestVcn`, or its part that does. -/
theorem buildBody_run {b : Building} (hne : ¬(b.walk.found = none ∧ S = maxLonglong)) (hlt : (b.walk.run S).vcn < S) :
    buildBody mcb S b = .ok (.inl ⟨b.walk.next mcb (if (b.walk.run S).vcn + (b.walk.run S).count > S then
        { b.walk.run S with count := S - (b.walk.run S).vcn } else b.walk.run S),
      b.mappingPairs ++ runBytes b.walk.currentLcn (if (b.walk.run S).vcn + (b.walk.run S).count > S then
        { b.walk.run S with count := S - (b.walk.run S).vcn } else b.walk.run S)⟩) := by
  rw [buildBody, if_neg hne]
  exact if_neg (by omega)

/-- What holds at the head of the loop while `NextVcn` is not beyond `StopOnVcn`. -/
structure Sizing.Ok (mcb : Mcb) (avail : ℕ) (stop : Option ℤ) (s : Sizing) : Prop where
  at_run : s.walk.At mcb
  stop : ∀ t, stop = some t → s.walk.nextVcn ≤ t ∧ t < 4294967296
  size : s.mSize + 1 ≤ avail
  highest : s.highestVcn = maxLonglong
  /-- Each run before this one takes at most seven bytes, and one more for each 128 clusters. -/
  bound : 128 * (s.mSize : ℤ) ≤ 896 * (if s.walk.found = none then mcb.pairCount else s.walk.runIndex) + s.walk.nextVcn

variable (hp : mcb.Plain) (hmany : mcb.pairCount ≤ 536870912)

section Run

variable {s : Sizing} (h : s.Ok mcb avail stop) (hsome : ¬(s.walk.found = none ∧ stop = none))

include hp h hsome

theorem Sizing.Ok.run : (s.walk.run (stop.getD 0 + 1)).vcn = s.walk.nextVcn ∧ Piece mcb (s.walk.run (stop.getD 0 + 1)) ∧
    beyond stop (s.walk.run (stop.getD 0 + 1)).vcn = false := by
  cases stop with
  | none =>
    cases hf : s.walk.found with
    | none => exact absurd ⟨hf, rfl⟩ hsome
    | some run =>
      have hrun := h.at_run.some run hf
      rw [Walk.run, hf]
      exact ⟨hrun.1, hrun.2.1, rfl⟩
  | some t =>
    obtain ⟨hle, hlt⟩ := h.stop t rfl
    obtain ⟨hvcn, hpiece⟩ := h.at_run.run hp (t + 1) (by omega) (by omega)
    exact ⟨hvcn, hpiece, decide_eq_false (by rw [getD_some, hvcn]; omega)⟩

include hmany

theorem Sizing.Ok.mSize_lt : s.mSize + runSize s.walk.currentLcn (s.walk.run (stop.getD 0 + 1)) + 1 < 4294967296 := by
  obtain ⟨-, hpiece, -⟩ := h.run hp hsome
  have hrun := (runSize_bounds hpiece h.at_run.lcn).2.2
  have hbound := h.bound
  have hstop := hpiece.stop
  have hvcn := hpiece.vcn
  have hnext := h.at_run.vcn.2
  split at hbound
  · omega
  · rename_i hf
    obtain ⟨run, hf⟩ := ne_none_iff_exists'.mp hf
    have hi := (h.at_run.some run hf).2.2.1
    omega

/-- The next iteration, if the run fits and does not end beyond `StopOnVcn`. -/
theorem Sizing.Ok.next (hfit : s.mSize + runSize s.walk.currentLcn (s.walk.run (stop.getD 0 + 1)) + 1 ≤ avail)
    (hin : beyond stop ((s.walk.run (stop.getD 0 + 1)).vcn + (s.walk.run (stop.getD 0 + 1)).count) = false) :
    ∃ run, s.walk.found = some run ∧ Sizing.Ok mcb avail stop ⟨s.walk.next mcb run, s.mSize + runSize s.walk.currentLcn run,
      s.highestVcn⟩ ∧
      (s.walk.next mcb run).runIndex = s.walk.runIndex + 1 := by
  obtain ⟨hvcn, hpiece, -⟩ := h.run hp hsome
  cases hf : s.walk.found with
  | none =>
    cases stop with
    | none => exact absurd ⟨hf, rfl⟩ hsome
    | some t =>
      have hrun : s.walk.run (t + 1) = ⟨s.walk.nextVcn, unusedLcn, t + 1 - s.walk.nextVcn⟩ := by rw [Walk.run, hf]
      have hle := of_decide_eq_false hin
      rw [getD_some, hrun] at hle
      dsimp only at hle
      omega
  | some run =>
    have hrun : s.walk.run (stop.getD 0 + 1) = run := by rw [Walk.run, hf]
    rw [hrun] at hfit hin hvcn hpiece
    obtain ⟨hnext, hindex⟩ := h.at_run.next hp (by omega) hf
    refine ⟨run, rfl, ⟨hnext, fun t ht => ?_, hfit, h.highest, ?_⟩, hindex⟩
    · subst ht
      exact ⟨Int.not_lt.mp (of_decide_eq_false hin), (h.stop t rfl).2⟩
    · have hbound := h.bound
      have hsize := (runSize_bounds hpiece h.at_run.lcn).2.2
      have hi := (h.at_run.some run hf).2.2.1
      rw [if_neg (by rw [hf]; exact some_ne_none _)] at hbound
      rw [hindex]
      have hnextVcn : (s.walk.next mcb run).nextVcn = run.vcn + run.count := rfl
      rw [hnextVcn, hvcn]
      dsimp only
      split <;> omega

end Run

/-- Sizing that stops at once, where nothing is left or the run does not fit. -/
theorem Sizing.Ok.stops (h : s.Ok mcb avail stop) (havail : avail < 4294967296)
    (hS : S = s.walk.nextVcn ∨ S = maxLonglong ∧ stop = none ∧ s.walk.found = none)
    (hprogress : S = maxLonglong ∨ avail < s.mSize + 12) (hcut : S ≠ maxLonglong → s.walk.nextVcn < 4294967296) :
    Sized mcb avail stop s.walk s.mSize (add32 s.mSize 1) S [] s.walk.nextVcn := by
  have hsize := h.size
  have hn : add32 s.mSize 1 = s.mSize + 1 := add32_of_lt (by omega)
  rw [hn]
  refine ⟨rfl, le_rfl, fun _ => rfl, h.size, ?_, fun t ht => ?_, fun _ => hprogress, fun _ => hcut⟩
  · obtain hS | ⟨hS, hstop, hf⟩ := hS
    · exact .inl hS
    · exact .inr ⟨hS, hstop, h.at_run.none hf⟩
  · have hle := (h.stop t ht).1
    omega

include hp hmany

/-- After a run the walk is at its end, or at the end of the part of it that was written. -/
theorem run_next_vcn {w : Walk} (hat : w.At mcb) (stop : ℤ) (part : Extent) (stop' : ℤ) :
    ((w.next mcb part).run stop').vcn = (w.run stop).vcn + (w.run stop).count ∨
      ((w.next mcb part).run stop').vcn = part.vcn + part.count := by
  cases hf : w.found with
  | none =>
    rw [Walk.run, found_next_of_none (by omega) hf]
    exact .inr rfl
  | some run =>
    have hrun : w.run stop = run := by rw [Walk.run, hf]
    obtain ⟨hnext, -⟩ := hat.next hp (by omega) hf
    have hfound : (w.next mcb part).found = (w.next mcb run).found := rfl
    rw [Walk.run, hfound, hrun]
    cases hf' : (w.next mcb run).found with
    | none => exact .inr rfl
    | some r => exact .inl (hnext.some r hf').1

/-- Sizing and building of the run that ends beyond `StopOnVcn`; it is the last. -/
theorem Sizing.Ok.last {t : ℤ} (h : s.Ok mcb avail (some t))
    (hfit : s.mSize + runSize s.walk.currentLcn (s.walk.run (t + 1)) + 1 ≤ avail)
    (hbeyond : t < (s.walk.run (t + 1)).vcn + (s.walk.run (t + 1)).count) (havail : avail < 4294967296)
    (out : List Byte) {m m' : ℕ} (hm : 1 < m) (hm' : 1 < m') :
    ∃ n S es e, loop (.fault .endless) (sizeBody mcb avail (some t)) m s = .ok (n, S) ∧
      Sized mcb avail (some t) s.walk s.mSize n S es e ∧
      loop (.fault .endless) (buildBody mcb S) m' ⟨s.walk, out⟩ = .ok (out ++ encode s.walk.currentLcn es ++ [0], e - 1) := by
  obtain ⟨m, rfl⟩ : ∃ l, m = l + 2 := ⟨m - 2, by omega⟩
  obtain ⟨m', rfl⟩ : ∃ l, m' = l + 2 := ⟨m' - 2, by omega⟩
  have hsome : ¬(s.walk.found = none ∧ some t = none) := fun h => some_ne_none t h.2
  obtain ⟨hvcn, hpiece, hin⟩ := h.run hp hsome
  obtain ⟨hle, hlt⟩ := h.stop t rfl
  have hbody := sizeBody_eq mcb avail hsome hin
  rw [getD_some] at hvcn hpiece hin hbody
  have hvcn_run := run_next_vcn hp hmany h.at_run (t + 1)
  generalize hrun : s.walk.run (t + 1) = run at *
  have hmSize : add32 s.mSize (runSize s.walk.currentLcn run) = s.mSize + runSize s.walk.currentLcn run := add32_of_lt (by omega)
  rw [hmSize, add32_of_lt (by omega), if_neg (by omega), beyond, decide_eq_true hbeyond, if_pos rfl] at hbody
  have hstop := sizeBody_beyond mcb avail
    (s := ⟨s.walk.next mcb run, s.mSize + runSize s.walk.currentLcn run, t + 1⟩) (t := t)
    (by obtain hv | hv := hvcn_run run (t + 1) <;> (dsimp only; rw [hv]; exact hbeyond)) hlt
  have hpart : (if run.vcn + run.count > t + 1 then { run with count := t + 1 - run.vcn } else run) =
    { run with count := t + 1 - run.vcn } := by
    split
    · rfl
    · have hc : t + 1 - run.vcn = run.count := by omega
      rw [hc]
  have hwrite := buildBody_run mcb (S := t + 1) (b := ⟨s.walk, out⟩) (fun h => by have := h.2; unfold maxLonglong at this; omega)
    (by dsimp only; rw [hrun]; omega)
  dsimp only at hwrite
  rw [hrun, hpart] at hwrite
  have hdone := buildBody_stop mcb (S := t + 1)
    (b := ⟨s.walk.next mcb { run with count := t + 1 - run.vcn },
      out ++ runBytes s.walk.currentLcn { run with count := t + 1 - run.vcn }⟩)
    (by omega) (by
      obtain hv | hv := hvcn_run { run with count := t + 1 - run.vcn } (t + 1)
      · dsimp only at hv ⊢
        rw [hv]
        omega
      · dsimp only at hv ⊢
        rw [hv]
        omega)
  refine ⟨s.mSize + runSize s.walk.currentLcn run + 1, t + 1, [{ run with count := t + 1 - run.vcn }], t + 1, ?_, ?_, ?_⟩
  · rw [loop_go hbody, loop_leave hstop, add32_of_lt (by dsimp only; omega)]
  · have hsize := runSize_trim hpiece s.walk.currentLcn (t + 1 - run.vcn) (by omega) (by omega)
    refine ⟨⟨hvcn, hpiece.trim (by omega) (by omega), by dsimp only [Chain]; omega⟩, ?_, fun h => absurd h (some_ne_none t), hfit,
      .inl rfl, fun t' ht' => ?_, fun h => absurd h (List.cons_ne_nil _ _), fun h => absurd h (some_ne_none t)⟩
    · rw [encode, encode, List.append_nil, length_runBytes]
      omega
    · rw [Option.some.inj ht']
  · rw [loop_go hwrite, loop_leave hdone, encode, encode, List.append_nil]
    have hnextVcn : (s.walk.next mcb { run with count := t + 1 - run.vcn }).nextVcn = t + 1 := by
      dsimp only [Walk.next]
      omega
    rw [hnextVcn]

/-- **Sizing and building in step**, with enough iterations. -/
theorem size_build (h : s.Ok mcb avail stop) (havail : avail < 4294967296) {k : ℕ}
    (hk : s.walk.found ≠ none → mcb.pairCount ≤ s.walk.runIndex + k) (out : List Byte) {m m' : ℕ} (hm : k + 1 < m)
    (hm' : k + 1 < m') :
    ∃ n S es e, loop (.fault .endless) (sizeBody mcb avail stop) m s = .ok (n, S) ∧ Sized mcb avail stop s.walk s.mSize n S es e ∧
      loop (.fault .endless) (buildBody mcb S) m' ⟨s.walk, out⟩ = .ok (out ++ encode s.walk.currentLcn es ++ [0], e - 1) := by
  induction k using Nat.strong_induction_on generalizing s out m m' with
  | h k ih =>
    obtain ⟨l, rfl⟩ : ∃ l, m = l + 1 := ⟨m - 1, by omega⟩
    obtain ⟨l', rfl⟩ : ∃ l, m' = l + 1 := ⟨m' - 1, by omega⟩
    by_cases hnone : s.walk.found = none ∧ stop = none
    · refine ⟨_, maxLonglong, [], s.walk.nextVcn, loop_leave ?_,
        h.stops havail (.inr ⟨rfl, hnone.2, hnone.1⟩) (.inl rfl) (fun h => absurd rfl h), loop_leave ?_⟩
      · rw [sizeBody, if_pos hnone, h.highest]
      · rw [buildBody, if_pos ⟨hnone.1, rfl⟩, encode, List.append_nil]
    · obtain ⟨hvcn, hpiece, hin⟩ := h.run hp hnone
      have hwrap := h.mSize_lt hp hmany hnone
      have hsmall := runSize_bounds hpiece h.at_run.lcn
      have hbody := sizeBody_eq mcb avail hnone hin
      have hmSize : add32 s.mSize (runSize s.walk.currentLcn (s.walk.run (stop.getD 0 + 1))) =
          s.mSize + runSize s.walk.currentLcn (s.walk.run (stop.getD 0 + 1)) := add32_of_lt (by omega)
      rw [hmSize, add32_of_lt hwrap] at hbody
      by_cases hfit : s.mSize + runSize s.walk.currentLcn (s.walk.run (stop.getD 0 + 1)) + 1 ≤ avail
      · rw [if_neg (by omega)] at hbody
        cases hb : beyond stop ((s.walk.run (stop.getD 0 + 1)).vcn + (s.walk.run (stop.getD 0 + 1)).count) with
        | true =>
          cases stop with
          | none => cases hb
          | some t => exact h.last hp hmany hfit (of_decide_eq_true hb) havail out (by omega) (by omega)
        | false =>
          obtain ⟨run, hf, hnext, hindex⟩ := h.next hp hmany hnone hfit hb
          have hi := (h.at_run.some run hf).2.2.1
          have hfound : s.walk.found ≠ none := by rw [hf]; exact some_ne_none _
          have hpairs := hk hfound
          have hrun : ∀ S, s.walk.run S = run := fun S => by rw [Walk.run, hf]
          rw [hb, if_neg Bool.false_ne_true, hrun] at hbody
          rw [hrun] at hvcn hpiece
          obtain ⟨n, S, es, e, hsized, hS, hbuilt⟩ := ih (k - 1) (by omega) hnext (by rw [hindex]; intro; omega)
            (out ++ runBytes s.walk.currentLcn run) (show k - 1 + 1 < l by omega) (show k - 1 + 1 < l' by omega)
          have hnextVcn : (s.walk.next mcb run).nextVcn = run.vcn + run.count := rfl
          have hcount := hpiece.count
          have hle := hS.chain.le
          have hstop := hpiece.stop
          rw [hnextVcn] at hle
          have hbig : run.vcn + run.count ≤ S := by
            obtain hS | ⟨hS, -⟩ := hS.stopped
            · omega
            · rw [hS]
              unfold maxLonglong
              omega
          have hwrite := buildBody_run mcb (S := S) (b := ⟨s.walk, out⟩) (fun h => hfound h.1) (by dsimp only; rw [hrun]; omega)
          dsimp only at hwrite
          rw [hrun, if_neg (by omega)] at hwrite
          refine ⟨n, S, run :: es, e, ?_, ?_, ?_⟩
          · rw [loop_go hbody, hsized]
          · have hlen : (encode s.walk.currentLcn (run :: es)).length =
                runSize s.walk.currentLcn run + (encode (s.walk.next mcb run).currentLcn es).length := by
              rw [encode, List.length_append, length_runBytes]
              rfl
            have hsize := hS.size
            dsimp only at hsize
            refine ⟨⟨hvcn, hpiece, ?_⟩, ?_, fun hnone' => ?_, hS.fits, hS.stopped, hS.within,
              fun h => absurd h (List.cons_ne_nil _ _), hS.cut⟩
            · rw [← hvcn]
              exact hS.chain
            · omega
            · have hsize := hS.size_eq hnone'
              dsimp only at hsize
              omega
          · rw [loop_go hwrite, hbuilt, encode, List.append_assoc out]
            rfl
      · rw [if_pos (by omega)] at hbody
        refine ⟨_, s.walk.nextVcn, [], s.walk.nextVcn, ?_, h.stops havail (.inl rfl) (.inr (by omega)) (fun _ => ?_),
          loop_leave ?_⟩
        · rw [loop_leave hbody, hvcn]
        · have hstop := hpiece.stop
          have hcount := hpiece.count
          omega
        · have hat := h.at_run.vcn.2
          rw [buildBody_stop mcb hat, encode, List.append_nil]
          cases hf : s.walk.found with
          | none => rw [Walk.run, hf]
          | some run =>
            rw [Walk.run, hf]
            exact le_of_eq (h.at_run.some run hf).1.symm

end Lockstep

end Nt365.Ntfs
