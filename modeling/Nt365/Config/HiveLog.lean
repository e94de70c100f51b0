import Nt365.Config.HiveMark

/-!
# The log space of a hive

The calls that change what has to be written: `HvMarkDirty`, `HvMarkCellDirty`, `HvpAddBin` (`CONFIG/HIVEBIN.C`) and a
completed `HvSyncHive`. Over any sequence of them the log stays reserved if and only if no call does one of three things
(`logReserved_along_iff`): the first mark of a clean hive outgrows the log; a bin that could not be allocated for a
discarded one at the start of the hive takes the first cluster back while other sectors are dirty; or the hive grows with
dirty sectors past its end.

## The model

Whether memory and file space can be had is part of a call. A call that does not return has no state after it: without a
dirty vector the loops of `HvMarkDirty` and `HvMarkClean` do not end, and past 2^31 bytes there are no slots for the map.
-/

namespace Nt365.Config.Hive

open Nt365.Library

/-- `HSTORAGE_TYPE`. -/
inductive HStorageType
  | stable
  | volatile
deriving DecidableEq

namespace HHive

variable (h : HHive)

/-- `Hive->Storage[Type]`. -/
def storage : HStorageType → Storage
  | .stable => h.stable
  | .volatile => h.volatile

/-- The hive with another storage of a type. -/
def withStorage (storage : Storage) : HStorageType → HHive
  | .stable => { h with stable := storage }
  | .volatile => { h with volatile := storage }

/-- The sectors of the dirty vector that a growth of the vector keeps: those of the blocks that the hive has, and of one
at least. -/
def keptSectors : ℕ := 8 * ((if 0 < h.stable.length then (h.stable.length - 1) / 4096 else 0) + 1)

/-- The hive with a new length, and with a dirty vector for it. -/
def growVector (newSize : ℕ) : HHive :=
  { h with
    stable := { h.stable with length := h.stable.length + newSize }
    sizeOfBitMap := (h.stable.length + newSize) / 512
    bit := fun i => if i < h.keptSectors then h.bit i else false }

/-- The exit of `HvpAddBin` that gives the new length back, but not the new vector. -/
def giveBack (oldLength : ℕ) : HHive :=
  { h with
    stable := { h.stable with length := oldLength }
    sizeOfBitMap := oldLength / 512
    dirtyCount := countIn h.bit 0 (oldLength / 512) }

end HHive

/-- `HvpGrowLog2`. -/
def hvpGrowLog2 (h : HHive) (size : ℕ) (grown : Bool) : Bool × HHive :=
  let dirtyBytes := roundUp (h.sizeOfBitMap / 8 + size / 512 / 8 + 4) (h.cluster * 512)
  if grown then (true, { h with logSize := roundUp (h.cluster * 512 + h.dirtyCount * 512 + dirtyBytes) 4096 }) else (false, h)

/-- The size of a bin for a size of its cells. -/
def binSize (newSize : ℕ) : ℕ :=
  let newSize := newSize + 32
  let newSize := if newSize < 12288 ∧ 3584 < newSize % 4096 then newSize + 4096 else newSize
  roundUp newSize 4096

/-- What `HvpAddBin` asks for, and whether it can be had. -/
structure Resources where
  bin : Bool
  map : Bool
  vector : Bool
  vectorLog : Bool
  primary : Bool
  alternate : Bool
  log : Bool
  headerLog : Bool

/-- `HvpAddBin` for a free bin that is large enough. Its offset has no type bit: for a free bin of the volatile storage,
sectors of the stable storage are marked. -/
def reuseBin (h : HHive) (freeBin : FreeHbin) (type : HStorageType) (r : Resources) : Option (Bool × HHive) :=
  match hvMarkDirty h freeBin.fileOffset freeBin.size r.log r.headerLog with
  | none => none
  | some (false, h) => some (false, h)
  | some (true, h) =>
    let storage := h.storage type
    let removed := storage.freeBins.erase freeBin
    if freeBin.discardable || r.bin then some (true, h.withStorage { storage with freeBins := removed } type)
    else
      (hvMarkClean (h.withStorage { storage with freeBins := freeBin :: removed } type) freeBin.fileOffset freeBin.size).map
        (false, ·)

/-- `HvpAddBin` for a bin at the end of the stable storage. -/
def growStable (h : HHive) (newSize : ℕ) (r : Resources) : Option (Bool × HHive) :=
  let oldLength := h.stable.length
  if r.vector = false then some (false, h)
  else
    match hvpGrowLog2 (h.growVector newSize) newSize r.vectorLog with
    | (false, h) => some (false, h.giveBack oldLength)
    | (true, h) =>
      if r.primary = false ∨ h.alternate = true ∧ r.alternate = false then some (false, h.giveBack oldLength)
      else
        match hvMarkDirty h oldLength newSize r.log r.headerLog with
        | none => none
        | some (false, h) => some (false, h.giveBack oldLength)
        | some (true, h) => some (true, h)

/-- `HvpAddBin`: whether there is a new bin. -/
def hvpAddBin (h : HHive) (newSize : ℕ) (type : HStorageType) (r : Resources) : Option (Bool × HHive) :=
  let newSize := binSize newSize
  match (h.storage type).freeBins.find? fun bin => newSize ≤ bin.size with
  | some freeBin => reuseBin h freeBin type r
  | none =>
    let newLength := (h.storage type).length + newSize
    if r.bin = false ∨ r.map = false then some (false, h)
    else if 2147483648 < newLength then none
    else
      match type with
      | .volatile => some (true, { h with volatile := { h.volatile with length := newLength } })
      | .stable => growStable h newSize r

/-- `HvMarkCellDirty`, for a cell of this size (negative if it is allocated) in this bin. -/
def hvMarkCellDirty (h : HHive) (cell : ℕ) (cellSize : ℤ) (binOffset binSize : ℕ) (grown headerGrown : Bool) :
    Option (Bool × HHive) :=
  if isVolatile cell then some (true, h)
  else if h.useOldCell then hvMarkDirty h binOffset binSize grown headerGrown
  else hvMarkDirty h (sub32 cell 4) cellSize.natAbs grown headerGrown

/-- `HvFreeHivePartial`. -/
def hvFreeHivePartial (h : HHive) (start : ℕ) (type : HStorageType) : HHive :=
  let storage := h.storage type
  if start = storage.length then h
  else
    let h := h.withStorage ⟨start, storage.freeBins.filter fun bin => bin.fileOffset < start⟩ type
    match type with
    | .volatile => h
    | .stable =>
      let bit := fillIn h.bit false (start / 512) h.sizeOfBitMap
      { h with bit := bit, dirtyCount := countIn bit 0 h.sizeOfBitMap }

/-- The length up to the last bin that is in use. -/
def truncatedLength (freeBins : List FreeHbin) (length : ℕ) : ℕ :=
  if _ : length = 0 then 0
  else
    match _hfind : freeBins.find? fun bin => bin.fileOffset ≤ length - 4096 ∧ length - 4096 < bin.fileOffset + bin.size with
    | some bin => truncatedLength freeBins bin.fileOffset
    | none => length
termination_by length
decreasing_by
  have hbin := List.find?_some _hfind
  have hle := (of_decide_eq_true hbin).1
  omega

/-- `HvpTruncateBins`. -/
def hvpTruncateBins (h : HHive) : HHive :=
  let h := hvFreeHivePartial h (truncatedLength h.stable.freeBins h.stable.length) .stable
  hvFreeHivePartial h (truncatedLength h.volatile.freeBins h.volatile.length) .volatile

/-- `HvpDiscardBins`. -/
def hvpDiscardBins (h : HHive) : HHive :=
  { h with stable := { h.stable with freeBins := h.stable.freeBins.map fun bin => { bin with discardable := false } } }

/-- A completed `HvSyncHive`: the log and the primary have been written, and the log is cut to `HLOG_MINSIZE`. -/
def hvSyncHive (h : HHive) : HHive :=
  if h.dirtyCount = 0 then h
  else
    let h := hvpTruncateBins h
    let h := { h with logSize := if h.cluster * 512 * 2 < h.logSize then h.cluster * 512 * 2 else h.logSize }
    let h := hvpDiscardBins h
    { h with bit := fillIn h.bit false 0 (roundUp h.sizeOfBitMap 32), dirtyCount := 0 }

/-- A call. -/
inductive Call
  | markDirty (start length : ℕ) (grown headerGrown : Bool)
  | markCellDirty (cell : ℕ) (cellSize : ℤ) (binOffset binSize : ℕ) (grown headerGrown : Bool)
  | addBin (newSize : ℕ) (type : HStorageType) (r : Resources)
  | sync

/-- The hive after a call. -/
def Call.run (h : HHive) : Call → Option HHive
  | .markDirty start length grown headerGrown => (hvMarkDirty h start length grown headerGrown).map (·.2)
  | .markCellDirty cell cellSize binOffset binSize grown headerGrown =>
    (hvMarkCellDirty h cell cellSize binOffset binSize grown headerGrown).map (·.2)
  | .addBin newSize type r => (hvpAddBin h newSize type r).map (·.2)
  | .sync => some (hvSyncHive h)

/-! ### What a call may not do -/

/-- The mark of a range does not outgrow the log. -/
def MarkSafe (h : HHive) (start length : ℕ) (grown headerGrown : Bool) : Prop :=
  isVolatile start = false → ¬Outgrows h (h.first start) (h.finish start length) grown headerGrown

/-- The range that is marked for a free bin, and clean again as there is no memory for it, has the first cluster in it, and
there are dirty sectors after it. -/
structure DropsHeader (h : HHive) (a b : ℕ) (grown : Bool) : Prop where
  start : a = 0
  marks : h.cleanSectors a b = 0 ∨ grown = true
  later : ∃ i, b ≤ i ∧ i < h.sizeOfBitMap ∧ h.bit i = true

/-- The free bin is used and its mark does not outgrow the log, or it is not used and does not take the first cluster back. -/
def ReuseSafe (h : HHive) (freeBin : FreeHbin) (r : Resources) : Prop :=
  if freeBin.discardable || r.bin then MarkSafe h freeBin.fileOffset freeBin.size r.log r.headerLog
  else
    isVolatile freeBin.fileOffset = false →
      ¬DropsHeader h (h.first freeBin.fileOffset) (h.finish freeBin.fileOffset freeBin.size) r.log

/-- The new sectors can be marked. -/
def CanMark (h : HHive) (a b : ℕ) (grown headerGrown : Bool) : Prop :=
  h.cleanSectors a b = 0 ∨ grown = true ∧ (h.dirtyCount = 0 ∧ a ≠ 0 → headerGrown = true)

/-- The stable storage grows with no dirty sector past its end, and the mark of the new bin does not outgrow the log. -/
def GrowSafe (h : HHive) (newSize : ℕ) (r : Resources) : Prop :=
  r.vector = true → r.vectorLog = true → r.primary = true → (h.alternate = true → r.alternate = true) →
    CanMark (h.growVector newSize) (h.stable.length / 512) ((h.stable.length + newSize) / 512) r.log r.headerLog →
      countIn h.bit 0 h.keptSectors = h.dirtyCount ∧
        ¬Outgrows (h.growVector newSize) (h.stable.length / 512) ((h.stable.length + newSize) / 512) r.log r.headerLog

/-- What a call must be for the log to stay reserved. -/
def Call.Safe (h : HHive) : Call → Prop
  | .markDirty start length grown headerGrown => MarkSafe h start length grown headerGrown
  | .markCellDirty cell cellSize binOffset binSize grown headerGrown =>
    isVolatile cell = false →
      if h.useOldCell then MarkSafe h binOffset binSize grown headerGrown
        else MarkSafe h (sub32 cell 4) cellSize.natAbs grown headerGrown
  | .addBin newSize type r =>
    match (h.storage type).freeBins.find? fun bin => binSize newSize ≤ bin.size with
    | some freeBin => ReuseSafe h freeBin r
    | none =>
      match type with
      | .volatile => True
      | .stable => r.bin = true → r.map = true → GrowSafe h (binSize newSize) r
  | .sync => True

variable {h h' h'' : HHive} {start length a b i j n newSize : ℕ} {grown headerGrown result : Bool} {freeBin : FreeHbin}
  {type : HStorageType} {r : Resources} {storage : Storage}

/-! ### Marks -/

theorem logReserved_withStorage : LogReserved (h.withStorage storage type) ↔ LogReserved h := by
  cases type <;> exact ⟨fun hlog => { hlog with }, fun hlog => { hlog with }⟩

theorem hvMarkDirty_cases (hwf : WellFormed h) (hlog : LogReserved h)
    (hrun : hvMarkDirty h start length grown headerGrown = some (result, h')) :
    (isVolatile start = true ∧ result = true ∧ h' = h) ∨
      isVolatile start = false ∧ h.sizeOfBitMap ≠ 0 ∧ Marked h (h.first start)
        (h.finish start length) grown headerGrown result h' := by
  cases hstable : isVolatile start with
  | true =>
    rw [hvMarkDirty_volatile hstable, Option.some.injEq, Prod.mk.injEq] at hrun
    exact .inl ⟨rfl, hrun.1.symm, hrun.2.symm⟩
  | false =>
    have hsize : h.sizeOfBitMap ≠ 0 := by
      intro hzero
      unfold hvMarkDirty hvMarkDirtyWith at hrun
      rw [hstable, if_neg Bool.false_ne_true, if_pos hzero] at hrun
      cases hrun
    obtain ⟨result', h'', heq, hmarked⟩ :=
      hvMarkDirty_spec length grown headerGrown hwf hsize hstable fun hcount _ => hlog.clear hcount
    rw [heq, Option.some.injEq, Prod.mk.injEq] at hrun
    obtain ⟨rfl, rfl⟩ := hrun
    exact .inr ⟨rfl, hsize, hmarked⟩

/-- **The step of a mark.** -/
theorem hvMarkDirty_logReserved (hwf : WellFormed h) (hlog : LogReserved h)
    (hrun : hvMarkDirty h start length grown headerGrown = some (result, h')) :
    WellFormed h' ∧ (LogReserved h' ↔ MarkSafe h start length grown headerGrown) := by
  unfold MarkSafe
  rcases hvMarkDirty_cases hwf hlog hrun with ⟨hvolatile, -, rfl⟩ | ⟨hstable, hsize, hmarked⟩
  · exact ⟨hwf, iff_of_true hlog fun hstable => absurd hvolatile (Bool.eq_false_iff.mp hstable)⟩
  · refine ⟨hmarked.wellFormed hwf, ?_⟩
    rw [hmarked.logReserved_iff hwf hlog hwf.dvd_first (hwf.dvd_finish hsize) (HHive.finish_le hsize)]
    exact ⟨fun hsafe _ => hsafe, fun hsafe => hsafe hstable⟩

/-! ### Free bins -/

/-- The hive with the sectors from `a` up to `b` clean again. -/
def HHive.cleaned (h : HHive) (a b : ℕ) : HHive :=
  { h with dirtyCount := h.dirtyCount - countIn h.bit a b, bit := fillIn h.bit false a b }

theorem hvMarkClean_eq (hstable : isVolatile start = false) (hsize : h.sizeOfBitMap ≠ 0) :
    hvMarkClean h start length = some (h.cleaned (h.first start) (h.finish start length)) := by
  unfold hvMarkClean
  rw [hstable, if_neg Bool.false_ne_true, if_neg hsize]
  rfl

theorem HHive.cleaned_of_le (hab : b ≤ a) : h.cleaned a b = h := by
  have hcount : countIn h.bit a b = 0 := countIn_eq_zero_iff.mpr fun i ha hb => absurd hb (by omega)
  have hbit : fillIn h.bit false a b = h.bit := funext fun i => fillIn_of_not_mem (by omega)
  unfold HHive.cleaned
  rw [hcount, hbit, Nat.sub_zero]

/-- **Cleaning a range** keeps the log reserved if and only if it leaves the first cluster, or nothing dirty. -/
theorem LogReserved.cleaned_iff (hwf : WellFormed h) (hlog : LogReserved h) (ha : h.cluster ∣ a) (hb : h.cluster ∣ b)
    (hsize : b ≤ h.sizeOfBitMap) :
    LogReserved (h.cleaned a b) ↔ ¬(a = 0 ∧ a < b ∧ ∃ i, b ≤ i ∧ i < h.sizeOfBitMap ∧ h.bit i = true) := by
  have hpos := hwf.cluster_pos
  rcases Nat.lt_or_ge a b with hab | hab
  swap
  · rw [HHive.cleaned_of_le hab]
    exact iff_of_true hlog fun hdrop => absurd hdrop.2.1 (by omega)
  have hfill := countIn_fillIn_false (p := h.bit) hab.le hsize
  have hcount : (h.cleaned a b).dirtyCount = countIn (fillIn h.bit false a b) 0 h.sizeOfBitMap := by
    have := hlog.count
    unfold HHive.cleaned
    dsimp only
    omega
  have hclusters := clusters_fillIn false hpos ha hb hlog.clusters
  have hlogSize : 0 < (h.cleaned a b).dirtyCount → h.logNeeded (h.cleaned a b).dirtyCount ≤ h.logSize := by
    intro hdirty
    have hle : (h.cleaned a b).dirtyCount ≤ h.dirtyCount := Nat.sub_le _ _
    exact (HHive.logNeeded_mono hle).trans (hlog.log (by omega))
  rcases Nat.eq_zero_or_pos a with rfl | hapos
  · -- the first cluster is clean: there may be nothing dirty
    have hle := Nat.le_of_dvd hab hb
    constructor
    · rintro hlog' ⟨-, -, i, hi, hlt, hset⟩
      have hdirty : 0 < (h.cleaned 0 b).dirtyCount := by
        rw [hcount]
        refine Nat.pos_of_ne_zero fun hzero => ?_
        have hclear := countIn_eq_zero_iff.mp hzero i (Nat.zero_le i) hlt
        rw [fillIn_of_not_mem (by omega), hset] at hclear
        cases hclear
      have hfirst := hlog'.header hdirty 0 hpos
      rw [show (h.cleaned 0 b).bit 0 = false from fillIn_of_mem le_rfl hab] at hfirst
      cases hfirst
    · intro hnone
      have hclean : (h.cleaned 0 b).dirtyCount = 0 := by
        rw [hcount, countIn_eq_zero_iff]
        intro i _ hi
        unfold fillIn
        split_ifs with hmem
        · rfl
        · by_contra hset
          exact hnone ⟨rfl, hab, i, by omega, hi, Bool.eq_true_of_not_eq_false hset⟩
      exact ⟨hcount, hclusters, fun hdirty => absurd hclean hdirty.ne', hlogSize⟩
  · refine iff_of_true ⟨hcount, hclusters, fun hdirty i hi => ?_, hlogSize⟩ fun hdrop => absurd hdrop.1 hapos.ne'
    have hle : h.cluster ≤ a := Nat.le_of_dvd hapos ha
    have hbefore : i < h.cluster := hi
    have hdirty' : 0 < h.dirtyCount := Nat.lt_of_lt_of_le hdirty (Nat.sub_le _ _)
    exact (fillIn_of_not_mem (by omega)).trans (hlog.header hdirty' i hi)

/-- A first mark that is taken back leaves the first cluster. -/
theorem LogReserved.cleaned_markFirst (hwf : WellFormed h) (hlog : LogReserved h) (ha : h.cluster ∣ a)
    (hsize : b ≤ h.sizeOfBitMap) (hclean : h.cleanSectors a b ≠ 0) (hfirst : h.dirtyCount = 0 ∧ a ≠ 0) :
    LogReserved (HHive.cleaned { h with
      logSize := h.logFor h.cluster
      dirtyCount := h.cluster + h.cleanSectors a b
      bit := fillIn (fillIn h.bit true 0 h.cluster) true a b } a b) := by
  have hpos := hwf.cluster_pos
  have hlt := HHive.lt_of_cleanSectors hclean
  have hle : h.cluster ≤ a := Nat.le_of_dvd (Nat.pos_of_ne_zero hfirst.2) ha
  have hclear := hlog.clear hfirst.1
  -- the bits are those of a mark of the first cluster alone
  have hbit : ∀ i < h.sizeOfBitMap, fillIn (fillIn (fillIn h.bit true 0 h.cluster) true a b) false a b i =
    fillIn h.bit true 0 h.cluster i := by
    intro i hi
    by_cases hmem : a ≤ i ∧ i < b
    · rw [fillIn_of_mem hmem.1 hmem.2, fillIn_of_not_mem (by omega), hclear i hi]
    · rw [fillIn_of_not_mem hmem, fillIn_of_not_mem hmem]
  have hcleaned : countIn (fillIn (fillIn h.bit true 0 h.cluster) true a b) a b = b - a :=
    countIn_of_forall fun i hi hlt => fillIn_of_mem hi hlt
  have hcluster := HHive.cleanSectors_of_clear (a := 0) (b := h.cluster) hclear (by omega)
  have hmark := hlog.mark hwf (Nat.dvd_zero _) dvd_rfl (by omega) (a := 0) (b := h.cluster) (by omega) (by omega)
  rw [hfirst.1, Nat.zero_add, hcluster] at hmark
  unfold HHive.cleaned
  dsimp only
  rw [hcleaned, HHive.cleanSectors_of_clear hclear hsize, Nat.add_sub_cancel]
  refine ⟨?_, fun i hi j hj hij hset => ?_, fun _ i hi => ?_, hmark.log⟩
  · rw [countIn_congr fun i _ hi => hbit i hi]
    exact hmark.count
  · exact (hbit j hj).trans (hmark.clusters i hi j hj hij ((hbit i hi).symm.trans hset))
  · have hlt : i < h.cluster := hi
    exact (hbit i (by omega)).trans (fillIn_of_mem (Nat.zero_le i) hlt)

/-- A mark that is taken back, for a bin for which there is no memory. -/
theorem Marked.cleaned_iff (hmarked : Marked h a b grown headerGrown true h') (hwf : WellFormed h) (hlog : LogReserved h)
    (ha : h.cluster ∣ a) (hb : h.cluster ∣ b) (hsize : b ≤ h.sizeOfBitMap) (hbpos : 0 < b) :
    LogReserved (h'.cleaned a b) ↔ ¬DropsHeader h a b grown := by
  cases hmarked with
  | already hdirty =>
    rw [hlog.cleaned_iff hwf ha hb hsize, not_iff_not]
    exact ⟨fun ⟨hstart, _, hlater⟩ => ⟨hstart, .inl hdirty, hlater⟩, fun hdrop => ⟨hdrop.start, hdrop.start ▸ hbpos, hdrop.later⟩⟩
  | marked hclean hgrown hfirst =>
    have hmark := hlog.mark hwf ha hb hsize hclean hfirst
    have hwf' := (Marked.marked hclean hgrown hfirst : Marked h a b grown headerGrown true _).wellFormed hwf
    rw [hmark.cleaned_iff hwf' ha hb hsize, not_iff_not]
    have hbit : ∀ i, b ≤ i → fillIn h.bit true a b i = h.bit i := fun i hi => fillIn_of_not_mem (by omega)
    constructor
    · rintro ⟨hstart, -, i, hi, hlt, hset⟩
      exact ⟨hstart, .inr hgrown, i, hi, hlt, (hbit i hi).symm.trans hset⟩
    · rintro ⟨hstart, -, i, hi, hlt, hset⟩
      exact ⟨hstart, hstart ▸ hbpos, i, hi, hlt, (hbit i hi).trans hset⟩
  | markedFirst hclean _ hfirst _ =>
    exact iff_of_true (hlog.cleaned_markFirst hwf ha hsize hclean hfirst) fun hdrop => hfirst.2 hdrop.start

theorem Marked.not_dropsHeader (hmarked : Marked h a b grown headerGrown false h') : ¬DropsHeader h a b grown := by
  intro hdrop
  cases hmarked with
  | full hclean hgrown => exact hdrop.marks.elim hclean fun htrue => Bool.false_ne_true (hgrown.symm.trans htrue)
  | headerFull _ _ hfirst _ => exact hfirst.2 hdrop.start

theorem Marked.logReserved_of_false (hmarked : Marked h a b grown headerGrown false h') (hlog : LogReserved h) :
    LogReserved h' := by
  cases hmarked with
  | full => exact hlog
  | headerFull _ _ hfirst _ => exact { hlog with log := fun hpos => absurd hfirst.1 (Nat.pos_iff_ne_zero.mp hpos) }

theorem WellFormed.withStorage (hwf : WellFormed h) (hlength : storage.length = (h.storage type).length)
    (hbins : ∀ bin ∈ storage.freeBins, bin ∈ (h.storage type).freeBins) : WellFormed (h.withStorage storage type) := by
  cases type with
  | volatile => exact { hwf with }
  | stable =>
    have hlength : storage.length = h.stable.length := hlength
    exact ⟨hwf.cluster, hwf.size, hlength ▸ hwf.length, hlength ▸ hwf.length_le, fun bin hmem => hwf.bins bin (hbins bin hmem)⟩

theorem WellFormed.cleaned (hwf : WellFormed h) : WellFormed (h.cleaned a b) := { hwf with }

theorem HHive.finish_pos : 0 < h.finish start length := Nat.succ_pos _

theorem HHive.cleaned_withStorage : (h.withStorage storage type).cleaned a b = (h.cleaned a b).withStorage storage type := by
  cases type <;> rfl

variable (start length type storage) in
theorem HHive.withStorage_range (hcluster : h'.cluster = h.cluster) (hsize : h'.sizeOfBitMap = h.sizeOfBitMap) :
    (h'.withStorage storage type).first start = h.first start ∧
      (h'.withStorage storage type).finish start length = h.finish start length := by
  unfold HHive.first HHive.finish
  cases type <;> (unfold HHive.withStorage; dsimp only; rw [hcluster, hsize]; exact ⟨rfl, rfl⟩)

theorem HHive.withStorage_size : (h.withStorage storage type).sizeOfBitMap = h.sizeOfBitMap := by cases type <;> rfl

theorem reuseBin_clean (hwf : WellFormed h) (hlog : LogReserved h)
    (hmark : hvMarkDirty h start length grown headerGrown = some (true, h'))
    (hrun : hvMarkClean (h'.withStorage storage type) start length = some h'')
    (hlength : storage.length = (h.storage type).length) (hbins : ∀ bin ∈ storage.freeBins, bin ∈ (h.storage type).freeBins) :
    WellFormed h'' ∧ (LogReserved h'' ↔
      (isVolatile start = false → ¬DropsHeader h (h.first start) (h.finish start length) grown)) := by
  rcases hvMarkDirty_cases hwf hlog hmark with ⟨hvolatile, -, rfl⟩ | ⟨hstable, hsize, hmarked⟩
  · rw [hvMarkClean, if_pos hvolatile, Option.some.injEq] at hrun
    rw [← hrun]
    exact ⟨hwf.withStorage hlength hbins, iff_of_true (logReserved_withStorage.mpr hlog) fun hstable =>
      absurd hvolatile (Bool.eq_false_iff.mp hstable)⟩
  · obtain ⟨hcluster, hsize', hsame, hsame'⟩ := hmarked.frame
    obtain ⟨hfirst, hfinish⟩ := HHive.withStorage_range start length type storage hcluster hsize'
    have hstorage : h'.storage type = h.storage type := by cases type with
      | stable => exact hsame
      | volatile => exact hsame'
    rw [hvMarkClean_eq hstable (by rw [HHive.withStorage_size, hsize']; exact hsize), hfirst, hfinish, HHive.cleaned_withStorage,
      Option.some.injEq] at hrun
    rw [← hrun, logReserved_withStorage,
      hmarked.cleaned_iff hwf hlog hwf.dvd_first (hwf.dvd_finish hsize) (HHive.finish_le hsize) HHive.finish_pos]
    have hwf' := (hmarked.wellFormed hwf).withStorage (hstorage ▸ hlength) (hstorage ▸ hbins)
    refine ⟨?_, fun hsafe _ => hsafe, fun hsafe => hsafe hstable⟩
    rw [← HHive.cleaned_withStorage]
    exact hwf'.cleaned

/-- **The step of a free bin.** -/
theorem reuseBin_logReserved (hwf : WellFormed h) (hlog : LogReserved h) (hmem : freeBin ∈ (h.storage type).freeBins)
    (hrun : reuseBin h freeBin type r = some (result, h')) : WellFormed h' ∧ (LogReserved h' ↔ ReuseSafe h freeBin r) := by
  unfold reuseBin at hrun
  cases hmark : hvMarkDirty h freeBin.fileOffset freeBin.size r.log r.headerLog with
  | none => rw [hmark] at hrun; cases hrun
  | some marked =>
    obtain ⟨result', h''⟩ := marked
    rw [hmark] at hrun
    obtain ⟨hwf'', hiff⟩ := hvMarkDirty_logReserved hwf hlog hmark
    unfold ReuseSafe
    cases result' with
    | false =>
      -- the range could not be marked
      cases hrun
      rcases hvMarkDirty_cases hwf hlog hmark with ⟨-, hfalse, -⟩ | ⟨-, -, hmarked⟩
      · cases hfalse
      · have hlog' := hmarked.logReserved_of_false hlog
        refine ⟨hwf'', iff_of_true hlog' ?_⟩
        split_ifs
        · exact hiff.mp hlog'
        · exact fun _ => hmarked.not_dropsHeader
    | true =>
      have hstorage : h''.storage type = h.storage type := by
        rcases hvMarkDirty_cases hwf hlog hmark with ⟨-, -, rfl⟩ | ⟨-, -, hmarked⟩
        · rfl
        · obtain ⟨-, -, hsame, hsame'⟩ := hmarked.frame
          cases type with
          | stable => exact hsame
          | volatile => exact hsame'
      have herase : ∀ bin ∈ (h.storage type).freeBins.erase freeBin, bin ∈ (h.storage type).freeBins :=
        fun bin => List.mem_of_mem_erase
      dsimp only at hrun
      split_ifs at hrun ⊢ with hused
      · rw [Option.some.injEq, Prod.mk.injEq] at hrun
        rw [← hrun.2, logReserved_withStorage]
        exact ⟨hwf''.withStorage rfl fun bin => List.mem_of_mem_erase, hiff⟩
      · obtain ⟨cleaned, hclean, hpair⟩ := Option.map_eq_some_iff.mp hrun
        cases hpair
        refine reuseBin_clean hwf hlog hmark hclean (by rw [hstorage]) ?_
        rw [hstorage]
        exact List.forall_mem_cons.mpr ⟨hmem, herase⟩

/-! ### Growth -/

theorem binSize_spec (newSize : ℕ) : 4096 ∣ binSize newSize ∧ 0 < binSize newSize := by
  unfold binSize
  dsimp only
  refine ⟨Nat.dvd_mul_left _ _, Nat.lt_of_lt_of_le ?_ (le_roundUp (by decide))⟩
  split_ifs <;> omega

theorem HHive.dvd_kept : 8 ∣ h.keptSectors := Nat.dvd_mul_right 8 _

theorem HHive.le_kept : 8 ≤ h.keptSectors := Nat.le_mul_of_pos_right 8 (Nat.succ_pos _)

theorem dvd_sectors (hdvd : 4096 ∣ n) : 8 ∣ n / 512 := by omega

section Growth

variable (hwf : WellFormed h)
include hwf

/-- The vector keeps the sectors of the blocks that the hive has. -/
theorem WellFormed.kept_eq : h.keptSectors = if 0 < h.stable.length then h.stable.length / 512 else 8 := by
  obtain ⟨k, hk⟩ := hwf.length
  unfold HHive.keptSectors
  split_ifs <;> omega

theorem WellFormed.kept_le (hsize : h.sizeOfBitMap ≠ 0) : h.keptSectors ≤ h.sizeOfBitMap := by
  obtain ⟨k, hk⟩ := hwf.size
  have hle := hwf.length_le
  rw [hwf.kept_eq]
  split_ifs <;> omega

theorem WellFormed.length_div_le : h.stable.length / 512 ≤ h.keptSectors ∧ h.stable.length / 512 ≤ h.sizeOfBitMap := by
  have hle := hwf.length_le
  rw [hwf.kept_eq]
  split_ifs <;> omega

theorem WellFormed.growVector (hnew : 4096 ∣ newSize) : WellFormed (h.growVector newSize) := by
  refine ⟨hwf.cluster, ?_, Nat.dvd_add hwf.length hnew, ?_, hwf.bins⟩
  all_goals
    obtain ⟨k, hk⟩ := hwf.length
    obtain ⟨m, hm⟩ := hnew
    unfold HHive.growVector
    dsimp only
    omega

theorem LogReserved.giveBack (hlog : LogReserved h) (hcluster : h'.cluster = h.cluster)
    (hbit : ∀ i < h.keptSectors, h'.bit i = h.bit i)
    (hroom : 0 < h.dirtyCount → h.cluster * 512 + roundUp (4 + h.stable.length / 512 / 8) (h.cluster * 512) + h.dirtyCount * 512 ≤
      h'.logSize) :
    LogReserved (h'.giveBack h.stable.length) := by
  obtain ⟨hkept, hsize⟩ := hwf.length_div_le
  have hcount : countIn h'.bit 0 (h.stable.length / 512) = countIn h.bit 0 (h.stable.length / 512) :=
    countIn_congr fun i _ hi => hbit i (by omega)
  have hle : countIn h.bit 0 (h.stable.length / 512) ≤ h.dirtyCount := by
    rw [hlog.count, countIn_append (Nat.zero_le _) hsize]
    exact Nat.le_add_right _ _
  refine ⟨rfl, fun i hi j hj hij hset => ?_, fun hpos i hi => ?_, fun hpos => ?_⟩
  · have hi : i < h.stable.length / 512 := hi
    have hj : j < h.stable.length / 512 := hj
    have hij : i / h'.cluster = j / h'.cluster := hij
    rw [hcluster] at hij
    have hset : h.bit i = true := (hbit i (by omega)).symm.trans hset
    exact (hbit j (by omega)).trans (hlog.clusters i (by omega) j (by omega) hij hset)
  · have hpos : 0 < countIn h'.bit 0 (h.stable.length / 512) := hpos
    have hi : i < h'.cluster := hi
    have h8 := Nat.le_of_dvd (by decide) hwf.cluster
    have hkept8 := h.le_kept
    exact (hbit i (by omega)).trans (hlog.header (by omega) i (by omega))
  · have hpos : 0 < countIn h'.bit 0 (h.stable.length / 512) := hpos
    have hroom := hroom (by omega)
    unfold HHive.giveBack HHive.logNeeded
    dsimp only
    rw [hcluster, hcount]
    exact (Nat.add_le_add_left (Nat.mul_le_mul_right 512 hle) _).trans hroom

theorem WellFormed.kept_le_new (hnew : 4096 ∣ newSize) (hpos : 0 < newSize) :
    h.keptSectors ≤ (h.stable.length + newSize) / 512 := by
  obtain ⟨m, hm⟩ := hnew
  rw [hwf.kept_eq]
  split_ifs <;> omega

theorem WellFormed.countIn_growVector (hnew : 4096 ∣ newSize) (hpos : 0 < newSize) :
    countIn (h.growVector newSize).bit 0 ((h.stable.length + newSize) / 512) = countIn h.bit 0 h.keptSectors := by
  have hkept : countIn (h.growVector newSize).bit 0 h.keptSectors = countIn h.bit 0 h.keptSectors :=
    countIn_congr fun i _ hi => if_pos hi
  have hpast : countIn (h.growVector newSize).bit h.keptSectors ((h.stable.length + newSize) / 512) = 0 :=
    countIn_eq_zero_iff.mpr fun i hi _ => if_neg (Nat.not_lt.mpr hi)
  rw [countIn_append (Nat.zero_le _) (hwf.kept_le_new hnew hpos), hkept, hpast, Nat.add_zero]

theorem LogReserved.growVector (hlog : LogReserved h) (hnew : 4096 ∣ newSize) (hpos : 0 < newSize)
    (hkept : countIn h.bit 0 h.keptSectors = h.dirtyCount) : LogReserved (hvpGrowLog2 (h.growVector newSize) newSize true).2 := by
  have h8 := Nat.le_of_dvd (by decide) hwf.cluster
  have hcpos := hwf.cluster_pos
  have hkeptpos := h.le_kept
  have hbit : ∀ i < h.keptSectors, (h.growVector newSize).bit i = h.bit i := fun i hi => if_pos hi
  have hpast : ∀ i, h.keptSectors ≤ i → (h.growVector newSize).bit i = false := fun i hi => if_neg (by omega)
  refine ⟨?_, fun i _ j _ hij hset => ?_, fun hdirty i hi => ?_, fun _ => ?_⟩
  · exact hkept.symm.trans (hwf.countIn_growVector hnew hpos).symm
  · have hij : i / h.cluster = j / h.cluster := hij
    have hset : (h.growVector newSize).bit i = true := hset
    have hi : i < h.keptSectors := by
      by_contra hge
      rw [hpast i (by omega)] at hset
      cases hset
    have hj : j < h.keptSectors := by
      have hiff := le_iff_of_dvd hcpos (hwf.cluster.trans (HHive.dvd_kept (h := h))) hij
      omega
    rw [hbit i hi] at hset
    have hsize : h.sizeOfBitMap ≠ 0 := by
      intro hzero
      have hclean := hlog.count
      rw [hzero, ← hkept] at hclean
      have hclear := countIn_eq_zero_iff.mp hclean i (Nat.zero_le i) hi
      rw [hset] at hclear
      cases hclear
    have hle := hwf.kept_le hsize
    exact (hbit j hj).trans (hlog.clusters i (by omega) j (by omega) hij hset)
  · have hi : i < h.cluster := hi
    exact (hbit i (by omega)).trans (hlog.header hdirty i hi)
  · unfold hvpGrowLog2 HHive.logNeeded
    rw [if_pos rfl]
    refine le_trans ?_ (le_roundUp (by decide))
    have hround := roundUp_mono (n := h.cluster * 512)
      (show 4 + (h.growVector newSize).sizeOfBitMap / 8 ≤ (h.growVector newSize).sizeOfBitMap / 8 + newSize / 512 / 8 + 4 by omega)
    change h.cluster * 512 + roundUp (4 + (h.growVector newSize).sizeOfBitMap / 8) (h.cluster * 512) + h.dirtyCount * 512 ≤
      h.cluster * 512 + h.dirtyCount * 512 + roundUp ((h.growVector newSize).sizeOfBitMap / 8 + newSize / 512 / 8 + 4)
        (h.cluster * 512)
    omega

theorem WellFormed.first_eq (hdvd : 4096 ∣ start) : h.first start = start / 512 := by
  obtain ⟨k, rfl⟩ := hdvd
  obtain ⟨m, hm⟩ := hwf.cluster
  have hsectors : 4096 * k / 512 = h.cluster * (m * k) := by
    rw [← Nat.mul_assoc, ← hm]
    omega
  unfold HHive.first
  dsimp only
  rw [hsectors, Nat.mul_div_cancel_left _ hwf.cluster_pos, Nat.mul_comm]
  exact ite_self _

theorem WellFormed.finish_eq (hstart : 4096 ∣ start + length) (hpos : 0 < length) (hle : start + length ≤ 2147483648)
    (hsize : h.sizeOfBitMap = (start + length) / 512) : h.finish start length = (start + length) / 512 := by
  obtain ⟨k, hk⟩ := hstart
  obtain ⟨m, hm⟩ := hwf.cluster
  have hcpos := hwf.cluster_pos
  have hlast : sub32 (add32 start length) 1 / 512 + 1 = 8 * k := by
    unfold sub32 add32
    omega
  have hround : roundUp (8 * k) h.cluster = 8 * k := by
    unfold roundUp
    rw [show 8 * k = h.cluster * (m * k) by rw [← Nat.mul_assoc, ← hm], Nat.add_sub_assoc hcpos,
      Nat.mul_add_div hcpos, Nat.div_eq_of_lt (by omega), Nat.add_zero, Nat.mul_comm]
  unfold HHive.finish
  dsimp only
  rw [hlast, hround, hsize]
  split_ifs <;> omega

/-- A hive has no dirty sector past its end, if it has one block at least and the dirty count is 0. -/
theorem WellFormed.growVector_clear (newSize : ℕ) (hlog : LogReserved h) (hcount : h.dirtyCount = 0)
    (hlength : h.stable.length / 512 ≠ 0) (i : ℕ) : (h.growVector newSize).bit i = false := by
  obtain ⟨-, hsize⟩ := hwf.length_div_le
  have hle := hwf.kept_le (by omega)
  unfold HHive.growVector
  dsimp only
  split_ifs with hi
  · exact hlog.clear hcount i (by omega)
  · rfl

theorem WellFormed.giveBack (hcluster : h'.cluster = h.cluster) (hbins : h'.stable.freeBins = h.stable.freeBins) :
    WellFormed (h'.giveBack h.stable.length) := by
  obtain ⟨k, hk⟩ := hwf.length
  refine ⟨hcluster ▸ hwf.cluster, ⟨k, ?_⟩, hwf.length, ?_, fun bin hmem => hwf.bins bin (hbins ▸ hmem)⟩
  all_goals
    unfold HHive.giveBack
    dsimp only
    omega

end Growth

theorem Marked.canMark_iff (hmarked : Marked h a b grown headerGrown result h') :
    result = true ↔ CanMark h a b grown headerGrown := by
  cases hmarked with
  | already hdirty => exact iff_of_true rfl (.inl hdirty)
  | full hclean hgrown =>
    refine iff_of_false Bool.false_ne_true fun hcan => hcan.elim hclean fun hboth => ?_
    exact Bool.false_ne_true (hgrown.symm.trans hboth.1)
  | headerFull hclean _ hfirst hheader =>
    refine iff_of_false Bool.false_ne_true fun hcan => hcan.elim hclean fun hboth => ?_
    exact Bool.false_ne_true (hheader.symm.trans (hboth.2 hfirst))
  | marked _ hgrown hfirst => exact iff_of_true rfl (.inr ⟨hgrown, fun hfirst' => absurd hfirst' hfirst⟩)
  | markedFirst _ hgrown _ hheader => exact iff_of_true rfl (.inr ⟨hgrown, fun _ => hheader⟩)

theorem Marked.not_logReserved (hmarked : Marked h a b grown headerGrown true h') (hsize : b ≤ h.sizeOfBitMap)
    (hclear : h.dirtyCount = 0 → a ≠ 0 → ∀ i < h.sizeOfBitMap, h.bit i = false)
    (hcount : h.dirtyCount ≠ countIn h.bit 0 h.sizeOfBitMap) : ¬LogReserved h' := by
  intro hlog
  have hcount' := hlog.count
  cases hmarked with
  | already => exact hcount hcount'
  | marked hclean =>
    dsimp only at hcount'
    rw [countIn_fillIn_true (HHive.lt_of_cleanSectors hclean).le hsize] at hcount'
    exact hcount (Nat.add_right_cancel hcount')
  | markedFirst _ _ hfirst =>
    refine hcount (hfirst.1.trans (countIn_eq_zero_iff.mpr fun i _ hi => ?_).symm)
    exact hclear hfirst.1 hfirst.2 i hi

theorem outgrows_logSize {logSize : ℕ} :
    Outgrows { h with logSize := logSize } a b grown headerGrown ↔ Outgrows h a b grown headerGrown :=
  ⟨fun hout => { hout with }, fun hout => { hout with }⟩

/-- The hive with the new vector and with the log for it. -/
def HHive.enlarged (h : HHive) (newSize : ℕ) : HHive := (hvpGrowLog2 (h.growVector newSize) newSize true).2

theorem HHive.roundUp_le_of_le {m : ℕ} (hm : h.stable.length / 512 ≤ m) :
    roundUp (4 + h.stable.length / 512 / 8) (h.cluster * 512) ≤ roundUp (4 + m / 8) (h.cluster * 512) :=
  roundUp_mono (Nat.add_le_add_left (Nat.div_le_div_right hm) 4)

section Step

variable (hwf : WellFormed h)
include hwf

theorem WellFormed.enlarged (hnew : 4096 ∣ newSize) : WellFormed (h.enlarged newSize) := by
  have hwf' := hwf.growVector hnew
  exact ⟨hwf'.cluster, hwf'.size, hwf'.length, hwf'.length_le, hwf'.bins⟩

variable (hlog : LogReserved h)
include hlog

theorem LogReserved.giveBack_enlarged (newSize : ℕ) (hcluster : h'.cluster = h.cluster) (hbit : h'.bit = (h.enlarged newSize).bit)
    (hroom : 0 < h.dirtyCount → h'.logSize = (h.enlarged newSize).logSize) : LogReserved (h'.giveBack h.stable.length) := by
  refine hlog.giveBack hwf hcluster (fun i hi => by rw [hbit]; exact if_pos hi) fun hdirty => ?_
  have hle := HHive.roundUp_le_of_le (h := h) (m := (h.stable.length + newSize) / 512)
    (Nat.div_le_div_right (Nat.le_add_right _ _))
  have hle' := roundUp_mono (n := h.cluster * 512)
    (show 4 + (h.stable.length + newSize) / 512 / 8 ≤ (h.stable.length + newSize) / 512 / 8 + newSize / 512 / 8 + 4 by omega)
  rw [hroom hdirty]
  refine le_trans ?_ (le_roundUp (by decide) : _ ≤ (h.enlarged newSize).logSize)
  change _ ≤ h.cluster * 512 + h.dirtyCount * 512 +
    roundUp ((h.stable.length + newSize) / 512 / 8 + newSize / 512 / 8 + 4) (h.cluster * 512)
  omega

variable (hnew : 4096 ∣ newSize) (hpos : 0 < newSize)
include hnew hpos

theorem growMark (hlength : h.stable.length + newSize ≤ 2147483648)
    (hrun : hvMarkDirty (h.enlarged newSize) h.stable.length newSize grown headerGrown = some (result, h')) :
    Marked (h.enlarged newSize) (h.stable.length / 512) ((h.stable.length + newSize) / 512) grown headerGrown result h' := by
  have hwf' := hwf.enlarged hnew
  have hsize : (h.enlarged newSize).sizeOfBitMap ≠ 0 := by
    have hle := hwf.kept_le_new hnew hpos
    have hkept := h.le_kept
    change (h.stable.length + newSize) / 512 ≠ 0
    omega
  have hfirst : (h.enlarged newSize).first h.stable.length = h.stable.length / 512 := hwf'.first_eq hwf.length
  have hfinish : (h.enlarged newSize).finish h.stable.length newSize = (h.stable.length + newSize) / 512 :=
    hwf'.finish_eq (Nat.dvd_add hwf.length hnew) hpos hlength rfl
  have hstable : isVolatile h.stable.length = false := by
    unfold isVolatile
    exact decide_eq_false (by omega)
  obtain ⟨result', h'', heq, hmarked⟩ :=
    hvMarkDirty_spec newSize grown headerGrown hwf' hsize hstable fun hcount hne i _ =>
      hwf.growVector_clear newSize hlog hcount (hfirst ▸ hne) i
  rw [heq, Option.some.injEq, Prod.mk.injEq] at hrun
  obtain ⟨rfl, rfl⟩ := hrun
  rwa [hfirst, hfinish] at hmarked

/-- **The step of a growth.** -/
theorem growStable_logReserved (hlength : h.stable.length + newSize ≤ 2147483648)
    (hrun : growStable h newSize r = some (result, h')) : WellFormed h' ∧ (LogReserved h' ↔ GrowSafe h newSize r) := by
  unfold growStable at hrun
  dsimp only at hrun
  split_ifs at hrun with hvector
  · cases hrun
    exact ⟨hwf, iff_of_true hlog fun htrue => absurd (hvector.symm.trans htrue) Bool.false_ne_true⟩
  cases hlog2 : r.vectorLog with
  | false =>
    rw [hlog2] at hrun
    cases hrun
    refine ⟨hwf.giveBack rfl rfl, iff_of_true (hlog.giveBack hwf rfl (fun i hi => if_pos hi) fun hdirty => ?_) fun _ htrue => ?_⟩
    · have hroom := hlog.log hdirty
      have hle := HHive.roundUp_le_of_le hwf.length_div_le.2
      unfold HHive.logNeeded at hroom
      exact le_trans (by omega) hroom
    · exact absurd (hlog2.symm.trans htrue) Bool.false_ne_true
  | true =>
    rw [hlog2] at hrun
    change (if r.primary = false ∨ h.alternate = true ∧ r.alternate = false then
      some (false, (h.enlarged newSize).giveBack h.stable.length)
      else match hvMarkDirty (h.enlarged newSize) h.stable.length newSize r.log r.headerLog with
        | none => none
        | some (false, h') => some (false, h'.giveBack h.stable.length)
        | some (true, h') => some (true, h')) = some (result, h') at hrun
    split_ifs at hrun with hfile
    · cases hrun
      refine ⟨hwf.giveBack rfl rfl, iff_of_true (hlog.giveBack_enlarged hwf newSize rfl rfl fun _ =>
        rfl) fun _ _ hprimary halternate => ?_⟩
      rcases hfile with hfile | ⟨hboth, hfile⟩
      · exact absurd (hfile.symm.trans hprimary) Bool.false_ne_true
      · exact absurd (hfile.symm.trans (halternate hboth)) Bool.false_ne_true
    rw [not_or, not_and, Bool.not_eq_false, Bool.not_eq_false] at hfile
    cases hmark : hvMarkDirty (h.enlarged newSize) h.stable.length newSize r.log r.headerLog with
    | none => rw [hmark] at hrun; cases hrun
    | some marked =>
      obtain ⟨result', h''⟩ := marked
      have hmarked := growMark hwf hlog hnew hpos hlength hmark
      obtain ⟨hcluster, -, hstable, -⟩ := hmarked.frame
      have hcan := hmarked.canMark_iff
      rw [hmark] at hrun
      cases result' with
      | false =>
        cases hrun
        refine ⟨hwf.giveBack hcluster (by rw [hstable]; rfl), iff_of_true (hlog.giveBack_enlarged hwf newSize hcluster ?_ ?_) ?_⟩
        · cases hmarked <;> rfl
        · intro hdirty
          cases hmarked with
          | full => rfl
          | headerFull _ _ hfirst _ => exact absurd hfirst.1 hdirty.ne'
        · exact fun _ _ _ _ hmarks => absurd (hcan.mpr hmarks) Bool.false_ne_true
      | true =>
        cases hrun
        refine ⟨hmarked.wellFormed (hwf.enlarged hnew), ?_⟩
        have hall : GrowSafe h newSize r ↔ countIn h.bit 0 h.keptSectors = h.dirtyCount ∧
            ¬Outgrows (h.growVector newSize) (h.stable.length / 512) ((h.stable.length + newSize) / 512) r.log r.headerLog :=
          ⟨fun hsafe => hsafe (Bool.eq_true_of_not_eq_false hvector) hlog2 hfile.1 hfile.2 (hcan.mp rfl),
            fun hsafe _ _ _ _ _ => hsafe⟩
        rw [hall]
        by_cases hkept : countIn h.bit 0 h.keptSectors = h.dirtyCount
        · rw [hmarked.logReserved_iff (hwf.enlarged hnew) (hlog.growVector hwf hnew hpos hkept)
            (hwf.cluster.trans (dvd_sectors hwf.length))
            (hwf.cluster.trans (dvd_sectors (Nat.dvd_add hwf.length hnew))) le_rfl]
          exact ⟨fun hout => ⟨hkept, fun hout' => hout (outgrows_logSize.mpr hout')⟩,
            fun hsafe hout => hsafe.2 (outgrows_logSize.mp hout)⟩
        · refine iff_of_false (hmarked.not_logReserved le_rfl (fun hcount hne i _ => ?_) ?_) fun hsafe => hkept hsafe.1
          · exact hwf.growVector_clear newSize hlog hcount hne i
          · exact fun hcount => hkept ((hwf.countIn_growVector hnew hpos).symm.trans hcount.symm)

end Step

/-! ### Synchronisation -/

theorem truncatedLength_spec {freeBins : List FreeHbin} (hbins : ∀ bin ∈ freeBins, 4096 ∣ bin.fileOffset)
    (hlength : 4096 ∣ length) : 4096 ∣ truncatedLength freeBins length ∧ truncatedLength freeBins length ≤ length := by
  fun_induction truncatedLength freeBins length with
  | case1 => exact ⟨Nat.dvd_zero _, Nat.zero_le _⟩
  | case2 length hlength bin hfind ih =>
    have hbin := List.find?_some hfind
    have hle := (of_decide_eq_true hbin).1
    obtain ⟨hdvd, hle'⟩ := ih (hbins bin (List.mem_of_find?_eq_some hfind))
    exact ⟨hdvd, by omega⟩
  | case3 => exact ⟨hlength, le_rfl⟩

theorem WellFormed.hvFreeHivePartial (hwf : WellFormed h)
    (hstart : type = .stable → 4096 ∣ start ∧ start ≤ h.stable.length) : WellFormed (hvFreeHivePartial h start type) := by
  unfold Hive.hvFreeHivePartial
  dsimp only
  split_ifs
  · exact hwf
  · cases type with
    | volatile => exact { hwf with }
    | stable =>
      obtain ⟨hdvd, hle⟩ := hstart rfl
      exact ⟨hwf.cluster, hwf.size, hdvd, hle.trans hwf.length_le, fun bin hmem => hwf.bins bin (List.mem_of_mem_filter hmem)⟩

theorem WellFormed.hvpTruncateBins (hwf : WellFormed h) : WellFormed (hvpTruncateBins h) :=
  (hwf.hvFreeHivePartial fun _ => truncatedLength_spec hwf.bins hwf.length).hvFreeHivePartial fun hne => by cases hne

/-- **The step of a synchronisation.** -/
theorem hvSyncHive_logReserved (hwf : WellFormed h) (hlog : LogReserved h) :
    WellFormed (hvSyncHive h) ∧ LogReserved (hvSyncHive h) := by
  unfold hvSyncHive
  split_ifs
  · exact ⟨hwf, hlog⟩
  have hwf' := hwf.hvpTruncateBins
  generalize hvpTruncateBins h = h' at hwf'
  refine ⟨⟨hwf'.cluster, hwf'.size, hwf'.length, hwf'.length_le, fun bin hmem => ?_⟩, ?_, fun i hi j _ _ hset => ?_, ?_, ?_⟩
  · obtain ⟨bin', hmem', rfl⟩ := List.mem_map.mp hmem
    exact hwf'.bins bin' hmem'
  · refine (countIn_eq_zero_iff.mpr fun i _ hi => ?_).symm
    exact fillIn_of_mem (Nat.zero_le i) (Nat.lt_of_lt_of_le hi (le_roundUp (by decide)))
  · have hclear := (fillIn_of_mem (Nat.zero_le i) (Nat.lt_of_lt_of_le hi (le_roundUp (by decide)))).symm.trans hset
    cases hclear
  · exact fun hpos => absurd hpos (Nat.lt_irrefl 0)
  · exact fun hpos => absurd hpos (Nat.lt_irrefl 0)

/-! ### Sequences of calls -/

theorem hvpAddBin_logReserved (hwf : WellFormed h) (hlog : LogReserved h) (hrun : hvpAddBin h newSize type r = some (result, h')) :
    WellFormed h' ∧ (LogReserved h' ↔ (Call.addBin newSize type r).Safe h) := by
  unfold hvpAddBin at hrun
  unfold Call.Safe
  dsimp only at hrun ⊢
  obtain ⟨hdvd, hpos⟩ := binSize_spec newSize
  cases hfind : (h.storage type).freeBins.find? fun bin => binSize newSize ≤ bin.size with
  | some freeBin =>
    rw [hfind] at hrun
    exact reuseBin_logReserved hwf hlog (List.mem_of_find?_eq_some hfind) hrun
  | none =>
    rw [hfind] at hrun
    dsimp only at hrun ⊢
    split_ifs at hrun with hmemory hlength
    · cases hrun
      refine ⟨hwf, iff_of_true hlog ?_⟩
      cases type with
      | volatile => trivial
      | stable =>
        intro hbin hmap
        rcases hmemory with hfalse | hfalse
        · exact absurd (hfalse.symm.trans hbin) Bool.false_ne_true
        · exact absurd (hfalse.symm.trans hmap) Bool.false_ne_true
    · rw [not_or, Bool.not_eq_false, Bool.not_eq_false] at hmemory
      cases type with
      | volatile =>
        cases hrun
        exact ⟨{ hwf with }, iff_of_true { hlog with } trivial⟩
      | stable =>
        obtain ⟨hwf', hiff⟩ := growStable_logReserved hwf hlog hdvd hpos (Nat.le_of_not_lt hlength) hrun
        exact ⟨hwf', hiff.trans ⟨fun hsafe _ _ => hsafe, fun hsafe => hsafe hmemory.1 hmemory.2⟩⟩

/-- **One call** keeps the log reserved if and only if it is safe. -/
theorem Call.run_logReserved (hwf : WellFormed h) (hlog : LogReserved h) {call : Call} (hrun : call.run h = some h') :
    WellFormed h' ∧ (LogReserved h' ↔ call.Safe h) := by
  cases call with
  | markDirty start length grown headerGrown =>
    obtain ⟨⟨result, h''⟩, hmark, rfl⟩ := Option.map_eq_some_iff.mp hrun
    exact hvMarkDirty_logReserved hwf hlog hmark
  | markCellDirty cell cellSize binOffset binSize grown headerGrown =>
    obtain ⟨⟨result, h''⟩, hmark, rfl⟩ := Option.map_eq_some_iff.mp hrun
    unfold hvMarkCellDirty at hmark
    unfold Call.Safe
    dsimp only
    cases hstable : isVolatile cell with
    | true =>
      rw [hstable, if_pos rfl] at hmark
      cases hmark
      exact ⟨hwf, iff_of_true hlog fun hne => absurd hne.symm Bool.false_ne_true⟩
    | false =>
      rw [hstable, if_neg Bool.false_ne_true] at hmark
      rw [forall_prop_of_true rfl]
      split_ifs at hmark ⊢
      · exact hvMarkDirty_logReserved hwf hlog hmark
      · exact hvMarkDirty_logReserved hwf hlog hmark
  | addBin newSize type r =>
    obtain ⟨⟨result, h''⟩, hadd, rfl⟩ := Option.map_eq_some_iff.mp hrun
    exact hvpAddBin_logReserved hwf hlog hadd
  | sync =>
    cases hrun
    obtain ⟨hwf', hlog'⟩ := hvSyncHive_logReserved hwf hlog
    exact ⟨hwf', iff_of_true hlog' trivial⟩

/-- The log is reserved in every state of a sequence of calls. -/
def LogReservedAlong : HHive → List Call → Prop
  | h, [] => LogReserved h
  | h, call :: calls => LogReserved h ∧ ∀ h', call.run h = some h' → LogReservedAlong h' calls

/-- Every call of a sequence that returns is safe. -/
def SafeAlong : HHive → List Call → Prop
  | _, [] => True
  | h, call :: calls => ∀ h', call.run h = some h' → call.Safe h ∧ SafeAlong h' calls

/-- **The log space of a hive**: over any sequence of calls the log is reserved in every state if and only if no call makes
the first mark of a clean hive outgrow the log, takes the first cluster back while other sectors are dirty, or grows the
hive with dirty sectors past its end. -/
theorem logReserved_along_iff (h : HHive) (calls : List Call) (hwf : WellFormed h) (hlog : LogReserved h) :
    LogReservedAlong h calls ↔ SafeAlong h calls := by
  induction calls generalizing h with
  | nil => exact iff_of_true hlog trivial
  | cons call calls ih =>
    constructor
    · rintro ⟨-, hrest⟩ h' hrun
      obtain ⟨hwf', hiff⟩ := call.run_logReserved hwf hlog hrun
      have halong := hrest h' hrun
      have hlog' : LogReserved h' := by cases calls with
        | nil => exact halong
        | cons => exact halong.1
      exact ⟨hiff.mp hlog', (ih h' hwf' hlog').mp halong⟩
    · intro hsafe
      refine ⟨hlog, fun h' hrun => ?_⟩
      obtain ⟨hwf', hiff⟩ := call.run_logReserved hwf hlog hrun
      obtain ⟨hcall, hrest⟩ := hsafe h' hrun
      have hlog' := hiff.mpr hcall
      exact (ih h' hwf' hlog').mpr hrest

/-- A clean hive of two blocks. -/
def twoBlocks : HHive where
  useOldCell := false
  cluster := 1
  alternate := false
  sizeOfBitMap := 16
  bit _ := false
  dirtyCount := 0
  logSize := 1024
  stable := ⟨8192, []⟩
  volatile := ⟨0, []⟩

theorem twoBlocks_wellFormed : WellFormed twoBlocks where
  cluster := by decide
  size := by decide
  length := by decide
  length_le := by decide
  bins := fun _ hmem => absurd hmem List.not_mem_nil

theorem twoBlocks_logReserved : LogReserved twoBlocks where
  count := by decide
  clusters := fun _ _ _ _ _ hset => absurd hset Bool.false_ne_true
  header := fun hpos => absurd hpos (Nat.lt_irrefl 0)
  log := fun hpos => absurd hpos (Nat.lt_irrefl 0)

/-- With one sector of the second block there is room in what rounding leaves. -/
theorem logReserved_along_sector : LogReservedAlong twoBlocks [.markDirty 4096 512 true true, .sync] := by
  refine (logReserved_along_iff twoBlocks _ twoBlocks_wellFormed twoBlocks_logReserved).mpr fun h' _ =>
    ⟨fun _ hout => ?_, fun _ _ => ?_⟩
  · exact absurd hout.room (by decide)
  · exact ⟨trivial, trivial⟩

/-- The second block is marked: nine sectors are dirty, and the log has room for seven. -/
theorem markDirty_outgrows :
    ((Call.markDirty 4096 4096 true true).run twoBlocks).map (fun h => (h.dirtyCount, h.logNeeded h.dirtyCount, h.logSize)) =
        some (9, 5632, 4096) ∧
      ¬LogReservedAlong twoBlocks [.markDirty 4096 4096 true true] := by
  have hrun : ((Call.markDirty 4096 4096 true true).run twoBlocks).map
    (fun h => (h.dirtyCount, h.logNeeded h.dirtyCount, h.logSize)) =
      some (9, 5632, 4096) := by decide +kernel
  refine ⟨hrun, fun ⟨_, hall⟩ => ?_⟩
  obtain ⟨h', hrun, hvalues⟩ := Option.map_eq_some_iff.mp hrun
  rw [Prod.mk.injEq, Prod.mk.injEq] at hvalues
  have hlog : LogReserved h' := hall h' hrun
  have hroom := hlog.log (by omega)
  omega

end Nt365.Config.Hive
