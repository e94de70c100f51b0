import Nt365.Library.BitCount
import Nt365.Config.HiveDirty

/-!
# Marking a hive dirty

`HvMarkDirty`, `HvMarkClean` and the growth of the log (`CONFIG/HIVESYNC.C`). A state keeps its log reserved (`LogReserved`)
if the dirty count is right, the dirty sectors are whole clusters, and a hive with dirty sectors has its first cluster dirty
and a log in which the header, the dirty vector and the dirty sectors have room.

The log is grown before the bits are set, for the count that is to come. But the first mark of a clean hive forces the
header of the first bin dirty as well: `HvMarkDirty` calls itself, with a dirty count that is still 0, and the log gets the
size for the first cluster alone. So a mark keeps the log reserved if and only if it is not the first one, or has the first
cluster in it, or is so small that its sectors have room in what rounding leaves (`Marked.logReserved_iff`).
-/

namespace Nt365.Config.Hive

open Nt365.Library

/-- `FREE_HBIN`. -/
structure FreeHbin where
  size : ℕ
  fileOffset : ℕ
  discardable : Bool
deriving DecidableEq

/-- The length and the free bins of one of the two storages of a hive. -/
structure Storage where
  length : ℕ
  freeBins : List FreeHbin

/-- The part of `HHIVE` that tells what has to be written. The bits past the end of the vector are those of its buffer;
where there is no buffer they are clear. -/
structure HHive where
  useOldCell : Bool
  cluster : ℕ
  alternate : Bool
  sizeOfBitMap : ℕ
  bit : ℕ → Bool
  dirtyCount : ℕ
  logSize : ℕ
  stable : Storage
  volatile : Storage

namespace HHive

variable (h : HHive)

/-- What `HvpWriteLog` writes for a dirty count: a cluster for the header, the signature with the dirty vector, and the sectors. -/
def logNeeded (dirtyCount : ℕ) : ℕ :=
  h.cluster * 512 + roundUp (4 + h.sizeOfBitMap / 8) (h.cluster * 512) + dirtyCount * 512

/-- The size that the log gets for a dirty count, in units of `HLOG_GROW`. -/
def logFor (dirtyCount : ℕ) : ℕ := roundUp (h.logNeeded dirtyCount) 4096

/-- The first sector of a range, or of its cluster. -/
def first (start : ℕ) : ℕ :=
  let first := start / 512
  if 1 < h.cluster then first / h.cluster * h.cluster else first

/-- The sector after the last one of a range, or of its cluster; not past the end of the vector. -/
def finish (start length : ℕ) : ℕ :=
  let last := sub32 (add32 start length) 1 / 512
  let last := if 1 < h.cluster then roundUp (last + 1) h.cluster - 1 else last
  (if h.sizeOfBitMap ≤ last then h.sizeOfBitMap - 1 else last) + 1

/-- The clean sectors of a range of sectors. -/
def cleanSectors (first finish : ℕ) : ℕ := countIn (fun i => !h.bit i) first finish

end HHive

/-- `HvGetCellType` says `Volatile`. -/
def isVolatile (cell : ℕ) : Bool := 2147483648 ≤ cell

/-- `HvpGrowLog1`; `grown` says whether the log file could be given the size. -/
def hvpGrowLog1 (h : HHive) (count : ℕ) (grown : Bool) : Bool × HHive :=
  if grown then (true, { h with logSize := h.logFor (h.dirtyCount + count) }) else (false, h)

/-- `HvMarkDirty`, with the call that it makes of itself. Without a dirty vector the loop over the sectors does not end. -/
def hvMarkDirtyWith (header : HHive → Option (Bool × HHive)) (h : HHive) (start length : ℕ) (grown : Bool) :
    Option (Bool × HHive) :=
  if isVolatile start then some (true, h)
  else if h.sizeOfBitMap = 0 then none
  else
    let originalDirtyCount := h.dirtyCount
    let first := h.first start
    let finish := h.finish start length
    let dirtySectors := h.cleanSectors first finish
    let mark (h : HHive) : Option (Bool × HHive) :=
      some (true, { h with dirtyCount := h.dirtyCount + dirtySectors, bit := fillIn h.bit true first finish })
    if dirtySectors = 0 then some (true, h)
    else
      match hvpGrowLog1 h dirtySectors grown with
      | (false, h) => some (false, h)
      | (true, h) =>
        if originalDirtyCount = 0 ∧ first ≠ 0 then
          match header h with
          | some (true, h) => mark h
          | result => result
        else mark h

/-- `HvMarkDirty`: the inner call, for the header of the first bin (`sizeof(HBIN)` bytes), starts with sector 0 and makes no
further one. -/
def hvMarkDirty (h : HHive) (start length : ℕ) (grown headerGrown : Bool) : Option (Bool × HHive) :=
  hvMarkDirtyWith (fun h => hvMarkDirtyWith (fun h => some (true, h)) h 0 32 headerGrown) h start length grown

/-- `HvMarkClean`. -/
def hvMarkClean (h : HHive) (start length : ℕ) : Option HHive :=
  if isVolatile start then some h
  else if h.sizeOfBitMap = 0 then none
  else
    let first := h.first start
    let finish := h.finish start length
    some { h with dirtyCount := h.dirtyCount - countIn h.bit first finish, bit := fillIn h.bit false first finish }

/-- What is true of every hive: the cluster is a power of two, as it is the size of a physical sector, and the vector has a
bit for each sector. -/
structure WellFormed (h : HHive) : Prop where
  cluster : h.cluster ∣ 8
  size : 8 ∣ h.sizeOfBitMap
  length : 4096 ∣ h.stable.length
  length_le : h.stable.length ≤ h.sizeOfBitMap * 512
  bins : ∀ bin ∈ h.stable.freeBins, 4096 ∣ bin.fileOffset

/-- **The log is reserved.** The code asserts the dirty count in every state. -/
structure LogReserved (h : HHive) : Prop where
  count : h.dirtyCount = countIn h.bit 0 h.sizeOfBitMap
  clusters : ∀ i < h.sizeOfBitMap, ∀ j < h.sizeOfBitMap, i / h.cluster = j / h.cluster → h.bit i = true → h.bit j = true
  header : 0 < h.dirtyCount → ∀ i < h.cluster, h.bit i = true
  log : 0 < h.dirtyCount → h.logNeeded h.dirtyCount ≤ h.logSize

variable {h h' : HHive} {start length a b i j n m : ℕ} {grown headerGrown result : Bool}

/-! ### Sectors and clusters -/

theorem le_roundUp (hb : 0 < b) : a ≤ roundUp a b := by
  have hdiv := Nat.lt_div_mul_add (a := a + b - 1) hb
  unfold roundUp
  omega

theorem roundUp_mono (hab : a ≤ b) : roundUp a n ≤ roundUp b n :=
  Nat.mul_le_mul_right n (Nat.div_le_div_right (Nat.sub_le_sub_right (Nat.add_le_add_right hab n) 1))

theorem HHive.logNeeded_mono (hnm : n ≤ m) : h.logNeeded n ≤ h.logNeeded m := Nat.add_le_add_left (Nat.mul_le_mul_right 512 hnm) _

theorem HHive.logNeeded_le_logFor (hnm : n ≤ m) : h.logNeeded n ≤ h.logFor m :=
  (HHive.logNeeded_mono hnm).trans (le_roundUp (by decide))

theorem WellFormed.cluster_pos (hwf : WellFormed h) : 0 < h.cluster := Nat.pos_of_dvd_of_pos hwf.cluster (by decide)

theorem WellFormed.cluster_dvd_size (hwf : WellFormed h) : h.cluster ∣ h.sizeOfBitMap := hwf.cluster.trans hwf.size

theorem WellFormed.cluster_le (hwf : WellFormed h) (hsize : h.sizeOfBitMap ≠ 0) : h.cluster ≤ h.sizeOfBitMap :=
  Nat.le_of_dvd (Nat.pos_of_ne_zero hsize) hwf.cluster_dvd_size

theorem WellFormed.dvd_first (hwf : WellFormed h) : h.cluster ∣ h.first start := by
  unfold HHive.first
  dsimp only
  split_ifs with hone
  · exact Nat.dvd_mul_left _ _
  · rw [show h.cluster = 1 by have := hwf.cluster_pos; omega]
    exact Nat.one_dvd _

theorem HHive.finish_le (hsize : h.sizeOfBitMap ≠ 0) : h.finish start length ≤ h.sizeOfBitMap := by
  unfold HHive.finish
  dsimp only
  split_ifs <;> omega

theorem WellFormed.dvd_finish (hwf : WellFormed h) (hsize : h.sizeOfBitMap ≠ 0) : h.cluster ∣ h.finish start length := by
  have hpos := hwf.cluster_pos
  unfold HHive.finish
  dsimp only
  by_cases hone : 1 < h.cluster
  · have hround := le_roundUp (a := sub32 (add32 start length) 1 / 512 + 1) hpos
    split_ifs
    · rw [Nat.sub_add_cancel (by omega)]
      exact hwf.cluster_dvd_size
    · rw [Nat.sub_add_cancel (by omega)]
      exact Nat.dvd_mul_left _ _
  · rw [show h.cluster = 1 by omega]
    exact Nat.one_dvd _

theorem le_iff_of_dvd (hpos : 0 < n) (ha : n ∣ a) (hij : i / n = j / n) : a ≤ i ↔ a ≤ j := by
  obtain ⟨k, rfl⟩ := ha
  rw [Nat.mul_comm, ← Nat.le_div_iff_mul_le hpos, hij, Nat.le_div_iff_mul_le hpos]

theorem mem_iff_of_dvd (hpos : 0 < n) (ha : n ∣ a) (hb : n ∣ b) (hij : i / n = j / n) : a ≤ i ∧ i < b ↔ a ≤ j ∧ j < b := by
  rw [le_iff_of_dvd hpos ha hij, ← Nat.not_le, le_iff_of_dvd hpos hb hij, Nat.not_le]

theorem clusters_fillIn {bit : ℕ → Bool} {size : ℕ} (value : Bool) (hpos : 0 < n) (ha : n ∣ a) (hb : n ∣ b)
    (h : ∀ i < size, ∀ j < size, i / n = j / n → bit i = true → bit j = true) :
    ∀ i < size, ∀ j < size, i / n = j / n → fillIn bit value a b i = true → fillIn bit value a b j = true := by
  intro i hi j hj hij hset
  by_cases hmem : a ≤ i ∧ i < b
  · rw [fillIn, if_pos hmem] at hset
    rwa [fillIn, if_pos ((mem_iff_of_dvd hpos ha hb hij).mp hmem)]
  · rw [fillIn, if_neg hmem] at hset
    rw [fillIn, if_neg fun hmem' => hmem ((mem_iff_of_dvd hpos ha hb hij).mpr hmem')]
    exact h i hi j hj hij hset

/-! ### Marking -/

/-- What a call of `HvMarkDirty` does, for the sectors from `a` up to `b`. -/
inductive Marked (h : HHive) (a b : ℕ) (grown headerGrown : Bool) : Bool → HHive → Prop
  | already (hdirty : h.cleanSectors a b = 0) : Marked h a b grown headerGrown true h
  | full (hclean : h.cleanSectors a b ≠ 0) (hgrown : grown = false) : Marked h a b grown headerGrown false h
  | headerFull (hclean : h.cleanSectors a b ≠ 0) (hgrown : grown = true) (hfirst : h.dirtyCount = 0 ∧ a ≠ 0)
      (hheader : headerGrown = false) :
      Marked h a b grown headerGrown false { h with logSize := h.logFor (h.dirtyCount + h.cleanSectors a b) }
  | marked (hclean : h.cleanSectors a b ≠ 0) (hgrown : grown = true) (hfirst : ¬(h.dirtyCount = 0 ∧ a ≠ 0)) :
      Marked h a b grown headerGrown true
        { h with
          logSize := h.logFor (h.dirtyCount + h.cleanSectors a b)
          dirtyCount := h.dirtyCount + h.cleanSectors a b
          bit := fillIn h.bit true a b }
  | markedFirst (hclean : h.cleanSectors a b ≠ 0) (hgrown : grown = true) (hfirst : h.dirtyCount = 0 ∧ a ≠ 0)
      (hheader : headerGrown = true) :
      Marked h a b grown headerGrown true
        { h with
          logSize := h.logFor h.cluster
          dirtyCount := h.cluster + h.cleanSectors a b
          bit := fillIn (fillIn h.bit true 0 h.cluster) true a b }

theorem HHive.cleanSectors_of_clear (hclear : ∀ i < h.sizeOfBitMap, h.bit i = false) (hb : b ≤ h.sizeOfBitMap) :
    h.cleanSectors a b = b - a :=
  countIn_of_forall fun i _ hi => by rw [hclear i (by omega)]; rfl

theorem hvMarkDirtyWith_header {header : HHive → Option (Bool × HHive)} (hwf : WellFormed h) (hsize : h.sizeOfBitMap ≠ 0)
    (hclear : ∀ i < h.sizeOfBitMap, h.bit i = false) (hcount : h.dirtyCount = 0) :
    hvMarkDirtyWith header h 0 32 headerGrown =
      some (if headerGrown then
        (true, { h with logSize := h.logFor h.cluster, dirtyCount := h.cluster, bit := fillIn h.bit true 0 h.cluster })
      else (false, h)) := by
  have hpos := hwf.cluster_pos
  have hle := hwf.cluster_le hsize
  have hfirst : h.first 0 = 0 := by simp [HHive.first]
  have hfinish : h.finish 0 32 = h.cluster := by
    unfold HHive.finish roundUp
    rw [show sub32 (add32 0 32) 1 / 512 = 0 from rfl]
    dsimp only
    rw [show 0 + 1 + h.cluster - 1 = h.cluster by omega, Nat.div_self hpos]
    split_ifs <;> omega
  have hclean : h.cleanSectors 0 h.cluster = h.cluster := HHive.cleanSectors_of_clear hclear hle
  unfold hvMarkDirtyWith
  rw [if_neg (by decide), if_neg hsize]
  dsimp only
  rw [hfirst, hfinish, hclean, if_neg hpos.ne']
  cases headerGrown with
  | false => rfl
  | true =>
    unfold hvpGrowLog1
    rw [if_pos rfl]
    dsimp only
    rw [if_neg (by omega), hcount, Nat.zero_add]
    rfl

theorem hvMarkDirty_volatile (hvolatile : isVolatile start = true) :
    hvMarkDirty h start length grown headerGrown = some (true, h) :=
  if_pos hvolatile

theorem hvMarkDirtyWith_spec {header : HHive → Option (Bool × HHive)} (hsize : h.sizeOfBitMap ≠ 0)
    (hstable : isVolatile start = false)
    (hheader : h.dirtyCount = 0 → h.first start ≠ 0 → ∀ logSize, header { h with logSize := logSize } =
      some (if headerGrown then
        (true, { h with logSize := h.logFor h.cluster, dirtyCount := h.cluster, bit := fillIn h.bit true 0 h.cluster })
      else (false, { h with logSize := logSize }))) :
    ∃ result h', hvMarkDirtyWith header h start length grown = some (result, h') ∧
      Marked h (h.first start) (h.finish start length) grown headerGrown result h' := by
  unfold hvMarkDirtyWith
  rw [hstable, if_neg Bool.false_ne_true, if_neg hsize]
  dsimp only
  by_cases hclean : h.cleanSectors (h.first start) (h.finish start length) = 0
  · rw [if_pos hclean]
    exact ⟨true, h, rfl, .already hclean⟩
  rw [if_neg hclean]
  cases grown with
  | false => exact ⟨false, h, rfl, .full hclean rfl⟩
  | true =>
    unfold hvpGrowLog1
    rw [if_pos rfl]
    dsimp only
    by_cases hfirst : h.dirtyCount = 0 ∧ h.first start ≠ 0
    · rw [if_pos hfirst, hheader hfirst.1 hfirst.2]
      cases headerGrown with
      | false => exact ⟨false, _, rfl, .headerFull hclean rfl hfirst rfl⟩
      | true => exact ⟨true, _, rfl, .markedFirst hclean rfl hfirst rfl⟩
    · rw [if_neg hfirst]
      exact ⟨true, _, rfl, .marked hclean rfl hfirst⟩

variable (length grown headerGrown) in
theorem hvMarkDirty_spec (hwf : WellFormed h) (hsize : h.sizeOfBitMap ≠ 0) (hstable : isVolatile start = false)
    (hclear : h.dirtyCount = 0 → h.first start ≠ 0 → ∀ i < h.sizeOfBitMap, h.bit i = false) :
    ∃ result h', hvMarkDirty h start length grown headerGrown = some (result, h') ∧
      Marked h (h.first start) (h.finish start length) grown headerGrown result h' := by
  refine hvMarkDirtyWith_spec hsize hstable fun hcount hfirst logSize => ?_
  exact hvMarkDirtyWith_header (h := { h with logSize := logSize }) { hwf with } hsize (hclear hcount hfirst) hcount

/-! ### The log after a mark -/

/-- A mark changes no more than the dirty vector, its count and the log. -/
theorem Marked.frame (hmarked : Marked h a b grown headerGrown result h') :
    h'.cluster = h.cluster ∧ h'.sizeOfBitMap = h.sizeOfBitMap ∧ h'.stable = h.stable ∧ h'.volatile = h.volatile := by
  cases hmarked <;> exact ⟨rfl, rfl, rfl, rfl⟩

theorem Marked.wellFormed (hmarked : Marked h a b grown headerGrown result h') (hwf : WellFormed h) : WellFormed h' := by
  obtain ⟨hcluster, hsize, hstable, -⟩ := hmarked.frame
  exact ⟨hcluster ▸ hwf.cluster, hsize ▸ hwf.size, hstable ▸ hwf.length, hstable ▸ hsize ▸ hwf.length_le, hstable ▸ hwf.bins⟩

theorem LogReserved.clear (hlog : LogReserved h) (hcount : h.dirtyCount = 0) (i : ℕ) (hi : i < h.sizeOfBitMap) : h.bit i = false :=
  countIn_eq_zero_iff.mp (hlog.count ▸ hcount) i (Nat.zero_le i) hi

theorem HHive.lt_of_cleanSectors (hclean : h.cleanSectors a b ≠ 0) : a < b := by
  by_contra hle
  have := countIn_le (p := fun i => !h.bit i) (a := a) (b := b)
  unfold HHive.cleanSectors at hclean
  omega

/-- A mark that has the first cluster in it, or is not the first one, has its room in the log. -/
theorem LogReserved.mark (hwf : WellFormed h) (hlog : LogReserved h) (ha : h.cluster ∣ a) (hb : h.cluster ∣ b)
    (hsize : b ≤ h.sizeOfBitMap) (hclean : h.cleanSectors a b ≠ 0) (hfirst : ¬(h.dirtyCount = 0 ∧ a ≠ 0)) :
    LogReserved { h with
      logSize := h.logFor (h.dirtyCount + h.cleanSectors a b)
      dirtyCount := h.dirtyCount + h.cleanSectors a b
      bit := fillIn h.bit true a b } where
  count := by
    dsimp only
    rw [countIn_fillIn_true (HHive.lt_of_cleanSectors hclean).le hsize, ← hlog.count]
    rfl
  clusters := clusters_fillIn _ hwf.cluster_pos ha hb hlog.clusters
  header := by
    intro _ i hi
    dsimp only at hi ⊢
    rcases Nat.eq_zero_or_pos h.dirtyCount with hzero | hpos
    · -- the range starts with sector 0, and it is not empty
      have hlt := HHive.lt_of_cleanSectors hclean
      have hle := Nat.le_of_dvd (by omega) hb
      exact fillIn_of_mem (by omega) (by omega)
    · unfold fillIn
      split_ifs
      · rfl
      · exact hlog.header hpos i hi
  log := fun _ => HHive.logNeeded_le_logFor le_rfl

/-- **The first mark**, if it has not the first cluster in it: the log has the size for the first cluster alone. -/
theorem LogReserved.markFirst_iff (hwf : WellFormed h) (hlog : LogReserved h) (ha : h.cluster ∣ a) (hb : h.cluster ∣ b)
    (hsize : b ≤ h.sizeOfBitMap) (hclean : h.cleanSectors a b ≠ 0) (hfirst : h.dirtyCount = 0 ∧ a ≠ 0) :
    LogReserved { h with
        logSize := h.logFor h.cluster
        dirtyCount := h.cluster + h.cleanSectors a b
        bit := fillIn (fillIn h.bit true 0 h.cluster) true a b } ↔ h.logNeeded (h.cluster + (b - a)) ≤ h.logFor h.cluster := by
  have hpos := hwf.cluster_pos
  have hlt := HHive.lt_of_cleanSectors hclean
  have hle : h.cluster ≤ a := Nat.le_of_dvd (Nat.pos_of_ne_zero hfirst.2) ha
  have hclear := hlog.clear hfirst.1
  rw [HHive.cleanSectors_of_clear hclear hsize]
  constructor
  · intro hlog'
    exact hlog'.log (by dsimp only; omega)
  intro hroom
  refine ⟨?_, ?_, fun _ i hi => ?_, fun _ => hroom⟩
  · -- the first cluster is before the range
    have hcluster : countIn (fun i => !h.bit i) 0 h.cluster = h.cluster :=
      HHive.cleanSectors_of_clear hclear (by omega)
    have hrange : countIn (fun i => !fillIn h.bit true 0 h.cluster i) a b = b - a := by
      refine countIn_of_forall fun i hi hb => ?_
      rw [fillIn_of_not_mem (by omega), hclear i (by omega)]
      rfl
    dsimp only
    rw [countIn_fillIn_true hlt.le hsize, countIn_fillIn_true (Nat.zero_le _) (by omega), ← hlog.count, hfirst.1, hcluster, hrange,
      Nat.zero_add]
  · exact clusters_fillIn _ hpos ha hb (clusters_fillIn _ hpos (Nat.dvd_zero _) dvd_rfl hlog.clusters)
  · dsimp only at hi ⊢
    rw [fillIn_of_not_mem (by omega), fillIn_of_mem (Nat.zero_le i) hi]

/-- The first mark of a clean hive outgrows the log: it has not the first cluster in it, and its sectors have no room in
what rounding leaves of the size for the first cluster. -/
structure Outgrows (h : HHive) (a b : ℕ) (grown headerGrown : Bool) : Prop where
  clean : h.dirtyCount = 0
  later : a ≠ 0
  lt : a < b
  grown : grown = true
  headerGrown : headerGrown = true
  room : h.logFor h.cluster < h.logNeeded (h.cluster + (b - a))

/-- **A mark keeps the log reserved** if and only if it does not outgrow it. -/
theorem Marked.logReserved_iff (hmarked : Marked h a b grown headerGrown result h') (hwf : WellFormed h) (hlog : LogReserved h)
    (ha : h.cluster ∣ a) (hb : h.cluster ∣ b) (hsize : b ≤ h.sizeOfBitMap) :
    LogReserved h' ↔ ¬Outgrows h a b grown headerGrown := by
  have hsectors : h.dirtyCount = 0 → a < b → h.cleanSectors a b ≠ 0 := by
    intro hcount hlt
    rw [HHive.cleanSectors_of_clear (hlog.clear hcount) hsize]
    omega
  cases hmarked with
  | already hdirty => exact iff_of_true hlog fun hout => hsectors hout.clean hout.lt hdirty
  | full _ hgrown => exact iff_of_true hlog fun hout => by rw [hgrown] at hout; exact Bool.false_ne_true hout.grown
  | headerFull _ _ hfirst hheader =>
    refine iff_of_true { hlog with log := fun hpos => ?_ } fun hout => ?_
    · exact absurd hfirst.1 (Nat.pos_iff_ne_zero.mp hpos)
    · rw [hheader] at hout
      exact Bool.false_ne_true hout.headerGrown
  | marked hclean _ hfirst =>
    exact iff_of_true (hlog.mark hwf ha hb hsize hclean hfirst) fun hout => hfirst ⟨hout.clean, hout.later⟩
  | markedFirst hclean hgrown hfirst hheader =>
    rw [hlog.markFirst_iff hwf ha hb hsize hclean hfirst, ← Nat.not_lt, not_iff_not]
    exact ⟨fun hroom => ⟨hfirst.1, hfirst.2, HHive.lt_of_cleanSectors hclean, hgrown, hheader, hroom⟩, fun hout => hout.room⟩

end Nt365.Config.Hive
