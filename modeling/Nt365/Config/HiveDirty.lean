import Nt365.Rtl.BitMap

/-!
# The dirty runs of a hive

`HvpFindNextDirtyBlock` (`CONFIG/HIVESYNC.C`) reports the runs of dirty sectors that are contiguous in the hive and in memory. The
sectors are those of the dirty vector in order (`dirtyRuns_sectors`), but the addresses are right only as long as the entries of
discardable bins are looked at for their first block: for these the address is computed from the tombstone, with the distance from
the bin's file offset taken off the bin's address instead of added to it. So the runs are exact if and only if the dirty sectors of
every discardable allocation are the first ones of its first block (`dirtyRuns_exact_iff`).

## The model

Hive addresses are block numbers of 4096 bytes (`HBLOCK_SIZE`) and sector numbers of 512 (`HSECTOR_SIZE`). An allocation
holds one or more bins. When all its bins are free, `HvpEnlistFreeCell` makes it discardable: its map entries keep the
addresses of their bins, and have the address of the tombstone, with the allocation's file offset, in place of that of their
blocks.
-/

namespace Nt365.Config.Hive

open Nt365.Library Nt365.Rtl.BitMap

/-- `ROUND_UP`, to a power of two. -/
def roundUp (a b : ℕ) : ℕ := (a + b - 1) / b * b

/-- `HMAP_ENTRY`, with what the tombstone says in the entry of a discardable bin. -/
inductive MapEntry
  | block (blockAddress : ℕ)
  | tombstone (fileOffset binAddress : ℕ)

/-- The map of the stable storage. -/
structure StableMap where
  blocks : ℕ
  /-- The first block of the allocation that a block is in. -/
  first : ℕ → ℕ
  /-- The first block of the bin that a block is in. -/
  bin : ℕ → ℕ
  /-- The address of the allocation with this first block. -/
  base : ℕ → ℕ
  /-- The allocation with this first block is discardable. -/
  discardable : ℕ → Bool
  blocks_le : blocks ≤ 524288
  first_le : ∀ k, first k ≤ bin k
  bin_le : ∀ k, bin k ≤ k
  first_eq : ∀ j k, first k ≤ j → j ≤ k → first j = first k
  bin_eq : ∀ j k, bin k ≤ j → j ≤ k → bin j = bin k
  base_pos : ∀ k, 0 < base (first k)
  base_le : ∀ k < blocks, base (first k) + 4096 * (k - first k) + 4096 ≤ 4294967296

namespace StableMap

variable (map : StableMap)

/-- The entry that `HvpGetCellMap` finds for a block of the hive; from `blocks` on it finds none. -/
def entry (k : ℕ) : MapEntry :=
  if map.discardable (map.first k) then .tombstone (4096 * map.first k) (map.base (map.first k) + 4096 * (map.bin k - map.first k))
  else .block (map.base (map.first k) + 4096 * (k - map.first k))

/-- Where block `k` is in memory. -/
def location (k : ℕ) : ℕ := map.base (map.first k) + 4096 * (k - map.first k)

end StableMap

/-- The address of a block as the code computes it from the entry. -/
def MapEntry.startBlock (me : MapEntry) (fileBaseAddress : ℕ) : ℕ :=
  match me with
  | .block blockAddress => blockAddress
  | .tombstone fileOffset binAddress => sub32 (add32 binAddress fileOffset) fileBaseAddress

/-- The first bit from `i` on that has the value, or the end of the bit map. -/
def nextBit (bitMap : RtlBitmap) (value : Bool) (i : ℕ) : ℕ :=
  if i < bitMap.sizeOfBitMap then if bitMap.bit i = value then i else nextBit bitMap value (i + 1) else i
termination_by bitMap.sizeOfBitMap - i

/-- "Scan forward through blocks, filling up length as we go": the length of the run, and where the next search starts.
There is one block at least for each unit of `fuel` that is used. -/
def growRun (map : StableMap) (start finish : ℕ) : ℕ → ℕ → ℕ → ℕ → ℕ → ℕ × ℕ
  | 0, _, _, runLength, runSpan => (runLength, start + runSpan)
  | fuel + 1, fileBaseAddress, block, runLength, runSpan =>
    let fileEndAddress := finish * 512
    let fileLength := fileEndAddress - start * 512
    if runLength < fileLength then
      let nextBlock := (map.entry (fileBaseAddress / 4096)).startBlock fileBaseAddress
      if sub32 nextBlock block ≠ 4096 then (runLength, start + runSpan)
      else if fileEndAddress - fileBaseAddress ≤ 4096 then (fileLength, finish)
      else growRun map start finish fuel (fileBaseAddress + 4096) nextBlock (runLength + 4096) (runSpan + 8)
    else (runLength, start + runSpan)

/-- What is reported of a run. -/
structure Run where
  address : ℕ
  length : ℕ
  offset : ℕ
deriving DecidableEq

/-- `HvpFindNextDirtyBlock`: the run, and the new value of `Current`. -/
def hvpFindNextDirtyBlock (map : StableMap) (bitMap : RtlBitmap) (current : ℕ) : Option (Run × ℕ) :=
  if bitMap.sizeOfBitMap ≤ current then none
  else
    let start := nextBit bitMap true current
    let finish := nextBit bitMap false start
    let fileBaseAddress := start * 512
    let fileLength := finish * 512 - fileBaseAddress
    if fileLength = 0 then none
    else
      let startBlock := (map.entry (fileBaseAddress / 4096)).startBlock fileBaseAddress
      let address := add32 startBlock (fileBaseAddress % 4096)
      let offset := fileBaseAddress + 4096
      let runSpan := 8 - start % 8
      if finish - start ≤ runSpan then some (⟨address, fileLength, offset⟩, finish)
      else
        let grown := growRun map start finish finish (roundUp (fileBaseAddress + 1) 4096) startBlock (runSpan * 512) runSpan
        some (⟨address, grown.1, offset⟩, grown.2)

/-- The runs that repeated calls report until one returns `FALSE`; `none` if the calls do not come to an end. -/
def dirtyRuns (map : StableMap) (bitMap : RtlBitmap) : ℕ → ℕ → Option (List Run)
  | 0, _ => none
  | calls + 1, current =>
    match hvpFindNextDirtyBlock map bitMap current with
    | none => some []
    | some (run, current) => (dirtyRuns map bitMap calls current).map (run :: ·)

variable {map : StableMap} {bitMap : RtlBitmap} {value : Bool} {current i j k s e : ℕ}

/-! ### The sectors of a run -/

theorem nextBit_spec (hi : i ≤ bitMap.sizeOfBitMap) :
    i ≤ nextBit bitMap value i ∧ nextBit bitMap value i ≤ bitMap.sizeOfBitMap ∧
      (∀ j, i ≤ j → j < nextBit bitMap value i → bitMap.bit j = !value) ∧
      (nextBit bitMap value i < bitMap.sizeOfBitMap → bitMap.bit (nextBit bitMap value i) = value) := by
  induction hn : bitMap.sizeOfBitMap - i generalizing i with
  | zero =>
    have hend : ¬i < bitMap.sizeOfBitMap := by omega
    rw [nextBit, if_neg hend]
    exact ⟨le_rfl, hi, fun j hj hlt => absurd hlt (Nat.not_lt.mpr hj), fun h => absurd h hend⟩
  | succ n ih =>
    have hlt : i < bitMap.sizeOfBitMap := by omega
    rw [nextBit, if_pos hlt]
    split_ifs with hbit
    · exact ⟨le_rfl, hi, fun j hj hlt => absurd hlt (Nat.not_lt.mpr hj), fun _ => hbit⟩
    · obtain ⟨hle, hend, hbefore, hat⟩ := ih (i := i + 1) hlt (by omega)
      refine ⟨by omega, hend, fun j hj hlt => ?_, hat⟩
      rcases Nat.eq_or_lt_of_le hj with rfl | hj
      · exact Bool.eq_not_of_ne hbit
      · exact hbefore j hj hlt

/-- The address from which the code goes on to block `k`, in a run from sector `s`. -/
def blockBefore (map : StableMap) (s k : ℕ) : ℕ :=
  if 8 * k ≤ s + 8 then (map.entry (s / 8)).startBlock (s * 512) else (map.entry (k - 1)).startBlock (4096 * (k - 1))

/-- The code goes on to block `k`, in a run from sector `s`. -/
def GoesOn (map : StableMap) (s k : ℕ) : Prop := sub32 ((map.entry k).startBlock (4096 * k)) (blockBefore map s k) = 4096

/-- A run from sector `s` up to sector `e`. -/
structure IsRun (map : StableMap) (bitMap : RtlBitmap) (current s e : ℕ) (run : Run) : Prop where
  clean : ∀ j, current ≤ j → j < s → bitMap.bit j = false
  le : current ≤ s
  lt : s < e
  dirty : ∀ j, s ≤ j → j < e → bitMap.bit j = true
  end_le : e ≤ bitMap.sizeOfBitMap
  /-- The run ends before a clean sector, at the end, or with a block. -/
  ends : (e < bitMap.sizeOfBitMap → bitMap.bit e = false) ∨ e % 8 = 0
  offset : run.offset = s * 512 + 4096
  length : run.length = (e - s) * 512
  address : run.address = add32 ((map.entry (s / 8)).startBlock (s * 512)) (s * 512 % 4096)
  goesOn : ∀ k, s < 8 * k → 8 * k < e → GoesOn map s k

variable (map) in
theorem growRun_spec {finish fuel : ℕ} (hk : s < 8 * k) (hfinish : 8 * k < finish) (hfuel : finish - 8 * k < fuel) :
    ∃ e, growRun map s finish fuel (4096 * k) (blockBefore map s k) ((8 * k - s) * 512) (8 * k - s) = ((e - s) * 512, e) ∧
      8 * k ≤ e ∧ e ≤ finish ∧ (e = finish ∨ e % 8 = 0) ∧ ∀ j, 8 * k ≤ 8 * j → 8 * j < e → GoesOn map s j := by
  induction fuel generalizing k with
  | zero => exact absurd hfuel (Nat.not_lt_zero _)
  | succ fuel ih =>
    rw [growRun, if_pos (by omega), show 4096 * k / 4096 = k by omega]
    dsimp only
    split_ifs with hbreak htail
    · refine ⟨8 * k, by rw [Nat.add_sub_of_le hk.le], le_rfl, hfinish.le, .inr (by omega),
        fun j hj hlt => absurd hlt (Nat.not_lt.mpr hj)⟩
    · refine ⟨finish, by rw [Nat.sub_mul], hfinish.le, le_rfl, .inl rfl, fun j hj hlt => ?_⟩
      obtain rfl : j = k := by omega
      exact not_not.mp hbreak
    · have hblock : (map.entry k).startBlock (4096 * k) = blockBefore map s (k + 1) := by
        rw [blockBefore, if_neg (by omega), Nat.add_sub_cancel]
      obtain ⟨e, heq, hle, hend, hends, hgoes⟩ := ih (k := k + 1) (by omega) (by omega) (by omega)
      refine ⟨e, ?_, by omega, hend, hends, fun j hj hlt => ?_⟩
      · rw [hblock, show 4096 * k + 4096 = 4096 * (k + 1) by omega, show (8 * k - s) * 512 + 4096 =
          (8 * (k + 1) - s) * 512 by omega, show 8 * k - s + 8 = 8 * (k + 1) - s by omega]
        exact heq
      · rcases Nat.eq_or_lt_of_le hj with heq | hlater
        · obtain rfl : k = j := by omega
          exact not_not.mp hbreak
        · exact hgoes j (by omega) hlt

/-- **One call**: `FALSE` if there is no dirty sector left, and otherwise the next run. -/
theorem hvpFindNextDirtyBlock_spec :
    (hvpFindNextDirtyBlock map bitMap current = none ∧ ∀ j, current ≤ j → j < bitMap.sizeOfBitMap → bitMap.bit j = false) ∨
      ∃ run s e, hvpFindNextDirtyBlock map bitMap current = some (run, e) ∧ IsRun map bitMap current s e run := by
  rw [hvpFindNextDirtyBlock]
  split_ifs with hpast
  · exact .inl ⟨rfl, fun j hj hlt => absurd hlt (by omega)⟩
  dsimp only
  obtain ⟨hstart, hsize, hclean, hset⟩ := nextBit_spec (Nat.le_of_not_le hpast)
  generalize nextBit bitMap true current = start at hstart hsize hclean hset ⊢
  obtain ⟨hfinish, hsize', hdirty, hclear⟩ := nextBit_spec hsize
  generalize nextBit bitMap false start = finish at hfinish hsize' hdirty hclear ⊢
  split_ifs with hempty hone
  · refine .inl ⟨rfl, fun j hj hlt => hclean j hj ?_⟩
    -- no bit is set from `current` on: the run would have its first sector
    by_contra hge
    have hset := hset (by omega)
    have hclear := hclear (by omega)
    rw [show finish = start by omega, hset] at hclear
    cases hclear
  · refine .inr ⟨_, start, finish, rfl, hclean, hstart, by omega, hdirty, hsize', .inl hclear, rfl, ?_, ?_, fun k hk hlt => ?_⟩
    · rw [Nat.sub_mul]
    · rw [show start * 512 / 4096 = start / 8 by omega]
    · omega
  · have hround : roundUp (start * 512 + 1) 4096 = 4096 * (start / 8 + 1) := by
      unfold roundUp
      omega
    have hspan : 8 - start % 8 = 8 * (start / 8 + 1) - start := by omega
    have hbefore : (map.entry (start * 512 / 4096)).startBlock (start * 512) = blockBefore map start (start / 8 + 1) := by
      rw [blockBefore, if_pos (by omega), show start * 512 / 4096 = start / 8 by omega]
    obtain ⟨e, heq, hle, hend, hends, hgoes⟩ :=
      growRun_spec map (show start < 8 * (start / 8 + 1) by omega) (show _ < finish by omega) (show _ < finish by omega)
    rw [hround, hspan, hbefore, heq, ← hbefore]
    refine .inr ⟨_, start, e, rfl, hclean, hstart, by omega, fun j hj hlt => hdirty j hj (by omega), by omega, ?_, rfl, rfl, ?_,
      fun k hk hlt => hgoes k (by omega) hlt⟩
    · rcases hends with rfl | hends
      · exact .inl hclear
      · exact .inr hends
    · rw [show start * 512 / 4096 = start / 8 by omega]

/-! ### The runs of the dirty vector -/

/-- The runs from `current` on. -/
inductive Runs (map : StableMap) (bitMap : RtlBitmap) : ℕ → List Run → Prop
  | nil {current : ℕ} (h : ∀ j, current ≤ j → j < bitMap.sizeOfBitMap → bitMap.bit j = false) : Runs map bitMap current []
  | cons {current s e : ℕ} {run : Run} {runs : List Run} (h : IsRun map bitMap current s e run) (hrest : Runs map bitMap e runs) :
      Runs map bitMap current (run :: runs)

theorem dirtyRuns_spec {calls : ℕ} (hcalls : bitMap.sizeOfBitMap - current < calls) :
    ∃ runs, dirtyRuns map bitMap calls current = some runs ∧ Runs map bitMap current runs := by
  induction calls generalizing current with
  | zero => exact absurd hcalls (Nat.not_lt_zero _)
  | succ calls ih =>
    rw [dirtyRuns]
    rcases hvpFindNextDirtyBlock_spec with ⟨heq, hclean⟩ | ⟨run, s, e, heq, hrun⟩
    · exact ⟨[], by rw [heq], .nil hclean⟩
    · have hle := hrun.le
      have hlt := hrun.lt
      have hend := hrun.end_le
      obtain ⟨runs, hruns, hrest⟩ := ih (show bitMap.sizeOfBitMap - e < calls by omega)
      exact ⟨run :: runs, by rw [heq]; dsimp only; rw [hruns]; rfl, .cons hrun hrest⟩

/-- A run covers a byte of the hive. -/
def Run.Covers (run : Run) (a : ℕ) : Prop := run.offset ≤ a + 4096 ∧ a + 4096 < run.offset + run.length

theorem IsRun.covers_iff {run : Run} (h : IsRun map bitMap current s e run) {a : ℕ} :
    run.Covers a ↔ s ≤ a / 512 ∧ a / 512 < e := by
  have hlt := h.lt
  unfold Run.Covers
  rw [h.offset, h.length]
  omega

theorem Runs.le_offset {runs : List Run} (h : Runs map bitMap current runs) : ∀ run ∈ runs, current * 512 + 4096 ≤ run.offset := by
  induction h with
  | nil => exact fun _ hmem => absurd hmem List.not_mem_nil
  | cons hrun _ ih =>
    have hle := hrun.le
    have hlt := hrun.lt
    have hoffset := hrun.offset
    refine List.forall_mem_cons.mpr ⟨by omega, fun run hmem => le_trans ?_ (ih run hmem)⟩
    exact Nat.add_le_add_right (Nat.mul_le_mul_right 512 (hle.trans hlt.le)) 4096

/-- **The runs ascend**, and no two overlap. -/
theorem Runs.ascending {runs : List Run} (h : Runs map bitMap current runs) :
    runs.Pairwise fun run run' => run.offset + run.length ≤ run'.offset := by
  induction h with
  | nil => exact List.Pairwise.nil
  | cons hrun hrest ih =>
    refine List.Pairwise.cons (fun run' hmem => ?_) ih
    have hlt := hrun.lt
    have hle := hrest.le_offset run' hmem
    have hoffset := hrun.offset
    have hlength := hrun.length
    omega

/-- **Together they are the dirty sectors.** -/
theorem Runs.dirty_iff {runs : List Run} (h : Runs map bitMap current runs) {a : ℕ} (ha : current ≤ a / 512) :
    (∃ run ∈ runs, run.Covers a) ↔ a / 512 < bitMap.sizeOfBitMap ∧ bitMap.bit (a / 512) = true := by
  induction h with
  | nil hclean =>
    refine iff_of_false (fun ⟨_, hmem, _⟩ => List.not_mem_nil hmem) fun ⟨hlt, hset⟩ => ?_
    rw [hclean _ ha hlt] at hset
    cases hset
  | @cons current s e run runs hrun hrest ih =>
    have hend := hrun.end_le
    rcases Nat.lt_or_ge (a / 512) e with hlt | hge
    · have hlater : ¬∃ run ∈ runs, run.Covers a := by
        rintro ⟨run', hmem, hle, -⟩
        have := hrest.le_offset run' hmem
        omega
      simp only [List.mem_cons, exists_eq_or_imp]
      rw [or_iff_left hlater, hrun.covers_iff]
      constructor
      · exact fun ⟨hs, _⟩ => ⟨by omega, hrun.dirty _ hs hlt⟩
      · rintro ⟨-, hset⟩
        refine ⟨Nat.le_of_not_lt fun hbefore => ?_, hlt⟩
        rw [hrun.clean _ ha hbefore] at hset
        cases hset
    · have hnot : ¬run.Covers a := fun hcovers => absurd (hrun.covers_iff.mp hcovers).2 (by omega)
      simp only [List.mem_cons, exists_eq_or_imp]
      rw [or_iff_right hnot]
      exact ih hge

/-! ### The memory of a run -/

/-- A run shows the memory of its part of the hive. -/
def Run.InPlace (map : StableMap) (run : Run) : Prop :=
  ∀ a, run.Covers a → a / 4096 < map.blocks ∧ run.address + (a + 4096 - run.offset) = map.location (a / 4096) + a % 4096

theorem bin_first (map : StableMap) (k : ℕ) : map.bin (map.first k) = map.first k := by
  have hle := map.first_le k
  have hle' := map.bin_le k
  have hfirst : map.first (map.first k) = map.first k := map.first_eq _ _ le_rfl (hle.trans hle')
  have h₁ := map.first_le (map.first k)
  have h₂ := map.bin_le (map.first k)
  omega

/-- What the code computes for a block that is not discardable, or that is the first of its allocation. -/
theorem startBlock_eq_location (hk : k < map.blocks) (h : map.discardable (map.first k) = true → k = map.first k) :
    (map.entry k).startBlock (4096 * k) = map.location k := by
  unfold StableMap.entry StableMap.location
  split_ifs with hdiscardable
  · have hfirst := h hdiscardable
    have hbin := bin_first map k
    have hbase := map.base_le k hk
    rw [← hfirst] at hbin hbase ⊢
    rw [hbin]
    unfold MapEntry.startBlock add32 sub32
    dsimp only
    omega
  · rfl

/-- The dirty sectors of discardable allocations are the first ones of their first blocks. -/
def FirstSectors (map : StableMap) (bitMap : RtlBitmap) : Prop :=
  ∀ i < bitMap.sizeOfBitMap, bitMap.bit i = true → map.discardable (map.first (i / 8)) = true →
    i / 8 = map.first (i / 8) ∧ ∀ j ≤ i, 8 * map.first (i / 8) ≤ j → bitMap.bit j = true

/-- The dirty bits are in the hive. -/
def Fits (map : StableMap) (bitMap : RtlBitmap) : Prop := ∀ i < bitMap.sizeOfBitMap, bitMap.bit i = true → i / 8 < map.blocks

instance (map : StableMap) (bitMap : RtlBitmap) : Decidable (FirstSectors map bitMap) :=
  inferInstanceAs (Decidable (∀ _ < _, _ → _ → _ ∧ ∀ _ ≤ _, _ → _))

instance (map : StableMap) (bitMap : RtlBitmap) : Decidable (Fits map bitMap) := inferInstanceAs (Decidable (∀ _ < _, _ → _))

section Memory

variable {run : Run} (hrun : IsRun map bitMap current s e run) (hfits : Fits map bitMap)
include hrun hfits

theorem IsRun.block_lt {i : ℕ} (hs : s ≤ i) (he : i < e) : i / 8 < map.blocks :=
  hfits i (by have := hrun.end_le; omega) (hrun.dirty i hs he)

/-- If the dirty sectors of discardable allocations are first ones, the run is where it should be. -/
theorem IsRun.inPlace (h : FirstSectors map bitMap) (hstart : s % 8 = 0 ∨ bitMap.bit (s - 1) = false) : run.InPlace map := by
  have hend := hrun.end_le
  have hlt := hrun.lt
  have hbounds : ∀ k < map.blocks, 0 < map.location k ∧ map.location k + 4096 ≤ 4294967296 := by
    intro k hk
    have := map.base_pos k
    exact ⟨by unfold StableMap.location; omega, map.base_le k hk⟩
  -- the blocks that the run comes to
  have hblock : ∀ k, s ≤ 8 * k → 8 * k < e → (map.entry k).startBlock (4096 * k) = map.location k := by
    intro k hs he
    have hk := hrun.block_lt hfits hs he
    rw [show 8 * k / 8 = k by omega] at hk
    refine startBlock_eq_location hk fun hdiscardable => ?_
    have hfirst := h (8 * k) (by omega) (hrun.dirty _ hs he)
    rw [show 8 * k / 8 = k by omega] at hfirst
    exact (hfirst hdiscardable).1
  -- the block in which it starts
  have hstartBlock : (map.entry (s / 8)).startBlock (s * 512) = map.location (s / 8) := by
    by_cases hdiscardable : map.discardable (map.first (s / 8)) = true
    · obtain ⟨hfirst, hdirty⟩ := h s (by omega) (hrun.dirty s le_rfl hlt) hdiscardable
      have haligned : s % 8 = 0 := by
        refine hstart.elim id fun hclean => ?_
        by_contra hmod
        rw [hdirty (s - 1) (by omega) (by omega)] at hclean
        cases hclean
      have hat := hblock (s / 8) (by omega) (by omega)
      rwa [show 4096 * (s / 8) = s * 512 by omega] at hat
    · unfold StableMap.entry StableMap.location
      rw [if_neg hdiscardable]
      rfl
  have hnext : ∀ k, s / 8 ≤ k → 8 * k < e → map.location k = map.location (s / 8) + 4096 * (k - s / 8) := by
    intro k hk he
    induction k, hk using Nat.le_induction with
    | base => rw [Nat.sub_self, Nat.mul_zero, Nat.add_zero]
    | succ k hk ih =>
      have hbefore : blockBefore map s (k + 1) = map.location k := by
        unfold blockBefore
        split_ifs with hfirst
        · rw [show k = s / 8 by omega]
          exact hstartBlock
        · rw [Nat.add_sub_cancel]
          exact hblock k (by omega) (by omega)
      have hgoes := hrun.goesOn (k + 1) (by omega) he
      unfold GoesOn at hgoes
      rw [hblock (k + 1) (by omega) he, hbefore] at hgoes
      have hk₁ := hbounds k (by have := hrun.block_lt hfits (i := max s (8 * k)) (by omega) (by omega); omega)
      have hk₂ := hbounds (k + 1) (by have := hrun.block_lt hfits (i := 8 * (k + 1)) (by omega) he; omega)
      unfold sub32 at hgoes
      have := ih (by omega)
      omega
  intro a hcovers
  obtain ⟨hs, he⟩ := hrun.covers_iff.mp hcovers
  have hk := hrun.block_lt hfits hs he
  have hfirst := hbounds (s / 8) (hrun.block_lt hfits le_rfl hlt)
  refine ⟨by omega, ?_⟩
  rw [hrun.address, hrun.offset, hstartBlock, hnext (a / 4096) (by omega) (by omega), add32_of_lt (by omega)]
  omega

/-- A run that is where it should be starts with the first sector of a discardable allocation, if in one. -/
theorem IsRun.start_eq (h : run.InPlace map) (hdiscardable : map.discardable (map.first (s / 8)) = true) :
    s = 8 * map.first (s / 8) := by
  have hlt := hrun.lt
  have hk := hrun.block_lt hfits le_rfl hlt
  obtain ⟨-, hplace⟩ := h (s * 512) (hrun.covers_iff.mpr ⟨by omega, by omega⟩)
  have hbin := map.bin_le (s / 8)
  have hfirst := map.first_le (s / 8)
  have hblocks := map.blocks_le
  rw [hrun.address, hrun.offset, show s * 512 / 4096 = s / 8 by omega] at hplace
  unfold StableMap.entry StableMap.location at hplace
  rw [if_pos hdiscardable] at hplace
  unfold MapEntry.startBlock add32 sub32 at hplace
  dsimp only at hplace
  omega

/-- A run that is where it should be does not go on inside a discardable allocation: the addresses that the code computes
for the blocks of one bin go down, and from one bin to the next they go up by the size of the bin less one block. -/
theorem IsRun.not_inside (h : run.InPlace map) (hs : s < 8 * k) (he : 8 * k < e)
    (hdiscardable : map.discardable (map.first k) = true) : map.first k = k := by
  have hblocks := map.blocks_le
  -- one step inside the allocation, of first block `f`
  have hstep : ∀ j, s < 8 * j → 8 * j < e → map.first k < j → j ≤ k → map.bin j = j ∧
    (map.bin (j - 1) + 2 = j ∧ s + 8 < 8 * j) := by
    intro j hs he hfirst hle
    have hfirst₁ : map.first j = map.first k := map.first_eq j k hfirst.le hle
    have hfirst₂ : map.first (j - 1) = map.first k := map.first_eq (j - 1) k (by omega) (by omega)
    have hdiscardable₁ : map.discardable (map.first j) = true := by rw [hfirst₁]; exact hdiscardable
    have hdiscardable₂ : map.discardable (map.first (j - 1)) = true := by rw [hfirst₂]; exact hdiscardable
    have hj := hrun.block_lt hfits (i := 8 * j) hs.le he
    rw [show 8 * j / 8 = j by omega] at hj
    have hbin₁ := map.bin_le j
    have hbin₂ := map.bin_le (j - 1)
    have hle₁ := map.first_le j
    have hle₂ := map.first_le (j - 1)
    have hsame : map.bin j ≠ j → map.bin (j - 1) = map.bin j := fun hne => map.bin_eq (j - 1) j (by omega) (by omega)
    have hgoes := hrun.goesOn j hs he
    unfold GoesOn blockBefore StableMap.entry at hgoes
    rw [if_pos hdiscardable₁, hfirst₁] at hgoes
    split_ifs at hgoes with hnear hstart
    · rw [show s / 8 = j - 1 by omega] at hstart hgoes
      have heq := hrun.start_eq hfits h (by rw [show s / 8 = j - 1 by omega]; exact hdiscardable₂)
      rw [show s / 8 = j - 1 by omega, hfirst₂] at heq
      have hbin := bin_first map k
      rw [hfirst₂, show j - 1 = map.first k by omega, hbin] at hgoes
      rw [show j - 1 = map.first k by omega, hbin] at hsame
      unfold MapEntry.startBlock add32 sub32 at hgoes
      dsimp only at hgoes
      omega
    · rw [show s / 8 = j - 1 by omega] at hstart
      exact absurd hdiscardable₂ hstart
    · rw [hfirst₂] at hgoes
      unfold MapEntry.startBlock add32 sub32 at hgoes
      dsimp only at hgoes
      omega
  by_contra hne
  have hlt : map.first k < k := by
    have h₁ := map.first_le k
    have h₂ := map.bin_le k
    omega
  obtain ⟨-, hbin, hfar⟩ := hstep k hs he hlt le_rfl
  have hfirst : map.first (k - 1) = map.first k := map.first_eq (k - 1) k (by omega) (by omega)
  have hle := map.first_le (k - 1)
  obtain ⟨hbin', -⟩ := hstep (k - 1) (by omega) (by omega) (by omega) (by omega)
  omega

end Memory

theorem Runs.inPlace {runs : List Run} (hruns : Runs map bitMap current runs) (hfits : Fits map bitMap)
    (h : FirstSectors map bitMap)
    (hcurrent : (current < bitMap.sizeOfBitMap → bitMap.bit current = false) ∨ current % 8 = 0) :
    ∀ run ∈ runs, run.InPlace map := by
  induction hruns with
  | nil => exact fun _ hmem => absurd hmem List.not_mem_nil
  | @cons current s e run runs hrun _ ih =>
    have hlt := hrun.lt
    have hle := hrun.le
    have hend := hrun.end_le
    refine List.forall_mem_cons.mpr ⟨hrun.inPlace hfits h ?_, ih hrun.ends⟩
    rcases Nat.eq_or_lt_of_le hle with rfl | hbefore
    · refine hcurrent.elim (fun hclean => ?_) .inl
      have hset := hrun.dirty current le_rfl hlt
      rw [hclean (by omega)] at hset
      cases hset
    · exact .inr (hrun.clean (s - 1) (by omega) (by omega))

theorem Runs.firstSectors {runs : List Run} (hruns : Runs map bitMap current runs) (hfits : Fits map bitMap)
    (h : ∀ run ∈ runs, run.InPlace map) (hi : i < bitMap.sizeOfBitMap) (hcurrent : current ≤ i) (hset : bitMap.bit i = true)
    (hdiscardable : map.discardable (map.first (i / 8)) = true) :
    i / 8 = map.first (i / 8) ∧ ∀ j ≤ i, 8 * map.first (i / 8) ≤ j → bitMap.bit j = true := by
  induction hruns with
  | nil hclean =>
    rw [hclean i hcurrent hi] at hset
    cases hset
  | @cons current s e run runs hrun _ ih =>
    obtain ⟨hplace, hrest⟩ := List.forall_mem_cons.mp h
    rcases Nat.lt_or_ge i e with hlt | hge
    · have hs : s ≤ i := by
        by_contra hbefore
        rw [hrun.clean i hcurrent (by omega)] at hset
        cases hset
      have hfirst₁ := map.first_le (i / 8)
      have hfirst₂ := map.bin_le (i / 8)
      -- if the run starts in the block of sector `i`, it starts with the first sector of the allocation
      have hstart : 8 * (i / 8) ≤ s → s = 8 * map.first (i / 8) := by
        intro hblock
        have hsame : s / 8 = i / 8 := by omega
        have heq := hrun.start_eq hfits hplace (by rw [hsame]; exact hdiscardable)
        rwa [hsame] at heq
      have hinside : s < 8 * (i / 8) → map.first (i / 8) = i / 8 := fun hs =>
        hrun.not_inside hfits hplace hs (by omega) hdiscardable
      have hfirst : i / 8 = map.first (i / 8) := by omega
      exact ⟨hfirst, fun j hle hj => hrun.dirty j (by omega) (by omega)⟩
    · exact ih hrest hge

/-! ### The enumeration -/

/-- **The sectors** of the runs are right wherever the bins are: repeated calls come to an end, the runs ascend, and
together they are the sectors whose bit is set, all in blocks that the map has. -/
theorem dirtyRuns_sectors (map : StableMap) (bitMap : RtlBitmap) (hfits : Fits map bitMap) :
    ∃ runs, dirtyRuns map bitMap (bitMap.sizeOfBitMap + 1) 0 = some runs ∧
      (runs.Pairwise fun run run' => run.offset + run.length ≤ run'.offset) ∧
      (∀ a, (∃ run ∈ runs, run.Covers a) ↔ a / 512 < bitMap.sizeOfBitMap ∧ bitMap.bit (a / 512) = true) ∧
      ∀ run ∈ runs, ∀ a, run.Covers a → a / 4096 < map.blocks := by
  obtain ⟨runs, heq, hruns⟩ := dirtyRuns_spec (Nat.lt_succ_self _)
  refine ⟨runs, heq, hruns.ascending, fun a => hruns.dirty_iff (Nat.zero_le _), fun run hrun a hcovers => ?_⟩
  obtain ⟨hlt, hset⟩ := (hruns.dirty_iff (Nat.zero_le _)).mp ⟨run, hrun, hcovers⟩
  have hblock := hfits _ hlt hset
  omega

/-- The runs ascend, they are the dirty sectors, and each shows the memory of its part of the hive. -/
structure Exact (map : StableMap) (bitMap : RtlBitmap) (runs : List Run) : Prop where
  ascending : runs.Pairwise fun run run' => run.offset + run.length ≤ run'.offset
  dirty : ∀ a, (∃ run ∈ runs, run.Covers a) ↔ a / 512 < bitMap.sizeOfBitMap ∧ bitMap.bit (a / 512) = true
  memory : ∀ run ∈ runs, run.InPlace map

/-- **The enumeration is exact** if and only if the dirty sectors of every discardable allocation are the first ones of its first
block. -/
theorem dirtyRuns_exact_iff (map : StableMap) (bitMap : RtlBitmap) (hfits : Fits map bitMap) :
    (∃ runs, dirtyRuns map bitMap (bitMap.sizeOfBitMap + 1) 0 = some runs ∧ Exact map bitMap runs) ↔ FirstSectors map bitMap := by
  obtain ⟨runs, heq, hruns⟩ : ∃ runs, dirtyRuns map bitMap (bitMap.sizeOfBitMap + 1) 0 = some runs ∧ Runs map bitMap 0 runs :=
    dirtyRuns_spec (Nat.lt_succ_self _)
  constructor
  · rintro ⟨runs', heq', hexact⟩
    rw [heq, Option.some.injEq] at heq'
    subst heq'
    exact fun i hi hset hdiscardable => hruns.firstSectors hfits hexact.memory hi (Nat.zero_le _) hset hdiscardable
  · intro h
    refine ⟨runs, heq, hruns.ascending, fun a => hruns.dirty_iff (Nat.zero_le _), hruns.inPlace hfits h (.inr rfl)⟩

/-- A hive of one discardable bin of two blocks. -/
def discardablePair : StableMap where
  blocks := 2
  first _ := 0
  bin _ := 0
  base _ := 0x10000
  discardable _ := true
  blocks_le := by decide
  first_le _ := le_rfl
  bin_le := Nat.zero_le
  first_eq _ _ _ _ := rfl
  bin_eq _ _ _ _ := rfl
  base_pos _ := by decide
  base_le k hk := by omega

theorem pairVector_size_lt : 16 < 4294967296 := by decide

/-- Its dirty vector. -/
def pairVector (bits : BitVec 32) : RtlBitmap := ⟨16, [bits], pairVector_size_lt, rfl⟩

/-- Two runs, of two sectors and of one. -/
theorem dirtyRuns_sectors_pair :
    ∃ runs, dirtyRuns discardablePair (pairVector 0x103) 17 0 = some runs ∧ runs.length = 2 ∧
      ∀ a, (∃ run ∈ runs, run.Covers a) ↔ a / 512 < 16 ∧ (pairVector 0x103).bit (a / 512) = true := by
  obtain ⟨runs, heq, -, hdirty, -⟩ := dirtyRuns_sectors discardablePair (pairVector 0x103) (by decide)
  have hruns : dirtyRuns discardablePair (pairVector 0x103) 17 0 = some [⟨0x10000, 1024, 0x1000⟩, ⟨0xf000, 512, 0x2000⟩] := by
    decide +kernel
  exact ⟨runs, heq, by rw [← Option.some.inj (hruns.symm.trans heq)]; rfl, hdirty⟩

/-- With two dirty sectors at the start of the bin, the run is where it should be. -/
theorem dirtyRuns_exact_first :
    ∃ runs, dirtyRuns discardablePair (pairVector 3) 17 0 = some runs ∧ Exact discardablePair (pairVector 3) runs :=
  (dirtyRuns_exact_iff discardablePair (pairVector 3) (by decide)).mpr (by decide)

/-- The first sector of the bin's second block is at `0x11000`, and it is reported at `0xf000`: before the bin. -/
theorem dirtyRuns_second :
    dirtyRuns discardablePair (pairVector 0x100) 17 0 = some [⟨0xf000, 512, 0x2000⟩] ∧ discardablePair.location 1 = 0x11000 ∧
      ¬∃ runs, dirtyRuns discardablePair (pairVector 0x100) 17 0 = some runs ∧ Exact discardablePair (pairVector 0x100) runs := by
  have hruns : dirtyRuns discardablePair (pairVector 0x100) 17 0 = some [⟨0xf000, 512, 0x2000⟩] := by decide +kernel
  refine ⟨hruns, rfl, ?_⟩
  rintro ⟨runs, heq, hexact⟩
  rw [hruns, Option.some.injEq] at heq
  subst heq
  have hplace := hexact.memory _ (List.mem_singleton_self _) 4096 ⟨by decide, by decide⟩
  exact absurd hplace.2 (by decide)

end Nt365.Config.Hive
