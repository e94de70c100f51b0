import Nt365.Library.Buffer
import Nt365.Library.Loop
import Nt365.Config.HiveMap

/-!
# Checking a hive

`HvCheckHive` (`CONFIG/HIVECHEK.C`) walks over the bins of the two spaces of a hive, and `HvCheckBin` over the cells of a
bin. What they are to find out is whether a hive is well formed (`WellFormed`): in each space the bins lead from offset 0
exactly to the length, and in each bin the cells lead from the end of the header exactly to the end of the bin.

A bin is judged exactly (`hvCheckBin_ok_iff`): a cell whose end wraps around the address space is let through, but then the
sizes do not add up. The walk over the bins is not exact, for two reasons. It ends at the length or anywhere past it, and
the volatile space is never looked at: its walk starts at `0x80000000` and goes on while that is below the length. So
`HvCheckHive` is right about a hive if and only if the walk over its stable bins does not lead past the end and, where it
leads to the end, the volatile space is well formed (`hvCheckHive_exact_iff`).

## The model

The memory is one buffer, which is only read. Pointers and sizes are 32-bit words. A hive has its bins in the upper half of
the address space, where the system's memory is, and a space has at most 2^31 bytes, as bit 31 of an `HCELL_INDEX` is the
type.
-/

namespace Nt365.Config.Check

open Nt365.Library
open Nt365.Config.Hive (HStorageType)
open Nt365.Config.CellMap (HMapEntry)

/-- The part of `HHIVE` that is checked; `map type b` is the map entry of a block. -/
structure HHive where
  version : ℕ
  memory : Buffer
  length : HStorageType → ℕ
  map : HStorageType → ℕ → HMapEntry
  length_le : ∀ type, length type ≤ 2147483648
  bin_mem : ∀ type b, 4096 * b < length type → (map type b).discardable = false →
    2147483648 ≤ (map type b).binAddress ∧ (map type b).binAddress + 32 < 4294967296
  free_le : ∀ type b, 4096 * b < length type → (map type b).discardable = true →
    memory.le ((map type b).blockAddress + 8) 4 ≤ 2147483648

namespace HHive

variable (h : HHive)

/-- `USE_OLD_CELL`. -/
def UseOldCell : Prop := h.version = 1

instance : Decidable h.UseOldCell := inferInstanceAs (Decidable (h.version = 1))

/-- The offset of the user data in a cell. -/
def userData : ℕ := if h.UseOldCell then 8 else 4

/-- `Bin->Signature`. -/
def signature (bin : ℕ) : ℕ := h.memory.le bin 4

/-- `Bin->FileOffset`. -/
def fileOffset (bin : ℕ) : ℕ := h.memory.le (bin + 4) 4

/-- `Bin->Size`. -/
def size (bin : ℕ) : ℕ := h.memory.le (bin + 8) 4

/-- `FreeBin->Size`. -/
def freeSize (freeBin : ℕ) : ℕ := h.memory.le (freeBin + 8) 4

/-- `p->Size` of a cell, as an unsigned word. -/
def cellSize (p : ℕ) : ℕ := h.memory.le p 4

/-- `p->u.OldCell.Last`. -/
def last (p : ℕ) : ℕ := h.memory.le (p + 4) 4

end HHive

/-- `HBIN_SIGNATURE`. -/
def hbinSignature : ℕ := 0x6e696268

/-- `HBIN_NIL`. -/
def hbinNil : ℕ := 0xFFFFFFFF

variable (h : HHive)

/-- `HvpGetCellMap`. -/
def hvpGetCellMap (cell : ℕ) : Option HMapEntry :=
  let type := if cell / 2147483648 = 0 then HStorageType.stable else .volatile
  if h.length type ≤ cell % 2147483648 then none else some (h.map type (cell % 2147483648 / 4096))

/-! ### `HvCheckBin` -/

/-- The variables of the loop over the cells. -/
structure Scan where
  p : ℕ
  lp : ℕ
  freespace : ℕ
  allocated : ℕ
  userallocated : ℕ

/-- The first cell of a bin. -/
def Scan.start (bin : ℕ) : Scan := ⟨add32 bin 32, add32 bin 32, 0, 0, 0⟩

/-- `(PUCHAR)Bin + Bin->Size`. -/
def binEnd (bin : ℕ) : ℕ := add32 bin (h.size bin)

/-- The check of the last pointer. -/
def checkLast (bin : ℕ) (s : Scan) : Option ℕ :=
  if h.UseOldCell then
    if s.lp = s.p then
      if h.last s.p ≠ hbinNil then some 20 else none
    else
      if add32 (h.last s.p) bin ≠ s.lp then some 30 else none
  else none

/-- The check of the size, for an allocated cell. -/
def checkAllocated (bin : ℕ) (s : Scan) : Scan ⊕ Except ℕ ℕ :=
  let size := sub32 0 (h.cellSize s.p)
  if h.size bin < size ∨ binEnd h bin < add32 size s.p then .inr (.error 40)
  else
    let allocated := add32 s.allocated size
    let userallocated := add32 s.userallocated (sub32 size h.userData)
    if h.size bin < allocated then .inr (.error 50)
    else .inl ⟨add32 s.p size, s.p, s.freespace, allocated, userallocated⟩

/-- The check of the size, for a free cell. -/
def checkFree (bin : ℕ) (s : Scan) : Scan ⊕ Except ℕ ℕ :=
  let size := h.cellSize s.p
  if h.size bin < size ∨ binEnd h bin < add32 size s.p ∨ size = 0 then .inr (.error 60)
  else
    let freespace := add32 s.freespace size
    if h.size bin < freespace then .inr (.error 70)
    else .inl ⟨add32 s.p size, s.p, freespace, s.allocated, s.userallocated⟩

/-- What is checked after the last cell. -/
def checkSum (bin : ℕ) (s : Scan) : Except ℕ ℕ :=
  if add32 (add32 s.freespace s.allocated) 32 ≠ h.size bin then .error 995
  else if s.p ≠ binEnd h bin then .error 1000
  else .ok s.userallocated

/-- An iteration of the loop over the cells. -/
def cellBody (bin : ℕ) (s : Scan) : Except Unit (Scan ⊕ Except ℕ ℕ) :=
  if s.p < binEnd h bin then
    match checkLast h bin s with
    | some rc => .ok (.inr (.error rc))
    | none => if 2147483648 ≤ h.cellSize s.p then .ok (checkAllocated h bin s) else .ok (checkFree h bin s)
  else .ok (.inr (checkSum h bin s))

/-- `HvCheckBin`: the number of the test that failed, or the size of the user data. The free and the allocated space are
both at most the size of the bin, and each cell adds to one of them, so the iterations are enough. -/
def hvCheckBin (bin : ℕ) : Except Unit (Except ℕ ℕ) := loop () (cellBody h bin) (2 * h.size bin + 1) (.start bin)

/-! ### `HvCheckHive` -/

/-- An iteration of the loop over the bins of a space; the state is `p` and `localstorage`. -/
def spaceBody (length : ℕ) (s : ℕ × ℕ) : Except Unit (ℕ × ℕ ⊕ Except ℕ ℕ) :=
  if s.1 < length then
    match hvpGetCellMap h s.1 with
    | none => .ok (.inr (.error 2005))
    | some t =>
      if t.discardable = false then
        if length < h.size t.binAddress ∨ h.signature t.binAddress ≠ hbinSignature ∨ h.fileOffset t.binAddress ≠ s.1 then
          .ok (.inr (.error 2010))
        else
          match hvCheckBin h t.binAddress with
          | .error e => .error e
          | .ok (.error rc) => .ok (.inr (.error rc))
          | .ok (.ok user) => .ok (.inl (add32 s.1 (h.size t.binAddress), add32 s.2 user))
      else .ok (.inl (add32 s.1 (h.freeSize t.blockAddress), s.2))
  else .ok (.inr (.ok s.2))

/-- `HvCheckHive`: the number of the test that failed, or the size of the user data. -/
def hvCheckHive (fuel : ℕ) (h : HHive) : Except Unit (Except ℕ ℕ) :=
  match loop () (spaceBody h (h.length .stable)) fuel (0, 0) with
  | .error e => .error e
  | .ok (.error rc) => .ok (.error rc)
  | .ok (.ok localstorage) => loop () (spaceBody h (h.length .volatile)) fuel (2147483648, localstorage)

/-! ### Well-formed hives -/

/-- The number of bytes of a cell, by its signed size. -/
def cellLength (size : ℕ) : ℕ := if size < 2147483648 then size else 4294967296 - size

/-- The last pointer of a cell, if the cell before it is at `last`. -/
def LastOk (bin p : ℕ) : Option ℕ → Prop
  | none => h.last p = hbinNil
  | some lp => bin + h.last p = lp

/-- The cells of a bin lead from `p` exactly to its end; `last` is the cell before `p`. -/
inductive Tiled (h : HHive) (bin fin : ℕ) : Option ℕ → ℕ → Prop
  | done {last : Option ℕ} : Tiled h bin fin last fin
  | cell {last : Option ℕ} {p : ℕ} (hlast : h.UseOldCell → LastOk h bin p last) (hsize : cellLength (h.cellSize p) ≠ 0)
      (hfin : p + cellLength (h.cellSize p) ≤ fin) (hrest : Tiled h bin fin (some p) (p + cellLength (h.cellSize p))) :
        Tiled h bin fin last p

/-- The bytes of a bin are memory, and its cells tile the bytes after its header. -/
def BinTiled (bin : ℕ) : Prop :=
  bin + h.size bin < 4294967296 ∧ Tiled h bin (bin + h.size bin) none (bin + 32)

/-- A bin that belongs at an offset of a space of this length. -/
def BinOk (length offset bin : ℕ) : Prop :=
  h.size bin ≤ length ∧ h.signature bin = hbinSignature ∧ h.fileOffset bin = offset ∧ BinTiled h bin

/-- The walk over the bins of a space goes from an offset to the next. -/
inductive Next (h : HHive) (type : HStorageType) : ℕ → ℕ → Prop
  | bin {p : ℕ} (hp : p < h.length type) (hpresent : (h.map type (p / 4096)).discardable = false)
      (hok : BinOk h (h.length type) p (h.map type (p / 4096)).binAddress) :
        Next h type p (p + h.size (h.map type (p / 4096)).binAddress)
  | free {p : ℕ} (hp : p < h.length type) (hfree : (h.map type (p / 4096)).discardable = true) :
      Next h type p (p + h.freeSize (h.map type (p / 4096)).blockAddress)

/-- The offsets that the walk over the bins of a space comes to. -/
abbrev Reached (type : HStorageType) : ℕ → Prop := Relation.ReflTransGen (Next h type) 0

/-- In both spaces the walk ends exactly at the length. -/
def WellFormed : Prop := ∀ type, Reached h type (h.length type)

/-! ### The loop over the cells -/

section Cells

variable {h : HHive} {bin : ℕ} {s t : Scan}

theorem cellSize_lt (h : HHive) (p : ℕ) : h.cellSize p < 4294967296 := h.memory.le_lt p 4

theorem last_lt (h : HHive) (p : ℕ) : h.last p < 4294967296 := h.memory.le_lt (p + 4) 4

theorem size_lt (h : HHive) (bin : ℕ) : h.size bin < 4294967296 := h.memory.le_lt (bin + 8) 4

/-- The free and the allocated space do not exceed the size. -/
def Scan.Within (h : HHive) (bin : ℕ) (s : Scan) : Prop := s.freespace ≤ h.size bin ∧ s.allocated ≤ h.size bin

theorem within_start (h : HHive) (bin : ℕ) : (Scan.start bin).Within h bin := ⟨Nat.zero_le _, Nat.zero_le _⟩

/-- What is true if the loop goes on. -/
structure Advances (h : HHive) (bin : ℕ) (s t : Scan) : Prop where
  inside : s.p < binEnd h bin
  last : checkLast h bin s = none
  nonzero : cellLength (h.cellSize s.p) ≠ 0
  ends : add32 (cellLength (h.cellSize s.p)) s.p ≤ binEnd h bin
  p_eq : t.p = add32 s.p (cellLength (h.cellSize s.p))
  lp_eq : t.lp = s.p
  within : t.Within h bin
  total : t.freespace + t.allocated = s.freespace + s.allocated + cellLength (h.cellSize s.p)

theorem sub32_zero_cellSize {p : ℕ} (hneg : 2147483648 ≤ h.cellSize p) : sub32 0 (h.cellSize p) = cellLength (h.cellSize p) := by
  have hlt := cellSize_lt h p
  unfold sub32 cellLength
  rw [if_neg (by omega)]
  omega

theorem cellLength_of_lt {p : ℕ} (hpos : h.cellSize p < 2147483648) : cellLength (h.cellSize p) = h.cellSize p := if_pos hpos

theorem cellLength_ne_zero {p : ℕ} (hneg : 2147483648 ≤ h.cellSize p) : cellLength (h.cellSize p) ≠ 0 := by
  have hlt := cellSize_lt h p
  rw [cellLength, if_neg (by omega)]
  omega

section

variable (hsize : h.size bin < 2147483648)

include hsize

/-- **Where the loop goes on**, the cell is inside the bin, up to a wrap of its end, and its size is counted. -/
theorem Advances.of_goes (hs : s.Within h bin) (hgo : Goes (cellBody h bin) s t) : Advances h bin s t := by
  obtain ⟨hf, ha⟩ := hs
  unfold Goes cellBody at hgo
  by_cases hp : s.p < binEnd h bin
  · rw [if_pos hp] at hgo
    cases hlast : checkLast h bin s with
    | some rc => simp only [hlast, Except.ok.injEq, reduceCtorEq] at hgo
    | none =>
      simp only [hlast] at hgo
      by_cases hneg : 2147483648 ≤ h.cellSize s.p
      · rw [if_pos hneg, checkAllocated, sub32_zero_cellSize hneg] at hgo
        dsimp only at hgo
        split_ifs at hgo with h40 h50
        · cases hgo
        · cases hgo
        · cases hgo
          have hadd : add32 s.allocated (cellLength (h.cellSize s.p)) = s.allocated + cellLength (h.cellSize s.p) :=
            add32_of_lt (by omega)
          exact ⟨hp, hlast, cellLength_ne_zero hneg, by omega, rfl, rfl, ⟨hf, by dsimp only; omega⟩, by dsimp only; omega⟩
      · rw [if_neg hneg, checkFree] at hgo
        dsimp only at hgo
        rw [← cellLength_of_lt (p := s.p) (by omega)] at hgo
        split_ifs at hgo with h60 h70
        · cases hgo
        · cases hgo
        · cases hgo
          have hadd : add32 s.freespace (cellLength (h.cellSize s.p)) = s.freespace + cellLength (h.cellSize s.p) :=
            add32_of_lt (by omega)
          exact ⟨hp, hlast, by omega, by omega, rfl, rfl, ⟨by dsimp only; omega, ha⟩, by dsimp only; omega⟩
  · rw [if_neg hp] at hgo
    cases hgo

/-- The loop goes on if the cell is inside the bin and its size fits. -/
theorem exists_goes (hp : s.p < binEnd h bin) (hlast : checkLast h bin s = none)
    (hnonzero : cellLength (h.cellSize s.p) ≠ 0) (hends : add32 (cellLength (h.cellSize s.p)) s.p ≤ binEnd h bin)
    (htotal : s.freespace + s.allocated + cellLength (h.cellSize s.p) ≤ h.size bin) : ∃ t, Goes (cellBody h bin) s t := by
  unfold Goes cellBody
  rw [if_pos hp, hlast]
  by_cases hneg : 2147483648 ≤ h.cellSize s.p
  · have hadd : add32 s.allocated (cellLength (h.cellSize s.p)) = s.allocated + cellLength (h.cellSize s.p) :=
      add32_of_lt (by omega)
    refine ⟨⟨add32 s.p (cellLength (h.cellSize s.p)), s.p, s.freespace, add32 s.allocated (cellLength (h.cellSize s.p)),
      add32 s.userallocated (sub32 (cellLength (h.cellSize s.p)) h.userData)⟩, (if_pos hneg).trans (congrArg Except.ok ?_)⟩
    rw [checkAllocated, sub32_zero_cellSize hneg]
    dsimp only
    rw [if_neg (by omega), if_neg (by omega)]
  · have hadd : add32 s.freespace (cellLength (h.cellSize s.p)) = s.freespace + cellLength (h.cellSize s.p) :=
      add32_of_lt (by omega)
    refine ⟨⟨add32 s.p (cellLength (h.cellSize s.p)), s.p, add32 s.freespace (cellLength (h.cellSize s.p)), s.allocated,
      s.userallocated⟩, (if_neg hneg).trans (congrArg Except.ok ?_)⟩
    have hlength : cellLength (h.cellSize s.p) = h.cellSize s.p := cellLength_of_lt (by omega)
    rw [hlength] at hends hadd htotal hnonzero ⊢
    rw [checkFree]
    dsimp only
    rw [if_neg (by omega), if_neg (by omega)]

/-- **Where the loop leaves without a complaint**, the sizes add up. -/
theorem cellBody_ok_iff {user : ℕ} (hs : s.Within h bin) :
    cellBody h bin s = .ok (.inr (.ok user)) ↔
      s.p = binEnd h bin ∧ s.freespace + s.allocated + 32 = h.size bin ∧ s.userallocated = user := by
  obtain ⟨hf, ha⟩ := hs
  have hsum : add32 (add32 s.freespace s.allocated) 32 = h.size bin ↔ s.freespace + s.allocated + 32 = h.size bin := by
    unfold add32
    omega
  unfold cellBody
  by_cases hp : s.p < binEnd h bin
  · have hne : ¬s.p = binEnd h bin := by omega
    rw [if_pos hp]
    simp only [hne, false_and, iff_false]
    cases hlast : checkLast h bin s with
    | some rc => simp
    | none =>
      dsimp only
      split
      · unfold checkAllocated
        dsimp only
        split_ifs <;> simp
      · unfold checkFree
        dsimp only
        split_ifs <;> simp
  · rw [if_neg hp, checkSum]
    split_ifs with h995 h1000
    · simp only [Except.ok.injEq, Sum.inr.injEq, reduceCtorEq, false_iff]
      rintro ⟨-, hadds, -⟩
      exact h995 (hsum.2 hadds)
    · simp only [Except.ok.injEq, Sum.inr.injEq, reduceCtorEq, false_iff]
      rintro ⟨heq, -, -⟩
      exact h1000 heq
    · simp only [Except.ok.injEq, Sum.inr.injEq]
      refine ⟨fun huser => ⟨not_not.1 h1000, hsum.1 (not_not.1 h995), huser⟩, fun ⟨_, _, huser⟩ => huser⟩

theorem cellBody_bounded : Bounded (cellBody h bin) (Scan.Within h bin)
    (fun s => 2 * h.size bin - (s.freespace + s.allocated)) (2 * h.size bin + 1) (.start bin) := by
  refine ⟨fun s t hs hgo => ?_, within_start h bin, by omega⟩
  have ha := Advances.of_goes hsize hs hgo
  obtain ⟨htf, hta⟩ := ha.within
  have htotal := ha.total
  have hnonzero := ha.nonzero
  refine ⟨ha.within, ?_⟩
  omega

end

theorem cellBody_ne_error (h : HHive) (bin : ℕ) (s : Scan) (e : Unit) : cellBody h bin s ≠ .error e := by
  unfold cellBody
  split
  · cases checkLast h bin s with
    | some rc => simp
    | none =>
      dsimp only
      split <;> simp
  · simp

/-- The loop is at the cell that the sizes so far lead to, and `last` is the cell before. -/
structure Scan.At (h : HHive) (bin : ℕ) (last : Option ℕ) (s : Scan) : Prop where
  within : s.Within h bin
  p_eq : s.p = bin + 32 + s.freespace + s.allocated
  first : last = none → s.lp = s.p
  later : ∀ lp, last = some lp → s.lp = lp ∧ bin ≤ lp ∧ lp < s.p

theorem at_start (h : HHive) (hin : bin + 32 < 4294967296) : (Scan.start bin).At h bin none where
  within := within_start h bin
  p_eq := add32_of_lt hin
  first := fun _ => rfl
  later := by simp

theorem Scan.At.checkLast_iff {last : Option ℕ} (hs : s.At h bin last) (hp : s.p < 4294967296) :
    checkLast h bin s = none ↔ (h.UseOldCell → LastOk h bin s.p last) := by
  have hlt := last_lt h s.p
  unfold checkLast
  by_cases hold : h.UseOldCell
  · simp only [hold, if_true, true_implies]
    cases last with
    | none => simp [hs.first rfl, LastOk]
    | some lp =>
      obtain ⟨hlp, hbin, hlt'⟩ := hs.later lp rfl
      have hadd : add32 (h.last s.p) bin = lp ↔ bin + h.last s.p = lp := by
        unfold add32
        omega
      rw [if_neg (by omega)]
      simp [hlp, hadd, LastOk]
  · simp [hold]

theorem Scan.At.next {last : Option ℕ} (hs : s.At h bin last) (ha : Advances h bin s t)
    (hp : s.p + cellLength (h.cellSize s.p) < 4294967296) : t.At h bin (some s.p) := by
  have htp : t.p = s.p + cellLength (h.cellSize s.p) := ha.p_eq.trans (add32_of_lt hp)
  have hsp := hs.p_eq
  have htotal := ha.total
  have hnonzero := ha.nonzero
  refine ⟨ha.within, by omega, by simp, ?_⟩
  rintro lp ⟨⟩
  exact ⟨ha.lp_eq, by omega, by omega⟩

theorem Tiled.reaches {last : Option ℕ} {p : ℕ} (hin : bin + h.size bin < 4294967296) (hsize : h.size bin < 2147483648)
    (htiled : Tiled h bin (bin + h.size bin) last p) (hs : s.At h bin last) (hp : s.p = p) :
    ∃ t user, Reaches (cellBody h bin) s t ∧ cellBody h bin t = .ok (.inr (.ok user)) := by
  have hend : binEnd h bin = bin + h.size bin := add32_of_lt hin
  induction htiled generalizing s with
  | done =>
    have hsp := hs.p_eq
    exact ⟨s, s.userallocated, .refl, (cellBody_ok_iff hsize hs.within).2 ⟨by omega, by omega, rfl⟩⟩
  | @cell last p hlast hnonzero hfin _ ih =>
    subst hp
    have hsp := hs.p_eq
    have hadd : add32 (cellLength (h.cellSize s.p)) s.p = cellLength (h.cellSize s.p) + s.p := add32_of_lt (by omega)
    obtain ⟨t, hgo⟩ := exists_goes hsize (by omega) ((hs.checkLast_iff (by omega)).2 hlast) hnonzero (by omega) (by omega)
    have ha := Advances.of_goes hsize hs.within hgo
    obtain ⟨u, user, hreach, hleave⟩ := ih (hs.next ha (by omega)) (ha.p_eq.trans (add32_of_lt (by omega)))
    exact ⟨u, user, .head hgo hreach, hleave⟩

theorem total_le_of_reaches (hsize : h.size bin < 2147483648) (hs : s.Within h bin) (hreach : Reaches (cellBody h bin) s t) :
    t.Within h bin ∧ s.freespace + s.allocated ≤ t.freespace + t.allocated := by
  induction hreach with
  | refl => exact ⟨hs, Nat.le_refl _⟩
  | tail _ hgo ih =>
    have ha := Advances.of_goes hsize ih.1 hgo
    exact ⟨ha.within, by have := ha.total; omega⟩

/-- The cells of a bin that is let through tile it: if the end of a cell wraps, the sizes are too large to add up. -/
theorem tiled_of_reaches {last : Option ℕ} {user : ℕ} (hin : bin + h.size bin < 4294967296) (hsize : h.size bin < 2147483648)
    (hs : s.At h bin last) (hreach : Reaches (cellBody h bin) s t) (hleave : cellBody h bin t = .ok (.inr (.ok user))) :
    Tiled h bin (bin + h.size bin) last s.p := by
  have hend : binEnd h bin = bin + h.size bin := add32_of_lt hin
  induction hreach using Relation.ReflTransGen.head_induction_on generalizing last with
  | refl =>
    obtain ⟨hp, -, -⟩ := (cellBody_ok_iff hsize hs.within).1 hleave
    rw [hp, hend]
    exact .done
  | @head s u hgo hreach ih =>
    have ha := Advances.of_goes hsize hs.within hgo
    obtain ⟨htwithin, htotal⟩ := total_le_of_reaches hsize ha.within hreach
    obtain ⟨-, hsum, -⟩ := (cellBody_ok_iff hsize htwithin).1 hleave
    have hsp := hs.p_eq
    have hadds := ha.total
    have hup : u.p = s.p + cellLength (h.cellSize s.p) := ha.p_eq.trans (add32_of_lt (by omega))
    refine .cell ((hs.checkLast_iff (by omega)).1 ha.last) ha.nonzero (by omega) ?_
    rw [← hup]
    exact ih (hs.next ha (by omega))

/-- In a bin that wraps around the address space no cell is looked at. -/
theorem hvCheckBin_of_wrap (hlo : 2147483648 ≤ bin) (hhi : bin + 32 < 4294967296) (hwrap : ¬bin + h.size bin < 4294967296) :
    hvCheckBin h bin = .ok (.error 995) := by
  have hlt := size_lt h bin
  have hend : ¬(Scan.start bin).p < binEnd h bin := by
    unfold Scan.start binEnd add32
    dsimp only
    omega
  have hsum : checkSum h bin (.start bin) = .error 995 := by
    rw [checkSum, if_pos]
    unfold Scan.start add32
    dsimp only
    omega
  rw [hvCheckBin, loop_leave]
  rw [cellBody, if_neg hend, hsum]

/-- **`HvCheckBin` judges a bin exactly**: it complains unless the cells tile the bytes after the header. -/
theorem hvCheckBin_ok_iff (hlo : 2147483648 ≤ bin) (hhi : bin + 32 < 4294967296) :
    (∃ user, hvCheckBin h bin = .ok (.ok user)) ↔ BinTiled h bin := by
  by_cases hin : bin + h.size bin < 4294967296
  · have hsize : h.size bin < 2147483648 := by omega
    have hstart := at_start h hhi
    constructor
    · rintro ⟨user, hok⟩
      obtain ⟨t, hreach, hleave⟩ := exists_loop_eq_ok_iff.1 ⟨_, hok⟩
      refine ⟨hin, ?_⟩
      have htiled := tiled_of_reaches hin hsize hstart hreach hleave
      rwa [hstart.p_eq] at htiled
    · rintro ⟨-, htiled⟩
      obtain ⟨t, user, hreach, hleave⟩ := htiled.reaches hin hsize hstart hstart.p_eq
      exact ⟨user, (cellBody_bounded hsize).ok_iff.mpr ⟨t, hreach, hleave⟩⟩
  · rw [hvCheckBin_of_wrap hlo hhi hin]
    constructor
    · rintro ⟨user, ⟨⟩⟩
    · rintro ⟨hmem, -⟩
      exact absurd hmem hin

theorem hvCheckBin_returns (hlo : 2147483648 ≤ bin) (hhi : bin + 32 < 4294967296) : ∃ r, hvCheckBin h bin = .ok r := by
  by_cases hin : bin + h.size bin < 4294967296
  · have hsize : h.size bin < 2147483648 := by omega
    rw [hvCheckBin, exists_eq_ok_iff, (cellBody_bounded hsize).error_iff]
    rintro ⟨t, -, e, herror⟩
    exact cellBody_ne_error h bin t e herror
  · exact ⟨_, hvCheckBin_of_wrap hlo hhi hin⟩

end Cells

/-! ### The walk over the bins -/

section Bins

variable {h : HHive} {p q : ℕ}

/-- The walk is a function of the offset, and it stops at the length or past it. -/
theorem Next.rightUnique (h : HHive) (type : HStorageType) : Relator.RightUnique (Next h type) := by
  intro p q r hq hr
  cases hq with
  | bin _ hpresent _ =>
    cases hr with
    | bin _ _ _ => rfl
    | free _ hfree => rw [hpresent] at hfree; cases hfree
  | free _ hfree =>
    cases hr with
    | bin _ hpresent _ => rw [hpresent] at hfree; cases hfree
    | free _ _ => rfl

theorem Next.lt {type : HStorageType} (hnext : Next h type p q) : p < h.length type := by
  cases hnext <;> assumption

theorem eq_of_reached_of_le {type : HStorageType} (hp : Reached h type p) (hq : Reached h type q) (hlp : h.length type ≤ p)
    (hlq : h.length type ≤ q) : p = q := by
  have stops {a b : ℕ} (hle : h.length type ≤ a) (hab : Relation.ReflTransGen (Next h type) a b) : b = a := by
    obtain rfl | ⟨c, hac, -⟩ := hab.cases_head
    · rfl
    · exact absurd hac.lt (by omega)
  obtain hpq | hqp := hp.total_of_right_unique (Next.rightUnique h type) hq
  · exact (stops hlp hpq).symm
  · exact stops hlq hqp

theorem hvpGetCellMap_stable (hp : p < h.length .stable) : hvpGetCellMap h p = some (h.map .stable (p / 4096)) := by
  have hle := h.length_le .stable
  have htype : p / 2147483648 = 0 := by omega
  rw [hvpGetCellMap, if_pos htype, Nat.mod_eq_of_lt (by omega)]
  exact if_neg (by omega)

/-- **An iteration of the loop over the stable bins** goes on as the walk does, or complains where the walk has no next offset. -/
theorem spaceBody_cases (hp : p < h.length .stable) (s : ℕ) :
    (∃ q s', Next h .stable p q ∧ spaceBody h (h.length .stable) (p, s) = .ok (.inl (q, s'))) ∨
      (∀ q, ¬Next h .stable p q) ∧ ∃ rc, spaceBody h (h.length .stable) (p, s) = .ok (.inr (.error rc)) := by
  have hle := h.length_le .stable
  rw [spaceBody, if_pos hp, hvpGetCellMap_stable hp]
  cases hdisc : (h.map .stable (p / 4096)).discardable with
  | true =>
    have hfree := h.free_le .stable _ (by omega) hdisc
    refine .inl ⟨_, s, .free hp hdisc, ?_⟩
    dsimp only
    rw [if_neg (by simp [hdisc]), add32_of_lt]
    unfold HHive.freeSize
    omega
  | false =>
    obtain ⟨hlo, hhi⟩ := h.bin_mem .stable _ (by omega) hdisc
    have hcheck := hvCheckBin_ok_iff (h := h) hlo hhi
    dsimp only
    rw [if_pos hdisc]
    by_cases hok : BinOk h (h.length .stable) p (h.map .stable (p / 4096)).binAddress
    · have ⟨hsize, hsig, hoff, htiled⟩ := hok
      obtain ⟨user, huser⟩ := hcheck.2 htiled
      refine .inl ⟨_, add32 s user, .bin hp hdisc hok, ?_⟩
      rw [if_neg (by simp [hsig, hoff, hsize]), huser, add32_of_lt (by omega)]
    · refine .inr ⟨?_, ?_⟩
      · intro q hnext
        cases hnext with
        | bin _ _ hok' => exact hok hok'
        | free _ hfree => rw [hdisc] at hfree; cases hfree
      · split_ifs with hheader
        · exact ⟨2010, rfl⟩
        · obtain ⟨rc | user, hr⟩ := hvCheckBin_returns (h := h) hlo hhi
          · exact ⟨rc, by rw [hr]⟩
          · rw [not_or, not_or, not_not, not_not, Nat.not_lt] at hheader
            exact absurd ⟨hheader.1, hheader.2.1, hheader.2.2, hcheck.1 ⟨user, hr⟩⟩ hok

theorem spaceBody_done {length : ℕ} (hp : length ≤ p) (s : ℕ) : spaceBody h length (p, s) = .ok (.inr (.ok s)) :=
  if_neg (Nat.not_lt.2 hp)

theorem next_of_goes {a b : ℕ × ℕ} (hgo : Goes (spaceBody h (h.length .stable)) a b) : Next h .stable a.1 b.1 := by
  unfold Goes at hgo
  by_cases hp : a.1 < h.length .stable
  · obtain ⟨q, s', hnext, heq⟩ | ⟨-, rc, heq⟩ := spaceBody_cases hp a.2
    · cases heq.symm.trans hgo
      exact hnext
    · cases heq.symm.trans hgo
  · cases (spaceBody_done (Nat.le_of_not_lt hp) a.2).symm.trans hgo

theorem exists_reaches_iff : (∃ s, Reaches (spaceBody h (h.length .stable)) (0, 0) (p, s)) ↔ Reached h .stable p := by
  constructor
  · rintro ⟨s, hs⟩
    exact hs.lift Prod.fst fun _ _ => next_of_goes
  · intro hp
    induction hp with
    | refl => exact ⟨0, .refl⟩
    | tail _ hnext ih =>
      obtain ⟨s, hs⟩ := ih
      obtain ⟨q, s', hnext', heq⟩ | ⟨hnot, -⟩ := spaceBody_cases hnext.lt s
      · obtain rfl := Next.rightUnique h .stable hnext hnext'
        exact ⟨s', hs.tail heq⟩
      · exact absurd hnext (hnot _)

/-- The loop over the stable space ends without a complaint where the walk comes to the length or past it. -/
theorem stable_ok_iff :
    (∃ n storage, loop () (spaceBody h (h.length .stable)) n (0, 0) = .ok (.ok storage)) ↔
      ∃ p, Reached h .stable p ∧ h.length .stable ≤ p := by
  constructor
  · rintro ⟨n, storage, hn⟩
    obtain ⟨⟨p, s⟩, hs, hend⟩ := exists_loop_eq_ok_iff.1 ⟨n, hn⟩
    refine ⟨p, exists_reaches_iff.1 ⟨s, hs⟩, ?_⟩
    by_contra hlt
    obtain ⟨q, s', -, heq⟩ | ⟨-, rc, heq⟩ := spaceBody_cases (Nat.lt_of_not_le hlt) s
    · cases heq.symm.trans hend
    · cases heq.symm.trans hend
  · rintro ⟨p, hp, hle⟩
    obtain ⟨s, hs⟩ := exists_reaches_iff.2 hp
    obtain ⟨n, hn⟩ := exists_loop_eq_ok_iff.2 ⟨_, hs, spaceBody_done hle s⟩
    exact ⟨n, s, hn⟩

/-- The loop over the volatile space does nothing: it would start with the first bin only if that were below the length. -/
theorem volatile_loop (h : HHive) (n storage : ℕ) :
    loop () (spaceBody h (h.length .volatile)) (n + 1) (2147483648, storage) = .ok (.ok storage) := by
  have hle := h.length_le .volatile
  exact loop_leave (spaceBody_done hle storage)

theorem hvCheckHive_ok_iff :
    (∃ n storage, hvCheckHive n h = .ok (.ok storage)) ↔ ∃ p, Reached h .stable p ∧ h.length .stable ≤ p := by
  rw [← stable_ok_iff]
  constructor
  · rintro ⟨n, storage, hn⟩
    unfold hvCheckHive at hn
    cases hs : loop () (spaceBody h (h.length .stable)) n (0, 0) with
    | error e => simp only [hs, reduceCtorEq] at hn
    | ok r =>
      cases r with
      | error rc => simp only [hs, Except.ok.injEq, reduceCtorEq] at hn
      | ok local' => exact ⟨n, local', hs⟩
  · rintro ⟨n, storage, hn⟩
    obtain ⟨n, rfl⟩ : ∃ m, n = m + 1 := by
      cases n with
      | zero => cases hn
      | succ m => exact ⟨m, rfl⟩
    exact ⟨n + 1, storage, by rw [hvCheckHive, hn]; exact volatile_loop h n storage⟩

end Bins

/-- **`HvCheckHive` tells a well-formed hive** if and only if the walk over the stable bins does not lead past the length
and, where it leads to the length, the volatile space is well formed. -/
theorem hvCheckHive_exact_iff (h : HHive) :
    ((∃ n storage, hvCheckHive n h = .ok (.ok storage)) ↔ WellFormed h) ↔
      ∀ p, Reached h .stable p → h.length .stable ≤ p → p = h.length .stable ∧ Reached h .volatile (h.length .volatile) := by
  rw [hvCheckHive_ok_iff]
  constructor
  · intro hexact p hp hle
    have hwf := hexact.1 ⟨p, hp, hle⟩
    exact ⟨eq_of_reached_of_le hp (hwf .stable) hle le_rfl, hwf .volatile⟩
  · intro hends
    constructor
    · rintro ⟨p, hp, hle⟩ type
      obtain ⟨rfl, hvolatile⟩ := hends p hp hle
      cases type with
      | stable => exact hp
      | volatile => exact hvolatile
    · exact fun hwf => ⟨_, hwf .stable, le_rfl⟩

/-- A hive without stable bins, and with one volatile bin that is all zeros. -/
def zeroVolatileBin : HHive where
  version := 2
  memory := ⟨0, fun _ => 0⟩
  length := fun
    | .stable => 0
    | .volatile => 4096
  map := fun _ _ => ⟨2147483648, 2147483648, true, false⟩
  length_le := by rintro ⟨⟩ <;> decide
  bin_mem := fun _ _ _ _ => by decide
  free_le := fun _ _ _ hdisc => by cases hdisc

/-- The volatile bin is not looked at. -/
theorem hvCheckHive_zeroVolatileBin : hvCheckHive 1 zeroVolatileBin = .ok (.ok 0) ∧ ¬WellFormed zeroVolatileBin := by
  refine ⟨rfl, fun hwf => ?_⟩
  obtain h0 | ⟨c, hnext, -⟩ := (hwf .volatile).cases_head
  · cases h0
  · cases hnext with
    | bin _ _ hok => exact absurd hok.2.1 (by decide)
    | free _ hfree => cases hfree

end Nt365.Config.Check
