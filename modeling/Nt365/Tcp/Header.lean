import Mathlib.Data.BitVec

/-!
# The header of a received TCP segment

`TCPRcv` (`TCP/TCPRCV.C`) drops a segment that is shorter than a header or has a bad checksum, passes on what is behind the
header, and looks for the MSS among the options of a SYN. It compares the data offset with the size only, and `FindMSS`
reads the length and the value of an option before it knows that they are in the header (`tcpRcv_staysInside_iff`).

The bytes of memory from the header on are a map; the segment is the first `size` of them.
-/

namespace Nt365.Tcp

variable (mem : ℕ → BitVec 8)

/-- `TCP_HDR_SIZE`. -/
def tcpHdrSize : ℕ := ((mem 12 &&& 0xf0) >>> 2).toNat

def maxRemoteMss : ℕ := 536

/-- The loop of `FindMSS`: the MSS, and the offsets of the bytes that are read. -/
def findMssLoop (optPtr optSize : ℕ) : ℕ × List ℕ :=
  if optSize = 0 then (maxRemoteMss, [])
  else match (mem optPtr).toNat with
    | 0 => (maxRemoteMss, [optPtr])
    | 1 =>
      let rest := findMssLoop (optPtr + 1) (optSize - 1)
      (rest.1, optPtr :: rest.2)
    | 2 =>
      if (mem (optPtr + 1)).toNat = 4 then
        let tempMss := (mem (optPtr + 2)).toNat * 256 + (mem (optPtr + 3)).toNat
        (if tempMss ≠ 0 then tempMss else maxRemoteMss, [optPtr, optPtr + 1, optPtr + 2, optPtr + 3])
      else (maxRemoteMss, [optPtr, optPtr + 1])
    | _ =>
      let length := (mem (optPtr + 1)).toNat
      if length = 0 ∨ optSize < length then (maxRemoteMss, [optPtr, optPtr + 1])
      else
        let rest := findMssLoop (optPtr + length) (optSize - length)
        (rest.1, optPtr :: (optPtr + 1) :: rest.2)
termination_by optSize
decreasing_by all_goals omega

/-- `FindMSS`, whose `OptSize` is unsigned. -/
def findMss : ℕ × List ℕ := findMssLoop mem 20 ((tcpHdrSize mem + (2 ^ 32 - 20)) % 2 ^ 32)

/-- `PHXSUM`. -/
def phXsum (src dest : BitVec 32) (size : ℕ) : ℕ :=
  src.toNat % 2 ^ 16 + src.toNat / 2 ^ 16 + dest.toNat % 2 ^ 16 + dest.toNat / 2 ^ 16 + 0x600 +
    (size % 256 * 256 + size / 256 % 256)

/-- `XsumRcvBuf`: the words are added with an end-around carry. -/
def xsumRcvBuf (phXsum size : ℕ) : ℕ :=
  let sum := phXsum + ((List.range size).map fun i => (mem i).toNat * if i % 2 = 0 then 1 else 256).sum
  if sum = 0 then 0 else (sum - 1) % 0xffff + 1

/-- What became of a segment: the offsets that were read, those that `FindMSS` read, its result, and the data that is passed on. -/
structure Received where
  reads : List ℕ
  optionReads : List ℕ
  mss : Option ℕ
  data : Option (List (BitVec 8))

variable (src dest : BitVec 32) (isBCast wantsMss : Bool) (size : ℕ)

/-- The bytes behind the header. -/
def payload : List (BitVec 8) := (List.range' (tcpHdrSize mem) (size - tcpHdrSize mem)).map mem

/-- The header processing of `TCPRcv`; `wantsMss` is whether a SYN finds a connection to set the MSS of. -/
def tcpRcv : Received :=
  if isBCast = true ∨ size < 20 then ⟨[], [], none, none⟩
  else if xsumRcvBuf mem (phXsum src dest size) size ≠ 0xffff then ⟨List.range size, [], none, none⟩
  else if src = dest ∧ mem 0 = mem 2 ∧ mem 1 = mem 3 then ⟨List.range size ++ List.range 4, [], none, none⟩
  else if size < tcpHdrSize mem then ⟨List.range size ++ List.range 16, [], none, none⟩
  else if (mem 13).getLsbD 1 = true ∧ wantsMss = true then
    ⟨List.range size ++ List.range 16, (findMss mem).2, some (findMss mem).1, some (payload mem size)⟩
  else ⟨List.range size ++ List.range 16, [], none, some (payload mem size)⟩

/-- Only bytes of the segment are read, by `FindMSS` only options, and the data is what is behind a whole header. -/
structure StaysInside (r : Received) : Prop where
  reads : ∀ i ∈ r.reads ++ r.optionReads, i < size
  options : ∀ i ∈ r.optionReads, 20 ≤ i ∧ i < tcpHdrSize mem
  data : ∀ data, r.data = some data → 20 ≤ tcpHdrSize mem ∧ tcpHdrSize mem ≤ size ∧ data = payload mem size

/-- The segment is not dropped. -/
def Accepted : Prop :=
  isBCast = false ∧ 20 ≤ size ∧ xsumRcvBuf mem (phXsum src dest size) size = 0xffff ∧
    ¬(src = dest ∧ mem 0 = mem 2 ∧ mem 1 = mem 3) ∧ tcpHdrSize mem ≤ size

/-- The options from an offset on are whole, up to the one that ends them. -/
inductive OptionsFit (stop : ℕ) : ℕ → Prop
  | nil {i : ℕ} : i = stop → OptionsFit stop i
  | eol {i : ℕ} : i < stop → (mem i).toNat = 0 → OptionsFit stop i
  | nop {i : ℕ} : i < stop → (mem i).toNat = 1 → OptionsFit stop (i + 1) → OptionsFit stop i
  | mss {i : ℕ} : i + 3 < stop → (mem i).toNat = 2 → OptionsFit stop i
  | badMss {i : ℕ} : i + 1 < stop → (mem i).toNat = 2 → (mem (i + 1)).toNat ≠ 4 → OptionsFit stop i
  | badLength {i : ℕ} : i + 1 < stop → 2 < (mem i).toNat → (mem (i + 1)).toNat = 0 ∨ stop < i + (mem (i + 1)).toNat →
      OptionsFit stop i
  | other {i : ℕ} : i + 1 < stop → 2 < (mem i).toNat → OptionsFit stop (i + (mem (i + 1)).toNat) → OptionsFit stop i

variable {mem}

theorem le_of_mem_findMssLoop {i optPtr optSize : ℕ} (hi : i ∈ (findMssLoop mem optPtr optSize).2) : optPtr ≤ i := by
  fun_induction findMssLoop mem optPtr optSize with grind

/-- **The bytes that `FindMSS` reads** are in the header exactly if the options are whole. -/
theorem findMssLoop_reads_iff {optPtr optSize stop : ℕ} (hstop : optPtr + optSize = stop) :
    (∀ i ∈ (findMssLoop mem optPtr optSize).2, i < stop) ↔ OptionsFit mem stop optPtr := by
  fun_induction findMssLoop mem optPtr optSize with
  | case1 => exact iff_of_true (by simp) (.nil (by omega))
  | case2 optPtr optSize hsize hkind => exact iff_of_true (by grind) (.eol (by omega) hkind)
  | case3 optPtr optSize hsize hkind rest ih =>
    have ih := ih (by omega)
    refine ⟨fun h => .nop (by omega) hkind (ih.mp fun i hi => h i (.tail _ hi)), fun h => ?_⟩
    cases h <;> grind
  | case4 optPtr optSize hsize hkind hlength =>
    refine ⟨fun h => .mss (h _ (by simp)) hkind, fun h => ?_⟩
    cases h <;> grind
  | case5 optPtr optSize hsize hkind hlength =>
    refine ⟨fun h => .badMss (h _ (by simp)) hkind hlength, fun h => ?_⟩
    cases h <;> grind
  | case6 optPtr optSize hsize length hlength =>
    refine ⟨fun h => .badLength (h _ (by simp)) (by grind) (by grind), fun h => ?_⟩
    cases h <;> grind
  | case7 optPtr optSize hsize length hlength rest h0 h1 h2 ih =>
    have ih := ih (by omega)
    refine ⟨fun h => .other (h _ (by simp)) (by grind) (ih.mp fun i hi => h i (by simp [rest, hi])), fun h => ?_⟩
    cases h <;> grind

/-- The size of the options does not wrap below a whole header. -/
theorem findMss_eq (h : 20 ≤ tcpHdrSize mem) : findMss mem = findMssLoop mem 20 (tcpHdrSize mem - 20) := by
  have hsize : tcpHdrSize mem < 2 ^ 8 := BitVec.isLt _
  rw [findMss, show (tcpHdrSize mem + (2 ^ 32 - 20)) % 2 ^ 32 = tcpHdrSize mem - 20 by omega]

/-- **`TCPRcv` stays inside the segment** exactly if what it accepts has a whole header, and a SYN whole options. -/
theorem tcpRcv_staysInside_iff :
    StaysInside mem size (tcpRcv mem src dest isBCast wantsMss size) ↔
      (Accepted mem src dest isBCast size → 20 ≤ tcpHdrSize mem ∧
        ((mem 13).getLsbD 1 = true ∧ wantsMss = true → OptionsFit mem (tcpHdrSize mem) 20)) := by
  unfold tcpRcv Accepted
  split_ifs with h₁ h₂ h₃ h₄ h₅
  · exact iff_of_true ⟨by simp, by simp, by simp⟩ (by grind)
  · exact iff_of_true ⟨by simp, by simp, by simp⟩ (by grind)
  · exact iff_of_true ⟨by grind, by simp, by simp⟩ (by grind)
  · exact iff_of_true ⟨by grind, by simp, by simp⟩ (by grind)
  · refine ⟨fun h _ => ?_, fun h => ?_⟩
    · obtain ⟨hwhole, -, -⟩ := h.data _ rfl
      have hoptions := h.options
      rw [findMss_eq hwhole] at hoptions
      exact ⟨hwhole, fun _ => (findMssLoop_reads_iff (by omega)).mp fun i hi => (hoptions i hi).2⟩
    · obtain ⟨hwhole, hfit⟩ := h (by grind)
      have hoptions := (findMssLoop_reads_iff (show 20 + (tcpHdrSize mem - 20) = tcpHdrSize mem by omega)).mpr (hfit h₅)
      rw [findMss_eq hwhole]
      exact ⟨by grind, fun i hi => ⟨le_of_mem_findMssLoop hi, hoptions i hi⟩, by grind⟩
  · refine ⟨fun h _ => ⟨(h.data _ rfl).1, fun hsyn => absurd hsyn h₅⟩, fun h => ?_⟩
    obtain ⟨hwhole, -⟩ := h (by grind)
    exact ⟨by grind, by simp, by grind⟩

/-- A SYN from 10.0.0.1 to 10.0.0.2 with a data offset of 0. -/
def headlessSyn (i : ℕ) : BitVec 8 := [4, 0, 0, 80, 0, 0, 0, 0, 0, 0, 0, 0, 0, 2, 0, 0, 231, 144, 0, 0].getD i 0

/-- **A header that is not there.** All of the segment is passed on as data. -/
theorem not_staysInside_headlessSyn : ¬StaysInside headlessSyn 20 (tcpRcv headlessSyn 0x0100000a 0x0200000a false true 20) := by
  intro h
  have hwhole := (h.data (payload headlessSyn 20) (by rfl)).1
  revert hwhole
  decide

end Nt365.Tcp
