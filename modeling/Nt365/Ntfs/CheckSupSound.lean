import Mathlib.Tactic.MkIffOfInductiveProp
import Nt365.Library.SignedBytes
import Nt365.Ntfs.CheckSup

/-!
# What a checked file record is

`ntfsCheckFileRecord_iff` says exactly for which segments the check reads only the segment, copies no
more than eight bytes into `Change`, and accepts only what is well-formed. The first part is about
what the checks read: `fieldsRead` of each record that is reached, and each mapping pair and index
entry that is reached. The second part is about what they let through: mapping pairs without
clusters, negative `Lcn`s and sums that overflow, and index entries before the index.
-/

namespace Nt365.Ntfs

open Nt365.Library List

/-! ### Fields -/

section Fields

variable {B : Buffer}

theorem field_ok {off n : ℕ} (h : off + n ≤ B.size) : field B off n = .ok (B.le off n) := by
  rw [field, Buffer.read, if_pos h]

theorem field_error {off n : ℕ} (h : ¬off + n ≤ B.size) : field B off n = .error .outside := by
  rw [field, Buffer.read, if_neg h]

theorem field_test {off n : ℕ} (h : off + n ≤ B.size) (f : ℕ → Bool) :
    (do let v ← field B off n; return f v) = .ok (f (B.le off n)) := by
  rw [field_ok h]
  rfl

/-- What rejects the fixed part of a header. -/
def headerGuards (B : Buffer) (a : ℕ) : List Guard := [
  ⟨8, decide (B.size ≤ recordLength B a)⟩,
  ⟨8, decide (B.size ≤ a + recordLength B a)⟩,
  ⟨if nameLength B a = 0 then 10 else 12, decide (nameLength B a ≠ 0 ∧ recordLength B a < nameOffset B a + nameLength B a)⟩]

/-- What rejects a resident attribute. -/
def residentGuards (B : Buffer) (a : ℕ) : List Guard := [
  ⟨20, decide (recordLength B a ≤ valueLength B a)⟩,
  ⟨22, decide (recordLength B a < add32 (valueOffset B a) (valueLength B a))⟩]

/-- What rejects a nonresident attribute. -/
def nonresidentGuards (B : Buffer) (a : ℕ) : List Guard := [
  ⟨24, decide (B.le (a + 16) 8 ≠ 0 ∧ B.le 32 8 = 0)⟩,
  ⟨32, decide (wrap64 (highestVcn B a + 1) < lowestVcn B a)⟩,
  ⟨34, decide (recordLength B a ≤ mappingPairsOffset B a)⟩,
  ⟨64, decide (fileSize B a < validDataLength B a)⟩,
  ⟨56, decide (allocatedLength B a < fileSize B a)⟩]

def formGuards (B : Buffer) (a : ℕ) : List Guard :=
  if formCode B a = residentForm then residentGuards B a
  else if formCode B a = nonresidentForm then nonresidentGuards B a else []

/-- How many bytes of an attribute record are read, but for its value and its mapping pairs. -/
def fieldsRead (B : Buffer) (a : ℕ) : ℕ :=
  if typeCode B a = endCode then 4 else needed (headerGuards B a ++ formGuards B a) 4

attribute [local irreducible] Buffer.le

/-- A condition that reads one field first. -/
theorem guard_bind {off n need : ℕ} {a : ℕ} {k : ℕ → Except Fault Bool} {c : Bool} (hread : a + need ≤ B.size → off + n ≤ B.size)
    (hk : off + n ≤ B.size → k (B.le off n) = Guard.eval B .outside a ⟨need, c⟩) :
    (field B off n >>= k) = Guard.eval B .outside a ⟨need, c⟩ := by
  by_cases hin : off + n ≤ B.size
  · rw [field_ok hin]
    exact hk hin
  · rw [field_error hin, Guard.eval_neg (mt hread hin)]
    rfl

theorem guard_field {off n : ℕ} (a need : ℕ) (h : a + need ≤ B.size ↔ off + n ≤ B.size) (f : ℕ → Bool) :
    (do let v ← field B off n; return f v) = Guard.eval B .outside a ⟨need, f (B.le off n)⟩ :=
  guard_bind h.mp fun hin => (if_pos (h.mpr hin)).symm

theorem guard_field₂ {off n off' n' : ℕ} (a need : ℕ) (h : a + need ≤ B.size ↔ off + n ≤ B.size ∧ off' + n' ≤ B.size)
    (f : ℕ → ℕ → Bool) : (do let v ← field B off n; let w ← field B off' n'; return f v w) =
      Guard.eval B .outside a ⟨need, f (B.le off n) (B.le off' n')⟩ :=
  guard_bind (fun hin => (h.mp hin).1) fun hin => guard_field a need (h.trans (and_iff_right hin)) _

theorem guard_field₃ {off n off' n' off'' n'' : ℕ} (a need : ℕ)
    (h : a + need ≤ B.size ↔ off + n ≤ B.size ∧ off' + n' ≤ B.size ∧ off'' + n'' ≤ B.size) (f : ℕ → ℕ → ℕ → Bool) :
    (do let v ← field B off n; let w ← field B off' n'; let x ← field B off'' n''; return f v w x) =
      Guard.eval B .outside a ⟨need, f (B.le off n) (B.le off' n') (B.le off'' n'')⟩ :=
  guard_bind (fun hin => (h.mp hin).1) fun hin => guard_field₂ a need (h.trans (and_iff_right hin)) _

theorem badHeader_eq (a : ℕ) : badHeader B a = anyOf ((headerGuards B a).map (Guard.eval B .outside a)) := by
  have hname : (do
      let nameLength ← field B (a + 9) 1
      if nameLength ≠ 0 then
        let nameOffset ← field B (a + 10) 2
        let length ← field B (a + 4) 4
        return decide (nameOffset + nameLength > length)
      else return false) = Guard.eval B .outside a
        ⟨if nameLength B a = 0 then 10 else 12, decide (nameLength B a ≠ 0 ∧
          recordLength B a < nameOffset B a + nameLength B a)⟩ := by
    refine guard_bind (by split <;> omega) fun hin => ?_
    change (if nameLength B a ≠ 0 then _ else _) = _
    by_cases hzero : nameLength B a = 0
    · simp only [hzero, ne_eq, not_true_eq_false, if_false, if_true, false_and, decide_false]
      exact (if_pos (by omega)).symm
    · simp only [hzero, ne_eq, not_false_eq_true, if_true, if_false, true_and]
      exact guard_field₂ a 12 (by omega) fun v w => decide (v + nameLength B a > w)
  rw [badHeader, hname, guard_field a 8 (by omega) fun v => decide (v ≥ B.size),
    guard_field a 8 (by omega) fun v => decide (a + v ≥ B.size)]
  rfl

theorem badResident_eq (a : ℕ) : badResident B a = anyOf ((residentGuards B a).map (Guard.eval B .outside a)) := by
  rw [badResident, guard_field₂ a 20 (by omega) fun v w => decide (v ≥ w),
    guard_field₃ a 22 (by omega) fun v w x => decide (add32 v w > x)]
  rfl

theorem badNonresident_eq (a : ℕ) (hsize : 40 ≤ B.size) :
    badNonresident B a = anyOf ((nonresidentGuards B a).map (Guard.eval B .outside a)) := by
  have hbase : (do
      let lowestVcn ← field B (a + 16) 8
      if lowestVcn ≠ 0 then
        let base ← field B 32 8
        return decide (base = 0)
      else return false) = Guard.eval B .outside a ⟨24, decide (B.le (a + 16) 8 ≠ 0 ∧ B.le 32 8 = 0)⟩ := by
    refine guard_bind (by omega) fun hin => ?_
    rw [field_ok (show 32 + 8 ≤ B.size by omega), Guard.eval, if_pos (show a + 24 ≤ B.size from hin)]
    by_cases hzero : B.le (a + 16) 8 = 0
    · simp only [hzero, ne_eq, not_true_eq_false, if_false, false_and, decide_false]
      rfl
    · simp only [hzero, ne_eq, not_false_eq_true, if_true, true_and]
      rfl
  rw [badNonresident, hbase, guard_field₂ a 32 (by omega) fun v w => decide (wrap64 v > wrap64 (wrap64 w + 1)),
    guard_field₂ a 34 (by omega) fun v w => decide (v ≥ w),
    guard_field₂ a 64 (by omega) fun v w => decide (wrap64 v > wrap64 w),
    guard_field₂ a 56 (by omega) fun v w => decide (wrap64 v > wrap64 w)]
  rfl

/-- The fixed part is not rejected. -/
def HeaderOk (B : Buffer) (a : ℕ) : Prop := (headerGuards B a).any Guard.cond = false

instance (B : Buffer) (a : ℕ) : Decidable (HeaderOk B a) := inferInstanceAs (Decidable (_ = _))

/-- A resident attribute whose value is checked. -/
def ResidentOk (B : Buffer) (a : ℕ) : Prop :=
  HeaderOk B a ∧ formCode B a = residentForm ∧ (residentGuards B a).any Guard.cond = false

instance (B : Buffer) (a : ℕ) : Decidable (ResidentOk B a) := inferInstanceAs (Decidable (_ ∧ _ ∧ _))

/-- A nonresident attribute whose mapping pairs are checked. -/
def NonresidentOk (B : Buffer) (a : ℕ) : Prop :=
  HeaderOk B a ∧ formCode B a = nonresidentForm ∧ (nonresidentGuards B a).any Guard.cond = false

instance (B : Buffer) (a : ℕ) : Decidable (NonresidentOk B a) := inferInstanceAs (Decidable (_ ∧ _ ∧ _))

variable {vcb : Vcb} {a : ℕ}

theorem bind_guards (gs : List Guard) {n : ℕ} (hn : a + n ≤ B.size) (k : Except Fault Bool) :
    (anyOf (gs.map (Guard.eval B .outside a)) >>= fun bad => if bad then pure false else k) =
      if a + needed gs n ≤ B.size then (if gs.any Guard.cond then .ok false else k) else .error .outside := by
  rw [anyOf_guards B Fault.outside gs hn]
  split <;> rfl

/-- **The header of an attribute**: it is read outside, or it is rejected, or its value or its mapping
pairs are checked. -/
theorem ntfsCheckAttributeRecord_cases (hsize : 40 ≤ B.size) (ha : a + 4 ≤ B.size) :
    ntfsCheckAttributeRecord vcb B a =
      if a + needed (headerGuards B a ++ formGuards B a) 4 ≤ B.size then
        if ResidentOk B a then checkValue vcb B a else if NonresidentOk B a then mappingPairsAgree vcb B a else .ok false
      else .error .outside := by
  rw [ntfsCheckAttributeRecord, badHeader_eq, bind_guards _ ha, needed_append]
  by_cases hok : (headerGuards B a).any Guard.cond = true
  · simp [hok, ResidentOk, NonresidentOk, HeaderOk]
  · simp only [if_neg hok]
    by_cases hin : a + needed (headerGuards B a) 4 ≤ B.size
    · have hname : (if nameLength B a = 0 then 10 else 12) ≤ needed (headerGuards B a) 4 :=
        Guard.need_le (Bool.not_eq_true _ ▸ hok) (.tail _ (.tail _ (.head _))) 4
      have hform : field B (a + 8) 1 = .ok (formCode B a) := field_ok (by split at hname <;> omega)
      have hne : residentForm ≠ nonresidentForm := by decide
      simp only [if_pos hin, hform, ok_bind]
      by_cases hres : formCode B a = residentForm
      · have hguards : formGuards B a = residentGuards B a := if_pos hres
        rw [if_pos hres, hguards, badResident_eq, bind_guards _ hin]
        cases hany : (residentGuards B a).any Guard.cond <;>
          simp [-any_eq_true, -any_eq_false, hok, hany, hres, hne, ResidentOk, NonresidentOk, HeaderOk]
      · rw [if_neg hres]
        by_cases hnon : formCode B a = nonresidentForm
        · have hguards : formGuards B a = nonresidentGuards B a := (if_neg hres).trans (if_pos hnon)
          rw [if_pos hnon, hguards, badNonresident_eq a hsize, bind_guards _ hin]
          cases hany : (nonresidentGuards B a).any Guard.cond <;>
            simp [-any_eq_true, -any_eq_false, hok, hany, hnon, hne.symm, ResidentOk, NonresidentOk, HeaderOk]
        · have hguards : formGuards B a = [] := (if_neg hres).trans (if_neg hnon)
          simp only [ResidentOk, NonresidentOk, hres, hnon, hguards, needed, hin, false_and, and_false, if_true, if_false]
          rfl
    · have hle := le_needed (formGuards B a) (needed (headerGuards B a) 4)
      rw [if_neg hin, if_neg (by omega)]

end Fields

/-! ### Mapping pairs -/

variable (B : Buffer)

/-- The counts of a mapping pair. -/
def vcnBytes (p : ℕ) : ℕ := B.le p 1 % 16

def lcnBytes (p : ℕ) : ℕ := B.le p 1 / 16

/-- The number of clusters of a mapping pair. -/
def pairLength (p : ℕ) : ℕ := B.le (p + 1) (vcnBytes B p)

/-- The pair after this one, and where its run begins. -/
def decodeNext (s : Pair) : Pair :=
  ⟨s.ch + 1 + vcnBytes B s.ch + lcnBytes B s.ch, wrap64 (s.nextVcn + pairLength B s.ch),
    wrap64 (s.currentLcn + signedLe B (s.ch + 1 + vcnBytes B s.ch) (lcnBytes B s.ch))⟩

/-- Where the counts of a pair say that the next pair is; a negative character goes back. -/
def pairEnd (p : ℕ) : ℕ :=
  if B.le p 1 < 128 then p + 1 + vcnBytes B p + lcnBytes B p else p + 1 + vcnBytes B p + lcnBytes B p - 16

/-- The check of a pair reads the record and copies at most eight bytes: the list ends here, or the
pair is rejected before anything is copied, or its counts are small. -/
def PairOk (next p : ℕ) : Prop :=
  B.le p 1 = 0 ∨ next ≤ pairEnd B p ∨ (p + vcnBytes B p < B.size ∧ 128 ≤ B.le (p + vcnBytes B p) 1) ∨
    (B.le p 1 < 128 ∧ vcnBytes B p ≤ 8)

section Pairs

attribute [local irreducible] Buffer.le wrap64 add32 sub32

variable {B : Buffer} {vcb : Vcb} {next : ℕ} {s : Pair}

theorem le_one_lt (B : Buffer) (p : ℕ) : B.le p 1 < 256 := by
  simpa using B.le_lt p 1

theorem pairBody_zero (hlt : s.ch < B.size) (hc : B.le s.ch 1 = 0) : pairBody vcb B next s = .ok (.inr (some s.nextVcn)) := by
  rw [pairBody, field_ok hlt, hc]
  rfl

theorem pairEnd_eq {p : ℕ} (hp : 48 ≤ p) (hsize : p < 4096) :
    add32 (p + 1 + B.le p 1 % 16 + 1) (lcnCount (B.le p 1)) = pairEnd B p + 1 := by
  have hlt := le_one_lt B p
  unfold pairEnd vcnBytes lcnBytes add32 lcnCount
  split <;> omega

theorem copyChange_ok {ch n : ℕ} (hn : n ≤ 8) (hin : ch + n ≤ B.size) : copyChange B ch n = .ok (B.le ch n) := by
  rw [copyChange, if_neg (by omega), field_ok hin]

theorem copyChange_error {ch n : ℕ} (hn : 8 < n) : copyChange B ch n = .error (.overrun n) := by
  rw [copyChange, if_pos hn]

theorem pairCopy_error {v l : ℕ} (h : 8 < v ∨ 8 < l) : ∃ e, pairCopy vcb B s v l = .error e := by
  rw [pairCopy]
  by_cases hv : 8 < v
  · rw [copyChange_error hv]
    exact ⟨_, rfl⟩
  · have hl : 8 < l := by omega
    rw [copyChange_error hl]
    cases copyChange B (s.ch + 1) v with
    | error e => exact ⟨e, rfl⟩
    | ok change =>
      cases hlast : field B (sub32 (add32 (s.ch + 1 + v) l) 1) 1 with
      | error e => exact ⟨e, rfl⟩
      | ok last => exact ⟨_, rfl⟩

/-- Small counts are copied, and the run is checked. -/
theorem pairCopy_eq (hv : vcnBytes B s.ch ≤ 8) (hl : lcnBytes B s.ch ≤ 8)
    (hin : s.ch + 2 + vcnBytes B s.ch + lcnBytes B s.ch ≤ B.size) (hsize : B.size ≤ 4096)
    (hpos : B.le (s.ch + vcnBytes B s.ch) 1 < 128) :
    pairCopy vcb B s (vcnBytes B s.ch) (lcnBytes B s.ch) = .ok (checkRun vcb s (decodeNext B s)) := by
  have hoff : sub32 (add32 (s.ch + 1 + vcnBytes B s.ch) (lcnBytes B s.ch)) 1 = s.ch + vcnBytes B s.ch + lcnBytes B s.ch := by
    rw [add32_of_lt (by omega), sub32_of_le (by omega) (by omega)]
    omega
  have hsigned : (if B.le (s.ch + vcnBytes B s.ch + lcnBytes B s.ch) 1 ≥ 128 then
      (B.le (s.ch + 1 + vcnBytes B s.ch) (lcnBytes B s.ch) : ℤ) - 256 ^ lcnBytes B s.ch
      else B.le (s.ch + 1 + vcnBytes B s.ch) (lcnBytes B s.ch)) = signedLe B (s.ch + 1 + vcnBytes B s.ch) (lcnBytes B s.ch) := by
    rw [signedLe]
    by_cases hzero : lcnBytes B s.ch = 0
    · simp only [hzero, Nat.add_zero, if_true, if_neg (show ¬B.le (s.ch + vcnBytes B s.ch) 1 ≥ 128 by omega), Buffer.le_zero,
        Nat.cast_zero]
    · rw [if_neg hzero, show s.ch + 1 + vcnBytes B s.ch + lcnBytes B s.ch - 1 = s.ch + vcnBytes B s.ch + lcnBytes B s.ch by omega]
  have hvcn : copyChange B (s.ch + 1) (vcnBytes B s.ch) = .ok (pairLength B s.ch) := copyChange_ok hv (by omega)
  rw [pairCopy, hvcn, hoff, field_ok (by omega), copyChange_ok hl (by omega), decodeNext, ← hsigned]
  rfl

/-- The counts of a pair are in order: the pair fits, its first change is not negative and the counts
are small. -/
def Counted (B : Buffer) (next p : ℕ) : Prop :=
  B.le p 1 ≠ 0 ∧ pairEnd B p < next ∧ B.le (p + vcnBytes B p) 1 < 128 ∧ B.le p 1 < 128 ∧ vcnBytes B p ≤ 8

theorem pairBody_counted (hp : 48 ≤ s.ch) (hnext : next < B.size) (hsize : B.size ≤ 4096) (hc : Counted B next s.ch) :
    pairBody vcb B next s = .ok (checkRun vcb s (decodeNext B s)) := by
  obtain ⟨hne, hend, hpos, hsmall, hv⟩ := hc
  have hend' := hend
  rw [pairEnd, if_pos hsmall] at hend'
  have hl : lcnBytes B s.ch ≤ 8 := by
    unfold lcnBytes
    omega
  have hread : field B s.ch 1 = .ok (B.le s.ch 1) := field_ok (by omega)
  have hlast : field B (s.ch + 1 + B.le s.ch 1 % 16 - 1) 1 = .ok (B.le (s.ch + vcnBytes B s.ch) 1) := by
    rw [vcnBytes, show s.ch + 1 + B.le s.ch 1 % 16 - 1 = s.ch + B.le s.ch 1 % 16 by omega]
    exact field_ok (by unfold vcnBytes at hend'; omega)
  have hcount : lcnCount (B.le s.ch 1) = lcnBytes B s.ch := if_pos hsmall
  rw [← pairCopy_eq hv hl (by omega) hsize hpos]
  simp only [pairBody, hread, bind, Except.bind, hne, if_false]
  rw [pairEnd_eq hp (by omega), if_neg (by omega), hlast, hcount]
  exact if_neg (show ¬B.le (s.ch + vcnBytes B s.ch) 1 ≥ 128 by omega)

section Goes

variable (hs : 48 ≤ s.ch ∧ s.ch < next) (hnext : next < B.size) (hsize : B.size ≤ 4096)

include hs hnext hsize

variable (vcb) in
/-- **A pair** is the end of the list, or its counts are in order and its run is checked, or it is rejected, or it
cannot be checked. -/
theorem pairBody_cases :
    (B.le s.ch 1 = 0 ∧ pairBody vcb B next s = .ok (.inr (some s.nextVcn))) ∨
    (Counted B next s.ch ∧ pairBody vcb B next s = .ok (checkRun vcb s (decodeNext B s))) ∨
    B.le s.ch 1 ≠ 0 ∧ ¬Counted B next s.ch ∧ ((PairOk B next s.ch ∧ pairBody vcb B next s = .ok (.inr none)) ∨
      ¬PairOk B next s.ch ∧ ∃ e, pairBody vcb B next s = .error e) := by
  by_cases hne : B.le s.ch 1 = 0
  · exact .inl ⟨hne, pairBody_zero (by omega) hne⟩
  by_cases hc : Counted B next s.ch
  · exact .inr (.inl ⟨hc, pairBody_counted hs.1 hnext hsize hc⟩)
  refine .inr (.inr ⟨hne, hc, ?_⟩)
  have hread : field B s.ch 1 = .ok (B.le s.ch 1) := field_ok (by omega)
  have hoff : s.ch + 1 + B.le s.ch 1 % 16 - 1 = s.ch + vcnBytes B s.ch := by
    unfold vcnBytes
    omega
  simp only [pairBody, hread, bind, Except.bind, hne, if_false, pairEnd_eq hs.1 (show s.ch < 4096 by omega), hoff]
  by_cases hfits : next ≤ pairEnd B s.ch
  · exact .inl ⟨.inr (.inl hfits), if_pos (show pairEnd B s.ch + 1 > next by omega)⟩
  simp only [if_neg (show ¬pairEnd B s.ch + 1 > next by omega)]
  by_cases hin : s.ch + vcnBytes B s.ch + 1 ≤ B.size
  · rw [field_ok hin]
    by_cases hneg : 128 ≤ B.le (s.ch + vcnBytes B s.ch) 1
    · exact .inl ⟨.inr (.inr (.inl ⟨hin, hneg⟩)), if_pos hneg⟩
    · have hlarge : ¬(B.le s.ch 1 < 128 ∧ vcnBytes B s.ch ≤ 8) := fun h =>
        hc ⟨hne, Nat.lt_of_not_le hfits, Nat.lt_of_not_le hneg, h.1, h.2⟩
      refine .inr ⟨?_, ?_⟩
      · rintro (h | h | h | h)
        · exact hne h
        · exact hfits h
        · exact hneg h.2
        · exact hlarge h
      · simp only [if_neg hneg]
        apply pairCopy_error
        unfold vcnBytes at hlarge
        unfold lcnCount
        split <;> omega
  · rw [field_error hin]
    refine .inr ⟨?_, .outside, rfl⟩
    rintro (h | h | h | h)
    · exact hne h
    · exact hfits h
    · exact hin h.1
    · rw [pairEnd, if_pos h.1] at hfits
      omega

theorem pairBody_goes_iff {t : Pair} :
    Goes (pairBody vcb B next) s t ↔ Counted B next s.ch ∧ checkRun vcb s (decodeNext B s) = .inl t := by
  rw [Goes]
  obtain ⟨hzero, h⟩ | ⟨hc, h⟩ | ⟨-, hc, ⟨-, h⟩ | ⟨-, e, h⟩⟩ := pairBody_cases vcb hs hnext hsize
  · exact iff_of_false (by simp [h]) fun h => h.1.1 hzero
  · rw [h, Except.ok.injEq, and_iff_right hc]
  all_goals exact iff_of_false (by simp [h]) fun h => hc h.1

variable (vcb) in
/-- A pair cannot be checked exactly if it is not `PairOk`. -/
theorem pairBody_error_iff : (∃ e, pairBody vcb B next s = .error e) ↔ ¬PairOk B next s.ch := by
  obtain ⟨hzero, h⟩ | ⟨hc, h⟩ | ⟨-, -, ⟨hok, h⟩ | ⟨hok, h⟩⟩ := pairBody_cases vcb hs hnext hsize
  · exact iff_of_false (by simp [h]) (not_not.mpr (.inl hzero))
  · exact iff_of_false (by simp [h]) (not_not.mpr (.inr (.inr (.inr hc.2.2.2))))
  · exact iff_of_false (by simp [h]) (not_not.mpr hok)
  · exact iff_of_true h hok

theorem pairBody_leaves_iff {v : ℤ} : pairBody vcb B next s = .ok (.inr (some v)) ↔ B.le s.ch 1 = 0 ∧ s.nextVcn = v := by
  obtain ⟨hzero, h⟩ | ⟨hc, h⟩ | ⟨hne, -, ⟨-, h⟩ | ⟨-, e, h⟩⟩ := pairBody_cases vcb hs hnext hsize
  · simp [h, hzero]
  · refine iff_of_false ?_ fun h => hc.1 h.1
    rw [h, checkRun]
    split <;> simp
  all_goals exact iff_of_false (by simp [h]) fun h => hne h.1

end Goes

theorem checkRun_inl {t u : Pair} (h : checkRun vcb s t = .inl u) :
    u = t ∧ wrap64 (t.currentLcn + wrap64 (t.nextVcn - s.nextVcn)) ≤ vcb.totalClusters := by
  rw [checkRun] at h
  split at h
  · cases h
  · exact ⟨(Sum.inl.inj h).symm, Int.not_lt.mp ‹_›⟩

theorem Counted.ch_lt (hc : Counted B next s.ch) : s.ch < (decodeNext B s).ch ∧ (decodeNext B s).ch < next := by
  have hend := hc.2.1
  rw [pairEnd, if_pos hc.2.2.2.1] at hend
  rw [decodeNext]
  exact ⟨by dsimp only; omega, hend⟩

theorem pairLength_lt {p : ℕ} (hv : vcnBytes B p ≤ 8) (hpos : B.le (p + vcnBytes B p) 1 < 128) :
    pairLength B p < 9223372036854775808 := by
  rw [pairLength]
  generalize vcnBytes B p = v at *
  cases v with
  | zero => rw [Buffer.le_zero]; decide
  | succ v =>
    rw [Buffer.le_succ, show p + 1 + v = p + (v + 1) by omega, ← Buffer.le_one]
    have hlow := B.le_lt (p + 1) v
    have hmono : 256 ^ v ≤ 256 ^ 7 := Nat.pow_le_pow_right (by decide) (by omega)
    have hmul : 256 ^ v * B.le (p + (v + 1)) 1 ≤ 256 ^ 7 * 127 := Nat.mul_le_mul hmono (by omega)
    omega

end Pairs

/-- Where the decoding of an attribute begins. -/
def firstPair (a : ℕ) : Pair := ⟨a + mappingPairsOffset B a, lowestVcn B a, 0⟩

/-- A pair such that the counts of those before it are in order and their runs are on the volume. -/
def PairReached (vcb : Vcb) (B : Buffer) (a : ℕ) (s : Pair) : Prop :=
  Relation.ReflTransGen (fun s t => Counted B (a + recordLength B a) s.ch ∧
    checkRun vcb s (decodeNext B s) = .inl t) (firstPair B a) s

/-- A pair of an attribute, by decoding. -/
def PairAt (a : ℕ) (s : Pair) : Prop :=
  Relation.ReflTransGen (fun s t => B.le s.ch 1 ≠ 0 ∧ t = decodeNext B s) (firstPair B a) s

/-- **Valid mapping pairs**: decoding them ends with `HighestVcn`, and stays inside the attribute; each
run has clusters, and they are on the volume. -/
structure PairsSound (vcb : Vcb) (B : Buffer) (a : ℕ) : Prop where
  ends : ∃ s, PairAt B a s ∧ B.le s.ch 1 = 0
  inside : ∀ s, PairAt B a s → s.ch < a + recordLength B a
  highest : ∀ s, PairAt B a s → B.le s.ch 1 = 0 → s.nextVcn = wrap64 (highestVcn B a + 1)
  counts : ∀ s, PairAt B a s → B.le s.ch 1 ≠ 0 → 1 ≤ vcnBytes B s.ch ∧ vcnBytes B s.ch ≤ 8 ∧ lcnBytes B s.ch ≤ 8
  run : ∀ s, PairAt B a s → B.le s.ch 1 ≠ 0 → 0 < pairLength B s.ch
  clusters : ∀ s, PairAt B a s → B.le s.ch 1 ≠ 0 → lcnBytes B s.ch ≠ 0 →
    0 ≤ (decodeNext B s).currentLcn ∧ (decodeNext B s).currentLcn + pairLength B s.ch ≤ vcb.totalClusters

/-- What the check does not look at in a pair that it accepts: a run without clusters, a negative
`Lcn`, and a sum that overflows. -/
def PairPlain (s : Pair) : Prop :=
  B.le s.ch 1 ≠ 0 → pairLength B s.ch ≠ 0 ∧ (lcnBytes B s.ch ≠ 0 →
    0 ≤ (decodeNext B s).currentLcn ∧ (decodeNext B s).currentLcn + pairLength B s.ch < 9223372036854775808)

section Agree

attribute [local irreducible] Buffer.le wrap64 add32 sub32

variable {B : Buffer} {vcb : Vcb} {a : ℕ}

theorem HeaderOk.bounds (h : HeaderOk B a) : a + recordLength B a < B.size := by
  simp only [HeaderOk, headerGuards, any_cons, any_nil, Bool.or_eq_false_iff, decide_eq_false_iff_not] at h
  omega

theorem NonresidentOk.bounds (h : NonresidentOk B a) :
    a + recordLength B a < B.size ∧ mappingPairsOffset B a < recordLength B a := by
  have hnon := h.2.2
  simp only [nonresidentGuards, any_cons, any_nil, Bool.or_eq_false_iff, decide_eq_false_iff_not] at hnon
  exact ⟨h.1.bounds, by omega⟩

/-- The mapping pairs agree: the loop and what follows it. -/
theorem mappingPairsAgree_eq (hin : a + 64 ≤ B.size) :
    mappingPairsAgree vcb B a =
      (loop .endless (pairBody vcb B (a + recordLength B a)) (B.size + 1) (firstPair B a)).map fun r =>
        match r with
        | none => false
        | some nextVcn => decide (nextVcn = wrap64 (highestVcn B a + 1)) := by
  have hlength : field B (a + 4) 4 = .ok (recordLength B a) := field_ok (by omega)
  have hlowest : field B (a + 16) 8 = .ok (B.le (a + 16) 8) := field_ok (by omega)
  have hoffset : field B (a + 32) 2 = .ok (mappingPairsOffset B a) := field_ok (by omega)
  have hhighest : field B (a + 24) 8 = .ok (B.le (a + 24) 8) := field_ok (by omega)
  simp only [mappingPairsAgree, hlength, hlowest, hoffset, hhighest, bind, Except.bind, firstPair, lowestVcn]
  cases loop Fault.endless (pairBody vcb B (a + recordLength B a)) (B.size + 1)
      ⟨a + mappingPairsOffset B a, wrap64 (B.le (a + 16) 8), 0⟩ with
  | error e => rfl
  | ok r => cases r <;> rfl

section Bounds

variable (hok : NonresidentOk B a) (ha : 48 ≤ a) (hsize : B.size ≤ 4096)

include hok ha hsize

theorem pairs_bounded : Bounded (pairBody vcb B (a + recordLength B a)) (fun s => 48 ≤ s.ch ∧ s.ch < a + recordLength B a)
    (fun s => a + recordLength B a - s.ch) (B.size + 1) (firstPair B a) := by
  have hbounds := hok.bounds
  refine ⟨fun s t hs hgo => ?_, ?_, by omega⟩
  · obtain ⟨hc, hrun⟩ := (pairBody_goes_iff hs hbounds.1 hsize).mp hgo
    obtain ⟨rfl, -⟩ := checkRun_inl hrun
    have hch := hc.ch_lt
    exact ⟨⟨by omega, hch.2⟩, by omega⟩
  · simp only [firstPair]
    omega

theorem reaches_pair_iff {s : Pair} : Reaches (pairBody vcb B (a + recordLength B a)) (firstPair B a) s ↔ PairReached vcb B a s :=
  (pairs_bounded hok ha hsize).reaches_iff fun _ _ hs => pairBody_goes_iff hs hok.bounds.1 hsize

theorem PairReached.bounds {s : Pair} (hs : PairReached vcb B a s) : 48 ≤ s.ch ∧ s.ch < a + recordLength B a :=
  ((pairs_bounded hok ha hsize).keeps ((reaches_pair_iff hok ha hsize).mpr hs)).start

omit hok ha hsize in
theorem PairReached.pairAt {s : Pair} (hs : PairReached vcb B a s) : PairAt B a s :=
  Relation.ReflTransGen.mono (fun _ _ hst => ⟨hst.1.1, (checkRun_inl hst.2).1⟩) _ _ hs

theorem mappingPairsAgree_error_iff (hin : a + 64 ≤ B.size) :
    (∃ e, mappingPairsAgree vcb B a = .error e) ↔ ∃ s, PairReached vcb B a s ∧ ¬PairOk B (a + recordLength B a) s.ch := by
  rw [mappingPairsAgree_eq hin, exists_map_eq_error_iff, (pairs_bounded hok ha hsize).error_iff]
  refine exists_congr fun s => ?_
  rw [reaches_pair_iff hok ha hsize]
  exact and_congr_right fun hs => pairBody_error_iff vcb (PairReached.bounds hok ha hsize hs) hok.bounds.1 hsize

/-- In accepted mapping pairs, each pair is the end with `HighestVcn`, or has its counts in order and a run on the volume. -/
theorem PairReached.cases_of_agree (hin : a + 64 ≤ B.size) (hagree : mappingPairsAgree vcb B a = .ok true) {s : Pair}
    (hs : PairReached vcb B a s) : (B.le s.ch 1 = 0 → s.nextVcn = wrap64 (highestVcn B a + 1)) ∧
      (B.le s.ch 1 ≠ 0 → Counted B (a + recordLength B a) s.ch ∧ checkRun vcb s (decodeNext B s) = .inl (decodeNext B s)) := by
  have hbounds := PairReached.bounds hok ha hsize hs
  have hloop : loop .endless (pairBody vcb B (a + recordLength B a)) (B.size + 1) (firstPair B a) =
      .ok (some (wrap64 (highestVcn B a + 1))) := by
    rw [mappingPairsAgree_eq hin] at hagree
    cases hr : loop Fault.endless (pairBody vcb B (a + recordLength B a)) (B.size + 1) (firstPair B a) with
    | error e => simp [hr, Except.map] at hagree
    | ok r => cases r <;> simp_all [Except.map]
  obtain ⟨t, hgo⟩ | hleave := (pairs_bounded hok ha hsize).of_ok hloop ((reaches_pair_iff hok ha hsize).mpr hs)
  · obtain ⟨hc, hrun⟩ := (pairBody_goes_iff hbounds hok.bounds.1 hsize).mp hgo
    obtain rfl := (checkRun_inl hrun).1
    exact ⟨fun hzero => absurd hzero hc.1, fun _ => ⟨hc, hrun⟩⟩
  · obtain ⟨hzero, hv⟩ := (pairBody_leaves_iff hbounds hok.bounds.1 hsize).mp hleave
    exact ⟨fun _ => hv, fun hne => absurd hzero hne⟩

omit hok ha hsize in
/-- A plain pair of an accepted list has its clusters on the volume. -/
theorem clusters_of_plain {s : Pair} (hc : Counted B (a + recordLength B a) s.ch)
    (hrun : checkRun vcb s (decodeNext B s) = .inl (decodeNext B s)) (hplain : PairPlain B s) (hl : lcnBytes B s.ch ≠ 0) :
    0 ≤ (decodeNext B s).currentLcn ∧ (decodeNext B s).currentLcn + pairLength B s.ch ≤ vcb.totalClusters := by
  obtain ⟨hlcn, hsum⟩ := (hplain hc.1).2 hl
  have hlen := pairLength_lt hc.2.2.2.2 hc.2.2.1
  have hle := (checkRun_inl hrun).2
  have hnext : (decodeNext B s).nextVcn = wrap64 (s.nextVcn + pairLength B s.ch) := rfl
  rw [hnext, wrap64_sub (by omega) (by omega), wrap64_of_lt (by omega) hsum] at hle
  exact ⟨hlcn, hle⟩

/-- **Accepted mapping pairs** are valid exactly if they are plain. -/
theorem pairsSound_iff_plain (hin : a + 64 ≤ B.size) (hagree : mappingPairsAgree vcb B a = .ok true) :
    PairsSound vcb B a ↔ ∀ s, PairReached vcb B a s → PairPlain B s := by
  have hpair := fun s => PairReached.cases_of_agree (s := s) hok ha hsize hin hagree
  -- decoding reaches no other pairs than the check
  have hreached : ∀ s, PairAt B a s → PairReached vcb B a s := by
    intro s hs
    induction hs with
    | refl => exact .refl
    | @tail s t _ hst ih =>
      obtain ⟨hne, rfl⟩ := hst
      exact ih.tail ((hpair s ih).2 hne)
  constructor
  · intro hsound s hs hne
    have hat := hs.pairAt
    have htotal := vcb.totalClusters_lt
    refine ⟨Nat.ne_of_gt (hsound.run s hat hne), fun hl => ?_⟩
    obtain ⟨hlcn, hsum⟩ := hsound.clusters s hat hne hl
    exact ⟨hlcn, by omega⟩
  · intro hplain
    refine ⟨?_, fun s hs => ?_, fun s hs => ?_, fun s hs hne => ?_, fun s hs hne => ?_, fun s hs hne => ?_⟩
    · obtain ⟨s, hs, ⟨e, -, hloop⟩ | ⟨b, hb, -⟩⟩ :=
        (show Bounded (pairBody vcb B _) _ _ _ _ from pairs_bounded hok ha hsize).ends (o := Fault.endless)
      · rw [mappingPairsAgree_eq hin, hloop] at hagree
        cases hagree
      · have hs := (reaches_pair_iff hok ha hsize).mp hs
        refine ⟨s, hs.pairAt, ?_⟩
        by_contra hne
        have hgo := (pairBody_goes_iff (hs.bounds hok ha hsize) hok.bounds.1 hsize).mpr ((hpair s hs).2 hne)
        cases hb.symm.trans hgo
    · exact (PairReached.bounds hok ha hsize (hreached s hs)).2
    · exact (hpair s (hreached s hs)).1
    · obtain ⟨hc, -⟩ := (hpair s (hreached s hs)).2 hne
      have hlen := (hplain s (hreached s hs) hne).1
      have hsmall := hc.2.2.2.1
      refine ⟨Nat.pos_of_ne_zero fun hzero => hlen ?_, hc.2.2.2.2, ?_⟩
      · rw [pairLength, hzero, Buffer.le_zero]
      · unfold lcnBytes
        omega
    · exact Nat.pos_of_ne_zero (hplain s (hreached s hs) hne).1
    · obtain ⟨hc, hrun⟩ := (hpair s (hreached s hs)).2 hne
      exact clusters_of_plain hc hrun (hplain s (hreached s hs))

end Bounds

end Agree

/-! ### Index entries -/

section Index

attribute [local irreducible] Buffer.le wrap64 add32 sub32 u32

variable {B : Buffer} {vcb : Vcb} {m last flags e : ℕ}

def entryLength (B : Buffer) (e : ℕ) : ℕ := B.le (e + 8) 2

def entryFlags (B : Buffer) (e : ℕ) : ℕ := B.le (e + 12) 2

theorem entryBody_error (h : ¬e + 10 ≤ B.size) : entryBody B m last flags e = .error .outside := by
  rw [entryBody, field_error (by omega)]
  rfl

/-- An entry that is accepted, be it the last or not. -/
def EntryOk (B : Buffer) (m last flags e : ℕ) : Prop :=
  m ≤ entryLength B e ∧ e + entryLength B e ≤ last ∧ entryFlags B e % 2 = flags % 2

instance : Decidable (EntryOk B m last flags e) := inferInstanceAs (Decidable (_ ∧ _ ∧ _))

theorem entryBody_eq (hm : 16 ≤ m) (hlast : last < B.size) (h : e + 10 ≤ B.size) :
    entryBody B m last flags e =
      if EntryOk B m last flags e then
        if entryFlags B e / 2 % 2 = 1 then .ok (.inr true) else .ok (.inl (e + entryLength B e))
      else .ok (.inr false) := by
  have hlength : field B (e + 8) 2 = .ok (entryLength B e) := field_ok (by omega)
  rw [entryBody, hlength]
  by_cases hshort : entryLength B e < m
  · rw [if_neg (fun hok : EntryOk B m last flags e => Nat.not_le_of_gt hshort hok.1)]
    simp only [bind, Except.bind, anyOf_cons_ok, hshort, decide_true, if_true]
    rfl
  · by_cases hfar : e + entryLength B e > last
    · rw [if_neg (fun hok : EntryOk B m last flags e => Nat.not_le_of_gt hfar hok.2.1)]
      simp only [bind, Except.bind, anyOf_cons_ok, hshort, hfar, decide_true, decide_false, Bool.false_eq_true, if_true, if_false]
      rfl
    · have hflags : field B (e + 12) 2 = .ok (entryFlags B e) := field_ok (by omega)
      simp only [hflags, bind, Except.bind, pure, Except.pure, anyOf_cons_ok, anyOf_nil, hshort, hfar, decide_false,
        Bool.false_eq_true, if_false, decide_eq_true_eq]
      by_cases hnode : entryFlags B e % 2 = flags % 2
      · rw [if_pos (show EntryOk B m last flags e from ⟨by omega, by omega, hnode⟩), if_neg (not_not.mpr hnode)]
        rfl
      · rw [if_neg (fun hok : EntryOk B m last flags e => hnode hok.2.2), if_pos hnode]
        rfl

/-- `MinIndexEntry`. -/
def minIndexEntry (B : Buffer) (h : ℕ) : ℕ := if B.le (h + 12) 1 % 2 = 1 then 16 + 8 else 16

/-- The header of an index is accepted. -/
def IndexHeaderOk (B : Buffer) (h available : ℕ) : Prop :=
  B.le h 4 ≤ sub32 available (minIndexEntry B h) ∧ B.le (h + 4) 4 ≤ available ∧ B.le (h + 8) 4 ≤ available ∧
    add32 (B.le h 4) (minIndexEntry B h) ≤ B.le (h + 4) 4 ∧ B.le (h + 4) 4 ≤ B.le (h + 8) 4

/-- An index root whose entries are checked. -/
def IndexRootOk (vcb : Vcb) (B : Buffer) (root size : ℕ) : Prop :=
  32 ≤ size ∧ B.le root 4 = fileNameCode ∧ B.le (root + 4) 4 = 1 ∧
    B.le (root + 8) 4 = u32 (B.le (root + 12) 1 <<< vcb.clusterShift) ∧ B.le (root + 12) 1 ∈ [1, 2, 4, 8] ∧
    IndexHeaderOk B (root + 16) (size - 32 + 16)

instance (B : Buffer) (h available : ℕ) : Decidable (IndexHeaderOk B h available) :=
  inferInstanceAs (Decidable (_ ∧ _ ∧ _ ∧ _ ∧ _))

instance (vcb : Vcb) (B : Buffer) (root size : ℕ) : Decidable (IndexRootOk vcb B root size) :=
  inferInstanceAs (Decidable (_ ∧ _ ∧ _ ∧ _ ∧ _ ∧ _))

def firstEntry (B : Buffer) (root : ℕ) : ℕ := add32 (root + 16) (B.le (root + 16) 4)

def endOfIndex (B : Buffer) (root : ℕ) : ℕ := root + 16 + B.le (root + 20) 4

/-- The loop over the entries of an index root. -/
def indexBody (B : Buffer) (root : ℕ) : ℕ → Except Fault (ℕ ⊕ Bool) :=
  entryBody B (minIndexEntry B (root + 16)) (endOfIndex B root) (B.le (root + 28) 1)

/-- An entry such that those before it are accepted. -/
def EntryReached (B : Buffer) (root e : ℕ) : Prop :=
  Relation.ReflTransGen (fun e e' => EntryOk B (minIndexEntry B (root + 16)) (endOfIndex B root) (B.le (root + 28) 1) e ∧
    entryFlags B e / 2 % 2 ≠ 1 ∧ e' = e + entryLength B e) (firstEntry B root) e

/-- An entry of an index root, by following the lengths. -/
def EntryAt (B : Buffer) (root e : ℕ) : Prop :=
  Relation.ReflTransGen (fun e e' => entryFlags B e / 2 % 2 ≠ 1 ∧ e' = e + entryLength B e) (firstEntry B root) e

/-- The entries are inside the value. -/
def EntriesSound (B : Buffer) (root size : ℕ) : Prop := ∀ e, EntryAt B root e → root ≤ e ∧ e + entryLength B e ≤ root + size

theorem ntfsCheckIndexHeader_eq {h available : ℕ} (hin : h + 16 ≤ B.size) :
    ntfsCheckIndexHeader B h available =
      if IndexHeaderOk B h available then
        loop .endless (entryBody B (minIndexEntry B h) (h + B.le (h + 4) 4) (B.le (h + 12) 1)) (B.size + 1) (add32 h (B.le h 4))
      else .ok false := by
  rw [ntfsCheckIndexHeader, field_ok (show h + 12 + 1 ≤ B.size by omega), field_ok (show h + 4 ≤ B.size by omega),
    field_ok (show h + 4 + 4 ≤ B.size by omega), field_ok (show h + 8 + 4 ≤ B.size by omega)]
  by_cases hok : IndexHeaderOk B h available
  · rw [if_pos hok]
    simp only [IndexHeaderOk, ← not_lt, ← not_or] at hok
    exact if_neg hok
  · rw [if_neg hok]
    simp only [IndexHeaderOk, ← not_lt, ← not_or, not_not] at hok
    exact if_pos hok

theorem ntfsCheckIndexRoot_eq {root size : ℕ} (hin : root + size ≤ B.size) :
    ntfsCheckIndexRoot vcb B root size =
      if IndexRootOk vcb B root size then loop .endless (indexBody B root) (B.size + 1) (firstEntry B root) else .ok false := by
  rw [ntfsCheckIndexRoot]
  by_cases hsize : 32 ≤ size
  · rw [field_ok (show root + 4 ≤ B.size by omega), field_ok (show root + 4 + 4 ≤ B.size by omega),
      field_ok (show root + 8 + 4 ≤ B.size by omega), field_ok (show root + 12 + 1 ≤ B.size by omega),
      ntfsCheckIndexHeader_eq (by omega)]
    have hbad := anyOf_decide_cons (p := size < 32) (anyOf_decide_cons (p := B.le root 4 ≠ fileNameCode)
      (anyOf_decide_cons (p := B.le (root + 4) 4 ≠ 1)
        (anyOf_decide_cons (p := B.le (root + 8) 4 ≠ u32 (B.le (root + 12) 1 <<< vcb.clusterShift))
          (anyOf_decide_one (ε := Fault) (p := B.le (root + 12) 1 ∉ [1, 2, 4, 8])))))
    simp only [bind, Except.bind, pure, Except.pure, hbad, decide_eq_true_eq]
    by_cases hok : IndexRootOk vcb B root size
    · rw [if_pos hok]
      obtain ⟨-, h1, h2, h3, h4, hheader⟩ := hok
      rw [if_neg (by simp [h1, h2, ← h3, h4, hsize]), if_pos hheader]
      rfl
    · rw [if_neg hok]
      split_ifs with hany hheader
      · rfl
      · simp only [not_or, not_not] at hany
        exact absurd ⟨hsize, hany.2.1, hany.2.2.1, hany.2.2.2.1, hany.2.2.2.2, hheader⟩ hok
      · rfl
  · rw [if_neg fun hok : IndexRootOk vcb B root size => hsize hok.1]
    simp only [anyOf_cons_ok, bind, Except.bind, show size < 32 by omega, decide_true, if_true]
    rfl

/-- The first entry is where the header says, or it is before the header. -/
theorem firstEntry_cases {root available : ℕ} (hok : IndexHeaderOk B (root + 16) available) (hroot : 48 ≤ root)
    (hroot' : root < 4096) (havailable : 16 ≤ available) (havailable' : available < 4096) :
    firstEntry B root = root + 16 + B.le (root + 16) 4 ∧ firstEntry B root ≤ endOfIndex B root ∨
      4294967272 ≤ B.le (root + 16) 4 ∧ firstEntry B root + 4294967280 = root + B.le (root + 16) 4 ∧
        firstEntry B root ≤ endOfIndex B root := by
  obtain ⟨h1, h2, -, h4, -⟩ := hok
  have hlt := B.le_lt (root + 16) 4
  rw [firstEntry, endOfIndex]
  unfold minIndexEntry at h1 h4
  rw [show root + 16 + 4 = root + 20 by omega] at h2 h4
  generalize B.le (root + 16) 4 = first at *
  generalize B.le (root + 20) 4 = free at *
  unfold add32 sub32 at *
  split at h1 <;> simp only [*, if_true, if_false] at h4 <;> omega

theorem minIndexEntry_ge (B : Buffer) (h : ℕ) : 16 ≤ minIndexEntry B h := by
  unfold minIndexEntry
  split <;> omega

section Entries

variable {root size : ℕ} (hok : IndexRootOk vcb B root size) (hroot : 48 ≤ root) (hin : root + size < B.size)
    (hsize : B.size ≤ 4096)

include hok hroot hin hsize

omit hroot hin hsize in
theorem endOfIndex_le : endOfIndex B root ≤ root + size := by
  have h32 := hok.1
  have hfree := hok.2.2.2.2.2.2.1
  rw [show root + 16 + 4 = root + 20 by omega] at hfree
  rw [endOfIndex]
  omega

theorem firstEntry_le : firstEntry B root ≤ endOfIndex B root := by
  have h32 := hok.1
  obtain h | h := firstEntry_cases hok.2.2.2.2.2 hroot (by omega) (by omega) (by omega)
  · exact h.2
  · exact h.2.2

omit hroot hsize in
theorem indexBody_eq (he : e + 10 ≤ B.size) :
    indexBody B root e =
      if EntryOk B (minIndexEntry B (root + 16)) (endOfIndex B root) (B.le (root + 28) 1) e then
        if entryFlags B e / 2 % 2 = 1 then .ok (.inr true) else .ok (.inl (e + entryLength B e))
      else .ok (.inr false) := by
  have hle := endOfIndex_le hok
  exact entryBody_eq (minIndexEntry_ge B _) (by omega) he

omit hroot hsize in
theorem indexBody_goes_iff {e' : ℕ} : Goes (indexBody B root) e e' ↔
    EntryOk B (minIndexEntry B (root + 16)) (endOfIndex B root) (B.le (root + 28) 1) e ∧ entryFlags B e / 2 % 2 ≠ 1 ∧
      e' = e + entryLength B e := by
  rw [Goes]
  by_cases he : e + 10 ≤ B.size
  · rw [indexBody_eq hok hin he]
    constructor
    · intro hgo
      split_ifs at hgo with hentry hlast
      · cases hgo
      · exact ⟨hentry, hlast, (Sum.inl.inj (Except.ok.inj hgo)).symm⟩
      · cases hgo
    · rintro ⟨hentry, hlast, rfl⟩
      rw [if_pos hentry, if_neg hlast]
  · rw [indexBody, entryBody_error he]
    refine iff_of_false (fun hgo => by cases hgo) ?_
    rintro ⟨hentry, -⟩
    have hm := minIndexEntry_ge B (root + 16)
    have hend := endOfIndex_le hok
    have hlen := hentry.1
    have hle := hentry.2.1
    omega

theorem entries_bounded : Bounded (indexBody B root) (fun e => e ≤ endOfIndex B root) (fun e => endOfIndex B root - e) (B.size + 1)
    (firstEntry B root) := by
  have hle := endOfIndex_le hok
  refine ⟨fun e e' _ hgo => ?_, firstEntry_le hok hroot hin hsize, by omega⟩
  obtain ⟨hentry, -, rfl⟩ := (indexBody_goes_iff hok hin).mp hgo
  have hm := minIndexEntry_ge B (root + 16)
  have hlen := hentry.1
  have hend := hentry.2.1
  exact ⟨hend, by omega⟩

theorem reaches_entry_iff : Reaches (indexBody B root) (firstEntry B root) e ↔ EntryReached B root e :=
  (entries_bounded hok hroot hin hsize).reaches_iff fun _ _ _ => indexBody_goes_iff hok hin

theorem ntfsCheckIndexRoot_error_iff :
    (∃ err, ntfsCheckIndexRoot vcb B root size = .error err) ↔ ∃ e, EntryReached B root e ∧ ¬e + 10 ≤ B.size := by
  rw [ntfsCheckIndexRoot_eq (by omega), if_pos hok, (entries_bounded hok hroot hin hsize).error_iff]
  refine exists_congr fun e => and_congr (reaches_entry_iff hok hroot hin hsize) ?_
  by_cases he : e + 10 ≤ B.size
  · rw [indexBody_eq hok hin he]
    refine iff_of_false ?_ (not_not.mpr he)
    split_ifs <;> simp
  · exact iff_of_true ⟨_, entryBody_error he⟩ he

/-- **Accepted entries** are inside the value exactly if the first is. -/
theorem entriesSound_iff (haccept : ntfsCheckIndexRoot vcb B root size = .ok true) :
    EntriesSound B root size ↔ ¬(4294967272 ≤ B.le (root + 16) 4 ∧ B.le (root + 16) 4 < 4294967280) := by
  have hle := endOfIndex_le hok
  rw [ntfsCheckIndexRoot_eq (by omega), if_pos hok] at haccept
  -- each entry that is reached is accepted
  have hentry : ∀ e, EntryReached B root e → EntryOk B (minIndexEntry B (root + 16)) (endOfIndex B root)
    (B.le (root + 28) 1) e := by
    intro e he
    have hof := (entries_bounded hok hroot hin hsize).of_ok haccept ((reaches_entry_iff hok hroot hin hsize).mpr he)
    by_contra hno
    by_cases hread : e + 10 ≤ B.size
    · simp [Goes, indexBody_eq hok hin hread, hno] at hof
    · simp [Goes, indexBody, entryBody_error hread] at hof
  have hreached : ∀ e, EntryAt B root e → EntryReached B root e ∧ firstEntry B root ≤ e := by
    intro e he
    induction he with
    | refl => exact ⟨.refl, Nat.le_refl _⟩
    | @tail e e' _ hstep ih =>
      obtain ⟨hflags, rfl⟩ := hstep
      exact ⟨ih.1.tail ⟨hentry e ih.1, hflags, rfl⟩, by omega⟩
  have h32 := hok.1
  have hcases := firstEntry_cases hok.2.2.2.2.2 hroot (by omega) (by omega) (by omega)
  constructor
  · intro hsound
    have hroot' := (hsound _ .refl).1
    omega
  · intro hplain e he
    obtain ⟨hr, hge⟩ := hreached e he
    have hend := (hentry e hr).2.1
    exact ⟨by omega, by omega⟩

end Entries

end Index

/-! ### Attributes -/

/-- The check of an attribute reads only the segment and copies at most eight bytes. -/
@[mk_iff]
structure AttributeOk (vcb : Vcb) (B : Buffer) (a : ℕ) : Prop where
  fields : a + fieldsRead B a ≤ B.size
  pairs : typeCode B a ≠ endCode → NonresidentOk B a → ∀ s, PairReached vcb B a s → PairOk B (a + recordLength B a) s.ch
  name : typeCode B a = fileNameCode → ResidentOk B a → a + valueOffset B a + 65 ≤ B.size
  entries : typeCode B a = indexRootCode → ResidentOk B a → IndexRootOk vcb B (a + valueOffset B a) (valueLength B a) →
    ∀ e, EntryReached B (a + valueOffset B a) e → e + 10 ≤ B.size

/-- What the check of an attribute lets through. -/
structure AttributePlain (vcb : Vcb) (B : Buffer) (a : ℕ) : Prop where
  pairs : formCode B a = nonresidentForm → ∀ s, PairReached vcb B a s → PairPlain B s
  entries : formCode B a = residentForm → typeCode B a = indexRootCode →
    ¬(4294967272 ≤ B.le (a + valueOffset B a + 16) 4 ∧ B.le (a + valueOffset B a + 16) 4 < 4294967280)

/-- A well-formed attribute. -/
structure AttributeSound (vcb : Vcb) (B : Buffer) (a : ℕ) : Prop where
  inside : a + recordLength B a ≤ B.size
  pairs : formCode B a = nonresidentForm → PairsSound vcb B a
  entries : formCode B a = residentForm → typeCode B a = indexRootCode → EntriesSound B (a + valueOffset B a) (valueLength B a)

section Attributes

attribute [local irreducible] Buffer.le wrap64 add32 sub32 u32

variable {B : Buffer} {vcb : Vcb} {a : ℕ}

theorem ResidentOk.bounds (h : ResidentOk B a) : a + recordLength B a < B.size ∧ valueLength B a < recordLength B a ∧
    (B.size ≤ 4096 → valueOffset B a + valueLength B a ≤ recordLength B a) := by
  have hres := h.2.2
  have hheader := h.1.bounds
  simp only [residentGuards, any_cons, any_nil, Bool.or_eq_false_iff, decide_eq_false_iff_not] at hres
  refine ⟨hheader, by omega, fun hsize => ?_⟩
  have hoff : valueOffset B a < 256 ^ 2 := B.le_lt _ 2
  have hle := hres.2.1
  rw [add32_of_lt (by omega)] at hle
  omega

theorem checkValue_eq (hin : a + 22 ≤ B.size) :
    checkValue vcb B a =
      if typeCode B a = fileNameCode then
        if a + valueOffset B a + 65 ≤ B.size then
          .ok !decide (B.le (a + valueOffset B a + 64) 1 * 2 > add32 (sub32 (valueLength B a) 72) 2)
        else .error .outside
      else if typeCode B a = indexRootCode then ntfsCheckIndexRoot vcb B (a + valueOffset B a) (valueLength B a)
      else .ok (decide (typeCode B a ∈ otherCodes)) := by
  have hoffset : field B (a + 20) 2 = .ok (valueOffset B a) := field_ok (by omega)
  have hlength : field B (a + 16) 4 = .ok (valueLength B a) := field_ok (by omega)
  have htype : field B a 4 = .ok (typeCode B a) := field_ok (by omega)
  simp only [checkValue, hoffset, hlength, htype, bind, Except.bind]
  split
  · by_cases hname : a + valueOffset B a + 65 ≤ B.size
    · rw [if_pos hname, field_ok (by omega)]
      rfl
    · rw [if_neg hname, field_error (by omega)]
  · rfl

/-- How far the header of an attribute is read, if it is not the end. -/
theorem fieldsRead_eq (hne : typeCode B a ≠ endCode) : fieldsRead B a = needed (headerGuards B a ++ formGuards B a) 4 := if_neg hne

theorem four_le_fieldsRead (B : Buffer) (a : ℕ) : 4 ≤ fieldsRead B a := by
  rw [fieldsRead]
  split
  · exact Nat.le_refl 4
  · exact le_needed _ _

theorem AttributeOk.inside (hok : AttributeOk vcb B a) : a + 4 ≤ B.size :=
  (Nat.add_le_add_left (four_le_fieldsRead B a) a).trans hok.fields

theorem HeaderOk.any_ne (h : HeaderOk B a) : ¬(headerGuards B a).any Guard.cond = true := Bool.not_eq_true _ ▸ h

theorem NonresidentOk.sixtyFour_le (h : NonresidentOk B a) : 64 ≤ needed (headerGuards B a ++ formGuards B a) 4 := by
  have hres : ¬formCode B a = residentForm := by rw [h.2.1]; decide
  rw [needed_append, if_neg h.1.any_ne, formGuards, if_neg hres, if_pos h.2.1]
  exact Guard.need_le h.2.2 (.tail _ (.tail _ (.tail _ (.head _)))) _

theorem ResidentOk.twentyTwo_le (h : ResidentOk B a) : 22 ≤ needed (headerGuards B a ++ formGuards B a) 4 := by
  rw [needed_append, if_neg h.1.any_ne, formGuards, if_pos h.2.1]
  exact Guard.need_le h.2.2 (.tail _ (.head _)) _

theorem ResidentOk.not_nonresident (h : ResidentOk B a) : ¬NonresidentOk B a :=
  fun h' => absurd (h.2.1.symm.trans h'.2.1) (by decide)

section Bounds

variable (ha : 48 ≤ a) (hmin : 1024 ≤ B.size) (hmax : B.size ≤ 4096)

include ha hmin hmax

omit hmin in
theorem checkValue_error_iff (hres : ResidentOk B a) (hin : a + 22 ≤ B.size) :
    (∃ e, checkValue vcb B a = .error e) ↔ ¬((typeCode B a = fileNameCode → a + valueOffset B a + 65 ≤ B.size) ∧
      (typeCode B a = indexRootCode → IndexRootOk vcb B (a + valueOffset B a) (valueLength B a) →
        ∀ e, EntryReached B (a + valueOffset B a) e → e + 10 ≤ B.size)) := by
  have hbounds := hres.bounds
  have hvalue := hbounds.2.2 hmax
  rw [checkValue_eq hin]
  by_cases hname : typeCode B a = fileNameCode
  · rw [if_pos hname]
    by_cases hread : a + valueOffset B a + 65 ≤ B.size <;> simp [hread, hname, show fileNameCode ≠ indexRootCode by decide]
  · rw [if_neg hname]
    by_cases hindex : typeCode B a = indexRootCode
    · rw [if_pos hindex]
      by_cases hroot : IndexRootOk vcb B (a + valueOffset B a) (valueLength B a)
      · rw [ntfsCheckIndexRoot_error_iff hroot (by omega) (by omega) hmax]
        simp [hindex, hroot, show indexRootCode ≠ fileNameCode by decide]
      · rw [ntfsCheckIndexRoot_eq (by omega), if_neg hroot]
        simp [hname, hroot]
    · simp [hname, hindex]

/-- **An attribute cannot be checked** exactly if it is not `AttributeOk`. -/
theorem ntfsCheckAttributeRecord_error_iff (hin : a + 4 ≤ B.size) (hne : typeCode B a ≠ endCode) :
    (∃ e, ntfsCheckAttributeRecord vcb B a = .error e) ↔ ¬AttributeOk vcb B a := by
  have hread := fieldsRead_eq hne
  rw [ntfsCheckAttributeRecord_cases (by omega) hin, ← hread, attributeOk_iff]
  by_cases hfields : a + fieldsRead B a ≤ B.size
  · rw [if_pos hfields]
    by_cases hres : ResidentOk B a
    · have h22 := hres.twentyTwo_le
      rw [if_pos hres, checkValue_error_iff ha hmax hres (by omega)]
      simp [hfields, hres, hres.not_nonresident]
    · rw [if_neg hres]
      by_cases hnon : NonresidentOk B a
      · have h64 := hnon.sixtyFour_le
        rw [if_pos hnon, mappingPairsAgree_error_iff hnon ha hmax (by omega)]
        simp [hfields, hres, hnon, hne]
      · simp [hfields, hres, hnon]
  · simp [hfields]

omit ha hmin hmax in
theorem inside_of_accepted {r : Bool} (h : ntfsCheckAttributeRecord vcb B a = .ok r) : a + 4 ≤ B.size := by
  by_contra hin
  rw [ntfsCheckAttributeRecord, badHeader, field_error (show ¬a + 4 + 4 ≤ B.size by omega)] at h
  cases h

omit ha hmax in
/-- An attribute that is accepted: its header is, and its value or its mapping pairs. -/
theorem accepted_cases (hin : a + 4 ≤ B.size) (hne : typeCode B a ≠ endCode) (h : ntfsCheckAttributeRecord vcb B a = .ok true) :
    a + fieldsRead B a ≤ B.size ∧ (ResidentOk B a ∧ checkValue vcb B a = .ok true ∨
      NonresidentOk B a ∧ mappingPairsAgree vcb B a = .ok true) := by
  rw [ntfsCheckAttributeRecord_cases (by omega) hin, ← fieldsRead_eq hne] at h
  split_ifs at h with hfields hres hnon
  · exact ⟨hfields, .inl ⟨hres, h⟩⟩
  · exact ⟨hfields, .inr ⟨hnon, h⟩⟩
  · cases h

omit ha hmax in
theorem recordLength_of_accepted (hin : a + 4 ≤ B.size) (hne : typeCode B a ≠ endCode)
    (h : ntfsCheckAttributeRecord vcb B a = .ok true) : 0 < recordLength B a ∧ a + recordLength B a < B.size := by
  obtain ⟨-, ⟨hres, -⟩ | ⟨hnon, -⟩⟩ := accepted_cases hmin hin hne h
  · have hbounds := hres.bounds
    omega
  · have hbounds := hnon.bounds
    omega

/-- **An accepted attribute** is well-formed exactly if it is plain. -/
theorem attributeSound_iff (hin : a + 4 ≤ B.size) (hne : typeCode B a ≠ endCode)
    (h : ntfsCheckAttributeRecord vcb B a = .ok true) : AttributeSound vcb B a ↔ AttributePlain vcb B a := by
  have hlength := recordLength_of_accepted hmin hin hne h
  obtain ⟨hfields, ⟨hres, hvalue⟩ | ⟨hnon, hagree⟩⟩ := accepted_cases hmin hin hne h
  · have hform : formCode B a ≠ nonresidentForm := by rw [hres.2.1]; decide
    have h22 := hres.twentyTwo_le
    have hbounds := hres.bounds
    rw [← fieldsRead_eq hne] at h22
    rw [checkValue_eq (by omega)] at hvalue
    -- only the value of an index root is looked at
    have hentries : typeCode B a = indexRootCode → (EntriesSound B (a + valueOffset B a) (valueLength B a) ↔
        ¬(4294967272 ≤ B.le (a + valueOffset B a + 16) 4 ∧ B.le (a + valueOffset B a + 16) 4 < 4294967280)) := by
      intro hindex
      have hname : typeCode B a ≠ fileNameCode := by rw [hindex]; decide
      have hvalue' := hbounds.2.2 hmax
      rw [if_neg hname, if_pos hindex] at hvalue
      have hroot : IndexRootOk vcb B (a + valueOffset B a) (valueLength B a) := by
        by_contra hroot
        rw [ntfsCheckIndexRoot_eq (by omega), if_neg hroot] at hvalue
        cases hvalue
      exact entriesSound_iff hroot (by omega) (by omega) hmax hvalue
    constructor
    · intro hsound
      exact ⟨fun hnon => absurd hnon hform, fun hres hindex => (hentries hindex).mp (hsound.entries hres hindex)⟩
    · intro hplain
      exact ⟨by omega, fun hnon => absurd hnon hform, fun hres hindex => (hentries hindex).mpr (hplain.entries hres hindex)⟩
  · have hform : formCode B a ≠ residentForm := by rw [hnon.2.1]; decide
    have h64 := hnon.sixtyFour_le
    rw [← fieldsRead_eq hne] at h64
    have hpairs := pairsSound_iff_plain hnon ha hmax (by omega) hagree
    constructor
    · intro hsound
      exact ⟨fun hnon => hpairs.mp (hsound.pairs hnon), fun hres => absurd hres hform⟩
    · intro hplain
      exact ⟨by omega, fun hnon => hpairs.mpr (hplain.pairs hnon), fun hres => absurd hres hform⟩

end Bounds

end Attributes

/-! ### File records -/

def firstAttributeOffset : ℕ := B.le 20 2

/-- The header of a file record is accepted. -/
def FileRecordOk : Prop :=
  B.le 0 4 = 0x454C4946 ∧ B.le 4 2 ≤ 512 - (4096 / 512 + 1) * 2 ∧ sub32 (B.le 6 2 * 512) 512 = B.size ∧
    (48 ≤ firstAttributeOffset B ∧ firstAttributeOffset B ≤ B.size - 24) ∧ B.le 22 2 % 2 = 1 ∧ B.le 28 4 = B.size

instance (B : Buffer) : Decidable (FileRecordOk B) := inferInstanceAs (Decidable (_ ∧ _ ∧ _ ∧ (_ ∧ _) ∧ _ ∧ _))

/-- An attribute such that those before it are accepted. -/
def AttributeReached (vcb : Vcb) (B : Buffer) (a : ℕ) : Prop :=
  Relation.ReflTransGen (fun a a' => typeCode B a ≠ endCode ∧ ntfsCheckAttributeRecord vcb B a = .ok true ∧
    a' = a + recordLength B a)
    (firstAttributeOffset B) a

/-- An attribute of a file record, by following the lengths up to `$END`. -/
def AttributeAt (a : ℕ) : Prop :=
  Relation.ReflTransGen (fun a a' => typeCode B a ≠ endCode ∧ a' = a + recordLength B a) (firstAttributeOffset B) a

/-- **A well-formed file record**: `$END` is reached, inside the segment, and so are the attributes
before it, which are well-formed. -/
structure FileRecordSound (vcb : Vcb) (B : Buffer) : Prop where
  ends : ∃ a, AttributeAt B a ∧ typeCode B a = endCode
  inside : ∀ a, AttributeAt B a → a + 4 ≤ B.size
  attributes : ∀ a, AttributeAt B a → typeCode B a ≠ endCode → AttributeSound vcb B a

section FileRecord

attribute [local irreducible] Buffer.le wrap64 add32 sub32 u32

variable {B : Buffer} {vcb : Vcb} {a : ℕ} (hmin : 1024 ≤ B.size) (hmax : B.size ≤ 4096)

include hmin

theorem ntfsCheckFileRecord_eq :
    ntfsCheckFileRecord vcb B =
      if FileRecordOk B then loop .endless (attributeBody vcb B) (B.size + 1) (firstAttributeOffset B) else .ok false := by
  have hbad : badFileRecord B = .ok (decide ¬FileRecordOk B) := by
    rw [badFileRecord, field_test (by omega) fun v => decide (v ≠ 0x454C4946),
      field_test (by omega) fun v => decide (v > 512 - (4096 / 512 + 1) * 2),
      field_test (by omega) fun v => decide (sub32 (v * 512) 512 ≠ B.size),
      field_test (by omega) fun v => decide (v < 48 ∨ v > B.size - 24),
      field_test (by omega) fun v => decide (v % 2 ≠ 1), field_test (by omega) fun v => decide (v ≠ B.size)]
    refine (anyOf_decide_cons (anyOf_decide_cons (anyOf_decide_cons (anyOf_decide_cons (anyOf_decide_cons
      anyOf_decide_one))))).trans (congrArg Except.ok (decide_eq_decide.mpr ?_))
    rw [FileRecordOk, firstAttributeOffset]
    omega
  rw [ntfsCheckFileRecord, hbad, field_ok (by omega)]
  by_cases hok : FileRecordOk B
  · rw [if_pos hok, decide_eq_false (not_not.mpr hok)]
    rfl
  · rw [if_neg hok, decide_eq_true hok]
    rfl

omit hmin in
theorem attributeBody_end (hin : a + 4 ≤ B.size) (hend : typeCode B a = endCode) : attributeBody vcb B a = .ok (.inr true) := by
  have htype : field B a 4 = .ok (typeCode B a) := field_ok hin
  rw [attributeBody, htype, hend]
  rfl

theorem attributeBody_eq (hin : a + 4 ≤ B.size) (hne : typeCode B a ≠ endCode) :
    attributeBody vcb B a =
      (ntfsCheckAttributeRecord vcb B a).map fun valid => if valid then .inl (a + recordLength B a) else .inr false := by
  have htype : field B a 4 = .ok (typeCode B a) := field_ok hin
  rw [attributeBody, htype]
  refine (if_neg hne).trans ?_
  cases hcheck : ntfsCheckAttributeRecord vcb B a with
  | error e => rfl
  | ok valid =>
    cases valid with
    | false => rfl
    | true =>
      obtain ⟨hread, hcases⟩ := accepted_cases hmin hin hne hcheck
      have hfields : 8 ≤ fieldsRead B a := by
        rw [fieldsRead_eq hne]
        obtain ⟨hres, -⟩ | ⟨hnon, -⟩ := hcases
        · exact le_trans (by omega) hres.twentyTwo_le
        · exact le_trans (by omega) hnon.sixtyFour_le
      have hlength : field B (a + 4) 4 = .ok (recordLength B a) := field_ok (by omega)
      simp only [bind, Except.bind, if_true, hlength]
      rfl

theorem attributeBody_leaves_iff (hin : a + 4 ≤ B.size) : attributeBody vcb B a = .ok (.inr true) ↔ typeCode B a = endCode := by
  by_cases hend : typeCode B a = endCode
  · simp [attributeBody_end hin hend, hend]
  · rw [attributeBody_eq hmin hin hend]
    rcases ntfsCheckAttributeRecord vcb B a with e | _ | _ <;> simp [Except.map, hend]

/-- From an attribute the check goes on if it is accepted. -/
theorem attributeBody_goes_iff {a' : ℕ} : Goes (attributeBody vcb B) a a' ↔
    typeCode B a ≠ endCode ∧ ntfsCheckAttributeRecord vcb B a = .ok true ∧ a' = a + recordLength B a := by
  rw [Goes]
  by_cases hin : a + 4 ≤ B.size
  · by_cases hend : typeCode B a = endCode
    · simp [attributeBody_end hin hend, hend]
    · rw [attributeBody_eq hmin hin hend]
      rcases ntfsCheckAttributeRecord vcb B a with e | _ | _ <;> simp [Except.map, hend, eq_comm]
  · refine iff_of_false (fun h => ?_) fun h => hin (inside_of_accepted h.2.1)
    rw [attributeBody, field_error hin] at h
    cases h

include hmax

theorem attributeBody_error_iff (ha : 48 ≤ a) : (∃ e, attributeBody vcb B a = .error e) ↔ ¬AttributeOk vcb B a := by
  by_cases hin : a + 4 ≤ B.size
  · by_cases hend : typeCode B a = endCode
    · rw [attributeBody_end hin hend, attributeOk_iff, fieldsRead, if_pos hend]
      simp [hin, hend, show endCode ≠ fileNameCode by decide, show endCode ≠ indexRootCode by decide]
    · rw [attributeBody_eq hmin hin hend, exists_map_eq_error_iff, ntfsCheckAttributeRecord_error_iff ha hmin hmax hin hend]
  · refine iff_of_true ⟨.outside, ?_⟩ fun hok => hin hok.inside
    rw [attributeBody, field_error hin]
    rfl

section Accepted

variable (hgood : FileRecordOk B)

include hgood

/-- Each attribute is after the one before it, and begins in the segment. -/
theorem attributes_bounded : Bounded (attributeBody vcb B) (fun a => 48 ≤ a ∧ a < B.size) (fun a => B.size - a) (B.size + 1)
    (firstAttributeOffset B) := by
  have hfirst := hgood.2.2.2.1
  refine ⟨?_, by omega, by omega⟩
  rintro a a' ⟨ha, hlt⟩ hgo
  obtain ⟨hne, hcheck, rfl⟩ := (attributeBody_goes_iff hmin).mp hgo
  have hlength := recordLength_of_accepted hmin (inside_of_accepted hcheck) hne hcheck
  exact ⟨⟨by omega, hlength.2⟩, by dsimp only; omega⟩

theorem reaches_attribute_iff : Reaches (attributeBody vcb B) (firstAttributeOffset B) a ↔ AttributeReached vcb B a :=
  (attributes_bounded hmin hmax hgood).reaches_iff fun _ _ _ => attributeBody_goes_iff hmin

theorem AttributeReached.bounds (h : AttributeReached vcb B a) : 48 ≤ a ∧ a < B.size :=
  ((attributes_bounded hmin hmax hgood).keeps ((reaches_attribute_iff hmin hmax hgood).mpr h)).start

/-- The check of a file record stops with an error exactly if it reaches an attribute that is not `AttributeOk`. -/
theorem ntfsCheckFileRecord_ok_iff :
    (∃ r, ntfsCheckFileRecord vcb B = .ok r) ↔ ∀ a, AttributeReached vcb B a → AttributeOk vcb B a := by
  rw [ntfsCheckFileRecord_eq hmin, if_pos hgood, exists_eq_ok_iff, (attributes_bounded hmin hmax hgood).error_iff]
  constructor
  · intro hno a ha
    by_contra hbad
    have he := (attributeBody_error_iff hmin hmax (ha.bounds hmin hmax hgood).1).mpr hbad
    exact hno ⟨a, (reaches_attribute_iff hmin hmax hgood).mpr ha, he⟩
  · rintro hall ⟨a, ha, he⟩
    have ha := (reaches_attribute_iff hmin hmax hgood).mp ha
    exact (attributeBody_error_iff hmin hmax (ha.bounds hmin hmax hgood).1).mp he (hall a ha)

/-- A check that ends accepts exactly if it reaches `$END`. -/
theorem ntfsCheckFileRecord_true_iff (hall : ∀ a, AttributeReached vcb B a → AttributeOk vcb B a) :
    ntfsCheckFileRecord vcb B = .ok true ↔ ∃ a, AttributeReached vcb B a ∧ typeCode B a = endCode := by
  rw [ntfsCheckFileRecord_eq hmin, if_pos hgood, (attributes_bounded hmin hmax hgood).ok_iff]
  refine exists_congr fun a => ?_
  rw [reaches_attribute_iff hmin hmax hgood]
  exact and_congr_right fun ha => attributeBody_leaves_iff hmin (hall a ha).inside

/-- In a record that is accepted, each attribute before `$END` is accepted. -/
theorem AttributeReached.accepted (h : AttributeReached vcb B a) (htrue : ntfsCheckFileRecord vcb B = .ok true)
    (hne : typeCode B a ≠ endCode) : a + 4 ≤ B.size ∧ ntfsCheckAttributeRecord vcb B a = .ok true := by
  have hok := (ntfsCheckFileRecord_ok_iff hmin hmax hgood).mp ⟨_, htrue⟩ a h
  rw [ntfsCheckFileRecord_eq hmin, if_pos hgood] at htrue
  obtain ⟨a', hgo⟩ | hleave := (attributes_bounded hmin hmax hgood).of_ok htrue ((reaches_attribute_iff hmin hmax hgood).mpr h)
  · exact ⟨hok.inside, ((attributeBody_goes_iff hmin).mp hgo).2.1⟩
  · exact absurd ((attributeBody_leaves_iff hmin hok.inside).mp hleave) hne

/-- In a record that is accepted, following the lengths reaches no other attributes than the check. -/
theorem AttributeAt.reached (h : AttributeAt B a) (htrue : ntfsCheckFileRecord vcb B = .ok true) : AttributeReached vcb B a := by
  induction h with
  | refl => exact .refl
  | tail _ hstep ih => exact ih.tail ⟨hstep.1, (ih.accepted hmin hmax hgood htrue hstep.1).2, hstep.2⟩

omit hmin hmax hgood in
theorem AttributeReached.attributeAt (h : AttributeReached vcb B a) : AttributeAt B a :=
  Relation.ReflTransGen.mono (fun _ _ hstep => ⟨hstep.1, hstep.2.2⟩) _ _ h

/-- **An accepted file record** is well-formed exactly if its attributes are plain. -/
theorem fileRecordSound_iff (htrue : ntfsCheckFileRecord vcb B = .ok true) :
    FileRecordSound vcb B ↔ ∀ a, AttributeReached vcb B a → typeCode B a ≠ endCode → AttributePlain vcb B a := by
  have hall := (ntfsCheckFileRecord_ok_iff hmin hmax hgood).mp ⟨_, htrue⟩
  have hreached : ∀ a, AttributeAt B a → AttributeReached vcb B a := fun a ha => ha.reached hmin hmax hgood htrue
  have hsound : ∀ a, AttributeReached vcb B a → typeCode B a ≠ endCode → (AttributeSound vcb B a ↔ AttributePlain vcb B a) := by
    intro a ha hne
    obtain ⟨hin, hcheck⟩ := ha.accepted hmin hmax hgood htrue hne
    exact attributeSound_iff (ha.bounds hmin hmax hgood).1 hmin hmax hin hne hcheck
  constructor
  · intro h a ha hne
    exact (hsound a ha hne).mp (h.attributes a ha.attributeAt hne)
  · intro hplain
    obtain ⟨a, ha, hend⟩ := (ntfsCheckFileRecord_true_iff hmin hmax hgood hall).mp htrue
    refine ⟨⟨a, ha.attributeAt, hend⟩, fun a ha => (hall a (hreached a ha)).inside, fun a ha hne => ?_⟩
    exact (hsound a (hreached a ha) hne).mpr (hplain a (hreached a ha) hne)

end Accepted

/-- **Checking a file record**, for every segment: the check ends, reads only the segment, copies at most
eight bytes into `Change` and accepts only well-formed records, exactly if each attribute that it
gets to is `AttributeOk` and the attributes of a record that it accepts are plain. -/
theorem ntfsCheckFileRecord_iff :
    (∃ r, ntfsCheckFileRecord vcb B = .ok r ∧ (r = true → FileRecordSound vcb B)) ↔
      (FileRecordOk B → (∀ a, AttributeReached vcb B a → AttributeOk vcb B a) ∧
        ((∃ a, AttributeReached vcb B a ∧ typeCode B a = endCode) →
          ∀ a, AttributeReached vcb B a → typeCode B a ≠ endCode → AttributePlain vcb B a)) := by
  by_cases hgood : FileRecordOk B
  · constructor
    · rintro ⟨r, hr, hsound⟩ -
      have hall := (ntfsCheckFileRecord_ok_iff hmin hmax hgood).mp ⟨r, hr⟩
      refine ⟨hall, fun hend => ?_⟩
      have htrue := (ntfsCheckFileRecord_true_iff hmin hmax hgood hall).mpr hend
      obtain rfl := Except.ok.inj (hr.symm.trans htrue)
      exact (fileRecordSound_iff hmin hmax hgood htrue).mp (hsound rfl)
    · intro h
      obtain ⟨hall, hplain⟩ := h hgood
      obtain ⟨r, hr⟩ := (ntfsCheckFileRecord_ok_iff hmin hmax hgood).mpr hall
      refine ⟨r, hr, ?_⟩
      rintro rfl
      have hend := (ntfsCheckFileRecord_true_iff hmin hmax hgood hall).mp hr
      exact (fileRecordSound_iff hmin hmax hgood hr).mpr (hplain hend)
  · refine iff_of_true ⟨false, ?_, fun h => absurd h Bool.false_ne_true⟩ fun h => absurd h hgood
    rw [ntfsCheckFileRecord_eq hmin, if_neg hgood]

end FileRecord

/-- A file record with one nonresident attribute, whose list of mapping pairs begins with these bytes. -/
def fileRecord (pairs : List ℕ) : Buffer :=
  let header := [0x46, 0x49, 0x4C, 0x45, 42, 0, 3, 0] ++ List.replicate 12 0 ++ [48, 0, 1, 0, 0, 0, 0, 0, 0, 4, 0, 0] ++
    List.replicate 16 0
  let record := [0x80, 0, 0, 0, 80, 0, 0, 0, 1, 0, 0, 0] ++ List.replicate 20 0 ++ [64, 0] ++ List.replicate 30 0
  let bytes := header ++ record ++ pairs ++ List.replicate (16 - pairs.length) 0 ++ [0xFF, 0xFF, 0xFF, 0xFF]
  ⟨1024, fun i => BitVec.ofNat 8 (bytes.getD i 0)⟩

/-- A count of nine: the check copies nine bytes into `Change`. -/
theorem ntfsCheckFileRecord_overruns :
    ∃ (vcb : Vcb) (B : Buffer), 1024 ≤ B.size ∧ B.size ≤ 4096 ∧ ntfsCheckFileRecord vcb B = .error (.overrun 9) ∧
      ¬∃ r, ntfsCheckFileRecord vcb B = .ok r ∧ (r = true → FileRecordSound vcb B) := by
  have hoverrun : ntfsCheckFileRecord ⟨100, 0, by decide⟩ (fileRecord [0x19, 1, 0, 0, 0, 0, 0, 0, 0, 0, 5]) =
    .error (.overrun 9) := by
    decide +kernel
  refine ⟨_, _, Nat.le_refl 1024, by decide, hoverrun, ?_⟩
  rintro ⟨r, hr, -⟩
  rw [hoverrun] at hr
  cases hr

/-- A count of one and a run off the volume: the record is rejected, and each attribute that is reached is `AttributeOk`. -/
theorem ntfsCheckFileRecord_iff_fileRecord :
    FileRecordOk (fileRecord [0x11, 1, 100]) ∧
      ∀ a, AttributeReached ⟨100, 0, by decide⟩ (fileRecord [0x11, 1, 100]) a →
        AttributeOk ⟨100, 0, by decide⟩ (fileRecord [0x11, 1, 100]) a := by
  have hgood : FileRecordOk (fileRecord [0x11, 1, 100]) := by decide +kernel
  refine ⟨hgood, ((ntfsCheckFileRecord_iff (Nat.le_refl 1024) (by decide)).mp
    ⟨false, ?_, fun h => absurd h Bool.false_ne_true⟩ hgood).1⟩
  decide +kernel

end Nt365.Ntfs
