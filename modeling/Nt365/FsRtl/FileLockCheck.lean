import Nt365.FsRtl.FileLockRuns
import Mathlib.Data.List.Pairwise

/-!
# Checking reads and writes against byte range locks

`FsRtlFastCheckLockForRead` and `FsRtlFastCheckLockForWrite` (`FSRTL/FILELOCK.C`) walk the
list of locks as the lock requests do, after three shortcuts: there are no locks, the range
ends below the lowest lock, or the caller's last lock covers it. The entry points for IRPs
make the first two of these once more and call the fast ones.

The shortcut for a range below the lowest lock compares the last byte of the range with the
first byte of the lock, by `≤`: a range that ends on the first byte of the lowest lock is
let through (`read_check_fails_at_lowest`). The entry points for IRPs compare the byte after
the range, which is right, but then ask the fast ones.

## What is proved

In every run in order (`Event.InOrder`) a check is exact if and only if it is not about a
range that ends on the lowest offset where a lock in conflict starts; and the entry points
for IRPs always agree with the fast ones (`checks_exact_in_order`). So neither the last lock
nor the walk's early exit changes an answer.
-/

namespace Nt365.FsRtl

open Nt365.Library

namespace FileLock

/-- What a check is asked: a range, and who wants to read or write it. -/
structure Access (F P : Type*) where
  startingByte : ℤ
  length : ℤ
  key : ℕ
  fileObject : F
  processId : P

/-- The parameters of a read or write IRP, whose length is a `ULONG`. -/
structure AccessIrp (F P : Type*) where
  byteOffset : ℤ
  length : UInt32
  key : ℕ
  fileObject : F
  processId : P

variable {F P : Type*}

def Access.endingByte (access : Access F P) : ℤ := access.startingByte + access.length - 1

def AccessIrp.access (irp : AccessIrp F P) : Access F P :=
  ⟨irp.byteOffset, irp.length.toNat, irp.key, irp.fileObject, irp.processId⟩

/-- The lock and the range share a byte. -/
def Access.Overlaps (access : Access F P) (lock : Lock F P) : Prop :=
  ∃ byte, (access.startingByte ≤ byte ∧ byte ≤ access.endingByte) ∧ lock.startingByte ≤ byte ∧ byte ≤ lock.endingByte

variable {access : Access F P} {s : State F P} {last : Lock F P}

theorem Access.start_le_end (h : 1 ≤ access.length) : access.startingByte ≤ access.endingByte := by
  unfold endingByte
  omega

theorem access_overlaps_iff {lock : Lock F P} (ha : 1 ≤ access.length) (hl : lock.lockInfo.Ok) :
    access.Overlaps lock ↔ access.startingByte ≤ lock.endingByte ∧ lock.startingByte ≤ access.endingByte :=
  ranges_meet_iff (access.start_le_end ha) (lock.lockInfo.start_le_end hl.length)

theorem State.Good.compatible (hg : s.Good) {a b : Lock F P} (ha : a ∈ s.locks) (hb : b ∈ s.locks) (hne : a ≠ b) :
    Compatible a b := by
  cases hi : s.lockInformation with
  | none => simp [State.locks, hi] at ha
  | some info =>
    have hlocks := State.locks_eq hi
    rw [hlocks] at ha hb
    exact (hg.info info hi).compatible.forall ha hb hne

variable [DecidableEq F] [DecidableEq P]

def Access.owns (access : Access F P) (lock : Lock F P) : Bool :=
  lock.lockInfo.owns access.fileObject access.processId access.key

/-! ### The checks -/

/-- "If the caller just locked this range": the last lock of the file object covers the range
for this process and key. -/
def coversRange (access : Access F P) (lock : Lock F P) : Bool :=
  (access.startingByte ≥ lock.startingByte ∧ access.endingByte ≤ lock.endingByte) ∧
    lock.lockInfo.key = access.key ∧ lock.lockInfo.processId = access.processId

/-- The two fast checks, by what the last lock has to be and which locks stand in the way. -/
def fastCheckLock (lastLockServes blocks : Lock F P → Bool) (s : State F P) (access : Access F P) : Bool :=
  match s.lockInformation with
  | none => true
  | some info =>
    if info.currentLocks = [] then true
    else if access.endingByte ≤ info.lowestLockOffset then true
    else if (s.lastLock access.fileObject).any fun lock => coversRange access lock && lastLockServes lock then true
    else if access.length = 0 then true
    else (walk Lock.startingByte blocks access.endingByte info.currentLocks 0).isSome

def fsRtlFastCheckLockForRead (s : State F P) (access : Access F P) : Bool :=
  fastCheckLock (fun _ => true)
    (fun lock => (lock.lockInfo.exclusiveLock && access.startingByte ≤ lock.endingByte) && !access.owns lock) s access

def fsRtlFastCheckLockForWrite (s : State F P) (access : Access F P) : Bool :=
  fastCheckLock (fun lock => lock.lockInfo.exclusiveLock)
    (fun lock => access.startingByte ≤ lock.endingByte && (!lock.lockInfo.exclusiveLock || !access.owns lock)) s access

/-- The two entry points for IRPs, by the fast check they call. -/
def checkLockForAccess (fastCheck : State F P → Access F P → Bool) (s : State F P) (irp : AccessIrp F P) : Bool :=
  match s.lockInformation with
  | none => true
  | some info =>
    if info.currentLocks = [] then true
    else if irp.byteOffset + irp.length.toNat ≤ info.lowestLockOffset then true
    else fastCheck s irp.access

def fsRtlCheckLockForReadAccess (s : State F P) (irp : AccessIrp F P) : Bool :=
  checkLockForAccess fsRtlFastCheckLockForRead s irp

def fsRtlCheckLockForWriteAccess (s : State F P) (irp : AccessIrp F P) : Bool :=
  checkLockForAccess fsRtlFastCheckLockForWrite s irp

/-! ### What the checks are for -/

/-- A lock in conflict with a read: an exclusive one of another owner. -/
def Access.ReadConflict (access : Access F P) (lock : Lock F P) : Prop :=
  lock.lockInfo.exclusiveLock = true ∧ access.owns lock = false

/-- A lock in conflict with a write: any but an exclusive one of the same owner. -/
def Access.WriteConflict (access : Access F P) (lock : Lock F P) : Prop :=
  ¬ (lock.lockInfo.exclusiveLock = true ∧ access.owns lock = true)

/-- No granted lock in conflict overlaps the range. -/
def State.Permits (s : State F P) (access : Access F P) (conflict : Lock F P → Prop) : Prop :=
  ∀ lock ∈ s.locks, access.Overlaps lock → ¬ conflict lock

/-- **The byte that is missed**: the range ends on the lowest offset, and a lock in conflict
starts there. -/
def State.EndsOnLowest (s : State F P) (access : Access F P) (conflict : Lock F P → Prop) : Prop :=
  ∃ info ∈ s.lockInformation, access.endingByte = info.lowestLockOffset ∧
    ∃ lock ∈ info.currentLocks, lock.startingByte = access.endingByte ∧ conflict lock

/-! ### The walk and the shortcuts -/

omit [DecidableEq F] in
/-- A lock that shares a byte with a range shares it with a lock over the range. -/
theorem overlaps_of_covers {lock : Lock F P} (hc : coversRange access last = true)
    (ho : access.Overlaps lock) : lock.lockInfo.Overlaps last.lockInfo := by
  simp only [coversRange, decide_eq_true_eq] at hc
  obtain ⟨⟨hs, he⟩, -⟩ := hc
  obtain ⟨byte, ⟨h₁, h₂⟩, h₃, h₄⟩ := ho
  exact ⟨byte, ⟨h₃, h₄⟩, le_trans hs h₁, le_trans h₂ he⟩

/-- The owner of a last lock that covers the range is the caller. -/
theorem owns_of_covers (hc : coversRange access last = true)
    (hobj : last.lockInfo.fileObject = access.fileObject) : access.owns last = true := by
  simp only [coversRange, decide_eq_true_eq] at hc
  simp [Access.owns, FileLockInfo.owns, hobj, hc.2.1, hc.2.2]

theorem owns_congr {a b : Lock F P} (h : a.lockInfo.SameOwner b.lockInfo) : access.owns a = access.owns b := by
  obtain ⟨h₁, h₂, h₃⟩ := h
  simp [Access.owns, FileLockInfo.owns, h₁, h₂, h₃]

/-- **The last lock serves a read**: whoever overlaps it in exclusion is the caller. -/
theorem State.Good.lastLock_read (hg : s.Good)
    (hlast : s.lastLock access.fileObject = some last) (hc : coversRange access last = true) :
    s.Permits access access.ReadConflict := by
  obtain ⟨hmem, hobj, -⟩ := hg.lastLock _ _ hlast
  have howns := owns_of_covers hc hobj
  rintro lock hl ho ⟨hx, hnot⟩
  have hne : lock ≠ last := by
    rintro rfl
    rw [howns] at hnot
    cases hnot
  rcases hg.compatible hl hmem hne (overlaps_of_covers hc ho) with ⟨hsh, -⟩ | ⟨-, -, hsame, -⟩ | ⟨-, hsh, -⟩
  · rw [hsh] at hx
    cases hx
  · rw [owns_congr hsame, howns] at hnot
    cases hnot
  · rw [hsh] at hx
    cases hx

/-- **An exclusive last lock serves a write**: a shared lock under it would have been granted
later, and be the last lock itself. -/
theorem State.Good.lastLock_write (hg : s.Good)
    (hlast : s.lastLock access.fileObject = some last) (hc : coversRange access last = true)
    (hx : last.lockInfo.exclusiveLock = true) : s.Permits access access.WriteConflict := by
  obtain ⟨hmem, hobj, hmax⟩ := hg.lastLock _ _ hlast
  intro lock hl ho hconf
  have hne : lock ≠ last := by
    rintro rfl
    exact hconf ⟨hx, owns_of_covers hc hobj⟩
  rcases hg.compatible hl hmem hne (overlaps_of_covers hc ho) with ⟨-, hsh⟩ | ⟨-, hsh, -⟩ | ⟨-, -, hsame, hlt⟩
  · rw [hsh] at hx
    cases hx
  · rw [hsh] at hx
    cases hx
  · have := hmax lock hl (hsame.1.symm.trans hobj)
    omega

omit [DecidableEq F] in
/-- **A fast check**: it says yes where nothing is in conflict, and where the range ends by the
lowest offset. -/
theorem State.Good.fastCheck_iff (hg : s.Good) (hlen : 1 ≤ access.length)
    {serves blocks : Lock F P → Bool} {conflict : Lock F P → Prop}
    (hblocks : ∀ lock, blocks lock = true ↔ access.startingByte ≤ lock.endingByte ∧ conflict lock)
    (hlast : ∀ last, s.lastLock access.fileObject = some last → coversRange access last = true → serves last = true →
      s.Permits access conflict) :
    fastCheckLock serves blocks s access = true ↔
      s.Permits access conflict ∨ ∃ info ∈ s.lockInformation, access.endingByte ≤ info.lowestLockOffset := by
  unfold fastCheckLock
  cases hi : s.lockInformation with
  | none => simp [State.Permits, State.locks, hi]
  | some info =>
    have hlocks := State.locks_eq hi
    have hgi := hg.info info hi
    dsimp only
    by_cases hnil : info.currentLocks = []
    · rw [if_pos hnil]
      exact ⟨fun _ => .inl (by simp [State.Permits, hlocks, hnil]), fun _ => rfl⟩
    · rw [if_neg hnil]
      by_cases hlow : access.endingByte ≤ info.lowestLockOffset
      · rw [if_pos hlow]
        exact ⟨fun _ => .inr ⟨info, rfl, hlow⟩, fun _ => rfl⟩
      · rw [if_neg hlow]
        have hnot : ¬ ∃ info' ∈ some info, access.endingByte ≤ info'.lowestLockOffset := by simpa using hlow
        rw [or_iff_left hnot]
        by_cases hserves : ((s.lastLock access.fileObject).any fun lock => coversRange access lock && serves lock) = true
        · rw [if_pos hserves]
          cases hl : s.lastLock access.fileObject with
          | none => simp [hl] at hserves
          | some last =>
            simp only [hl, Option.any_some, Bool.and_eq_true] at hserves
            exact ⟨fun _ => hlast last hl hserves.1 hserves.2, fun _ => rfl⟩
        · rw [if_neg hserves, if_neg (by omega)]
          -- what is left is the walk
          rw [Option.isSome_iff_ne_none, Ne, walk_eq_none_iff hgi.sorted]
          simp only [State.Permits, hlocks, hblocks]
          constructor
          · intro hnone lock hl ho hconf
            obtain ⟨h₁, h₂⟩ := (access_overlaps_iff hlen (hgi.ok lock hl)).mp ho
            exact hnone ⟨lock, hl, h₂, h₁, hconf⟩
          · rintro hperm ⟨lock, hl, h₂, h₁, hconf⟩
            exact hperm lock hl ((access_overlaps_iff hlen (hgi.ok lock hl)).mpr ⟨h₁, h₂⟩) hconf

omit [DecidableEq F] [DecidableEq P] in
/-- **A check is exact** but for the byte that is missed. -/
theorem State.Good.exact_iff (hg : s.Good) (hlen : 1 ≤ access.length) {answer : Bool}
    {conflict : Lock F P → Prop} (h : answer = true ↔
      s.Permits access conflict ∨ ∃ info ∈ s.lockInformation, access.endingByte ≤ info.lowestLockOffset) :
    (answer = true ↔ s.Permits access conflict) ↔ ¬ s.EndsOnLowest access conflict := by
  constructor
  · rintro hexact ⟨info, hi, hend, lock, hl, hstart, hconf⟩
    have hlocks := State.locks_eq hi
    have hperm := hexact.mp (h.mpr (.inr ⟨info, hi, le_of_eq hend⟩))
    have hok := (hg.info info hi).ok lock hl
    have hle : lock.startingByte ≤ lock.endingByte := lock.lockInfo.start_le_end hok.length
    exact hperm lock (hlocks ▸ hl) ((access_overlaps_iff hlen hok).mpr
      ⟨le_trans (access.start_le_end hlen) (hstart ▸ hle), le_of_eq hstart⟩) hconf
  · intro hnot
    rw [h]
    refine ⟨?_, Or.inl⟩
    rintro (hperm | ⟨info, hi, hlow⟩)
    · exact hperm
    · intro lock hl ho hconf
      have hlocks := State.locks_eq hi
      rw [hlocks] at hl
      have hgi := hg.info info hi
      -- the lock starts by the end of the range, which is by the lowest offset
      have hle := ((access_overlaps_iff hlen (hgi.ok lock hl)).mp ho).2
      have hge := hgi.lowest lock hl
      exact hnot ⟨info, hi, by omega, lock, hl, by omega, hconf⟩

theorem State.Good.read_exact_iff (hg : s.Good) (hlen : 1 ≤ access.length) :
    (fsRtlFastCheckLockForRead s access = true ↔ s.Permits access access.ReadConflict) ↔
      ¬ s.EndsOnLowest access access.ReadConflict := by
  refine hg.exact_iff hlen (hg.fastCheck_iff hlen ?_ fun last hl hc _ => hg.lastLock_read hl hc)
  intro lock
  simp only [Bool.and_eq_true, decide_eq_true_eq, Bool.not_eq_true', Access.ReadConflict]
  tauto

theorem State.Good.write_exact_iff (hg : s.Good) (hlen : 1 ≤ access.length) :
    (fsRtlFastCheckLockForWrite s access = true ↔ s.Permits access access.WriteConflict) ↔
      ¬ s.EndsOnLowest access access.WriteConflict := by
  refine hg.exact_iff hlen (hg.fastCheck_iff hlen ?_ fun last hl hc hx => hg.lastLock_write hl hc hx)
  intro lock
  simp only [Bool.and_eq_true, decide_eq_true_eq, Bool.or_eq_true, Bool.not_eq_true', Access.WriteConflict]
  cases lock.lockInfo.exclusiveLock <;> cases access.owns lock <;> simp

/-! ### The entry points for IRPs -/

omit [DecidableEq F] in
/-- A range below the lowest offset is below it by the fast check's test too. -/
theorem checkLockForAccess_eq (serves blocks : Access F P → Lock F P → Bool) (s : State F P) (irp : AccessIrp F P) :
    checkLockForAccess (fun s access => fastCheckLock (serves access) (blocks access) s access) s irp =
      fastCheckLock (serves irp.access) (blocks irp.access) s irp.access := by
  unfold checkLockForAccess fastCheckLock
  cases hi : s.lockInformation with
  | none => rfl
  | some info =>
    simp only [hi]
    by_cases hbeyond : irp.byteOffset + irp.length.toNat ≤ info.lowestLockOffset
    · have hlow : irp.access.endingByte ≤ info.lowestLockOffset := by
        simp only [Access.endingByte, AccessIrp.access]
        omega
      rw [if_pos hbeyond, if_pos hlow]
    · rw [if_neg hbeyond]
      split_ifs <;> rfl

/-- **The read and write checks in every run in order**: each fast check is exact if and only
if the range does not end on the lowest offset where a lock in conflict starts, and the entry
points for IRPs give the answers of the fast ones. -/
theorem checks_exact_in_order {routine : Bool} {s : State F P}
    (h : Reachable routine (fun s event => event.Ok ∧ event.InOrder s) s) :
    (∀ access : Access F P, 1 ≤ access.length →
      ((fsRtlFastCheckLockForRead s access = true ↔ s.Permits access access.ReadConflict) ↔
        ¬ s.EndsOnLowest access access.ReadConflict) ∧
      ((fsRtlFastCheckLockForWrite s access = true ↔ s.Permits access access.WriteConflict) ↔
        ¬ s.EndsOnLowest access access.WriteConflict)) ∧
    ∀ irp : AccessIrp F P,
      fsRtlCheckLockForReadAccess s irp = fsRtlFastCheckLockForRead s irp.access ∧
      fsRtlCheckLockForWriteAccess s irp = fsRtlFastCheckLockForWrite s irp.access := by
  refine ⟨fun access hlen => ⟨h.good.read_exact_iff hlen, h.good.write_exact_iff hlen⟩, fun irp => ⟨?_, ?_⟩⟩
  · exact checkLockForAccess_eq _ _ s irp
  · exact checkLockForAccess_eq _ _ s irp

/-- **A read is let into a locked byte**: with bytes 10 to 20 locked by another file object,
bytes 5 to 10 may be read. -/
theorem read_check_fails_at_lowest :
    ¬ ∀ (s : State ℕ ℕ), Reachable false (fun _ event => event.Ok) s → ∀ access : Access ℕ ℕ, 1 ≤ access.length →
      (fsRtlFastCheckLockForRead s access = true ↔ s.Permits access access.ReadConflict) := by
  intro hall
  have hs : Reachable false (fun _ event => event.Ok) (privateLock false (fastRequest 10 11 true 1) fsRtlInitializeFileLock).2 :=
    Reachable.init.lock _ ⟨by decide, by decide, by decide⟩
  have hperm := (hall _ hs ⟨5, 6, 0, 2, 0⟩ (by decide)).mp (by decide)
  refine hperm ⟨0, (fastRequest 10 11 true 1).info⟩ List.mem_cons_self ⟨10, ⟨by decide, by decide⟩, by decide, by decide⟩ ?_
  exact ⟨rfl, by decide⟩

/-- With bytes 10 to 20 locked, the check of a read of bytes 5 to 11 is exact. -/
theorem checks_exact_in_order_one_lock :
    ∃ s : State ℕ ℕ, Reachable false (fun s event => event.Ok ∧ event.InOrder s) s ∧ s.locks.length = 1 ∧
      (fsRtlFastCheckLockForRead s ⟨5, 7, 0, 2, 0⟩ = true ↔ s.Permits ⟨5, 7, 0, 2, 0⟩ (Access.ReadConflict ⟨5, 7, 0, 2, 0⟩)) := by
  have hs : Reachable false (fun s event => event.Ok ∧ event.InOrder s)
      (privateLock false (fastRequest 10 11 true 1) fsRtlInitializeFileLock).2 :=
    Reachable.init.lock _ ⟨⟨by decide, by decide, by decide⟩, fun _ _ hl => (nomatch hl)⟩
  refine ⟨_, hs, rfl, (((checks_exact_in_order hs).1 ⟨5, 7, 0, 2, 0⟩ (by decide)).1).mpr ?_⟩
  rintro ⟨info, hi, hend, -⟩
  obtain rfl := Option.some.inj hi
  exact absurd hend (by decide)

end FileLock

end Nt365.FsRtl
