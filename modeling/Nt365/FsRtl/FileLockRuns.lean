import Nt365.FsRtl.FileLock
import Mathlib.Data.List.Perm.Basic

/-!
# Byte range locks exclude one another, as long as the list stays in order

Two granted locks may overlap only if both are shared, or if a shared lock was granted
under an exclusive one of the same owner (`Compatible`). The access checks stop at the first
lock that starts past the request, so they see to this only while the list of locks is
ordered by starting byte.

A shared lock goes after the last lock that starts by its end, and this need not be where it
belongs: a shared lock over bytes 0 to 100 goes behind one that starts at byte 50. From then
on an exclusive lock over bytes 10 to 20 is granted (`exclusion_fails_out_of_order`). In
every run in which no shared lock is granted over the start of a lock behind its own
(`InOrder`), granted locks exclude one another (`locks_exclude_in_order`), and between calls
no request waits that could be granted (`betweenCalls_settled`).
-/

namespace Nt365.FsRtl

open Nt365.Library List Option

namespace FileLock

variable {F P : Type*}

/-! ### What locks are for -/

/-- The requests in question: no empty range, and no range past the last 63-bit offset. -/
structure FileLockInfo.Ok (info : FileLockInfo F P) : Prop where
  start : 0 ≤ info.startingByte
  length : 1 ≤ info.length
  stop : info.endingByte ≤ 0x7fffffffffffffff

/-- Some byte is in both ranges. -/
def FileLockInfo.Overlaps (a b : FileLockInfo F P) : Prop :=
  ∃ byte, (a.startingByte ≤ byte ∧ byte ≤ a.endingByte) ∧ b.startingByte ≤ byte ∧ byte ≤ b.endingByte

/-- The two have one owner. -/
def FileLockInfo.SameOwner (a b : FileLockInfo F P) : Prop :=
  a.fileObject = b.fileObject ∧ a.processId = b.processId ∧ a.key = b.key

/-- The shared lock `b` was granted to the owner of the exclusive lock `a`, after it. -/
def Lock.Under (b a : Lock F P) : Prop :=
  a.lockInfo.exclusiveLock = true ∧ b.lockInfo.exclusiveLock = false ∧ a.lockInfo.SameOwner b.lockInfo ∧ a.id < b.id

/-- **What two granted locks may be**: apart, both shared, or one under the other. -/
def Compatible (a b : Lock F P) : Prop :=
  a.lockInfo.Overlaps b.lockInfo →
    (a.lockInfo.exclusiveLock = false ∧ b.lockInfo.exclusiveLock = false) ∨ b.Under a ∨ a.Under b

/-- No two granted locks conflict. -/
def State.Excludes (s : State F P) : Prop := ∀ info ∈ s.lockInformation, info.currentLocks.Pairwise Compatible

variable {a b request : FileLockInfo F P} {info info' : LockInfo F P} {n : ℕ} {link : Option ℕ} {s s' : State F P} {routine : Bool}

theorem FileLockInfo.Overlaps.symm (h : a.Overlaps b) : b.Overlaps a := by
  obtain ⟨byte, ha, hb⟩ := h
  exact ⟨byte, hb, ha⟩

theorem Compatible.symm {a b : Lock F P} (h : Compatible a b) : Compatible b a := by
  intro ho
  rcases h ho.symm with ⟨ha, hb⟩ | hu | hu
  · exact .inl ⟨hb, ha⟩
  · exact .inr (.inr hu)
  · exact .inr (.inl hu)

instance : Std.Symm (Compatible (F := F) (P := P)) := ⟨fun _ _ => Compatible.symm⟩

/-- For ranges that are not empty, the code's test for a byte in both. -/
theorem ranges_meet_iff {start stop start' stop' : ℤ} (h : start ≤ stop) (h' : start' ≤ stop') :
    (∃ byte, (start ≤ byte ∧ byte ≤ stop) ∧ start' ≤ byte ∧ byte ≤ stop') ↔ start ≤ stop' ∧ start' ≤ stop := by
  constructor
  · rintro ⟨byte, ⟨h₁, h₂⟩, h₃, h₄⟩
    exact ⟨by omega, by omega⟩
  · intro hmeet
    exact ⟨max start start', ⟨by omega, by omega⟩, by omega, by omega⟩

theorem FileLockInfo.start_le_end (h : 1 ≤ a.length) : a.startingByte ≤ a.endingByte := by
  unfold endingByte
  omega

theorem overlaps_iff (ha : 1 ≤ a.length) (hb : 1 ≤ b.length) :
    a.Overlaps b ↔ a.startingByte ≤ b.endingByte ∧ b.startingByte ≤ a.endingByte :=
  ranges_meet_iff (a.start_le_end ha) (b.start_le_end hb)

/-! ### The invariant -/

/-- The granted locks. -/
def State.locks (s : State F P) : List (Lock F P) := (s.lockInformation.map LockInfo.currentLocks).getD []

theorem State.locks_eq (hi : s.lockInformation = some info) : s.locks = info.currentLocks := by simp [State.locks, hi]

/-- What holds of the lock queue in every run in order. -/
structure LockInfo.Good (info : LockInfo F P) (allocated : ℕ) : Prop where
  /-- Locks are ordered by their starting byte. -/
  sorted : SortedBy Lock.startingByte info.currentLocks
  /-- No lock starts below the lowest offset. -/
  lowest : ∀ lock ∈ info.currentLocks, info.lowestLockOffset ≤ lock.startingByte
  ok : ∀ lock ∈ info.currentLocks, lock.lockInfo.Ok
  waiters : ∀ irp ∈ info.waitingLocks, irp.lockControl.Ok
  id_lt : ∀ lock ∈ info.currentLocks, lock.id < allocated
  compatible : info.currentLocks.Pairwise Compatible

/-- What holds of a file object's last lock: it is granted still, and is the latest that its
file object was granted. -/
def LastLockGood (locks : List (Lock F P)) (lastLock : F → Option (Lock F P)) : Prop :=
  ∀ fileObject lock, lastLock fileObject = some lock →
    lock ∈ locks ∧ lock.lockInfo.fileObject = fileObject ∧
      ∀ other ∈ locks, other.lockInfo.fileObject = fileObject → other.id ≤ lock.id

structure State.Good (s : State F P) : Prop where
  info : ∀ info ∈ s.lockInformation, info.Good s.allocated
  lastLock : LastLockGood s.locks s.lastLock

theorem good_initialize : (fsRtlPrivateInitializeFileLock : LockInfo F P).Good 0 where
  sorted := List.Pairwise.nil
  lowest := by simp [fsRtlPrivateInitializeFileLock]
  ok := by simp [fsRtlPrivateInitializeFileLock]
  waiters := by simp [fsRtlPrivateInitializeFileLock]
  id_lt := by simp [fsRtlPrivateInitializeFileLock]
  compatible := List.Pairwise.nil

/-- The invariant looks at the number allocated from below only. -/
theorem LockInfo.Good.mono {m : ℕ} (h : info.Good n) (hle : n ≤ m) : info.Good m :=
  { h with id_lt := fun lock hl => Nat.lt_of_lt_of_le (h.id_lt lock hl) hle }

/-- Fewer locks and waiters keep the invariant, with an offset that none is below. -/
theorem LockInfo.Good.sublist (h : info.Good n)
    (hl : info'.currentLocks.Sublist info.currentLocks) (hw : ∀ irp ∈ info'.waitingLocks, irp ∈ info.waitingLocks)
    (hlow : ∀ lock ∈ info'.currentLocks, info'.lowestLockOffset ≤ lock.startingByte) : info'.Good n where
  sorted := h.sorted.sublist hl
  lowest := hlow
  ok := fun lock hm => h.ok lock (hl.subset hm)
  waiters := fun irp hm => h.waiters irp (hw irp hm)
  id_lt := fun lock hm => h.id_lt lock (hl.subset hm)
  compatible := h.compatible.sublist hl

theorem LastLockGood.sublist {locks locks' : List (Lock F P)} {lastLock lastLock' : F → Option (Lock F P)}
    (h : LastLockGood locks lastLock) (hs : ∀ lock ∈ locks', lock ∈ locks)
    (hk : ∀ f lock, lastLock' f = some lock → lastLock f = some lock ∧ lock ∈ locks') : LastLockGood locks' lastLock' := by
  intro f lock hf
  obtain ⟨hlast, hmem⟩ := hk f lock hf
  obtain ⟨-, hobj, hmax⟩ := h f lock hlast
  exact ⟨hmem, hobj, fun other ho => hmax other (hs other ho)⟩

/-- The offset taken from the first of the locks is below none of them. -/
theorem lowestOffset_le {locks : List (Lock F P)} (h : SortedBy Lock.startingByte locks)
    (hok : ∀ lock ∈ locks, lock.lockInfo.Ok) : ∀ lock ∈ locks, lowestOffset locks ≤ lock.startingByte := by
  cases locks with
  | nil => simp
  | cons first locks =>
    have hfirst := (hok first mem_cons_self).start
    intro lock hl
    have hle : first.startingByte ≤ lock.startingByte := by
      rcases mem_cons.mp hl with rfl | hl
      · exact le_rfl
      · exact h.head_le hl
    rw [lowestOffset]
    split_ifs with hc
    · exact hle
    · have : (0x100000000 : ℤ) ≤ first.startingByte := by
        by_contra hlt
        exact hc ⟨hfirst, by omega⟩
      omega

/-! ### Where a lock goes -/

/-- What the walk of an access check says, on locks that are in order. -/
theorem checkForAccess_spec {blocks : Lock F P → Bool} {locks : List (Lock F P)}
    (hs : SortedBy Lock.startingByte locks) (hlen : 1 ≤ request.length)
    (h : checkForAccess blocks locks request = some link) :
    (∀ lock ∈ locks, lock.startingByte ≤ request.endingByte → blocks lock = false) ∧
      ∃ pre post, locks = pre ++ post ∧ link = some pre.length ∧
        (∀ lock ∈ pre, lock.startingByte ≤ request.endingByte) ∧ ∀ lock ∈ post, request.endingByte < lock.startingByte := by
  rw [checkForAccess] at h
  by_cases hnil : locks = []
  · subst hnil
    rw [if_pos rfl, Option.some.injEq] at h
    exact ⟨by simp, [], [], rfl, h.symm, by simp, by simp⟩
  · rw [if_neg hnil, if_neg (by omega), map_eq_some_iff] at h
    obtain ⟨k, hw, rfl⟩ := h
    obtain ⟨pre, post, hsplit, hk, hpre, hpost⟩ := walk_split hs hw
    refine ⟨?_, pre, post, hsplit, by simpa using hk, hpre, hpost⟩
    intro lock hl hle
    by_contra hb
    have hnone := (walk_eq_none_iff hs 0).mpr ⟨lock, hl, hle, by simpa using hb⟩
    rw [hw] at hnone
    cases hnone

theorem checkForAccess_eq_none_iff {blocks : Lock F P → Bool} {locks : List (Lock F P)} (hs : SortedBy Lock.startingByte locks)
    (hlen : 1 ≤ request.length) :
    checkForAccess blocks locks request = none ↔ ∃ lock ∈ locks, lock.startingByte ≤ request.endingByte ∧ blocks lock = true := by
  rw [checkForAccess, if_neg (by omega : request.length ≠ 0)]
  split_ifs with hnil
  · simp [hnil]
  · rw [map_eq_none_iff, walk_eq_none_iff hs]

/-- A request that overlaps no lock it must not overlap, and its place among the locks. -/
structure Placed (locks : List (Lock F P)) (n : ℕ) (request : FileLockInfo F P) (link : Option ℕ) : Prop where
  place : ∃ pre post, locks = pre ++ post ∧
    fsRtlPrivateInsertLock locks ⟨n, request⟩ link = pre ++ ⟨n, request⟩ :: post ∧
    (∀ lock ∈ pre, lock.startingByte ≤ request.startingByte) ∧ ∀ lock ∈ post, request.startingByte ≤ lock.startingByte
  compatible : ∀ lock ∈ locks, Compatible lock ⟨n, request⟩

/-- The place that a check returns, if what starts by the request's end starts by its start. -/
theorem checkForAccess_placed {blocks : Lock F P → Bool} {locks : List (Lock F P)} (hs : SortedBy Lock.startingByte locks)
    (hlen : 1 ≤ request.length) (h : checkForAccess blocks locks request = some link)
    (hstart : ∀ lock ∈ locks, lock.startingByte ≤ request.endingByte → lock.startingByte ≤ request.startingByte)
    (hcompatible : ∀ lock ∈ locks, Compatible lock ⟨n, request⟩) : Placed locks n request link := by
  obtain ⟨-, pre, post, rfl, rfl, hpre, hpost⟩ := checkForAccess_spec hs hlen h
  refine ⟨⟨pre, post, rfl, ?_, ?_, ?_⟩, hcompatible⟩
  · rw [fsRtlPrivateInsertLock, take_left, drop_left]
  · exact fun lock hl => hstart lock (mem_append_left _ hl) (hpre lock hl)
  · exact fun lock hl => le_trans (request.start_le_end hlen) (le_of_lt (hpost lock hl))

theorem exclusive_placed (hg : info.Good n)
    (hok : request.Ok) (h : fsRtlPrivateCheckForExclusiveLockAccess info.currentLocks request = some link) :
    Placed info.currentLocks n request link := by
  have hfree := (checkForAccess_spec hg.sorted hok.length h).1
  -- a lock that starts by the end of the request ends before its start
  have hends : ∀ lock ∈ info.currentLocks, lock.startingByte ≤ request.endingByte → lock.endingByte < request.startingByte := by
    intro lock hl hle
    simpa [blocksExclusive] using hfree lock hl hle
  refine checkForAccess_placed hg.sorted hok.length h (fun lock hl hle => ?_) fun lock hl ho => ?_
  · exact le_trans (lock.lockInfo.start_le_end (hg.ok lock hl).length) (le_of_lt (hends lock hl hle))
  · obtain ⟨h₁, h₂⟩ := (overlaps_iff (hg.ok lock hl).length hok.length).mp ho
    exact absurd h₂ (not_le.mpr (hends lock hl h₁))

theorem Placed.mem_iff {locks : List (Lock F P)}
    (hp : Placed locks n request link) (lock : Lock F P) :
    lock ∈ fsRtlPrivateInsertLock locks ⟨n, request⟩ link ↔ lock = ⟨n, request⟩ ∨ lock ∈ locks := by
  obtain ⟨⟨pre, post, rfl, hins, -⟩, -⟩ := hp
  rw [hins]
  simp only [mem_append, mem_cons]
  tauto

theorem LockInfo.Good.grant (hg : info.Good n) (hok : request.Ok)
    (hp : Placed info.currentLocks n request link) {waiters : List (Irp F P)}
    (hw : ∀ irp ∈ waiters, irp.lockControl.Ok) :
    LockInfo.Good ⟨if request.startingByte < info.lowestLockOffset then request.startingByte % 0x100000000
        else info.lowestLockOffset, fsRtlPrivateInsertLock info.currentLocks ⟨n, request⟩ link, waiters⟩ (n + 1) := by
  have hmem := hp.mem_iff
  refine ⟨?_, ?_, ?_, hw, ?_, ?_⟩
  · obtain ⟨⟨pre, post, hsplit, hins, hpre, hpost⟩, -⟩ := hp
    dsimp only
    rw [hins]
    exact SortedBy.insert (hsplit ▸ hg.sorted) hpre hpost
  · intro lock hm
    have hstart := hok.start
    rcases (hmem lock).mp hm with rfl | hm
    · simp only [Lock.startingByte]
      split_ifs <;> omega
    · have hle := hg.lowest lock hm
      simp only [Lock.startingByte] at hle ⊢
      split_ifs <;> omega
  · intro lock hm
    rcases (hmem lock).mp hm with rfl | hm
    · exact hok
    · exact hg.ok lock hm
  · intro lock hm
    rcases (hmem lock).mp hm with rfl | hm
    · exact Nat.lt_succ_self _
    · exact Nat.lt_succ_of_lt (hg.id_lt lock hm)
  · obtain ⟨⟨pre, post, hsplit, hins, -⟩, hcomp⟩ := hp
    have hperm : (pre ++ ⟨n, request⟩ :: post).Perm (⟨n, request⟩ :: info.currentLocks) := by
      rw [hsplit]
      exact perm_middle
    dsimp only
    rw [hins, hperm.pairwise_iff fun h => Compatible.symm h, pairwise_cons]
    exact ⟨fun lock hm => (hcomp lock hm).symm, hg.compatible⟩

/-- With the last lock of the file object forgotten, its locks may go. -/
theorem State.Good.shrink (hg : s.Good) {fileObject : F}
    (hi : s.lockInformation = some info) (hlast : s.lastLock fileObject = none) (hg' : info'.Good s.allocated)
    (hsub : info'.currentLocks.Sublist info.currentLocks)
    (hkeep : ∀ lock ∈ info.currentLocks, lock.lockInfo.fileObject ≠ fileObject → lock ∈ info'.currentLocks) :
    State.Good { s with lockInformation := some info' } := by
  have hlocks := State.locks_eq hi
  refine ⟨?_, ?_⟩
  · intro info₁ h₁
    obtain rfl := Option.some.inj h₁
    exact hg'
  · refine hg.lastLock.sublist (fun lock hl => hlocks ▸ hsub.subset hl) ?_
    intro f lock hf
    obtain ⟨hl, hobj, -⟩ := hg.lastLock f lock hf
    refine ⟨hf, hkeep lock (hlocks ▸ hl) ?_⟩
    rintro rfl
    dsimp only at hf
    rw [hobj, hf] at hlast
    cases hlast

/-- A new `LOCK_INFO` is made on the first request. -/
theorem State.Good.initialize (hg : s.Good) :
    State.Good { s with lockInformation := some (s.lockInformation.getD fsRtlPrivateInitializeFileLock) } := by
  cases hi : s.lockInformation with
  | some info =>
    rw [getD_some, ← hi]
    exact hg
  | none =>
    rw [getD_none]
    refine ⟨?_, ?_⟩
    · intro info h
      obtain rfl := Option.some.inj h
      exact good_initialize.mono (Nat.zero_le _)
    · intro f lock hf
      have hlast := (hg.lastLock f lock hf).1
      simp [State.locks, hi] at hlast

/-- What leaves the granted locks alone. -/
theorem State.Good.mapInfo (hg : s.Good) {g : LockInfo F P → LockInfo F P}
    (hl : ∀ info, (g info).currentLocks = info.currentLocks) (hgood : ∀ info n, info.Good n → (g info).Good n) :
    State.Good { s with lockInformation := s.lockInformation.map g } := by
  refine ⟨?_, ?_⟩
  · intro info' h
    obtain ⟨info, hi, rfl⟩ := map_eq_some_iff.mp h
    exact hgood info _ (hg.info info hi)
  · have hlocks : State.locks { s with lockInformation := s.lockInformation.map g } = s.locks := by
      cases hi : s.lockInformation <;> simp [State.locks, hi, hl]
    rw [hlocks]
    exact hg.lastLock

theorem State.Good.resetLowest (hg : s.Good) : s.resetLowest.Good :=
  hg.mapInfo (fun _ => rfl) fun _ _ hgi =>
    hgi.sublist (.refl _) (fun _ hw => hw) (lowestOffset_le hgi.sorted hgi.ok)

theorem State.Good.cancel (hg : s.Good) (cancelled : Irp F P → Bool) : (fsRtlPrivateCancelFileLockIrp cancelled s).Good :=
  hg.mapInfo (fun _ => rfl) fun _ _ hgi =>
    hgi.sublist (.refl _) (fun _ hm => (mem_filter.mp hm).1) hgi.lowest

theorem good_init : (fsRtlInitializeFileLock : State F P).Good :=
  ⟨fun _ h => (nomatch h), fun _ _ h => (nomatch h)⟩

section

variable [DecidableEq F]

/-- **A lock granted in its place** keeps the invariant. -/
theorem State.Good.grant {s : State F P} (hg : s.Good) {info : LockInfo F P} (hi : s.lockInformation = some info)
    {request : FileLockInfo F P} (hok : request.Ok) {link : Option ℕ}
    (hp : Placed info.currentLocks s.allocated request link) {waiters : List (Irp F P)}
    (hw : ∀ irp ∈ waiters, irp.lockControl.Ok) :
    (s.grant { info with waitingLocks := waiters } request link).Good := by
  have hgi := hg.info info hi
  constructor
  · intro info' hi'
    obtain rfl := Option.some.inj hi'
    exact hgi.grant hok hp hw
  · intro f lock hf
    have hmem : ∀ other, other ∈ (s.grant { info with waitingLocks := waiters } request link).locks ↔
        other = ⟨s.allocated, request⟩ ∨ other ∈ info.currentLocks := hp.mem_iff
    simp only [State.grant] at hf
    split_ifs at hf with hfo
    · -- the lock just granted is the latest of all
      obtain rfl := Option.some.inj hf
      refine ⟨(hmem _).mpr (.inl rfl), hfo.symm, ?_⟩
      intro other ho _
      rcases (hmem other).mp ho with rfl | ho
      · exact Nat.le_refl _
      · exact Nat.le_of_lt (hgi.id_lt other ho)
    · have hlocks := State.locks_eq hi
      obtain ⟨hl, hobj, hmax⟩ := hg.lastLock f lock hf
      rw [hlocks] at hl hmax
      refine ⟨(hmem _).mpr (.inr hl), hobj, ?_⟩
      intro other ho hof
      rcases (hmem other).mp ho with rfl | ho
      · exact absurd hof.symm hfo
      · exact hmax other ho hof

theorem State.Good.clearLastLock {s : State F P} (hg : s.Good) (fileObject : F) : (s.clearLastLock fileObject).Good := by
  refine ⟨hg.info, ?_⟩
  intro f lock hf
  simp only [State.clearLastLock] at hf
  split_ifs at hf
  exact hg.lastLock f lock hf

theorem State.Good.completeLockIrp {s : State F P} (hg : s.Good) (routine : Bool) (irp : Irp F P) (status : Status) :
    (fsRtlCompleteLockIrp routine s irp status).2.Good := by
  cases routine with
  | true => exact hg.clearLastLock irp.lockControl.fileObject
  | false => exact hg

end

/-! ### Runs -/

variable [DecidableEq F] [DecidableEq P]

theorem owns_iff : a.owns b.fileObject b.processId b.key = true ↔ a.SameOwner b := by
  simp [FileLockInfo.owns, FileLockInfo.SameOwner]

/-- The steps of a run: the calls up to their check for waiters, each grant to a waiter, the
end of unlocking all, and cancellation. -/
inductive Event (F P : Type*) where
  | lock (request : LockRequest F P)
  | grantWaiter
  | unlockSingle (request : FileLockInfo F P)
  | unlockAll (fileObject : F) (processId : P) (key : Option ℕ)
  | resetLowest
  | cancel (cancelled : Irp F P → Bool)

def Event.run (routine : Bool) (s : State F P) : Event F P → Option (State F P)
  | .lock request => some (privateLock routine request s).2
  | .grantWaiter => FileLock.grantWaiter routine s
  | .unlockSingle request => some (FileLock.unlockSingle request s).2
  | .unlockAll fileObject processId key => some (FileLock.unlockAll fileObject processId key s).2
  | .resetLowest => some s.resetLowest
  | .cancel cancelled => some (fsRtlPrivateCancelFileLockIrp cancelled s)

/-- The lock request of an event is one of those in question. -/
def Event.Ok : Event F P → Prop
  | .lock request => request.info.Ok
  | _ => True

/-- **In order**: no lock starts in the range of a shared request after its first byte,
unless another owner's exclusive lock keeps the request from being granted. -/
def InOrder (locks : List (Lock F P)) (request : FileLockInfo F P) : Prop :=
  request.exclusiveLock = false → ∀ lock ∈ locks, request.startingByte < lock.startingByte →
    lock.startingByte ≤ request.endingByte →
      ∃ other ∈ locks, other.lockInfo.exclusiveLock = true ∧ other.lockInfo.Overlaps request ∧
        ¬ other.lockInfo.SameOwner request

/-- The request that an event may grant is in order. -/
def Event.InOrder (s : State F P) : Event F P → Prop
  | .lock request => FileLock.InOrder s.locks request.info
  | .grantWaiter => ∀ irp link rest, firstGranted s.locks s.waiters = some (irp, link, rest) →
      FileLock.InOrder s.locks irp.lockControl
  | _ => True

/-- The states reached from a new `FILE_LOCK` by events that are allowed. -/
inductive Reachable (routine : Bool) (allowed : State F P → Event F P → Prop) : State F P → Prop where
  | init : Reachable routine allowed fsRtlInitializeFileLock
  | step {s s' : State F P} {event : Event F P} :
      Reachable routine allowed s → allowed s event → event.run routine s = some s' → Reachable routine allowed s'

/-! ### Granting a lock -/

theorem shared_placed (hg : info.Good n)
    (hok : request.Ok) (hsh : request.exclusiveLock = false) (hin : InOrder info.currentLocks request)
    (h : fsRtlPrivateCheckForSharedLockAccess info.currentLocks request = some link) :
    Placed info.currentLocks n request link := by
  have hfree := (checkForAccess_spec hg.sorted hok.length h).1
  -- an exclusive lock that overlaps the request has its owner
  have howner : ∀ lock ∈ info.currentLocks, lock.lockInfo.exclusiveLock = true → lock.lockInfo.Overlaps request →
      lock.lockInfo.SameOwner request := by
    intro lock hl hx ho
    obtain ⟨h₁, h₂⟩ := (overlaps_iff (hg.ok lock hl).length hok.length).mp ho
    have hb := hfree lock hl h₁
    simp only [blocksShared, hx, h₂, Lock.endingByte, true_and, decide_eq_false_iff_not, not_not] at hb
    exact owns_iff.mp hb
  refine checkForAccess_placed hg.sorted hok.length h (fun lock hl hle => ?_) fun lock hl ho => ?_
  · by_contra hlt
    obtain ⟨other, ho, hx, hover, hne⟩ := hin hsh lock hl (by omega) hle
    exact hne (howner other ho hx hover)
  · cases hx : lock.lockInfo.exclusiveLock with
    | false => exact .inl ⟨rfl, hsh⟩
    | true => exact .inr (.inl ⟨hx, hsh, howner lock hl hx ho, hg.id_lt lock hl⟩)

theorem accessGranted_placed (hg : info.Good n)
    (hok : request.Ok) (hin : InOrder info.currentLocks request)
    (h : accessGranted info.currentLocks request = some link) : Placed info.currentLocks n request link := by
  rw [accessGranted] at h
  cases hx : request.exclusiveLock with
  | true =>
    rw [if_pos hx] at h
    exact exclusive_placed hg hok h
  | false =>
    rw [if_neg (by simp [hx])] at h
    exact shared_placed hg hok hx hin h

/-! ### Releasing locks -/

theorem LockInfo.Good.removeFirst (hg : info.Good n)
    (h : info.removeFirst request = some info') :
    info'.Good n ∧ info'.currentLocks = info.currentLocks.eraseP (matchesLock request) ∧
      info'.waitingLocks = info.waitingLocks := by
  rw [LockInfo.removeFirst] at h
  by_cases hany : info.currentLocks.any (matchesLock request) = true
  · rw [if_pos hany] at h
    obtain rfl := Option.some.inj h
    refine ⟨hg.sublist eraseP_sublist (fun _ hw => hw) ?_, rfl, rfl⟩
    intro lock hl
    have hmem : lock ∈ info.currentLocks := mem_of_mem_eraseP hl
    dsimp only at hl ⊢
    split_ifs with hhead
    · -- the first lock goes, and what is left is the rest of the list
      cases hc : info.currentLocks with
      | nil => rw [hc] at hmem; cases hmem
      | cons first locks =>
        rw [hc, head?_cons, any_some] at hhead
        rw [hc, eraseP_cons_of_pos hhead] at hl
        have hs : SortedBy Lock.startingByte (first :: locks) := hc ▸ hg.sorted
        exact lowestOffset_le hs.tail (fun l hm => hg.ok l (hc ▸ mem_cons_of_mem _ hm)) lock hl
    · exact hg.lowest lock hmem
  · rw [if_neg hany] at h
    cases h

theorem State.Good.removeFirst (hg : s.Good)
    (hi : s.lockInformation = some info) (hlast : s.lastLock request.fileObject = none)
    (h : info.removeFirst request = some info') : State.Good { s with lockInformation := some info' } := by
  obtain ⟨hg', hl, -⟩ := (hg.info info hi).removeFirst h
  refine hg.shrink hi hlast hg' (hl ▸ eraseP_sublist) ?_
  intro lock hmem hne
  rw [hl]
  refine (mem_eraseP_of_neg ?_).mpr hmem
  intro hm
  simp only [matchesLock, decide_eq_true_eq] at hm
  exact hne (owns_iff.mp hm.1).1

theorem State.Good.removeLock (hg : s.Good) (hlast : s.lastLock request.fileObject = none) :
    (fsRtlPrivateRemoveLock s request).Good := by
  rw [fsRtlPrivateRemoveLock]
  cases hi : s.lockInformation with
  | none => exact hg
  | some info =>
    dsimp only
    cases hr : info.removeFirst request with
    | none =>
      rw [getD_none, ← hi]
      exact hg
    | some info' =>
      rw [getD_some]
      exact hg.removeFirst hi hlast hr

/-- Completing the request keeps the invariant, whether or not its lock is removed again:
a completion that can fail has forgotten the last lock first. -/
theorem State.Good.completeGranted (hg : s.Good) (routine : Bool) (irp : Irp F P) : (s.completeGranted routine irp).2.2.Good := by
  rw [State.completeGranted, fsRtlCompleteLockIrp]
  cases routine with
  | false => simpa using hg
  | true =>
    have hclear := hg.clearLastLock irp.lockControl.fileObject
    cases irp.succeeds with
    | true => simpa using hclear
    | false =>
      simp only [if_true, Bool.false_eq_true, if_false, reduceCtorEq]
      exact hclear.removeLock (by simp [State.clearLastLock])

/-! ### Steps -/

theorem State.Good.privateLock (hg : s.Good) (routine : Bool) {request : LockRequest F P}
    (hok : request.info.Ok) (hin : InOrder s.locks request.info) : (privateLock routine request s).2.Good := by
  have hlocks : s.locks = (s.lockInformation.getD fsRtlPrivateInitializeFileLock).currentLocks := by
    cases hi : s.lockInformation <;> simp [State.locks, hi, fsRtlPrivateInitializeFileLock]
  have hg₁ := hg.initialize
  rw [hlocks] at hin
  unfold FileLock.privateLock
  dsimp only
  generalize s.lockInformation.getD fsRtlPrivateInitializeFileLock = info at hg₁ hin ⊢
  have hgi : info.Good s.allocated := hg₁.info info rfl
  cases ha : accessGranted info.currentLocks request.info with
  | some link =>
    have hp := accessGranted_placed hgi hok hin ha
    have hgrant := hg₁.grant rfl hok hp hgi.waiters
    cases hirp : request.theIrp with
    | none => exact hgrant
    | some irp => exact hgrant.completeGranted routine irp
  | none =>
    cases hirp : request.theIrp with
    | none =>
      dsimp only
      split_ifs <;> exact hg₁
    | some irp =>
      dsimp only
      split_ifs
      · exact hg₁.completeLockIrp routine irp .lockNotGranted
      · -- the request waits
        have hirp' : irp.lockControl = request.info := by
          obtain ⟨b, -, rfl⟩ := map_eq_some_iff.mp hirp
          rfl
        refine ⟨?_, hg₁.lastLock⟩
        intro info' h
        obtain rfl := Option.some.inj h
        refine { hgi with waiters := ?_ }
        intro irp' hm
        rcases mem_append.mp hm with hm | hm
        · exact hgi.waiters irp' hm
        · rw [mem_singleton.mp hm, hirp']
          exact hok

/-- The waiter granted is one of the waiters, and the others stay. -/
theorem firstGranted_spec {locks : List (Lock F P)} {waiters rest : List (Irp F P)} {irp : Irp F P}
    (h : firstGranted locks waiters = some (irp, link, rest)) :
    accessGranted locks irp.lockControl = some link ∧ waiters.Perm (irp :: rest) := by
  induction waiters generalizing rest with
  | nil => cases h
  | cons first waiters ih =>
    rw [firstGranted] at h
    cases ha : accessGranted locks first.lockControl with
    | some link' =>
      rw [ha] at h
      obtain ⟨rfl, rfl, rfl⟩ : first = irp ∧ link' = link ∧ waiters = rest := by simpa using h
      exact ⟨ha, .refl _⟩
    | none =>
      rw [ha] at h
      obtain ⟨⟨irp', link', rest'⟩, hf, heq⟩ := map_eq_some_iff.mp h
      obtain ⟨rfl, rfl, rfl⟩ : irp' = irp ∧ link' = link ∧ first :: rest' = rest := by simpa using heq
      obtain ⟨hacc, hperm⟩ := ih hf
      exact ⟨hacc, (hperm.cons first).trans (.swap ..)⟩

theorem State.Good.grantWaiter (hg : s.Good)
    (hin : ∀ irp link rest, firstGranted s.locks s.waiters = some (irp, link, rest) → InOrder s.locks irp.lockControl)
    (h : grantWaiter routine s = some s') : s'.Good := by
  obtain ⟨info, hi, hmap⟩ := bind_eq_some_iff.mp h
  obtain ⟨⟨irp, link, rest⟩, hf, rfl⟩ := map_eq_some_iff.mp hmap
  have hlocks := State.locks_eq hi
  have hwait : s.waiters = info.waitingLocks := by simp [State.waiters, hi]
  have hgi := hg.info info hi
  obtain ⟨hacc, hperm⟩ := firstGranted_spec hf
  have hok : irp.lockControl.Ok := hgi.waiters irp (hperm.mem_iff.mpr mem_cons_self)
  have hord : InOrder info.currentLocks irp.lockControl := by
    have := hin irp link rest (by rw [hlocks, hwait]; exact hf)
    rwa [hlocks] at this
  have hp := accessGranted_placed hgi hok hord hacc
  refine (hg.grant hi hok hp ?_).completeGranted routine irp
  intro irp' hm
  exact hgi.waiters irp' (hperm.mem_iff.mpr (mem_cons_of_mem _ hm))

theorem State.Good.unlockSingle (hg : s.Good) (request : FileLockInfo F P) : (unlockSingle request s).2.Good := by
  rw [FileLock.unlockSingle]
  cases hb : s.lockInformation.bind (·.removeFirst request) with
  | none => exact hg
  | some info' =>
    obtain ⟨info, hi, hr⟩ := bind_eq_some_iff.mp hb
    have hclear := hg.clearLastLock request.fileObject
    exact hclear.removeFirst hi (by simp [State.clearLastLock]) hr

theorem State.Good.unlockAll (hg : s.Good) (fileObject : F) (processId : P) (key : Option ℕ) :
    (unlockAll fileObject processId key s).2.Good := by
  rw [FileLock.unlockAll]
  cases hi : s.lockInformation with
  | none => exact hg
  | some info =>
    have hclear := hg.clearLastLock fileObject
    have hgi := hg.info info hi
    have hlast : (s.clearLastLock fileObject).lastLock fileObject = none := by simp [State.clearLastLock]
    refine hclear.shrink hi hlast (hgi.sublist filter_sublist ?_ ?_) filter_sublist ?_
    · exact fun irp hm => (mem_filter.mp hm).1
    · exact fun lock hm => hgi.lowest lock (mem_filter.mp hm).1
    · intro lock hm hne
      refine mem_filter.mpr ⟨hm, ?_⟩
      simp [unlockMatches, hne]

/-- **One step**: an event in order keeps the invariant. -/
theorem State.Good.step (hg : s.Good) {event : Event F P} (hok : event.Ok)
    (hin : event.InOrder s) (h : event.run routine s = some s') : s'.Good := by
  cases event with
  | lock request =>
    obtain rfl := Option.some.inj h
    exact hg.privateLock routine hok hin
  | grantWaiter => exact hg.grantWaiter hin h
  | unlockSingle request =>
    obtain rfl := Option.some.inj h
    exact hg.unlockSingle request
  | unlockAll fileObject processId key =>
    obtain rfl := Option.some.inj h
    exact hg.unlockAll fileObject processId key
  | resetLowest =>
    obtain rfl := Option.some.inj h
    exact hg.resetLowest
  | cancel cancelled =>
    obtain rfl := Option.some.inj h
    exact hg.cancel cancelled

/-- **Every run in order** keeps the invariant. -/
theorem Reachable.good (h : Reachable routine (fun s event => event.Ok ∧ event.InOrder s) s) : s.Good := by
  induction h with
  | init => exact good_init
  | step _ hallowed hrun ih => exact ih.step hallowed.1 hallowed.2 hrun

/-! ### Whole calls -/

theorem waiters_completeGranted (routine : Bool) (s : State F P) (irp : Irp F P) :
    (s.completeGranted routine irp).2.2.waiters = s.waiters := by
  have hremove : ∀ s' : State F P, (fsRtlPrivateRemoveLock s' irp.lockControl).waiters = s'.waiters := by
    intro s'
    rw [fsRtlPrivateRemoveLock]
    cases hi : s'.lockInformation with
    | none => rfl
    | some info =>
      simp only [State.waiters, hi, map_some, getD_some, LockInfo.removeFirst]
      split_ifs <;> rfl
  rw [State.completeGranted, fsRtlCompleteLockIrp]
  cases routine with
  | false => rfl
  | true =>
    cases irp.succeeds with
    | true => rfl
    | false =>
      simp only [if_true, Bool.false_eq_true, if_false, reduceCtorEq]
      exact hremove _

/-- Each grant takes one waiter off the list. -/
theorem grantWaiter_waiters (h : grantWaiter routine s = some s') : s'.waiters.length + 1 = s.waiters.length := by
  obtain ⟨info, hi, hmap⟩ := bind_eq_some_iff.mp h
  obtain ⟨⟨irp, link, rest⟩, hf, rfl⟩ := map_eq_some_iff.mp hmap
  obtain ⟨-, hperm⟩ := firstGranted_spec hf
  rw [waiters_completeGranted]
  simp only [State.waiters, State.grant, hi, map_some, getD_some]
  rw [hperm.length_eq, length_cons]

/-- No waiter has access. -/
def State.Settled (s : State F P) : Prop := ∀ irp ∈ s.waiters, accessGranted s.locks irp.lockControl = none

theorem firstGranted_eq_none {locks : List (Lock F P)} {waiters : List (Irp F P)} (h : firstGranted locks waiters = none) :
    ∀ irp ∈ waiters, accessGranted locks irp.lockControl = none := by
  induction waiters with
  | nil => simp
  | cons irp waiters ih =>
    rw [firstGranted] at h
    cases ha : accessGranted locks irp.lockControl with
    | some link => simp [ha] at h
    | none => exact forall_mem_cons.2 ⟨ha, ih (by simpa [ha] using h)⟩

theorem settled_of_grantWaiter (h : grantWaiter routine s = none) : s.Settled := by
  cases hi : s.lockInformation with
  | none => simp [State.Settled, State.waiters, hi]
  | some info =>
    have hnone := firstGranted_eq_none (map_eq_none_iff.1 (bind_eq_none_iff.1 h info hi))
    simpa [State.Settled, State.waiters, State.locks, hi] using hnone

/-- **The loop runs to its end**: each grant takes a waiter off the list. -/
theorem settled_grantWaiters (h : s.waiters.length ≤ n) : (grantWaiters routine n s).Settled := by
  fun_induction grantWaiters routine n s with
  | case1 s =>
    intro irp hm
    rw [List.eq_nil_of_length_eq_zero (Nat.le_zero.1 h)] at hm
    cases hm
  | case2 n s hg => exact settled_of_grantWaiter hg
  | case3 n s s' hg ih =>
    have := grantWaiter_waiters hg
    exact ih (by omega)

theorem settled_checkWaitingLocks (routine : Bool) (s : State F P) : (fsRtlPrivateCheckWaitingLocks routine s).Settled :=
  settled_grantWaiters (Nat.le_refl _)

/-- What some locks refuse, more locks refuse. -/
theorem accessGranted_none_mono {locks locks' : List (Lock F P)} (hs : SortedBy Lock.startingByte locks)
    (hs' : SortedBy Lock.startingByte locks') (hlen : 1 ≤ request.length) (hsub : ∀ lock ∈ locks, lock ∈ locks')
    (h : accessGranted locks request = none) : accessGranted locks' request = none := by
  have hmono : ∀ {blocks}, checkForAccess blocks locks request = none → checkForAccess blocks locks' request = none := by
    intro blocks hnone
    obtain ⟨lock, hl, hblocks⟩ := (checkForAccess_eq_none_iff hs hlen).1 hnone
    exact (checkForAccess_eq_none_iff hs' hlen).2 ⟨lock, hsub lock hl, hblocks⟩
  rw [accessGranted] at h ⊢
  split_ifs at h ⊢ <;> exact hmono h

/-- A request that no check for waiters follows lets none of them in. -/
theorem State.Settled.privateLock (hs : s.Settled) (hg : s.Good) {request : LockRequest F P} (hok : request.info.Ok)
    (hin : InOrder s.locks request.info) (h : (privateLock routine request s).1.checkForWaiters = false) :
    (FileLock.privateLock routine request s).2.Settled := by
  have hgi := hg.initialize.info _ rfl
  unfold FileLock.privateLock State.Settled at *
  dsimp only at h ⊢
  have hinfo : s.locks = (s.lockInformation.getD fsRtlPrivateInitializeFileLock).currentLocks ∧
      s.waiters = (s.lockInformation.getD fsRtlPrivateInitializeFileLock).waitingLocks := by
    cases hi : s.lockInformation <;> simp [State.locks, State.waiters, hi, fsRtlPrivateInitializeFileLock]
  rw [hinfo.1, hinfo.2] at hs
  rw [hinfo.1] at hin
  generalize s.lockInformation.getD fsRtlPrivateInitializeFileLock = info at hgi hs hin h ⊢
  cases ha : accessGranted info.currentLocks request.info with
  | some link =>
    have hp := accessGranted_placed hgi hok hin ha
    have hgrant : ∀ irp ∈ info.waitingLocks,
        accessGranted (fsRtlPrivateInsertLock info.currentLocks ⟨s.allocated, request.info⟩ link) irp.lockControl = none := by
      intro irp hm
      refine accessGranted_none_mono hgi.sorted (hgi.grant hok hp hgi.waiters).sorted (hgi.waiters irp hm).length ?_ (hs irp hm)
      exact fun lock hl => (hp.mem_iff lock).2 (.inr hl)
    cases hirp : request.theIrp with
    | none => exact hgrant
    | some irp =>
      rw [ha, hirp] at h
      dsimp only at h ⊢
      unfold State.completeGranted fsRtlCompleteLockIrp at h ⊢
      cases routine with
      | false => exact hgrant
      | true =>
        cases hsucc : irp.succeeds with
        | true => exact hgrant
        | false => simp [hsucc] at h
  | none =>
    cases hirp : request.theIrp with
    | none =>
      dsimp only
      split_ifs <;> exact hs
    | some irp =>
      dsimp only
      split_ifs
      · cases routine <;> exact hs
      · intro irp' hm
        rcases mem_append.1 hm with hm | hm
        · exact hs irp' hm
        · obtain ⟨b, -, rfl⟩ := map_eq_some_iff.1 hirp
          rwa [mem_singleton.1 hm]

theorem State.Settled.mapInfo (hs : s.Settled) {g : LockInfo F P → LockInfo F P}
    (hl : ∀ info, (g info).currentLocks = info.currentLocks)
    (hw : ∀ info, ∀ irp ∈ (g info).waitingLocks, irp ∈ info.waitingLocks) :
    State.Settled { s with lockInformation := s.lockInformation.map g } := by
  unfold State.Settled State.locks State.waiters at *
  cases hi : s.lockInformation with
  | none => simp
  | some info =>
    simp only [hi, map_some, getD_some] at hs ⊢
    exact fun irp hm => hl info ▸ hs irp (hw info irp hm)

section Calls

variable {routine : Bool} {allowed : State F P → Event F P → Prop} {s : State F P}

section

variable (h : Reachable routine allowed s)

include h

/-- The check for waiters is a run of grants. -/
theorem Reachable.checkWaitingLocks (hgrant : ∀ s, allowed s .grantWaiter) :
    Reachable routine allowed (fsRtlPrivateCheckWaitingLocks routine s) := by
  unfold fsRtlPrivateCheckWaitingLocks
  generalize s.waiters.length = n
  induction n generalizing s with
  | zero => exact h
  | succ n ih =>
    rw [grantWaiters]
    cases hg : grantWaiter routine s with
    | none => exact h
    | some s' => exact ih (h.step (hgrant s) hg)

theorem Reachable.lock (request : LockRequest F P) (hlock : allowed s (.lock request)) :
    Reachable routine allowed (privateLock routine request s).2 :=
  h.step hlock rfl

theorem Reachable.privateLock (hgrant : ∀ s, allowed s .grantWaiter)
    {request : LockRequest F P} (hlock : allowed s (.lock request)) :
    Reachable routine allowed (fsRtlPrivateLock routine request s).2 := by
  have hstep := h.lock request hlock
  unfold fsRtlPrivateLock
  dsimp only
  split_ifs
  · exact hstep.checkWaitingLocks hgrant
  · exact hstep

theorem Reachable.fastUnlockSingle (hgrant : ∀ s, allowed s .grantWaiter)
    {request : FileLockInfo F P} (hunlock : allowed s (.unlockSingle request)) :
    Reachable routine allowed (fsRtlFastUnlockSingle routine request s).2 := by
  have hstep : Reachable routine allowed (FileLock.unlockSingle request s).2 := h.step hunlock rfl
  unfold fsRtlFastUnlockSingle
  dsimp only
  split_ifs
  · exact hstep.checkWaitingLocks hgrant
  · exact hstep

theorem Reachable.fastUnlockAll (hgrant : ∀ s, allowed s .grantWaiter)
    (hreset : ∀ s, allowed s .resetLowest) {fileObject : F} {processId : P} {key : Option ℕ}
    (hunlock : allowed s (.unlockAll fileObject processId key)) :
    Reachable routine allowed (fsRtlPrivateFastUnlockAll routine fileObject processId key s).2 := by
  have hstep : Reachable routine allowed (FileLock.unlockAll fileObject processId key s).2 := h.step hunlock rfl
  unfold fsRtlPrivateFastUnlockAll
  dsimp only
  split_ifs
  · exact (hstep.checkWaitingLocks hgrant).step (hreset _) rfl
  · exact hstep

end

end Calls

/-- The states between the calls of a run of whole calls, with the events in order up to each lock request. -/
inductive BetweenCalls (routine : Bool) : State F P → Prop where
  | init : BetweenCalls routine fsRtlInitializeFileLock
  | lock {s : State F P} (request : LockRequest F P) : BetweenCalls routine s →
      Reachable routine (fun s event => event.Ok ∧ event.InOrder s) s → request.info.Ok → InOrder s.locks request.info →
      BetweenCalls routine (fsRtlPrivateLock routine request s).2
  | unlockSingle {s : State F P} (request : FileLockInfo F P) : BetweenCalls routine s →
      BetweenCalls routine (fsRtlFastUnlockSingle routine request s).2
  | unlockAll {s : State F P} (fileObject : F) (processId : P) (key : Option ℕ) : BetweenCalls routine s →
      BetweenCalls routine (fsRtlPrivateFastUnlockAll routine fileObject processId key s).2
  | cancel {s : State F P} (cancelled : Irp F P → Bool) : BetweenCalls routine s →
      BetweenCalls routine (fsRtlPrivateCancelFileLockIrp cancelled s)

/-- **No wake-up is lost**: between calls no waiter has access. -/
theorem betweenCalls_settled (h : BetweenCalls routine s) : s.Settled := by
  induction h with
  | init => exact fun _ hm => nomatch hm
  | lock request _ hreach hok hin ih =>
    unfold fsRtlPrivateLock
    dsimp only
    split_ifs with hcheck
    · exact settled_checkWaitingLocks routine _
    · exact ih.privateLock hreach.good hok hin (Bool.not_eq_true _ ▸ hcheck)
  | @unlockSingle s request _ ih =>
    unfold fsRtlFastUnlockSingle unlockSingle
    cases s.lockInformation.bind (·.removeFirst request) with
    | none => exact ih
    | some info => exact settled_checkWaitingLocks routine _
  | @unlockAll s fileObject processId key _ ih =>
    unfold fsRtlPrivateFastUnlockAll
    dsimp only
    cases hi : s.lockInformation with
    | none =>
      rw [unlockAll, hi]
      exact ih
    | some info =>
      rw [unlockAll, hi]
      exact (settled_checkWaitingLocks routine _).mapInfo (fun _ => rfl) fun _ _ hm => hm
  | cancel cancelled _ ih => exact ih.mapInfo (fun _ => rfl) fun _ _ hm => (mem_filter.1 hm).1

/-- Bytes 0 to 9 are locked, and a second request for them waits. -/
theorem betweenCalls_settled_waiter : (fsRtlPrivateLock true ⟨⟨0, 10, true, 0, 2, 0⟩, false, some (5, true)⟩
    (fsRtlPrivateLock true ⟨⟨0, 10, true, 0, 1, 0⟩, true, none⟩ (fsRtlInitializeFileLock : State ℕ ℕ)).2).2.Settled := by
  have hok : ∀ f, (⟨0, 10, true, 0, f, 0⟩ : FileLockInfo ℕ ℕ).Ok :=
    fun f => ⟨Int.le_refl 0, by simp, by simp [FileLockInfo.endingByte]⟩
  refine betweenCalls_settled (.lock _ (.lock _ .init .init (hok 1) nofun) ?_ (hok 2) nofun)
  exact Reachable.init.lock ⟨⟨0, 10, true, 0, 1, 0⟩, true, none⟩ ⟨hok 1, nofun⟩

/-! ### Exclusion -/

/-- A shared or exclusive request of a file object, by the fast call. -/
def fastRequest (startingByte length : ℤ) (exclusiveLock : Bool) (fileObject : ℕ) : LockRequest ℕ ℕ :=
  ⟨⟨startingByte, length, exclusiveLock, 0, fileObject, 0⟩, true, none⟩

/-- **Locks do not exclude one another**: three file objects take out a shared lock over
bytes 50 to 60, a shared lock over bytes 0 to 100 and an exclusive lock over bytes 10 to 20,
and all three are granted. -/
theorem exclusion_fails_out_of_order : ¬ ∀ s : State ℕ ℕ, Reachable false (fun _ event => event.Ok) s → s.Excludes := by
  intro hall
  have h₁ : Reachable false (fun _ event => event.Ok) (privateLock false (fastRequest 50 11 false 1) fsRtlInitializeFileLock).2 :=
    Reachable.init.lock _ ⟨by decide, by decide, by decide⟩
  have h₂ := h₁.lock (fastRequest 0 101 false 2) ⟨by decide, by decide, by decide⟩
  have h₃ := h₂.lock (fastRequest 10 11 true 3) ⟨by decide, by decide, by decide⟩
  -- the exclusive lock comes first, and the shared lock that it overlaps comes last
  have hpair := hall _ h₃ ⟨0, [⟨2, (fastRequest 10 11 true 3).info⟩, ⟨0, (fastRequest 50 11 false 1).info⟩,
    ⟨1, (fastRequest 0 101 false 2).info⟩], []⟩ (by rfl)
  have hcomp := (pairwise_cons.mp hpair).1 ⟨1, (fastRequest 0 101 false 2).info⟩ (by simp)
  rcases hcomp ⟨10, ⟨by decide, by decide⟩, by decide, by decide⟩ with ⟨hx, -⟩ | ⟨-, -, ⟨howner, -⟩, -⟩ | ⟨hx, -⟩
  · exact absurd hx (by decide)
  · exact absurd howner (by decide)
  · exact absurd hx (by decide)

/-- **Locks exclude one another in every run in order**: if no shared lock is granted over
the start of a lock behind its own, no two granted locks overlap when one of them is
exclusive, but for a shared lock under an exclusive one of the same owner. -/
theorem locks_exclude_in_order {routine : Bool} {s : State F P}
    (h : Reachable routine (fun s event => event.Ok ∧ event.InOrder s) s) : s.Excludes :=
  fun info hi => (h.good.info info hi).compatible

/-- An exclusive lock over bytes 0 to 100, a shared one of the same owner over bytes 50 to 60, an exclusive request over
bytes 90 to 110 that is refused, and an exclusive lock over bytes 200 to 210. -/
theorem locks_exclude_in_order_mixed :
    ∃ s : State ℕ ℕ, Reachable false (fun s event => event.Ok ∧ event.InOrder s) s ∧ s.locks.length = 3 ∧ s.Excludes := by
  have h₁ : Reachable false (fun s event => event.Ok ∧ event.InOrder s)
      (privateLock false (fastRequest 0 101 true 2) fsRtlInitializeFileLock).2 :=
    Reachable.init.lock _ ⟨⟨by decide, by decide, by decide⟩, nofun⟩
  have h₂ := h₁.lock (fastRequest 50 11 false 2) ⟨⟨by decide, by decide, by decide⟩, fun _ lock hl hlt => by
    have hlocks : lock = ⟨0, (fastRequest 0 101 true 2).info⟩ := mem_singleton.mp hl
    rw [hlocks] at hlt
    exact absurd hlt (by decide)⟩
  have h₃ := h₂.lock (fastRequest 90 21 true 1) ⟨⟨by decide, by decide, by decide⟩, nofun⟩
  have h₄ := h₃.lock (fastRequest 200 11 true 1) ⟨⟨by decide, by decide, by decide⟩, nofun⟩
  exact ⟨_, h₄, rfl, locks_exclude_in_order h₄⟩

end FileLock

end Nt365.FsRtl
