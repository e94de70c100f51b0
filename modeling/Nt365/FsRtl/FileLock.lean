import Nt365.Library.SortedWalk

/-!
# Byte range file locks

The file lock package (`FSRTL/FILELOCK.C`, built with `SINGLE_QUEUE`) keeps the granted
locks of a file on one list, "ordered according to the starting byte of the lock", and the
requests that wait for a lock on another. Callers see to it that calls on one `FILE_LOCK`
do not overlap in time.

## The model

Offsets are integers; `LowestLockOffset` is the only 32-bit one. A `LOCK` record is
numbered by the order of its allocation, which stands for its address: `LastLock` of a file
object points to one. An IRP carries what the file system's completion routine, if there is
one, returns for it. A link into the list of locks is the number of locks before it, and
`none` is the `NULL` link. The pool never runs out, and an unlock routine leaves the locks
alone.
-/

namespace Nt365.FsRtl

open Nt365.Library

namespace FileLock

/-- `FILE_LOCK_INFO`: a range, its kind and its owner. -/
structure FileLockInfo (F P : Type*) where
  startingByte : ℤ
  length : ℤ
  exclusiveLock : Bool
  key : ℕ
  fileObject : F
  processId : P
deriving DecidableEq

/-- `EndingByte`, the last byte of the range. -/
def FileLockInfo.endingByte {F P : Type*} (info : FileLockInfo F P) : ℤ := info.startingByte + info.length - 1

/-- `LOCK`: a granted lock. -/
structure Lock (F P : Type*) where
  id : ℕ
  lockInfo : FileLockInfo F P
deriving DecidableEq

/-- A lock IRP, with its address and what the completion routine returns for it. -/
structure Irp (F P : Type*) where
  lockControl : FileLockInfo F P
  address : ℕ
  succeeds : Bool
deriving DecidableEq

/-- `LOCK_INFO`, with its one lock queue. -/
structure LockInfo (F P : Type*) where
  lowestLockOffset : ℤ
  currentLocks : List (Lock F P)
  waitingLocks : List (Irp F P)

/-- A `FILE_LOCK`, the `LastLock` of each file object, and the locks allocated so far. -/
structure State (F P : Type*) where
  lockInformation : Option (LockInfo F P)
  lastLock : F → Option (Lock F P)
  allocated : ℕ

/-- `FsRtlInitializeFileLock`. -/
def fsRtlInitializeFileLock {F P : Type*} : State F P := ⟨none, fun _ => none, 0⟩

/-- `FsRtlPrivateInitializeFileLock`. -/
def fsRtlPrivateInitializeFileLock {F P : Type*} : LockInfo F P := ⟨0xffffffff, [], []⟩

inductive Status where
  | success
  | pending
  | lockNotGranted
  | rangeNotLocked
  | completionFailed
deriving DecidableEq

variable {F P : Type*} [DecidableEq F] [DecidableEq P]

abbrev Lock.startingByte (lock : Lock F P) : ℤ := lock.lockInfo.startingByte

abbrev Lock.endingByte (lock : Lock F P) : ℤ := lock.lockInfo.endingByte

/-- The file object, process and key match. -/
def FileLockInfo.owns (info : FileLockInfo F P) (fileObject : F) (processId : P) (key : ℕ) : Bool :=
  info.fileObject = fileObject ∧ info.processId = processId ∧ info.key = key

/-! ### Access to a range -/

variable (request : FileLockInfo F P)

/-- An exclusive lock is refused by any lock that overlaps it. -/
def blocksExclusive (lock : Lock F P) : Bool :=
  request.startingByte ≤ lock.endingByte

/-- A shared lock is refused by another owner's exclusive lock that overlaps it. -/
def blocksShared (lock : Lock F P) : Bool :=
  (lock.lockInfo.exclusiveLock ∧ request.startingByte ≤ lock.endingByte) ∧
    ¬ lock.lockInfo.owns request.fileObject request.processId request.key

/-- The two access checks: `none` if access is refused, and otherwise the link after which
the lock goes. -/
def checkForAccess (blocks : Lock F P → Bool) (locks : List (Lock F P)) (request : FileLockInfo F P) : Option (Option ℕ) :=
  if locks = [] then some (some 0)
  else if request.length = 0 then some none
  else (walk Lock.startingByte blocks request.endingByte locks 0).map some

variable (locks : List (Lock F P))

def fsRtlPrivateCheckForExclusiveLockAccess (request : FileLockInfo F P) : Option (Option ℕ) :=
  checkForAccess (blocksExclusive request) locks request

def fsRtlPrivateCheckForSharedLockAccess (request : FileLockInfo F P) : Option (Option ℕ) :=
  checkForAccess (blocksShared request) locks request

/-- The check that `FsRtlPrivateLock` and `FsRtlPrivateCheckWaitingLocks` make. -/
def accessGranted (request : FileLockInfo F P) : Option (Option ℕ) :=
  if request.exclusiveLock then fsRtlPrivateCheckForExclusiveLockAccess locks request
  else fsRtlPrivateCheckForSharedLockAccess locks request

/-- The search of `FsRtlPrivateInsertLock` with a `NULL` link. -/
def insertBefore (lock : Lock F P) : List (Lock F P) → List (Lock F P)
  | [] => [lock]
  | next :: locks =>
    if lock.startingByte ≤ next.startingByte then lock :: next :: locks else next :: insertBefore lock locks

def fsRtlPrivateInsertLock (lock : Lock F P) : Option ℕ → List (Lock F P)
  | some link => locks.take link ++ lock :: locks.drop link
  | none => insertBefore lock locks

/-! ### Granting and releasing -/

/-- The lowest offset that the first lock of the list stands for. -/
def lowestOffset : List (Lock F P) → ℤ
  | [] => 0xffffffff
  | lock :: _ => if 0 ≤ lock.startingByte ∧ lock.startingByte < 0x100000000 then lock.startingByte else 0xffffffff

variable (s : State F P)

/-- A lock is allocated, put in the list and made its file object's last lock. -/
def State.grant (info : LockInfo F P) (request : FileLockInfo F P) (link : Option ℕ) : State F P :=
  let lock : Lock F P := ⟨s.allocated, request⟩
  { lockInformation := some { info with
      lowestLockOffset :=
        if request.startingByte < info.lowestLockOffset then request.startingByte % 0x100000000 else info.lowestLockOffset
      currentLocks := fsRtlPrivateInsertLock info.currentLocks lock link }
    lastLock := fun fileObject => if fileObject = request.fileObject then some lock else s.lastLock fileObject
    allocated := s.allocated + 1 }

/-- The lock is the one that is to be removed. -/
def matchesLock (lock : Lock F P) : Bool :=
  lock.lockInfo.owns request.fileObject request.processId request.key ∧
    lock.startingByte = request.startingByte ∧ lock.lockInfo.length = request.length

/-- The first lock that matches is taken out, and the lowest offset follows if it was the
first of all: `none` if no lock matches. -/
def LockInfo.removeFirst (info : LockInfo F P) (request : FileLockInfo F P) : Option (LockInfo F P) :=
  if info.currentLocks.any (matchesLock request) then
    some { info with
      lowestLockOffset :=
        if info.currentLocks.head?.any (matchesLock request) then lowestOffset info.currentLocks.tail
        else info.lowestLockOffset
      currentLocks := info.currentLocks.eraseP (matchesLock request) }
  else none

/-- `FsRtlPrivateRemoveLock`, up to its check for waiters. -/
def fsRtlPrivateRemoveLock (request : FileLockInfo F P) : State F P :=
  match s.lockInformation with
  | none => s
  | some info => { s with lockInformation := some ((info.removeFirst request).getD info) }

/-- `FileObject->LastLock = NULL`. -/
def State.clearLastLock (fileObject : F) : State F P :=
  { s with lastLock := fun f => if f = fileObject then none else s.lastLock f }

variable (routine : Bool)

/-- `FsRtlCompleteLockIrp` on the IRP of a lock request: with a completion routine, the file
object's last lock is forgotten and the routine has the last word. -/
def fsRtlCompleteLockIrp (s : State F P) (irp : Irp F P) (status : Status) : Status × State F P :=
  if routine then
    (if irp.succeeds then .success else .completionFailed, s.clearLastLock irp.lockControl.fileObject)
  else (status, s)

/-- A granted request is completed, and its lock removed again if that fails. The flag
tells that it was. -/
def State.completeGranted (s : State F P) (irp : Irp F P) : Status × Bool × State F P :=
  let (newStatus, s) := fsRtlCompleteLockIrp routine s irp .success
  if newStatus = .success then (newStatus, false, s) else (newStatus, true, fsRtlPrivateRemoveLock s irp.lockControl)

/-! ### Lock requests -/

/-- What is asked of `FsRtlPrivateLock`; the fast call has no IRP. -/
structure LockRequest (F P : Type*) where
  info : FileLockInfo F P
  failImmediately : Bool
  irp : Option (ℕ × Bool)

/-- The IRP of a request, if it has one. -/
def LockRequest.theIrp (request : LockRequest F P) : Option (Irp F P) :=
  request.irp.map fun irp => ⟨request.info, irp.1, irp.2⟩

/-- What `FsRtlPrivateLock` returns, with its `Iosb` where it sets it; `checkForWaiters`
tells that its last act is to look at the waiters. -/
structure LockResult where
  results : Bool
  status : Option Status
  checkForWaiters : Bool
deriving DecidableEq

/-- `FsRtlPrivateLock`, up to the check for waiters after a failed completion. -/
def privateLock (request : LockRequest F P) (s : State F P) : LockResult × State F P :=
  let info := s.lockInformation.getD fsRtlPrivateInitializeFileLock
  let s := { s with lockInformation := some info }
  match accessGranted info.currentLocks request.info, request.theIrp with
  | some link, none => (⟨true, some .success, false⟩, s.grant info request.info link)
  | some link, some irp =>
    let (status, removed, s) := (s.grant info request.info link).completeGranted routine irp
    (⟨true, some status, removed⟩, s)
  | none, none =>
    if request.failImmediately then (⟨true, some .lockNotGranted, false⟩, s) else (⟨false, none, false⟩, s)
  | none, some irp =>
    if request.failImmediately then
      let (status, s) := fsRtlCompleteLockIrp routine s irp .lockNotGranted
      (⟨true, some status, false⟩, s)
    else
      (⟨true, some .pending, false⟩,
        { s with lockInformation := some { info with waitingLocks := info.waitingLocks ++ [irp] } })

/-! ### Waiters -/

/-- The first waiter that has access now, with its link and the waiters left. -/
def firstGranted (locks : List (Lock F P)) : List (Irp F P) → Option (Irp F P × Option ℕ × List (Irp F P))
  | [] => none
  | irp :: waiters =>
    match accessGranted locks irp.lockControl with
    | some link => some (irp, link, waiters)
    | none => (firstGranted locks waiters).map fun (irp', link, rest) => (irp', link, irp :: rest)

/-- The loop of `FsRtlPrivateCheckWaitingLocks` up to its next grant, after which it starts
over; `none` if there is none. -/
def grantWaiter (s : State F P) : Option (State F P) :=
  s.lockInformation.bind fun info =>
    (firstGranted info.currentLocks info.waitingLocks).map fun (irp, link, waiters) =>
      ((s.grant { info with waitingLocks := waiters } irp.lockControl link).completeGranted routine irp).2.2

/-- Each grant takes a waiter off the list, so their number bounds the grants. -/
def grantWaiters (routine : Bool) : ℕ → State F P → State F P
  | 0, s => s
  | n + 1, s =>
    match grantWaiter routine s with
    | none => s
    | some s' => grantWaiters routine n s'

def State.waiters : List (Irp F P) := (s.lockInformation.map LockInfo.waitingLocks).getD []

def fsRtlPrivateCheckWaitingLocks (s : State F P) : State F P :=
  grantWaiters routine s.waiters.length s

def fsRtlPrivateLock (request : LockRequest F P) (s : State F P) : LockResult × State F P :=
  let (result, s) := privateLock routine request s
  (result, if result.checkForWaiters then fsRtlPrivateCheckWaitingLocks routine s else s)

/-! ### Unlocking -/

/-- `FsRtlFastUnlockSingle`, up to its check for waiters. The code means to forget the file
object's last lock only if it is the one removed, but assigns where it compares, so that it
always does. -/
def unlockSingle (s : State F P) : Status × State F P :=
  match s.lockInformation.bind (·.removeFirst request) with
  | none => (.rangeNotLocked, s)
  | some info => (.success, { s with lockInformation := some info }.clearLastLock request.fileObject)

def fsRtlFastUnlockSingle (request : FileLockInfo F P) (s : State F P) : Status × State F P :=
  let (status, s) := unlockSingle request s
  (status, if status = .success then fsRtlPrivateCheckWaitingLocks routine s else s)

/-- The locks and waiters that `FsRtlPrivateFastUnlockAll` frees; `none` for any key. -/
def unlockMatches (fileObject : F) (processId : P) (key : Option ℕ) (info : FileLockInfo F P) : Bool :=
  info.fileObject = fileObject ∧ info.processId = processId ∧ ∀ k ∈ key, info.key = k

/-- `FsRtlPrivateFastUnlockAll`, up to its check for waiters. A scan that starts over passes
the locks that did not match once more. -/
def unlockAll (fileObject : F) (processId : P) (key : Option ℕ) (s : State F P) : Status × State F P :=
  match s.lockInformation with
  | none => (.rangeNotLocked, s)
  | some info =>
    (.success, { s with lockInformation := some { info with
        currentLocks := info.currentLocks.filter fun lock => !unlockMatches fileObject processId key lock.lockInfo
        waitingLocks := info.waitingLocks.filter fun irp =>
          !unlockMatches fileObject processId key irp.lockControl } }.clearLastLock
      fileObject)

/-- The last act of `FsRtlPrivateFastUnlockAll`. -/
def State.resetLowest : State F P :=
  { s with lockInformation := s.lockInformation.map fun info =>
      { info with lowestLockOffset := lowestOffset info.currentLocks } }

def fsRtlPrivateFastUnlockAll (fileObject : F) (processId : P) (key : Option ℕ) (s : State F P) : Status × State F P :=
  let (status, s) := unlockAll fileObject processId key s
  (status, if status = .success then (fsRtlPrivateCheckWaitingLocks routine s).resetLowest else s)

def fsRtlFastUnlockAll (fileObject : F) (processId : P) (s : State F P) : Status × State F P :=
  fsRtlPrivateFastUnlockAll routine fileObject processId none s

def fsRtlFastUnlockAllByKey (fileObject : F) (processId : P) (key : ℕ) (s : State F P) : Status × State F P :=
  fsRtlPrivateFastUnlockAll routine fileObject processId (some key) s

/-- `FsRtlPrivateCancelFileLockIrp`: the cancelled waiters leave the queue. -/
def fsRtlPrivateCancelFileLockIrp (cancelled : Irp F P → Bool) (s : State F P) : State F P :=
  { s with lockInformation := s.lockInformation.map fun info =>
      { info with waitingLocks := info.waitingLocks.filter fun irp => !cancelled irp } }

end FileLock

end Nt365.FsRtl
