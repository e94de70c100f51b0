import Nt365.FsRtl.FileLockRuns
import Nt365.Library.Linked
import Nt365.Library.Loop

/-!
# Enumerating the locks of a file

`FsRtlGetNextFileLock` remembers the lock that it returned last by value, and goes on after the first lock of the list that
has this value. So each value has one successor, and an enumeration that ends has returned no value twice. The locks of a
list are enumerated exactly if no two of them are alike, which granting shared locks does not see to.
-/

namespace Nt365.FsRtl

open Nt365.Library List

namespace FileLock

variable {F P : Type*} [DecidableEq F] [DecidableEq P]

/-- The lock is the one last returned: all its attributes are. -/
def isLastReturned (last : FileLockInfo F P) (lock : Lock F P) : Bool :=
  last.startingByte = lock.startingByte ∧ last.length = lock.lockInfo.length ∧ last.key = lock.lockInfo.key ∧
    last.fileObject = lock.lockInfo.fileObject ∧ last.processId = lock.lockInfo.processId ∧
    last.exclusiveLock = lock.lockInfo.exclusiveLock

/-- The locks after the first one that was last returned: `none` if it is not found. -/
def continuation (last : FileLockInfo F P) : List (Lock F P) → Option (List (Lock F P))
  | [] => none
  | lock :: locks => if isLastReturned last lock then some locks else continuation last locks

/-- `FsRtlGetNextFileLock`: the lock that it returns, and `LastReturnedLock` after it. -/
def fsRtlGetNextFileLock (s : State F P) (lastReturnedLock : FileLockInfo F P) (restart : Bool) :
    Option (FileLockInfo F P) × FileLockInfo F P :=
  match s.lockInformation with
  | none => (none, lastReturnedLock)
  | some info =>
    let found := if restart then none else continuation lastReturnedLock info.currentLocks
    match found.getD info.currentLocks with
    | [] => (none, lastReturnedLock)
    | lock :: _ => (some lock.lockInfo, lock.lockInfo)

/-- An iteration of the caller's loop: the lock is processed and the next one is asked for. -/
def processLock (s : State F P) :
    Option (FileLockInfo F P) × FileLockInfo F P × List (FileLockInfo F P) →
      Except Unit ((Option (FileLockInfo F P) × FileLockInfo F P × List (FileLockInfo F P)) ⊕ List (FileLockInfo F P))
  | (none, _, processed) => .ok (.inr processed)
  | (some p, last, processed) =>
    let (next, last) := fsRtlGetNextFileLock s last false
    .ok (.inl (next, last, processed ++ [p]))

/-- The caller's loop: the locks that it processes. -/
def enumerateFileLocks (fuel : ℕ) (s : State F P) (lastReturnedLock : FileLockInfo F P) : Except Unit (List (FileLockInfo F P)) :=
  let (p, last) := fsRtlGetNextFileLock s lastReturnedLock true
  loop () (processLock s) fuel (p, last, [])

variable {last : FileLockInfo F P} {lock : Lock F P} {s : State F P} {pre post : List (Lock F P)}

theorem isLastReturned_iff : isLastReturned last lock = true ↔ last = lock.lockInfo := by
  unfold isLastReturned
  rw [decide_eq_true_iff]
  constructor
  · rintro ⟨hstart, hlength, hkey, hobject, hprocess, hexclusive⟩
    obtain ⟨_, _, _, _, _, _⟩ := last
    obtain ⟨_, _, _, _, _, _, _⟩ := lock
    simp_all
  · rintro rfl
    exact ⟨rfl, rfl, rfl, rfl, rfl, rfl⟩

/-! ### The successor of a value -/

/-- What is returned after a value. -/
def nextReturned (s : State F P) (p : Option (FileLockInfo F P)) : Option (FileLockInfo F P) :=
  p.bind fun last => (fsRtlGetNextFileLock s last false).1

theorem lastReturned_eq {p : FileLockInfo F P} {restart : Bool} (h : (fsRtlGetNextFileLock s last restart).1 = some p) :
    (fsRtlGetNextFileLock s last restart).2 = p := by
  unfold fsRtlGetNextFileLock at h ⊢
  cases hinfo : s.lockInformation with
  | none =>
    rw [hinfo] at h
    cases h
  | some info =>
    rw [hinfo] at h
    dsimp only at h ⊢
    split at h
    · cases h
    · exact Option.some.inj h

theorem returned_restart (s : State F P) (last : FileLockInfo F P) :
    (fsRtlGetNextFileLock s last true).1 = (s.locks.map Lock.lockInfo).head? := by
  unfold fsRtlGetNextFileLock State.locks
  cases s.lockInformation with
  | none => rfl
  | some info =>
    cases hlocks : info.currentLocks with
    | nil => simp [hlocks]
    | cons lock locks => simp [hlocks]

/-- In a list without equal locks the search stops at the lock itself. -/
theorem continuation_append
    (hnodup : ((pre ++ lock :: post).map Lock.lockInfo).Nodup) : continuation lock.lockInfo (pre ++ lock :: post) = some post := by
  induction pre with
  | nil => exact if_pos (isLastReturned_iff.mpr rfl)
  | cons first pre ih =>
    rw [cons_append, map_cons, nodup_cons] at hnodup
    rw [cons_append, continuation, if_neg]
    · exact ih hnodup.2
    · intro hfirst
      rw [isLastReturned_iff] at hfirst
      refine hnodup.1 ?_
      rw [← hfirst]
      exact mem_map_of_mem (mem_append_right _ mem_cons_self)

theorem nextReturned_append (hlocks : s.locks = pre ++ lock :: post)
    (hnodup : (s.locks.map Lock.lockInfo).Nodup) : nextReturned s (some lock.lockInfo) = (post.map Lock.lockInfo).head? := by
  unfold nextReturned fsRtlGetNextFileLock
  rw [hlocks] at hnodup
  cases hinfo : s.lockInformation with
  | none =>
    unfold State.locks at hlocks
    rw [hinfo] at hlocks
    exact absurd hlocks.symm (append_ne_nil_of_right_ne_nil _ (cons_ne_nil _ _))
  | some info =>
    have hcurrent : info.currentLocks = pre ++ lock :: post := by
      unfold State.locks at hlocks
      rwa [hinfo] at hlocks
    rw [Option.bind_some]
    dsimp only
    rw [hcurrent, if_neg Bool.false_ne_true, continuation_append hnodup, Option.getD_some]
    cases post with
    | nil => rfl
    | cons next post => rfl

/-- Without equal locks, the values lead through the list. -/
theorem linked_locks (hnodup : (s.locks.map Lock.lockInfo).Nodup)
    (hlocks : s.locks = pre ++ post) :
    Linked (nextReturned s) (post.map Lock.lockInfo).head? ((post.map Lock.lockInfo).map some) none := by
  induction post generalizing pre with
  | nil => rfl
  | cons lock post ih =>
    refine ⟨rfl, ?_⟩
    rw [nextReturned_append hlocks hnodup]
    exact ih (show s.locks = pre ++ [lock] ++ post by rw [hlocks, append_assoc]; rfl)

/-! ### The loop -/

/-- The loop ends exactly if the values lead to `NULL`, and has then processed those on the way. -/
theorem loop_processLock_iff {p : Option (FileLockInfo F P)}
    {processed result : List (FileLockInfo F P)} (hp : ∀ q, p = some q → last = q) :
    (∃ fuel, loop () (processLock s) fuel (p, last, processed) = .ok result) ↔
      ∃ rest, result = processed ++ rest ∧ Linked (nextReturned s) p (rest.map some) none := by
  constructor
  · rintro ⟨fuel, hloop⟩
    induction fuel generalizing p last processed with
    | zero => cases hloop
    | succ fuel ih =>
      cases p with
      | none =>
        rw [loop_leave (b := processed) rfl] at hloop
        obtain rfl := Except.ok.inj hloop
        exact ⟨[], (append_nil _).symm, rfl⟩
      | some q =>
        obtain rfl := hp q rfl
        rw [loop_go (t := ((fsRtlGetNextFileLock s last false).1, (fsRtlGetNextFileLock s last false).2, processed ++ [last]))
          rfl] at hloop
        obtain ⟨rest, hresult, hlinked⟩ := ih (fun r hr => lastReturned_eq hr) hloop
        refine ⟨last :: rest, ?_, rfl, hlinked⟩
        rw [hresult, append_assoc]
        rfl
  · rintro ⟨rest, rfl, hlinked⟩
    refine ⟨rest.length + 1, ?_⟩
    induction rest generalizing p last processed with
    | nil =>
      obtain rfl : p = none := hlinked
      rw [loop_leave (b := processed) rfl, append_nil]
    | cons q rest ih =>
      obtain ⟨rfl, hrest⟩ := hlinked
      obtain rfl := hp q rfl
      rw [length_cons,
        loop_go (t := ((fsRtlGetNextFileLock s last false).1, (fsRtlGetNextFileLock s last false).2, processed ++ [last])) rfl,
        ih (fun r hr => lastReturned_eq hr) hrest, append_assoc]
      rfl

theorem enumerateFileLocks_iff {result : List (FileLockInfo F P)} :
    (∃ fuel, enumerateFileLocks fuel s last = .ok result) ↔
      Linked (nextReturned s) (s.locks.map Lock.lockInfo).head? (result.map some) none := by
  unfold enumerateFileLocks
  dsimp only
  rw [loop_processLock_iff fun q hq => lastReturned_eq hq, returned_restart]
  constructor
  · rintro ⟨rest, rfl, hlinked⟩
    exact hlinked
  · intro hlinked
    exact ⟨result, rfl, hlinked⟩

/-- **The enumeration is complete and ends exactly if no two locks are alike.** -/
theorem enumeration_complete_iff (s : State F P) (lastReturnedLock : FileLockInfo F P) :
    (∃ fuel, enumerateFileLocks fuel s lastReturnedLock = .ok (s.locks.map Lock.lockInfo)) ↔
      (s.locks.map Lock.lockInfo).Nodup := by
  rw [enumerateFileLocks_iff]
  constructor
  · intro hlinked
    have hnodup := hlinked.nodup (by simp)
    exact hnodup.of_map _
  · intro hnodup
    exact linked_locks hnodup (show s.locks = [] ++ s.locks from rfl)

/-- **The enumeration does not end**: a file object takes out the same shared lock twice, and both are granted. -/
theorem enumeration_fails_twice :
    ∃ s : State ℕ ℕ, Reachable false (fun _ event => event.Ok) s ∧ s.locks.length = 2 ∧
      ∀ last fuel result, enumerateFileLocks fuel s last ≠ .ok result := by
  have h₁ : Reachable false (fun _ event => event.Ok) (privateLock false (fastRequest 0 10 false 1) fsRtlInitializeFileLock).2 :=
    Reachable.init.lock _ ⟨by decide, by decide, by decide⟩
  have h₂ := h₁.lock (fastRequest 0 10 false 1) ⟨by decide, by decide, by decide⟩
  refine ⟨_, h₂, rfl, fun last fuel result hend => ?_⟩
  have hlinked := enumerateFileLocks_iff.mp ⟨fuel, hend⟩
  -- after the lock comes its like, so that no number of steps arrives at `NULL`
  induction result generalizing fuel with
  | nil => cases hlinked
  | cons q rest ih =>
    obtain ⟨heq, hrest⟩ := hlinked
    rw [← heq] at hrest
    obtain ⟨fuel', hend'⟩ := enumerateFileLocks_iff.mpr hrest
    exact ih fuel' hend' hrest

end FileLock

end Nt365.FsRtl
