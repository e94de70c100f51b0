import Nt365.Library.FreeList
import Nt365.Library.Word
import Mathlib.Algebra.Ring.Nat
import Mathlib.Data.Vector.Defs

/-!
# Handle tables

The tables of `HANDLE.C`. A table is a block of paged pool with entries of `2 ^ log` words each. The low bit
of an entry's first word is clear while the entry is allocated; while it is free the bit is set and the word
is the tagged address of the next free entry. A table that has no free entry is copied to a larger block.

Words are numbers, and arithmetic on counts, sizes and addresses is modulo `2 ^ 32`, as that of `ULONG`. Whether
the pool has memory and a quota suffices is answered anew at each call (`Supply`). An access outside the block that
was allocated is a fault, so that no property is proved of what happens after one.

The locks are left out: each routine holds the table's for its whole run.
-/

namespace Nt365.Ex.Handle

open Nt365.Library

inductive Fault
  | nullPointer
  | outOfBlock
deriving DecidableEq

/-! ### Tagged pointers -/

/-- `TestFreePointer`: the bit `HANDLE_FREE_BIT`. -/
def testFreePointer (p : ℕ) : Bool := p % 2 = 1

/-- `GetFreePointer`: the pointer with the bit cleared. -/
def getFreePointer (p : ℕ) : ℕ := p / 2 * 2

/-- `SetFreePointer`: the pointer with the bit set. -/
def setFreePointer (p : ℕ) : ℕ := p / 2 * 2 + 1

/-- `HANDLE_TO_INDEX`. -/
def handleToIndex (h : ℕ) : ℕ := sub32 h 1

/-- `INDEX_TO_HANDLE`. -/
def indexToHandle (i : ℕ) : ℕ := add32 i 1

/-! ### Blocks of entries -/

/-- An entry: `Pointer[0]`, which is `Next` while the entry is free, and its other words. -/
structure Entry (log : ℕ) where
  pointer : ℕ
  rest : Vector ℕ (2 ^ log - 1)
deriving DecidableEq

variable {log : ℕ}

/-- The entry after `RtlZeroMemory`. -/
def Entry.zero : Entry log := ⟨0, Vector.replicate _ 0⟩

/-- The bytes of `count` entries, `count << (LogSizeTableEntry + LOG_SIZE_POINTER)` without the loss of bits. -/
def bytes (log count : ℕ) : ℕ := count * 2 ^ (log + 2)

/-- A block of pool memory, as the entries it has room for. -/
structure Block (log : ℕ) where
  address : ℕ
  entries : List (Entry log)
deriving DecidableEq

namespace Block

variable (b : Block log)

def entry (i : ℕ) : Entry log := b.entries.getD i .zero

def set (i : ℕ) (e : Entry log) : Block log := { b with entries := b.entries.set i e }

/-- Which entry is at an address. -/
def index (p : ℕ) : Except Fault ℕ :=
  let offset := sub32 p b.address
  if offset % bytes log 1 = 0 ∧ offset / bytes log 1 < b.entries.length then .ok (offset / bytes log 1)
  else .error .outOfBlock

def read (p : ℕ) : Except Fault (Entry log) := do
  let i ← b.index p
  return b.entry i

def write (p : ℕ) (e : Entry log) : Except Fault (Block log) := do
  let i ← b.index p
  return b.set i e

/-- `RtlZeroMemory` on whole entries: `n` bytes at an offset. -/
def zeroMemory (offset n : ℕ) : Except Fault (Block log) :=
  if offset + n ≤ bytes log b.entries.length then
    .ok { b with entries := b.entries.mapIdx fun i e => if offset ≤ bytes log i ∧ bytes log i < offset + n then .zero else e }
  else .error .outOfBlock

/-- `RtlMoveMemory` on whole entries: the first `n` bytes from another block. -/
def moveMemory (source : Block log) (n : ℕ) : Except Fault (Block log) :=
  if n ≤ bytes log b.entries.length ∧ n ≤ bytes log source.entries.length then
    .ok { b with entries := b.entries.mapIdx fun i e => if bytes log i < n then source.entry i else e }
  else .error .outOfBlock

/-- An entry made the first free one: `Entry->Next = FreeEntries; FreeEntries = SetFreePointer(Entry)`. -/
def pushFree (free p : ℕ) : Except Fault (Block log × ℕ) := do
  let e ← b.read p
  let b ← b.write p { e with pointer := free }
  return (b, setFreePointer p)

end Block

/-! ### Allocation -/

/-- What the system grants during a call: the pool block for a table header, the quota for it, the quota for the
entries, and the pool block for them. A block is where the pool puts blocks and has the size that was asked for;
what it holds is left over. -/
structure Supply (log : ℕ) where
  header : Bool
  headerQuota : Bool
  quota : Bool
  alloc : ℕ → Option (Block log)
  alloc_sound : ∀ n b, alloc n = some b →
    0 < b.address ∧ b.address < 4294967296 ∧ 8 ∣ b.address ∧ b.address + n ≤ 4294967296 ∧ b.entries.length = n / bytes log 1

/-- `HANDLETABLE`, with the memory that `TableEntries` points to. -/
structure HandleTable (log : ℕ) where
  processToChargeQuota : Bool
  countTableEntries : ℕ
  countTableEntriesToGrowBy : ℕ
  freeEntries : ℕ
  tableEntries : Option (Block log)
deriving DecidableEq

variable (r : Supply log)

/-- `AllocateHandleTable`. -/
def allocateHandleTable (process : Bool) (countTableEntries countTableEntriesToGrowBy : ℕ) : Option (HandleTable log) :=
  if r.header then
    if process && !r.headerQuota then none
    else some
      { processToChargeQuota := process
        countTableEntriesToGrowBy := countTableEntriesToGrowBy
        countTableEntries := countTableEntries
        freeEntries := setFreePointer 0
        tableEntries := none }
  else none

/-- The loop `while (CountFreeEntries--)`. -/
def threadEntries : ℕ → ℕ → Block log → ℕ → Except Fault (Block log × ℕ)
  | 0, _, b, free => .ok (b, free)
  | n + 1, p, b, free => do
    let (b, free) ← b.pushFree free p
    threadEntries n (add32 p (bytes log 1)) b free

/-- The old entries moved to the new block. -/
def moveOld (b : Block log) (oldCountBytes : ℕ) : Option (Block log) → Except Fault (Block log)
  | none => .ok b
  | some old => b.moveMemory old oldCountBytes

/-- `AllocateHandleTableEntries`. -/
def allocateHandleTableEntries (t : HandleTable log) (oldHandleTableEntries : Option (Block log))
    (oldCountTableEntries : ℕ) : Except Fault (Bool × HandleTable log) :=
  let oldCountBytes := u32 (bytes log oldCountTableEntries)
  let newCountBytes := u32 (bytes log t.countTableEntries)
  if t.processToChargeQuota && !r.quota then .ok (false, t)
  else
    match r.alloc newCountBytes with
    | none => .ok (false, { t with tableEntries := none })
    | some b => do
      let b ← b.zeroMemory oldCountBytes (sub32 newCountBytes oldCountBytes)
      let countFreeEntries := sub32 t.countTableEntries oldCountTableEntries
      let (b, free) ← threadEntries countFreeEntries (add32 b.address oldCountBytes) b t.freeEntries
      let b ← moveOld b oldCountBytes oldHandleTableEntries
      return (true, { t with freeEntries := free, tableEntries := some b })

variable (smallSystem : Bool)

/-- `ExpDefaultHandleTableSize` and `ExpDefaultHandleTableGrowth`, as `ExInitializeHandleTablePackage` sets them. -/
def expDefaultHandleTable : ℕ := if smallSystem then 8 else 16

/-- A count, or the default if it is zero. -/
def countOrDefault (count : ℕ) : ℕ := if count = 0 then expDefaultHandleTable smallSystem else count

/-- `ExCreateHandleTable`. -/
def exCreateHandleTable (r : Supply log) (process : Bool) (initialCountTableEntries countTableEntriesToGrowBy : ℕ) :
    Except Fault (Option (HandleTable log)) :=
  match allocateHandleTable r process (countOrDefault smallSystem initialCountTableEntries)
      (countOrDefault smallSystem countTableEntriesToGrowBy) with
  | none => .ok none
  | some t => do
    let (allocated, t) ← allocateHandleTableEntries r t none 0
    return if allocated then some t else none

variable (t : HandleTable log)

/-- The block of a table that has one. -/
def HandleTable.block : Except Fault (Block log) :=
  match t.tableEntries with
  | some b => .ok b
  | none => .error .nullPointer

/-- `DupOkay`: what the procedure says of an entry, or `TRUE` if there is none. -/
def dupOkay (dupHandleProcedure : Option (Entry log → Bool)) (e : Entry log) : Bool :=
  match dupHandleProcedure with
  | some procedure => procedure e
  | none => true

/-- The loop of `ExDupHandleTable`: an entry stays if it is allocated and the procedure, if there is one, accepts it. -/
def dupEntries (dupHandleProcedure : Option (Entry log → Bool)) : ℕ → ℕ → Block log → ℕ → Except Fault (Block log × ℕ)
  | 0, _, b, free => .ok (b, free)
  | n + 1, p, b, free => do
    let e ← b.read p
    let (b, free) ← if testFreePointer e.pointer || !dupOkay dupHandleProcedure e then b.pushFree free p else .ok (b, free)
    dupEntries dupHandleProcedure n (add32 p (bytes log 1)) b free

/-- `ExDupHandleTable`. -/
def exDupHandleTable (process : Bool) (t : HandleTable log) (dupHandleProcedure : Option (Entry log → Bool)) :
    Except Fault (Option (HandleTable log)) :=
  match allocateHandleTable r process t.countTableEntries t.countTableEntriesToGrowBy with
  | none => .ok none
  | some new =>
    let newCountBytes := u32 (bytes log new.countTableEntries)
    if new.processToChargeQuota && !r.quota then .ok none
    else
      match r.alloc newCountBytes with
      | none => .ok none
      | some b => do
        let old ← t.block
        let b ← b.moveMemory old newCountBytes
        let (b, free) ← dupEntries dupHandleProcedure new.countTableEntries b.address b new.freeEntries
        return some { new with freeEntries := free, tableEntries := some b }

/-! ### Handles -/

/-- The first free entry taken and filled. -/
def takeFree (pointer : Entry log) : Except Fault (ℕ × HandleTable log) := do
  let freeHandleEntry := getFreePointer t.freeEntries
  if freeHandleEntry = 0 then .error .nullPointer
  else
    let b ← t.block
    let e ← b.read freeHandleEntry
    -- As the signed difference of the source below 2 GiB.
    let tableIndex := sub32 freeHandleEntry b.address / 4 / 2 ^ log
    let b ← b.write freeHandleEntry pointer
    return (indexToHandle tableIndex, { t with freeEntries := e.pointer, tableEntries := some b })

/-- `ExCreateHandle`; the result is 0, for `NULL`, if the table could not grow. -/
def exCreateHandle (t : HandleTable log) (pointer : Entry log) : Except Fault (ℕ × HandleTable log) :=
  if getFreePointer t.freeEntries = 0 then do
    let oldHandleTableEntries := t.tableEntries
    let oldCountTableEntries := t.countTableEntries
    let t := { t with countTableEntries := add32 t.countTableEntries t.countTableEntriesToGrowBy }
    let (allocated, t) ← allocateHandleTableEntries r t oldHandleTableEntries oldCountTableEntries
    if allocated then takeFree t pointer
    else
      return (0, { t with
        countTableEntries := sub32 t.countTableEntries t.countTableEntriesToGrowBy
        tableEntries := oldHandleTableEntries })
  else takeFree t pointer

/-- The address of the entry of a handle. -/
def entryAddress (b : Block log) (tableIndex : ℕ) : ℕ := add32 b.address (u32 (bytes log tableIndex))

/-- `ExDestroyHandle`. -/
def exDestroyHandle (handle : ℕ) : Except Fault (Bool × HandleTable log) :=
  let tableIndex := handleToIndex handle
  if tableIndex < t.countTableEntries then do
    let b ← t.block
    let freeHandleEntry := entryAddress b tableIndex
    let e ← b.read freeHandleEntry
    if testFreePointer e.pointer then .ok (false, t)
    else
      let (b, free) ← b.pushFree t.freeEntries freeHandleEntry
      return (true, { t with freeEntries := free, tableEntries := some b })
  else .ok (false, t)

/-- `ExChangeHandle`; the routine gets the entry and returns a result and the entry as it leaves it. -/
def exChangeHandle (handle : ℕ) (changeRoutine : Entry log → Bool × Entry log) : Except Fault (Bool × HandleTable log) :=
  let tableIndex := handleToIndex handle
  if tableIndex < t.countTableEntries then do
    let b ← t.block
    let e ← b.read (entryAddress b tableIndex)
    if testFreePointer e.pointer then .ok (false, t)
    else
      let b ← b.write (entryAddress b tableIndex) (changeRoutine e).2
      return ((changeRoutine e).1, { t with tableEntries := some b })
  else .ok (false, t)

/-- `ExMapHandleToPointer`: the value of an entry of one word, the address of a larger one, or 0 for `NULL`. -/
def exMapHandleToPointer (handle : ℕ) : Except Fault ℕ :=
  let tableIndex := handleToIndex handle
  if tableIndex < t.countTableEntries then do
    let b ← t.block
    let e ← b.read (entryAddress b tableIndex)
    if testFreePointer e.pointer then .ok 0
    else if log = 0 then .ok e.pointer
    else .ok (entryAddress b tableIndex)
  else .ok 0

/-- The loop of `ExEnumHandleTable`. The procedure knows the handles that it was called for; the result is the handle
at which it stopped the enumeration, and all that it was called for. -/
def enumEntries (enumHandleProcedure : List ℕ → Entry log → ℕ → Bool) (b : Block log) :
    ℕ → ℕ → ℕ → List ℕ → Except Fault (Option ℕ × List ℕ)
  | 0, _, _, seen => .ok (none, seen)
  | n + 1, i, p, seen => do
    let e ← b.read p
    if testFreePointer e.pointer then enumEntries enumHandleProcedure b n (i + 1) (add32 p (bytes log 1)) seen
    else if enumHandleProcedure seen e (indexToHandle i) then .ok (some (indexToHandle i), seen ++ [indexToHandle i])
    else enumEntries enumHandleProcedure b n (i + 1) (add32 p (bytes log 1)) (seen ++ [indexToHandle i])

/-- `ExEnumHandleTable`. -/
def exEnumHandleTable (enumHandleProcedure : List ℕ → Entry log → ℕ → Bool) :
    Except Fault (Option ℕ × List ℕ) := do
  let b ← t.block
  enumEntries enumHandleProcedure b t.countTableEntries 0 b.address []

end Nt365.Ex.Handle
