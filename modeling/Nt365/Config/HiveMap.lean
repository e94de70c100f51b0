import Mathlib.Logic.Function.Basic
import Nt365.Config.HiveLog

/-!
# The cell map of a hive

`HvpGetCellMap` (`CONFIG/HIVECELL.C`) finds the map entry of a block through a directory of tables. A storage of at most 512
blocks has no directory: the field `SmallDir` serves as its only slot. `HvpBuildMap` and `HvpBuildMapAndCopy` (`HIVEMAP.C`)
choose the form for an image, `HvpAddBin` (`HIVEBIN.C`) goes over to a directory when a second table is needed, and
`HvFreeHivePartial` (`HIVEFREE.C`) never goes back. `HvpAddBin` decides by the number of the last table, and not by the
form: a storage that was loaded with a directory, and was then cut to one table, gets a new directory whose first slot is
taken from `SmallDir`, and that is `NULL` since it was loaded. So the map stays total if and only if no storage grows past
one table in that state (`total_along_iff`).

## The model

Lengths are numbers of blocks. A table is known by its address, and the addresses that `Allocate` returns are part of a
call: any that are not in use. The calls are those that succeed. A step through an empty slot, or past the 1024 slots of a
directory, has no result.
-/

namespace Nt365.Config.CellMap

open List Function Option
open Nt365.Config.Hive (HStorageType)

/-- `HMAP_ENTRY`. -/
structure HMapEntry where
  blockAddress : ℕ
  binAddress : ℕ
  newAlloc : Bool
  discardable : Bool
deriving DecidableEq

/-- The slots of a directory. -/
abbrev Directory := ℕ → Option ℕ

/-- The tables in use. -/
abbrev Heap := ℕ → Option (ℕ → HMapEntry)

/-- A storage. Without a directory of its own, `Map` is the address of `SmallDir`. -/
structure Storage where
  length : ℕ
  smallDir : Option ℕ
  map : Option Directory

/-- `HHIVE`. -/
structure HHive where
  storage : HStorageType → Storage
  heap : Heap

/-- The hive with another storage of a type, and with other tables. -/
def HHive.set (h : HHive) (type : HStorageType) (s : Storage) (heap : Heap) : HHive := ⟨Function.update h.storage type s, heap⟩

/-- `SmallDir` as a directory: past its one slot is no table. -/
def smallDirectory (smallDir : Option ℕ) : Directory := fun i => if i = 0 then smallDir else none

/-- `Map->Directory`. -/
def Storage.directory (s : Storage) : Directory := s.map.getD (smallDirectory s.smallDir)

/-- A table after `RtlZeroMemory`. -/
def zeroTable : ℕ → HMapEntry := fun _ => ⟨0, 0, false, false⟩

/-- What `HvpGetCellMap` returns: `NULL`, an address that was computed from an empty slot, or the entry of a table. -/
inductive MapAddress
  | null
  | wild
  | entry (table block : ℕ)

/-- `HvpGetCellMap`. -/
def hvpGetCellMap (h : HHive) (cell : ℕ) : MapAddress :=
  let type := if cell / 2147483648 = 0 then HStorageType.stable else .volatile
  let table := cell % 2147483648 / 2097152
  let block := cell % 2097152 / 4096
  if (h.storage type).length * 4096 ≤ cell % 2147483648 then .null
  else
    match (h.storage type).directory table with
    | none => .wild
    | some t => .entry t block

/-- The cell index of a block. -/
def cellIndex (type : HStorageType) (b : ℕ) : ℕ :=
  match type with
  | .stable => 4096 * b
  | .volatile => 2147483648 + 4096 * b

/-- A change of the entry that `HvpGetCellMap` returns. -/
def updateEntry (h : HHive) (cell : ℕ) (f : HMapEntry → HMapEntry) : Option HHive :=
  match hvpGetCellMap h cell with
  | .entry t k => (h.heap t).map fun table =>
      { h with heap := Function.update h.heap t (some (Function.update table k (f (table k)))) }
  | _ => none

/-- A loop over the entries of consecutive blocks. -/
def updateBlocks (h : HHive) (type : HStorageType) (b : ℕ) : List (HMapEntry → HMapEntry) → Option HHive
  | [] => some h
  | f :: fs => (updateEntry h (cellIndex type b) f).bind fun h => updateBlocks h type (b + 1) fs

/-- `HvpAllocateMap`, for `n` slots; `tables i` is the address of the table for slot `i`. -/
def hvpAllocateMap (tables : ℕ → ℕ) (heap : Heap) (dir : Directory) (start : ℕ) : ℕ → Heap × Directory
  | 0 => (heap, dir)
  | n + 1 =>
    hvpAllocateMap tables (Function.update heap (tables start) (some zeroTable)) (Function.update dir start (some (tables start)))
      (start + 1) n

/-- `HvpFreeMap`, for `n` slots. -/
def hvpFreeMap (heap : Heap) (dir : Directory) (start : ℕ) : ℕ → Heap × Directory
  | 0 => (heap, dir)
  | n + 1 =>
    match dir start with
    | none => hvpFreeMap heap dir (start + 1) n
    | some t => hvpFreeMap (Function.update heap t none) (Function.update dir start none) (start + 1) n

/-! ### The start of a hive -/

/-- The entries that `HvpBuildMap` makes for bins of these sizes, of which the first starts with block `b` of the image. -/
def imageEntries (image : ℕ) : ℕ → List ℕ → List HMapEntry
  | _, [] => []
  | b, size :: sizes =>
    ((List.range size).map fun j => ⟨image + 4096 * (b + j), image + 4096 * b, b + j = 0, false⟩) ++
      imageEntries image (b + size) sizes

/-- The entries that `HvpBuildMapAndCopy` makes for bins that are copied to these addresses. -/
def copyEntries (bins : List (ℕ × ℕ)) : List HMapEntry :=
  bins.flatMap fun (address, size) => (List.range size).map fun j => ⟨address + 4096 * j, address, true, false⟩

/-- How a hive starts: empty, with the map of an image, or with the map of copies of its bins. -/
inductive Start
  | created
  | built (image : ℕ) (sizes : List ℕ)
  | copied (bins : List (ℕ × ℕ))

/-- A hive without blocks. -/
def emptyHive : HHive := ⟨fun _ => ⟨0, none, none⟩, fun _ => none⟩

/-- The directory and the tables of an image of `n` blocks. -/
def buildTables (tables : ℕ → ℕ) (n : ℕ) : HHive :=
  let lastTable := (n - 1) / 512
  if lastTable = 0 then
    emptyHive.set .stable ⟨n, some (tables 0), none⟩ (Function.update emptyHive.heap (tables 0) (some zeroTable))
  else
    let (heap, dir) := hvpAllocateMap tables emptyHive.heap (fun _ => none) 0 (lastTable + 1)
    emptyHive.set .stable ⟨n, none, some dir⟩ heap

/-- The map with these entries. For an image without blocks, the number of its last table wraps. -/
def buildMap (tables : ℕ → ℕ) (entries : List HMapEntry) : Option HHive :=
  if entries.length = 0 ∨ 524288 < entries.length then none
  else updateBlocks (buildTables tables entries.length) .stable 0 (entries.map fun e _ => e)

/-- The hive at its start. -/
def Start.hive (tables : ℕ → ℕ) : Start → Option HHive
  | .created => some emptyHive
  | .built image sizes => buildMap tables (imageEntries image 0 sizes)
  | .copied bins => buildMap tables (copyEntries bins)

/-! ### The calls -/

/-- The part of `HvpAddBin` that makes the first table. -/
def firstTable (s : Storage) (heap : Heap) (tables : ℕ → ℕ) : Storage × Heap :=
  if s.length = 0 then ({ s with smallDir := some (tables 0), map := none }, Function.update heap (tables 0) (some zeroTable))
  else (s, heap)

/-- The part of `HvpAddBin` that makes the other tables for `n` more blocks, and a directory if there is more than one. -/
def newTables (s : Storage) (heap : Heap) (n : ℕ) (tables : ℕ → ℕ) : Storage × Heap :=
  let oldTable := (s.length - 1) / 512
  let newTable := (s.length + n - 1) / 512
  if newTable = oldTable then ({ s with length := s.length + n }, heap)
  else
    let dir := if oldTable = 0 then smallDirectory s.smallDir else s.directory
    let (heap, dir) := hvpAllocateMap tables heap dir (oldTable + 1) (newTable - oldTable)
    ({ s with length := s.length + n, map := some dir }, heap)

/-- A storage with `n` more blocks, with the tables for them. -/
def enlarge (h : HHive) (type : HStorageType) (n : ℕ) (tables : ℕ → ℕ) : HHive :=
  let (s, heap) := firstTable (h.storage type) h.heap tables
  let (s, heap) := newTables s heap n tables
  h.set type s heap

/-- The entries of a new bin of `n` blocks. -/
def newBinEntries (newBin n : ℕ) : List (HMapEntry → HMapEntry) :=
  (List.range n).map fun j _ => ⟨newBin + 4096 * j, newBin, j = 0, false⟩

/-- The entries of a discardable bin of `n` blocks that is used again. -/
def keptBinEntries (n : ℕ) : List (HMapEntry → HMapEntry) :=
  (List.range n).map fun j e => { e with blockAddress := e.binAddress + 4096 * j, discardable := false }

/-- The entries of an allocation of `n` blocks that `HvpEnlistFreeCell` makes discardable. -/
def discardableEntries (freeBin n : ℕ) : List (HMapEntry → HMapEntry) :=
  List.replicate n fun e => { e with blockAddress := freeBin, discardable := true }

/-- A successful call: `HvpAddBin` for a bin at the end, for a discarded bin and for a discardable bin, `HvpEnlistFreeCell` for an
allocation that is free, and `HvFreeHivePartial`. -/
inductive Call
  | addBin (type : HStorageType) (n newBin : ℕ) (tables : ℕ → ℕ)
  | addDiscardedBin (type : HStorageType) (b n newBin : ℕ)
  | addDiscardableBin (type : HStorageType) (b n : ℕ)
  | enlistFreeBin (type : HStorageType) (b n freeBin : ℕ)
  | freePartial (type : HStorageType) (start : ℕ)

/-- `HvFreeHivePartial`. -/
def hvFreeHivePartial (h : HHive) (type : HStorageType) (start : ℕ) : HHive :=
  let s := h.storage type
  if start = s.length then h
  else
    let lastTable := (s.length - 1) / 512
    let lastTable := if 1024 ≤ lastTable then 1023 else lastTable
    let firstTable := if 0 < start then (start - 1) / 512 + 1 else 0
    let (heap, dir) := hvpFreeMap h.heap s.directory firstTable (lastTable + 1 - firstTable)
    let s : Storage :=
      match s.map with
      | none => ⟨start, dir 0, none⟩
      | some _ => ⟨start, s.smallDir, some dir⟩
    h.set type s heap

/-- The blocks whose entries a call sets, and how. -/
def Call.changes (h : HHive) : Call → HStorageType × ℕ × List (HMapEntry → HMapEntry)
  | .addBin type n newBin _ => (type, (h.storage type).length, newBinEntries newBin n)
  | .addDiscardedBin type b n newBin => (type, b, newBinEntries newBin n)
  | .addDiscardableBin type b n => (type, b, keptBinEntries n)
  | .enlistFreeBin type b n freeBin => (type, b, discardableEntries freeBin n)
  | .freePartial type start => (type, start, [])

/-- The hive after a call. -/
def Call.run (h : HHive) (call : Call) : Option HHive :=
  let (type, b, fs) := call.changes h
  match call with
  | .addBin type n _ tables =>
    if 524288 < (h.storage type).length + n then none else updateBlocks (enlarge h type n tables) type b fs
  | .freePartial type start => some (hvFreeHivePartial h type start)
  | _ => updateBlocks h type b fs

/-- What a caller has to see to: the addresses of new tables are not in use, and a bin is inside the storage. -/
def Call.Valid (h : HHive) : Call → Prop
  | .addBin type n _ tables =>
    0 < n ∧ ∀ i, (h.storage type).length ≤ 512 * i → 512 * i < (h.storage type).length + n →
      h.heap (tables i) = none ∧
        ∀ j, (h.storage type).length ≤ 512 * j → 512 * j < (h.storage type).length + n → tables i = tables j → i = j
  | .addDiscardedBin type b n _ | .addDiscardableBin type b n | .enlistFreeBin type b n _ => b + n ≤ (h.storage type).length
  | .freePartial type start => start ≤ (h.storage type).length

/-! ### What the map should be -/

/-- The entries of all blocks. -/
abbrev Entries := HStorageType → ℕ → HMapEntry

/-- The entries after changes from block `b` on. -/
def installAt (a : ℕ → HMapEntry) (b : ℕ) (fs : List (HMapEntry → HMapEntry)) : ℕ → HMapEntry := fun i =>
  if i < b then a i else (fs[i - b]?.elim (a i) fun f => f (a i))

/-- The entries that were installed last. -/
def Call.install (h : HHive) (call : Call) (a : Entries) : Entries :=
  Function.update a (call.changes h).1 (installAt (a (call.changes h).1) (call.changes h).2.1 (call.changes h).2.2)

/-- The entries that are installed at the start. -/
def Start.installed : Start → Entries
  | .created => fun _ => zeroTable
  | .built image sizes => fun _ => installAt zeroTable 0 ((imageEntries image 0 sizes).map fun e _ => e)
  | .copied bins => fun _ => installAt zeroTable 0 ((copyEntries bins).map fun e _ => e)

/-- **The map is total**: for every block, `HvpGetCellMap` goes through a table and returns the entry that was installed
last, and no two blocks have the same. -/
structure Total (h : HHive) (a : Entries) : Prop where
  entry : ∀ type, ∀ b < (h.storage type).length, ∃ t k table,
    hvpGetCellMap h (cellIndex type b) = .entry t k ∧ h.heap t = some table ∧ table k = a type b
  distinct : ∀ type type', ∀ b < (h.storage type).length, ∀ b' < (h.storage type').length,
    hvpGetCellMap h (cellIndex type b) = hvpGetCellMap h (cellIndex type' b') → type = type' ∧ b = b'

/-- The map is total in every state of a sequence of calls. -/
def TotalAlong : HHive → Entries → List Call → Prop
  | h, a, [] => Total h a
  | h, a, call :: calls => Total h a ∧ (call.Valid h → ∃ h', call.run h = some h' ∧ TotalAlong h' (call.install h a) calls)

/-- A storage may grow to 2^31 bytes, and it may not grow past its first table while `SmallDir` is `NULL`. -/
def Call.Safe (h : HHive) : Call → Prop
  | .addBin type n _ _ =>
    (h.storage type).length + n ≤ 524288 ∧
      ¬(0 < (h.storage type).length ∧ (h.storage type).length ≤ 512 ∧ 512 < (h.storage type).length + n ∧
        (h.storage type).smallDir = none)
  | _ => True

/-- Every call of a sequence is safe. -/
def SafeAlong : HHive → List Call → Prop
  | _, [] => True
  | h, call :: calls => call.Valid h → call.Safe h ∧ ∀ h', call.run h = some h' → SafeAlong h' calls

variable {h h' : HHive} {a : Entries} {type type' : HStorageType} {b i n k t start : ℕ} {f : HMapEntry → HMapEntry}
  {fs : List (HMapEntry → HMapEntry)} {tables : ℕ → ℕ} {heap : Heap} {dir : Directory}

/-! ### The invariant -/

/-- The tables of a hive: every block has one, no two parts of the map share one, and `SmallDir` is `NULL` or the first. -/
structure Shape (h : HHive) : Prop where
  table : ∀ type i, 512 * i < (h.storage type).length → ∃ t table, (h.storage type).directory i = some t ∧ h.heap t = some table
  inj : ∀ type type' i i' t, 512 * i < (h.storage type).length → 512 * i' < (h.storage type').length →
    (h.storage type).directory i = some t → (h.storage type').directory i' = some t → type = type' ∧ i = i'
  le : ∀ type, (h.storage type).length ≤ 524288
  small : ∀ type, 0 < (h.storage type).length → (h.storage type).smallDir = none ∨
    (h.storage type).smallDir = (h.storage type).directory 0

/-- The entries that are in the tables. -/
def Reads (h : HHive) (a : Entries) : Prop :=
  ∀ type, ∀ b < (h.storage type).length, ∀ t table, (h.storage type).directory (b / 512) = some t → h.heap t = some table →
    table (b % 512) = a type b

theorem hvpGetCellMap_eq (hb : b < (h.storage type).length) (hle : (h.storage type).length ≤ 524288) :
    hvpGetCellMap h (cellIndex type b) =
      match (h.storage type).directory (b / 512) with
      | none => .wild
      | some t => .entry t (b % 512) := by
  unfold hvpGetCellMap cellIndex
  cases type with
  | stable =>
    dsimp only
    rw [show 4096 * b / 2147483648 = 0 by omega, if_pos rfl, if_neg (by omega), show 4096 * b % 2147483648 / 2097152 =
      b / 512 by omega, show 4096 * b % 2097152 / 4096 = b % 512 by omega]
  | volatile =>
    dsimp only
    rw [show (2147483648 + 4096 * b) / 2147483648 = 1 by omega, if_neg one_ne_zero, if_neg (by omega),
      show (2147483648 + 4096 * b) % 2147483648 / 2097152 = b / 512 by omega,
      show (2147483648 + 4096 * b) % 2097152 / 4096 = b % 512 by omega]

theorem Shape.entry (hshape : Shape h) (hb : b < (h.storage type).length) :
    ∃ t table, (h.storage type).directory (b / 512) = some t ∧ h.heap t = some table ∧
      hvpGetCellMap h (cellIndex type b) = .entry t (b % 512) := by
  obtain ⟨t, table, hdir, hheap⟩ := hshape.table type (b / 512) (by omega)
  exact ⟨t, table, hdir, hheap, by rw [hvpGetCellMap_eq hb (hshape.le type), hdir]⟩

/-- **A map of this shape is total.** -/
theorem Shape.total (hshape : Shape h) (hreads : Reads h a) : Total h a where
  entry := by
    intro type b hb
    obtain ⟨t, table, hdir, hheap, hentry⟩ := hshape.entry hb
    exact ⟨t, b % 512, table, hentry, hheap, hreads type b hb t table hdir hheap⟩
  distinct := by
    intro type type' b hb b' hb' heq
    obtain ⟨t, _, hdir, -, hentry⟩ := hshape.entry hb
    obtain ⟨t', _, hdir', -, hentry'⟩ := hshape.entry hb'
    rw [hentry, hentry', MapAddress.entry.injEq] at heq
    obtain ⟨rfl, hblock⟩ := heq
    obtain ⟨rfl, htable⟩ := hshape.inj type type' (b / 512) (b' / 512) t (by omega) (by omega) hdir hdir'
    exact ⟨rfl, by omega⟩

/-! ### Changes of entries -/

theorem updateEntry_spec (hshape : Shape h) (hreads : Reads h a) (hb : b < (h.storage type).length) :
    ∃ h', updateEntry h (cellIndex type b) f = some h' ∧ h'.storage = h.storage ∧ Shape h' ∧
      Reads h' (Function.update a type (Function.update (a type) b (f (a type b)))) := by
  obtain ⟨t, table, hdir, hheap, hentry⟩ := hshape.entry hb
  unfold updateEntry
  rw [hentry]
  dsimp only
  rw [hheap]
  refine ⟨⟨h.storage, Function.update h.heap t (some (Function.update table (b % 512) (f (table (b % 512)))))⟩, rfl, rfl,
    ⟨fun type' i hi => ?_, hshape.inj, hshape.le, hshape.small⟩, fun type' b' hb' t' table' hdir' hheap' => ?_⟩
  · obtain ⟨t', table', hdir', hheap'⟩ := hshape.table type' i hi
    by_cases ht : t' = t
    · exact ⟨t', _, hdir', by rw [ht]; exact update_self ..⟩
    · exact ⟨t', table', hdir', (update_of_ne ht ..).trans hheap'⟩
  · dsimp only at hb' hdir' hheap'
    by_cases ht : t' = t
    · subst ht
      -- the table of both blocks
      obtain ⟨rfl, htable⟩ := hshape.inj type' type (b' / 512) (b / 512) t' (by omega) (by omega) hdir' hdir
      have hold := hreads type' b' hb' t' table hdir' hheap
      rw [update_self] at hheap'
      rw [update_self, ← Option.some.inj hheap']
      by_cases hblock : b' = b
      · subst hblock
        rw [update_self, update_self, hold]
      · rw [update_of_ne hblock, update_of_ne (by omega), hold]
    · rw [update_of_ne ht] at hheap'
      have hold := hreads type' b' hb' t' table' hdir' hheap'
      rw [hold]
      by_cases htype : type' = type
      · subst htype
        have hblock : b' ≠ b := by
          rintro rfl
          exact ht (Option.some.inj (hdir'.symm.trans hdir))
        rw [update_self, update_of_ne hblock]
      · rw [update_of_ne htype]

theorem installAt_nil (a : ℕ → HMapEntry) : installAt a b [] = a := by
  funext i
  unfold installAt
  split_ifs <;> rfl

theorem installAt_cons (a : ℕ → HMapEntry) : installAt a b (f :: fs) = installAt (Function.update a b (f (a b))) (b + 1) fs := by
  funext i
  unfold installAt
  rcases Nat.lt_trichotomy i b with hlt | rfl | hgt
  · rw [if_pos hlt, if_pos (by omega), update_of_ne hlt.ne]
  · rw [if_neg (Nat.lt_irrefl i), if_pos (Nat.lt_succ_self i), Nat.sub_self, update_self]
    rfl
  · rw [if_neg (by omega), if_neg (by omega), show i - b = i - (b + 1) + 1 by omega, getElem?_cons_succ,
      update_of_ne hgt.ne']

variable (type b fs) in
/-- **A loop over blocks of a storage** changes their entries. -/
theorem updateBlocks_spec (hshape : Shape h) (hreads : Reads h a) (hb : b + fs.length ≤ (h.storage type).length) :
    ∃ h', updateBlocks h type b fs = some h' ∧ h'.storage = h.storage ∧ Shape h' ∧
      Reads h' (Function.update a type (installAt (a type) b fs)) := by
  induction fs generalizing h a b with
  | nil => exact ⟨h, rfl, rfl, hshape, by rwa [installAt_nil, update_eq_self]⟩
  | cons f fs ih =>
    rw [length_cons] at hb
    obtain ⟨h₁, hrun, hstorage, hshape₁, hreads₁⟩ :=
      updateEntry_spec (f := f) hshape hreads (show b < (h.storage type).length by omega)
    obtain ⟨h₂, hrun₂, hstorage₂, hshape₂, hreads₂⟩ := ih (b := b + 1) hshape₁ hreads₁ (by rw [hstorage]; omega)
    refine ⟨h₂, by rw [updateBlocks, hrun]; exact hrun₂, hstorage₂.trans hstorage, hshape₂, ?_⟩
    rwa [update_self, update_idem, ← installAt_cons] at hreads₂

theorem updateEntry_storage {cell : ℕ} (hrun : updateEntry h cell f = some h') : h'.storage = h.storage := by
  unfold updateEntry at hrun
  split at hrun
  · obtain ⟨table, -, rfl⟩ := map_eq_some_iff.mp hrun
    rfl
  · cases hrun

theorem updateBlocks_storage (hrun : updateBlocks h type b fs = some h') : h'.storage = h.storage := by
  induction fs generalizing h b with
  | nil => cases hrun; rfl
  | cons f fs ih =>
    obtain ⟨h₁, hrun₁, hrest⟩ := bind_eq_some_iff.mp hrun
    exact (ih hrest).trans (updateEntry_storage hrun₁)

/-! ### Directories -/

theorem hvpAllocateMap_spec :
    (∀ i, (hvpAllocateMap tables heap dir start n).2 i = if start ≤ i ∧ i < start + n then some (tables i) else dir i) ∧
      (∀ i, start ≤ i → i < start + n → (hvpAllocateMap tables heap dir start n).1 (tables i) = some zeroTable) ∧
      ∀ t, (∀ i, start ≤ i → i < start + n → tables i ≠ t) → (hvpAllocateMap tables heap dir start n).1 t = heap t := by
  induction n generalizing heap dir start with
  | zero => exact ⟨fun i => (if_neg (by omega)).symm, fun i hi hlt => absurd hlt (by omega), fun t _ => rfl⟩
  | succ n ih =>
    obtain ⟨hdir, hnew, hold⟩ := ih
    rw [hvpAllocateMap]
    refine ⟨fun i => ?_, fun i hi hlt => ?_, fun t ht => ?_⟩
    · rw [hdir]
      by_cases hi : i = start
      · subst hi
        rw [if_neg (by omega), if_pos (by omega), update_self]
      · rw [update_of_ne hi]
        exact if_congr (by omega) rfl rfl
    · by_cases hlater : ∃ j, start + 1 ≤ j ∧ j < start + 1 + n ∧ tables j = tables i
      · obtain ⟨j, hj, hjlt, heq⟩ := hlater
        rw [← heq]
        exact hnew j hj hjlt
      · have hi : i = start := by
          by_contra hne
          exact hlater ⟨i, by omega, by omega, rfl⟩
        subst hi
        rw [hold _ fun j hj hjlt heq => hlater ⟨j, hj, hjlt, heq⟩, update_self]
    · rw [hold t fun i hi hlt => ht i (by omega) (by omega), update_of_ne (ht start le_rfl (by omega)).symm]

theorem hvpFreeMap_spec :
    (∀ i, (hvpFreeMap heap dir start n).2 i = if start ≤ i ∧ i < start + n then none else dir i) ∧
      ∀ t, (∀ i, start ≤ i → i < start + n → dir i ≠ some t) → (hvpFreeMap heap dir start n).1 t = heap t := by
  induction n generalizing heap dir start with
  | zero => exact ⟨fun i => (if_neg (by omega)).symm, fun t _ => rfl⟩
  | succ n ih =>
    rw [hvpFreeMap]
    cases hslot : dir start with
    | none =>
      obtain ⟨hdir, hold⟩ := ih
      refine ⟨fun i => ?_, fun t ht => hold t fun i hi hlt => ht i (by omega) (by omega)⟩
      dsimp only
      rw [hdir]
      by_cases hi : i = start
      · subst hi
        rw [if_neg (by omega), if_pos (by omega), hslot]
      · exact if_congr (by omega) rfl rfl
    | some t₀ =>
      obtain ⟨hdir, hold⟩ := ih
      refine ⟨fun i => ?_, fun t ht => ?_⟩
      · dsimp only
        rw [hdir]
        by_cases hi : i = start
        · subst hi
          rw [if_neg (by omega), if_pos (by omega), update_self]
        · rw [update_of_ne hi]
          exact if_congr (by omega) rfl rfl
      · have hne : t ≠ t₀ := fun heq => ht start le_rfl (by omega) (by rw [hslot, heq])
        dsimp only
        rw [hold t fun i hi hlt => ?_, update_of_ne hne]
        rw [update_of_ne (by omega)]
        exact ht i (by omega) (by omega)

/-! ### Growth -/

@[simp] theorem set_storage {s : Storage} : (h.set type s heap).storage type = s := update_self ..

@[simp] theorem set_storage_of_ne {s : Storage} (hne : type' ≠ type) : (h.set type s heap).storage type' = h.storage type' :=
  update_of_ne hne ..

@[simp] theorem set_heap {s : Storage} : (h.set type s heap).heap = heap := rfl

theorem newTables_spec {s : Storage} :
    (newTables s heap n tables).1.length = s.length + n ∧ (newTables s heap n tables).1.smallDir = s.smallDir ∧
      (∀ i, (s.length - 1) / 512 < i → 512 * i < s.length + n →
        (newTables s heap n tables).1.directory i = some (tables i) ∧ (newTables s heap n tables).2 (tables i) = some zeroTable) ∧
      (∀ i, i ≤ (s.length - 1) / 512 → (newTables s heap n tables).1.directory i =
        if (s.length + n - 1) / 512 ≠ (s.length - 1) / 512 ∧ (s.length - 1) / 512 = 0 then smallDirectory s.smallDir i
          else s.directory i) ∧
      ∀ t, (∀ i, (s.length - 1) / 512 < i → 512 * i < s.length + n → tables i ≠ t) → (newTables s heap n tables).2 t = heap t := by
  unfold newTables
  dsimp only
  by_cases hsame : (s.length + n - 1) / 512 = (s.length - 1) / 512
  · rw [if_pos hsame]
    exact ⟨rfl, rfl, fun i hi hlt => absurd hlt (by omega), fun i _ => (if_neg fun hne => hne.1 hsame).symm, fun t _ => rfl⟩
  rw [if_neg hsame]
  obtain ⟨hdir, hnew, hold⟩ := hvpAllocateMap_spec (n := (s.length + n - 1) / 512 - (s.length - 1) / 512)
  refine ⟨rfl, rfl, fun i hi hlt => ⟨(hdir i).trans (if_pos (by omega)), hnew i (by omega) (by omega)⟩, fun i hi => ?_,
    fun t ht => hold t fun i hi hlt => ht i (by omega) (by omega)⟩
  refine (hdir i).trans ((if_neg (by omega)).trans ?_)
  split_ifs <;> first | rfl | omega

/-- What growing the map does: a table is new if its first block is. -/
structure Enlarged (h : HHive) (type : HStorageType) (n : ℕ) (tables : ℕ → ℕ) (h' : HHive) : Prop where
  other : ∀ type', type' ≠ type → h'.storage type' = h.storage type'
  length : (h'.storage type).length = (h.storage type).length + n
  smallDir : (h'.storage type).smallDir = if (h.storage type).length = 0 then some (tables 0) else (h.storage type).smallDir
  new : ∀ i, (h.storage type).length ≤ 512 * i → 512 * i < (h.storage type).length + n →
    (h'.storage type).directory i = some (tables i) ∧ h'.heap (tables i) = some zeroTable
  old : ∀ i, 512 * i < (h.storage type).length →
    (h'.storage type).directory i =
      if (h.storage type).length ≤ 512 ∧ 512 < (h.storage type).length + n then (h.storage type).smallDir
      else (h.storage type).directory i
  heap : ∀ t, (∀ i, (h.storage type).length ≤ 512 * i → 512 * i < (h.storage type).length + n → tables i ≠ t) →
    h'.heap t = h.heap t

variable (h type tables) in
theorem enlarge_spec (hn : 0 < n) : Enlarged h type n tables (enlarge h type n tables) := by
  unfold enlarge firstTable
  dsimp only
  split_ifs with hzero
  · -- the first table is `tables 0`, also as the first slot of a directory
    dsimp only
    obtain ⟨hlength, hsmall, hnew, hold, hheap⟩ :=
      newTables_spec (s := { h.storage type with smallDir := some (tables 0), map := none }) (n := n)
    dsimp only at hlength hsmall hnew hold hheap
    refine ⟨fun type' hne => set_storage_of_ne hne, ?_, ?_, fun i hi hlt => ?_, fun i hi => absurd hi (by omega), fun t ht => ?_⟩
    · rw [set_storage, hlength]
    · rw [set_storage, hsmall, if_pos hzero]
    · rw [set_storage, set_heap]
      rcases Nat.eq_zero_or_pos i with rfl | hpos
      · refine ⟨(hold 0 (Nat.zero_le _)).trans (ite_self _), ?_⟩
        by_cases hagain : ∃ j, ((h.storage type).length - 1) / 512 < j ∧ 512 * j < (h.storage type).length + n ∧
          tables j = tables 0
        · obtain ⟨j, hj, hjlt, heq⟩ := hagain
          have hzeroed := (hnew j hj hjlt).2
          rwa [heq] at hzeroed
        · rw [hheap _ fun j hj hjlt heq => hagain ⟨j, hj, hjlt, heq⟩, update_self]
      · exact hnew i (by omega) hlt
    · rw [set_heap, hheap t fun i hi hlt => ht i (by omega) hlt, update_of_ne (ht 0 (by omega) (by omega)).symm]
  · dsimp only
    obtain ⟨hlength, hsmall, hnew, hold, hheap⟩ := newTables_spec (s := h.storage type) (n := n)
    refine ⟨fun type' hne => set_storage_of_ne hne, ?_, ?_, fun i hi hlt => ?_, fun i hi => ?_, fun t ht => ?_⟩
    · rw [set_storage, hlength]
    · rw [set_storage, hsmall, if_neg hzero]
    · rw [set_storage, set_heap]
      exact hnew i (by omega) hlt
    · rw [set_storage, hold i (by omega)]
      refine ite_congr (propext (by omega)) (fun hone => ?_) fun _ => rfl
      rw [show i = 0 by omega]
      rfl
    · rw [set_heap]
      exact hheap t fun i hi hlt => ht i (by omega) hlt

section Grow

variable (hvalid : (Call.addBin type n k tables).Valid h)
include hvalid

theorem Enlarged.heap_of_some (henl : Enlarged h type n tables h') {table : ℕ → HMapEntry} (hheap : h.heap t = some table) :
    h'.heap t = some table := by
  refine (henl.heap t fun i hi hlt heq => ?_).trans hheap
  have hfresh := (hvalid.2 i hi hlt).1
  rw [heq, hheap] at hfresh
  cases hfresh

variable (hshape : Shape h) (hsafe : (Call.addBin type n k tables).Safe h)
include hshape hsafe

theorem Enlarged.directory_of_lt (henl : Enlarged h type n tables h') (hi : 512 * i < (h.storage type').length) :
    (h'.storage type').directory i = (h.storage type').directory i := by
  by_cases htype : type' = type
  · subst htype
    rw [henl.old i hi]
    split_ifs with hcross
    · -- the first slot of the new directory is taken from `SmallDir`
      rcases hshape.small type' (by omega) with hnone | hfirst
      · exact absurd ⟨by omega, hcross.1, hcross.2, hnone⟩ hsafe.2
      · rw [hfirst, show i = 0 by omega]
    · rfl
  · rw [henl.other type' htype]

theorem Enlarged.shape (henl : Enlarged h type n tables h') : Shape h' := by
  -- a slot of the new hive is a new table of this storage, or a slot of the old hive
  have hslot : ∀ type' i t, 512 * i < (h'.storage type').length → (h'.storage type').directory i = some t →
      (type' = type ∧ (h.storage type).length ≤ 512 * i ∧ 512 * i < (h.storage type).length + n ∧ tables i = t) ∨
        (512 * i < (h.storage type').length ∧ (h.storage type').directory i = some t) := by
    intro type' i t hi hdir
    rcases Nat.lt_or_ge (512 * i) (h.storage type').length with hlt | hge
    · exact .inr ⟨hlt, (henl.directory_of_lt hvalid hshape hsafe hlt).symm.trans hdir⟩
    · by_cases htype : type' = type
      · subst htype
        rw [henl.length] at hi
        rw [(henl.new i hge hi).1] at hdir
        exact .inl ⟨rfl, hge, hi, Option.some.inj hdir⟩
      · rw [henl.other type' htype] at hi
        omega
  have hused : ∀ type' i t, 512 * i < (h.storage type').length → (h.storage type').directory i = some t → h.heap t ≠ none := by
    intro type' i t hi hdir
    obtain ⟨t', table, hdir', hheap⟩ := hshape.table type' i hi
    rw [hdir, Option.some.injEq] at hdir'
    rw [hdir', hheap]
    exact some_ne_none _
  refine ⟨fun type' i hi => ?_, fun type₁ type₂ i₁ i₂ t hi₁ hi₂ hdir₁ hdir₂ => ?_, fun type' => ?_, fun type' hpos => ?_⟩
  · rcases Nat.lt_or_ge (512 * i) (h.storage type').length with hlt | hge
    · obtain ⟨t, table, hdir, hheap⟩ := hshape.table type' i hlt
      exact ⟨t, table, (henl.directory_of_lt hvalid hshape hsafe hlt).trans hdir, henl.heap_of_some hvalid hheap⟩
    · by_cases htype : type' = type
      · subst htype
        rw [henl.length] at hi
        exact ⟨tables i, zeroTable, henl.new i hge hi⟩
      · rw [henl.other type' htype] at hi
        omega
  · rcases hslot type₁ i₁ t hi₁ hdir₁ with ⟨rfl, hnew₁, hlt₁, heq₁⟩ | ⟨hold₁, hdir₁'⟩
    · rcases hslot type₂ i₂ t hi₂ hdir₂ with ⟨rfl, hnew₂, hlt₂, heq₂⟩ | ⟨hold₂, hdir₂'⟩
      · exact ⟨rfl, (hvalid.2 i₁ hnew₁ hlt₁).2 i₂ hnew₂ hlt₂ (heq₁.trans heq₂.symm)⟩
      · exact absurd (heq₁ ▸ (hvalid.2 i₁ hnew₁ hlt₁).1) (hused type₂ i₂ t hold₂ hdir₂')
    · rcases hslot type₂ i₂ t hi₂ hdir₂ with ⟨rfl, hnew₂, hlt₂, heq₂⟩ | ⟨hold₂, hdir₂'⟩
      · exact absurd (heq₂ ▸ (hvalid.2 i₂ hnew₂ hlt₂).1) (hused type₁ i₁ t hold₁ hdir₁')
      · exact hshape.inj type₁ type₂ i₁ i₂ t hold₁ hold₂ hdir₁' hdir₂'
  · by_cases htype : type' = type
    · subst htype
      rw [henl.length]
      exact hsafe.1
    · rw [henl.other type' htype]
      exact hshape.le type'
  · by_cases htype : type' = type
    · subst htype
      rw [henl.smallDir]
      split_ifs with hzero
      · have hn := hvalid.1
        exact .inr (henl.new 0 (by omega) (by omega)).1.symm
      · have hlt : 512 * 0 < (h.storage type').length := by omega
        rw [henl.directory_of_lt hvalid hshape hsafe hlt]
        exact hshape.small type' (by omega)
    · rw [henl.other type' htype] at hpos ⊢
      exact hshape.small type' hpos

/-- The entries of the blocks that were there stay as they are. -/
theorem Enlarged.reads (henl : Enlarged h type n tables h') (hreads : Reads h a) :
    ∃ a', Reads h' a' ∧ ∀ type', ∀ b < (h.storage type').length, a' type' b = a type' b := by
  -- what is in the tables: for the new blocks, whatever the table holds
  refine ⟨fun type' b => ((h'.storage type').directory (b / 512)).elim (zeroTable 0) fun t =>
    (h'.heap t).elim (zeroTable 0) (· (b % 512)), fun type' b _ t table hdir hheap => ?_, fun type' b hb => ?_⟩
  · dsimp only
    rw [hdir, elim_some, hheap, elim_some]
  · obtain ⟨t, table, hdir, hheap⟩ := hshape.table type' (b / 512) (by omega)
    dsimp only
    rw [henl.directory_of_lt hvalid hshape hsafe (by omega), hdir, elim_some, henl.heap_of_some hvalid hheap, elim_some]
    exact hreads type' b hb t table hdir hheap

end Grow

theorem Reads.congr {a' : Entries} (hreads : Reads h a) (heq : ∀ type, ∀ b < (h.storage type).length, a type b = a' type b) :
    Reads h a' :=
  fun type b hb t table hdir hheap => (hreads type b hb t table hdir hheap).trans (heq type b hb)

theorem installAt_newBin {a a' : ℕ → HMapEntry} (hi : i < b + n) (heq : i < b → a i = a' i) :
    installAt a b (newBinEntries k n) i = installAt a' b (newBinEntries k n) i := by
  unfold installAt newBinEntries
  split_ifs with hlt
  · exact heq hlt
  · rw [getElem?_map, getElem?_range (by omega)]
    rfl

theorem newBinEntries_length : (newBinEntries k n).length = n := by
  unfold newBinEntries
  rw [length_map, length_range]

/-- **The step of a growth.** -/
theorem Call.addBin_spec (hshape : Shape h) (hreads : Reads h a) (hvalid : (Call.addBin type n k tables).Valid h)
    (hsafe : (Call.addBin type n k tables).Safe h) :
    ∃ h', (Call.addBin type n k tables).run h = some h' ∧ Shape h' ∧ Reads h' ((Call.addBin type n k tables).install h a) := by
  have henl := enlarge_spec h type tables hvalid.1
  obtain ⟨a', hreads', hsame⟩ := henl.reads hvalid hshape hsafe hreads
  obtain ⟨h', hrun, hstorage, hshape', hreads''⟩ :=
    updateBlocks_spec type (h.storage type).length (newBinEntries k n) (henl.shape hvalid hshape hsafe) hreads'
      (by rw [newBinEntries_length, henl.length])
  refine ⟨h', ?_, hshape', hreads''.congr fun type' b hb => ?_⟩
  · unfold Call.run Call.changes
    dsimp only
    rw [if_neg (Nat.not_lt.mpr hsafe.1)]
    exact hrun
  · unfold Call.install Call.changes
    dsimp only
    rw [hstorage] at hb
    by_cases htype : type' = type
    · subst htype
      rw [henl.length] at hb
      rw [update_self, update_self]
      exact installAt_newBin hb fun hlt => hsame type' b hlt
    · rw [henl.other type' htype] at hb
      rw [update_of_ne htype, update_of_ne htype]
      exact hsame type' b hb

/-- A growth that is not safe leaves the first blocks without a table, if it comes to an end at all. -/
theorem Call.addBin_not_total (hvalid : (Call.addBin type n k tables).Valid h) (hnot : ¬(Call.addBin type n k tables).Safe h)
    (hrun : (Call.addBin type n k tables).run h = some h') : ¬Total h' a := by
  intro htotal
  have henl := enlarge_spec h type tables hvalid.1
  unfold Call.run Call.changes at hrun
  dsimp only at hrun
  split_ifs at hrun with hlength
  unfold Call.Safe at hnot
  rw [not_and, not_not] at hnot
  obtain ⟨hpos, hle, hlt, hnone⟩ := hnot (Nat.le_of_not_lt hlength)
  have hstorage := updateBlocks_storage hrun
  have hlength' : (h'.storage type).length = (h.storage type).length + n := by rw [hstorage, henl.length]
  have hslot : (h'.storage type).directory 0 = none := by
    rw [hstorage, henl.old 0 (by omega), if_pos ⟨hle, hlt⟩, hnone]
  obtain ⟨t, k, table, hentry, -⟩ := htotal.entry type 0 (by omega)
  rw [hvpGetCellMap_eq (by omega) (by omega), Nat.zero_div, hslot] at hentry
  cases hentry

/-! ### Truncation -/

/-- What cutting the map does: a table is freed if its first block is cut off. -/
structure Truncated (h : HHive) (type : HStorageType) (start : ℕ) (h' : HHive) : Prop where
  other : ∀ type', type' ≠ type → h'.storage type' = h.storage type'
  length : (h'.storage type).length = start
  smallDir : 0 < start → (h'.storage type).smallDir = (h.storage type).smallDir
  old : ∀ i, 512 * i < start → (h'.storage type).directory i = (h.storage type).directory i
  heap : ∀ t, (∀ i, start ≤ 512 * i → 512 * i < (h.storage type).length → (h.storage type).directory i ≠ some t) →
    h'.heap t = h.heap t

theorem hvFreeHivePartial_truncated (hle : (h.storage type).length ≤ 524288) (hstart : start ≤ (h.storage type).length) :
    Truncated h type start (hvFreeHivePartial h type start) := by
  unfold hvFreeHivePartial
  dsimp only
  by_cases hsame : start = (h.storage type).length
  · rw [if_pos hsame]
    exact ⟨fun _ _ => rfl, hsame.symm, fun _ => rfl, fun _ _ => rfl, fun _ _ => rfl⟩
  have hlast : (if 1024 ≤ ((h.storage type).length - 1) / 512 then 1023 else ((h.storage type).length - 1) / 512) =
      ((h.storage type).length - 1) / 512 := if_neg (by omega)
  rw [if_neg hsame, hlast]
  -- the first table that is freed
  have hfirst : ∀ i, i < (if 0 < start then (start - 1) / 512 + 1 else 0) ↔ 512 * i < start := by
    intro i
    split_ifs <;> omega
  generalize (if 0 < start then (start - 1) / 512 + 1 else 0) = first at hfirst
  obtain ⟨hdir, hheap⟩ := hvpFreeMap_spec (n := ((h.storage type).length - 1) / 512 + 1 - first)
  generalize hvpFreeMap h.heap (h.storage type).directory first (((h.storage type).length - 1) / 512 + 1 - first) =
    freed at hdir hheap
  have hkept : ∀ i, 512 * i < start → freed.2 i = (h.storage type).directory i := by
    intro i hi
    have := (hfirst i).mpr hi
    rw [hdir, if_neg (by omega)]
  have hheap' : ∀ t, (∀ i, start ≤ 512 * i → 512 * i < (h.storage type).length → (h.storage type).directory i ≠ some t) →
      freed.1 t = h.heap t := by
    intro t ht
    refine hheap t fun i hi hlt => ht i ?_ (by omega)
    have := hfirst i
    omega
  cases hmap : (h.storage type).map with
  | none =>
    have hsmall : (h.storage type).directory = smallDirectory (h.storage type).smallDir := by
      unfold Storage.directory
      rw [hmap]
      rfl
    refine ⟨fun type' hne => set_storage_of_ne hne, by rw [set_storage], fun hpos => ?_, fun i hi => ?_, hheap'⟩
    · rw [set_storage]
      refine (hkept 0 (by omega)).trans ?_
      rw [hsmall]
      rfl
    · rw [set_storage, hsmall]
      change smallDirectory (freed.2 0) i = smallDirectory (h.storage type).smallDir i
      rw [hkept 0 (by omega), hsmall]
      rfl
  | some dir =>
    refine ⟨fun type' hne => set_storage_of_ne hne, by rw [set_storage], fun _ => by rw [set_storage], fun i hi => ?_, hheap'⟩
    rw [set_storage]
    exact hkept i hi

section Cut

variable (hstart : start ≤ (h.storage type).length) (hcut : Truncated h type start h')
include hstart hcut

theorem Truncated.length_le (type' : HStorageType) : (h'.storage type').length ≤ (h.storage type').length := by
  by_cases htype : type' = type
  · subst htype
    rwa [hcut.length]
  · rw [hcut.other type' htype]

theorem Truncated.slot (hi : 512 * i < (h'.storage type').length) :
    512 * i < (h.storage type').length ∧ (h'.storage type').directory i = (h.storage type').directory i := by
  refine ⟨hi.trans_le (hcut.length_le hstart type'), ?_⟩
  by_cases htype : type' = type
  · subst htype
    exact hcut.old i (hcut.length ▸ hi)
  · rw [hcut.other type' htype]

variable (hshape : Shape h)
include hshape

theorem Truncated.heap_eq (hi : 512 * i < (h'.storage type').length) (hdir : (h'.storage type').directory i = some t) :
    h'.heap t = h.heap t := by
  obtain ⟨hlt, hslot⟩ := hcut.slot hstart hi
  refine hcut.heap t fun j hj hjlt hsame => ?_
  obtain ⟨htype, hij⟩ := hshape.inj type' type i j t hlt hjlt (hslot.symm.trans hdir) hsame
  subst htype hij
  rw [hcut.length] at hi
  omega

theorem Truncated.shape : Shape h' := by
  refine ⟨fun type' i hi => ?_, fun type₁ type₂ i₁ i₂ t hi₁ hi₂ hdir₁ hdir₂ => ?_, fun type' => ?_, fun type' hpos => ?_⟩
  · obtain ⟨hlt, hslot⟩ := hcut.slot hstart hi
    obtain ⟨t, table, hdir, hheap⟩ := hshape.table type' i hlt
    exact ⟨t, table, hslot.trans hdir, (hcut.heap_eq hstart hshape hi (hslot.trans hdir)).trans hheap⟩
  · obtain ⟨hlt₁, hslot₁⟩ := hcut.slot hstart hi₁
    obtain ⟨hlt₂, hslot₂⟩ := hcut.slot hstart hi₂
    exact hshape.inj type₁ type₂ i₁ i₂ t hlt₁ hlt₂ (hslot₁.symm.trans hdir₁) (hslot₂.symm.trans hdir₂)
  · exact (hcut.length_le hstart type').trans (hshape.le type')
  · obtain ⟨hlt, hslot⟩ := hcut.slot hstart (i := 0) (by omega)
    by_cases htype : type' = type
    · subst htype
      rw [hslot, hcut.smallDir (hcut.length ▸ hpos)]
      exact hshape.small type' (by omega)
    · rw [hcut.other type' htype] at hpos ⊢
      exact hshape.small type' hpos

theorem Truncated.reads (hreads : Reads h a) : Reads h' a := by
  intro type' b hb t table hdir hheap
  obtain ⟨-, hslot⟩ := hcut.slot hstart (show 512 * (b / 512) < (h'.storage type').length by omega)
  have hb' := hb.trans_le (hcut.length_le hstart type')
  rw [hcut.heap_eq hstart hshape (by omega) hdir] at hheap
  exact hreads type' b hb' t table (hslot.symm.trans hdir) hheap

end Cut

/-! ### Sequences of calls -/

/-- **One call**: it comes to an end with a map of the same shape if it is safe, and with none that is total if it is not. -/
theorem Call.run_spec (hshape : Shape h) (hreads : Reads h a) {call : Call} (hvalid : call.Valid h) (hsafe : call.Safe h) :
    ∃ h', call.run h = some h' ∧ Shape h' ∧ Reads h' (call.install h a) := by
  have hblocks : ∀ type b fs, b + fs.length ≤ (h.storage type).length →
      ∃ h', updateBlocks h type b fs = some h' ∧ Shape h' ∧ Reads h' (Function.update a type (installAt (a type) b fs)) := by
    intro type b fs hle
    obtain ⟨h', hrun, -, hshape'⟩ := updateBlocks_spec type b fs hshape hreads hle
    exact ⟨h', hrun, hshape'⟩
  cases call with
  | addBin type n newBin tables => exact Call.addBin_spec hshape hreads hvalid hsafe
  | addDiscardedBin type b n newBin => exact hblocks type b _ (by rwa [newBinEntries_length])
  | addDiscardableBin type b n => exact hblocks type b _ (by rwa [keptBinEntries, length_map, length_range])
  | enlistFreeBin type b n freeBin => exact hblocks type b _ (by rwa [discardableEntries, length_replicate])
  | freePartial type start =>
    have hcut := hvFreeHivePartial_truncated (hshape.le type) hvalid
    refine ⟨_, rfl, hcut.shape hvalid hshape, ?_⟩
    have hsame : (Call.freePartial type start).install h a = a := by
      unfold Call.install Call.changes
      dsimp only
      rw [installAt_nil, update_eq_self]
    rw [hsame]
    exact hcut.reads hvalid hshape hreads

theorem TotalAlong.total {calls : List Call} (htotal : TotalAlong h a calls) : Total h a := by
  cases calls with
  | nil => exact htotal
  | cons => exact htotal.1

theorem totalAlong_iff {calls : List Call} (hshape : Shape h) (hreads : Reads h a) : TotalAlong h a calls ↔ SafeAlong h calls := by
  induction calls generalizing h a with
  | nil => exact iff_of_true (hshape.total hreads) trivial
  | cons call calls ih =>
    constructor
    · rintro ⟨-, hrest⟩ hvalid
      obtain ⟨h', hrun, htotal⟩ := hrest hvalid
      have hsafe : call.Safe h := by
        cases call with
        | addBin type n newBin tables =>
          by_contra hnot
          exact Call.addBin_not_total hvalid hnot hrun htotal.total
        | _ => trivial
      obtain ⟨h'', hrun', hshape', hreads'⟩ := Call.run_spec hshape hreads hvalid hsafe
      rw [hrun, Option.some.injEq] at hrun'
      subst hrun'
      refine ⟨hsafe, fun h'' hrun'' => ?_⟩
      rw [hrun, Option.some.injEq] at hrun''
      exact hrun'' ▸ (ih hshape' hreads').mp htotal
    · intro hsafe
      refine ⟨hshape.total hreads, fun hvalid => ?_⟩
      obtain ⟨hcall, hrest⟩ := hsafe hvalid
      obtain ⟨h', hrun, hshape', hreads'⟩ := Call.run_spec hshape hreads hvalid hcall
      exact ⟨h', hrun, (ih hshape' hreads').mpr (hrest h' hrun)⟩

/-! ### From the start of a hive -/

/-- The image has blocks, and not more than a directory has slots for. -/
def Start.Fits : Start → Prop
  | .created => True
  | .built image sizes => 0 < (imageEntries image 0 sizes).length ∧ (imageEntries image 0 sizes).length ≤ 524288
  | .copied bins => 0 < (copyEntries bins).length ∧ (copyEntries bins).length ≤ 524288

variable (tables) in
theorem buildTables_spec (hn : 0 < n) :
    ((buildTables tables n).storage .stable).length = n ∧ ((buildTables tables n).storage .volatile).length = 0 ∧
      (∀ i, 512 * i < n → ((buildTables tables n).storage .stable).directory i = some (tables i) ∧
        (buildTables tables n).heap (tables i) = some zeroTable) ∧
      (((buildTables tables n).storage .stable).smallDir = none ∨
        ((buildTables tables n).storage .stable).smallDir = ((buildTables tables n).storage .stable).directory 0) := by
  unfold buildTables
  dsimp only
  split_ifs with hone
  · refine ⟨by rw [set_storage], rfl, fun i hi => ?_, .inr ?_⟩
    · obtain rfl : i = 0 := by omega
      rw [set_storage, set_heap, update_self]
      exact ⟨rfl, rfl⟩
    · rw [set_storage]
      rfl
  · obtain ⟨hdir, hnew, -⟩ := hvpAllocateMap_spec (n := (n - 1) / 512 + 1)
    refine ⟨by rw [set_storage], rfl, fun i hi => ?_, .inl (by rw [set_storage])⟩
    rw [set_storage, set_heap]
    exact ⟨(hdir i).trans (if_pos (by omega)), hnew i (by omega) (by omega)⟩

theorem buildTables_shape (htables : Function.Injective tables) (hn : 0 < n) (hle : n ≤ 524288) :
    Shape (buildTables tables n) ∧ Reads (buildTables tables n) fun _ => zeroTable := by
  obtain ⟨hlength, hvolatile, hnew, hsmall⟩ := buildTables_spec tables hn
  have hslot : ∀ type i, 512 * i < ((buildTables tables n).storage type).length →
      type = .stable ∧ ((buildTables tables n).storage type).directory i = some (tables i) ∧
        (buildTables tables n).heap (tables i) = some zeroTable := by
    intro type i hi
    cases type with
    | stable => exact ⟨rfl, hnew i (by omega)⟩
    | volatile => omega
  refine ⟨⟨fun type i hi => ?_, fun type₁ type₂ i₁ i₂ t hi₁ hi₂ hdir₁ hdir₂ => ?_, fun type => ?_, fun type hpos => ?_⟩,
    fun type b hb t table hdir hheap => ?_⟩
  · exact ⟨tables i, zeroTable, (hslot type i hi).2⟩
  · obtain ⟨rfl, hslot₁, -⟩ := hslot type₁ i₁ hi₁
    obtain ⟨rfl, hslot₂, -⟩ := hslot type₂ i₂ hi₂
    rw [hslot₁, Option.some.injEq] at hdir₁
    rw [hslot₂, Option.some.injEq] at hdir₂
    exact ⟨rfl, htables (hdir₁.trans hdir₂.symm)⟩
  · cases type with
    | stable => rwa [hlength]
    | volatile => omega
  · cases type with
    | stable => exact hsmall
    | volatile => omega
  · obtain ⟨-, hslot', hzero⟩ := hslot type (b / 512) (by omega)
    rw [hslot', Option.some.injEq] at hdir
    rw [← hdir, hzero, Option.some.injEq] at hheap
    rw [← hheap]
    rfl

theorem buildMap_spec (entries : List HMapEntry) (htables : Function.Injective tables) (hn : 0 < entries.length)
    (hle : entries.length ≤ 524288) :
    ∃ h, buildMap tables entries = some h ∧ Shape h ∧ Reads h fun _ => installAt zeroTable 0 (entries.map fun e _ => e) := by
  obtain ⟨hlength, hvolatile, -⟩ := buildTables_spec tables hn
  obtain ⟨hshape, hreads⟩ := buildTables_shape htables hn hle
  obtain ⟨h, hrun, hstorage, hshape', hreads'⟩ :=
    updateBlocks_spec .stable 0 (entries.map fun e _ => e) hshape hreads
      (by rw [length_map, Nat.zero_add, hlength])
  refine ⟨h, by rw [buildMap, if_neg (by omega)]; exact hrun, hshape', hreads'.congr fun type b hb => ?_⟩
  cases type with
  | stable => rw [update_self]
  | volatile =>
    rw [hstorage, hvolatile] at hb
    exact absurd hb (Nat.not_lt_zero b)

theorem emptyHive_shape : Shape emptyHive ∧ Reads emptyHive fun _ => zeroTable :=
  ⟨⟨fun _ _ hi => absurd hi (Nat.not_lt_zero _), fun _ _ _ _ _ hi => absurd hi (Nat.not_lt_zero _), fun _ => Nat.zero_le _,
    fun _ hpos => absurd hpos (Nat.lt_irrefl 0)⟩, fun _ _ hb => absurd hb (Nat.not_lt_zero _)⟩

theorem Start.hive_spec (htables : Function.Injective tables) (first : Start) :
    (first.Fits → ∃ h, first.hive tables = some h ∧ Shape h ∧ Reads h first.installed) ∧
    (¬first.Fits → first.hive tables = none) := by
  have hnone : ∀ entries : List HMapEntry, ¬(0 < entries.length ∧ entries.length ≤ 524288) → buildMap tables entries = none :=
    fun entries hfits => if_pos (by omega)
  cases first with
  | created => exact ⟨fun _ => ⟨emptyHive, rfl, emptyHive_shape⟩, fun hfits => absurd trivial hfits⟩
  | built image sizes => exact ⟨fun hfits => buildMap_spec _ htables hfits.1 hfits.2, hnone _⟩
  | copied bins => exact ⟨fun hfits => buildMap_spec _ htables hfits.1 hfits.2, hnone _⟩

/-- **The cell map stays total** over any sequence of calls, from any start, if and only if the image fits into a directory
and no call grows a storage past 2^31 bytes, or past its first table while `SmallDir` is `NULL`. -/
theorem total_along_iff (first : Start) (tables : ℕ → ℕ) (htables : Function.Injective tables) (calls : List Call) :
    (∃ h, first.hive tables = some h ∧ TotalAlong h first.installed calls) ↔
      first.Fits ∧ ∀ h, first.hive tables = some h → SafeAlong h calls := by
  obtain ⟨hfits, hnone⟩ := first.hive_spec htables
  constructor
  · rintro ⟨h, hhive, htotal⟩
    have hfit : first.Fits := by
      by_contra hnot
      rw [hnone hnot] at hhive
      cases hhive
    refine ⟨hfit, fun h' hhive' => ?_⟩
    obtain ⟨h'', hhive'', hshape, hreads⟩ := hfits hfit
    rw [hhive, Option.some.injEq] at hhive' hhive''
    subst hhive' hhive''
    exact (totalAlong_iff hshape hreads).mp htotal
  · rintro ⟨hfit, hsafe⟩
    obtain ⟨h, hhive, hshape, hreads⟩ := hfits hfit
    exact ⟨h, hhive, (totalAlong_iff hshape hreads).mpr (hsafe h hhive)⟩

/-- A hive that is created empty grows past its first table, is cut to 100 blocks and grows past its first table again. -/
theorem total_along_regrown : ∃ h, Start.created.hive id = some h ∧ TotalAlong h Start.created.installed
    [.addBin .stable 600 0x100000 id, .freePartial .stable 100, .addBin .stable 600 0x400000 (· + 10)] := by
  refine (total_along_iff .created id injective_id _).mpr ⟨trivial, fun h hhive _ => ?_⟩
  cases hhive
  refine ⟨⟨by decide, fun hsmall => absurd hsmall.1 (by decide)⟩,
    fun h₁ hrun _ => ⟨trivial, fun h₂ hcut _ => ⟨?_, fun _ _ => trivial⟩⟩⟩
  cases hcut
  -- the first table stays in `SmallDir`
  have henl := enlarge_spec emptyHive .stable id (show 0 < 600 by decide)
  unfold Call.run at hrun
  dsimp only at hrun
  rw [if_neg (by decide)] at hrun
  have hlength := henl.length
  have hsmallDir := henl.smallDir
  rw [← updateBlocks_storage hrun] at hlength hsmallDir
  have hcut : Truncated h₁ .stable 100 _ := hvFreeHivePartial_truncated (by rw [hlength]; decide) (by rw [hlength]; decide)
  refine ⟨by rw [hcut.length]; decide, fun hsmall => ?_⟩
  rw [hcut.smallDir (by decide), hsmallDir] at hsmall
  cases hsmall.2.2.2

theorem updateBlocks_heap_none (hrun : updateBlocks h type b fs = some h') (hnone : h.heap t = none) : h'.heap t = none := by
  induction fs generalizing h b with
  | nil => cases hrun; exact hnone
  | cons f fs ih =>
    obtain ⟨h₁, hrun₁, hrest⟩ := bind_eq_some_iff.mp hrun
    refine ih hrest ?_
    unfold updateEntry at hrun₁
    split at hrun₁
    · obtain ⟨table, hheap, rfl⟩ := map_eq_some_iff.mp hrun₁
      refine (update_of_ne (fun heq => ?_) ..).trans hnone
      rw [← heq, hnone] at hheap
      cases hheap
    · cases hrun₁

/-- The map of a copied image of 513 blocks, in a bin of 512 and a bin of one, is cut after the first bin and then gets a
bin of one block: no table is left for block 0. -/
theorem total_along_lost :
    ∃ h₁ h₂ h₃, (Start.copied [(0x100000, 512), (0x400000, 1)]).hive id = some h₁ ∧
      (Call.freePartial .stable 512).Valid h₁ ∧ (Call.freePartial .stable 512).run h₁ = some h₂ ∧
      (Call.addBin .stable 1 0x500000 (· + 2)).Valid h₂ ∧ (Call.addBin .stable 1 0x500000 (· + 2)).run h₂ = some h₃ ∧
      (h₃.storage .stable).length = 513 ∧ hvpGetCellMap h₃ (cellIndex .stable 0) = .wild := by
  have hentries : (copyEntries [(0x100000, 512), (0x400000, 1)]).length = 513 := by simp [copyEntries]
  obtain ⟨hlength, -, hslots, -⟩ := buildTables_spec id (show 0 < 513 by decide)
  obtain ⟨h₁, hhive, hshape, -⟩ :=
    buildMap_spec (copyEntries [(0x100000, 512), (0x400000, 1)]) injective_id (by omega) (by omega)
  have hfill := hhive
  rw [buildMap, if_neg (by omega), hentries] at hfill
  have hstorage := updateBlocks_storage hfill
  have hsmall : (h₁.storage .stable).smallDir = none := by rw [hstorage]; rfl
  have hfree : h₁.heap 3 = none := updateBlocks_heap_none hfill rfl
  rw [← hstorage] at hlength hslots
  -- the table of the second bin is freed
  have hcut := hvFreeHivePartial_truncated (hshape.le .stable) (show 512 ≤ _ by omega)
  have hfree₂ : (hvFreeHivePartial h₁ .stable 512).heap 3 = none := by
    refine (hcut.heap 3 fun i hi hlt hdir => ?_).trans hfree
    rw [(hslots i (by omega)).1, show i = 1 by omega] at hdir
    cases hdir
  have hvalid : (Call.addBin .stable 1 0x500000 (· + 2)).Valid (hvFreeHivePartial h₁ .stable 512) := by
    refine ⟨by decide, fun i hi hlt => ?_⟩
    rw [hcut.length] at hi hlt
    obtain rfl : i = 1 := by omega
    exact ⟨hfree₂, fun j _ _ heq => Nat.add_right_cancel heq⟩
  -- the new directory has an empty first slot
  have henl := enlarge_spec (hvFreeHivePartial h₁ .stable 512) .stable (· + 2) Nat.one_pos
  have hlength₃ := henl.length
  have hnew := henl.new 1 (by rw [hcut.length]) (by rw [hcut.length]; decide)
  have hfirst := henl.old 0 (by rw [hcut.length]; decide)
  rw [hcut.length] at hlength₃ hfirst
  rw [if_pos (by decide), hcut.smallDir (by decide), hsmall] at hfirst
  have hentry : hvpGetCellMap (enlarge (hvFreeHivePartial h₁ .stable 512) .stable 1 (· + 2)) (cellIndex .stable 512) =
    .entry 3 0 := by
    rw [hvpGetCellMap_eq (by omega) (by omega), hnew.1]
  have hrun : ∃ h₃, (Call.addBin .stable 1 0x500000 (· + 2)).run (hvFreeHivePartial h₁ .stable 512) = some h₃ := by
    unfold Call.run Call.changes
    dsimp only
    rw [hcut.length, if_neg (by decide), newBinEntries, range_one, map_singleton, updateBlocks, updateEntry, hentry]
    dsimp only
    rw [hnew.2]
    exact ⟨_, rfl⟩
  obtain ⟨h₃, hrun⟩ := hrun
  refine ⟨h₁, _, h₃, hhive, show 512 ≤ (h₁.storage .stable).length by omega, rfl, hvalid, hrun, ?_⟩
  unfold Call.run at hrun
  dsimp only at hrun
  rw [if_neg (by rw [hcut.length]; decide)] at hrun
  have hstorage₃ := updateBlocks_storage hrun
  rw [← hstorage₃] at hlength₃ hfirst
  refine ⟨hlength₃, ?_⟩
  rw [hvpGetCellMap_eq (by omega) (by omega), Nat.zero_div, hfirst]

end Nt365.Config.CellMap
