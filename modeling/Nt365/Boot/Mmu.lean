import Nt365.Library.Stores
import Nt365.Library.Word
import Mathlib.Data.Nat.Count

/-!
# The boot loader's pages and page tables

`boot/mmu.c` registers every range of pages that the loader takes, with what it is for (`memmap.c` gives the ranges
their types in the memory map), and builds the page tables that the kernel starts with: each page of a mapped range at
its own address and, for ranges that the loader allocated, at `0x80000000` above it. The tables come from a pool
that is as large as a count of the 4 MB slots says (`count_pt_slots`).

## The model

The registries are lists, and the bitmaps of slots are functions on the numbers below `512`. `be_alloc_pages` is a parameter: what
it answers may depend on all requests so far. Memory holds a 32-bit word at each address that is a multiple of four,
and the stores of `build_page_tables` are a list of addresses and words. What is written to the log is left out, and so are
the addresses that `build_page_tables` does not use (of the TSS, the stack, the GDT and the IDT).
-/

namespace Nt365.Boot

open Nt365.Library

/-- `PageKind`. -/
inductive PageKind where
  | free
  | kernelImage
  | halImage
  | bootDriver
  | registry
  | nls
  | pcr
  | memoryData
  | firmwarePerm
  | firmwareTemp
deriving DecidableEq

/-- `AllocEntry`. -/
structure AllocEntry where
  phys : ℕ
  pages : ℕ
  kind : PageKind
  noMap : Bool
deriving DecidableEq

namespace AllocEntry

/-- The page is one of the range. -/
def Covers (e : AllocEntry) (page : ℕ) : Prop := e.phys / 4096 ≤ page ∧ page < e.phys / 4096 + e.pages

instance (e : AllocEntry) (page : ℕ) : Decidable (e.Covers page) := inferInstanceAs (Decidable (_ ∧ _))

end AllocEntry

/-- `BeAllocMode`. -/
inductive BeAllocMode where
  | any
  | at
  | max
deriving DecidableEq

/-- The arguments of `be_alloc_pages`. -/
structure Request where
  mode : BeAllocMode
  pages : ℕ
  want : ℕ
deriving DecidableEq

inductive Status where
  | success
  | outOfResources
deriving DecidableEq

/-- The variables of `mmu.c`, and the requests for pages, with the last one first. -/
structure Mmu where
  reg : List AllocEntry
  image : List AllocEntry
  pd : ℕ
  pts : ℕ
  ptPoolPages : ℕ
  pcr : ℕ
  sud : ℕ
  requests : List Request

namespace Mmu

def init : Mmu := ⟨[], [], 0, 0, 0, 0, 0, []⟩

def registryMax : ℕ := 64

def imageMax : ℕ := 8

/-! ### Registering -/

section Alloc

-- `be_alloc_pages`, on the requests so far.
variable (beAllocPages : List Request → ℕ)

variable (pages : ℕ)

/-- `mmu_alloc_impl`; the address is what is written to `*out_phys`. -/
def mmuAllocImpl (kind : PageKind) (mode : BeAllocMode) (preferred : ℕ) (noMap : Bool) (s : Mmu) : Mmu × Option ℕ :=
  if s.reg.length ≥ registryMax then (s, none)
  else
    let requests := ⟨mode, pages, preferred⟩ :: s.requests
    let phys := beAllocPages requests
    if phys = 0 then ({ s with requests := requests }, none)
    else ({ s with requests := requests, reg := s.reg ++ [⟨phys, pages, kind, noMap⟩] }, some phys)

def mmuAlloc (kind : PageKind) : Mmu → Mmu × Option ℕ := mmuAllocImpl beAllocPages pages kind .any 0 false

def mmuAllocAt (kind : PageKind) (preferred : ℕ) : Mmu → Mmu × Option ℕ :=
  mmuAllocImpl beAllocPages pages kind .at preferred false

def mmuAllocBelow (kind : PageKind) (maxAddr : ℕ) : Mmu → Mmu × Option ℕ :=
  mmuAllocImpl beAllocPages pages kind .max maxAddr false

def mmuAllocReserve (kind : PageKind) : Mmu → Mmu × Option ℕ := mmuAllocImpl beAllocPages pages kind .any 0 true

def mmuRegisterImage (phys pages : ℕ) (s : Mmu) : Mmu :=
  if s.image.length ≥ imageMax then s
  else { s with image := s.image ++ [⟨phys, pages, .firmwareTemp, false⟩] }

def mmuReserve (phys pages : ℕ) (kind : PageKind) (s : Mmu) : Mmu :=
  if s.reg.length ≥ registryMax then s
  else { s with reg := s.reg ++ [⟨phys, pages, kind, true⟩] }

def low16M : ℕ := 0x01000000

/-- `s = mmu_alloc_below(pages, kind, LOW16M, &g_phys_x); if (EFI_ERROR(s)) return s;`, and what follows. -/
def allocInto (kind : PageKind) (set : ℕ → Mmu → Mmu) (next : Mmu → Mmu × Status) (s : Mmu) : Mmu × Status :=
  match mmuAllocBelow beAllocPages pages kind low16M s with
  | (s, none) => (s, .outOfResources)
  | (s, some phys) => next (set phys s)

/-- `mmu_alloc_reserved`. -/
def mmuAllocReserved : Mmu → Mmu × Status :=
  allocInto beAllocPages 1 .memoryData (fun phys s => { s with pd := phys }) <|
  allocInto beAllocPages 1 .pcr (fun phys s => { s with pcr := phys }) <|
  allocInto beAllocPages 1 .pcr (fun phys s => { s with sud := phys }) <|
  allocInto beAllocPages 3 .memoryData (fun _ s => s) <|
  allocInto beAllocPages 4 .memoryData (fun _ s => s) <|
  allocInto beAllocPages 1 .memoryData (fun _ s => s) <|
  allocInto beAllocPages 1 .memoryData (fun _ s => s) fun s => (s, .success)

end Alloc

/-! ### The pool -/

/-- `for (i = start; i <= end && i < 512; i++) slot[i] = 1;` for the slots of a range; `hi` is a `UINT64`. -/
def markSlots (slot : ℕ → Bool) (e : AllocEntry) : ℕ → Bool :=
  let lo := e.phys
  let hi := (lo + e.pages * 4096 + 18446744073709551615) % 18446744073709551616
  fun i => (decide (lo / 4194304 ≤ i) && decide (i ≤ hi / 4194304) && decide (i < 512)) || slot i

variable (s : Mmu)

/-- `ks_slot` of `count_pt_slots`. -/
def ksSlot : ℕ → Bool :=
  s.reg.foldl (fun slot e => if e.noMap then slot else markSlots slot e) fun _ => false

/-- `id_slot` of `count_pt_slots`. -/
def idSlot : ℕ → Bool :=
  s.image.foldl markSlots (s.reg.foldl (fun slot e => if e.noMap then slot else markSlots slot e) fun _ => false)

/-- The result of `count_pt_slots`. -/
def countPtSlots : ℕ := Nat.count (s.idSlot · = true) 512 + Nat.count (s.ksSlot · = true) 512 + 1

variable (beAllocPages : List Request → ℕ)

/-- `mmu_alloc_pt_pool`. -/
def mmuAllocPtPool (s : Mmu) : Mmu × Status :=
  let total := s.countPtSlots
  allocInto beAllocPages total .memoryData (fun phys s => { s with pts := phys })
    (fun s => ({ s with ptPoolPages := total }, .success)) s

/-! ### The tables -/

/-- A word at each address that is a multiple of four. -/
abbrev Memory : Type := ℕ → ℕ

/-- `id_pt_phys` or `ks_pt_phys`, and the cursor after them: a table for each slot, one after the other. -/
def assignTables (slot : ℕ → Bool) (cursor : ℕ) : (ℕ → ℕ) × ℕ :=
  (List.range 512).foldl (fun a i => if slot i then (Function.update a.1 i a.2, add32 a.2 4096) else a) (fun _ => 0, cursor)

def idPtPhys : ℕ → ℕ := (assignTables s.idSlot (u32 s.pts)).1

def ksPtPhys : ℕ → ℕ := (assignTables s.ksSlot (assignTables s.idSlot (u32 s.pts)).2).1

def halPtPhys : ℕ := (assignTables s.ksSlot (assignTables s.idSlot (u32 s.pts)).2).2

/-- `| PAGE_PRESENT | PAGE_RW`. -/
def present (phys : ℕ) : ℕ := phys ||| 3

def zeroWords (base n : ℕ) : List (ℕ × ℕ) := (List.range n).map fun i => (base + 4 * i, 0)

/-- The entries of the page directory for the slots. -/
def slotStores : List (ℕ × ℕ) :=
  (List.range 512).flatMap fun i =>
    (if s.idPtPhys i ≠ 0 then [(s.pd + 4 * i, present (s.idPtPhys i))] else []) ++
    if s.ksPtPhys i ≠ 0 then [(s.pd + 4 * (512 + i), present (s.ksPtPhys i))] else []

/-- The self-map and the table of the HAL. -/
def fixedStores : List (ℕ × ℕ) := [(s.pd + 4 * 768, present (u32 s.pd)), (s.pd + 4 * 1023, present s.halPtPhys)]

/-- The loop over the pages of an entry, which `POPULATE_IDENTITY` and the loop for the mirror share; the former
leaves out page `0`. -/
def populate (skipZero : Bool) (tables : ℕ → ℕ) (e : AllocEntry) : List (ℕ × ℕ) :=
  (List.range e.pages).flatMap fun p =>
    let phys := add32 (u32 e.phys) (u32 (p * 4096))
    if skipZero ∧ phys = 0 then []
    else if phys / 4194304 ≥ 512 ∨ tables (phys / 4194304) = 0 then []
    else [(tables (phys / 4194304) + 4 * (phys / 4096 % 1024), present phys)]

def tableStores : List (ℕ × ℕ) :=
  (s.reg.flatMap fun e => if e.noMap then [] else populate true s.idPtPhys e ++ populate false s.ksPtPhys e) ++
  s.image.flatMap fun e => populate true s.idPtPhys e

/-- The entries of the table of the HAL. -/
def halStores : List (ℕ × ℕ) :=
  [(s.halPtPhys + 4 * 511, present (u32 s.pcr)), (s.halPtPhys + 4 * 496, present (u32 s.sud))]

/-- The PCR page and the shared page. -/
def dataStores : List (ℕ × ℕ) := zeroWords s.pcr 1024 ++ zeroWords s.sud 1024

/-- `build_page_tables`. -/
def buildPageTables (mem : Memory) : Memory :=
  storeAll mem (zeroWords s.pd 1024 ++ zeroWords s.pts (s.ptPoolPages * 1024) ++ s.slotStores ++ s.fixedStores ++ s.tableStores ++
    s.halStores ++ s.dataStores)

/-! ### Calls -/

/-- A call before the pool is allocated. -/
inductive Call where
  | alloc (pages : ℕ) (kind : PageKind)
  | allocAt (pages : ℕ) (kind : PageKind) (preferred : ℕ)
  | allocBelow (pages : ℕ) (kind : PageKind) (maxAddr : ℕ)
  | allocReserve (pages : ℕ) (kind : PageKind)
  | allocReserved
  | reserve (phys pages : ℕ) (kind : PageKind)
  | registerImage (phys pages : ℕ)

def step (s : Mmu) : Call → Mmu
  | .alloc pages kind => (mmuAlloc beAllocPages pages kind s).1
  | .allocAt pages kind preferred => (mmuAllocAt beAllocPages pages kind preferred s).1
  | .allocBelow pages kind maxAddr => (mmuAllocBelow beAllocPages pages kind maxAddr s).1
  | .allocReserve pages kind => (mmuAllocReserve beAllocPages pages kind s).1
  | .allocReserved => (mmuAllocReserved beAllocPages s).1
  | .reserve phys pages kind => mmuReserve phys pages kind s
  | .registerImage phys pages => mmuRegisterImage phys pages s

def run (calls : List Call) : Mmu := calls.foldl (step beAllocPages) init

end Mmu

end Nt365.Boot
