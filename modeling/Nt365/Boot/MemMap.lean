import Nt365.Boot.Mmu
import Nt365.Library.Loop

/-!
# The memory map for the kernel

`memmap_to_nt` (`boot/memmap.c`) turns the regions that `be_memory_regions` returns, which are ranges of
bytes, into runs of pages with a type. Each region is split where the registry of allocations
(`mmu_registry_entry`) covers it, and a run that continues the one before it is merged with it.

## The model

Addresses and sizes are natural numbers and are cast to 32 bits where the code does. The output array
is a list with the last run first, which `memmapToNt` reverses. The loop of `split_by_registry` has as many
iterations as the region has pages.
-/

namespace Nt365.Boot

open Nt365.Library

namespace MemMap

/-- The loop of `split_by_registry` has not ended. -/
inductive Fault where
  | noEnd
deriving DecidableEq

inductive Status where
  | success
  | invalidParameter
  | notReady
deriving DecidableEq

/-- `BeMemType`. -/
inductive BeMemType where
  | free
  | bootReclaim
  | firmware
  | reserved
deriving DecidableEq

/-- `BeRegion`: a range of bytes. -/
structure BeRegion where
  base : ℕ
  size : ℕ
  type : BeMemType
deriving DecidableEq

/-- `NtMemEntry`: a run of pages. -/
structure NtMemEntry where
  memoryType : ℕ
  basePage : ℕ
  pageCount : ℕ
deriving DecidableEq

def loaderFree : ℕ := 2

def loaderFirmwareTemporary : ℕ := 5

def loaderFirmwarePermanent : ℕ := 6

def loaderSystemCode : ℕ := 9

def loaderHalCode : ℕ := 10

def loaderBootDriver : ℕ := 11

def loaderStartupPcrPage : ℕ := 17

def loaderRegistryData : ℕ := 19

def loaderMemoryData : ℕ := 20

def loaderNlsData : ℕ := 21

/-- `kind_to_nt`. -/
def kindToNt : PageKind → ℕ
  | .kernelImage => loaderSystemCode
  | .halImage => loaderHalCode
  | .bootDriver => loaderBootDriver
  | .registry => loaderRegistryData
  | .nls => loaderNlsData
  | .pcr => loaderStartupPcrPage
  | .memoryData => loaderMemoryData
  | .firmwarePerm => loaderFirmwarePermanent
  | .firmwareTemp => loaderFirmwareTemporary
  | _ => loaderFree

/-- `be_memtype_to_nt`. -/
def beMemtypeToNt : BeMemType → ℕ
  | .free => loaderFree
  | .bootReclaim => loaderFirmwareTemporary
  | .firmware => loaderFirmwarePermanent
  | _ => loaderFirmwarePermanent

section Emit

variable (cap : ℕ)

/-- `emit_entry`, with `run` for the type, the base page and the pages. -/
def emitEntry (out : List NtMemEntry) (run : NtMemEntry) : List NtMemEntry :=
  if run.pageCount = 0 ∨ out.length ≥ cap then out
  else
    match out with
    | [] => [run]
    | prev :: rest =>
      if prev.memoryType = run.memoryType ∧ add32 prev.basePage prev.pageCount = run.basePage then
        { prev with pageCount := add32 prev.pageCount run.pageCount } :: rest
      else run :: prev :: rest

/-- The overlap that has been found so far. -/
structure Overlap where
  start : ℕ
  stop : ℕ
  nt : ℕ
  found : Bool

/-- `rb` and `re`: the pages of an entry in 32 bits. -/
def registryPages (e : AllocEntry) : ℕ × ℕ :=
  let rb := u32 (e.phys / 4096)
  (rb, add32 rb (u32 e.pages))

/-- One iteration of the search for the overlap that starts first. -/
def overlapStep (cursor stop : ℕ) (best : Overlap) (e : AllocEntry) : Overlap :=
  let (rb, re) := registryPages e
  let os := if rb > cursor then rb else cursor
  let oe := if re < stop then re else stop
  if os ≥ oe then best
  else if os < best.start then ⟨os, oe, kindToNt e.kind, true⟩
  else best

variable (registry : List AllocEntry)

def firstOverlap (cursor stop : ℕ) : Overlap :=
  registry.foldl (overlapStep cursor stop) ⟨stop, stop, 0, false⟩

/-- One iteration of the loop of `split_by_registry`, from the cursor and the output. -/
def splitBody (coarse stop : ℕ) : ℕ × List NtMemEntry →
    Except Fault ((ℕ × List NtMemEntry) ⊕ List NtMemEntry)
  | (cursor, out) =>
    if cursor < stop then
      let best := firstOverlap registry cursor stop
      if best.found then
        let out := if best.start > cursor then emitEntry cap out ⟨coarse, cursor, sub32 best.start cursor⟩ else out
        .ok (.inl (best.stop, emitEntry cap out ⟨best.nt, best.start, sub32 best.stop best.start⟩))
      else .ok (.inr (emitEntry cap out ⟨coarse, cursor, sub32 stop cursor⟩))
    else .ok (.inr out)

/-- `split_by_registry`. -/
def splitByRegistry (descBase descPages coarse : ℕ) (out : List NtMemEntry) : Except Fault (List NtMemEntry) :=
  let stop := add32 descBase descPages
  loop .noEnd (splitBody cap registry coarse stop) (stop - descBase + 1) (descBase, out)

/-- One iteration of the loop of `memmap_to_nt`. -/
def regionStep (out : List NtMemEntry) (reg : BeRegion) : Except Fault (List NtMemEntry) :=
  if reg.type = .reserved then .ok out
  else
    let basePage := u32 (reg.base / 4096)
    let pages := u32 (reg.size / 4096)
    if pages = 0 then .ok out
    else splitByRegistry cap registry basePage pages (beMemtypeToNt reg.type) out

/-- `memmap_to_nt`, on what `be_memory_regions` returns. -/
def memmapToNt (regions : List BeRegion) (registry : List AllocEntry) : Except Fault (Status × List NtMemEntry) := do
  if cap = 0 then return (.invalidParameter, [])
  else if regions = [] then return (.notReady, [])
  else
    let out ← regions.foldlM (regionStep cap registry) []
    return (.success, out.reverse)

end Emit

end MemMap

end Nt365.Boot
