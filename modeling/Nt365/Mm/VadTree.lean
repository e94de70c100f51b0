import Nt365.Mm.AddrSupRemove

/-!
# The virtual address descriptors of a process

`MM/VADTREE.C` keeps the descriptors (VADs) of a process in a tree of address nodes, with two
hints: the descriptor used last, and the one after which the search for an empty range starts.

Quota charges are left out.
-/

namespace Nt365.Mm

open Nt365.Library Nt365.Library.LinkedTree

/-- The part of a process that has to do with its descriptors; `vads` has `VadRoot` as its root. -/
structure Process (P : Type) where
  vads : AddressTree P
  vadHint : Option P
  vadFreeHint : Option P

variable {P : Type} [DecidableEq P]

/-- The caller fills in the range of a new descriptor. -/
def AddressTree.setRange (t : AddressTree P) (vad : P) (startingVa endingVa : ℕ) : AddressTree P :=
  ⟨t.toLinks, t.root, Function.update t.startingVa vad startingVa, Function.update t.endingVa vad endingVa⟩

def miInsertVad (fuel : ℕ) (vad : P) (p : Process P) : Except Stop (Process P) := do
  let vads ← miInsertNode fuel vad p.vads
  let vadFreeHint := p.vadFreeHint.map fun hint =>
    if p.vads.startingVa vad ≤ add32 (p.vads.endingVa hint) x64k then vad else hint
  return ⟨vads, some vad, vadFreeHint⟩

/-- The hint for empty ranges when a descriptor is removed. -/
def freeHintWithout (fuel : ℕ) (vad : P) (p : Process P) : Except Stop (Option P) :=
  if p.vadFreeHint = some vad then miGetPreviousNode fuel p.vads (some vad) else .ok p.vadFreeHint

def miRemoveVad (fuel : ℕ) (vad : P) (p : Process P) : Except Stop (Process P) := do
  let vadFreeHint ← freeHintWithout fuel vad p
  let vads ← miRemoveNode fuel vad p.vads
  return ⟨vads, if p.vadHint = some vad then vads.root else p.vadHint, vadFreeHint⟩

def miLocateAddress (fuel virtualAddress : ℕ) (p : Process P) : Except Stop (Process P × Option P) :=
  match p.vadHint with
  | none => .ok (p, none)
  | some hint =>
    if p.vads.startingVa hint ≤ virtualAddress ∧ virtualAddress ≤ p.vads.endingVa hint then .ok (p, some hint)
    else do
      let (vads, foundVad) ← miLocateAddressInTree fuel virtualAddress p.vads
      return (⟨vads, foundVad <|> p.vadHint, p.vadFreeHint⟩, foundVad)

/-- `MiCheckForConflictingVad`. -/
def miCheckForConflictingVad (fuel startingAddress endingAddress : ℕ) (p : Process P) : Except Stop (Option P) :=
  miCheckForConflictingNode fuel startingAddress endingAddress p.vads

/-- The quick check after the hint: the address that it returns, if there is room. -/
def roomAfterHint (fuel sizeOfRange alignment : ℕ) (p : Process P) (freeHint : P) : Except Stop (Option ℕ) := do
  let rounded := miRoundToSize (p.vads.endingVa freeHint) alignment
  match ← miGetNextNode fuel p.vads (some freeHint) with
  | none => return if sizeOfRange < sub32 (add32 mmHighestUserAddress 1) rounded then some rounded else none
  | some nextVad =>
    return if sizeOfRange < sub32 (p.vads.startingVa nextVad) rounded ∧ rounded < p.vads.startingVa nextVad then some rounded
      else none

/-- The search from the lowest address on. -/
def findFromLowest (fuel sizeOfRange alignment : ℕ) (p : Process P) : Except Stop (ℕ × Process P) := do
  let (address, vadFreeHint) ← miFindEmptyAddressRangeInTree fuel sizeOfRange alignment p.vads p.vadFreeHint
  return (address, { p with vadFreeHint := vadFreeHint })

def miFindEmptyAddressRange (fuel sizeOfRange alignment quickCheck : ℕ) (p : Process P) : Except Stop (ℕ × Process P) :=
  match p.vadFreeHint with
  | some freeHint =>
    if quickCheck = 0 then do
      match ← roomAfterHint fuel sizeOfRange alignment p freeHint with
      | some address => return (address, p)
      | none => findFromLowest fuel sizeOfRange alignment p
    else findFromLowest fuel sizeOfRange alignment p
  | none => findFromLowest fuel sizeOfRange alignment p

end Nt365.Mm
