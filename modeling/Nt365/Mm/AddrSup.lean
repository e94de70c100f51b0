import Nt365.Library.Loop
import Nt365.Library.LinkedTree
import Nt365.Library.Word

/-!
# Trees of address nodes

`MM/ADDRSUP.C` keeps ranges of addresses in a binary search tree of nodes with links to their
parents, and rotates it now and then to keep it shallow.

## The model

A node is a pointer of any type `P`; the links and ranges of all nodes are maps from pointers.
A link that is followed where it is `NULL` stops the code (`Stop.nullNode`), and so does
`ExRaiseStatus`. Loops are given a number of iterations. Addresses are 32-bit words.

Code that is written twice with left and right exchanged is one definition over a `Side`.
-/

namespace Nt365.Mm

open Nt365.Library

/-- What stops the code before it returns. -/
inductive Stop where
  /-- A `NULL` node is read or written. -/
  | nullNode
  /-- `ExRaiseStatus (STATUS_NO_MEMORY)`. -/
  | noMemory
  /-- The iterations that a loop was given ran out. -/
  | unfinished
deriving DecidableEq

/-- The address nodes and the root of the tree. -/
structure AddressTree (P : Type) extends Links P where
  root : Option P
  startingVa : P → ℕ
  endingVa : P → ℕ

/-- The nodes with other links. -/
def AddressTree.withLinks {P : Type} (t : AddressTree P) (h : Links P) : AddressTree P :=
  ⟨h, t.root, t.startingVa, t.endingVa⟩

variable {P : Type} [DecidableEq P]

/-- The node that a link leads to. -/
def follow : Option P → Except Stop P
  | none => .error .nullNode
  | some p => .ok p

/-! ### Reordering -/

/-- The node `new`, if there is one, takes the place of `old` below its parent, or at the root. -/
def replaceChild (t : AddressTree P) (old : P) (new : Option P) : Except Stop (AddressTree P) :=
  if t.root = some old then .ok { t.withLinks (t.setParent? new none) with root := new }
  else do
    let h := t.setParent? new (t.parent old)
    let parent ← follow (h.parent old)
    if h.child .left parent = some old then return t.withLinks (h.setChild .left parent new)
    else return t.withLinks (h.setChild .right parent new)

/-- "Splay node's parent is the root of the tree", with the splay node on the side `s`. -/
def rotateRoot (s : Side) (t : AddressTree P) (splayNode parent : P) : AddressTree P :=
  let h := (t.setParent splayNode none).setParent parent (some splayNode)
  let h := h.setChild s parent (h.child s.other splayNode)
  let h := h.setParent? (h.child s.other splayNode) (some parent)
  { t.withLinks (h.setChild s.other splayNode (some parent)) with root := some splayNode }

/-- "Both the splay node and the parent node are left children of their parents", or right
children: the parent becomes the root of the subtree. -/
def rotateOuter (s : Side) (t : AddressTree P) (parent grandParent : P) : Except Stop (AddressTree P) := do
  let t ← replaceChild t grandParent (some parent)
  let h := t.setChild s grandParent (t.child s.other parent)
  let h := h.setParent? (h.child s.other parent) (some grandParent)
  let h := h.setParent grandParent (some parent)
  return t.withLinks (h.setChild s.other parent (some grandParent))

/-- The splay node is the child on the side `s` of its parent, and that the child on the other
side of its own parent: the splay node becomes the root of the subtree. -/
def rotateInner (s : Side) (t : AddressTree P) (splayNode parent grandParent : P) : Except Stop (AddressTree P) := do
  let t ← replaceChild t grandParent (some splayNode)
  let h := t.setChild s parent (t.child s.other splayNode)
  let h := h.setParent? (h.child s.other splayNode) (some parent)
  let h := h.setChild s.other grandParent (h.child s splayNode)
  let h := h.setParent? (h.child s splayNode) (some grandParent)
  let h := (h.setParent parent (some splayNode)).setParent grandParent (some splayNode)
  return t.withLinks ((h.setChild s splayNode (some grandParent)).setChild s.other splayNode (some parent))

/-- One iteration of `MiReorderTree`. -/
def reorderStep : AddressTree P × P → Except Stop ((AddressTree P × P) ⊕ AddressTree P)
  | (t, splayNode) =>
    if t.root = some splayNode then return .inr t
    else do
      let parent ← follow (t.parent splayNode)
      if t.root = some parent then
        if t.child .left parent = some splayNode then return .inr (rotateRoot .left t splayNode parent)
        else return .inr (rotateRoot .right t splayNode parent)
      else
        let grandParent ← follow (t.parent parent)
        if t.child .left parent = some splayNode ∧ t.child .left grandParent = some parent then
          return .inl (← rotateOuter .left t parent grandParent, parent)
        else if t.child .right parent = some splayNode ∧ t.child .right grandParent = some parent then
          return .inl (← rotateOuter .right t parent grandParent, parent)
        else if t.child .left parent = some splayNode ∧ t.child .right grandParent = some parent then
          return .inl (← rotateInner .left t splayNode parent grandParent, splayNode)
        else
          return .inl (← rotateInner .right t splayNode parent grandParent, splayNode)

variable (fuel : ℕ)

def miReorderTree (node : P) (t : AddressTree P) : Except Stop (AddressTree P) :=
  loop .unfinished reorderStep fuel (t, node)

/-- The tree is reordered at one level of a descent. -/
def reorderAt (depth fuel level : ℕ) (node : P) (t : AddressTree P) : Except Stop (AddressTree P) :=
  if level = depth then miReorderTree fuel node t else .ok t

/-! ### Neighbours -/

/-- `while (Node->Child != NULL) Node = Node->Child`, on one side. -/
def farthest (s : Side) (t : AddressTree P) (node : P) : Except Stop P :=
  loop .unfinished (fun node =>
    match t.child s node with
    | some child => .ok (.inl child)
    | none => .ok (.inr node)) fuel node

/-- "Locate the first ancestor of this node of which this node is the left child", towards the
right. -/
def ancestor (s : Side) (t : AddressTree P) (node : P) : Except Stop (Option P) :=
  loop .unfinished (fun next =>
    match t.parent next with
    | none => .ok (.inr none)
    | some parent => if t.child s.other parent = some next then .ok (.inr (some parent)) else .ok (.inl parent)) fuel node

/-- The node that comes after this one towards a side. -/
def neighbour (s : Side) (t : AddressTree P) (node : Option P) : Except Stop (Option P) := do
  let node ← follow node
  match t.child s node with
  | none => ancestor fuel s t node
  | some child => return some (← farthest fuel s.other t child)

def miGetNextNode (t : AddressTree P) (node : Option P) : Except Stop (Option P) := neighbour fuel .right t node

def miGetPreviousNode (t : AddressTree P) (node : Option P) : Except Stop (Option P) := neighbour fuel .left t node

/-! ### Insertion -/

/-- One iteration of the descent of `MiInsertNode`, from a parent and a level. -/
def insertStep (node : P) : AddressTree P × P × ℕ → Except Stop ((AddressTree P × P × ℕ) ⊕ AddressTree P)
  | (t, parent, level) => do
    let t ← reorderAt 15 fuel (level + 1) parent t
    let s : Side := if t.startingVa node < t.startingVa parent then .left else .right
    match t.child s parent with
    | some child => return .inl (t, child, level + 1)
    | none => return .inr (t.withLinks ((t.setChild s parent (some node)).setParent node (some parent)))

def miInsertNode (node : P) (t : AddressTree P) : Except Stop (AddressTree P) :=
  let t := t.withLinks ((t.setChild .left node none).setChild .right node none)
  match t.root with
  | none => .ok { t.withLinks (t.setParent node none) with root := some node }
  | some parent => loop .unfinished (insertStep fuel node) fuel (t, parent, 0)

/-! ### Removal -/

/-- "Make the right most descendent of the right child of the left child the new root of the
subtree", and its mirror image: `inner` is the child on the other side of the child on `s`. -/
def removeInner (s : Side) (t : AddressTree P) (node leftChild rightChild inner : P) : Except Stop (AddressTree P) := do
  let splayNode ← farthest fuel s.other t inner
  let parent ← follow (t.parent splayNode)
  let h := t.setChild s.other parent (t.child s splayNode)
  let h := h.setParent? (h.child s splayNode) (h.parent splayNode)
  let t ← replaceChild (t.withLinks h) node (some splayNode)
  let h := (t.setParent leftChild (some splayNode)).setParent rightChild (some splayNode)
  return t.withLinks ((h.setChild .left splayNode (some leftChild)).setChild .right splayNode (some rightChild))

/-- `MiRemoveNode`. The cases of the root and of other nodes differ in `replaceChild` only. -/
def miRemoveNode (node : P) (t : AddressTree P) : Except Stop (AddressTree P) :=
  match t.child .left node, t.child .right node with
  | some leftChild, some rightChild =>
    match t.child .right leftChild, t.child .left rightChild with
    | some inner, _ => removeInner fuel .left t node leftChild rightChild inner
    | none, some inner => removeInner fuel .right t node leftChild rightChild inner
    | none, none => do
      let t ← replaceChild t node (some leftChild)
      return t.withLinks ((t.setChild .right leftChild (some rightChild)).setParent rightChild (some leftChild))
  | some leftChild, none => replaceChild t node (some leftChild)
  | none, some rightChild => replaceChild t node (some rightChild)
  | none, none => replaceChild t node none

/-! ### Lookups -/

/-- One iteration of `MiLocateAddressInTree`, from a parent and a level. -/
def locateStep (virtualAddress : ℕ) :
    AddressTree P × Option P × ℕ → Except Stop ((AddressTree P × Option P × ℕ) ⊕ (AddressTree P × Option P))
  | (t, none, _) => .ok (.inr (t, none))
  | (t, some parent, level) => do
    let t ← reorderAt 20 fuel level parent t
    if virtualAddress < t.startingVa parent then return .inl (t, t.child .left parent, level + 1)
    else if t.endingVa parent < virtualAddress then return .inl (t, t.child .right parent, level + 1)
    else return .inr (t, some parent)

def miLocateAddressInTree (virtualAddress : ℕ) (t : AddressTree P) : Except Stop (AddressTree P × Option P) :=
  loop .unfinished (locateStep fuel virtualAddress) fuel (t, t.root, 0)

def miCheckForConflictingNode (startingAddress endingAddress : ℕ) (t : AddressTree P) : Except Stop (Option P) :=
  loop .unfinished (fun node =>
    match node with
    | none => .ok (.inr none)
    | some p =>
      if t.endingVa p < startingAddress then .ok (.inl (t.child .right p))
      else if endingAddress < t.startingVa p then .ok (.inl (t.child .left p))
      else .ok (.inr (some p))) fuel t.root

/-! ### Empty ranges -/

def x64k : ℕ := 0x10000

def mmLowestUserAddress : ℕ := 0x00010000

def mmHighestUserAddress : ℕ := 0x7FFEFFFF

def mmHighestVadAddress : ℕ := mmHighestUserAddress - x64k

/-- `MI_ALIGN_TO_SIZE`; alignments are powers of two. -/
def miAlignToSize (va alignment : ℕ) : ℕ := va - va % alignment

/-- `MI_ROUND_TO_SIZE`. -/
def miRoundToSize (length alignment : ℕ) : ℕ := miAlignToSize (sub32 (add32 length alignment) 1) alignment

/-- One iteration of `MiFindEmptyAddressRangeInTree`, with the address that it returns and
`PreviousVad`. -/
def findStep (fuel sizeOfRange alignment : ℕ) (t : AddressTree P) (node : P) : Except Stop (P ⊕ (ℕ × Option P)) := do
  let rounded := miRoundToSize (t.endingVa node) alignment
  match ← miGetNextNode fuel t (some node) with
  | some nextNode =>
    if sizeOfRange < sub32 (t.startingVa nextNode) rounded ∧ rounded < t.startingVa nextNode then
      return .inr (rounded, some node)
    else return .inl nextNode
  | none =>
    if add32 (t.endingVa node) x64k < mmHighestVadAddress ∧ sizeOfRange < sub32 mmHighestVadAddress rounded then
      return .inr (rounded, some node)
    else throw .noMemory

def miFindEmptyAddressRangeInTree (fuel sizeOfRange alignment : ℕ) (t : AddressTree P) (previousVad : Option P) :
    Except Stop (ℕ × Option P) :=
  match t.root with
  | none => .ok (mmLowestUserAddress, previousVad)
  | some root => do
    let node ← farthest fuel .left t root
    if mmLowestUserAddress < t.startingVa node ∧ sizeOfRange < sub32 (t.startingVa node) mmLowestUserAddress then
      return (mmLowestUserAddress, none)
    else loop .unfinished (findStep fuel sizeOfRange alignment t) fuel node

/-- One iteration of `MiFindEmptyAddressRangeDownTree`. The search goes on where the last gap is
too small, too, with a node that is `NULL` then. -/
def findDownStep (fuel sizeOfRange highestAddressToEndAt alignment optimalStart : ℕ) (t : AddressTree P) (node : Option P) :
    Except Stop (Option P ⊕ ℕ) := do
  let previousNode ← miGetPreviousNode fuel t node
  let node ← follow node
  match previousNode with
  | some previous =>
    let rounded := miRoundToSize (t.endingVa previous) alignment
    if t.endingVa previous < optimalStart ∧ sizeOfRange < sub32 (t.startingVa node) rounded then
      if t.endingVa previous < optimalStart ∧ highestAddressToEndAt < t.startingVa node then return .inr optimalStart
      else if rounded < t.startingVa node then
        return .inr (miAlignToSize (sub32 (t.startingVa node) sizeOfRange) alignment)
      else return .inl previousNode
    else return .inl previousNode
  | none =>
    if mmLowestUserAddress < t.startingVa node then
      if sizeOfRange < sub32 (t.startingVa node) mmLowestUserAddress then
        if highestAddressToEndAt < t.startingVa node then return .inr optimalStart
        else return .inr (miAlignToSize (sub32 (t.startingVa node) sizeOfRange) alignment)
      else return .inl previousNode
    else throw .noMemory

def miFindEmptyAddressRangeDownTree (fuel sizeOfRange highestAddressToEndAt alignment : ℕ) (t : AddressTree P) : Except Stop ℕ :=
  let optimalStart := miAlignToSize (sub32 (add32 highestAddressToEndAt 1) sizeOfRange) alignment
  match t.root with
  | none => .ok optimalStart
  | some root => do
    let node ← farthest fuel .right t root
    let alignedEndingVa := miRoundToSize (t.endingVa node) alignment
    if alignedEndingVa < highestAddressToEndAt ∧ sizeOfRange < sub32 highestAddressToEndAt alignedEndingVa then
      return miAlignToSize (sub32 highestAddressToEndAt sizeOfRange) alignment
    else loop .unfinished (findDownStep fuel sizeOfRange highestAddressToEndAt alignment optimalStart t) fuel (some node)

end Nt365.Mm
