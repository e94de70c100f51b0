import Nt365.Library.Circle
import Nt365.Library.Word
import Nt365.Rtl.Splay

/-!
# Generic tables

`RTL/GENTABLE.C` keeps elements in a splay tree, ordered by a routine of the caller, and in a circular list in
the order of their insertion. A cached place in that list makes the `i`-th element quick to find.

## The model

A node is a pointer of a type `P`; it holds the splay links, the list entry and a copy of the user's buffer, which is a value
of any type `K`. The caller's compare routine is a parameter, and what the allocate routine returns is given with each
insertion. `ULONG` counters are numbers below `2 ^ 32` and wrap.
-/

namespace Nt365.Rtl

open Nt365.Library

/-- A list entry: that in the table, or that of a node. -/
inductive Entry (P : Type) where
  | head
  | node (p : P)
deriving DecidableEq

/-- `RTL_GENERIC_TABLE`, with the memory of its nodes. -/
structure GenericTable (P K : Type) where
  links : SplayLinks P
  entries : Entries (Entry P)
  userData : P → K
  tableRoot : Option P
  orderedPointer : Entry P
  whichOrderedElement : ℕ
  numberGenericTableElements : ℕ

/-- `SEARCH_RESULT`, with the node or parent. -/
inductive SearchResult (P : Type) where
  | emptyTree
  | foundNode (node : P)
  | insertAs (s : Side) (parent : P)

namespace GenericTable

variable {P K : Type} [DecidableEq P] (cmp : K → K → Ordering) (fuel : ℕ)

variable (t : GenericTable P K)

/-- `RtlInitializeGenericTable`. -/
def initializeGenericTable : GenericTable P K :=
  { t with
    tableRoot := none
    entries := t.entries.single .head
    numberGenericTableElements := 0
    orderedPointer := .head
    whichOrderedElement := 0 }

/-- One iteration of `FindNodeOrParent`. -/
def findStep (buffer : K) (nodeToExamine : P) : Except SplayStop (P ⊕ SearchResult P) :=
  match cmp buffer (t.userData nodeToExamine) with
  | .lt =>
    match t.links.child .left nodeToExamine with
    | some child => .ok (.inl child)
    | none => .ok (.inr (.insertAs .left nodeToExamine))
  | .gt =>
    match t.links.child .right nodeToExamine with
    | some child => .ok (.inl child)
    | none => .ok (.inr (.insertAs .right nodeToExamine))
  | .eq => .ok (.inr (.foundNode nodeToExamine))

def findNodeOrParent (buffer : K) : Except SplayStop (SearchResult P) :=
  match t.tableRoot with
  | none => .ok .emptyTree
  | some root => loop .unfinished (findStep cmp t buffer) fuel root

/-- `Table->TableRoot = RtlSplay(node)`. -/
def splay (node : P) : Except SplayStop (GenericTable P K) := do
  let (links, root) ← SplayLinks.rtlSplay fuel node t.links
  return { t with links := links, tableRoot := some root }

/-- The new node in the list and in the tree. -/
def insertNode (buffer : K) (lookup : SearchResult P) (node : P) : GenericTable P K :=
  let links := t.links.initializeSplayLinks node
  { t with
    links := match lookup with
      | .insertAs s parent => links.attach s parent node
      | _ => links
    tableRoot := match lookup with
      | .emptyTree => some node
      | _ => t.tableRoot
    entries := (t.entries.single (.node node)).insertTail .head (.node node)
    numberGenericTableElements := add32 t.numberGenericTableElements 1
    userData := Function.update t.userData node buffer }

/-- `RtlInsertElementGenericTable`: the element and `NewElement`. -/
def rtlInsertElementGenericTable (buffer : K) (allocate : Option P) (t : GenericTable P K) :
    Except SplayStop (GenericTable P K × Option (Entry P) × Bool) := do
  match ← findNodeOrParent cmp fuel t buffer with
  | .foundNode node =>
    let t ← t.splay fuel node
    return (t, some (.node node), false)
  | lookup =>
    match allocate with
    | none => return (t, none, false)
    | some node =>
      let t ← (t.insertNode buffer lookup node).splay fuel node
      return (t, some (.node node), true)

def rtlDeleteElementGenericTable (buffer : K) (t : GenericTable P K) : Except SplayStop (GenericTable P K × Bool) := do
  match ← findNodeOrParent cmp fuel t buffer with
  | .foundNode node =>
    let (links, root) ← SplayLinks.rtlDelete fuel node t.links
    return ({ t with
      links := links
      tableRoot := root
      entries := t.entries.remove (.node node)
      numberGenericTableElements := sub32 t.numberGenericTableElements 1
      whichOrderedElement := 0
      orderedPointer := .head }, true)
  | _ => return (t, false)

def rtlLookupElementGenericTable (buffer : K) (t : GenericTable P K) : Except SplayStop (GenericTable P K × Option (Entry P)) := do
  match ← findNodeOrParent cmp fuel t buffer with
  | .foundNode node =>
    let t ← t.splay fuel node
    return (t, some (.node node))
  | _ => return (t, none)

/-- The node that an enumeration returns: "the leftmost child of the root", or the real successor of the last one. -/
def nodeToReturn (root : P) : Option P → Except SplayStop (Option P)
  | none => t.links.descend fuel .left root
  | some last => SplayLinks.rtlRealSuccessor fuel last t.links

/-- `RtlEnumerateGenericTable`: the root is "the last node that we returned". -/
def rtlEnumerateGenericTable (restart : Bool) (t : GenericTable P K) : Except SplayStop (GenericTable P K × Option (Entry P)) :=
  match t.tableRoot with
  | none => .ok (t, none)
  | some root => do
    match ← t.nodeToReturn fuel root (if restart then none else some root) with
    | none => return (t, none)
    | some node =>
      let t ← t.splay fuel node
      return (t, some (.node node))

/-- `RtlEnumerateGenericTableWithoutSplaying`: the restart key and the element. -/
def rtlEnumerateGenericTableWithoutSplaying (restartKey : Option P) (t : GenericTable P K) :
    Except SplayStop (Option P × Option (Entry P)) :=
  match t.tableRoot with
  | none => .ok (restartKey, none)
  | some root => do
    match ← t.nodeToReturn fuel root restartKey with
    | none => return (restartKey, none)
    | some node => return (some node, some (.node node))

/-- The walk of `RtlGetElementGenericTable`, from the cached place or from the list head, forward or back. -/
def travel (normalizedI : ℕ) : Entry P :=
  let currentLocation := t.whichOrderedElement
  if currentLocation > normalizedI then
    if normalizedI > currentLocation / 2 then t.entries.blink^[sub32 currentLocation normalizedI] t.orderedPointer
    else t.entries.flink^[normalizedI] .head
  else
    let forwardDistance := sub32 normalizedI currentLocation
    let backwardDistance := add32 (sub32 t.numberGenericTableElements normalizedI) 1
    if forwardDistance ≤ backwardDistance then t.entries.flink^[forwardDistance] t.orderedPointer
    else t.entries.blink^[backwardDistance] .head

def rtlGetElementGenericTable (i : ℕ) (t : GenericTable P K) : GenericTable P K × Option (Entry P) :=
  let normalizedI := add32 i 1
  if i = maxUlong ∨ normalizedI > t.numberGenericTableElements then (t, none)
  else if normalizedI = t.whichOrderedElement then (t, some t.orderedPointer)
  else
    let currentNode := t.travel normalizedI
    ({ t with orderedPointer := currentNode, whichOrderedElement := add32 i 1 }, some currentNode)

end GenericTable

end Nt365.Rtl
