import Nt365.Library.LinkedTree
import Nt365.Library.Loop

/-!
# Splay links

`RTL/SPLAY.C` keeps nodes in binary trees whose nodes have links to their parents, and moves a node to the root by
rotations. The parent of the root is the root itself.

## The model

A node is a pointer of any type `P`, and the links of all nodes are maps from pointers. Loops are given a number of iterations.
Code that is written twice with left and right exchanged is one definition over a `Side`; where the two
versions write in a different order, so does the definition (`ordered`).
-/

namespace Nt365.Rtl

open Nt365.Library

/-- What stops the code before it returns. -/
inductive SplayStop where
  /-- A `NULL` node is read or written. -/
  | nullNode
  /-- The iterations that a loop was given ran out. -/
  | unfinished
deriving DecidableEq

/-- `RTL_SPLAY_LINKS`, for all nodes. -/
structure SplayLinks (P : Type) where
  parent : P → P
  child : Side → P → Option P

namespace SplayLinks

variable {P : Type} [DecidableEq P]

variable (h : SplayLinks P)

def setParent (p q : P) : SplayLinks P := { h with parent := Function.update h.parent p q }

def setChild (s : Side) (p : P) (q : Option P) : SplayLinks P :=
  { h with child := Function.update h.child s (Function.update (h.child s) p q) }

/-- `if (p != NULL) {p->Parent = q;}` -/
def setParent? : Option P → P → SplayLinks P
  | none, _ => h
  | some p, q => h.setParent p q

section Set

variable (h : SplayLinks P) (s s' : Side) (p q x : P) (o o' : Option P)

@[simp] theorem setParent_parent : (h.setParent p q).parent x = if x = p then q else h.parent x := Function.update_apply ..

@[simp] theorem setParent_child : (h.setParent p q).child = h.child := rfl

@[simp] theorem setChild_parent : (h.setChild s p o).parent = h.parent := rfl

@[simp] theorem setChild_child : (h.setChild s p o).child s' x = if s' = s ∧ x = p then o else h.child s' x := by
  by_cases hs : s' = s
  · subst hs
    simp [setChild, Function.update_apply]
  · simp [setChild, hs]

@[simp] theorem setParent?_parent : (h.setParent? o q).parent x = if o = some x then q else h.parent x := by
  cases o with
  | none => simp [setParent?]
  | some p => simp [setParent?, eq_comm]

@[simp] theorem setParent?_child : (h.setParent? o q).child = h.child := by cases o <;> rfl

end Set

/-- `RtlInitializeSplayLinks`. -/
def initializeSplayLinks (p : P) : SplayLinks P := ((h.setParent p p).setChild .left p none).setChild .right p none

/-- `RtlIsRoot`. -/
def IsRoot (p : P) : Prop := h.parent p = p

instance (h : SplayLinks P) (p : P) : Decidable (h.IsRoot p) := inferInstanceAs (Decidable (_ = _))

/-- `RtlIsLeftChild` and `RtlIsRightChild`. -/
def IsChild (s : Side) (p : P) : Prop := h.child s (h.parent p) = some p

instance (h : SplayLinks P) (s : Side) (p : P) : Decidable (h.IsChild s p) := inferInstanceAs (Decidable (_ = _))

/-- `*(ParentsChildPointerAddress(p)) = q`. -/
def setParentsChild (p : P) (q : Option P) : SplayLinks P :=
  h.setChild (if h.IsChild .left p then .left else .right) (h.parent p) q

/-- `RtlInsertAsLeftChild` and `RtlInsertAsRightChild`. -/
def attach (s : Side) (p q : P) : SplayLinks P := (h.setChild s p (some q)).setParent q p

/-! ### Rotations -/

/-- `p->Child = q; if (p->Child != NULL) {p->Child->Parent = p;}` -/
def connect (s : Side) (p : P) (q : Option P) : SplayLinks P := (h.setChild s p q).setParent? q p

/-- "Connect L & Great GrandParent". -/
def connectAbove (l g : P) : SplayLinks P :=
  if h.IsRoot g then h.setParent l l
  else (h.setParent l (h.parent g)).setParentsChild g (some l)

variable (s : Side)

/-- What the version for left children does first, that for right children does last. -/
def ordered (first second : SplayLinks P → SplayLinks P) (h : SplayLinks P) : SplayLinks P :=
  match s with
  | .left => second (first h)
  | .right => first (second h)

/-- The parent of `l` is the root. -/
def zig (h : SplayLinks P) (l p : P) : SplayLinks P :=
  let h := h.connect s p (h.child s.other l)
  (h.attach s.other l p).setParent l l

/-- `l` and its parent are on the same side. -/
def zigZig (h : SplayLinks P) (l p g : P) : SplayLinks P :=
  let h := ordered s (fun h => h.connect s p (h.child s.other l)) (fun h => h.connect s g (h.child s.other p)) h
  let h := h.connectAbove l g
  (h.attach s.other l p).attach s.other p g

/-- `l` is on the side `s` of its parent, which is on the other side of its own. -/
def zigZag (h : SplayLinks P) (l p g : P) : SplayLinks P :=
  let h := ordered s (fun h => h.connect s.other g (h.child s l)) (fun h => h.connect s p (h.child s.other l)) h
  let h := h.connectAbove l g
  ordered s (fun h => h.attach s l g) (fun h => h.attach s.other l p) h

/-- One iteration of `RtlSplay`. -/
def splayStep : SplayLinks P × P → Except SplayStop ((SplayLinks P × P) ⊕ (SplayLinks P × P))
  | (h, l) =>
    if h.IsRoot l then .ok (.inr (h, l))
    else
      let p := h.parent l
      let g := h.parent p
      if h.IsChild .left l then
        if h.IsRoot p then .ok (.inl (zig .left h l p, l))
        else if h.IsChild .left p then .ok (.inl (zigZig .left h l p g, l))
        else .ok (.inl (zigZag .left h l p g, l))
      else if h.IsRoot p then .ok (.inl (zig .right h l p, l))
      else if h.IsChild .right p then .ok (.inl (zigZig .right h l p g, l))
      else .ok (.inl (zigZag .right h l p g, l))

variable (fuel : ℕ)

/-- `RtlSplay`: the links and the root of the splayed tree. -/
def rtlSplay (links : P) (h : SplayLinks P) : Except SplayStop (SplayLinks P × P) :=
  loop .unfinished splayStep fuel (h, links)

/-! ### Neighbours -/

/-- `while (Child(Ptr) != NULL) {Ptr = Child(Ptr);}` -/
def descendStep (s : Side) (ptr : P) : Except SplayStop (P ⊕ Option P) :=
  match h.child s ptr with
  | some ptr => .ok (.inl ptr)
  | none => .ok (.inr (some ptr))

def descend (h : SplayLinks P) (s : Side) (ptr : P) : Except SplayStop (Option P) :=
  loop .unfinished (h.descendStep s) fuel ptr

/-- The neighbour on the side `s` of a node in its own subtree. -/
def subtreeNeighbour (h : SplayLinks P) (s : Side) (links : P) : Except SplayStop (Option P) :=
  match h.child s links with
  | some ptr => h.descend fuel s.other ptr
  | none => .ok none

def rtlSubtreePredecessor (links : P) (h : SplayLinks P) : Except SplayStop (Option P) :=
  h.subtreeNeighbour fuel .left links

/-- One step to "the first ancestor that we are a decendent of" on the other side. -/
def ascendStep (s : Side) (ptr : P) : Except SplayStop (P ⊕ Option P) :=
  if h.IsChild s ptr then .ok (.inl (h.parent ptr))
  else if h.IsChild s.other ptr then .ok (.inr (some (h.parent ptr)))
  else .ok (.inr none)

/-- The neighbour on the side `s` of a node in the whole tree. -/
def realNeighbour (h : SplayLinks P) (s : Side) (links : P) : Except SplayStop (Option P) :=
  match h.child s links with
  | some ptr => h.descend fuel s.other ptr
  | none => loop .unfinished (h.ascendStep s) fuel links

def rtlRealSuccessor (links : P) (h : SplayLinks P) : Except SplayStop (Option P) := h.realNeighbour fuel .right links

def rtlRealPredecessor (links : P) (h : SplayLinks P) : Except SplayStop (Option P) := h.realNeighbour fuel .left links

/-! ### Deletion -/

/-- `SwapPointers(Link1->Child, Link2->Child)`. -/
def swapChild (s : Side) (link1 link2 : P) : SplayLinks P :=
  (h.setChild s link1 (h.child s link2)).setChild s link2 (h.child s link1)

/-- `SwapSplayLinks`, once "link2 is the possible root and link1 the possible child". -/
def swapLinks (link1 link2 : P) : SplayLinks P :=
  let h :=
    if h.parent link1 ≠ link2 then
      let h :=
        if ¬h.IsRoot link2 then
          -- the two child pointers are swapped, so that each parent points to the other link
          let parent1 := h.parent link1
          let parent2 := h.parent link2
          let side1 := if h.IsChild .left link1 then Side.left else .right
          let side2 := if h.IsChild .left link2 then Side.left else .right
          let child1 := h.child side1 parent1
          let child2 := h.child side2 parent2
          let h := (h.setChild side1 parent1 child2).setChild side2 parent2 child1
          (h.setParent link1 parent2).setParent link2 parent1
        else
          let h := h.setParentsChild link1 (some link2)
          (h.setParent link2 (h.parent link1)).setParent link1 link1
      (h.swapChild .left link1 link2).swapChild .right link1 link2
    else
      let h :=
        if ¬h.IsRoot link2 then
          let h := h.setParentsChild link2 (some link1)
          h.setParent link1 (h.parent link2)
        else h.setParent link1 link1
      let h := (h.swapChild .left link1 link2).swapChild .right link1 link2
      if h.child .left link1 = some link1 then h.setChild .left link1 (some link2)
      else h.setChild .right link1 (some link2)
  let h := h.setParent? (h.child .left link1) link1
  let h := h.setParent? (h.child .right link1) link1
  let h := h.setParent? (h.child .left link2) link2
  h.setParent? (h.child .right link2) link2

def swapSplayLinks (link1 link2 : P) : SplayLinks P :=
  if h.IsRoot link1 ∨ h.parent link2 = link1 then h.swapLinks link2 link1
  else h.swapLinks link1 link2

/-- The part of `RtlDelete` after the node has at most one child. -/
def deleteOne (links : P) (h : SplayLinks P) : Except SplayStop (SplayLinks P × Option P) :=
  match (h.child .left links).or (h.child .right links) with
  | none =>
    if h.IsRoot links then .ok (h, none)
    else do
      let parent := h.parent links
      let (h, root) ← rtlSplay fuel parent (h.setParentsChild links none)
      return (h, some root)
  | some child =>
    if h.IsRoot links then .ok (h.setParent child child, some child)
    else do
      let h := h.setParentsChild links (some child)
      let h := h.setParent child (h.parent links)
      let (h, root) ← rtlSplay fuel (h.parent child) h
      return (h, some root)

/-- `RtlDelete`: the links and the root of the tree, or `NULL`. -/
def rtlDelete (links : P) (h : SplayLinks P) : Except SplayStop (SplayLinks P × Option P) := do
  if h.child .left links ≠ none ∧ h.child .right links ≠ none then
    match ← h.rtlSubtreePredecessor fuel links with
    | some predecessor => deleteOne fuel links (h.swapSplayLinks predecessor links)
    | none => .error .nullNode
  else deleteOne fuel links h

end SplayLinks

end Nt365.Rtl
