import Mathlib.Data.Tree.Basic
import Mathlib.Data.List.Nodup
import Mathlib.Logic.Function.Basic

/-!
# Binary trees in memory

A node in memory has links to its parent and to its children. `Linked` says that the links
below a node are those of a binary tree, and `LinkedPath` that those above it are those of a
path of frames, so that a tree can be taken apart at any of its nodes (`linked_plug`). What is
written elsewhere in memory leaves a tree alone (`Linked.congr`, `Linked.reparent`).

Left and right are values, so that what mirrors something else is not said twice. The nodes of
a tree are listed towards a side (`walk`); this list is what rotations do not change.
-/

namespace Nt365.Library

/-- A side of a node. -/
inductive Side where
  | left
  | right
deriving DecidableEq

namespace Side

def other : Side → Side
  | left => right
  | right => left

@[simp, grind =] theorem other_other (s : Side) : s.other.other = s := by cases s <;> rfl

@[simp, grind .] theorem other_ne (s : Side) : s.other ≠ s := by cases s <;> simp [other]

@[simp] theorem ne_other (s : Side) : s ≠ s.other := by cases s <;> simp [other]

theorem eq_or_eq_other (s s' : Side) : s' = s ∨ s' = s.other := by cases s <;> cases s' <;> simp [other]

end Side

/-- The links of the nodes. -/
structure Links (P : Type*) where
  parent : P → Option P
  child : Side → P → Option P

namespace Links

variable {P : Type*} [DecidableEq P]

def setParent (h : Links P) (p : P) (q : Option P) : Links P := { h with parent := Function.update h.parent p q }

def setChild (h : Links P) (s : Side) (p : P) (q : Option P) : Links P :=
  { h with child := Function.update h.child s (Function.update (h.child s) p q) }

/-- A parent is set if there is a node. -/
def setParent? (h : Links P) : Option P → Option P → Links P
  | none, _ => h
  | some p, q => h.setParent p q

variable (h : Links P) (s s' : Side) (p x : P) (q o x' : Option P)

@[simp] theorem setParent_parent : (h.setParent p q).parent x = if x = p then q else h.parent x := Function.update_apply ..

@[simp] theorem setParent_child : (h.setParent p q).child = h.child := rfl

@[simp] theorem setChild_parent : (h.setChild s p q).parent = h.parent := rfl

@[simp] theorem setChild_child : (h.setChild s p q).child s' x = if s' = s ∧ x = p then q else h.child s' x := by
  by_cases hs : s' = s
  · subst hs
    simp [setChild, Function.update_apply]
  · simp [setChild, hs]

@[simp] theorem setParent?_parent : (h.setParent? o q).parent x = if o = some x then q else h.parent x := by
  cases o with
  | none => simp [setParent?]
  | some p => simp [setParent?, eq_comm]

theorem setParent?_setChild : (h.setParent? o q).setChild s p x' = (h.setChild s p x').setParent? o q := by cases o <;> rfl

@[simp] theorem setParent?_child : (h.setParent? o q).child = h.child := by cases o <;> rfl

end Links

namespace LinkedTree

open BinaryTree
open List hiding nil

variable {P : Type*}

/-- A node with `near` on the side `s` and `far` on the other. -/
def fork (s : Side) (p : P) (near far : BinaryTree P) : BinaryTree P :=
  match s with
  | .left => node p near far
  | .right => node p far near

theorem fork_other (s : Side) (p : P) (a b : BinaryTree P) : fork s.other p a b = fork s p b a := by cases s <;> rfl

theorem exists_fork (s : Side) (p : P) (l r : BinaryTree P) : ∃ a b, node p l r = fork s p a b := by
  cases s with
  | left => exact ⟨l, r, rfl⟩
  | right => exact ⟨r, l, rfl⟩

theorem exists_node (s : Side) (p : P) (a b : BinaryTree P) : ∃ l r, fork s p a b = node p l r := by
  cases s with
  | left => exact ⟨a, b, rfl⟩
  | right => exact ⟨b, a, rfl⟩

theorem cases_fork (s : Side) (t : BinaryTree P) : t = nil ∨ ∃ p a b, t = fork s p a b := by
  cases t with
  | nil => exact .inl rfl
  | node p l r => exact .inr ⟨p, exists_fork s p l r⟩

/-- The node at the top. -/
def rootOf : BinaryTree P → Option P
  | nil => none
  | node p _ _ => some p

@[simp] theorem rootOf_nil : rootOf (nil : BinaryTree P) = none := rfl

variable {t a b : BinaryTree P} {s : Side} {p x : P} {up : Option P}

theorem rootOf_eq_none : rootOf t = none ↔ t = nil := by cases t <;> simp [rootOf]

@[simp, grind =] theorem rootOf_fork (s : Side) (p : P) (a b : BinaryTree P) : rootOf (fork s p a b) = some p := by cases s <;> rfl

/-- The nodes in their order towards the right. -/
def inorder : BinaryTree P → List P
  | nil => []
  | node p l r => inorder l ++ p :: inorder r

/-- The nodes in their order towards a side. -/
def walk (s : Side) (t : BinaryTree P) : List P :=
  match s with
  | .left => (inorder t).reverse
  | .right => inorder t

@[simp] theorem walk_nil (s : Side) : walk s (nil : BinaryTree P) = [] := by cases s <;> rfl

@[simp] theorem walk_fork (s : Side) (p : P) (a b : BinaryTree P) : walk s (fork s p a b) = walk s b ++ p :: walk s a := by
  cases s <;> simp [walk, fork, inorder]

theorem walk_other (s : Side) (t : BinaryTree P) : walk s.other t = (walk s t).reverse := by
  cases s <;> simp [walk, Side.other]

@[simp] theorem mem_walk : p ∈ walk s t ↔ p ∈ inorder t := by
  cases s <;> simp [walk]

@[simp, grind =] theorem mem_inorder_fork :
    x ∈ inorder (fork s p a b) ↔ x = p ∨ x ∈ inorder a ∨ x ∈ inorder b := by
  rw [← mem_walk, walk_fork]
  simp only [mem_append, mem_cons, mem_walk]
  tauto

theorem inorder_leaf (s : Side) (p : P) : inorder (fork s p nil nil) = [p] := by cases s <;> rfl

@[simp] theorem length_inorder_fork (s : Side) (p : P) (a b : BinaryTree P) :
    (inorder (fork s p a b)).length = (inorder a).length + (inorder b).length + 1 := by
  cases s <;> simp only [fork, inorder, length_append, length_cons] <;> omega

@[grind →] theorem rootOf_mem (h : rootOf t = some p) : p ∈ inorder t := by
  rcases cases_fork .left t with rfl | ⟨q, a, b, rfl⟩
  · cases h
  · obtain rfl : q = p := by simpa using h
    simp

theorem exists_fork_of_rootOf (s : Side) (h : rootOf t = some p) : ∃ a b, t = fork s p a b := by
  rcases cases_fork s t with rfl | ⟨q, a, b, rfl⟩
  · cases h
  · obtain rfl : q = p := by simpa using h
    exact ⟨a, b, rfl⟩

/-! ### Paths -/

/-- A node above a hole, with the subtree on the other side of the hole. -/
structure Frame (P : Type*) where
  side : Side
  node : P
  far : BinaryTree P

/-- The frames from a hole up to the root. -/
abbrev Path (P : Type*) := List (Frame P)

variable {f : Frame P} {path : Path P}

def plug : Path P → BinaryTree P → BinaryTree P
  | [], t => t
  | f :: path, t => plug path (fork f.side f.node t f.far)

/-- The node above the hole. -/
def parentOf : Path P → Option P
  | [] => none
  | f :: _ => some f.node

/-- The nodes from the hole towards a side. -/
def beyond (s : Side) : Path P → List P
  | [] => []
  | f :: path => if f.side = s then beyond s path else f.node :: (walk s f.far ++ beyond s path)

theorem forall_beyond_other {Q : P → Prop} {x : P} {b : BinaryTree P} : (∀ y ∈ beyond s.other (⟨s, x, b⟩ :: path), Q y) ↔
    Q x ∧ (∀ y ∈ inorder b, Q y) ∧ ∀ y ∈ beyond s.other path, Q y := by
  rw [beyond, if_neg (Side.other_ne s).symm]
  simp only [forall_mem_cons, forall_mem_append, mem_walk]

/-- A frame of a path with nothing beyond it on a side has its hole on that side. -/
theorem side_of_beyond (h : beyond s (f :: path) = []) : f.side = s := by
  by_contra hne
  rw [beyond, if_neg hne] at h
  cases h

theorem walk_plug (s : Side) (path : Path P) (t : BinaryTree P) :
    walk s (plug path t) = (beyond s.other path).reverse ++ (walk s t ++ beyond s path) := by
  induction path generalizing t with
  | nil => simp [plug, beyond]
  | cons f path ih =>
    rw [plug, ih]
    rcases Side.eq_or_eq_other s f.side with hs | hs
    · simp [beyond, hs, walk_other]
    · rw [hs, fork_other]
      simp [beyond, hs]

theorem inorder_plug (path : Path P) (t : BinaryTree P) :
    inorder (plug path t) = (beyond .left path).reverse ++ (inorder t ++ beyond .right path) := walk_plug .right path t

theorem inorder_plug_nil (path : Path P) : inorder (plug path nil) = (beyond .left path).reverse ++ beyond .right path :=
  inorder_plug path nil

theorem inorder_plug_leaf (path : Path P) (x : P) :
    inorder (plug path (fork .left x nil nil)) = (beyond .left path).reverse ++ x :: beyond .right path :=
  inorder_plug path _

theorem inorder_eq_of_walk {t' : BinaryTree P} (h : walk s t = walk s t') : inorder t = inorder t' := by
  cases s with
  | left => exact reverse_injective h
  | right => exact h

theorem inorder_plug_congr (path : Path P) {t' : BinaryTree P} (h : walk s t = walk s t') :
    inorder (plug path t) = inorder (plug path t') := by
  apply inorder_eq_of_walk (s := s)
  rw [walk_plug, walk_plug, h]

theorem plug_append (inner outer : Path P) (t : BinaryTree P) : plug (inner ++ outer) t = plug outer (plug inner t) := by
  induction inner generalizing t with
  | nil => rfl
  | cons f inner ih => exact ih _

theorem exists_path (s : Side) (h : p ∈ inorder t) : ∃ path a b, t = plug path (fork s p a b) := by
  induction t with
  | nil => cases h
  | node q l r ihl ihr =>
    rcases mem_append.mp h with hl | hq
    · obtain ⟨path, a, b, rfl⟩ := ihl hl
      exact ⟨path ++ [⟨.left, q, r⟩], a, b, by rw [plug_append]; rfl⟩
    · rcases mem_cons.mp hq with rfl | hr
      · cases s with
        | left => exact ⟨[], l, r, rfl⟩
        | right => exact ⟨[], r, l, rfl⟩
      · obtain ⟨path, a, b, rfl⟩ := ihr hr
        exact ⟨path ++ [⟨.right, q, l⟩], a, b, by rw [plug_append]; rfl⟩

/-- The nodes of a path. -/
def pathNodes (path : Path P) : List P := beyond .left path ++ beyond .right path

theorem mem_pathNodes_cons : x ∈ pathNodes (f :: path) ↔ x = f.node ∨ x ∈ inorder f.far ∨ x ∈ pathNodes path := by
  simp only [pathNodes, mem_append]
  cases hs : f.side with
  | left =>
    simp only [beyond, hs, if_true, reduceCtorEq, if_false, mem_cons, mem_append, mem_walk]
    tauto
  | right =>
    simp only [beyond, hs, if_true, reduceCtorEq, if_false, mem_cons, mem_append, mem_walk]
    tauto

theorem mem_inorder_plug : x ∈ inorder (plug path t) ↔ x ∈ pathNodes path ∨ x ∈ inorder t := by
  rw [← mem_walk (s := .right), walk_plug]
  simp only [pathNodes, Side.other, mem_append, mem_reverse, mem_walk]
  tauto

theorem length_inorder_plug (path : Path P) (t : BinaryTree P) :
    (inorder (plug path t)).length = (pathNodes path).length + (inorder t).length := by
  have h := congrArg List.length (walk_plug .right path t)
  simp only [walk, Side.other, length_append, length_reverse] at h
  rw [h, pathNodes, length_append]
  omega

theorem perm_pathNodes_cons (f : Frame P) (path : Path P) :
    (pathNodes (f :: path)).Perm (f.node :: (inorder f.far ++ pathNodes path)) := by
  simp only [pathNodes]
  cases hs : f.side with
  | left =>
    simp only [beyond, hs, if_true, reduceCtorEq, if_false, walk]
    refine perm_middle.trans (List.Perm.cons _ ?_)
    rw [← append_assoc, ← append_assoc]
    exact perm_append_comm.append_right _
  | right =>
    simp only [beyond, hs, if_true, reduceCtorEq, if_false, walk]
    rw [cons_append, append_assoc]
    exact List.Perm.cons _ ((reverse_perm _).append_right _)

theorem length_le_pathNodes (path : Path P) : path.length ≤ (pathNodes path).length := by
  induction path with
  | nil => exact Nat.le_refl _
  | cons f path ih =>
    rw [(perm_pathNodes_cons f path).length_eq, length_cons, length_cons, length_append]
    omega

/-! ### No node twice -/

attribute [grind =] disjoint_left

@[grind =] theorem nodup_fork :
    (inorder (fork s p a b)).Nodup ↔
      p ∉ inorder a ∧ p ∉ inorder b ∧ (inorder a).Nodup ∧ (inorder b).Nodup ∧ List.Disjoint (inorder a) (inorder b) := by
  cases s with
  | left =>
    simp only [fork, inorder, nodup_append', nodup_cons, disjoint_cons_right]
    tauto
  | right =>
    simp only [fork, inorder, nodup_append', nodup_cons, disjoint_cons_right]
    rw [disjoint_comm]
    tauto

@[grind =] theorem nodup_plug :
    (inorder (plug path t)).Nodup ↔ (pathNodes path).Nodup ∧ (inorder t).Nodup ∧ List.Disjoint (pathNodes path) (inorder t) := by
  have h : (inorder (plug path t)).Perm (pathNodes path ++ inorder t) := by
    have hw := walk_plug .right path t
    simp only [walk, Side.other] at hw
    rw [hw, pathNodes, append_assoc]
    refine ((reverse_perm _).append_right _).trans ?_
    exact List.Perm.append_left _ perm_append_comm
  rw [h.nodup_iff, nodup_append']

theorem nodup_pathNodes_cons :
    (pathNodes (f :: path)).Nodup ↔ f.node ∉ inorder f.far ∧ f.node ∉ pathNodes path ∧ (inorder f.far).Nodup ∧
      (pathNodes path).Nodup ∧ List.Disjoint (inorder f.far) (pathNodes path) := by
  rw [(perm_pathNodes_cons f path).nodup_iff, nodup_cons, nodup_append', mem_append]
  tauto

/-- The root of a tree with `hole` at the end of the path. -/
def topOf : Path P → Option P → Option P
  | [], hole => hole
  | f :: path, _ => topOf path (some f.node)

theorem rootOf_plug (path : Path P) (t : BinaryTree P) : rootOf (plug path t) = topOf path (rootOf t) := by
  induction path generalizing t with
  | nil => rfl
  | cons f path ih => rw [plug, ih, rootOf_fork, topOf]

theorem topOf_mem {q : P} (h : topOf path (some p) = some q) : q = p ∨ q ∈ pathNodes path := by
  induction path generalizing p with
  | nil => exact .inl (by simpa [topOf, eq_comm] using h)
  | cons f path ih =>
    rw [mem_pathNodes_cons]
    rcases ih h with rfl | hq
    · exact .inr (.inl rfl)
    · exact .inr (.inr (.inr hq))

theorem walk_split_unique (hnd : (inorder t).Nodup) {l r l' r' : List P}
    (h : walk s t = l ++ x :: r) (h' : walk s t = l' ++ x :: r') : l = l' ∧ r = r' := by
  have hnd' : (walk s t).Nodup := by
    cases s with
    | left => exact nodup_reverse.mpr hnd
    | right => exact hnd
  rw [h, nodup_append', nodup_cons, disjoint_cons_right] at hnd'
  obtain ⟨h₁, -, h₂⟩ := (append_cons_inj_of_notMem hnd'.2.2.1 hnd'.2.1.1).mp (h.symm.trans h')
  exact ⟨h₁, h₂⟩

/-- The nodes after a node are those below it and those beyond the path to it. -/
theorem exists_path_of_walk (hnd : (inorder t).Nodup) {l r : List P} (h : walk s t = l ++ x :: r) :
    ∃ path a b, t = plug path (fork s x a b) ∧ walk s a ++ beyond s path = r := by
  have hx : x ∈ inorder t := by
    rw [← mem_walk (s := s), h]
    simp
  obtain ⟨path, a, b, rfl⟩ := exists_path s hx
  have hsplit := walk_plug s path (fork s x a b)
  rw [walk_fork, append_assoc, cons_append, ← append_assoc] at hsplit
  exact ⟨path, a, b, rfl, (walk_split_unique hnd hsplit h).2⟩

theorem exists_path_last (hnd : (inorder t).Nodup) {l : List P} (h : walk s t = l ++ [x]) :
    ∃ path b, t = plug path (fork s x nil b) := by
  obtain ⟨path, a, b, rfl, hnil⟩ := exists_path_of_walk hnd h
  cases a with
  | nil => exact ⟨path, b, rfl⟩
  | node p l r => exact absurd (mem_walk (s := s).mpr (rootOf_mem rfl : p ∈ inorder (node p l r))) (by simp_all)

theorem inorder_erase [DecidableEq P] {c : BinaryTree P}
    (hnd : (inorder (plug path (fork s x a b))).Nodup) (hc : walk s c = walk s b ++ walk s a) :
    inorder (plug path c) = (inorder (plug path (fork s x a b))).erase x := by
  obtain ⟨-, hnd', hdisj⟩ := nodup_plug.mp hnd
  obtain ⟨hxa, hxb, -, -, -⟩ := nodup_fork.mp hnd'
  have hbefore : x ∉ (beyond .left path).reverse := fun h =>
    hdisj (mem_append_left _ (mem_reverse.mp h)) (by simp)
  rw [inorder_plug, inorder_plug, erase_append_right _ hbefore]
  cases s with
  | left =>
    have hc' : inorder c = inorder a ++ inorder b := reverse_injective (by simpa [walk] using hc)
    simp only [fork, inorder, hc', append_assoc]
    rw [erase_append_right _ hxa, cons_append, erase_cons_head]
  | right =>
    simp only [walk] at hc
    simp only [fork, inorder, hc, append_assoc]
    rw [erase_append_right _ hxb, cons_append, erase_cons_head]

theorem beyond_subset {path' : Path P} {a' b' : BinaryTree P}
    (hnd : (inorder (plug path' (fork s x a' b'))).Nodup)
    (h : inorder (plug path (fork s x a b)) = inorder (plug path' (fork s x a' b')))
    (hsub : inorder (fork s x a b) ⊆ inorder (fork s x a' b')) : beyond s path' ⊆ beyond s path := by
  intro y hy
  have hw : walk s (plug path' (fork s x a' b')) = walk s (plug path (fork s x a b)) := by
    cases s with
    | left => exact congrArg List.reverse h.symm
    | right => exact h.symm
  have hsplit := walk_plug s path (fork s x a b)
  have hsplit' := walk_plug s path' (fork s x a' b')
  rw [walk_fork, append_assoc, cons_append, ← append_assoc] at hsplit hsplit'
  have heq := (walk_split_unique hnd hsplit' (hw.trans hsplit)).2
  have hmem : y ∈ walk s a ++ beyond s path := by
    rw [← heq]
    exact mem_append_right _ hy
  rcases mem_append.mp hmem with ha | hb
  · have hin : y ∈ inorder (fork s x a' b') := hsub (by simp [mem_walk.mp ha])
    have hpath : y ∈ pathNodes path' := by
      cases s with
      | left => exact mem_append_left _ hy
      | right => exact mem_append_right _ hy
    exact absurd hin ((nodup_plug.mp hnd).2.2 hpath)
  · exact hb

/-! ### Searching -/

section Search

variable {dir : P → Option Side}

/-- Each node sends a search to one of its sides, or ends it; the nodes beyond a node that sends it back do the same. -/
def Guides (dir : P → Option Side) (l : List P) : Prop :=
  l.Pairwise fun x y => (dir x = some .left → dir y = some .left) ∧ (dir y = some .right → dir x = some .right)

/-- The nodes on each side of a hole send a search to the hole. -/
def Enclosed (dir : P → Option Side) (path : Path P) : Prop := ∀ s, ∀ y ∈ beyond s path, dir y = some s.other

theorem enclosed_nil : Enclosed dir ([] : Path P) := by simp [Enclosed, beyond]

theorem Enclosed.down (he : Enclosed dir path) (hg : Guides dir (inorder (plug path (fork s x a b)))) (hx : dir x = some s) :
    Enclosed dir (⟨s, x, b⟩ :: path) := by
  rw [inorder_plug, Guides, pairwise_append, pairwise_append] at hg
  have hin := hg.2.1.1
  have hfar : ∀ y ∈ inorder b, dir y = some s := by
    intro y hy
    cases s with
    | left =>
      rw [fork, inorder, pairwise_append, pairwise_cons] at hin
      exact (hin.2.1.1 y hy).1 hx
    | right =>
      rw [fork, inorder, pairwise_append] at hin
      exact (hin.2.2 y hy x (mem_cons_self ..)).2 hx
  intro s' y hy
  rw [beyond] at hy
  split at hy
  · exact he s' y hy
  · have hs : s'.other = s := by
      rcases Side.eq_or_eq_other s s' with rfl | rfl
      · contradiction
      · exact Side.other_other s
    simp only [mem_cons, mem_append, mem_walk] at hy
    rcases hy with rfl | hy | hy
    · rw [hs, hx]
    · rw [hs, hfar y hy]
    · exact he s' y hy

end Search

/-! ### Links -/

variable {h h' : Links P}

/-- The links of the nodes of `t` are those of `t`, below the parent `up`. -/
def Linked (h : Links P) : Option P → BinaryTree P → Prop
  | _, nil => True
  | up, node p l r => h.parent p = up ∧ h.child .left p = rootOf l ∧ h.child .right p = rootOf r ∧
      Linked h (some p) l ∧ Linked h (some p) r

@[grind =] theorem linked_fork :
    Linked h up (fork s p a b) ↔ h.parent p = up ∧ h.child s p = rootOf a ∧ h.child s.other p = rootOf b ∧
      Linked h (some p) a ∧ Linked h (some p) b := by
  cases s with
  | left => exact Iff.rfl
  | right =>
    simp only [fork, Linked, Side.other]
    tauto

theorem Linked.parent_eq (hl : Linked h up t) (hp : rootOf t = some p) : h.parent p = up := by
  obtain ⟨a, b, rfl⟩ := exists_fork_of_rootOf .left hp
  exact (linked_fork.mp hl).1

/-- The links of the nodes of a path are those of the path, with `hole` at its end. -/
def LinkedPath (h : Links P) : Option P → Path P → Prop
  | _, [] => True
  | hole, f :: path => h.parent f.node = parentOf path ∧ h.child f.side f.node = hole ∧
      h.child f.side.other f.node = rootOf f.far ∧ Linked h (some f.node) f.far ∧ LinkedPath h (some f.node) path

/-- **A tree in memory may be taken apart at a node.** -/
@[grind =] theorem linked_plug : Linked h none (plug path t) ↔ LinkedPath h (rootOf t) path ∧ Linked h (parentOf path) t := by
  induction path generalizing t with
  | nil => simp [plug, LinkedPath, parentOf]
  | cons f path ih =>
    rw [plug, ih, linked_fork, rootOf_fork]
    simp only [LinkedPath, parentOf]
    tauto

/-- Only the link on the side of a frame leads to the hole. -/
theorem Linked.child_eq_iff {y : P} (hl : Linked h none (plug (f :: path) t)) (hnd : (inorder (plug (f :: path) t)).Nodup)
    (hy : rootOf t = some y) : h.child s f.node = some y ↔ s = f.side := by
  obtain ⟨-, hnear, hfar, -, -⟩ := (linked_plug.mp hl).1
  obtain ⟨-, -, hdisj⟩ := nodup_plug.mp hnd
  rcases Side.eq_or_eq_other f.side s with rfl | rfl
  · exact iff_of_true (hnear.trans hy) rfl
  · refine iff_of_false (fun heq => ?_) (Side.other_ne _)
    exact hdisj (mem_pathNodes_cons.mpr (.inr (.inl (rootOf_mem (hfar.symm.trans heq))))) (rootOf_mem hy)

/-! ### Renaming -/

section Map

variable {Q : Type*} (f : P → Q)

@[simp] theorem rootOf_map (t : BinaryTree P) : rootOf (t.map f) = (rootOf t).map f := by cases t <;> rfl

@[simp] theorem inorder_map (t : BinaryTree P) : inorder (t.map f) = (inorder t).map f := by
  induction t with
  | nil => rfl
  | node p l r ihl ihr => simp [BinaryTree.map, inorder, ihl, ihr]

theorem Linked.map {k : Links Q} {up : Option P} {t : BinaryTree P} (hl : Linked h up t)
    (hparent : ∀ x ∈ inorder t, k.parent (f x) = (h.parent x).map f)
    (hchild : ∀ s, ∀ x ∈ inorder t, k.child s (f x) = (h.child s x).map f) : Linked k (up.map f) (t.map f) := by
  induction t generalizing up with
  | nil => trivial
  | node p l r ihl ihr =>
    have hmem : ∀ x, x ∈ inorder (node p l r) ↔ x = p ∨ x ∈ inorder l ∨ x ∈ inorder r :=
      fun x => mem_inorder_fork (s := .left) (a := l)
    simp only [hmem, or_imp, forall_and, forall_eq] at hparent hchild
    obtain ⟨hp, hleft, hright, hll, hlr⟩ := hl
    refine ⟨?_, ?_, ?_, ihl hll hparent.2.1 hchild.2.1, ihr hlr hparent.2.2 hchild.2.2⟩
    · rw [hparent.1, hp]
    · rw [hchild.1, hleft, rootOf_map]
    · rw [hchild.1, hright, rootOf_map]

end Map

/-! ### Memory that agrees -/

/-- Memory that agrees on the nodes of a tree holds the same tree. -/
theorem Linked.congr (hl : Linked h up t) (hparent : ∀ x ∈ inorder t, h'.parent x = h.parent x)
    (hchild : ∀ s, ∀ x ∈ inorder t, h'.child s x = h.child s x) : Linked h' up t := by
  have hmap : Linked h' (up.map id) (t.map id) := hl.map id (fun x hx => ?_) fun s x hx => ?_
  · rwa [Option.map_id, BinaryTree.id_map] at hmap
  · rw [Option.map_id]
    exact hparent x hx
  · rw [Option.map_id]
    exact hchild s x hx

/-- **A tree is left alone** by what is written elsewhere, and by a new parent for its root. -/
theorem Linked.reparent {up' : Option P} (hl : Linked h up t) (hnd : (inorder t).Nodup)
    (hroot : ∀ x, rootOf t = some x → h'.parent x = up')
    (hparent : ∀ x ∈ inorder t, rootOf t ≠ some x → h'.parent x = h.parent x)
    (hchild : ∀ s, ∀ x ∈ inorder t, h'.child s x = h.child s x) : Linked h' up' t := by
  rcases cases_fork .left t with rfl | ⟨p, a, b, rfl⟩
  · trivial
  · rw [linked_fork] at hl ⊢
    obtain ⟨-, hnear, hfar, hla, hlb⟩ := hl
    obtain ⟨hpa, hpb, -, -, -⟩ := nodup_fork.mp hnd
    have hother : ∀ x ∈ inorder (fork .left p a b), x ≠ p → h'.parent x = h.parent x :=
      fun x hx hne => hparent x hx (by simpa using hne.symm)
    simp only [mem_inorder_fork, or_imp, forall_and, forall_eq] at hother hchild
    exact ⟨hroot p (rootOf_fork ..), (hchild.1 _).trans hnear, (hchild.1 _).trans hfar,
      hla.congr (fun x hx => hother.2.1 x hx (ne_of_mem_of_not_mem hx hpa)) hchild.2.1,
      hlb.congr (fun x hx => hother.2.2 x hx (ne_of_mem_of_not_mem hx hpb)) hchild.2.2⟩

theorem LinkedPath.congr {hole : Option P} (hl : LinkedPath h hole path)
    (hparent : ∀ x ∈ pathNodes path, h'.parent x = h.parent x)
    (hchild : ∀ s, ∀ x ∈ pathNodes path, h'.child s x = h.child s x) : LinkedPath h' hole path := by
  induction path generalizing hole with
  | nil => trivial
  | cons f path ih =>
    simp only [mem_pathNodes_cons, or_imp, forall_and, forall_eq] at hparent hchild
    obtain ⟨hp, hnear, hfar, hlf, hpath⟩ := hl
    exact ⟨hparent.1.trans hp, (hchild.1 _).trans hnear, (hchild.1 _).trans hfar, hlf.congr hparent.2.1 hchild.2.1,
      ih hpath hparent.2.2 hchild.2.2⟩

/-! ### Rotations -/

/-- The nodes of a tree form another in the same order. -/
structure Reshaped (h h' : Links P) (t t' : BinaryTree P) : Prop where
  linked : Linked h' none t'
  order : inorder t' = inorder t
  parent : ∀ x, x ∉ inorder t → h'.parent x = h.parent x
  child : ∀ s x, x ∉ inorder t → h'.child s x = h.child s x

theorem Reshaped.trans {h'' : Links P} {t' t'' : BinaryTree P} (hr : Reshaped h h' t t') (hr' : Reshaped h' h'' t' t'') :
    Reshaped h h'' t t'' := by
  obtain ⟨-, horder, hp, hc⟩ := hr
  obtain ⟨hl, horder', hp', hc'⟩ := hr'
  rw [horder] at hp' hc'
  exact ⟨hl, horder'.trans horder, fun x hx => (hp' x hx).trans (hp x hx), fun s x hx => (hc' s x hx).trans (hc s x hx)⟩

variable [DecidableEq P]

/-- The link leads to the hole of a path. -/
def leadsToHole (s : Side) (y : P) : Path P → Bool
  | [] => false
  | f :: _ => s = f.side ∧ y = f.node

theorem leadsToHole_cons (s : Side) (y : P) (f : Frame P) (path : Path P) :
    leadsToHole s y (f :: path) = decide (s = f.side ∧ y = f.node) := rfl

/-- `x` takes the place of its parent `p`, which is put below it. -/
def rotate (h : Links P) (s : Side) (path : Path P) (x p : P) (b : Option P) : Links P where
  parent y := if y = x then parentOf path else if y = p then some x else if b = some y then some p else h.parent y
  child s' y := if leadsToHole s' y path then some x else if s' = s.other ∧ y = x then some p else if s' = s ∧ y = p then b
    else h.child s' y

theorem LinkedPath.hole {o new : Option P} {k : Links P} (hl : LinkedPath h o path) (hnd : (pathNodes path).Nodup)
    (hp : ∀ y ∈ pathNodes path, k.parent y = h.parent y)
    (hc : ∀ s, ∀ y ∈ pathNodes path, k.child s y = if leadsToHole s y path then new else h.child s y) :
    LinkedPath k new path := by
  cases path with
  | nil => trivial
  | cons f path =>
    obtain ⟨hfp, -, hfar, hlf, hlp⟩ := hl
    rw [nodup_pathNodes_cons] at hnd
    simp only [mem_pathNodes_cons, leadsToHole] at hp hc
    refine ⟨?_, ?_, ?_, hlf.congr ?_ ?_, hlp.congr ?_ ?_⟩
    all_goals grind

/-- Only the link to the hole leads to the node that is there. -/
theorem Linked.leadsToHole {y : P} (hl : Linked h none (plug path t)) (hnd : (inorder (plug path t)).Nodup)
    (hx : rootOf t = some x)
    (hy : leadsToHole s y path) : y ∈ pathNodes path ∧ h.child s y = some x ∧ h.child s.other y ≠ some x := by
  cases path with
  | nil => cases hy
  | cons f path =>
    obtain ⟨rfl, rfl⟩ : s = f.side ∧ y = f.node := by simpa [LinkedTree.leadsToHole] using hy
    have hiff := fun s => hl.child_eq_iff (s := s) hnd hx
    exact ⟨mem_pathNodes_cons.mpr (.inl rfl), (hiff _).mpr rfl, fun h => Side.other_ne _ ((hiff _).mp h)⟩

/-- **A rotation** of a tree in memory keeps the order of its nodes. -/
theorem rotate_spec (path : Path P) {c : BinaryTree P} (hl : Linked h none (plug path (fork s p (fork s x a b) c)))
    (hnd : (inorder (plug path (fork s p (fork s x a b) c))).Nodup) :
    Reshaped h (rotate h s path x p (rootOf b)) (plug path (fork s p (fork s x a b) c))
    (plug path (fork s x a (fork s p b c))) := by
  obtain ⟨hpath, hpl⟩ := linked_plug.mp hl
  obtain ⟨-, -, -, hxl, hcl⟩ := linked_fork.mp hpl
  obtain ⟨-, -, -, hal, hbl⟩ := linked_fork.mp hxl
  have hhole := fun s y => hl.leadsToHole (s := s) (y := y) hnd (rootOf_fork ..)
  refine ⟨linked_plug.mpr ⟨?_, linked_fork.mpr ⟨?_, ?_, ?_, hal.congr ?_ ?_, linked_fork.mpr ⟨?_, ?_, ?_,
    hbl.reparent ?_ ?_ ?_ ?_, hcl.congr ?_ ?_⟩⟩⟩, inorder_plug_congr (s := s) path (by simp), ?_, ?_⟩
  · rw [rootOf_fork]
    apply hpath.hole <;> grind [rotate]
  all_goals grind [rotate, mem_inorder_plug]

/-- Two rotations, of a node between its parent and its grandparent. -/
theorem rotate_inner {g : P} {c d : BinaryTree P} (hl : Linked h none (plug path (fork s.other g (fork s p (fork s x b c) d) a)))
    (hnd : (inorder (plug path (fork s.other g (fork s p (fork s x b c) d) a))).Nodup) :
    Reshaped h (rotate (rotate h s (⟨s.other, g, a⟩ :: path) x p (rootOf c)) s.other path x g (rootOf b))
      (plug path (fork s.other g (fork s p (fork s x b c) d) a)) (plug path (fork s x (fork s g a b) (fork s p c d))) := by
  have hr : Reshaped h (rotate h s (⟨s.other, g, a⟩ :: path) x p (rootOf c))
    (plug path (fork s.other g (fork s p (fork s x b c) d) a))
      (plug path (fork s.other g (fork s.other x (fork s p c d) b) a)) := by
    rw [fork_other s x]
    exact rotate_spec (⟨s.other, g, a⟩ :: path) hl hnd
  have hr' := rotate_spec path hr.linked (hr.order ▸ hnd)
  rw [fork_other s g b a, fork_other s x _ (fork s g a b)] at hr'
  exact hr.trans hr'

end LinkedTree

end Nt365.Library
