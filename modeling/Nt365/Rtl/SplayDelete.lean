import Mathlib.Logic.Equiv.Basic
import Nt365.Rtl.SplayTree

/-!
# Neighbours and deletion in a splay tree

The neighbours of a node are found below it or above it. `RtlDelete` first exchanges a node that has two children with its
predecessor: `SwapSplayLinks` renames the two nodes in the whole tree. A node with at most one child is then replaced by
that child.
-/

namespace Nt365.Rtl.SplayLinks

open Nt365.Library Nt365.Library.LinkedTree List

variable {P : Type} [DecidableEq P] {h : SplayLinks P} {s : Side} {t : BinaryTree P} {path : Path P} {x y z : P} {fuel : ℕ}

/-! ### Neighbours -/

theorem descend_spec {up : Option P} (ht : Linked h.toLinks up t) (hy : rootOf t = some y) (hfuel : (inorder t).length ≤ fuel) :
    h.descend fuel s y = .ok (walk s.other t).head? := by
  induction fuel generalizing t y up with
  | zero =>
    obtain ⟨a, b, rfl⟩ := exists_fork_of_rootOf s hy
    rw [length_inorder_fork] at hfuel
    omega
  | succ fuel ih =>
    obtain ⟨a, b, rfl⟩ := exists_fork_of_rootOf s hy
    rw [length_inorder_fork] at hfuel
    obtain ⟨-, hnear, -, hla, -⟩ := linked_fork.mp ht
    rw [toLinks_child] at hnear
    rw [walk_other, head?_reverse, walk_fork]
    cases hroot : rootOf a with
    | none =>
      obtain rfl := rootOf_eq_none.mp hroot
      have hstep : h.descendStep s y = .ok (.inr (some y)) := by rw [descendStep, hnear, hroot]
      rw [descend, loop_leave hstep]
      simp
    | some z =>
      have hstep : h.descendStep s y = .ok (.inl z) := by rw [descendStep, hnear, hroot]
      rw [descend, loop_go hstep]
      refine (ih hla hroot (by omega)).trans ?_
      have hne : walk s a ≠ [] := ne_nil_of_mem (mem_walk.mpr (rootOf_mem hroot))
      rw [walk_other, head?_reverse, getLast?_append_of_ne_nil _ (cons_ne_nil _ _), getLast?_cons_of_ne_nil hne]

theorem ascend_spec (ht : h.Holds (plug path t)) (hy : rootOf t = some y) (hfuel : path.length < fuel) :
    loop .unfinished (h.ascendStep s) fuel y = .ok (beyond s path).head? := by
  induction fuel generalizing path t y with
  | zero => omega
  | succ fuel ih =>
    cases path with
    | nil =>
      refine loop_leave ?_
      rw [ascendStep, if_neg (ht.not_isChild hy), if_neg (ht.not_isChild hy)]
      rfl
    | cons f path =>
      have hchild : ∀ s, h.IsChild s y ↔ s = f.side := fun s => ht.isChild_cons_iff hy
      by_cases hs : s = f.side
      · have hstep : h.ascendStep s y = .ok (.inl f.node) := by
          rw [ascendStep, if_pos ((hchild s).mpr hs), ht.parent_cons hy]
        rw [loop_go hstep, beyond, if_pos hs.symm]
        exact ih (t := fork f.side f.node t f.far) ht (rootOf_fork ..) (by simpa using hfuel)
      · have hstep : h.ascendStep s y = .ok (.inr (some f.node)) := by
          have hother : s.other = f.side := ((Side.eq_or_eq_other s f.side).resolve_left (Ne.symm hs)).symm
          rw [ascendStep, if_neg (fun hc => hs ((hchild s).mp hc)), if_pos ((hchild _).mpr hother), ht.parent_cons hy]
        rw [loop_leave hstep, beyond, if_neg (Ne.symm hs)]
        rfl

/-- **The neighbour of a node** in the tree is the next node in the order. -/
theorem realNeighbour_spec (ht : h.Holds t) {l r : List P} (hwalk : walk s t = l ++ x :: r) (hfuel : (inorder t).length ≤ fuel) :
    h.realNeighbour fuel s x = .ok r.head? := by
  obtain ⟨path, a, b, rfl, rfl⟩ := exists_path_of_walk ht.nodup hwalk
  have hlen := length_inorder_plug path (fork s x a b)
  rw [length_inorder_fork] at hlen
  obtain ⟨-, hnear, -, hla, -⟩ := linked_fork.mp (linked_plug.mp ht.linked).2
  rw [toLinks_child] at hnear
  rw [realNeighbour, hnear]
  cases hroot : rootOf a with
  | none =>
    obtain rfl := rootOf_eq_none.mp hroot
    have hpath := length_le_pathNodes path
    simpa using ascend_spec ht (rootOf_fork ..) (by omega)
  | some y =>
    have hne : walk s a ≠ [] := ne_nil_of_mem (mem_walk.mpr (rootOf_mem hroot))
    rw [List.head?_append_of_ne_nil _ hne]
    simpa using descend_spec (s := s.other) hla hroot (by omega)

/-! ### Links between nodes -/

theorem Holds.child_eq_some (ht : h.Holds t) (hy : y ∈ inorder t) (hc : h.child s y = some z) :
    z ∈ inorder t ∧ h.parent z = y ∧ z ≠ y ∧ h.child s.other y ≠ some z := by
  obtain ⟨path, a, b, rfl⟩ := exists_path s hy
  obtain ⟨-, hl⟩ := linked_plug.mp ht.linked
  obtain ⟨-, hnear, hfar, -, -⟩ := linked_fork.mp hl
  obtain ⟨hya, -, -, -, hdisj⟩ := nodup_fork.mp (nodup_plug.mp ht.nodup).2.1
  rw [toLinks_child] at hnear hfar
  have hz : rootOf a = some z := hnear.symm.trans hc
  have hza := rootOf_mem hz
  refine ⟨?_, ?_, ?_, ?_⟩
  · rw [mem_inorder_plug, mem_inorder_fork]
    exact .inr (.inr (.inl hza))
  · exact Holds.parent_cons (f := ⟨s, y, b⟩) (t := a) ht hz
  · exact ne_of_mem_of_not_mem hza hya
  · intro hc'
    exact hdisj hza (rootOf_mem (hfar.symm.trans hc'))

theorem Holds.isRoot_or (ht : h.Holds t) (hz : z ∈ inorder t) :
    h.IsRoot z ∨ h.parent z ∈ inorder t ∧ ∃ s, h.child s (h.parent z) = some z := by
  obtain ⟨path, a, b, rfl⟩ := exists_path .left hz
  cases path with
  | nil => exact .inl ((Holds.isRoot_iff ht (rootOf_fork ..)).mpr rfl)
  | cons f path =>
    refine .inr ⟨?_, f.side, (ht.isChild_cons_iff (rootOf_fork ..)).mpr rfl⟩
    rw [ht.parent_cons (rootOf_fork ..), mem_inorder_plug, mem_pathNodes_cons]
    exact .inl (.inl rfl)

/-! ### Swapping -/

section Swap

variable {link1 link2 : P} {h₁ : SplayLinks P}

/-- Two nodes have each other's places, but the children of the two may not know it yet. -/
structure Exchanged (link1 link2 : P) (h h₁ : SplayLinks P) : Prop where
  child1 : ∀ s, h₁.child s link1 = if h.child s link2 = some link1 then some link2 else h.child s link2
  child2 : ∀ s, h₁.child s link2 = h.child s link1
  child : ∀ s y, y ≠ link1 → y ≠ link2 → h₁.child s y =
    if ¬h.IsRoot link2 ∧ y = h.parent link2 ∧ h.child s y = some link2 then some link1
    else if y = h.parent link1 ∧ h.child s y = some link1 then some link2 else h.child s y
  parent1 : h₁.parent link1 = if h.IsRoot link2 then link1 else h.parent link2
  parent2 : h.parent link1 ≠ link2 → h₁.parent link2 = h.parent link1
  parent : ∀ y, y ≠ link1 → y ≠ link2 → h₁.parent y = h.parent y

theorem swapChildren_child (hne : link1 ≠ link2) (y : P) :
    ((h.swapChild .left link1 link2).swapChild .right link1 link2).child s y =
    if y = link1 then h.child s link2 else if y = link2 then h.child s link1 else h.child s y := by
  simp only [swapChild, setChild_child]
  cases s <;> grind

@[simp] theorem swapChild_parent : (h.swapChild s x y).parent = h.parent := rfl

/-- The child that points to the node itself, after the children of a child and its parent were swapped. -/
theorem setSelfChild_eq {q : Option P} (hnear : h.child s x = some x) (hfar : h.child s.other x ≠ some x) :
    (if h.child .left x = some x then h.setChild .left x q else h.setChild .right x q) = h.setChild s x q := by
  cases s with
  | left => exact if_pos hnear
  | right => exact if_neg hfar

/-- A node that is not the root is the child of its parent on one side. -/
theorem Holds.exists_side (ht : h.Holds t) (hx : x ∈ inorder t) (hroot : ¬h.IsRoot x) :
    ∃ s, (∀ s', h.child s' (h.parent x) = some x ↔ s' = s) ∧ (if h.IsChild .left x then Side.left else .right) = s ∧
      ∀ q, h.setParentsChild x q = h.setChild s (h.parent x) q := by
  obtain ⟨hm, s, hs⟩ := (ht.isRoot_or hx).resolve_left hroot
  obtain ⟨-, -, -, hs'⟩ := ht.child_eq_some hm hs
  refine ⟨s, fun s' => ?_, parentsChild_side rfl hs hs', fun q => setParentsChild_eq rfl hs hs'⟩
  rcases Side.eq_or_eq_other s s' with rfl | rfl
  · exact iff_of_true hs rfl
  · exact iff_of_false hs' (Side.other_ne s)

variable (ht : h.Holds t) (h1 : link1 ∈ inorder t) (h2 : link2 ∈ inorder t) (hne : link1 ≠ link2)
  (hroot : ¬h.IsRoot link1) (hparent : h.parent link2 ≠ link1)

include ht h1 h2 hne hroot hparent

theorem swapLinks_eq :
    ∃ h₁, Exchanged link1 link2 h h₁ ∧ h.swapLinks link1 link2 =
      (((h₁.setParent? (h₁.child .left link1) link1).setParent? (h₁.child .right link1) link1).setParent?
        (h₁.child .left link2) link2).setParent?
        (h₁.child .right link2) link2 := by
  unfold swapLinks
  simp only [setParent?_child]
  generalize hh₁ : (if h.parent link1 ≠ link2 then _ else _ : SplayLinks P) = h₁
  refine ⟨h₁, ?_, rfl⟩
  obtain ⟨s1, hs1, hside1, hset1⟩ := ht.exists_side h1 hroot
  have hchild : ∀ s, h.child s link2 = some link1 → h.parent link1 = link2 := fun s hc => (ht.child_eq_some h2 hc).2.1
  have hroot' : h.parent link1 ≠ link1 := hroot
  by_cases hr : h.IsRoot link2
  · have hr' : h.parent link2 = link2 := hr
    by_cases hap : h.parent link1 ≠ link2
    · rw [if_pos hap, if_neg (not_not.mpr hr), hset1] at hh₁
      clear hside1 hset1
      subst hh₁
      refine ⟨fun s => ?_, fun s => ?_, fun s y hy1 hy2 => ?_, ?_, fun _ => ?_, fun y hy1 hy2 => ?_⟩
      iterate 3
        · rw [swapChildren_child hne]
          simp only [setParent_child, setChild_child]
          grind
      · simp [hr]
      · simp [hne.symm]
      · simp [hy1, hy2]
    · rw [if_neg hap, if_neg (not_not.mpr hr)] at hh₁
      rw [not_not] at hap
      have hself : ∀ s', (((h.setParent link1 link1).swapChild .left link1 link2).swapChild .right link1 link2).child s' link1 =
          some link1 ↔ s' = s1 := by
        intro s'
        rw [swapChildren_child hne, if_pos rfl, setParent_child, ← hap, hs1]
      rw [setSelfChild_eq ((hself _).mpr rfl) fun hc => Side.other_ne _ ((hself _).mp hc)] at hh₁
      clear hside1 hset1 hself
      subst hh₁
      refine ⟨fun s => ?_, fun s => ?_, fun s y hy1 hy2 => ?_, ?_, fun _ => ?_, fun y hy1 hy2 => ?_⟩
      iterate 3
        · rw [setChild_child, swapChildren_child hne]
          simp only [setParent_child]
          grind
      · simp [hr]
      · contradiction
      · simp [hy1]
  · obtain ⟨s2, hs2, hside2, hset2⟩ := ht.exists_side h2 hr
    have hr' : h.parent link2 ≠ link2 := hr
    by_cases hap : h.parent link1 ≠ link2
    · rw [if_pos hap, if_pos hr, hside1, hside2, (hs1 _).mpr rfl, (hs2 _).mpr rfl] at hh₁
      clear hside1 hside2 hset1 hset2
      subst hh₁
      refine ⟨fun s => ?_, fun s => ?_, fun s y hy1 hy2 => ?_, ?_, fun _ => ?_, fun y hy1 hy2 => ?_⟩
      iterate 3
        · rw [swapChildren_child hne]
          simp only [setParent_child, setChild_child]
          grind
      · simp [hr, hne]
      · simp
      · simp [hy1, hy2]
    · rw [if_neg hap, if_pos hr, hset2] at hh₁
      rw [not_not] at hap
      generalize hk : (h.setChild s2 (h.parent link2) (some link1)).setParent link1 _ = k at hh₁
      have hkc : ∀ s y, k.child s y = if s = s2 ∧ y = h.parent link2 then some link1 else h.child s y := by
        intro s y
        rw [← hk, setParent_child, setChild_child]
      have hkp : ∀ y, k.parent y = if y = link1 then h.parent link2 else h.parent y := by
        intro y
        rw [← hk, setParent_parent, setChild_parent]
      have hself : ∀ s', ((k.swapChild .left link1 link2).swapChild .right link1 link2).child s' link1 = some link1 ↔ s' = s1 := by
        intro s'
        rw [swapChildren_child hne, if_pos rfl, hkc, if_neg (fun hc => hr' hc.2.symm), ← hap, hs1]
      rw [setSelfChild_eq ((hself _).mpr rfl) fun hc => Side.other_ne _ ((hself _).mp hc)] at hh₁
      clear hside1 hside2 hset1 hset2 hself
      subst hh₁
      refine ⟨fun s => ?_, fun s => ?_, fun s y hy1 hy2 => ?_, ?_, fun _ => ?_, fun y hy1 hy2 => ?_⟩
      iterate 3
        · rw [setChild_child, swapChildren_child hne]
          simp only [hkc]
          grind
      · simp [hkp, hr]
      · contradiction
      · simp [hkp, hy1]

omit h1 h2 hroot in
/-- Both nodes are renamed where they are children. -/
theorem Exchanged.child_swap (he : Exchanged link1 link2 h h₁) (hy : y ∈ inorder t) :
    h₁.child s (Equiv.swap link1 link2 y) = (h.child s y).map (Equiv.swap link1 link2) := by
  obtain ⟨hc1, hc2, hc, -, -, -⟩ := he
  specialize hc1 s
  specialize hc2 s
  unfold IsRoot at hc
  cases hz : h.child s y with
  | none =>
    simp only [Equiv.swap_apply_def, Option.map_none]
    grind
  | some z =>
    obtain ⟨-, hparent, hne, -⟩ := ht.child_eq_some hy hz
    simp only [Equiv.swap_apply_def, Option.map_some]
    grind

/-- The end of `SwapSplayLinks` tells the children. -/
theorem Exchanged.parent_swap (he : Exchanged link1 link2 h h₁) {h' : SplayLinks P}
    (hP : ∀ y, h'.parent y = if h₁.child .right link2 = some y then link2 else if h₁.child .left link2 = some y then link2
      else if h₁.child .right link1 = some y then link1 else if h₁.child .left link1 = some y then link1 else h₁.parent y)
    (hy : y ∈ inorder t) : h'.parent (Equiv.swap link1 link2 y) = Equiv.swap link1 link2 (h.parent y) := by
  have hc1 := fun s => he.child_swap (s := s) ht hne hparent h1
  have hc2 := fun s => he.child_swap (s := s) ht hne hparent h2
  rw [Equiv.swap_apply_left] at hc1
  rw [Equiv.swap_apply_right] at hc2
  have hiff : ∀ o : Option P, o.map (Equiv.swap link1 link2) = some (Equiv.swap link1 link2 y) ↔ o = some y := by
    intro o
    cases o <;> simp
  rw [hP, hc1, hc1, hc2, hc2]
  simp only [hiff]
  have hchild : ∀ s q, q ∈ inorder t → h.child s q = some y → h.parent y = q := fun s q hq hc => (ht.child_eq_some hq hc).2.1
  have hor := ht.isRoot_or hy
  obtain ⟨-, -, -, hp1, hp2, hp⟩ := he
  unfold IsRoot at hroot hor hp1
  simp only [Equiv.swap_apply_def]
  clear hP hc1 hc2 hiff
  grind [Side]

/-- **`SwapSplayLinks` exchanges two nodes** of a tree. -/
theorem swapSplayLinks_spec :
    (h.swapSplayLinks link1 link2).Holds (t.map (Equiv.swap link1 link2)) ∧
      Unchanged (inorder t) h (h.swapSplayLinks link1 link2) ∧
      ∀ s, (h.swapSplayLinks link1 link2).child s link2 = h.child s link1 := by
  obtain ⟨h₁, he, heq⟩ := swapLinks_eq ht h1 h2 hne hroot hparent
  rw [swapSplayLinks, if_neg (not_or.mpr ⟨hroot, hparent⟩)]
  generalize h.swapLinks link1 link2 = h' at heq
  have hC : ∀ s y, h'.child s y = h₁.child s y := by simp [heq]
  have hP : ∀ y, h'.parent y = if h₁.child .right link2 = some y then link2 else if h₁.child .left link2 = some y then link2
      else if h₁.child .right link1 = some y then link1 else if h₁.child .left link1 = some y then link1 else h₁.parent y := by
    simp [heq]
  have hinj := (Equiv.swap link1 link2).injective
  have hparent' := fun y hy => he.parent_swap ht h1 h2 hne hroot hparent hP (y := y) hy
  refine ⟨⟨?_, ?_⟩, ⟨fun y hy => ?_, fun s y hy => ?_⟩, fun s => (hC s _).trans (he.child2 s)⟩
  · refine ht.linked.map _ (fun y hy => ?_) fun s y hy => (hC s _).trans (he.child_swap ht hne hparent hy)
    rw [toLinks_parent, toLinks_parent, hparent' y hy]
    by_cases hself : h.parent y = y
    · rw [hself, if_pos rfl, if_pos rfl]
      rfl
    · rw [if_neg hself, if_neg fun hc => hself (hinj hc)]
      rfl
  · rw [inorder_map]
    exact ht.nodup.map hinj
  · -- a child of either node is a node of the tree
    have hmem1 : ∀ s, h₁.child s link2 ≠ some y := fun s hc => hy (ht.child_eq_some h1 ((he.child2 s).symm.trans hc)).1
    have hmem2 : ∀ s, h₁.child s link1 ≠ some y := by
      intro s hc
      rw [he.child1] at hc
      split at hc
      · exact hy (Option.some.inj hc ▸ h2)
      · exact hy (ht.child_eq_some h2 hc).1
    rw [hP, if_neg (hmem1 _), if_neg (hmem1 _), if_neg (hmem2 _), if_neg (hmem2 _),
      he.parent y (ne_of_mem_of_not_mem h1 hy).symm (ne_of_mem_of_not_mem h2 hy).symm]
  · have hp1 : y ≠ h.parent link1 := fun hc => hy (hc ▸ ((ht.isRoot_or h1).resolve_left hroot).1)
    have hp2 : ¬h.IsRoot link2 → y ≠ h.parent link2 := fun hr hc => hy (hc ▸ ((ht.isRoot_or h2).resolve_left hr).1)
    rw [hC, he.child s y (ne_of_mem_of_not_mem h1 hy).symm (ne_of_mem_of_not_mem h2 hy).symm, if_neg fun hc => hp2 hc.1 hc.2.1,
      if_neg fun hc => hp1 hc.1]

end Swap

/-! ### Deletion -/

/-- The nodes of a tree, without one of them, form another tree. -/
structure Deleted (h h' : SplayLinks P) (t t' : BinaryTree P) (x : P) : Prop where
  holds : h'.Holds t'
  order : inorder t' = (inorder t).erase x
  unchanged : Unchanged (inorder t) h h'

theorem Deleted.rearranged {h' h'' : SplayLinks P} {t' t'' : BinaryTree P} (hd : Deleted h h' t t' x)
    (hr : Rearranged h' h'' t' t'') : Deleted h h'' t t'' x := by
  refine ⟨hr.holds, hr.order.trans hd.order, hd.unchanged.trans (hr.unchanged.mono ?_)⟩
  rw [hd.order]
  exact erase_subset

section DeleteOne

variable {b : BinaryTree P} {f : Frame P}

theorem deleteRoot_spec {y : P} (ht : h.Holds (fork s x .nil b)) (hy : rootOf b = some y) :
    Deleted h (h.setParent y y) (fork s x .nil b) b x := by
  obtain ⟨-, -, -, -, hlb⟩ := linked_fork.mp ht.linked
  obtain ⟨-, -, -, hndb, -⟩ := nodup_fork.mp ht.nodup
  refine ⟨⟨hlb.reparent hndb (fun z hz => ?_) (fun z _ hz => ?_) fun _ _ _ => rfl, hndb⟩,
    inorder_erase (show (inorder (plug [] _)).Nodup from ht.nodup) (by simp), fun z hz => ?_, fun _ _ _ => rfl⟩
  · obtain rfl : y = z := Option.some.inj (hy.symm.trans hz)
    simp [toLinks_parent]
  · have hne : z ≠ y := fun hc => hz (hc ▸ hy)
    simp [toLinks_parent, hne]
  · have hne : z ≠ y := by
      rintro rfl
      exact hz (mem_inorder_fork.mpr (.inr (.inr (rootOf_mem hy))))
    simp [hne]

theorem unlink_spec (ht : h.Holds (plug (f :: path) (fork s x .nil b))) :
    Deleted h ((h.setChild f.side f.node (rootOf b)).setParent? (rootOf b) f.node) (plug (f :: path) (fork s x .nil b))
      (plug (f :: path) b) x := by
  have horder : inorder (plug (f :: path) b) = (inorder (plug (f :: path) (fork s x .nil b))).erase x :=
    inorder_erase ht.nodup (by simp)
  have hndup := horder ▸ ht.nodup.erase x
  obtain ⟨hpath, hl⟩ := linked_plug.mp ht.linked
  obtain ⟨-, -, -, -, hlb⟩ := linked_fork.mp hl
  obtain ⟨hndp, hnd, hdisj⟩ := nodup_plug.mp ht.nodup
  obtain ⟨-, -, -, hndb, -⟩ := nodup_fork.mp hnd
  generalize hh' : (h.setChild f.side f.node (rootOf b)).setParent? (rootOf b) f.node = h'
  have hP : ∀ z, h'.parent z = if rootOf b = some z then f.node else h.parent z := by simp [← hh']
  have hC : ∀ s z, h'.child s z = if s = f.side ∧ z = f.node then rootOf b else h.child s z := by simp [← hh']
  clear hh'
  have hmem := fun z => @mem_pathNodes_cons P z f path
  simp only [List.Disjoint] at *
  refine ⟨⟨linked_plug.mpr ⟨hpath.hole hndp ?_ ?_, hlb.reparent hndb ?_ ?_ ?_⟩, hndup⟩, horder, ?_, ?_⟩
  all_goals grind [parentOf, mem_inorder_plug, leadsToHole_cons]

/-- A node with one child at most is replaced by that child, and the parent is splayed. -/
theorem deleteOne_spec (ht : h.Holds (plug path (fork s x .nil b)))
    (hfuel : (inorder (plug path (fork s x .nil b))).length ≤ fuel) :
    ∃ h' t', deleteOne fuel x h = .ok (h', rootOf t') ∧ Deleted h h' (plug path (fork s x .nil b)) t' x := by
  obtain ⟨-, hnear, hfar, -, -⟩ := linked_fork.mp (linked_plug.mp ht.linked).2
  rw [toLinks_child] at hnear hfar
  have hor : (h.child .left x).or (h.child .right x) = rootOf b := by
    cases s <;> simp_all [Side.other]
  have hx : rootOf (fork s x .nil b) = some x := rootOf_fork ..
  cases path with
  | nil =>
    have hroot : h.IsRoot x := (Holds.isRoot_iff ht hx).mpr rfl
    rw [deleteOne, hor]
    cases hb : rootOf b with
    | none =>
      obtain rfl := rootOf_eq_none.mp hb
      refine ⟨h, .nil, if_pos hroot, ⟨trivial, nodup_nil⟩, ?_, .refl _ _⟩
      simp [plug, inorder_leaf, inorder]
    | some y => exact ⟨h.setParent y y, b, by rw [hb]; exact if_pos hroot, deleteRoot_spec ht hb⟩
  | cons f path =>
    have hroot : ¬h.IsRoot x := fun hr => cons_ne_nil _ _ ((ht.isRoot_iff hx).mp hr)
    have hd := unlink_spec ht
    obtain ⟨h', t', hsplay, hroot', hre⟩ := rtlSplay_spec (l := f.node) hd.holds
      (mem_inorder_plug.mpr (.inl (mem_pathNodes_cons.mpr (.inl rfl))))
      (show _ ≤ fuel from hd.order ▸ Nat.le_trans length_erase_le hfuel)
    refine ⟨h', t', ?_, hd.rearranged hre⟩
    have hset : ∀ q, h.setParentsChild x q = h.setChild f.side f.node q := by
      obtain ⟨s', hs', -, hset⟩ := ht.exists_side (mem_inorder_plug.mpr (.inr (rootOf_mem hx))) hroot
      obtain rfl : f.side = s' := (hs' _).mp ((ht.isChild_cons_iff hx).mpr rfl)
      rwa [ht.parent_cons hx] at hset
    rw [deleteOne, hor]
    cases hb : rootOf b with
    | none =>
      rw [hb, setParent?] at hsplay
      simp only [if_neg hroot, hset, ht.parent_cons hx, hsplay, hroot']
      rfl
    | some y =>
      rw [hb, setParent?] at hsplay
      simp only [if_neg hroot, hset, setChild_parent, setParent_parent, if_true, ht.parent_cons hx, hsplay, hroot']
      rfl

end DeleteOne

/-- The predecessor below a node is the last node of its left subtree. -/
theorem rtlSubtreePredecessor_spec {a b : BinaryTree P} (ht : h.Holds (plug path (fork .left x a b))) (ha : a ≠ .nil)
    (hfuel : (inorder (plug path (fork .left x a b))).length ≤ fuel) :
    ∃ l y, inorder a = l ++ [y] ∧ h.rtlSubtreePredecessor fuel x = .ok (some y) ∧ h.child .right y = none := by
  have hlen := length_inorder_plug path (fork .left x a b)
  rw [length_inorder_fork] at hlen
  obtain ⟨-, hnear, -, hla, -⟩ := linked_fork.mp (linked_plug.mp ht.linked).2
  rw [toLinks_child] at hnear
  cases hroot : rootOf a with
  | none => exact absurd (rootOf_eq_none.mp hroot) ha
  | some z =>
    obtain ⟨l, y, hl⟩ := (eq_nil_or_concat' _).resolve_left (ne_nil_of_mem (rootOf_mem hroot))
    refine ⟨l, y, hl, ?_, ?_⟩
    · have hdesc := descend_spec (s := .right) hla hroot (show _ ≤ fuel by omega)
      rw [rtlSubtreePredecessor, subtreeNeighbour, hnear, hroot]
      refine hdesc.trans ?_
      simp [Side.other, LinkedTree.walk, hl]
    · obtain ⟨-, hnd, -⟩ := nodup_plug.mp ht.nodup
      obtain ⟨-, -, hnda, -, -⟩ := nodup_fork.mp hnd
      obtain ⟨inner, c, rfl⟩ := exists_path_last (s := .right) hnda hl
      have ht' : h.Holds (plug (inner ++ ⟨.left, x, b⟩ :: path) (fork .right y .nil c)) := by rwa [plug_append]
      exact (linked_fork.mp (linked_plug.mp ht'.linked).2).2.1

/-- A node below another is not the root, and not the other's parent. -/
theorem Holds.below {a b : BinaryTree P} (ht : h.Holds (plug path (fork .left x a b))) (hy : y ∈ inorder a) :
    ¬h.IsRoot y ∧ h.parent x ≠ y := by
  obtain ⟨-, hnd, hdisj⟩ := nodup_plug.mp ht.nodup
  obtain ⟨hxa, -, -, -, -⟩ := nodup_fork.mp hnd
  have hyx : y ≠ x := ne_of_mem_of_not_mem hy hxa
  have hypath : y ∉ pathNodes path := fun hp => hdisj hp (mem_inorder_fork.mpr (.inr (.inl hy)))
  constructor
  · intro hr
    obtain ⟨path', c, d, heq⟩ := exists_path .left (mem_inorder_plug.mpr (.inr (mem_inorder_fork.mpr (.inr (.inl hy)))) :
      y ∈ inorder (plug path (fork .left x a b)))
    obtain rfl : path' = [] := (Holds.isRoot_iff (heq ▸ ht) (rootOf_fork ..)).mp hr
    have hroot := congrArg rootOf heq
    rw [rootOf_plug, rootOf_fork, plug, rootOf_fork] at hroot
    exact (topOf_mem hroot).elim hyx hypath
  · rintro rfl
    cases path with
    | nil => exact hyx ((Holds.isRoot_iff ht (rootOf_fork ..)).mpr rfl)
    | cons f path =>
      rw [ht.parent_cons (rootOf_fork ..)] at hypath
      exact hypath (mem_pathNodes_cons.mpr (.inl rfl))

/-- **`RtlDelete` takes a node out of the tree** and keeps the order of the others. -/
theorem rtlDelete_spec (ht : h.Holds t) (hx : x ∈ inorder t) (hfuel : (inorder t).length ≤ fuel) :
    ∃ h' t', rtlDelete fuel x h = .ok (h', rootOf t') ∧ Deleted h h' t t' x := by
  obtain ⟨path, a, b, rfl⟩ := exists_path .left hx
  obtain ⟨-, hnear, hfar, -, -⟩ := linked_fork.mp (linked_plug.mp ht.linked).2
  rw [toLinks_child] at hnear
  rw [toLinks_child, Side.other] at hfar
  unfold rtlDelete
  by_cases hboth : a ≠ .nil ∧ b ≠ .nil
  · -- the node and its predecessor change places, and the node has no right child then
    obtain ⟨l, y, hl, hpred, hyr⟩ := rtlSubtreePredecessor_spec ht hboth.1 hfuel
    have hya : y ∈ inorder a := by simp [hl]
    obtain ⟨hyroot, hyparent⟩ := ht.below hya
    have hymem : y ∈ inorder (plug path (fork .left x a b)) := mem_inorder_plug.mpr (.inr (mem_inorder_fork.mpr (.inr (.inl hya))))
    have hsplit : inorder (plug path (fork .left x a b)) =
        ((beyond .left path).reverse ++ l) ++ y :: x :: (inorder b ++ beyond .right path) := by
      rw [inorder_plug]
      simp [fork, inorder, hl]
    generalize hA : (beyond .left path).reverse ++ l = A at hsplit
    generalize hB : inorder b ++ beyond .right path = B at hsplit
    have hnd := ht.nodup
    rw [hsplit, nodup_append', nodup_cons, nodup_cons] at hnd
    have hne : y ≠ x := by
      rintro rfl
      exact hnd.2.1.1 (mem_cons_self ..)
    obtain ⟨hswap, hun, hchild⟩ := swapSplayLinks_spec ht hymem hx hne hyroot hyparent
    have hfix : ∀ z ∈ A ++ B, Equiv.swap y x z = z := by
      intro z hz
      apply Equiv.swap_apply_of_ne_of_ne <;> rintro rfl <;> grind [List.Disjoint]
    have horder : inorder ((plug path (fork .left x a b)).map (Equiv.swap y x)) = A ++ x :: y :: B := by
      rw [inorder_map, hsplit, map_append, map_cons, map_cons, Equiv.swap_apply_left, Equiv.swap_apply_right,
        map_congr_left fun z hz => hfix z (mem_append_left _ hz),
        map_congr_left fun z hz => hfix z (mem_append_right _ hz), map_id', map_id']
    rw [if_pos (by rwa [hnear, hfar, Ne, Ne, rootOf_eq_none, rootOf_eq_none]), hpred, ok_bind]
    simp only
    generalize (plug path (fork .left x a b)).map (Equiv.swap y x) = t' at hswap horder
    generalize h.swapSplayLinks y x = h' at hswap hun hchild
    obtain ⟨path', c, d, rfl⟩ := exists_path .right (show x ∈ inorder t' by simp [horder])
    obtain rfl : c = .nil := by
      rw [← rootOf_eq_none, ← (linked_fork.mp (linked_plug.mp hswap.linked).2).2.1, toLinks_child, hchild, hyr]
    have hlength : (inorder (plug path' (fork .right x .nil d))).length ≤ fuel := by
      rw [horder]
      rw [hsplit] at hfuel
      simpa using hfuel
    obtain ⟨h'', t'', hdel, hd⟩ := deleteOne_spec hswap hlength
    refine ⟨h'', t'', hdel, hd.holds, ?_, hun.trans (hd.unchanged.mono ?_)⟩
    · have hxA : x ∉ A := fun hm => hnd.2.2 hm (by simp)
      rw [hd.order, horder, hsplit, erase_append_right _ hxA, erase_append_right _ hxA, erase_cons_head,
        erase_cons_tail (by simpa using hne), erase_cons_head]
    · rw [horder, hsplit]
      exact ((List.Perm.swap y x B).append_left A).subset
  · have hcond : ¬(h.child .left x ≠ none ∧ h.child .right x ≠ none) := by
      rwa [hnear, hfar, Ne, Ne, rootOf_eq_none, rootOf_eq_none]
    rw [if_neg hcond]
    rcases not_and_or.mp hboth with ha | hb
    · obtain rfl := not_not.mp ha
      exact deleteOne_spec ht hfuel
    · obtain rfl := not_not.mp hb
      exact deleteOne_spec (s := .right) ht hfuel

/-- **The operations keep the order of the nodes**: the links are those of a tree before and after, `RtlSplay` moves a node
to the root, `RtlDelete` takes out just one node, and the neighbours of a node are those in the order. -/
theorem splayLinks_keep_order (ht : h.Holds t) (hx : x ∈ inorder t) (hfuel : (inorder t).length ≤ fuel) :
    (∃ h' t', rtlSplay fuel x h = .ok (h', x) ∧ h'.Holds t' ∧ rootOf t' = some x ∧ inorder t' = inorder t ∧
      Unchanged (inorder t) h h') ∧
    (∃ h' t', rtlDelete fuel x h = .ok (h', rootOf t') ∧ h'.Holds t' ∧ inorder t' = (inorder t).erase x ∧
      (rootOf t' = none ↔ inorder t = [x]) ∧ Unchanged (inorder t) h h') ∧
    ∀ l r, inorder t = l ++ x :: r →
      rtlRealSuccessor fuel x h = .ok r.head? ∧ rtlRealPredecessor fuel x h = .ok l.getLast? := by
  refine ⟨?_, ?_, fun l r hsplit => ⟨realNeighbour_spec ht hsplit hfuel, ?_⟩⟩
  · obtain ⟨h', t', hrun, hroot, hre⟩ := rtlSplay_spec ht hx hfuel
    exact ⟨h', t', hrun, hre.holds, hroot, hre.order, hre.unchanged⟩
  · obtain ⟨h', t', hrun, hd⟩ := rtlDelete_spec ht hx hfuel
    refine ⟨h', t', hrun, hd.holds, hd.order, ?_, hd.unchanged⟩
    have hlen := length_erase_of_mem hx
    rw [← hd.order] at hlen
    rw [rootOf_eq_none]
    constructor
    · rintro rfl
      rw [inorder, length_nil] at hlen
      obtain ⟨y, hy⟩ := length_eq_one_iff.mp (show (inorder t).length = 1 by have := length_pos_of_mem hx; omega)
      rw [hy, mem_singleton] at hx
      rw [hy, hx]
    · intro hone
      rw [hone, length_singleton] at hlen
      cases t' with
      | nil => rfl
      | node p l r => simp [inorder] at hlen
  · have hwalk : walk .left t = r.reverse ++ x :: l.reverse := by simp [LinkedTree.walk, hsplit]
    rw [rtlRealPredecessor, realNeighbour_spec ht hwalk hfuel, head?_reverse]

/-- A node with two children, which is the root and the parent of its predecessor. -/
theorem splayLinks_keep_order_root :
    let h : SplayLinks ℕ := ⟨fun _ => 2, fun s x => if x = 2 then some (if s = .left then 1 else 3) else none⟩
    let t : BinaryTree ℕ := .node 2 (.node 1 .nil .nil) (.node 3 .nil .nil)
    inorder t = [1, 2, 3] ∧ h.Holds t ∧ (∃ h' t', rtlDelete 3 2 h = .ok (h', rootOf t') ∧ h'.Holds t' ∧ inorder t' = [1, 3]) ∧
      rtlRealSuccessor 3 2 h = .ok (some 3) := by
  intro h t
  have ht : h.Holds t := ⟨⟨rfl, rfl, rfl, ⟨rfl, rfl, rfl, trivial, trivial⟩, ⟨rfl, rfl, rfl, trivial, trivial⟩⟩, by decide⟩
  obtain ⟨-, ⟨h', t', hrun, ht', horder, -, -⟩, hnext⟩ := splayLinks_keep_order (x := 2) ht (by decide) (show _ ≤ 3 by decide)
  exact ⟨rfl, ht, ⟨h', t', hrun, ht', horder⟩, (hnext [1] [3] rfl).1⟩

end Nt365.Rtl.SplayLinks
