import Nt365.Rtl.Splay

/-!
# Splaying keeps the tree

`RtlSplay` turns a tree in memory into another with the same nodes in the same order and the given node at its root. What is not
a node of the tree is left alone.
-/

namespace Nt365.Rtl.SplayLinks

open Nt365.Library Nt365.Library.LinkedTree

variable {P : Type}

/-- The links of the nodes outside `L` are left alone. -/
structure Unchanged (L : List P) (h h' : SplayLinks P) : Prop where
  parent : ∀ x, x ∉ L → h'.parent x = h.parent x
  child : ∀ s x, x ∉ L → h'.child s x = h.child s x

theorem Unchanged.refl (L : List P) (h : SplayLinks P) : Unchanged L h h := ⟨fun _ _ => rfl, fun _ _ _ => rfl⟩

theorem Unchanged.trans {L : List P} {h h' h'' : SplayLinks P} (hu : Unchanged L h h') (hu' : Unchanged L h' h'') :
    Unchanged L h h'' :=
  ⟨fun x hx => (hu'.parent x hx).trans (hu.parent x hx), fun s x hx => (hu'.child s x hx).trans (hu.child s x hx)⟩

theorem Unchanged.mono {L L' : List P} {h h' : SplayLinks P} (hu : Unchanged L h h') (hsub : L ⊆ L') : Unchanged L' h h' :=
  ⟨fun x hx => hu.parent x fun hm => hx (hsub hm), fun s x hx => hu.child s x fun hm => hx (hsub hm)⟩

variable [DecidableEq P]

variable (h : SplayLinks P)

/-- The links as those of a tree whose root has no parent. -/
def toLinks : Links P := ⟨fun p => if h.parent p = p then none else some (h.parent p), h.child⟩

@[grind =] theorem toLinks_parent (p : P) : h.toLinks.parent p = if h.parent p = p then none else some (h.parent p) := rfl

@[grind =] theorem toLinks_child (s : Side) (p : P) : h.toLinks.child s p = h.child s p := rfl

/-- The nodes in memory form the tree `b`. -/
structure Holds (h : SplayLinks P) (b : BinaryTree P) : Prop where
  linked : Linked h.toLinks none b
  nodup : (inorder b).Nodup

/-- The nodes of a tree form another with the same order. -/
structure Rearranged (h h' : SplayLinks P) (t t' : BinaryTree P) : Prop where
  holds : h'.Holds t'
  order : inorder t' = inorder t
  unchanged : Unchanged (inorder t) h h'

theorem Rearranged.refl {h : SplayLinks P} {t : BinaryTree P} (ht : h.Holds t) : Rearranged h h t t := ⟨ht, rfl, .refl _ _⟩

theorem Rearranged.trans {h h' h'' : SplayLinks P} {t t' t'' : BinaryTree P} (hr : Rearranged h h' t t')
    (hr' : Rearranged h' h'' t' t'') : Rearranged h h'' t t'' :=
  ⟨hr'.holds, hr'.order.trans hr.order, hr.unchanged.trans (hr.order ▸ hr'.unchanged)⟩

/-! ### The place of a subtree -/

section Place

variable {h : SplayLinks P} {s s' : Side} {path : Path P} {y p : P} {t near far : BinaryTree P}

theorem Holds.parent_eq (ht : h.Holds (plug path t)) (hy : rootOf t = some y) : h.toLinks.parent y = parentOf path :=
  (linked_plug.mp ht.linked).2.parent_eq hy

theorem Holds.isRoot_iff (ht : h.Holds (plug path t)) (hy : rootOf t = some y) : h.IsRoot y ↔ path = [] := by
  have hp := ht.parent_eq hy
  rw [toLinks_parent] at hp
  unfold IsRoot
  cases path with
  | nil =>
    refine iff_of_true ?_ rfl
    by_contra hne
    rw [if_neg hne] at hp
    cases hp
  | cons f path =>
    refine iff_of_false (fun heq => ?_) (List.cons_ne_nil _ _)
    rw [if_pos heq] at hp
    cases hp

theorem Holds.parent_cons {f : Frame P} (ht : h.Holds (plug (f :: path) t)) (hy : rootOf t = some y) : h.parent y = f.node := by
  have hp := ht.parent_eq hy
  rw [toLinks_parent, parentOf] at hp
  split at hp
  · cases hp
  · exact Option.some.inj hp

theorem Holds.isChild_cons_iff {f : Frame P} (ht : h.Holds (plug (f :: path) t)) (hy : rootOf t = some y) :
    h.IsChild s y ↔ s = f.side := by
  rw [IsChild, ht.parent_cons hy]
  exact ht.linked.child_eq_iff ht.nodup hy

theorem Holds.not_isChild (ht : h.Holds t) (hy : rootOf t = some y) : ¬h.IsChild s y := by
  have hroot : h.parent y = y := (Holds.isRoot_iff ht hy).mpr rfl
  rw [IsChild, hroot]
  intro heq
  rcases cases_fork s t with rfl | ⟨q, a, b, rfl⟩
  · cases hy
  · obtain rfl : q = y := by simpa using hy
    obtain ⟨-, hs, -, -, -⟩ := linked_fork.mp ht.linked
    obtain ⟨hqa, -, -, -, -⟩ := nodup_fork.mp ht.nodup
    exact hqa (rootOf_mem (hs.symm.trans heq))

end Place

/-- The child pointer of the parent is that on the side of the node. -/
theorem parentsChild_side {h : SplayLinks P} {s : Side} {x p : P} (hparent : h.parent x = p) (hnear : h.child s p = some x)
    (hfar : h.child s.other p ≠ some x) : (if h.IsChild .left x then Side.left else .right) = s := by
  subst hparent
  cases s with
  | left => exact if_pos hnear
  | right => exact if_neg hfar

theorem setParentsChild_eq {h : SplayLinks P} {s : Side} {x p : P} {q : Option P} (hparent : h.parent x = p)
    (hnear : h.child s p = some x) (hfar : h.child s.other p ≠ some x) : h.setParentsChild x q = h.setChild s p q := by
  rw [setParentsChild, parentsChild_side hparent hnear hfar, hparent]

theorem connectAbove_spec {h : SplayLinks P} (path : Path P) {l g : P} (hparent : h.toLinks.parent g = parentOf path)
    (hhole : ∀ s y, leadsToHole s y path → y ≠ l ∧ h.child s y = some g ∧ h.child s.other y ≠ some g) (hne : l ≠ g) :
    (∀ y, (h.connectAbove l g).toLinks.parent y = if y = l then parentOf path else h.toLinks.parent y) ∧
      ∀ s y, (h.connectAbove l g).child s y = if leadsToHole s y path then some l else h.child s y := by
  cases path with
  | nil =>
    have hroot : h.IsRoot g := by grind [IsRoot, parentOf]
    rw [connectAbove, if_pos hroot]
    simp only [toLinks_parent, setParent_parent, setParent_child, parentOf, leadsToHole]
    grind
  | cons f path =>
    obtain ⟨hl, hnear, hfar⟩ := hhole f.side f.node (by simp [leadsToHole])
    have hpg : h.parent g = f.node ∧ ¬h.IsRoot g := by grind [IsRoot, parentOf]
    have heq : h.connectAbove l g = (h.setParent l f.node).setChild f.side f.node (some l) := by
      rw [connectAbove, if_neg hpg.2, hpg.1]
      refine setParentsChild_eq ?_ hnear hfar
      rw [setParent_parent, if_neg hne.symm, hpg.1]
    simp only [heq, toLinks_parent, setParent_parent, setChild_parent, setChild_child, setParent_child, parentOf, leadsToHole]
    grind

/-! ### New nodes -/

section Attach

variable {h : SplayLinks P} {path : Path P} {f : Frame P} {x : P}

theorem holds_leaf (h : SplayLinks P) (x : P) :
    (h.initializeSplayLinks x).Holds (fork .left x .nil .nil) ∧ Unchanged [x] h (h.initializeSplayLinks x) := by
  have hchild : ∀ s, (h.initializeSplayLinks x).toLinks.child s x = none := by
    intro s
    cases s <;> simp [initializeSplayLinks, toLinks_child]
  refine ⟨⟨linked_fork.mpr ⟨?_, hchild _, hchild _, trivial, trivial⟩, ?_⟩, fun y hy => ?_, fun s y hy => ?_⟩
  · simp [toLinks_parent, initializeSplayLinks]
  · simp [inorder_leaf]
  · simp [initializeSplayLinks, List.ne_of_not_mem_cons hy]
  · simp [initializeSplayLinks, List.ne_of_not_mem_cons hy]

theorem attach_spec (ht : h.Holds (plug (f :: path) .nil)) (hx : x ∉ inorder (plug (f :: path) .nil)) :
    ((h.initializeSplayLinks x).attach f.side f.node x).Holds (plug (f :: path) (fork .left x .nil .nil)) ∧
      Unchanged (x :: inorder (plug (f :: path) .nil)) h ((h.initializeSplayLinks x).attach f.side f.node x) := by
  obtain ⟨hpath, -⟩ := linked_plug.mp ht.linked
  obtain ⟨hndp, -, -⟩ := nodup_plug.mp ht.nodup
  have hxp : x ∉ pathNodes (f :: path) := fun hm => hx (mem_inorder_plug.mpr (.inl hm))
  generalize hh' : (h.initializeSplayLinks x).attach f.side f.node x = h'
  have hP : ∀ z, h'.parent z = if z = x then f.node else h.parent z := by
    intro z
    subst hh'
    simp only [attach, initializeSplayLinks, setParent_parent, setChild_parent]
    split <;> rfl
  have hC : ∀ s z, h'.child s z = if s = f.side ∧ z = f.node then some x else if z = x then none else h.child s z := by
    intro s z
    subst hh'
    simp only [attach, initializeSplayLinks, setParent_child, setChild_child]
    cases s <;> grind
  clear hh'
  have hmem := fun z => @mem_pathNodes_cons P z f path
  have hnd : (inorder (plug (f :: path) (fork .left x .nil .nil))).Nodup := by
    rw [nodup_plug, inorder_leaf]
    exact ⟨hndp, List.nodup_singleton x, List.disjoint_singleton.mpr hxp⟩
  refine ⟨⟨linked_plug.mpr ⟨hpath.hole hndp ?_ ?_, linked_fork.mpr ⟨?_, ?_, ?_, trivial, trivial⟩⟩, hnd⟩, ?_, ?_⟩
  all_goals grind [parentOf, mem_inorder_plug, rootOf_nil, leadsToHole_cons]

end Attach

/-! ### Rotations -/

section Rotations

variable {s : Side} {h : SplayLinks P} {path : Path P} {l p g : P} {a b c d : BinaryTree P}

theorem Rearranged.of_links {h h' : SplayLinks P} {t t' : BinaryTree P} {k : Links P} (hnd : (inorder t).Nodup)
    (hr : Reshaped h.toLinks k t t') (hparent : ∀ y, h'.toLinks.parent y = k.parent y)
    (hchild : ∀ s y, h'.child s y = k.child s y) : Rearranged h h' t t' := by
  obtain ⟨hl, horder, hp, hc⟩ := hr
  refine ⟨⟨hl.congr (fun y _ => hparent y) fun s y _ => hchild s y, horder ▸ hnd⟩, horder, fun y hy => ?_, fun s y hy => ?_⟩
  · have := (hparent y).trans (hp y hy)
    grind
  · exact (hchild s y).trans (hc s y hy)

theorem zig_spec (ht : h.Holds (fork s p (fork s l a b) c)) :
    Rearranged h (zig s h l p) (fork s p (fork s l a b) c) (fork s l a (fork s p b c)) := by
  obtain ⟨hl, hnd⟩ := ht
  have hlo : h.child s.other l = rootOf b := by grind
  refine .of_links hnd (rotate_spec [] hl hnd) (fun y => ?_) fun s' y => ?_
  · simp only [zig, connect, attach, toLinks_parent, hlo, setParent_parent, setChild_parent, setParent?_parent, rotate, parentOf]
    grind
  · simp [zig, connect, attach, hlo, rotate, leadsToHole, toLinks_child]

/-- A node and its parent on one side: the node becomes the root of the subtree, with its parent below it and its
grandparent below that. -/
theorem zigZig_spec (ht : h.Holds (plug path (fork s g (fork s p (fork s l a b) c) d))) :
    Rearranged h (zigZig s h l p g) (plug path (fork s g (fork s p (fork s l a b) c) d))
      (plug path (fork s l a (fork s p b (fork s g c d)))) := by
  obtain ⟨hlink, hnd⟩ := ht
  -- the parent is rotated above the grandparent, and the node above the parent
  have hr := rotate_spec path hlink hnd
  have hr' := rotate_spec path hr.linked (hr.order ▸ hnd)
  have hhole := fun s y => hlink.leadsToHole (s := s) (y := y) hnd (rootOf_fork ..)
  have hlp : l ≠ p ∧ l ≠ g ∧ p ≠ g := by grind
  have hchild : h.child s.other l = rootOf b ∧ h.child s.other p = rootOf c := by grind
  unfold zigZig
  simp only
  generalize hh₁ : ordered s _ _ h = h₁
  have hC₁ : ∀ s' y, h₁.child s' y = if s' = s ∧ y = p then rootOf b else if s' = s ∧ y = g then rootOf c else h.child s' y := by
    subst hh₁
    cases s <;> simp only [ordered, connect, setParent?_child, setChild_child] <;> grind [Side.other]
  have hP₁ : ∀ y, h₁.parent y = if rootOf b = some y then p else if rootOf c = some y then g else h.parent y := by
    subst hh₁
    cases s <;> simp only [ordered, connect, setParent?_parent, setParent?_child, setChild_child, setChild_parent] <;>
      grind [Side.other]
  obtain ⟨hP₂, hC₂⟩ := connectAbove_spec (h := h₁) path (l := l) (g := g) (by grind) (by grind) (by grind)
  refine .of_links hnd (hr.trans hr') (fun y => ?_) fun s' y => ?_
  · have := hP₂ y
    simp only [attach, toLinks_parent, setParent_parent, setChild_parent, rotate] at this ⊢
    grind
  · simp only [attach, setParent_child, setChild_child, hC₂, hC₁, rotate]
    grind

/-- A node and its parent on different sides: the node becomes the root of the subtree, with its parent and its
grandparent below it. -/
theorem zigZag_spec (ht : h.Holds (plug path (fork s.other g (fork s p (fork s l b c) d) a))) :
    Rearranged h (zigZag s h l p g) (plug path (fork s.other g (fork s p (fork s l b c) d) a))
      (plug path (fork s l (fork s g a b) (fork s p c d))) := by
  obtain ⟨hlink, hnd⟩ := ht
  have hr := rotate_inner hlink hnd
  have hhole := fun s y => hlink.leadsToHole (s := s) (y := y) hnd (rootOf_fork ..)
  have hlp : l ≠ p ∧ l ≠ g ∧ p ≠ g := by grind
  have hchild : h.child s l = rootOf b ∧ h.child s.other l = rootOf c := by grind
  have hbc : ∀ y, rootOf b = some y → rootOf c ≠ some y := by grind
  have hout : ∀ s y, leadsToHole s y path → y ≠ l ∧ y ≠ p ∧ y ≠ g := by grind
  unfold zigZag
  simp only
  generalize hh₁ : ordered s _ _ h = h₁
  have hC₁ : ∀ s' y, h₁.child s' y = if s' = s ∧ y = p then rootOf c else if s' = s.other ∧ y = g then rootOf b
      else h.child s' y := by
    subst hh₁
    cases s <;> simp only [ordered, connect, setParent?_child, setChild_child] <;> grind [Side.other]
  have hP₁ : ∀ y, h₁.parent y = if rootOf c = some y then p else if rootOf b = some y then g else h.parent y := by
    subst hh₁
    cases s <;> simp only [ordered, connect, setParent?_parent, setParent?_child, setChild_child, setChild_parent] <;>
      grind [Side.other]
  obtain ⟨hP₂, hC₂⟩ := connectAbove_spec (h := h₁) path (l := l) (g := g) (by grind) (by grind) (by grind)
  refine .of_links hnd hr (fun y => ?_) fun s' y => ?_
  · have := hP₂ y
    cases s <;> simp only [ordered, attach, toLinks_parent, setParent_parent, setChild_parent, rotate] at this ⊢ <;> grind
  · cases s <;> simp only [ordered, attach, setParent_child, setChild_child, hC₂, hC₁, rotate, leadsToHole_cons] <;>
      grind [Side.other]

end Rotations

/-! ### The loop -/

section Splay

variable {h : SplayLinks P} {f f' : Frame P} {path : Path P} {l : P} {t : BinaryTree P}

theorem splayStep_root (ht : h.Holds t) (hl : rootOf t = some l) : splayStep (h, l) = .ok (.inr (h, l)) := by
  rw [splayStep, if_pos ((Holds.isRoot_iff ht hl).mpr rfl)]

theorem splayStep_zig (ht : h.Holds (plug [f] t)) (hl : rootOf t = some l) :
    splayStep (h, l) = .ok (.inl (zig f.side h l f.node, l)) := by
  have hroot : h.IsRoot f.node := (Holds.isRoot_iff (show h.Holds (plug [] _) from ht) (rootOf_fork ..)).mpr rfl
  have hnot : ¬h.IsRoot l := fun hr => List.cons_ne_nil _ _ ((ht.isRoot_iff hl).mp hr)
  have hchild : h.IsChild .left l ↔ .left = f.side := ht.isChild_cons_iff hl
  simp only [splayStep, if_neg hnot, ht.parent_cons hl, hchild, if_pos hroot]
  cases f.side <;> rfl

theorem splayStep_zigZig_or_zigZag (ht : h.Holds (plug (f :: f' :: path) t)) (hl : rootOf t = some l) :
    splayStep (h, l) = .ok (.inl (if f'.side = f.side then zigZig f.side h l f.node f'.node
      else zigZag f.side h l f.node f'.node, l)) := by
  have ht' : h.Holds (plug (f' :: path) (fork f.side f.node t f.far)) := ht
  have hp : rootOf (fork f.side f.node t f.far) = some f.node := rootOf_fork ..
  have hnot : ¬h.IsRoot l := fun hr => List.cons_ne_nil _ _ ((ht.isRoot_iff hl).mp hr)
  have hnot' : ¬h.IsRoot f.node := fun hr => List.cons_ne_nil _ _ ((ht'.isRoot_iff hp).mp hr)
  have hchild : h.IsChild .left l ↔ .left = f.side := ht.isChild_cons_iff hl
  have hchild' : ∀ s, h.IsChild s f.node ↔ s = f'.side := fun s => ht'.isChild_cons_iff hp
  simp only [splayStep, if_neg hnot, ht.parent_cons hl, ht'.parent_cons hp, if_neg hnot', hchild, hchild']
  cases f.side <;> cases f'.side <;> rfl

/-- An iteration takes one or two frames off the path to `l`. -/
theorem splayStep_spec (ht : h.Holds (plug (f :: path) t)) (hl : rootOf t = some l) :
    ∃ h' path' t', splayStep (h, l) = .ok (.inl (h', l)) ∧ path'.length ≤ path.length ∧ rootOf t' = some l ∧
      Rearranged h h' (plug (f :: path) t) (plug path' t') := by
  obtain ⟨a, b, rfl⟩ := exists_fork_of_rootOf f.side hl
  cases path with
  | nil => exact ⟨_, [], _, splayStep_zig ht hl, Nat.le_refl _, rootOf_fork .., zig_spec ht⟩
  | cons f' path =>
    have hstep := splayStep_zigZig_or_zigZag ht hl
    by_cases hside : f'.side = f.side
    · rw [if_pos hside] at hstep
      simp only [plug, hside] at ht ⊢
      exact ⟨_, path, _, hstep, Nat.le_succ _, rootOf_fork .., zigZig_spec ht⟩
    · rw [if_neg hside] at hstep
      simp only [plug, (Side.eq_or_eq_other f.side f'.side).resolve_left hside] at ht ⊢
      exact ⟨_, path, _, hstep, Nat.le_succ _, rootOf_fork .., zigZag_spec ht⟩

/-- **`RtlSplay` moves a node to the root** and keeps the order of the nodes. -/
theorem rtlSplay_spec {fuel : ℕ} (ht : h.Holds t) (hl : l ∈ inorder t) (hfuel : (inorder t).length ≤ fuel) :
    ∃ h' t', rtlSplay fuel l h = .ok (h', l) ∧ rootOf t' = some l ∧ Rearranged h h' t t' := by
  obtain ⟨path, a, b, rfl⟩ := exists_path .left hl
  have hlen := length_inorder_plug path (fork .left l a b)
  rw [length_inorder_fork] at hlen
  have hpath := length_le_pathNodes path
  -- `l` stays at the end of a path that gets shorter
  let I : ℕ → SplayLinks P × P → Prop := fun k s => s.2 = l ∧ ∃ path' t', path'.length = k ∧ rootOf t' = some l ∧
    Rearranged h s.1 (plug path (fork .left l a b)) (plug path' t')
  refine loop_rule (I := I)
    (Q := fun r => ∃ h' t', r = .ok (h', l) ∧ rootOf t' = some l ∧ Rearranged h h' (plug path (fork .left l a b)) t')
    ?_ (k := path.length) ⟨rfl, path, _, rfl, rootOf_fork .., .refl ht⟩ (by omega)
  · rintro k ⟨h', l'⟩ ⟨rfl, path', t', rfl, hroot, hre⟩
    cases path' with
    | nil =>
      rw [splayStep_root hre.holds hroot]
      exact ⟨h', t', rfl, hroot, hre⟩
    | cons f path' =>
      obtain ⟨h'', path'', t'', hstep, hshort, hroot', hre'⟩ := splayStep_spec hre.holds hroot
      rw [hstep]
      exact ⟨_, Nat.lt_succ_of_le hshort, rfl, path'', t'', rfl, hroot', hre.trans hre'⟩

end Splay

end Nt365.Rtl.SplayLinks
