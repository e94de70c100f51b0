import Nt365.Mm.AddrSup

/-!
# Reordering keeps the tree

`MiReorderTree` turns a tree in memory into another with the same nodes in the same order. It
does not always bring the node that it is given to the root, but what is below that node stays
below it.
-/

namespace Nt365.Mm

open Nt365.Library Nt365.Library.LinkedTree

variable {P : Type}

/-- The nodes in memory form the tree `b`. -/
structure AddressTree.Holds (t : AddressTree P) (b : BinaryTree P) : Prop where
  linked : Linked t.toLinks none b
  root : t.root = rootOf b
  nodup : (inorder b).Nodup

/-- What is left alone: the ranges of the nodes, and the children of the nodes outside `L`. -/
structure Unchanged (L : List P) (t t' : AddressTree P) : Prop where
  startingVa : t'.startingVa = t.startingVa
  endingVa : t'.endingVa = t.endingVa
  child : ∀ s, ∀ x, x ∉ L → t'.child s x = t.child s x

theorem Unchanged.refl (L : List P) (t : AddressTree P) : Unchanged L t t := ⟨rfl, rfl, fun _ _ _ => rfl⟩

theorem Unchanged.trans {L : List P} {t t' t'' : AddressTree P} (h : Unchanged L t t') (h' : Unchanged L t' t'') :
    Unchanged L t t'' :=
  ⟨h'.startingVa.trans h.startingVa, h'.endingVa.trans h.endingVa, fun s x hx => (h'.child s x hx).trans (h.child s x hx)⟩

/-- `new` is where a node was at the end of a path. -/
structure Replaced [DecidableEq P] (t t' : AddressTree P) (path : Path P) (new : Option P) : Prop where
  above : LinkedPath t'.toLinks new path
  parent : ∀ x, t'.parent x = if new = some x then parentOf path else t.parent x
  root : t'.root = topOf path new
  unchanged : Unchanged (pathNodes path) t t'

section Replace

variable {t : AddressTree P} {f : Frame P} {path : Path P} {y : P} {near : BinaryTree P}

theorem AddressTree.Holds.root_ne (ht : t.Holds (plug (f :: path) near)) (hy : rootOf near = some y) : t.root ≠ some y := by
  obtain ⟨-, -, hdisj⟩ := nodup_plug.mp ht.nodup
  intro h
  rw [ht.root, rootOf_plug, topOf] at h
  exact hdisj (mem_pathNodes_cons.mpr ((topOf_mem h).imp_right .inr)) (rootOf_mem hy)

theorem AddressTree.Holds.parent_eq (ht : t.Holds (plug path near)) (hy : rootOf near = some y) : t.parent y = parentOf path :=
  (linked_plug.mp ht.linked).2.parent_eq hy

variable [DecidableEq P] {new : Option P}

/-- The link of the parent that leads to the old node is the one on the side of its frame. -/
theorem replaceChild_eq (ht : t.Holds (plug (f :: path) near)) (hy : rootOf near = some y) (hne : new ≠ some y) :
    replaceChild t y new = .ok (t.withLinks ((t.setParent? new (some f.node)).setChild f.side f.node new)) := by
  have hchild : t.child .left f.node = some y ↔ .left = f.side := ht.linked.child_eq_iff ht.nodup hy
  have hparent : t.parent y = some f.node := ht.parent_eq hy
  rw [replaceChild, if_neg (ht.root_ne hy)]
  dsimp only
  rw [Links.setParent?_parent, if_neg hne, hparent]
  simp only [follow, bind, Except.bind, pure, Except.pure, Links.setParent?_child, hchild]
  cases f.side <;> rfl

theorem replaceChild_spec (new : Option P) (ht : t.Holds (plug path near)) (hy : rootOf near = some y)
    (hnew : ∀ x, new = some x → x ∉ pathNodes path) (hne : new ≠ some y) :
    ∃ t', replaceChild t y new = .ok t' ∧ Replaced t t' path new ∧
      ∀ s x, t'.child s x = if leadsToHole s x path then new else t.child s x := by
  have hroot : t.root = topOf path (some y) := by rw [ht.root, rootOf_plug, hy]
  cases path with
  | nil =>
    rw [replaceChild, if_pos (show t.root = some y from hroot)]
    exact ⟨_, rfl, ⟨trivial, by simp [AddressTree.withLinks, parentOf], rfl, rfl, rfl, by simp [AddressTree.withLinks]⟩,
      by simp [AddressTree.withLinks, leadsToHole]⟩
  | cons f path =>
    have hset := replaceChild_eq ht hy hne
    generalize ht' : t.withLinks _ = t' at hset
    have hp : ∀ x, t'.parent x = if new = some x then some f.node else t.parent x := by
      subst ht'
      exact fun x => Links.setParent?_parent ..
    have hc : ∀ s x, t'.child s x = if leadsToHole s x (f :: path) then new else t.child s x := by
      subst ht'
      simp [AddressTree.withLinks, leadsToHole]
    obtain ⟨hroot', hranges⟩ : t'.root = t.root ∧ t'.startingVa = t.startingVa ∧ t'.endingVa = t.endingVa := by
      subst ht'
      exact ⟨rfl, rfl, rfl⟩
    have hpath := (linked_plug.mp ht.linked).1
    refine ⟨t', hset, ⟨hpath.hole (nodup_plug.mp ht.nodup).1 (fun x hx => ?_) fun s x _ => hc s x, hp,
      hroot'.trans hroot, hranges.1, hranges.2, fun s x hx => ?_⟩, hc⟩
    · rw [hp, if_neg fun h => hnew x h hx]
    · rw [hc, if_neg fun hs => hx (ht.linked.leadsToHole ht.nodup hy hs).1]

end Replace

/-! ### Rotations -/

section Rotations

variable {s : Side} {t : AddressTree P} {path : Path P} {x p g : P} {a b c d : BinaryTree P}

theorem inorder_outer : inorder (plug path (fork s p (fork s x a b) (fork s g c d))) =
    inorder (plug path (fork s g (fork s p (fork s x a b) c) d)) := inorder_plug_congr (s := s) path (by simp)

theorem inorder_inner : inorder (plug path (fork s x (fork s g a b) (fork s p c d))) =
    inorder (plug path (fork s.other g (fork s p (fork s x b c) d) a)) := by
  apply inorder_plug_congr (s := s)
  simp [fork_other]

theorem inorder_root : inorder (fork s x a (fork s p b c)) = inorder (fork s p (fork s x a b) c) :=
  inorder_eq_of_walk (s := s) (by simp)

/-- Links that are those of a reshaped tree. -/
theorem holds_of_links {t' : AddressTree P} {b b' : BinaryTree P} {k : Links P} (hnd : (inorder b).Nodup)
    (hr : Reshaped t.toLinks k b b') (hparent : ∀ y, t'.parent y = k.parent y) (hchild : ∀ s y, t'.child s y = k.child s y)
    (hroot : t'.root = rootOf b') (hstart : t'.startingVa = t.startingVa) (hend : t'.endingVa = t.endingVa) :
    t'.Holds b' ∧ Unchanged (inorder b) t t' :=
  ⟨⟨hr.linked.congr (fun y _ => hparent y) fun s y _ => hchild s y, hroot, hr.order ▸ hnd⟩, hstart, hend,
    fun s y hy => (hchild s y).trans (hr.child s y hy)⟩

variable [DecidableEq P]

/-- The parent of two nodes on one side becomes the root of the subtree. -/
theorem rotateOuter_spec (ht : t.Holds (plug path (fork s g (fork s p (fork s x a b) c) d))) :
    ∃ t', rotateOuter s t p g = .ok t' ∧ t'.Holds (plug path (fork s p (fork s x a b) (fork s g c d))) ∧
      Unchanged (inorder (plug path (fork s g (fork s p (fork s x a b) c) d))) t t' := by
  have hl := ht.linked
  have hnd := ht.nodup
  have hhole := fun s y => hl.leadsToHole (s := s) (y := y) hnd (rootOf_fork ..)
  have hr := rotate_spec path hl hnd
  obtain ⟨t₁, ht₁, ⟨-, hP₁, hroot₁, hu₁⟩, hC₁⟩ := replaceChild_spec (some p) ht (rootOf_fork ..) (by grind) (by grind)
  have hcp : t₁.child s.other p = rootOf c := by grind
  simp only [rotateOuter, ht₁, bind, Except.bind, pure, Except.pure]
  refine ⟨_, rfl, holds_of_links hnd hr (fun y => ?_) (fun s' y => ?_) ?_ hu₁.startingVa hu₁.endingVa⟩
  · simp only [AddressTree.withLinks, rotate, Links.setChild_parent, Links.setParent_parent, Links.setParent?_parent,
      Links.setChild_child]
    grind
  · simp only [AddressTree.withLinks, rotate, Links.setChild_child, Links.setParent_child, Links.setParent?_child]
    grind
  · rw [rootOf_plug, rootOf_fork]
    exact hroot₁

/-- A node between its parent and its grandparent becomes the root of the subtree. -/
theorem rotateInner_spec (ht : t.Holds (plug path (fork s.other g (fork s p (fork s x b c) d) a))) :
    ∃ t', rotateInner s t x p g = .ok t' ∧ t'.Holds (plug path (fork s x (fork s g a b) (fork s p c d))) ∧
      Unchanged (inorder (plug path (fork s.other g (fork s p (fork s x b c) d) a))) t t' := by
  have hl := ht.linked
  have hnd := ht.nodup
  have hhole := fun s y => hl.leadsToHole (s := s) (y := y) hnd (rootOf_fork ..)
  have hr := rotate_inner hl hnd
  obtain ⟨t₁, ht₁, ⟨-, hP₁, hroot₁, hu₁⟩, hC₁⟩ := replaceChild_spec (some x) ht (rootOf_fork ..) (by grind) (by grind)
  have hxo₁ : t₁.child s.other x = rootOf c := by grind
  have hxs₁ : t₁.child s x = rootOf b := by grind
  have hxp : x ≠ p := by grind
  have hxg : x ≠ g := by grind
  simp only [rotateInner, ht₁, bind, Except.bind, pure, Except.pure]
  refine ⟨_, rfl, holds_of_links hnd hr (fun y => ?_) (fun s' y => ?_) ?_ hu₁.startingVa hu₁.endingVa⟩
  · simp only [AddressTree.withLinks, rotate, Links.setChild_parent, Links.setParent_parent, Links.setParent?_parent,
      Links.setParent?_child, Links.setChild_child]
    grind
  · simp only [AddressTree.withLinks, rotate, Links.setChild_child, Links.setParent_child, Links.setParent?_child,
      leadsToHole_cons]
    grind
  · rw [rootOf_plug, rootOf_fork]
    exact hroot₁

theorem rotateRoot_spec (ht : t.Holds (fork s p (fork s x a b) c)) :
    (rotateRoot s t x p).Holds (fork s x a (fork s p b c)) ∧
      Unchanged (inorder (fork s p (fork s x a b) c)) t (rotateRoot s t x p) := by
  obtain ⟨hl, -, hnd⟩ := ht
  have hxo : t.child s.other x = rootOf b := by grind
  have hne : x ≠ p := by grind
  refine holds_of_links hnd (rotate_spec [] hl hnd) (fun y => ?_) (fun s' y => ?_) (rootOf_fork ..).symm rfl rfl
  · simp only [rotateRoot, AddressTree.withLinks, rotate, parentOf, Links.setChild_parent, Links.setParent_parent,
      Links.setParent?_parent, Links.setChild_child, Links.setParent_child]
    grind
  · simp [rotateRoot, AddressTree.withLinks, hxo, hne, rotate, leadsToHole]

end Rotations

/-! ### The loop -/

/-- The nodes `S` are at or below the node `x`. -/
def Keeps (x : P) (S : List P) : BinaryTree P → Prop
  | .nil => False
  | .node y l r => (y = x ∧ S ⊆ inorder (.node y l r)) ∨ Keeps x S l ∨ Keeps x S r

section Keeps

variable {s : Side} {x y : P} {S : List P} {a b : BinaryTree P}

theorem keeps_fork : Keeps x S (fork s y a b) ↔ (y = x ∧ S ⊆ inorder (fork s y a b)) ∨ Keeps x S a ∨ Keeps x S b := by
  cases s with
  | left => exact Iff.rfl
  | right =>
    simp only [fork, Keeps]
    tauto

theorem Keeps.exists_path (s : Side) {t : BinaryTree P} (h : Keeps x S t) :
    ∃ path a b, t = LinkedTree.plug path (fork s x a b) ∧ S ⊆ inorder (fork s x a b) := by
  induction t with
  | nil => cases h
  | node y l r ihl ihr =>
    rcases h with ⟨rfl, hS⟩ | h | h
    · obtain ⟨a, b, hab⟩ := exists_fork s y l r
      exact ⟨[], a, b, hab, hab ▸ hS⟩
    · obtain ⟨path, a, b, rfl, hS⟩ := ihl h
      exact ⟨path ++ [⟨.left, y, r⟩], a, b, by rw [plug_append]; rfl, hS⟩
    · obtain ⟨path, a, b, rfl, hS⟩ := ihr h
      exact ⟨path ++ [⟨.right, y, l⟩], a, b, by rw [plug_append]; rfl, hS⟩

end Keeps

section Step

variable [DecidableEq P] {t : AddressTree P} {f f' : Frame P} {path : Path P} {y : P} {near : BinaryTree P}

theorem reorderStep_root (ht : t.Holds (plug [f] near)) (hy : rootOf near = some y) :
    reorderStep (t, y) = .ok (.inr (rotateRoot f.side t y f.node)) := by
  have hroot : t.root = some f.node := by rw [ht.root, rootOf_plug, topOf, topOf]
  have hchild : t.child .left f.node = some y ↔ .left = f.side := ht.linked.child_eq_iff ht.nodup hy
  rw [reorderStep, if_neg (ht.root_ne hy), ht.parent_eq hy]
  simp only [follow, parentOf, bind, Except.bind, if_pos hroot, hchild]
  cases f.side <;> rfl

theorem reorderStep_cons (ht : t.Holds (plug (f :: f' :: path) near)) (hy : rootOf near = some y) :
    reorderStep (t, y) = if f'.side = f.side then (rotateOuter f.side t f.node f'.node).map fun t' => .inl (t', f.node)
      else (rotateInner f.side t y f.node f'.node).map fun t' => .inl (t', y) := by
  have ht' : t.Holds (plug (f' :: path) (fork f.side f.node near f.far)) := ht
  have hp : rootOf (fork f.side f.node near f.far) = some f.node := rootOf_fork ..
  have hchild : ∀ s, t.child s f.node = some y ↔ s = f.side := fun s => ht.linked.child_eq_iff ht.nodup hy
  have hchild' : ∀ s, t.child s f'.node = some f.node ↔ s = f'.side := fun s => ht'.linked.child_eq_iff ht.nodup hp
  rw [reorderStep, if_neg (ht.root_ne hy), ht.parent_eq hy]
  simp only [follow, parentOf, bind, Except.bind, if_neg (ht'.root_ne hp), ht'.parent_eq hp, hchild, hchild']
  cases f.side <;> cases f'.side
  · cases rotateOuter .left t f.node f'.node <;> rfl
  · cases rotateInner .left t y f.node f'.node <;> rfl
  · cases rotateInner .right t y f.node f'.node <;> rfl
  · cases rotateOuter .right t f.node f'.node <;> rfl

end Step

variable [DecidableEq P]

/-- What an iteration of `MiReorderTree` starts from: the node to move up is at the end of a path
of at most `k` nodes, `S` is at or below `x` in its subtree, and the order is `L`. -/
structure Reordering (t₀ : AddressTree P) (x : P) (S L : List P) (k : ℕ) (t : AddressTree P) (y : P) : Prop where
  place : ∃ path a b, t.Holds (plug path (.node y a b)) ∧ Keeps x S (.node y a b) ∧ inorder (plug path (.node y a b)) = L ∧
    path.length ≤ k
  unchanged : Unchanged L t₀ t

/-- What `MiReorderTree` does: the nodes stay in their order, and `S` at or below `x`. -/
structure Reordered (t₀ : AddressTree P) (x : P) (S L : List P) (t : AddressTree P) : Prop where
  tree : ∃ b, t.Holds b ∧ inorder b = L ∧ Keeps x S b
  unchanged : Unchanged L t₀ t

theorem reorderStep_spec {t₀ t : AddressTree P} {x y : P} {S L : List P} {k : ℕ} (h : Reordering t₀ x S L k t y) :
    Iterates (fun k s => Reordering t₀ x S L k s.1 s.2) (fun r => ∃ t', r = .ok t' ∧ Reordered t₀ x S L t') k
      (reorderStep (t, y)) := by
  obtain ⟨⟨path, a, b, ht, hkeeps, hL, hk⟩, hrange⟩ := h
  cases path with
  | nil =>
    rw [reorderStep, if_pos (show t.root = some y from ht.root)]
    exact ⟨t, rfl, ⟨_, ht, hL, hkeeps⟩, hrange⟩
  | cons f path =>
    obtain ⟨na, nb, hfork⟩ := exists_fork f.side y a b
    rw [hfork] at ht hkeeps hL
    cases path with
    | nil =>
      obtain ⟨ht', hr⟩ := rotateRoot_spec ht
      rw [reorderStep_root ht (rootOf_fork ..)]
      refine ⟨_, rfl, ⟨_, ht', inorder_root.trans hL, ?_⟩, hrange.trans (hL ▸ hr)⟩
      rcases keeps_fork.mp hkeeps with ⟨rfl, hS⟩ | h | h
      · exact keeps_fork.mpr (.inl ⟨rfl, fun z hz => by have := hS hz; grind⟩)
      · exact keeps_fork.mpr (.inr (.inl h))
      · exact keeps_fork.mpr (.inr (.inr (keeps_fork.mpr (.inr (.inl h)))))
    | cons f' path =>
      rw [List.length_cons, List.length_cons] at hk
      rw [reorderStep_cons ht (rootOf_fork ..)]
      by_cases hside : f'.side = f.side
      · simp only [plug, hside] at ht hL
        obtain ⟨t', heq, ht', hr⟩ := rotateOuter_spec ht
        rw [if_pos hside, heq]
        obtain ⟨l, r, hlr⟩ := exists_node f.side f.node (fork f.side y na nb) (fork f.side f'.node f.far f'.far)
        refine ⟨path.length, by omega, ⟨path, l, r, hlr ▸ ht', hlr ▸ ?_, hlr ▸ inorder_outer.trans hL, Nat.le_refl _⟩,
          hrange.trans (hL ▸ hr)⟩
        exact keeps_fork.mpr (.inr (.inl hkeeps))
      · simp only [plug, (Side.eq_or_eq_other f.side f'.side).resolve_left hside] at ht hL
        obtain ⟨t', heq, ht', hr⟩ := rotateInner_spec ht
        rw [if_neg hside, heq]
        obtain ⟨l, r, hlr⟩ := exists_node f.side y (fork f.side f'.node f'.far na) (fork f.side f.node nb f.far)
        refine ⟨path.length, by omega, ⟨path, l, r, hlr ▸ ht', hlr ▸ ?_, hlr ▸ inorder_inner.trans hL, Nat.le_refl _⟩,
          hrange.trans (hL ▸ hr)⟩
        rcases keeps_fork.mp hkeeps with ⟨rfl, hS⟩ | h | h
        · exact keeps_fork.mpr (.inl ⟨rfl, fun z hz => by have := hS hz; grind⟩)
        · exact keeps_fork.mpr (.inr (.inl (keeps_fork.mpr (.inr (.inr h)))))
        · exact keeps_fork.mpr (.inr (.inr (keeps_fork.mpr (.inr (.inl h)))))

/-- **`MiReorderTree`** keeps the nodes in their order, and does not move others into the place of
what is at or below the node that it is given. -/
theorem miReorderTree_spec {t : AddressTree P} {path : Path P} {x : P} {a b : BinaryTree P} {fuel : ℕ}
    (ht : t.Holds (plug path (.node x a b))) (hfuel : path.length < fuel) :
    ∃ t' path' a' b', miReorderTree fuel x t = .ok t' ∧ t'.Holds (plug path' (.node x a' b')) ∧
      inorder (plug path' (.node x a' b')) = inorder (plug path (.node x a b)) ∧ (∀ s, beyond s path' ⊆ beyond s path) ∧
      Unchanged (inorder (plug path (.node x a b))) t t' := by
  have hstart : Reordering t x (inorder (.node x a b)) (inorder (plug path (.node x a b))) path.length t x :=
    ⟨⟨path, a, b, ht, .inl ⟨rfl, fun _ h => h⟩, rfl, Nat.le_refl _⟩, Unchanged.refl _ t⟩
  obtain ⟨t', heq, ⟨c, hc, horder, hkeeps⟩, hr⟩ : ∃ t', miReorderTree fuel x t = .ok t' ∧ Reordered t x _ _ t' :=
    loop_rule (I := fun k (s : AddressTree P × P) => Reordering t x _ _ k s.1 s.2) (fun _ _ => reorderStep_spec) hstart hfuel
  obtain ⟨path', a', b', rfl, hS⟩ := hkeeps.exists_path .left
  refine ⟨t', path', a', b', heq, hc, horder, ?_, hr⟩
  intro s
  obtain ⟨na, nb, hn⟩ := exists_fork s x a b
  obtain ⟨na', nb', hn'⟩ := exists_fork s x a' b'
  have hn'' : fork .left x a' b' = fork s x na' nb' := hn'
  rw [hn''] at hc horder hS
  rw [hn] at horder hS
  exact beyond_subset hc.nodup horder.symm hS

end Nt365.Mm
