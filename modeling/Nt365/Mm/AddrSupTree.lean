import Nt365.Mm.AddrSupReorder

/-!
# What the tree operations do

Each routine of `MM/ADDRSUP.C` on a tree in memory, in terms of the nodes in their order: the
neighbours of a node are the nodes next to it, lookups find the node whose range meets the one
asked for, insertion adds a node and removal takes one out.
-/

namespace Nt365.Mm

open Nt365.Library Nt365.Library.LinkedTree List

variable {P : Type}

/-! ### Neighbours -/

variable {t : AddressTree P} {s : Side} {c b : BinaryTree P} {p node : P} {fuel : ℕ} {path : Path P}

theorem farthest_spec {up : Option P}
    (hl : Linked t.toLinks up c) (hp : rootOf c = some p) (hfuel : (inorder c).length < fuel) :
    ∃ y inner far, farthest fuel s t p = .ok y ∧ c = plug inner (fork s y .nil far) ∧ beyond s inner = [] := by
  refine loop_rule
    (I := fun k p => ∃ inner up c', c = plug inner c' ∧ beyond s inner = [] ∧ Linked t.toLinks up c' ∧ rootOf c' = some p ∧
      (inorder c').length ≤ k)
    (Q := fun r => ∃ y inner far, r = .ok y ∧ c = plug inner (fork s y .nil far) ∧ beyond s inner = [])
    ?_ ⟨[], up, c, rfl, rfl, hl, hp, Nat.le_refl _⟩ hfuel
  rintro k p ⟨inner, up, c', hc, hin, hl, hp, hk⟩
  rcases cases_fork s c' with rfl | ⟨q, a, b, rfl⟩
  · cases hp
  · obtain rfl : q = p := by simpa using hp
    obtain ⟨-, hs, -, ha, -⟩ := linked_fork.mp hl
    rw [hs]
    rw [length_inorder_fork] at hk
    cases hr : rootOf a with
    | none =>
      obtain rfl := rootOf_eq_none.mp hr
      exact ⟨q, inner, b, rfl, hc, hin⟩
    | some r => exact ⟨_, by omega, ⟨s, q, b⟩ :: inner, some q, a, hc, by simp [beyond, hin], ha, hr, Nat.le_refl _⟩

section Neighbours

variable [DecidableEq P]

theorem ancestor_spec {t : AddressTree P} {s : Side} {path : Path P} {c : BinaryTree P} {x : P} {fuel : ℕ}
    (ht : t.Holds (plug path c)) (hx : rootOf c = some x) (hfuel : path.length < fuel) :
    ancestor fuel s t x = .ok (beyond s path).head? := by
  induction path generalizing c x fuel with
  | nil =>
    obtain ⟨k, rfl⟩ := Nat.exists_eq_add_of_lt hfuel
    rw [ancestor, loop, ht.parent_eq hx]
    rfl
  | cons f path ih =>
    obtain ⟨k, rfl⟩ := Nat.exists_eq_add_of_lt hfuel
    have hiff : t.child s.other f.node = some x ↔ s.other = f.side := ht.linked.child_eq_iff ht.nodup hx
    simp only [ancestor, loop, ht.parent_eq hx, parentOf, beyond, hiff]
    rcases Side.eq_or_eq_other s f.side with hs | hs
    · rw [if_neg (hs ▸ Side.other_ne s), if_pos hs]
      exact ih (c := fork f.side f.node c f.far) ht (rootOf_fork ..) (Nat.le_add_right _ k)
    · rw [if_pos hs.symm, if_neg (hs ▸ Side.other_ne s)]
      rfl

/-- **The neighbour of a node** towards a side is the next node in that order. -/
theorem neighbour_spec {t : AddressTree P} {s : Side} {c : BinaryTree P} {x : P} {l r : List P} {fuel : ℕ}
    (ht : t.Holds c) (hwalk : walk s c = l ++ x :: r) (hfuel : (inorder c).length < fuel) :
    neighbour fuel s t (some x) = .ok r.head? := by
  obtain ⟨path, a, b, rfl, rfl⟩ := exists_path_of_walk ht.nodup hwalk
  obtain ⟨-, hs, -, ha, -⟩ := linked_fork.mp (linked_plug.mp ht.linked).2
  rw [length_inorder_plug, length_inorder_fork] at hfuel
  simp only [neighbour, follow, bind, Except.bind, hs]
  cases hr : rootOf a with
  | none =>
    obtain rfl := rootOf_eq_none.mp hr
    have hlen := length_le_pathNodes path
    simpa using ancestor_spec ht (rootOf_fork ..) (by omega)
  | some q =>
    obtain ⟨y, inner, far, heq, rfl, hin⟩ := farthest_spec (s := s.other) ha hr (show (inorder a).length < fuel by omega)
    simp only [heq, pure, Except.pure]
    rw [walk_plug, hin, fork_other]
    simp

end Neighbours

/-! ### Lookups -/

/-- The ranges of the nodes are apart, and in order. -/
structure AddressTree.Ordered (t : AddressTree P) (L : List P) : Prop where
  wide : ∀ x ∈ L, t.startingVa x ≤ t.endingVa x
  apart : L.Pairwise fun x y => t.endingVa x < t.startingVa y

/-- The range of the node meets a range. -/
def AddressTree.Meets (t : AddressTree P) (startingAddress endingAddress : ℕ) (x : P) : Prop :=
  t.startingVa x ≤ endingAddress ∧ startingAddress ≤ t.endingVa x

theorem AddressTree.Ordered.around {x : P} {l r : BinaryTree P}
    (h : t.Ordered (inorder (plug path (.node x l r)))) :
    (∀ y ∈ inorder l, t.endingVa y < t.startingVa x) ∧ ∀ y ∈ inorder r, t.endingVa x < t.startingVa y := by
  have happart := h.apart
  rw [inorder_plug] at happart
  have hmid := (pairwise_append.mp (pairwise_append.mp happart).2.1).1
  obtain ⟨-, hright, hleft⟩ := pairwise_append.mp hmid
  exact ⟨fun y hy => hleft y hy x mem_cons_self, (pairwise_cons.mp hright).1⟩

/-- What a lookup has left: the nodes on the left of the path end before the range, and those on
the right start after it. -/
structure Narrowed (t : AddressTree P) (startingAddress endingAddress : ℕ) (path : Path P) : Prop where
  left : ∀ y ∈ beyond .left path, t.endingVa y < startingAddress
  right : ∀ y ∈ beyond .right path, endingAddress < t.startingVa y

section Lookups

variable {t : AddressTree P} {startingAddress endingAddress : ℕ} {path : Path P} {x : P} {l r : BinaryTree P}

section

variable (h : Narrowed t startingAddress endingAddress path)

include h

theorem Narrowed.none {y : P} (hy : y ∈ inorder (plug path .nil)) : ¬t.Meets startingAddress endingAddress y := by
  rintro ⟨h₁, h₂⟩
  rcases mem_append.mp ((mem_inorder_plug.mp hy).resolve_right (not_mem_nil)) with hl | hr
  · have := h.left y hl
    omega
  · have := h.right y hr
    omega

/-- The search goes on to the right of a node that ends before the range. -/
theorem Narrowed.goRight (ho : t.Ordered (inorder (plug path (.node x l r))))
    (hx : t.endingVa x < startingAddress) : Narrowed t startingAddress endingAddress (⟨.right, x, l⟩ :: path) where
  left := by
    refine (forall_beyond_other (s := .right)).mpr ⟨hx, fun y hy => ?_, h.left⟩
    have h₁ := ho.around.1 y hy
    have h₂ := ho.wide x (by simp [mem_inorder_plug, inorder])
    omega
  right := by simpa [beyond] using h.right

/-- The search goes on to the left of a node that starts after the range. -/
theorem Narrowed.goLeft (ho : t.Ordered (inorder (plug path (.node x l r))))
    (hx : endingAddress < t.startingVa x) : Narrowed t startingAddress endingAddress (⟨.left, x, r⟩ :: path) where
  left := by simpa [beyond] using h.left
  right := by
    refine (forall_beyond_other (s := .left)).mpr ⟨hx, fun y hy => ?_, h.right⟩
    have h₁ := ho.around.2 y hy
    have h₂ := ho.wide x (by simp [mem_inorder_plug, inorder])
    omega

theorem Narrowed.mono {path' : Path P} (hsub : ∀ s, beyond s path' ⊆ beyond s path) :
    Narrowed t startingAddress endingAddress path' :=
  ⟨fun y hy => h.left y (hsub .left hy), fun y hy => h.right y (hsub .right hy)⟩

end

end Lookups

/-- What a lookup returns: a node that meets the range, if there is one. -/
def Found (t : AddressTree P) (L : List P) (startingAddress endingAddress : ℕ) : Option P → Prop
  | none => ∀ x ∈ L, ¬t.Meets startingAddress endingAddress x
  | some x => x ∈ L ∧ t.Meets startingAddress endingAddress x

/-- **`MiCheckForConflictingNode`** finds a node that meets the range, if there is one. -/
theorem miCheckForConflictingNode_spec {startingAddress endingAddress : ℕ}
    (ht : t.Holds c) (ho : t.Ordered (inorder c)) (hfuel : (inorder c).length < fuel) :
    ∃ r, miCheckForConflictingNode fuel startingAddress endingAddress t = .ok r ∧
      Found t (inorder c) startingAddress endingAddress r := by
  refine loop_rule
    (I := fun k p => ∃ path c', c = plug path c' ∧ rootOf c' = p ∧ Narrowed t startingAddress endingAddress path ∧
      (inorder c').length ≤ k)
    (Q := fun r => ∃ r', r = .ok r' ∧ Found t (inorder c) startingAddress endingAddress r') ?_
    ⟨[], c, rfl, ht.root.symm, ⟨by simp [beyond], by simp [beyond]⟩, Nat.le_refl _⟩ hfuel
  rintro k _ ⟨path, c', rfl, rfl, hn, hk⟩
  cases c' with
  | nil => exact ⟨none, rfl, fun x hx => hn.none hx⟩
  | node p l r =>
    obtain ⟨-, hl, hr, -, -⟩ := (linked_plug.mp ht.linked).2
    simp only [inorder, length_append, length_cons] at hk
    simp only [rootOf, hl, hr]
    split_ifs with h₁ h₂
    · exact ⟨(inorder r).length, by omega, _ :: path, r, rfl, rfl, hn.goRight ho h₁, Nat.le_refl _⟩
    · exact ⟨(inorder l).length, by omega, _ :: path, l, rfl, rfl, hn.goLeft ho h₂, Nat.le_refl _⟩
    · exact ⟨some p, rfl, by simp [mem_inorder_plug, inorder], by omega, by omega⟩

variable [DecidableEq P]

/-- A descent that may reorder the tree at the node where it is. -/
theorem reorderAt_spec {x : P} {a : BinaryTree P} (depth level : ℕ)
    (ht : t.Holds (plug path (.node x a b))) (hfuel : (inorder (plug path (.node x a b))).length < fuel) :
    ∃ t' path' a' b', reorderAt depth fuel level x t = .ok t' ∧ t'.Holds (plug path' (.node x a' b')) ∧
      inorder (plug path' (.node x a' b')) = inorder (plug path (.node x a b)) ∧ (∀ s, beyond s path' ⊆ beyond s path) ∧
      Unchanged (inorder (plug path (.node x a b))) t t' ∧ (level ≠ depth → a' = a ∧ b' = b) := by
  by_cases hc : level = depth
  · have hlen := length_le_pathNodes path
    rw [length_inorder_plug] at hfuel
    have hpath : path.length < fuel := by omega
    obtain ⟨t', path', a', b', heq, ht', horder, hsub, hr⟩ := miReorderTree_spec ht hpath
    exact ⟨t', path', a', b', by rw [reorderAt, if_pos hc, heq], ht', horder, hsub, hr, fun h => absurd hc h⟩
  · exact ⟨t, path, a, b, by rw [reorderAt, if_neg hc], ht, rfl, fun _ _ h => h, Unchanged.refl _ t, fun _ => ⟨rfl, rfl⟩⟩

/-- What an iteration of `MiLocateAddressInTree` starts from. The tree is reordered once at most,
at level 20. -/
structure Locating (t₀ : AddressTree P) (L : List P) (virtualAddress k : ℕ) (t : AddressTree P) (parent : Option P) (level : ℕ) :
    Prop where
  place : ∃ path c, t.Holds (plug path c) ∧ inorder (plug path c) = L ∧ rootOf c = parent ∧
    Narrowed t₀ virtualAddress virtualAddress path ∧
    (if level ≤ 20 then 20 - level + L.length + 1 ≤ k else (inorder c).length ≤ k)
  unchanged : Unchanged L t₀ t

/-- What a lookup that reorders the tree leaves. -/
structure Kept (t₀ : AddressTree P) (L : List P) (t : AddressTree P) : Prop where
  tree : ∃ c, t.Holds c ∧ inorder c = L
  unchanged : Unchanged L t₀ t

theorem locateStep_spec {t₀ : AddressTree P} {L : List P} {virtualAddress k level : ℕ} {parent : Option P}
    (ho : t₀.Ordered L) (hfuel : L.length < fuel) (h : Locating t₀ L virtualAddress k t parent level) :
    Iterates (fun k s => Locating t₀ L virtualAddress k s.1 s.2.1 s.2.2)
      (fun r => ∃ t' p, r = .ok (t', p) ∧ Kept t₀ L t' ∧ Found t₀ L virtualAddress virtualAddress p) k
      (locateStep fuel virtualAddress (t, parent, level)) := by
  obtain ⟨⟨path, c, ht, rfl, rfl, hn, hk⟩, hr⟩ := h
  cases c with
  | nil => exact ⟨t, none, rfl, ⟨⟨_, ht, rfl⟩, hr⟩, fun x hx => hn.none hx⟩
  | node p l r =>
    obtain ⟨t', path', l', r', heq, ht', horder, hsub, hr', hsame⟩ := reorderAt_spec 20 level ht hfuel
    obtain ⟨-, hl, hr₂, -, -⟩ := (linked_plug.mp ht'.linked).2
    have hranges := hr.trans hr'
    have hn' := hn.mono hsub
    rw [← horder] at ho
    -- a subtree of the node is smaller, and one level further down
    have hless : ∀ n, n + 1 ≤ (inorder (BinaryTree.node p l' r')).length →
        (if level + 1 ≤ 20 then 20 - (level + 1) + (inorder (plug path (.node p l r))).length + 1 else n) < k := by
      intro n hn
      have hlen : (inorder (BinaryTree.node p l' r')).length ≤ (inorder (plug path (.node p l r))).length := by
        rw [← horder, length_inorder_plug]
        omega
      by_cases hlevel : level = 20
      · rw [if_neg (by omega)]
        rw [if_pos (by omega)] at hk
        omega
      · obtain ⟨rfl, rfl⟩ := hsame hlevel
        split_ifs at hk ⊢ <;> omega
    simp only [inorder, length_append, length_cons] at hless
    rw [show rootOf (BinaryTree.node p l r) = some p from rfl]
    simp only [locateStep, heq, bind, Except.bind, hranges.startingVa, hranges.endingVa, hl, hr₂]
    split_ifs with h₁ h₂
    · refine ⟨_, hless (inorder l').length (by omega),
        ⟨⟨.left, p, r'⟩ :: path', l', ht', horder, rfl, hn'.goLeft ho h₁, ?_⟩, hranges⟩
      dsimp only
      split_ifs <;> omega
    · refine ⟨_, hless (inorder r').length (by omega),
        ⟨⟨.right, p, l'⟩ :: path', r', ht', horder, rfl, hn'.goRight ho h₂, ?_⟩, hranges⟩
      dsimp only
      split_ifs <;> omega
    · refine ⟨t', some p, rfl, ⟨⟨_, ht', horder⟩, hranges⟩, by simp [mem_inorder_plug, inorder], ?_, ?_⟩
      · exact Nat.le_of_not_lt h₁
      · exact Nat.le_of_not_lt h₂

/-- **`MiLocateAddressInTree`** finds the node that the address is in, if there is one. -/
theorem miLocateAddressInTree_spec {virtualAddress : ℕ} (ht : t.Holds c)
    (ho : t.Ordered (inorder c)) (hfuel : (inorder c).length + 21 < fuel) :
    ∃ t' p, miLocateAddressInTree fuel virtualAddress t = .ok (t', p) ∧ Kept t (inorder c) t' ∧
      Found t (inorder c) virtualAddress virtualAddress p := by
  have hstart : Locating t (inorder c) virtualAddress ((inorder c).length + 21) t t.root 0 := by
    refine ⟨⟨[], c, ht, rfl, ht.root.symm, ⟨by simp [beyond], by simp [beyond]⟩, ?_⟩, Unchanged.refl _ t⟩
    rw [if_pos (by omega)]
    omega
  exact loop_rule (I := fun k (s : AddressTree P × Option P × ℕ) => Locating t (inorder c) virtualAddress k s.1 s.2.1 s.2.2)
    (fun _ _ hs => locateStep_spec ho (by omega) hs) hstart hfuel

/-! ### Insertion -/

/-- The node that is inserted belongs at the end of the path. -/
structure Belongs (t : AddressTree P) (node : P) (path : Path P) : Prop where
  left : ∀ y ∈ beyond .left path, t.startingVa y < t.startingVa node
  right : ∀ y ∈ beyond .right path, t.startingVa node < t.startingVa y

omit [DecidableEq P] in
/-- The descent goes on to the side of the parent that the node belongs on. -/
theorem Belongs.step {a : BinaryTree P} (h : Belongs t node path)
    (ho : t.Ordered (inorder (plug path (fork s p a b)))) (hne : t.startingVa p ≠ t.startingVa node)
    (hs : s = if t.startingVa node < t.startingVa p then .left else .right) : Belongs t node (⟨s, p, b⟩ :: path) := by
  have hwide := ho.wide p (by simp [mem_inorder_plug])
  cases s with
  | left =>
    have hlt : t.startingVa node < t.startingVa p := by
      by_contra hge
      rw [if_neg hge] at hs
      cases hs
    refine ⟨by simpa [beyond] using h.left, (forall_beyond_other (s := .left)).mpr ⟨hlt, fun y hy => ?_, h.right⟩⟩
    have := ho.around.2 y hy
    omega
  | right =>
    have hlt : t.startingVa p < t.startingVa node := by
      by_contra hge
      rw [if_pos (by omega)] at hs
      cases hs
    refine ⟨(forall_beyond_other (s := .right)).mpr ⟨hlt, fun y hy => ?_, h.left⟩, by simpa [beyond] using h.right⟩
    have h₁ := ho.around.1 y hy
    have h₂ := ho.wide y (by simp [mem_inorder_plug, hy])
    omega

theorem attach_spec {up : Option P} {d : BinaryTree P}
    (ht : t.Holds (plug path (fork s p .nil b))) (hd : Linked t.toLinks up d) (hroot : rootOf d = some node)
    (hnd : (inorder d).Nodup) (hdisj : ∀ x ∈ inorder d, x ∉ inorder (plug path (fork s p .nil b))) :
    (t.withLinks ((t.setChild s p (some node)).setParent node (some p))).Holds (plug path (fork s p d b)) := by
  obtain ⟨hl, htop, hnd₀⟩ := ht
  obtain ⟨hpath, hp⟩ := linked_plug.mp hl
  obtain ⟨-, -, -, -, hbl⟩ := linked_fork.mp hp
  have hnode := hdisj node (rootOf_mem hroot)
  simp only [mem_inorder_plug, rootOf_plug, rootOf_fork] at *
  generalize ht' : t.withLinks _ = t'
  have hC : ∀ s' y, t'.child s' y = if s' = s ∧ y = p then some node else t.child s' y := by
    subst ht'
    simp [AddressTree.withLinks]
  have hP : ∀ y, t'.parent y = if y = node then some p else t.parent y := by
    subst ht'
    simp [AddressTree.withLinks]
  refine ⟨linked_plug.mpr ⟨?_, linked_fork.mpr ⟨?_, ?_, ?_, ?_, ?_⟩⟩, ?_, ?_⟩
  · rw [rootOf_fork]
    apply hpath.congr <;> grind
  · grind
  · grind
  · grind
  · apply hd.reparent hnd <;> grind
  · apply hbl.congr <;> grind
  · subst ht'
    rw [rootOf_plug, rootOf_fork]
    exact htop
  · grind

/-- What an iteration of `MiInsertNode` starts from. -/
structure Inserting (t₀ : AddressTree P) (node : P) (L : List P) (k : ℕ) (t : AddressTree P) (parent : P) (level : ℕ) : Prop where
  place : ∃ path a b, t.Holds (plug path (.node parent a b)) ∧ inorder (plug path (.node parent a b)) = L ∧ Belongs t₀ node path ∧
    (if level < 15 then 15 - level + L.length ≤ k else (inorder (.node parent a b)).length ≤ k)
  unchanged : Unchanged L t₀ t

/-- What insertion does: the node is where it belongs in the order. -/
structure Inserted (t₀ : AddressTree P) (node : P) (L : List P) (t : AddressTree P) : Prop where
  tree : ∃ c l r, t.Holds c ∧ inorder c = l ++ node :: r ∧ L = l ++ r ∧ (∀ y ∈ l, t₀.startingVa y < t₀.startingVa node) ∧
    ∀ y ∈ r, t₀.startingVa node < t₀.startingVa y
  startingVa : t.startingVa = t₀.startingVa
  endingVa : t.endingVa = t₀.endingVa

theorem insertStep_spec {t₀ : AddressTree P} {parent : P} {L : List P} {k level : ℕ} (ho : t₀.Ordered L)
    (hnode : node ∉ L) (hchild : ∀ s, t₀.child s node = none) (hne : ∀ y ∈ L, t₀.startingVa y ≠ t₀.startingVa node)
    (hfuel : L.length < fuel) (h : Inserting t₀ node L k t parent level) :
    Iterates (fun k s => Inserting t₀ node L k s.1 s.2.1 s.2.2) (fun r => ∃ t', r = .ok t' ∧ Inserted t₀ node L t') k
      (insertStep fuel node (t, parent, level)) := by
  obtain ⟨⟨path, a, b, ht, rfl, hb, hk⟩, hu⟩ := h
  obtain ⟨t', path', a', b', heq, ht', horder, hsub, hu', hsame⟩ := reorderAt_spec 15 (level + 1) ht hfuel
  have hunch := hu.trans hu'
  have hb' : Belongs t₀ node path' := ⟨fun y hy => hb.left y (hsub .left hy), fun y hy => hb.right y (hsub .right hy)⟩
  simp only [insertStep, heq, bind, Except.bind, hunch.startingVa]
  generalize hs : (if t₀.startingVa node < t₀.startingVa parent then Side.left else Side.right) = s
  obtain ⟨near, far, hnf⟩ := exists_fork s parent a' b'
  rw [hnf] at ht' horder
  obtain ⟨-, hnear, -, -, -⟩ := linked_fork.mp (linked_plug.mp ht'.linked).2
  rw [← horder] at ho hnode hne
  have hbelongs := hb'.step ho (hne parent (by simp [mem_inorder_plug])) hs.symm
  have hlen : (inorder (plug path (.node parent a b))).length = (pathNodes path').length +
    (inorder (fork s parent near far)).length := by
    rw [← horder, length_inorder_plug]
  rw [hnear]
  cases hr : rootOf near with
  | none =>
    obtain rfl := rootOf_eq_none.mp hr
    have hchild' : ∀ s, t'.child s node = none := fun s => (hunch.child s node (horder ▸ hnode)).trans (hchild s)
    have hleaf : Linked t'.toLinks (t'.parent node) (fork s node .nil .nil) :=
      linked_fork.mpr ⟨rfl, hchild' s, hchild' s.other, trivial, trivial⟩
    have hattached := attach_spec ht' hleaf (rootOf_fork ..) (by simp [inorder_leaf]) (by simpa [inorder_leaf] using hnode)
    refine ⟨_, rfl, ⟨_, (beyond .left (⟨s, parent, far⟩ :: path')).reverse, beyond .right (⟨s, parent, far⟩ :: path'),
      hattached, ?_, ?_, ?_, hbelongs.right⟩, hunch.startingVa, hunch.endingVa⟩
    · have h := inorder_plug (⟨s, parent, far⟩ :: path') (fork s node .nil .nil)
      rwa [inorder_leaf] at h
    · rw [← horder]
      exact inorder_plug (⟨s, parent, far⟩ :: path') .nil
    · exact fun y hy => hbelongs.left y (mem_reverse.mp hy)
  | some child =>
    obtain ⟨q, l, r, rfl⟩ := (cases_fork .left near).resolve_left (by rintro rfl; cases hr)
    obtain rfl : q = child := by simpa using hr
    have hless : (inorder (fork .left q l r)).length < (inorder (fork s parent (fork .left q l r) far)).length := by
      rw [length_inorder_fork s]
      omega
    refine ⟨if level + 1 < 15 then 15 - (level + 1) + (inorder (plug path (.node parent a b))).length
      else (inorder (fork .left q l r)).length, ?_, ⟨⟨s, parent, far⟩ :: path', l, r, ht', horder, hbelongs, ?_⟩, hunch⟩
    · by_cases hlevel : level + 1 = 15
      · rw [if_neg (by omega)]
        rw [if_pos (by omega)] at hk
        omega
      · obtain ⟨rfl, rfl⟩ := hsame hlevel
        rw [← hnf] at hless
        split_ifs at hk ⊢ <;> omega
    · dsimp only
      split_ifs
      · exact Nat.le_refl _
      · exact Nat.le_refl _

/-- **`MiInsertNode`** puts the node where it belongs in the order. -/
theorem miInsertNode_spec (ht : t.Holds c)
    (ho : t.Ordered (inorder c)) (hnode : node ∉ inorder c) (hne : ∀ y ∈ inorder c, t.startingVa y ≠ t.startingVa node)
    (hfuel : (inorder c).length + 15 < fuel) :
    ∃ t', miInsertNode fuel node t = .ok t' ∧ Inserted t node (inorder c) t' := by
  generalize ht₁ : t.withLinks ((t.setChild .left node none).setChild .right node none) = t₁
  have hchild : ∀ s, t₁.child s node = none := by
    subst ht₁
    intro s
    cases s <;> simp [AddressTree.withLinks]
  have hholds : t₁.Holds c := by
    subst ht₁
    refine ⟨ht.linked.congr (fun x hx => rfl) ?_, ht.root, ht.nodup⟩
    intro s x hx
    have hxn : x ≠ node := ne_of_mem_of_not_mem hx hnode
    simp [AddressTree.withLinks, hxn]
  have hva : t₁.startingVa = t.startingVa ∧ t₁.endingVa = t.endingVa := by
    subst ht₁
    exact ⟨rfl, rfl⟩
  rw [miInsertNode]
  dsimp only
  rw [ht₁, hholds.root]
  cases c with
  | nil =>
    refine ⟨_, rfl, ⟨fork .left node .nil .nil, [], [], ⟨?_, rfl, by simp [inorder_leaf]⟩, inorder_leaf .., rfl, by simp, by simp⟩,
      hva.1, hva.2⟩
    rw [linked_fork]
    exact ⟨by simp [AddressTree.withLinks], hchild .left, hchild .right, trivial, trivial⟩
  | node p l r =>
    have hstart : Inserting t₁ node (inorder (.node p l r)) ((inorder (.node p l r)).length + 15) t₁ p 0 := by
      refine ⟨⟨[], l, r, hholds, rfl, ⟨by simp [beyond], by simp [beyond]⟩, ?_⟩, Unchanged.refl _ t₁⟩
      rw [if_pos (by omega)]
      omega
    have ho₁ : t₁.Ordered (inorder (.node p l r)) :=
      ⟨fun x hx => by rw [hva.1, hva.2]; exact ho.wide x hx, by rw [hva.1, hva.2]; exact ho.apart⟩
    have hloop : ∃ t', loop .unfinished (insertStep fuel node) fuel (t₁, p, 0) = .ok t' ∧ Inserted t₁ node _ t' :=
      loop_rule (I := fun k (s : AddressTree P × P × ℕ) => Inserting t₁ node _ k s.1 s.2.1 s.2.2)
        (fun _ _ hs => insertStep_spec ho₁ hnode hchild (by rw [hva.1]; exact hne) (by omega) hs) hstart hfuel
    obtain ⟨t', heq, ⟨hc, hs, he⟩⟩ := hloop
    rw [hva.1] at hc hs
    exact ⟨t', heq, hc, hs, he.trans hva.2⟩

end Nt365.Mm
