import Nt365.Mm.AddrSupTree

/-!
# Removing a node

`MiRemoveNode` takes a node out of the tree and leaves the others in their order. A node with
two children is replaced by its neighbour in the order, or by its left child when neither child
has a child towards it.
-/

namespace Nt365.Mm

open Nt365.Library Nt365.Library.LinkedTree

variable {P : Type} [DecidableEq P]

theorem replaceSubtree_spec {t : AddressTree P} {path : Path P} {x : P} {up : Option P} {c d : BinaryTree P}
    (ht : t.Holds (plug path c)) (hx : rootOf c = some x) (hd : Linked t.toLinks up d) (hnd : (inorder d).Nodup)
    (hxd : x ∉ inorder d) (hsub : inorder d ⊆ inorder c) :
    ∃ t', replaceChild t x (rootOf d) = .ok t' ∧ t'.Holds (plug path d) ∧ Replaced t t' path (rootOf d) := by
  obtain ⟨hndp, -, hdisj⟩ := nodup_plug.mp ht.nodup
  have hout : ∀ y ∈ inorder d, y ∉ pathNodes path := fun y hy h => hdisj h (hsub hy)
  obtain ⟨t', heq, hr, -⟩ := replaceChild_spec _ ht hx (fun y hy => hout y (rootOf_mem hy)) (fun h => hxd (rootOf_mem h))
  refine ⟨t', heq, ⟨linked_plug.mpr ⟨hr.above, hd.reparent hnd ?_ ?_ ?_⟩, ?_, ?_⟩, hr⟩
  · intro y hy
    rw [hr.parent, if_pos hy]
  · intro y _ hy
    rw [hr.parent, if_neg hy]
  · exact fun s y hy => hr.unchanged.child s y (hout y hy)
  · rw [hr.root, rootOf_plug]
  · exact nodup_plug.mpr ⟨hndp, hnd, fun y hy hyd => hout y hyd hy⟩

/-- A node outside the tree takes the place of one with two children. -/
theorem swapNode_spec {t : AddressTree P} {path : Path P} {x z lc rc : P} {l r : BinaryTree P}
    (ht : t.Holds (plug path (.node x l r))) (hl : rootOf l = some lc) (hr : rootOf r = some rc)
    (hz : z ∉ inorder (plug path (.node x l r))) :
    ∃ t', replaceChild t x (some z) = .ok t' ∧ Unchanged (pathNodes path) t t' ∧
      (t'.withLinks ((((t'.setParent lc (some z)).setParent rc (some z)).setChild .left z (some lc)).setChild .right z
        (some rc))).Holds
        (plug path (.node z l r)) := by
  replace ht : t.Holds (plug path (fork .left x l r)) := ht
  replace hz : z ∉ inorder (plug path (fork .left x l r)) := hz
  have hnd := ht.nodup
  obtain ⟨-, -, -, hll, hrl⟩ := linked_fork.mp (linked_plug.mp ht.linked).2
  rw [mem_inorder_plug] at hz
  obtain ⟨t₁, heq, hrep, -⟩ := replaceChild_spec (some z) ht (rootOf_fork ..) (by grind) (by grind)
  refine ⟨t₁, heq, hrep.unchanged, ?_⟩
  have hP₁ := hrep.parent
  have hC₁ := hrep.unchanged.child
  generalize ht' : t₁.withLinks _ = t'
  have hC : ∀ s' y, t'.child s' y = if s' = .right ∧ y = z then some rc else if s' = .left ∧ y = z then some lc
      else t₁.child s' y := by
    subst ht'
    simp [AddressTree.withLinks]
  have hP : ∀ y, t'.parent y = if y = rc then some z else if y = lc then some z else t₁.parent y := by
    subst ht'
    simp [AddressTree.withLinks]
  have htop' : t'.root = topOf path (some z) := by
    subst ht'
    exact hrep.root
  have hholds : t'.Holds (plug path (fork .left z l r)) := by
    refine ⟨linked_plug.mpr ⟨?_, linked_fork.mpr ⟨?_, ?_, ?_, ?_, ?_⟩⟩, ?_, ?_⟩
    · rw [rootOf_fork]
      apply hrep.above.congr <;> grind
    · grind
    · grind
    · rw [hC, if_pos ⟨rfl, rfl⟩, hr]
    · apply hll.reparent <;> grind
    · apply hrl.reparent <;> grind
    · rw [htop', rootOf_plug, rootOf_fork]
    · grind
  exact hholds

/-- What removal leaves: the other nodes, in their order. -/
structure Removed (t₀ : AddressTree P) (L : List P) (t : AddressTree P) : Prop where
  tree : ∃ c, t.Holds c ∧ inorder c = L
  startingVa : t.startingVa = t₀.startingVa
  endingVa : t.endingVa = t₀.endingVa

/-- The neighbour of a node in one of its subtrees takes its place. -/
theorem removeInner_spec {s : Side} {t : AddressTree P} {path : Path P} {x ar br inner lc rc : P}
    {al ai b : BinaryTree P} {fuel : ℕ}
    (ht : t.Holds (plug path (fork s x (fork s ar al ai) b))) (hai : rootOf ai = some inner) (hb : rootOf b = some br)
    (hchild : (lc, rc) = match s with
      | .left => (ar, br)
      | .right => (br, ar))
    (hfuel : (inorder ai).length < fuel) :
    ∃ t', removeInner fuel s t x lc rc inner = .ok t' ∧
      Removed t ((inorder (plug path (fork s x (fork s ar al ai) b))).erase x) t' := by
  obtain ⟨-, -, -, hal, -⟩ := linked_fork.mp (linked_plug.mp ht.linked).2
  obtain ⟨-, -, -, -, hail⟩ := linked_fork.mp hal
  obtain ⟨z, inn, zl, heq, rfl, hin⟩ := farthest_spec (s := s.other) hail hai hfuel
  have hplug : ∀ c, plug (inn ++ ⟨s.other, ar, al⟩ :: ⟨s, x, b⟩ :: path) c =
    plug path (fork s x (fork s ar al (plug inn c)) b) := by
    intro c
    rw [plug_append, plug, plug, fork_other]
  obtain ⟨f, rest, hframes, hside⟩ : ∃ f rest, inn ++ ⟨s.other, ar, al⟩ :: ⟨s, x, b⟩ :: path = f :: rest ∧ f.side = s.other := by
    cases inn with
    | nil => exact ⟨_, _, rfl, rfl⟩
    | cons f inn => exact ⟨f, _, rfl, side_of_beyond hin⟩
  have hzt : t.Holds (plug (f :: rest) (fork s.other z .nil zl)) := by rwa [← hframes, hplug]
  obtain ⟨hzp, -, hzs, -, hzll⟩ := linked_fork.mp (linked_plug.mp hzt.linked).2
  obtain ⟨-, hndz, hdisjz⟩ := nodup_plug.mp hzt.nodup
  obtain ⟨-, hzzl, -, hndzl, -⟩ := nodup_fork.mp hndz
  have hzf : z ∉ pathNodes (f :: rest) := fun h => hdisjz h (by simp)
  rw [Side.other_other] at hzs
  -- the neighbour is taken out of its subtree first
  obtain ⟨t₁, heq₁, ht₁, hu₁⟩ := replaceSubtree_spec hzt (rootOf_fork ..) hzll hndzl hzzl (fun y hy => by simp [hy])
  have hset := replaceChild_eq hzt (rootOf_fork ..) (fun h => hzzl (rootOf_mem h))
  rw [heq₁, Except.ok.injEq, hside, Links.setParent?_setChild] at hset
  have hcode : ((t.setChild s.other f.node (t.child s z)).setParent? ((t.setChild s.other f.node (t.child s z)).child s z)
      ((t.setChild s.other f.node (t.child s z)).parent z)) =
        (t.setChild s.other f.node (rootOf zl)).setParent? (rootOf zl) (some f.node) := by
    simp [hzs, hzp, parentOf]
  have hzt₁ : z ∉ inorder (plug path (fork s x (fork s ar al (plug inn zl)) b)) := by
    rw [← hplug, hframes, mem_inorder_plug, not_or]
    exact ⟨hzf, hzzl⟩
  rw [← hframes, hplug] at ht₁
  have hwalk : walk s (fork s z (fork s ar al (plug inn zl)) b) =
    walk s b ++ walk s (fork s ar al (plug inn (fork s.other z .nil zl))) := by
    rw [walk_fork, walk_fork, walk_fork, walk_plug, walk_plug, hin, fork_other]
    simp
  -- and then takes the place of the node
  obtain ⟨t₂, heq₂, hu₂, ht₂⟩ : ∃ t₂, replaceChild t₁ x (some z) = .ok t₂ ∧ Unchanged (pathNodes path) t₁ t₂ ∧
      (t₂.withLinks ((((t₂.setParent lc (some z)).setParent rc (some z)).setChild .left z (some lc)).setChild .right z
        (some rc))).Holds
        (plug path (fork s z (fork s ar al (plug inn zl)) b)) := by
    cases s with
    | left =>
      obtain ⟨rfl, rfl⟩ := Prod.mk.inj hchild
      exact swapNode_spec ht₁ (rootOf_fork ..) hb hzt₁
    | right =>
      obtain ⟨rfl, rfl⟩ := Prod.mk.inj hchild
      exact swapNode_spec ht₁ hb (rootOf_fork ..) hzt₁
  simp only [removeInner, heq, bind, Except.bind, hzp, parentOf, follow]
  rw [hcode, ← hset, heq₂]
  refine ⟨_, rfl, ⟨_, ht₂, inorder_erase ht.nodup hwalk⟩, ?_, ?_⟩
  · exact hu₂.startingVa.trans hu₁.unchanged.startingVa
  · exact hu₂.endingVa.trans hu₁.unchanged.endingVa

/-- **`MiRemoveNode`** takes the node out and leaves the others in their order. -/
theorem miRemoveNode_spec {t : AddressTree P} {c : BinaryTree P} {x : P} {fuel : ℕ} (ht : t.Holds c) (hx : x ∈ inorder c)
    (hfuel : (inorder c).length < fuel) : ∃ t', miRemoveNode fuel x t = .ok t' ∧ Removed t ((inorder c).erase x) t' := by
  obtain ⟨path, l, r, rfl⟩ := exists_path .left hx
  obtain ⟨-, hleft, hright, hll, hrl⟩ := linked_fork.mp (linked_plug.mp ht.linked).2
  obtain ⟨-, hnd, hdisj⟩ := nodup_plug.mp ht.nodup
  obtain ⟨hxl, hxr, hndl, hndr, hlr⟩ := nodup_fork.mp hnd
  rw [miRemoveNode, hleft, show t.child .right x = rootOf r from hright]
  rcases cases_fork .left l with rfl | ⟨p, pl, pr, rfl⟩
  · -- no left child: the right child takes the place of the node, if there is one
    obtain ⟨t', heq, ht', hu⟩ := replaceSubtree_spec ht (rootOf_fork ..) hrl hndr hxr (fun y hy => by simp [hy])
    refine ⟨t', ?_, ⟨_, ht', inorder_erase ht.nodup (by simp)⟩, hu.unchanged.startingVa, hu.unchanged.endingVa⟩
    rw [rootOf_nil]
    cases hr : rootOf r with
    | none => rwa [hr] at heq
    | some q => rwa [hr] at heq
  · rw [rootOf_fork]
    rcases cases_fork .right r with rfl | ⟨q, qr, ql, rfl⟩
    · obtain ⟨t', heq, ht', hu⟩ := replaceSubtree_spec ht (rootOf_fork ..) hll hndl hxl (fun y hy => by simp_all)
      refine ⟨t', ?_, ⟨_, ht', inorder_erase ht.nodup (by simp)⟩, hu.unchanged.startingVa, hu.unchanged.endingVa⟩
      rwa [rootOf_fork] at heq
    · obtain ⟨-, -, hpr, -, -⟩ := linked_fork.mp hll
      obtain ⟨-, -, hql, -, -⟩ := linked_fork.mp hrl
      have hlen := length_inorder_plug path (fork .left x (fork .left p pl pr) (fork .right q qr ql))
      simp only [length_inorder_fork] at hlen
      rw [rootOf_fork]
      dsimp only
      rw [show t.child .right p = rootOf pr from hpr, show t.child .left q = rootOf ql from hql]
      cases hri : rootOf pr with
      | some inner => exact removeInner_spec (s := .left) ht hri (rootOf_fork ..) rfl (by omega)
      | none =>
        cases hli : rootOf ql with
        | some inner =>
          exact removeInner_spec (s := .right) (x := x) (b := fork .left p pl pr) ht hli (rootOf_fork ..) rfl (by omega)
        | none =>
          -- the left child takes the place of the node, with the right child at its right
          obtain rfl := rootOf_eq_none.mp hri
          obtain rfl := rootOf_eq_none.mp hli
          obtain ⟨t₁, heq, ht₁, hu⟩ := replaceSubtree_spec ht (rootOf_fork ..) hll hndl hxl (fun y hy => by simp_all)
          rw [rootOf_fork] at heq hu
          have hout : ∀ y ∈ inorder (fork .right q qr .nil), y ∉ pathNodes path := fun y hy h => hdisj h (by simp_all)
          have hr₁ : Linked t₁.toLinks (some x) (fork .right q qr .nil) := by
            refine hrl.congr ?_ (fun s y hy => hu.unchanged.child s y (hout y hy))
            intro y hy
            rw [hu.parent, if_neg]
            rintro ⟨⟩
            exact hlr (rootOf_mem (rootOf_fork ..)) hy
          replace ht₁ : t₁.Holds (plug path (fork .right p .nil pl)) := ht₁
          have hattached := attach_spec ht₁ hr₁ (rootOf_fork ..) hndr (by
            intro y hy
            rw [mem_inorder_plug, not_or]
            refine ⟨hout y hy, fun h => hlr ?_ hy⟩
            simpa [inorder] using h)
          refine ⟨_, ?_, ⟨_, hattached, inorder_erase ht.nodup ?_⟩, hu.unchanged.startingVa, hu.unchanged.endingVa⟩
          · simp only [heq, bind, Except.bind, pure, Except.pure]
          · have hmirror : fork .right p (fork .right q qr .nil) pl = fork .left p pl (fork .right q qr .nil) := rfl
            rw [hmirror, walk_fork, walk_fork .left p pl .nil, walk_nil, List.nil_append]

end Nt365.Mm
