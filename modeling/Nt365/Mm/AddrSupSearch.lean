import Nt365.Mm.AddrSupTree

/-!
# Searching for an empty range

The searches of `MM/ADDRSUP.C` walk from node to node. Here they are functions of the nodes in
their order, and the walks are shown to compute these functions. A search down ends with a
`NULL` node when the space below the lowest node is there but too small.
-/

namespace Nt365.Mm

open Nt365.Library Nt365.Library.LinkedTree

-- Addresses are compared, never computed, in this module.
attribute [local irreducible] add32 sub32

variable {P : Type}

/-- The search up from a node, with the nodes after it. -/
def searchUp (size align : ℕ) (t : AddressTree P) : P → List P → Except Stop (ℕ × Option P)
  | node, [] =>
    let rounded := miRoundToSize (t.endingVa node) align
    if add32 (t.endingVa node) x64k < mmHighestVadAddress ∧ size < sub32 mmHighestVadAddress rounded then
      .ok (rounded, some node)
    else .error .noMemory
  | node, nextNode :: nodes =>
    let rounded := miRoundToSize (t.endingVa node) align
    if size < sub32 (t.startingVa nextNode) rounded ∧ rounded < t.startingVa nextNode then .ok (rounded, some node)
    else searchUp size align t nextNode nodes

variable (size align : ℕ)

/-- A search up runs out of memory, or stops after a node and below the one that follows it. -/
theorem searchUp_cases (t : AddressTree P) (node : P) (nodes : List P) :
    searchUp size align t node nodes = .error .noMemory ∨
    ∃ l n r, node :: nodes = l ++ n :: r ∧
      searchUp size align t node nodes = .ok (miRoundToSize (t.endingVa n) align, some n) ∧
      ∀ nextNode, r.head? = some nextNode → size < sub32 (t.startingVa nextNode) (miRoundToSize (t.endingVa n) align) ∧
        miRoundToSize (t.endingVa n) align < t.startingVa nextNode := by
  induction nodes generalizing node with
  | nil =>
    simp only [searchUp]
    split_ifs
    · exact .inr ⟨[], node, [], rfl, rfl, fun _ h => by cases h⟩
    · exact .inl rfl
  | cons nextNode nodes ih =>
    simp only [searchUp]
    split_ifs with hgap
    · exact .inr ⟨[], node, nextNode :: nodes, rfl, rfl, fun _ h => Option.some.inj h ▸ hgap⟩
    · obtain h | ⟨l, n, r, hsplit, h⟩ := ih nextNode
      · exact .inl h
      · exact .inr ⟨node :: l, n, r, by rw [hsplit, List.cons_append], h⟩

/-- The search down takes the gap between two nodes. -/
def takesGap (size highest align optimalStart : ℕ) (t : AddressTree P) (previous node : P) : Prop :=
  t.endingVa previous < optimalStart ∧
    size < sub32 (t.startingVa node) (miRoundToSize (t.endingVa previous) align) ∧
    (highest < t.startingVa node ∨ miRoundToSize (t.endingVa previous) align < t.startingVa node)

instance (size highest align optimalStart : ℕ) (t : AddressTree P) (previous node : P) :
    Decidable (takesGap size highest align optimalStart t previous node) :=
  inferInstanceAs (Decidable (_ ∧ _ ∧ (_ ∨ _)))

/-- The address that the search down returns below a node. -/
def startBelow (size highest align optimalStart : ℕ) (t : AddressTree P) (node : P) : ℕ :=
  if highest < t.startingVa node then optimalStart
  else miAlignToSize (sub32 (t.startingVa node) size) align

/-- The search down from a node, with the nodes before it from the last to the first. -/
def searchDown (size highest align optimalStart : ℕ) (t : AddressTree P) : P → List P → Except Stop ℕ
  | node, [] =>
    if mmLowestUserAddress < t.startingVa node then
      if size < sub32 (t.startingVa node) mmLowestUserAddress then
        .ok (startBelow size highest align optimalStart t node)
      else .error .nullNode
    else .error .noMemory
  | node, previous :: nodes =>
    if takesGap size highest align optimalStart t previous node then
      .ok (startBelow size highest align optimalStart t node)
    else searchDown size highest align optimalStart t previous nodes

/-- The search up, with all nodes in their order. -/
def searchFromLowest (t : AddressTree P) (previousVad : Option P) :
    List P → Except Stop (ℕ × Option P)
  | [] => .ok (mmLowestUserAddress, previousVad)
  | node :: nodes =>
    if mmLowestUserAddress < t.startingVa node ∧ size < sub32 (t.startingVa node) mmLowestUserAddress then
      .ok (mmLowestUserAddress, none)
    else searchUp size align t node nodes

/-- `OptimalStart`: the highest aligned address from where the range ends in time. -/
def optimalStartFor (size highest align : ℕ) : ℕ :=
  miAlignToSize (sub32 (add32 highest 1) size) align

/-- The search down, with all nodes from the last to the first. -/
def searchFromHighest (size highest align : ℕ) (t : AddressTree P) : List P → Except Stop ℕ
  | [] => .ok (optimalStartFor size highest align)
  | node :: nodes =>
    if miRoundToSize (t.endingVa node) align < highest ∧
        size < sub32 highest (miRoundToSize (t.endingVa node) align) then
      .ok (miAlignToSize (sub32 highest size) align)
    else
      searchDown size highest align (optimalStartFor size highest align) t
        node nodes

/-- A search down stops between two nodes that follow one another, or at the lowest node. -/
theorem searchDown_cases (size highest align optimalStart : ℕ) (t : AddressTree P) (node : P)
    (nodes : List P) :
    (∃ n p, [n, p] <:+: node :: nodes ∧ takesGap size highest align optimalStart t p n ∧
      searchDown size highest align optimalStart t node nodes =
        .ok (startBelow size highest align optimalStart t n)) ∨
    (∀ n p, [n, p] <:+: node :: nodes → ¬takesGap size highest align optimalStart t p n) ∧
      ∃ first, (node :: nodes).getLast? = some first ∧
        searchDown size highest align optimalStart t node nodes =
          searchDown size highest align optimalStart t first [] := by
  induction nodes generalizing node with
  | nil =>
    refine .inr ⟨fun n p h => ?_, node, rfl, rfl⟩
    have hlen := h.length_le
    simp at hlen
  | cons previous nodes ih =>
    rw [searchDown]
    by_cases h : takesGap size highest align optimalStart t previous node
    · refine .inl ⟨node, previous, (List.prefix_append [node, previous] nodes).isInfix, h, ?_⟩
      rw [if_pos h]
    · rw [if_neg h]
      rcases ih previous with ⟨n, p, hin, htakes, heq⟩ | ⟨hnone, first, hfirst, heq⟩
      · exact .inl ⟨n, p, List.infix_cons hin, htakes, heq⟩
      · refine .inr ⟨fun n p hin => ?_, first, by rw [List.getLast?_cons_cons]; exact hfirst, heq⟩
        rcases List.infix_cons_iff.mp hin with hpre | hin
        · obtain ⟨hn, htail⟩ := List.cons_prefix_cons.mp hpre
          obtain ⟨hp, -⟩ := List.cons_prefix_cons.mp htail
          rw [hn, hp]
          exact h
        · exact hnone n p hin

variable [DecidableEq P]

section Search

variable {t : AddressTree P} {c : BinaryTree P} {size highest align optimalStart fuel : ℕ}

theorem findStep_last {node : P} (hnext : miGetNextNode fuel t (some node) = .ok none) :
    findStep fuel size align t node =
      if add32 (t.endingVa node) x64k < mmHighestVadAddress ∧
          size < sub32 mmHighestVadAddress (miRoundToSize (t.endingVa node) align) then
        .ok (.inr (miRoundToSize (t.endingVa node) align, some node))
      else .error .noMemory := by
  simp only [findStep, hnext, bind, Except.bind, pure, Except.pure, throw, throwThe, MonadExceptOf.throw]

theorem findStep_next {node nextNode : P} (hnext : miGetNextNode fuel t (some node) = .ok (some nextNode)) :
    findStep fuel size align t node =
      if size < sub32 (t.startingVa nextNode) (miRoundToSize (t.endingVa node) align) ∧
          miRoundToSize (t.endingVa node) align < t.startingVa nextNode then
        .ok (.inr (miRoundToSize (t.endingVa node) align, some node))
      else .ok (.inl nextNode) := by
  simp only [findStep, hnext, bind, Except.bind, pure, Except.pure]

theorem findLoop_eq (ht : t.Holds c) {node : P} {before nodes : List P} (hc : inorder c = before ++ node :: nodes)
    (hfuel : (inorder c).length < fuel) {k : ℕ} (hk : nodes.length < k) :
    loop .unfinished (findStep fuel size align t) k node = searchUp size align t node nodes := by
  induction nodes generalizing node before k with
  | nil =>
    obtain ⟨k, rfl⟩ := Nat.exists_eq_add_of_lt hk
    rw [loop, findStep_last (neighbour_spec (s := .right) ht hc hfuel), searchUp]
    split_ifs <;> rfl
  | cons nextNode nodes ih =>
    obtain ⟨k, rfl⟩ := Nat.exists_eq_add_of_lt hk
    rw [loop, findStep_next (neighbour_spec (s := .right) ht hc hfuel), searchUp]
    split_ifs
    · rfl
    · exact ih (hc.trans (List.append_cons ..)) (Nat.le_add_right _ k)

theorem findDownStep_last {node : P} (hprev : miGetPreviousNode fuel t (some node) = .ok none) :
    findDownStep fuel size highest align optimalStart t (some node) =
      if mmLowestUserAddress < t.startingVa node then
        if size < sub32 (t.startingVa node) mmLowestUserAddress then
          .ok (.inr (startBelow size highest align optimalStart t node))
        else .ok (.inl none)
      else .error .noMemory := by
  simp only [findDownStep, hprev, follow, startBelow, apply_ite Sum.inr, apply_ite Except.ok, bind, Except.bind, pure,
    Except.pure, throw, throwThe, MonadExceptOf.throw]

omit [DecidableEq P] in
/-- The nested tests of a gap, as one. -/
theorem ite_gap {α : Type} {A B C D : Prop} [Decidable A] [Decidable B] [Decidable C] [Decidable D] (o x y : α) :
    (if A ∧ B then if A ∧ C then o else if D then x else y else y) =
      if A ∧ B ∧ (C ∨ D) then if C then o else x else y := by
  by_cases A <;> by_cases B <;> by_cases C <;> simp [*]

theorem findDownStep_next {node previous : P} (hprev : miGetPreviousNode fuel t (some node) = .ok (some previous)) :
    findDownStep fuel size highest align optimalStart t (some node) =
      if takesGap size highest align optimalStart t previous node then
        .ok (.inr (startBelow size highest align optimalStart t node))
      else .ok (.inl (some previous)) := by
  simp only [findDownStep, hprev, follow, takesGap, startBelow, apply_ite Sum.inr, apply_ite Except.ok, ite_gap, bind,
    Except.bind, pure, Except.pure]

theorem findDownLoop_eq (ht : t.Holds c) {node : P} {after nodes : List P} (hc : walk .left c = after ++ node :: nodes)
    (hfuel : (inorder c).length < fuel) {k : ℕ} (hk : nodes.length + 1 < k) :
    loop .unfinished (findDownStep fuel size highest align optimalStart t) k (some node) =
      searchDown size highest align optimalStart t node nodes := by
  induction nodes generalizing node after k with
  | nil =>
    obtain ⟨k, rfl⟩ : ∃ j, k = j + 2 := Nat.exists_eq_add_of_le' hk
    rw [loop, findDownStep_last (neighbour_spec ht hc hfuel), searchDown]
    -- below the lowest node there is none to go on with
    split_ifs <;> rfl
  | cons previous nodes ih =>
    obtain ⟨k, rfl⟩ := Nat.exists_eq_add_of_lt hk
    rw [loop, findDownStep_next (neighbour_spec ht hc hfuel), searchDown]
    split_ifs
    · rfl
    · exact ih (hc.trans (List.append_cons ..)) (Nat.le_add_right _ k)

omit [DecidableEq P] in
theorem farthest_root (ht : t.Holds c) {s : Side} {root : P} (hroot : t.root = some root)
    (hfuel : (inorder c).length < fuel) :
    ∃ node nodes, walk s.other c = node :: nodes ∧ farthest fuel s t root = .ok node := by
  obtain ⟨node, inner, far, heq, rfl, hin⟩ := farthest_spec (s := s) ht.linked (ht.root ▸ hroot) hfuel
  refine ⟨node, walk s.other far ++ beyond s.other inner, ?_, heq⟩
  rw [walk_plug, Side.other_other, hin, ← fork_other]
  simp

theorem miFindEmptyAddressRangeInTree_eq (ht : t.Holds c) (hfuel : (inorder c).length < fuel) (previousVad : Option P) :
    miFindEmptyAddressRangeInTree fuel size align t previousVad =
      searchFromLowest size align t previousVad (inorder c) := by
  cases hroot : t.root with
  | none =>
    obtain rfl := rootOf_eq_none.mp (ht.root ▸ hroot)
    simp only [miFindEmptyAddressRangeInTree, hroot]
    rfl
  | some root =>
    obtain ⟨node, nodes, hc, heq⟩ := farthest_root (s := .left) ht hroot hfuel
    replace hc : inorder c = node :: nodes := hc
    have hloop : loop .unfinished (findStep fuel size align t) fuel node =
        searchUp size align t node nodes := 
      findLoop_eq ht (hc.trans (List.nil_append _).symm) hfuel (by rw [hc] at hfuel; exact Nat.lt_of_succ_lt hfuel)
    rw [hc, searchFromLowest]
    simp only [miFindEmptyAddressRangeInTree, hroot, heq, hloop, bind, Except.bind, pure, Except.pure]

theorem miFindEmptyAddressRangeDownTree_eq (ht : t.Holds c) (hfuel : (inorder c).length < fuel) :
    miFindEmptyAddressRangeDownTree fuel size highest align t =
      searchFromHighest size highest align t (inorder c).reverse := by
  cases hroot : t.root with
  | none =>
    obtain rfl := rootOf_eq_none.mp (ht.root ▸ hroot)
    simp only [miFindEmptyAddressRangeDownTree, hroot]
    rfl
  | some root =>
    obtain ⟨node, nodes, hc, heq⟩ := farthest_root (s := .right) ht hroot hfuel
    replace hc : (inorder c).reverse = node :: nodes := hc
    have hloop : loop .unfinished (findDownStep fuel size highest align
        (optimalStartFor size highest align) t) fuel (some node) =
          searchDown size highest align
            (optimalStartFor size highest align) t node nodes :=
      findDownLoop_eq ht (show walk .left c = [] ++ node :: nodes from hc) hfuel (by rwa [← List.length_reverse, hc] at hfuel)
    rw [hc, searchFromHighest, ← hloop]
    simp only [miFindEmptyAddressRangeDownTree, optimalStartFor, hroot, heq, bind, Except.bind, pure, Except.pure]

end Search

end Nt365.Mm
