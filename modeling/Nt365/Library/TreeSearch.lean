import Nt365.Library.LinkedTree
import Nt365.Library.Loop

/-!
# Searching a binary tree in memory

A search goes down from the root. Each node sends it to one of its sides or ends it; where there is no
child on that side it ends as well. If the nodes agree about the place (`Guides`), a search that
does not end at a node shows that there is none to end at.
-/

namespace Nt365.Library.LinkedTree

variable {P : Type*} {ε β : Type*} {dir : P → Option Side}

/-- One step of a search: its result is a node, or a place for a new one. -/
def searchStep (child : Side → P → Option P) (dir : P → Option Side) (found : P → β) (place : Side → P → β) (p : P) :
    Except ε (P ⊕ β) :=
  match dir p with
  | none => .ok (.inr (found p))
  | some s =>
    match child s p with
    | some q => .ok (.inl q)
    | none => .ok (.inr (place s p))

/-- What a search of the tree comes to. -/
inductive SearchEnds (dir : P → Option Side) (found : P → β) (place : Side → P → β) (b : BinaryTree P) : β → Prop
  | found {p : P} : p ∈ inorder b → dir p = none → SearchEnds dir found place b (found p)
  | place {f : Frame P} {path : Path P} : b = plug (f :: path) .nil → Enclosed dir (f :: path) →
    SearchEnds dir found place b (place f.side f.node)

/-- **A search ends**, at a node or at a place that all nodes send it to. -/
theorem search_spec {h : Links P} (out : ε) (found : P → β) (place : Side → P → β) {b : BinaryTree P} {root : P} {fuel : ℕ}
    (hl : Linked h none b) (hg : Guides dir (inorder b)) (hroot : rootOf b = some root) (hfuel : (inorder b).length ≤ fuel) :
    ∃ r, loop out (searchStep h.child dir found place) fuel root = .ok r ∧ SearchEnds dir found place b r := by
  have hpos : 0 < (inorder b).length := List.length_pos_of_mem (rootOf_mem hroot)
  -- the rest of the search is in a subtree at a place that the nodes outside it send the search to
  refine loop_rule (I := fun k node => ∃ path u, b = plug path u ∧ rootOf u = some node ∧
    (inorder u).length = k + 1 ∧ Enclosed dir path)
    (Q := fun r => ∃ r', r = .ok r' ∧ SearchEnds dir found place b r')
    ?_ (k := (inorder b).length - 1) ⟨[], b, rfl, hroot, by omega, enclosed_nil⟩ (by omega)
  rintro k node ⟨path, u, rfl, hu, hlen, henc⟩
  unfold searchStep
  cases hdir : dir node with
  | none => exact ⟨_, rfl, .found (mem_inorder_plug.mpr (.inr (rootOf_mem hu))) hdir⟩
  | some s =>
    obtain ⟨x, y, rfl⟩ := exists_fork_of_rootOf s hu
    obtain ⟨-, hnear, -, -, -⟩ := linked_fork.mp (linked_plug.mp hl).2
    rw [length_inorder_fork] at hlen
    have hdown := henc.down hg hdir
    simp only [hnear]
    cases hx : rootOf x with
    | none =>
      obtain rfl := rootOf_eq_none.mp hx
      exact ⟨_, rfl, .place (f := ⟨s, node, y⟩) rfl hdown⟩
    | some child =>
      have hpos' : 0 < (inorder x).length := List.length_pos_of_mem (rootOf_mem hx)
      exact ⟨(inorder x).length - 1, by omega, ⟨s, node, y⟩ :: path, x, rfl, hx, by omega, hdown⟩

theorem Enclosed.ne_none {path : Path P} (henc : Enclosed dir path) : ∀ x ∈ inorder (plug path .nil), dir x ≠ none := by
  intro x hx hdir
  rw [inorder_plug] at hx
  simp only [inorder, List.nil_append, List.mem_append, List.mem_reverse] at hx
  rcases hx with hx | hx
  · simp [henc _ x hx] at hdir
  · simp [henc _ x hx] at hdir

end Nt365.Library.LinkedTree
