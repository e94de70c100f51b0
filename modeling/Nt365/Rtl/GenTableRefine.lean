import Mathlib.Data.Fintype.Card
import Nt365.Library.TreeSearch
import Nt365.Rtl.GenTable
import Nt365.Rtl.SplayDelete

/-!
# A generic table is a list of elements

`Represents` ties a table to the list of its elements in the order of their insertion. Each routine does to the table what
it should do to the list: the tree holds the same nodes in the order of the compare routine, the circular list holds them in
the order of insertion, and the cached place is one of that list.
-/

namespace Nt365.Rtl.GenericTable

open Nt365.Library Nt365.Library.LinkedTree List

variable {P K : Type} [DecidableEq P]

/-- The list entries of the elements. -/
def entriesOf (l : List (P × K)) : List (Entry P) := l.map fun e => .node e.1

/-- The table has the elements `l`, in the order of their insertion, in the tree `b`. -/
structure Represents (cmp : K → K → Ordering) (t : GenericTable P K) (b : BinaryTree P) (l : List (P × K)) : Prop where
  holds : t.links.Holds b
  root : rootOf b = t.tableRoot
  perm : (inorder b).Perm (l.map Prod.fst)
  data : ∀ e ∈ l, t.userData e.1 = e.2
  sorted : (inorder b).Pairwise fun x y => cmp (t.userData x) (t.userData y) = .lt
  circle : t.entries.Circle .head (entriesOf l)
  number : t.numberGenericTableElements = l.length
  cached : (.head :: entriesOf l)[t.whichOrderedElement]? = some t.orderedPointer

variable {cmp : K → K → Ordering} {t : GenericTable P K} {b : BinaryTree P} {l : List (P × K)} {fuel : ℕ} {buffer : K} {node : P}

theorem represents_initializeGenericTable (t : GenericTable P K) : Represents cmp t.initializeGenericTable .nil [] where
  holds := ⟨trivial, nodup_nil⟩
  root := rfl
  perm := .refl _
  data := by simp
  sorted := .nil
  circle := Entries.circle_single ..
  number := rfl
  cached := rfl

namespace Represents

section

variable (hr : Represents cmp t b l)

include hr

theorem mem_iff : node ∈ inorder b ↔ node ∈ l.map Prod.fst := hr.perm.mem_iff

theorem length_eq : (inorder b).length = l.length := by
  rw [hr.perm.length_eq, length_map]

theorem nodup : (l.map Prod.fst).Nodup := hr.perm.nodup_iff.mp hr.holds.nodup

theorem mem_of_inorder (hn : node ∈ inorder b) : (node, t.userData node) ∈ l := by
  obtain ⟨e, he, rfl⟩ := mem_map.mp (hr.mem_iff.mp hn)
  rwa [hr.data e he]

end

end Represents

/-! ### Searching -/

/-- Where a node sends the search for a buffer. -/
def direction (cmp : K → K → Ordering) (t : GenericTable P K) (buffer : K) (node : P) : Option Side :=
  match cmp buffer (t.userData node) with
  | .lt => some .left
  | .gt => some .right
  | .eq => none

omit [DecidableEq P] in
theorem direction_eq_left : direction cmp t buffer node = some .left ↔ cmp buffer (t.userData node) = .lt := by
  unfold direction
  cases cmp buffer (t.userData node) <;> simp

omit [DecidableEq P] in
theorem direction_eq_right : direction cmp t buffer node = some .right ↔ cmp buffer (t.userData node) = .gt := by
  unfold direction
  cases cmp buffer (t.userData node) <;> simp

/-- What a search comes to: the node that is equal, or the place for a new one. -/
inductive Finds (cmp : K → K → Ordering) (t : GenericTable P K) (b : BinaryTree P) (buffer : K) : SearchResult P → Prop
  | empty : b = .nil → Finds cmp t b buffer .emptyTree
  | found {node : P} : node ∈ inorder b → cmp buffer (t.userData node) = .eq → Finds cmp t b buffer (.foundNode node)
  | place {f : Frame P} {path : Path P} : b = plug (f :: path) .nil → Enclosed (direction cmp t buffer) (f :: path) →
    Finds cmp t b buffer (.insertAs f.side f.node)

omit [DecidableEq P] in
theorem findStep_eq : findStep cmp t buffer = searchStep t.links.child (direction cmp t buffer) .foundNode .insertAs := by
  funext node
  unfold findStep searchStep direction
  cases cmp buffer (t.userData node) <;> rfl

section Find

variable [Std.TransCmp cmp]

omit [DecidableEq P] in
theorem guides_direction {nodes : List P} (hs : nodes.Pairwise fun x y => cmp (t.userData x) (t.userData y) = .lt) :
    Guides (direction cmp t buffer) nodes := by
  refine hs.imp fun {x y} hxy => ⟨fun hx => ?_, fun hy => ?_⟩
  · rw [direction_eq_left] at hx ⊢
    exact Std.TransCmp.lt_trans hx hxy
  · rw [direction_eq_right, Std.OrientedCmp.gt_iff_lt] at hy ⊢
    exact Std.TransCmp.lt_trans hxy hy

theorem findNodeOrParent_spec (hr : Represents cmp t b l) (buffer : K) (hfuel : l.length ≤ fuel) :
    ∃ r, findNodeOrParent cmp fuel t buffer = .ok r ∧ Finds cmp t b buffer r := by
  rw [← hr.length_eq] at hfuel
  unfold findNodeOrParent
  rw [← hr.root]
  cases hroot : rootOf b with
  | none => exact ⟨_, rfl, .empty (rootOf_eq_none.mp hroot)⟩
  | some root =>
    obtain ⟨r, hrun, hends⟩ := search_spec SplayStop.unfinished SearchResult.foundNode SearchResult.insertAs hr.holds.linked
      (guides_direction hr.sorted) hroot hfuel
    refine ⟨r, findStep_eq ▸ hrun, ?_⟩
    cases hends with
    | @found node hn hdir =>
      refine .found hn ?_
      unfold direction at hdir
      cases hc : cmp buffer (t.userData node) <;> simp_all
    | place hb henc => exact .place hb henc

theorem Represents.cmp_ne_eq (hr : Represents cmp t b l) {x y : P} (hx : x ∈ inorder b) (hy : y ∈ inorder b) (hne : x ≠ y) :
    cmp (t.userData x) (t.userData y) ≠ .eq := by
  have : Std.Symm fun x y => cmp (t.userData x) (t.userData y) ≠ .eq := ⟨fun x y h h' => h (Std.OrientedCmp.eq_symm h')⟩
  have hpair : (inorder b).Pairwise fun x y => cmp (t.userData x) (t.userData y) ≠ .eq := by
    refine hr.sorted.imp fun h h' => ?_
    rw [h] at h'
    cases h'
  exact hpair.forall hx hy hne

/-- The element that is equal to a buffer. -/
def equalTo (cmp : K → K → Ordering) (buffer : K) (l : List (P × K)) : Option (P × K) := l.find? fun e => cmp buffer e.2 = .eq

theorem Represents.equalTo_found (hr : Represents cmp t b l) (hn : node ∈ inorder b) (heq : cmp buffer (t.userData node) = .eq) :
    equalTo cmp buffer l = some (node, t.userData node) := by
  have hmem := hr.mem_of_inorder hn
  cases hf : equalTo cmp buffer l with
  | none => simpa [heq] using find?_eq_none.mp hf _ hmem
  | some e =>
    have he := mem_of_find?_eq_some hf
    have hcmp : cmp buffer e.2 = .eq := by simpa using find?_some hf
    have hdata := hr.data e he
    have h1 : e.1 = node := by
      by_contra hne
      refine hr.cmp_ne_eq (hr.mem_iff.mpr (mem_map_of_mem he)) hn hne ?_
      rw [hdata]
      exact Std.TransCmp.eq_trans (Std.OrientedCmp.eq_symm hcmp) heq
    rw [← h1, hdata]

omit [Std.TransCmp cmp] in
theorem Represents.equalTo_eq_none (hr : Represents cmp t b l) (hne : ∀ x ∈ inorder b, cmp buffer (t.userData x) ≠ .eq) :
    equalTo cmp buffer l = none := by
  refine find?_eq_none.mpr fun e he => ?_
  have h := hne e.1 (hr.mem_iff.mpr (mem_map_of_mem he))
  rw [hr.data e he] at h
  simpa using h

omit [DecidableEq P] [Std.TransCmp cmp] in
/-- No node is equal where a search ends at a place for a new one. -/
theorem enclosed_ne_eq {path : Path P} (henc : Enclosed (direction cmp t buffer) path) :
    ∀ x ∈ inorder (plug path .nil), cmp buffer (t.userData x) ≠ .eq := by
  intro x hx heq
  exact henc.ne_none x hx (by simp [direction, heq])

omit [Std.TransCmp cmp] in
theorem Finds.equalTo_eq_none (hr : Represents cmp t b l) {r : SearchResult P} (hf : Finds cmp t b buffer r)
    (hnot : ∀ node, r ≠ .foundNode node) : equalTo cmp buffer l = none := by
  cases hf with
  | empty hb =>
    subst hb
    exact hr.equalTo_eq_none (by simp [inorder])
  | found => exact absurd rfl (hnot _)
  | place hb henc =>
    subst hb
    exact hr.equalTo_eq_none (enclosed_ne_eq henc)

end Find

/-! ### Splaying and inserting -/

theorem splay_spec (hr : Represents cmp t b l) (hn : node ∈ inorder b) (hfuel : l.length ≤ fuel) :
    ∃ t' b', t.splay fuel node = .ok t' ∧ Represents cmp t' b' l ∧ rootOf b' = some node ∧ inorder b' = inorder b ∧
      t'.userData = t.userData := by
  obtain ⟨links, b', hrun, hroot, hre⟩ := SplayLinks.rtlSplay_spec hr.holds hn (show _ ≤ fuel by rwa [hr.length_eq])
  refine ⟨{ t with links := links, tableRoot := some node }, b', ?_, ?_, hroot, hre.order, rfl⟩
  · rw [splay, hrun, ok_bind]
    rfl
  · exact ⟨hre.holds, hroot, hre.order ▸ hr.perm, hr.data, hre.order ▸ hr.sorted, hr.circle, hr.number, hr.cached⟩

/-- The tree with the new node, which is between the lower and the higher nodes. -/
theorem insertNode_tree (hr : Represents cmp t b l) {r : SearchResult P} (hf : Finds cmp t b buffer r)
    (hnot : ∀ node, r ≠ .foundNode node) (hnode : node ∉ inorder b) :
    ∃ b' lower higher, (t.insertNode buffer r node).links.Holds b' ∧ rootOf b' = (t.insertNode buffer r node).tableRoot ∧
      inorder b = lower ++ higher ∧ inorder b' = lower ++ node :: higher ∧
      (∀ x ∈ lower, cmp buffer (t.userData x) = .gt) ∧ ∀ x ∈ higher, cmp buffer (t.userData x) = .lt := by
  cases hf with
  | empty hb =>
    subst hb
    exact ⟨fork .left node .nil .nil, [], [], (SplayLinks.holds_leaf ..).1, rootOf_fork .., rfl, rfl, by simp, by simp⟩
  | found => exact absurd rfl (hnot _)
  | @place f path hb henc =>
    subst hb
    refine ⟨plug (f :: path) (fork .left node .nil .nil), (beyond .left (f :: path)).reverse, beyond .right (f :: path),
      (SplayLinks.attach_spec hr.holds hnode).1, ?_, ?_, ?_, fun x hx => ?_, fun x hx => ?_⟩
    · rw [rootOf_plug]
      exact (rootOf_plug (f :: path) .nil).symm.trans hr.root
    · exact inorder_plug_nil (f :: path)
    · exact inorder_plug_leaf (f :: path) node
    · exact direction_eq_right.mp (henc .left x (mem_reverse.mp hx))
    · exact direction_eq_left.mp (henc .right x hx)

/-- **A new element is the last one** in the order of insertion. -/
theorem insertNode_spec [Std.TransCmp cmp] (hr : Represents cmp t b l) {r : SearchResult P} (hf : Finds cmp t b buffer r)
    (hnot : ∀ node, r ≠ .foundNode node) (hnode : node ∉ l.map Prod.fst) (hlen : l.length + 1 < 4294967296) :
    ∃ b', Represents cmp (t.insertNode buffer r node) b' (l ++ [(node, buffer)]) ∧ node ∈ inorder b' := by
  have hnode' : node ∉ inorder b := fun hm => hnode (hr.mem_iff.mp hm)
  obtain ⟨b', lower, higher, hholds, hroot, hb, hb', hlower, hhigher⟩ := insertNode_tree hr hf hnot hnode'
  have hdata : ∀ x ∈ inorder b, (t.insertNode buffer r node).userData x = t.userData x := fun x hx =>
    Function.update_of_ne (ne_of_mem_of_not_mem hx hnode') _ _
  have hself : (t.insertNode buffer r node).userData node = buffer := Function.update_self ..
  have hhead : Entry.head ∉ entriesOf l := by simp [entriesOf]
  have hentry : Entry.node node ∉ .head :: entriesOf l := by simpa [entriesOf] using hnode
  have hentries : entriesOf (l ++ [(node, buffer)]) = entriesOf l ++ [.node node] := by simp [entriesOf]
  refine ⟨b', ⟨hholds, hroot, ?_, ?_, ?_, ?_, ?_, ?_⟩, by simp [hb']⟩
  · rw [hb', map_append]
    refine perm_middle.trans ((List.Perm.cons node ?_).trans (perm_append_singleton node _).symm)
    exact hb ▸ hr.perm
  · intro e he
    rcases mem_append.mp he with he | he
    · rw [hdata e.1 (hr.mem_iff.mpr (mem_map_of_mem he)), hr.data e he]
    · rw [mem_singleton.mp he, hself]
  · have hs := hr.sorted
    rw [hb, pairwise_append] at hs
    rw [hb', pairwise_append, pairwise_cons]
    rw [hb, forall_mem_append] at hdata
    obtain ⟨hlo, hhi⟩ := hdata
    refine ⟨hs.1.imp_of_mem fun hx hy h => ?_, ⟨fun x hx => ?_, hs.2.1.imp_of_mem fun hx hy h => ?_⟩, fun x hx y hy => ?_⟩
    · rwa [hlo _ hx, hlo _ hy]
    · rw [hself, hhi x hx, hhigher x hx]
    · rwa [hhi _ hx, hhi _ hy]
    · rcases mem_cons.mp hy with rfl | hy
      · rw [hself, hlo x hx]
        exact Std.OrientedCmp.gt_iff_lt.mp (hlower x hx)
      · rw [hlo x hx, hhi y hy]
        exact hs.2.2 x hx y hy
  · rw [hentries]
    refine Entries.Circle.insertTail (hr.circle.congr (fun a ha => ?_) fun a ha => ?_) hhead hentry
    · simp [Entries.single, ne_of_mem_of_not_mem ha hentry]
    · simp [Entries.single, ne_of_mem_of_not_mem ha hentry]
  · rw [length_append, length_singleton, ← add32_of_lt hlen, ← hr.number]
    rfl
  · obtain ⟨hlt, -⟩ := List.getElem?_eq_some_iff.mp hr.cached
    rw [hentries, ← cons_append]
    exact (getElem?_append_left hlt).trans hr.cached

/-! ### The routines on a list of elements -/

/-- A new element is put at the end, if there is none that is equal and there is memory for it. -/
def insertElement (cmp : K → K → Ordering) (buffer : K) (allocate : Option P) (l : List (P × K)) :
    List (P × K) × Option (Entry P) × Bool :=
  match equalTo cmp buffer l, allocate with
  | some e, _ => (l, some (.node e.1), false)
  | none, none => (l, none, false)
  | none, some p => (l ++ [(p, buffer)], some (.node p), true)

/-- The element that is equal is taken out. -/
def deleteElement (cmp : K → K → Ordering) (buffer : K) (l : List (P × K)) : List (P × K) × Bool :=
  (l.filter fun e => cmp buffer e.2 ≠ .eq, (equalTo cmp buffer l).isSome)

def lookupElement (cmp : K → K → Ordering) (buffer : K) (l : List (P × K)) : Option (Entry P) :=
  (equalTo cmp buffer l).map fun e => .node e.1

def getElement (i : ℕ) (l : List (P × K)) : Option (Entry P) := l[i]?.map fun e => .node e.1

section Routines

-- The addresses are those of a 32-bit machine, and the loops are given as many iterations as there are addresses.
variable [Fintype P]

theorem Represents.length_le (hr : Represents cmp t b l) : l.length ≤ Fintype.card P := by
  have h := hr.nodup.length_le_card
  rwa [length_map] at h

theorem rtlInsertElementGenericTable_spec [Std.TransCmp cmp] (hcard : Fintype.card P < 4294967296) (hfuel : Fintype.card P ≤ fuel)
    (hr : Represents cmp t b l) (allocate : Option P)
    (hfresh : equalTo cmp buffer l = none → ∀ p, allocate = some p → p ∉ l.map Prod.fst) :
    ∃ t' b', rtlInsertElementGenericTable cmp fuel buffer allocate t = .ok (t', (insertElement cmp buffer allocate l).2) ∧
      Represents cmp t' b' (insertElement cmp buffer allocate l).1 := by
  have hlen : l.length ≤ fuel := hr.length_le.trans hfuel
  obtain ⟨r, hfind, hf⟩ := findNodeOrParent_spec hr buffer hlen
  rw [rtlInsertElementGenericTable, hfind, ok_bind]
  by_cases hfound : ∃ node, r = .foundNode node
  · obtain ⟨node, rfl⟩ := hfound
    cases hf with
    | found hn heq =>
      obtain ⟨t', b', hsplay, hr', -, -, -⟩ := splay_spec hr hn hlen
      have hins : insertElement cmp buffer allocate l = (l, some (.node node), false) := by
        simp only [insertElement, hr.equalTo_found hn heq]
      rw [hins]
      exact ⟨t', b', by simp only [hsplay, ok_bind]; rfl, hr'⟩
  · have hnot : ∀ node, r ≠ .foundNode node := fun node h => hfound ⟨node, h⟩
    have hnone := hf.equalTo_eq_none hr hnot
    cases allocate with
    | none =>
      have hins : insertElement cmp buffer none l = (l, none, false) := by simp only [insertElement, hnone]
      rw [hins]
      refine ⟨t, b, ?_, hr⟩
      cases r with
      | foundNode node => exact absurd rfl (hnot node)
      | _ => rfl
    | some p =>
      have hins : insertElement cmp buffer (some p) l = (l ++ [(p, buffer)], some (.node p), true) := by
        simp only [insertElement, hnone]
      have hp := hfresh hnone p rfl
      have hlen' : l.length + 1 < 4294967296 := by
        have h := (nodup_cons.mpr ⟨hp, hr.nodup⟩).length_le_card
        rw [length_cons, length_map] at h
        omega
      obtain ⟨b', hr', hmem⟩ := insertNode_spec hr hf hnot hp hlen'
      obtain ⟨t'', b'', hsplay, hr'', -, -, -⟩ := splay_spec hr' hmem (hr'.length_le.trans hfuel)
      rw [hins]
      refine ⟨t'', b'', ?_, hr''⟩
      cases r with
      | foundNode node => exact absurd rfl (hnot node)
      | _ => simp only [hsplay, ok_bind]; rfl

theorem rtlLookupElementGenericTable_spec [Std.TransCmp cmp] (hfuel : Fintype.card P ≤ fuel) (buffer : K)
    (hr : Represents cmp t b l) :
    ∃ t' b', rtlLookupElementGenericTable cmp fuel buffer t = .ok (t', lookupElement cmp buffer l) ∧ Represents cmp t' b' l := by
  have hlen : l.length ≤ fuel := hr.length_le.trans hfuel
  obtain ⟨r, hfind, hf⟩ := findNodeOrParent_spec hr buffer hlen
  rw [rtlLookupElementGenericTable, hfind, ok_bind, lookupElement]
  by_cases hfound : ∃ node, r = .foundNode node
  · obtain ⟨node, rfl⟩ := hfound
    cases hf with
    | found hn heq =>
      obtain ⟨t', b', hsplay, hr', -, -, -⟩ := splay_spec hr hn hlen
      refine ⟨t', b', ?_, hr'⟩
      rw [hr.equalTo_found hn heq]
      simp only [hsplay, ok_bind]
      rfl
  · have hnot : ∀ node, r ≠ .foundNode node := fun node h => hfound ⟨node, h⟩
    rw [hf.equalTo_eq_none hr hnot]
    refine ⟨t, b, ?_, hr⟩
    cases r with
    | foundNode node => exact absurd rfl (hnot node)
    | _ => rfl

omit [Fintype P] in
theorem Represents.filter_eq [Std.TransCmp cmp] {l₁ l₂ : List (P × K)} {k : K} (hr : Represents cmp t b (l₁ ++ (node, k) :: l₂))
    (heq : cmp buffer k = .eq) : ((l₁ ++ (node, k) :: l₂).filter fun e => cmp buffer e.2 ≠ .eq) = l₁ ++ l₂ := by
  have hnd := hr.nodup
  rw [map_append, map_cons, nodup_append', nodup_cons, disjoint_cons_right] at hnd
  have hother : ∀ e ∈ l₁ ++ (node, k) :: l₂, e.1 ≠ node → cmp buffer e.2 ≠ .eq := by
    intro e he hne heq'
    have hk := hr.data (node, k) (by simp)
    refine hr.cmp_ne_eq (hr.mem_iff.mpr (mem_map_of_mem he)) (hr.mem_iff.mpr (by simp)) hne ?_
    rw [hr.data e he, hk]
    exact Std.TransCmp.eq_trans (Std.OrientedCmp.eq_symm heq') heq
  rw [filter_append, filter_cons_of_neg (by simpa using heq), filter_eq_self.mpr fun e he => ?_,
    filter_eq_self.mpr fun e he => ?_]
  · refine decide_eq_true (hother e (by simp [he]) ?_)
    rintro rfl
    exact hnd.2.1.1 (mem_map.mpr ⟨e, he, rfl⟩)
  · refine decide_eq_true (hother e (by simp [he]) ?_)
    rintro rfl
    exact hnd.2.2.1 (mem_map.mpr ⟨e, he, rfl⟩)

omit [Fintype P] in
theorem deleteNode_spec {l₁ l₂ : List (P × K)} {k : K} (hr : Represents cmp t b (l₁ ++ (node, k) :: l₂)) {links : SplayLinks P}
    {b' : BinaryTree P} (hd : SplayLinks.Deleted t.links links b b' node) (hlen : (l₁ ++ (node, k) :: l₂).length < 4294967296) :
    Represents cmp { t with
      links := links
      tableRoot := rootOf b'
      entries := t.entries.remove (.node node)
      numberGenericTableElements := sub32 t.numberGenericTableElements 1
      whichOrderedElement := 0
      orderedPointer := .head } b' (l₁ ++ l₂) := by
  have hnd := hr.nodup
  rw [map_append, map_cons, nodup_append', nodup_cons, disjoint_cons_right] at hnd
  have hmem : ∀ m : List (P × K), Entry.node node ∈ entriesOf m → node ∈ m.map Prod.fst := by simp [entriesOf]
  refine ⟨hd.holds, rfl, ?_, fun e he => hr.data e ?_, ?_, ?_, ?_, rfl⟩
  · have hp := hr.perm.erase node
    rw [← hd.order, map_append, map_cons, erase_append_right _ hnd.2.2.1, erase_cons_head, ← map_append] at hp
    exact hp
  · rcases mem_append.mp he with he | he
    · simp [he]
    · simp [he]
  · rw [hd.order]
    exact hr.sorted.sublist erase_sublist
  · have hc := hr.circle
    simp only [entriesOf, map_append, map_cons] at hc ⊢
    exact hc.remove (by simp) (fun hm => hnd.2.2.1 (hmem l₁ hm)) fun hm => hnd.2.1.1 (hmem l₂ hm)
  · have hn := hr.number
    simp only [length_append, length_cons] at hn hlen ⊢
    rw [hn, sub32_of_le hlen (by omega)]
    omega

theorem rtlDeleteElementGenericTable_spec [Std.TransCmp cmp] (hcard : Fintype.card P < 4294967296) (hfuel : Fintype.card P ≤ fuel)
    (buffer : K) (hr : Represents cmp t b l) :
    ∃ t' b', rtlDeleteElementGenericTable cmp fuel buffer t = .ok (t', (deleteElement cmp buffer l).2) ∧
      Represents cmp t' b' (deleteElement cmp buffer l).1 := by
  have hlen : l.length ≤ fuel := hr.length_le.trans hfuel
  obtain ⟨r, hfind, hf⟩ := findNodeOrParent_spec hr buffer hlen
  rw [rtlDeleteElementGenericTable, hfind, ok_bind, deleteElement]
  by_cases hfound : ∃ node, r = .foundNode node
  · obtain ⟨node, rfl⟩ := hfound
    cases hf with
    | found hn heq =>
      obtain ⟨links, b', hdel, hd⟩ := SplayLinks.rtlDelete_spec hr.holds hn (show _ ≤ fuel by rwa [hr.length_eq])
      rw [hr.equalTo_found hn heq]
      obtain ⟨l₁, l₂, rfl⟩ := append_of_mem (hr.mem_of_inorder hn)
      rw [hr.filter_eq heq]
      refine ⟨_, b', ?_, deleteNode_spec hr hd (Nat.lt_of_le_of_lt hr.length_le hcard)⟩
      simp only [hdel, ok_bind]
      rfl
  · have hnot : ∀ node, r ≠ .foundNode node := fun node h => hfound ⟨node, h⟩
    have hnone := hf.equalTo_eq_none hr hnot
    have hall : (l.filter fun e => cmp buffer e.2 ≠ .eq) = l :=
      filter_eq_self.mpr fun e he => by simpa using find?_eq_none.mp hnone e he
    rw [hnone, hall]
    refine ⟨t, b, ?_, hr⟩
    cases r with
    | foundNode node => exact absurd rfl (hnot node)
    | _ => rfl

omit [Fintype P] in
theorem travel_eq (hr : Represents cmp t b l) (hlen : l.length < 4294967296) {k : ℕ} {entry : Entry P}
    (hk : (.head :: entriesOf l)[k]? = some entry) (hne : k ≠ 0) : t.travel k = entry := by
  obtain ⟨hklen, -⟩ := List.getElem?_eq_some_iff.mp hk
  obtain ⟨hwhich, -⟩ := List.getElem?_eq_some_iff.mp hr.cached
  have hlist : (Entry.head :: entriesOf l).length = l.length + 1 := by simp [entriesOf]
  rw [hlist] at hwhich hklen
  -- the circle is the list with its head at both ends
  have hin : ∀ k, k < l.length + 1 → (Entry.head :: (entriesOf l ++ [Entry.head]))[k]? = (Entry.head :: entriesOf l)[k]? := by
    intro k hk
    rw [← cons_append, getElem?_append_left (by rwa [hlist])]
  have hend : (Entry.head :: (entriesOf l ++ [Entry.head]))[l.length + 1]? = some (.head : Entry P) := by
    rw [← cons_append, getElem?_append_right (by rw [hlist]), hlist]
    simp
  have hplace := (hin k hklen).trans hk
  have hcached := (hin _ hwhich).trans hr.cached
  have hforward : ∀ j d e, (Entry.head :: (entriesOf l ++ [Entry.head]))[j]? = some e → j + d = k →
    t.entries.flink^[d] e = entry :=
    fun j d e he hd => hr.circle.flink_iterate he (hd ▸ hplace)
  have hback : ∀ j d e, (Entry.head :: (entriesOf l ++ [Entry.head]))[j]? = some e → k + d = j → t.entries.blink^[d] e = entry :=
    fun j d e he hd => hr.circle.blink_iterate hplace (hd ▸ he)
  rw [travel, hr.number]
  simp only
  by_cases hw : t.whichOrderedElement > k
  · rw [if_pos hw, sub32_of_le (by omega) (by omega)]
    split
    · exact hback _ _ _ hcached (by omega)
    · exact hforward 0 k .head rfl (by omega)
  · rw [if_neg hw, sub32_of_le (by omega) (by omega), sub32_of_le (by omega) (by omega), add32_of_lt (by omega)]
    split
    · exact hforward _ _ _ hcached (by omega)
    · exact hback _ _ _ hend (by omega)

theorem rtlGetElementGenericTable_spec (hcard : Fintype.card P < 4294967296) (hr : Represents cmp t b l) {i : ℕ}
    (hi : i < 4294967296) : ∃ t', rtlGetElementGenericTable i t = (t', getElement i l) ∧ Represents cmp t' b l := by
  have hlen : l.length < 4294967296 := Nat.lt_of_le_of_lt hr.length_le hcard
  rw [rtlGetElementGenericTable, getElement, hr.number]
  simp only
  by_cases hout : i = maxUlong ∨ add32 i 1 > l.length
  · have hnone : l.length ≤ i := by
      rcases hout with h | h
      · rw [h, maxUlong]
        omega
      · by_cases hmax : i + 1 < 4294967296
        · rw [add32_of_lt hmax] at h
          omega
        · omega
    rw [if_pos hout, getElem?_eq_none hnone]
    exact ⟨t, rfl, hr⟩
  · rw [if_neg hout]
    obtain ⟨hmax, hle⟩ := not_or.mp hout
    rw [maxUlong] at hmax
    have hnorm : add32 i 1 = i + 1 := add32_of_lt (by omega)
    rw [hnorm] at hle ⊢
    have hin : i < l.length := by omega
    have hplace : (Entry.head :: entriesOf l)[i + 1]? = some (.node l[i].1) := by
      rw [getElem?_cons_succ, entriesOf, getElem?_map, getElem?_eq_getElem hin, Option.map_some]
    rw [getElem?_eq_getElem hin, Option.map_some, travel_eq hr hlen hplace (by omega)]
    by_cases hsame : i + 1 = t.whichOrderedElement
    · rw [if_pos hsame]
      have hcached := hr.cached
      rw [← hsame, hplace] at hcached
      exact ⟨t, Prod.ext rfl hcached.symm, hr⟩
    · rw [if_neg hsame]
      exact ⟨_, rfl, hr.holds, hr.root, hr.perm, hr.data, hr.sorted, hr.circle, rfl, hplace⟩

/-! ### Enumerating -/

omit [Fintype P] in
/-- The nodes that were returned, from the first one to the last, and those that were not. -/
theorem nodeToReturn_spec (hr : Represents cmp t b l) {root : P} (hroot : t.tableRoot = some root) {last : Option P}
    {before after : List P}
    (hsplit : inorder b = before ++ last.toList ++ after) (hbefore : last = none → before = []) (hlen : l.length ≤ fuel) :
    t.nodeToReturn fuel root last = .ok after.head? := by
  rw [← hr.length_eq] at hlen
  cases last with
  | none =>
    rw [hbefore rfl] at hsplit
    rw [nodeToReturn, SplayLinks.descend_spec hr.holds.linked (hr.root.trans hroot) hlen, Side.other, LinkedTree.walk, hsplit]
    rfl
  | some last =>
    refine SplayLinks.realNeighbour_spec (l := before) hr.holds ?_ hlen
    rw [LinkedTree.walk, hsplit, append_assoc]
    rfl

omit [Fintype P] in
theorem Represents.tableRoot_eq_none (hr : Represents cmp t b l) (hroot : t.tableRoot = none) : inorder b = [] := by
  rw [← hr.root, rootOf_eq_none] at hroot
  rw [hroot, inorder]

/-- An enumeration moves the next node to the root. -/
theorem rtlEnumerateGenericTable_spec (hfuel : Fintype.card P ≤ fuel) (hr : Represents cmp t b l) (restart : Bool)
    {before after : List P}
    (hsplit : inorder b = before ++ (if restart then none else t.tableRoot).toList ++ after)
    (hbefore : restart = true → before = []) :
    ∃ t' b', rtlEnumerateGenericTable fuel restart t = .ok (t', after.head?.map .node) ∧ Represents cmp t' b' l ∧
      inorder b' = inorder b ∧ t'.userData = t.userData ∧ ∀ next, after.head? = some next → t'.tableRoot = some next := by
  have hlen : l.length ≤ fuel := hr.length_le.trans hfuel
  unfold rtlEnumerateGenericTable
  cases hroot : t.tableRoot with
  | none =>
    have hnil := hr.tableRoot_eq_none hroot
    obtain rfl : after = [] := by simp_all
    exact ⟨t, b, rfl, hr, rfl, rfl, by simp⟩
  | some root =>
    rw [hroot] at hsplit
    have hfind := nodeToReturn_spec hr hroot hsplit (by cases restart <;> simp_all) hlen
    simp only [hfind, ok_bind]
    cases hafter : after.head? with
    | none => exact ⟨t, b, rfl, hr, rfl, rfl, by simp⟩
    | some next =>
      have hmem : next ∈ inorder b := by
        rw [hsplit]
        exact mem_append_right _ (mem_of_head? hafter)
      obtain ⟨t', b', hsplay, hr', hroot', horder, hdata⟩ := splay_spec hr hmem hlen
      refine ⟨t', b', by simp only [hsplay, ok_bind]; rfl, hr', horder, hdata, fun _ h => ?_⟩
      rw [← hr'.root, hroot', h]

/-- An enumeration without splaying goes from the restart key to the next node. -/
theorem rtlEnumerateGenericTableWithoutSplaying_spec (hfuel : Fintype.card P ≤ fuel) (hr : Represents cmp t b l)
    (restartKey : Option P)
    {before after : List P} (hsplit : inorder b = before ++ restartKey.toList ++ after)
    (hbefore : restartKey = none → before = []) :
    rtlEnumerateGenericTableWithoutSplaying fuel restartKey t = .ok (after.head?.or restartKey, after.head?.map .node) := by
  unfold rtlEnumerateGenericTableWithoutSplaying
  cases hroot : t.tableRoot with
  | none =>
    have hnil := hr.tableRoot_eq_none hroot
    obtain rfl : after = [] := by simp_all
    rfl
  | some root =>
    simp only [nodeToReturn_spec hr hroot hsplit hbefore (hr.length_le.trans hfuel), ok_bind]
    cases after.head? <;> rfl

end Routines

end Nt365.Rtl.GenericTable
