import Nt365.Rtl.GenTableRefine

/-!
# Runs of calls on a generic table

The abstract state of a table is the list of its elements in the order of their insertion. After any run of calls the answers
are those of the list, and a full enumeration, with or without splaying, returns the elements once in ascending order.
-/

namespace Nt365.Rtl.GenericTable

open Nt365.Library Nt365.Library.LinkedTree

variable {P K : Type} [DecidableEq P] {cmp : K → K → Ordering} {fuel : ℕ}

/-- A call on a table. -/
inductive Call (P K : Type) where
  | insert (buffer : K) (allocate : Option P)
  | delete (buffer : K)
  | lookup (buffer : K)
  | getElement (i : ℕ)
  | enumerate (restart : Bool)
  | enumerateWithoutSplaying (restartKey : Option P)

/-- What a call returns. -/
inductive Answer (P : Type) where
  | inserted (element : Option (Entry P)) (newElement : Bool)
  | deleted (found : Bool)
  | element (element : Option (Entry P))

namespace Call

def apply (cmp : K → K → Ordering) (fuel : ℕ) (t : GenericTable P K) : Call P K → Except SplayStop (GenericTable P K × Answer P)
  | insert buffer allocate => do
    let (t, element, newElement) ← rtlInsertElementGenericTable cmp fuel buffer allocate t
    return (t, .inserted element newElement)
  | delete buffer => do
    let (t, found) ← rtlDeleteElementGenericTable cmp fuel buffer t
    return (t, .deleted found)
  | lookup buffer => do
    let (t, element) ← rtlLookupElementGenericTable cmp fuel buffer t
    return (t, .element element)
  | getElement i =>
    let (t, element) := rtlGetElementGenericTable i t
    .ok (t, .element element)
  | enumerate restart => do
    let (t, element) ← rtlEnumerateGenericTable fuel restart t
    return (t, .element element)
  | enumerateWithoutSplaying restartKey => do
    let (_, element) ← rtlEnumerateGenericTableWithoutSplaying fuel restartKey t
    return (t, .element element)

/-- What the caller guarantees: memory that is allocated is not that of an element, an index is a `ULONG`, and a restart
key is an element. -/
def Allowed (cmp : K → K → Ordering) (l : List (P × K)) : Call P K → Prop
  | insert buffer allocate => equalTo cmp buffer l = none → ∀ p, allocate = some p → p ∉ l.map Prod.fst
  | getElement i => i < 4294967296
  | enumerateWithoutSplaying restartKey => ∀ key, restartKey = some key → key ∈ l.map Prod.fst
  | _ => True

/-- The elements after a call. -/
def effect (cmp : K → K → Ordering) (l : List (P × K)) : Call P K → List (P × K)
  | insert buffer allocate => (insertElement cmp buffer allocate l).1
  | delete buffer => (deleteElement cmp buffer l).1
  | _ => l

/-- The answer to a call; a single step of an enumeration returns one of the elements or `NULL`. -/
def Answers (cmp : K → K → Ordering) (l : List (P × K)) : Call P K → Answer P → Prop
  | insert buffer allocate, a => a = .inserted (insertElement cmp buffer allocate l).2.1 (insertElement cmp buffer allocate l).2.2
  | delete buffer, a => a = .deleted (deleteElement cmp buffer l).2
  | lookup buffer, a => a = .element (lookupElement cmp buffer l)
  | getElement i, a => a = .element (GenericTable.getElement i l)
  | enumerate _, a => ∃ o : Option P, a = .element (o.map .node) ∧ ∀ p, o = some p → p ∈ l.map Prod.fst
  | enumerateWithoutSplaying _, a => ∃ o : Option P, a = .element (o.map .node) ∧ ∀ p, o = some p → p ∈ l.map Prod.fst

end Call

/-! ### Single calls -/

section Calls

variable [Fintype P] {t : GenericTable P K} {b : BinaryTree P} {l : List (P × K)}

omit [DecidableEq P] [Fintype P] in
theorem exists_split {nodes : List P} {last : Option P} (hlast : ∀ p, last = some p → p ∈ nodes) :
    ∃ before after, nodes = before ++ last.toList ++ after ∧ (last = none → before = []) := by
  cases last with
  | none => exact ⟨[], nodes, rfl, fun _ => rfl⟩
  | some p =>
    obtain ⟨before, after, h⟩ := List.append_of_mem (hlast p rfl)
    exact ⟨before, after, by simp [h], by simp⟩

/-- **Each call does to the table what it should do to its elements.** -/
theorem Call.apply_spec [Std.TransCmp cmp] (hcard : Fintype.card P < 4294967296) (hfuel : Fintype.card P ≤ fuel)
    (hr : Represents cmp t b l) {call : Call P K} (hcall : call.Allowed cmp l) :
    ∃ t' b' a, call.apply cmp fuel t = .ok (t', a) ∧ Represents cmp t' b' (call.effect cmp l) ∧ call.Answers cmp l a := by
  cases call with
  | insert buffer allocate =>
    obtain ⟨t', b', hrun, hr'⟩ := rtlInsertElementGenericTable_spec hcard hfuel hr allocate hcall
    exact ⟨t', b', _, by rw [apply, hrun, ok_bind]; rfl, hr', rfl⟩
  | delete buffer =>
    obtain ⟨t', b', hrun, hr'⟩ := rtlDeleteElementGenericTable_spec hcard hfuel buffer hr
    exact ⟨t', b', _, by rw [apply, hrun, ok_bind]; rfl, hr', rfl⟩
  | lookup buffer =>
    obtain ⟨t', b', hrun, hr'⟩ := rtlLookupElementGenericTable_spec hfuel buffer hr
    exact ⟨t', b', _, by rw [apply, hrun, ok_bind]; rfl, hr', rfl⟩
  | getElement i =>
    obtain ⟨t', hrun, hr'⟩ := rtlGetElementGenericTable_spec hcard hr hcall
    exact ⟨t', b, _, by rw [apply, hrun], hr', rfl⟩
  | enumerate restart =>
    have hlast : ∀ p, (if restart then none else t.tableRoot) = some p → p ∈ inorder b := by
      intro p hp
      rw [← hr.root] at hp
      split at hp
      · cases hp
      · exact rootOf_mem hp
    obtain ⟨before, after, hsplit, hbefore⟩ := exists_split hlast
    obtain ⟨t', b', hrun, hr', -, -, -⟩ := rtlEnumerateGenericTable_spec hfuel hr restart hsplit fun h => hbefore (if_pos h)
    refine ⟨t', b', _, by rw [apply, hrun, ok_bind]; rfl, hr', after.head?, rfl, fun p hp => ?_⟩
    rw [← hr.mem_iff, hsplit]
    exact List.mem_append_right _ (List.mem_of_head? hp)
  | enumerateWithoutSplaying restartKey =>
    obtain ⟨before, after, hsplit, hbefore⟩ := exists_split fun p hp => hr.mem_iff.mpr (hcall p hp)
    have hrun := rtlEnumerateGenericTableWithoutSplaying_spec hfuel hr restartKey hsplit hbefore
    refine ⟨t, b, _, by rw [apply, hrun, ok_bind]; rfl, hr, after.head?, rfl, fun p hp => ?_⟩
    rw [← hr.mem_iff, hsplit]
    exact List.mem_append_right _ (List.mem_of_head? hp)

end Calls

/-! ### Full enumerations -/

/-- `for (ptr = RtlEnumerateGenericTable(Table, TRUE); ptr != NULL; ptr = RtlEnumerateGenericTable(Table, FALSE))`: the
elements, with `n` as the number of calls that are allowed. -/
def enumerateAll (fuel : ℕ) : ℕ → Bool → GenericTable P K → Except SplayStop (GenericTable P K × List (Entry P))
  | 0, _, _ => .error .unfinished
  | n + 1, restart, t => do
    match ← rtlEnumerateGenericTable fuel restart t with
    | (t, none) => return (t, [])
    | (t, some ptr) =>
      let (t, ptrs) ← enumerateAll fuel n false t
      return (t, ptr :: ptrs)

/-- The same loop without splaying, with the restart key. -/
def enumerateAllWithoutSplaying (fuel : ℕ) (t : GenericTable P K) : ℕ → Option P → Except SplayStop (List (Entry P))
  | 0, _ => .error .unfinished
  | n + 1, restartKey => do
    match ← rtlEnumerateGenericTableWithoutSplaying fuel restartKey t with
    | (_, none) => return []
    | (restartKey, some ptr) =>
      let ptrs ← enumerateAllWithoutSplaying fuel t n restartKey
      return ptr :: ptrs

section Passes

variable [Fintype P] {t : GenericTable P K} {b : BinaryTree P} {l : List (P × K)}

theorem enumerateAll_spec (hfuel : Fintype.card P ≤ fuel) (hr : Represents cmp t b l) {restart : Bool} {before after : List P}
    (hsplit : inorder b = before ++ (if restart then none else t.tableRoot).toList ++ after)
    (hbefore : restart = true → before = []) {n : ℕ} (hn : after.length < n) :
    ∃ t' b', enumerateAll fuel n restart t = .ok (t', after.map .node) ∧ Represents cmp t' b' l := by
  induction after generalizing n t b before restart with
  | nil =>
    obtain ⟨n, rfl⟩ : ∃ m, n = m + 1 := ⟨n - 1, by omega⟩
    obtain ⟨t', b', hrun, hr', -⟩ := rtlEnumerateGenericTable_spec hfuel hr restart hsplit hbefore
    exact ⟨t', b', by rw [enumerateAll, hrun, ok_bind]; rfl, hr'⟩
  | cons next after ih =>
    obtain ⟨n, rfl⟩ : ∃ m, n = m + 1 := ⟨n - 1, by omega⟩
    obtain ⟨t', b', hrun, hr', horder, -, hroot⟩ := rtlEnumerateGenericTable_spec hfuel hr restart hsplit hbefore
    -- the node that was returned is the root
    have hsplit' : inorder b' = (before ++ (if restart then none else t.tableRoot).toList) ++
      (if false then none else t'.tableRoot).toList ++ after := by
      rw [horder, hsplit, hroot next rfl]
      simp
    obtain ⟨t'', b'', hrest, hr''⟩ := ih hr' hsplit' (by simp) (n := n) (by simpa using hn)
    refine ⟨t'', b'', ?_, hr''⟩
    rw [enumerateAll, hrun, ok_bind]
    simp only [List.head?_cons, Option.map_some, hrest, ok_bind]
    rfl

theorem enumerateAllWithoutSplaying_spec (hfuel : Fintype.card P ≤ fuel) (hr : Represents cmp t b l) {restartKey : Option P}
    {before after : List P} (hsplit : inorder b = before ++ restartKey.toList ++ after) (hbefore : restartKey = none → before = [])
    {n : ℕ} (hn : after.length < n) : enumerateAllWithoutSplaying fuel t n restartKey = .ok (after.map .node) := by
  induction after generalizing n before restartKey with
  | nil =>
    obtain ⟨n, rfl⟩ : ∃ m, n = m + 1 := ⟨n - 1, by omega⟩
    rw [enumerateAllWithoutSplaying, rtlEnumerateGenericTableWithoutSplaying_spec hfuel hr restartKey hsplit hbefore, ok_bind]
    rfl
  | cons next after ih =>
    obtain ⟨n, rfl⟩ : ∃ m, n = m + 1 := ⟨n - 1, by omega⟩
    have hsplit' : inorder b = (before ++ restartKey.toList) ++ (some next).toList ++ after := by simp [hsplit]
    have hrest := ih hsplit' (by simp) (n := n) (by simpa using hn)
    rw [enumerateAllWithoutSplaying, rtlEnumerateGenericTableWithoutSplaying_spec hfuel hr restartKey hsplit hbefore, ok_bind]
    simp only [List.head?_cons, Option.map_some, Option.some_or, hrest, ok_bind]
    rfl

omit [Fintype P] in
theorem Represents.exists_ascending (hr : Represents cmp t b l) :
    ∃ s : List (P × K), s.Perm l ∧ (s.Pairwise fun e e' => cmp e.2 e'.2 = .lt) ∧ entriesOf s = (inorder b).map .node := by
  refine ⟨(inorder b).map fun p => (p, t.userData p), ?_, ?_, ?_⟩
  · have hl : (l.map Prod.fst).map (fun p => (p, t.userData p)) = l := by
      rw [List.map_map]
      exact (List.map_congr_left fun e he => congrArg (Prod.mk e.1) (hr.data e he)).trans l.map_id
    rw [← hl]
    exact hr.perm.map _
  · exact List.pairwise_map.mpr hr.sorted
  · simp [entriesOf]

end Passes

/-! ### Runs -/

def run (cmp : K → K → Ordering) (fuel : ℕ) :
    List (Call P K) → GenericTable P K → Except SplayStop (GenericTable P K × List (Answer P))
  | [], t => .ok (t, [])
  | call :: calls, t => do
    let (t, answer) ← call.apply cmp fuel t
    let (t, answers) ← run cmp fuel calls t
    return (t, answer :: answers)

def AllAllowed (cmp : K → K → Ordering) : List (Call P K) → List (P × K) → Prop
  | [], _ => True
  | call :: calls, l => call.Allowed cmp l ∧ AllAllowed cmp calls (call.effect cmp l)

def effects (cmp : K → K → Ordering) : List (Call P K) → List (P × K) → List (P × K)
  | [], l => l
  | call :: calls, l => effects cmp calls (call.effect cmp l)

def AllAnswers (cmp : K → K → Ordering) : List (Call P K) → List (P × K) → List (Answer P) → Prop
  | [], _, answers => answers = []
  | call :: calls, l, answers => ∃ a as, answers = a :: as ∧ call.Answers cmp l a ∧ AllAnswers cmp calls (call.effect cmp l) as

section Runs

variable [Fintype P] [Std.TransCmp cmp]

theorem run_spec (hcard : Fintype.card P < 4294967296) (hfuel : Fintype.card P ≤ fuel) {calls : List (Call P K)}
    {t : GenericTable P K} {b : BinaryTree P} {l : List (P × K)} (hr : Represents cmp t b l) (hcalls : AllAllowed cmp calls l) :
    ∃ t' b' answers, run cmp fuel calls t = .ok (t', answers) ∧ Represents cmp t' b' (effects cmp calls l) ∧
      AllAnswers cmp calls l answers := by
  induction calls generalizing t b l with
  | nil => exact ⟨t, b, [], rfl, hr, rfl⟩
  | cons call calls ih =>
    obtain ⟨t', b', a, hcall, hr', ha⟩ := Call.apply_spec hcard hfuel hr hcalls.1
    obtain ⟨t'', b'', as, hrun, hr'', has⟩ := ih hr' hcalls.2
    refine ⟨t'', b'', a :: as, ?_, hr'', a, as, rfl, ha, has⟩
    simp only [run, hcall, hrun, ok_bind]
    rfl

/-- **A generic table is a list of elements**: whatever calls are made on a new table, the answers are those of the list, and after
them a full enumeration returns the elements in ascending order. -/
theorem genericTable_refines (hcard : Fintype.card P < 4294967296) (hfuel : Fintype.card P ≤ fuel) (memory : GenericTable P K)
    {calls : List (Call P K)} (hcalls : AllAllowed cmp calls []) :
    ∃ t answers, run cmp fuel calls memory.initializeGenericTable = .ok (t, answers) ∧ AllAnswers cmp calls [] answers ∧
      ∃ s : List (P × K), s.Perm (effects cmp calls []) ∧ (s.Pairwise fun e e' => cmp e.2 e'.2 = .lt) ∧
        (∀ n, s.length < n → ∃ t', enumerateAll fuel n true t = .ok (t', entriesOf s)) ∧
        ∀ n, s.length < n → enumerateAllWithoutSplaying fuel t n none = .ok (entriesOf s) := by
  obtain ⟨t, b, answers, hrun, hr, hanswers⟩ := run_spec hcard hfuel (represents_initializeGenericTable memory) hcalls
  obtain ⟨s, hperm, hsorted, hentries⟩ := hr.exists_ascending
  have hlen : s.length = (inorder b).length := by rw [hperm.length_eq, hr.length_eq]
  refine ⟨t, answers, hrun, hanswers, s, hperm, hsorted, fun n hn => ?_, fun n hn => ?_⟩
  · obtain ⟨t', b', hall, -⟩ := enumerateAll_spec hfuel hr
      (show inorder b = [] ++ (if true then none else t.tableRoot).toList ++ inorder b from rfl) (fun _ => rfl) (hlen ▸ hn)
    exact ⟨t', by rw [hall, hentries]⟩
  · rw [hentries]
    exact enumerateAllWithoutSplaying_spec hfuel hr (show inorder b = [] ++ (none : Option P).toList ++ inorder b from rfl)
      (fun _ => rfl)
      (hlen ▸ hn)

/-- Two elements are inserted, the second is the one that is found at index `1`, and the first is deleted. -/
theorem genericTable_refines_two :
    let memory : GenericTable (Fin 3) ℕ := ⟨⟨id, fun _ _ => none⟩, ⟨id, id⟩, fun _ => 0, none, .head, 0, 0⟩
    let calls : List (Call (Fin 3) ℕ) := [.insert 7 (some 0), .insert 3 (some 1), .getElement 1, .insert 7 (some 2), .delete 7]
    AllAllowed compare calls [] ∧ effects compare calls [] = [(1, 3)] ∧
      ∃ t answers, run compare 3 calls memory.initializeGenericTable = .ok (t, answers) ∧ AllAnswers compare calls [] answers := by
  intro memory calls
  have hcalls : AllAllowed compare calls [] := by
    simp +decide [calls, AllAllowed, Call.Allowed]
  obtain ⟨t, answers, hrun, hanswers, -⟩ := genericTable_refines (by simp) (show _ ≤ 3 by simp) memory hcalls
  exact ⟨hcalls, by decide, t, answers, hrun, hanswers⟩

end Runs

end Nt365.Rtl.GenericTable
