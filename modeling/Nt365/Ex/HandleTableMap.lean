import Nt365.Ex.HandleTableAlloc

/-!
# A handle table is a finite map

`HandleTable.value` is the map: the entry of each live handle. `Holds t b` is what every routine keeps: the table has
the block `b`, and its free list goes through the free entries of `b`. For each routine there is one lemma that says what
it does to the map.
-/

namespace Nt365.Ex.Handle

open Nt365.Library Option

variable {log : ℕ} {t t' : HandleTable log} {b b' : Block log} {e v : Entry log} {n i j k h h' : ℕ}

/-! ### Handles and indexes -/

theorem handleToIndex_indexToHandle (hi : i < 4294967295) : handleToIndex (indexToHandle i) = i := by
  unfold handleToIndex indexToHandle sub32 add32
  omega

theorem indexToHandle_eq (hi : i < 4294967295) : indexToHandle i = i + 1 := add32_of_lt (by omega)

theorem handleToIndex_inj (hh : h < 4294967296) (hh' : h' < 4294967296) (heq : handleToIndex h = handleToIndex h') : h = h' := by
  unfold handleToIndex sub32 at heq
  omega

theorem handleToIndex_eq (hh : h < 4294967296) (hi : handleToIndex h < 4294967295) : h = handleToIndex h + 1 := by
  unfold handleToIndex sub32 at hi ⊢
  omega

/-! ### The map -/

/-- The entry of a live handle. -/
def HandleTable.value (t : HandleTable log) (h : ℕ) : Option (Entry log) :=
  t.tableEntries.bind fun b =>
    if handleToIndex h < t.countTableEntries ∧ testFreePointer (b.entry (handleToIndex h)).pointer = false then
      some (b.entry (handleToIndex h))
    else none

/-- The two maps agree at the other handles. -/
def SameElsewhere (t t' : HandleTable log) (h : ℕ) : Prop := ∀ h' < 4294967296, h' ≠ h → t'.value h' = t.value h'

/-- The table has this block, and its free list is that of the block's free entries. -/
structure Holds (t : HandleTable log) (b : Block log) : Prop where
  block : t.tableEntries = some b
  placed : Placed b t.countTableEntries
  chain : Chain b t.countTableEntries t.freeEntries fun i => testFreePointer (b.entry i).pointer = true
  grow_pos : 0 < t.countTableEntriesToGrowBy
  grow_lt : t.countTableEntriesToGrowBy < 4294967296

theorem Placed.count_lt (hb : Placed b n) : n < 4294967295 := by
  have hlt := hb.bytes_lt
  have hfour : 4 * n ≤ bytes log n := by
    rw [bytes, pow_add, Nat.mul_comm]
    exact Nat.mul_le_mul_left n (Nat.le_mul_of_pos_left 4 (by positivity))
  omega

namespace Holds

section

variable (ht : Holds t b)

include ht

theorem block_eq : t.block = .ok b := by
  unfold HandleTable.block
  rw [ht.block]

theorem value_eq : t.value h =
    if handleToIndex h < t.countTableEntries ∧ testFreePointer (b.entry (handleToIndex h)).pointer = false then
      some (b.entry (handleToIndex h))
    else none := by
  unfold HandleTable.value
  rw [ht.block, bind_some]

theorem value_of_live (hlt : handleToIndex h < t.countTableEntries)
    (hlive : testFreePointer (b.entry (handleToIndex h)).pointer = false) : t.value h = some (b.entry (handleToIndex h)) := by
  rw [ht.value_eq, if_pos ⟨hlt, hlive⟩]

theorem value_of_free (hfree : testFreePointer (b.entry (handleToIndex h)).pointer = true) : t.value h = none := by
  rw [ht.value_eq, hfree]
  exact if_neg fun hlive => Bool.false_ne_true hlive.2.symm

theorem value_of_le (hle : ¬handleToIndex h < t.countTableEntries) : t.value h = none := by
  rw [ht.value_eq]
  exact if_neg fun hlive => hle hlive.1

theorem value_set (ht' : Holds t' (b.set i e)) (hcount : t'.countTableEntries = t.countTableEntries)
    (hi : i < t.countTableEntries) :
    t'.value h = if handleToIndex h = i then (if testFreePointer e.pointer then none else some e) else t.value h := by
  rw [ht'.value_eq, ht.value_eq, hcount, ht.placed.entry_set hi]
  split
  · rw [‹handleToIndex h = i›]
    cases testFreePointer e.pointer with
    | true => exact if_neg fun hlive => Bool.false_ne_true hlive.2.symm
    | false => exact if_pos ⟨hi, rfl⟩
  · rfl

theorem sameElsewhere_set (ht' : Holds t' (b.set (handleToIndex h) e))
    (hcount : t'.countTableEntries = t.countTableEntries) (hi : handleToIndex h < t.countTableEntries) (hh : h < 4294967296) :
    SameElsewhere t t' h := by
  intro h' hh' hne
  rw [ht.value_set ht' hcount hi, if_neg fun heq => hne (handleToIndex_inj hh' hh heq)]

end

end Holds

/-! ### Creating handles -/

/-- The map got the value at a handle that was not live, or the result is `NULL` and the map is the same. -/
def Created (t : HandleTable log) (v : Entry log) (result : ℕ) (t' : HandleTable log) : Prop :=
  (result = 0 ∧ ∀ h, t'.value h = t.value h) ∨
  (0 < result ∧ result < 4294967296 ∧ t.value result = none ∧ t'.value result = some v ∧ SameElsewhere t t' result)

theorem Holds.takeFree (ht : Holds t b) (hv : testFreePointer v.pointer = false) (hfree : getFreePointer t.freeEntries ≠ 0) :
    ∃ result t' b', takeFree t v = .ok (result, t') ∧ Holds t' b' ∧ Created t v result t' := by
  have hne : t.freeEntries ≠ setFreePointer 0 := by
    intro heq
    rw [heq] at hfree
    exact hfree rfl
  obtain ⟨i, hi, hmarked, htag, hrest⟩ := ht.chain.pop ht.placed hne
  have hplace : getFreePointer t.freeEntries = b.place i := by
    rw [htag]
    exact getFreePointer_setFreePointer (ht.placed.two_dvd_place i)
  have hindex : sub32 (b.place i) b.address / 4 / 2 ^ log = i := by
    rw [← ht.placed.u32_place hi, ht.placed.sub32_place hi.le, Nat.div_div_eq_div_mul, bytes, pow_add, Nat.mul_comm (2 ^ log)]
    exact Nat.mul_div_cancel i (by positivity)
  have hlt : i < 4294967295 := hi.trans ht.placed.count_lt
  have hback := handleToIndex_indexToHandle hlt
  let t' : HandleTable log := { t with freeEntries := (b.entry i).pointer, tableEntries := some (b.set i v) }
  have ht' : Holds t' (b.set i v) :=
    { ht with
      block := rfl
      placed := ht.placed.set
      chain := by
        refine hrest.congr ht.placed ht.placed.set rfl (fun k _ hk => ?_) fun k _ => ?_
        · rw [ht.placed.entry_set hi, if_neg hk.2]
        · rw [ht.placed.entry_set hi]
          split
          · rw [hv]
            exact iff_of_false Bool.false_ne_true fun hk => hk.2 ‹_›
          · exact (and_iff_left ‹_›).symm }
  refine ⟨indexToHandle i, t', b.set i v, ?_, ht', .inr ⟨?_, ?_, ?_, ?_, ?_⟩⟩
  · unfold Handle.takeFree
    dsimp only
    rw [if_neg hfree, ht.block_eq, ok_bind, hplace, ht.placed.read_place hi, ok_bind, hindex, ht.placed.write_place hi, ok_bind]
    rfl
  · rw [indexToHandle_eq hlt]
    exact Nat.succ_pos i
  · rw [indexToHandle_eq hlt]
    omega
  · exact ht.value_of_free (by rw [hback]; exact hmarked)
  · rw [ht.value_set ht' rfl hi, if_pos hback, hv]
    rfl
  · refine ht.sameElsewhere_set (e := v) ?_ rfl ?_ ?_
    · rw [hback]
      exact ht'
    · rw [hback]
      exact hi
    · rw [indexToHandle_eq hlt]
      omega

/-- The table has a free entry, or cannot grow for lack of quota or memory, or has room to grow. -/
def GrowthFits (r : Supply log) (t : HandleTable log) : Prop :=
  getFreePointer t.freeEntries ≠ 0 ∨
  r.refuses t.processToChargeQuota (add32 t.countTableEntries t.countTableEntriesToGrowBy) = true ∨
  Fits log (t.countTableEntries + t.countTableEntriesToGrowBy)

instance (r : Supply log) (t : HandleTable log) : Decidable (GrowthFits r t) := inferInstanceAs (Decidable (_ ∨ _ ∨ _))

theorem Holds.grown (ht : Holds t b) {free : ℕ} (hempty : t.freeEntries = setFreePointer 0) (hcount : t.countTableEntries < n)
    (hb' : Placed b' n) (hmoved : ∀ i < t.countTableEntries, b'.entry i = b.entry i)
    (hchain : Chain b' n free fun i => t.countTableEntries ≤ i ∧ i < n)
    (ht' : t' = { t with countTableEntries := n, freeEntries := free, tableEntries := some b' }) :
    Holds t' b' ∧ getFreePointer t'.freeEntries ≠ 0 ∧ ∀ h, t'.value h = t.value h := by
  have hbusy : ∀ i < t.countTableEntries, testFreePointer (b.entry i).pointer = false :=
    fun i hi => Bool.eq_false_of_not_eq_true (ht.chain.not_mem ht.placed hempty hi)
  have hfree : ∀ i < n, testFreePointer (b'.entry i).pointer = true ↔ t.countTableEntries ≤ i ∧ i < n := by
    intro i hi
    constructor
    · intro hmarked
      refine ⟨not_lt.mp fun hlt => ?_, hi⟩
      rw [hmoved i hlt, hbusy i hlt] at hmarked
      exact Bool.false_ne_true hmarked
    · exact hchain.marked i hi
  subst ht'
  have hholds : Holds { t with countTableEntries := n, freeEntries := free, tableEntries := some b' } b' :=
    { ht with
      block := rfl
      placed := hb'
      chain := hchain.congr hb' hb' rfl (fun _ _ _ => rfl) hfree }
  refine ⟨hholds, fun hzero => ?_, fun h => ?_⟩
  · have hnil := eq_of_getFreePointer_eq_zero hchain.head hzero
    exact hchain.not_mem hb' hnil hcount ⟨le_rfl, hcount⟩
  · rw [hholds.value_eq, ht.value_eq]
    dsimp only
    by_cases hlt : handleToIndex h < t.countTableEntries
    · rw [hmoved _ hlt, hbusy _ hlt, if_pos ⟨hlt.trans hcount, rfl⟩, if_pos ⟨hlt, rfl⟩]
    · rw [if_neg (c := handleToIndex h < t.countTableEntries ∧ _) fun hlive => hlt hlive.1, if_neg]
      rintro ⟨hin, hlive⟩
      have hmarked := (hfree _ hin).mpr ⟨not_lt.mp hlt, hin⟩
      rw [hlive] at hmarked
      exact Bool.false_ne_true hmarked

theorem Holds.fits (ht : Holds t b) : Fits log t.countTableEntries := ht.placed.bytes_lt

variable {r : Supply log} {process : Bool} {count : ℕ}

theorem exCreateHandle_spec (ht : Holds t b) (hv : testFreePointer v.pointer = false) (hgrow : GrowthFits r t) :
    ∃ result t' b', exCreateHandle r t v = .ok (result, t') ∧ Holds t' b' ∧ Created t v result t' := by
  unfold exCreateHandle
  by_cases hfree : getFreePointer t.freeEntries = 0
  case neg =>
    rw [if_neg hfree]
    exact ht.takeFree hv hfree
  rw [if_pos hfree]
  dsimp only
  have hcount := ht.placed.count_lt
  cases hrefuses : r.refuses t.processToChargeQuota (add32 t.countTableEntries t.countTableEntriesToGrowBy) with
  | true =>
    obtain ⟨x, hx⟩ := allocateHandleTableEntries_refused (r := r)
      (t := { t with countTableEntries := add32 t.countTableEntries t.countTableEntriesToGrowBy })
      hrefuses
    rw [hx, ok_bind]
    -- what the failed growth added to the count is taken off again
    have hback : sub32 (add32 t.countTableEntries t.countTableEntriesToGrowBy) t.countTableEntriesToGrowBy =
      t.countTableEntries := by
      have hlt := ht.grow_lt
      unfold sub32 add32
      omega
    refine ⟨0, t, b, ?_, ht, .inl ⟨rfl, fun _ => rfl⟩⟩
    dsimp only
    rw [if_neg Bool.false_ne_true, hback]
    rfl
  | false =>
    have hfits : Fits log (t.countTableEntries + t.countTableEntriesToGrowBy) := by
      rcases hgrow with hgrow | hgrow | hgrow
      · exact absurd hfree hgrow
      · rw [hrefuses] at hgrow
        exact absurd hgrow Bool.false_ne_true
      · exact hgrow
    have hpos := ht.grow_pos
    have hsum : add32 t.countTableEntries t.countTableEntriesToGrowBy = t.countTableEntries + t.countTableEntriesToGrowBy := by
      exact add32_of_lt ((le_bytes _).trans_lt hfits)
    have hempty := eq_of_getFreePointer_eq_zero ht.chain.head hfree
    rw [hsum] at hrefuses ⊢
    obtain ⟨b', free, halloc, hb', hmoved, hchain⟩ := allocateHandleTableEntries_fits (r := r)
      (t := { t with countTableEntries := t.countTableEntries + t.countTableEntriesToGrowBy })
      t.tableEntries t.countTableEntries hrefuses hfits hempty (Nat.le_add_right _ _)
      (fun hnone => by rw [ht.block] at hnone; cases hnone)
      (fun ob hob => by rw [ht.block] at hob; obtain rfl := Option.some.inj hob; exact ht.placed)
    obtain ⟨ht₁, hfree₁, hsame⟩ := ht.grown hempty (Nat.lt_add_of_pos_right hpos) hb' (hmoved b ht.block) hchain rfl
    obtain ⟨result, t', b'', htake, ht', hcreated⟩ := ht₁.takeFree hv hfree₁
    rw [halloc, ok_bind]
    dsimp only
    rw [if_pos rfl]
    refine ⟨result, t', b'', htake, ht', ?_⟩
    rcases hcreated with ⟨hzero, hunchanged⟩ | ⟨hpos, hlt, hnew, hvalue, helse⟩
    · exact .inl ⟨hzero, fun h => (hunchanged h).trans (hsame h)⟩
    · exact .inr ⟨hpos, hlt, by rw [← hsame]; exact hnew, hvalue, fun h hh hne => (helse h hh hne).trans (hsame h)⟩

theorem exCreateHandle_error (ht : Holds t b) (hgrow : ¬GrowthFits r t) : ∃ f, exCreateHandle r t v = .error f := by
  rw [GrowthFits, not_or, not_or, not_not, Bool.not_eq_true] at hgrow
  obtain ⟨hfree, hgranted, hfits⟩ := hgrow
  obtain ⟨f, hf⟩ := allocateHandleTableEntries_error (r := r)
    (t := { t with countTableEntries := add32 t.countTableEntries t.countTableEntriesToGrowBy })
    hgranted hfits ht.fits ht.grow_lt rfl
  unfold exCreateHandle
  rw [if_pos hfree]
  dsimp only
  rw [hf]
  exact ⟨f, rfl⟩

/-! ### The other routines on handles -/

/-- **The lookup** that they begin with: they leave at once unless the handle is live. -/
theorem Holds.lookup (ht : Holds t b) {β : Type} {absent result : Except Fault β} {live : Block log → Entry log → Except Fault β}
    (heq : (if handleToIndex h < t.countTableEntries then do
        let b ← t.block
        let e ← b.read (entryAddress b (handleToIndex h))
        if testFreePointer e.pointer then absent else live b e
      else absent) = result) :
    t.value h = none ∧ result = absent ∨
      handleToIndex h < t.countTableEntries ∧ testFreePointer (b.entry (handleToIndex h)).pointer = false ∧
        result = live b (b.entry (handleToIndex h)) := by
  subst heq
  by_cases hi : handleToIndex h < t.countTableEntries
  case neg => exact .inl ⟨ht.value_of_le hi, if_neg hi⟩
  rw [if_pos hi, ht.block_eq, ok_bind, ht.placed.entryAddress_eq hi, ht.placed.read_place hi, ok_bind]
  cases hfree : testFreePointer (b.entry (handleToIndex h)).pointer with
  | true => exact .inl ⟨ht.value_of_free hfree, rfl⟩
  | false => exact .inr ⟨hi, rfl, rfl⟩

/-- The handle is taken out of the map; the result says whether it was live. -/
def Destroyed (t : HandleTable log) (h : ℕ) (result : Bool) (t' : HandleTable log) : Prop :=
  result = (t.value h).isSome ∧ t'.value h = none ∧ SameElsewhere t t' h

theorem exDestroyHandle_spec (ht : Holds t b) (hh : h < 4294967296) :
    ∃ result t' b', exDestroyHandle t h = .ok (result, t') ∧ Holds t' b' ∧ Destroyed t h result t' := by
  obtain ⟨hnone, hcall⟩ | ⟨hi, hfree, hcall⟩ := ht.lookup (Eq.refl (exDestroyHandle t h))
  · exact ⟨false, t, b, hcall, ht, by rw [hnone]; rfl, hnone, fun _ _ _ => rfl⟩
  · rw [ht.placed.entryAddress_eq hi, ht.placed.pushFree_place hi, ok_bind] at hcall
    let e : Entry log := { b.entry (handleToIndex h) with pointer := t.freeEntries }
    let t' : HandleTable log := { t with
      freeEntries := b.tag (handleToIndex h)
      tableEntries := some (b.set (handleToIndex h) e) }
    have ht' : Holds t' (b.set (handleToIndex h) e) :=
      { ht with
        block := rfl
        placed := ht.placed.set
        chain := by
          have hpush := ht.chain.push ht.placed hi (by rw [hfree]; exact Bool.false_ne_true)
          refine hpush.congr ht.placed.set ht.placed.set rfl (fun _ _ _ => rfl) fun k _ => ?_
          rw [ht.placed.entry_set hi]
          split
          · exact iff_of_true ht.chain.head (.inl ‹_›)
          · exact (or_iff_right ‹_›).symm }
    refine ⟨true, t', _, hcall, ht', ?_, ?_, ht.sameElsewhere_set ht' rfl hi hh⟩
    · rw [ht.value_of_live hi hfree]
      rfl
    · rw [ht.value_set ht' rfl hi, if_pos rfl, ht.chain.head]
      rfl

/-- A live handle has the value that the routine gave it. -/
def Changed (t : HandleTable log) (h : ℕ) (changeRoutine : Entry log → Bool × Entry log) (result : Bool) (t' : HandleTable log) :
    Prop :=
  result = ((t.value h).map fun e => (changeRoutine e).1).getD false ∧
  t'.value h = (t.value h).map (fun e => (changeRoutine e).2) ∧ SameElsewhere t t' h

theorem exChangeHandle_spec {changeRoutine : Entry log → Bool × Entry log} (ht : Holds t b) (hh : h < 4294967296)
    (hroutine : ∀ e, testFreePointer e.pointer = false → testFreePointer (changeRoutine e).2.pointer = false) :
    ∃ result t' b', exChangeHandle t h changeRoutine = .ok (result, t') ∧ Holds t' b' ∧ Changed t h changeRoutine result t' := by
  obtain ⟨hnone, hcall⟩ | ⟨hi, hfree, hcall⟩ := ht.lookup (Eq.refl (exChangeHandle t h changeRoutine))
  · exact ⟨false, t, b, hcall, ht, by rw [hnone]; rfl, by rw [hnone]; rfl, fun _ _ _ => rfl⟩
  · rw [ht.placed.entryAddress_eq hi, ht.placed.write_place hi, ok_bind] at hcall
    generalize hchanged : changeRoutine (b.entry (handleToIndex h)) = changed at hcall
    have hlow : testFreePointer changed.2.pointer = false := by
      rw [← hchanged]
      exact hroutine _ hfree
    let t' : HandleTable log := { t with tableEntries := some (b.set (handleToIndex h) changed.2) }
    have ht' : Holds t' (b.set (handleToIndex h) changed.2) :=
      { ht with
        block := rfl
        placed := ht.placed.set
        chain := by
          refine ht.chain.congr ht.placed ht.placed.set rfl (fun k _ hk => ?_) fun k _ => ?_
          · rw [ht.placed.entry_set hi, if_neg]
            intro heq
            rw [heq, hfree] at hk
            exact Bool.false_ne_true hk
          · rw [ht.placed.entry_set hi]
            split
            · rw [hlow, ‹k = _›, hfree]
            · rfl }
    have hvalue := ht.value_of_live hi hfree
    refine ⟨changed.1, t', _, hcall, ht', ?_, ?_, ht.sameElsewhere_set ht' rfl hi hh⟩
    · rw [hvalue, map_some, getD_some, hchanged]
    · rw [ht.value_set ht' rfl hi, if_pos rfl, hlow, hvalue, map_some, hchanged]
      rfl

/-- The pointer that a live handle maps to: its value in a table of one-word entries, else where its entry is. -/
def Mapped (t : HandleTable log) (h pointer : ℕ) : Prop :=
  (pointer = 0 ↔ t.value h = none) ∧
  ∀ e, t.value h = some e → if log = 0 then pointer = e.pointer else ∃ b, t.tableEntries = some b ∧ b.read pointer = .ok e

/-- What `ExMapHandleToPointer` returns is right, unless it is the value 0 of a live handle. -/
theorem exMapHandleToPointer_spec (ht : Holds t b) :
    ∃ pointer, exMapHandleToPointer t h = .ok pointer ∧
      (Mapped t h pointer ↔ (log = 0 → ∀ e, t.value h = some e → e.pointer ≠ 0)) := by
  unfold Mapped
  obtain ⟨hnone, hcall⟩ | ⟨hi, hfree, hcall⟩ := ht.lookup (Eq.refl (exMapHandleToPointer t h))
  · rw [hnone]
    exact ⟨0, hcall, iff_of_true ⟨iff_of_true rfl rfl, fun e he => (some_ne_none e he.symm).elim⟩
      fun _ e he => (some_ne_none e he.symm).elim⟩
  · rw [ht.value_of_live hi hfree]
    by_cases hlog : log = 0
    · rw [if_pos hlog] at hcall
      refine ⟨_, hcall, ?_⟩
      constructor
      · rintro ⟨hiff, -⟩ - e he hzero
        rw [Option.some.inj he, hzero] at hiff
        exact some_ne_none e (hiff.mp rfl)
      · intro hnonzero
        refine ⟨iff_of_false (hnonzero hlog _ rfl) (some_ne_none _), fun e he => ?_⟩
        rw [if_pos hlog, Option.some.inj he]
    · rw [if_neg hlog, ht.placed.entryAddress_eq hi] at hcall
      refine ⟨_, hcall, iff_of_true ⟨iff_of_false ?_ (some_ne_none _), fun e he => ?_⟩ fun hzero => absurd hzero hlog⟩
      · exact Nat.ne_of_gt (Nat.add_pos_left ht.placed.pos _)
      · rw [if_neg hlog, ← Option.some.inj he]
        exact ⟨b, ht.block, ht.placed.read_place hi⟩

/-! ### Enumeration -/

/-- A list visited from the front until the procedure says so: where it did, and what was visited. -/
def visitUntil (stop : List ℕ → ℕ → Bool) : List ℕ → List ℕ → Option ℕ × List ℕ
  | seen, [] => (none, seen)
  | seen, h :: hs => if stop seen h then (some h, seen ++ [h]) else visitUntil stop (seen ++ [h]) hs

/-- What the procedure answers for the entry of a live handle. -/
def answer (t : HandleTable log) (procedure : List ℕ → Entry log → ℕ → Bool) (seen : List ℕ) (h : ℕ) : Bool :=
  match t.value h with
  | some e => procedure seen e h
  | none => false

/-- The live handles in ascending order. -/
def Ascending (t : HandleTable log) (hs : List ℕ) : Prop :=
  hs.Pairwise (· < ·) ∧ ∀ h, h ∈ hs ↔ h < 4294967296 ∧ (t.value h).isSome

/-- The procedure is called for the live handles in ascending order until it says to stop. -/
def Enumerated (t : HandleTable log) (procedure : List ℕ → Entry log → ℕ → Bool) (result : Option ℕ × List ℕ) : Prop :=
  ∃ hs, Ascending t hs ∧ result = visitUntil (answer t procedure) [] hs

/-- The handles of the allocated ones among `k` entries. -/
def liveHandles (b : Block log) (j k : ℕ) : List ℕ :=
  ((List.range' j k).filter fun i => !testFreePointer (b.entry i).pointer).map (· + 1)

theorem liveHandles_succ : liveHandles b j (k + 1) =
    if testFreePointer (b.entry j).pointer then liveHandles b (j + 1) k else (j + 1) :: liveHandles b (j + 1) k := by
  unfold liveHandles
  rw [List.range'_succ, List.filter_cons]
  cases testFreePointer (b.entry j).pointer with
  | true => rfl
  | false => rfl

theorem Holds.value_succ (ht : Holds t b) (hj : j < t.countTableEntries) (hfree : testFreePointer (b.entry j).pointer = false) :
    t.value (j + 1) = some (b.entry j) := by
  have hlt := hj.trans ht.placed.count_lt
  have hvalue := ht.value_of_live (h := indexToHandle j)
  rw [handleToIndex_indexToHandle hlt, indexToHandle_eq hlt] at hvalue
  exact hvalue hj hfree

theorem enumEntries_spec {procedure : List ℕ → Entry log → ℕ → Bool} {seen : List ℕ} (ht : Holds t b)
    (hjk : j + k = t.countTableEntries) :
    enumEntries procedure b k j (u32 (b.place j)) seen = .ok (visitUntil (answer t procedure) seen (liveHandles b j k)) := by
  induction k generalizing j seen with
  | zero => rfl
  | succ k ih =>
    have hj : j < t.countTableEntries := by omega
    have hlt := hj.trans ht.placed.count_lt
    rw [enumEntries, ht.placed.u32_place hj, ht.placed.read_place hj, ok_bind, liveHandles_succ, ← ht.placed.u32_place hj,
      Block.add32_place, indexToHandle_eq hlt]
    cases hfree : testFreePointer (b.entry j).pointer with
    | true => exact ih (by omega)
    | false =>
      have hanswer : answer t procedure seen (j + 1) = procedure seen (b.entry j) (j + 1) := by
        rw [answer, ht.value_succ hj hfree]
      rw [if_neg Bool.false_ne_true, if_neg Bool.false_ne_true, visitUntil, hanswer]
      split
      · rfl
      · exact ih (by omega)

theorem Holds.ascending (ht : Holds t b) : Ascending t (liveHandles b 0 t.countTableEntries) := by
  have hcount := ht.placed.count_lt
  constructor
  · refine List.Pairwise.map _ (fun _ _ hlt => Nat.succ_lt_succ hlt) (List.Pairwise.filter _ ?_)
    exact List.pairwise_lt_range'
  · intro h
    rw [liveHandles, List.mem_map]
    constructor
    · rintro ⟨i, hmem, rfl⟩
      rw [List.mem_filter, List.mem_range'_1, Bool.not_eq_true'] at hmem
      refine ⟨by omega, ?_⟩
      rw [ht.value_succ (by omega) hmem.2]
      rfl
    · rintro ⟨hh, hlive⟩
      rw [ht.value_eq] at hlive
      split at hlive
      · obtain ⟨hi, hbusy⟩ := ‹_ ∧ _›
        refine ⟨handleToIndex h, ?_, (handleToIndex_eq hh (hi.trans hcount)).symm⟩
        rw [List.mem_filter, List.mem_range'_1, hbusy]
        exact ⟨⟨Nat.zero_le _, by omega⟩, rfl⟩
      · cases hlive

theorem exEnumHandleTable_spec {procedure : List ℕ → Entry log → ℕ → Bool} (ht : Holds t b) :
    ∃ result, exEnumHandleTable t procedure = .ok result ∧ Enumerated t procedure result := by
  refine ⟨_, ?_, liveHandles b 0 t.countTableEntries, ht.ascending, rfl⟩
  unfold exEnumHandleTable
  rw [ht.block_eq, ok_bind, ← enumEntries_spec ht (Nat.zero_add _), ht.placed.u32_place_zero]

/-! ### Creating and duplicating tables -/

/-- The header of a new table is refused. -/
def Supply.refusesHeader (r : Supply log) (process : Bool) : Bool := !r.header || (process && !r.headerQuota)

theorem allocateHandleTable_refused {growBy : ℕ} (h : r.refusesHeader process = true) :
    allocateHandleTable r process count growBy = none := by
  unfold Supply.refusesHeader at h
  unfold allocateHandleTable
  cases hheader : r.header with
  | false => rfl
  | true =>
    rw [hheader] at h
    rw [if_pos rfl]
    exact if_pos h

theorem allocateHandleTable_granted {growBy : ℕ} (h : r.refusesHeader process = false) :
    allocateHandleTable r process count growBy = some
      { processToChargeQuota := process
        countTableEntries := count
        countTableEntriesToGrowBy := growBy
        freeEntries := setFreePointer 0
        tableEntries := none } := by
  unfold Supply.refusesHeader at h
  rw [Bool.or_eq_false_iff, Bool.not_eq_false'] at h
  unfold allocateHandleTable
  rw [if_pos h.1, h.2]
  rfl

/-- The header or the entries of a new table are refused, or the entries fit. -/
def InitialFits (r : Supply log) (process : Bool) (count : ℕ) : Prop :=
  r.refusesHeader process = true ∨ r.refuses process count = true ∨ Fits log count

instance (r : Supply log) (process : Bool) (count : ℕ) : Decidable (InitialFits r process count) :=
  inferInstanceAs (Decidable (_ ∨ _ ∨ _))

theorem countOrDefault_pos (smallSystem : Bool) (count : ℕ) : 0 < countOrDefault smallSystem count := by
  unfold countOrDefault expDefaultHandleTable
  split_ifs <;> omega

theorem countOrDefault_lt (smallSystem : Bool) (h : count < 4294967296) : countOrDefault smallSystem count < 4294967296 := by
  unfold countOrDefault expDefaultHandleTable
  split_ifs <;> omega

section CreateTable

variable {smallSystem process : Bool} {r : Supply log} {initial growBy : ℕ}

theorem exCreateHandleTable_spec (hgrowBy : growBy < 4294967296)
    (hfits : InitialFits r process (countOrDefault smallSystem initial)) :
    ∃ result, exCreateHandleTable smallSystem r process initial growBy = .ok result ∧
      ∀ t, result = some t → (∃ b, Holds t b) ∧ ∀ h, t.value h = none := by
  unfold exCreateHandleTable
  cases hheader : r.refusesHeader process with
  | true =>
    rw [allocateHandleTable_refused hheader]
    exact ⟨none, rfl, fun t ht => (some_ne_none t ht.symm).elim⟩
  | false =>
    rw [allocateHandleTable_granted hheader]
    dsimp only
    cases hrefuses : r.refuses process (countOrDefault smallSystem initial) with
    | true =>
      obtain ⟨x, hx⟩ := allocateHandleTableEntries_refused (r := r)
        (t := ⟨process, countOrDefault smallSystem initial, countOrDefault smallSystem growBy, setFreePointer 0, none⟩) hrefuses
      rw [hx, ok_bind]
      exact ⟨none, rfl, fun t ht => (some_ne_none t ht.symm).elim⟩
    | false =>
      have hsize : Fits log (countOrDefault smallSystem initial) := by
        rcases hfits with hfits | hfits | hfits
        · rw [hheader] at hfits
          exact absurd hfits Bool.false_ne_true
        · rw [hrefuses] at hfits
          exact absurd hfits Bool.false_ne_true
        · exact hfits
      obtain ⟨b, free, halloc, hb, -, hchain⟩ := allocateHandleTableEntries_fits (r := r)
        (t := ⟨process, countOrDefault smallSystem initial, countOrDefault smallSystem growBy, setFreePointer 0, none⟩)
        none 0 hrefuses hsize rfl (Nat.zero_le _) (fun _ => rfl) (fun ob hob => (some_ne_none ob hob.symm).elim)
      rw [halloc, ok_bind]
      refine ⟨_, rfl, fun t ht => ?_⟩
      obtain rfl := Option.some.inj ht
      have hmarked := fun i hi => hchain.marked i hi ⟨Nat.zero_le i, hi⟩
      refine and_iff_left_of_imp ?_ |>.mpr ⟨b, rfl, hb, ?_, countOrDefault_pos _ _, countOrDefault_lt _ hgrowBy⟩
      · rintro ⟨b', hb'⟩ h
        rw [hb'.value_eq]
        refine if_neg fun hlive => ?_
        obtain rfl := Option.some.inj hb'.block
        rw [hmarked _ hlive.1] at hlive
        exact Bool.false_ne_true hlive.2.symm
      · exact hchain.congr hb hb rfl (fun _ _ _ => rfl) fun i hi => iff_of_true (hmarked i hi) ⟨Nat.zero_le i, hi⟩

variable (growBy) in
theorem exCreateHandleTable_error (hinitial : initial < 4294967296)
    (hfits : ¬InitialFits r process (countOrDefault smallSystem initial)) :
    ∃ f, exCreateHandleTable smallSystem r process initial growBy = .error f := by
  rw [InitialFits, not_or, not_or, Bool.not_eq_true, Bool.not_eq_true] at hfits
  obtain ⟨hheader, hgranted, hover⟩ := hfits
  have hcount := countOrDefault_lt smallSystem hinitial
  obtain ⟨f, hf⟩ := allocateHandleTableEntries_error (r := r)
    (t := ⟨process, countOrDefault smallSystem initial, countOrDefault smallSystem growBy, setFreePointer 0, none⟩)
    hgranted (by rwa [Nat.zero_add]) (by rw [Fits, bytes_zero]; omega) hcount (by rw [Nat.zero_add, u32_of_lt hcount])
  unfold exCreateHandleTable
  rw [allocateHandleTable_granted hheader]
  dsimp only
  rw [hf]
  exact ⟨f, rfl⟩

end CreateTable

/-- The duplicate has the entries that the procedure accepts, under the same handles. -/
def Duplicated (t : HandleTable log) (procedure : Option (Entry log → Bool)) (t' : HandleTable log) : Prop :=
  ∀ h, t'.value h = (t.value h).filter (dupOkay procedure)

/-- A block with the entries that were not dropped, as the block of a table. -/
theorem Holds.duplicated (ht : Holds t b) {procedure : Option (Entry log → Bool)} {c : Block log} {free : ℕ}
    (hb' : Placed b' t.countTableEntries) (hc : ∀ i < t.countTableEntries, c.entry i = b.entry i)
    (hchain : Chain b' t.countTableEntries free fun i => dropped procedure (c.entry i) = true)
    (hkept : ∀ i < t.countTableEntries, dropped procedure (c.entry i) = false → b'.entry i = c.entry i)
    (ht' : t' = ⟨process, t.countTableEntries, t.countTableEntriesToGrowBy, free, some b'⟩) :
    Holds t' b' ∧ Duplicated t procedure t' := by
  have hmarked : ∀ i < t.countTableEntries, testFreePointer (b'.entry i).pointer = dropped procedure (b.entry i) := by
    intro i hi
    cases hd : dropped procedure (c.entry i) with
    | true =>
      rw [← hc i hi, hd]
      exact hchain.marked i hi hd
    | false =>
      have hfalse := hd
      rw [dropped, Bool.or_eq_false_iff] at hfalse
      rw [hkept i hi hd, ← hc i hi, hd]
      exact hfalse.1
  subst ht'
  have hholds : Holds ⟨process, t.countTableEntries, t.countTableEntriesToGrowBy, free, some b'⟩ b' :=
    { ht with
      block := rfl
      placed := hb'
      chain := hchain.congr hb' hb' rfl (fun _ _ _ => rfl) fun i hi => by rw [hmarked i hi, hc i hi] }
  refine ⟨hholds, fun h => ?_⟩
  rw [hholds.value_eq, ht.value_eq]
  dsimp only
  by_cases hi : handleToIndex h < t.countTableEntries
  case neg =>
    rw [if_neg fun hlive => hi hlive.1, if_neg fun hlive => hi hlive.1]
    rfl
  rw [hmarked _ hi]
  cases hd : dropped procedure (b.entry (handleToIndex h)) with
  | true =>
    rw [if_neg fun hlive => Bool.false_ne_true hlive.2.symm]
    split
    case isTrue hlive =>
      rw [dropped, hlive.2, Bool.false_or, Bool.not_eq_true'] at hd
      rw [filter_some, hd]
      rfl
    case isFalse => rfl
  | false =>
    have hkeep := hkept _ hi (by rw [hc _ hi]; exact hd)
    rw [dropped, Bool.or_eq_false_iff, Bool.not_eq_false'] at hd
    rw [if_pos ⟨hi, rfl⟩, if_pos ⟨hi, hd.1⟩, filter_some, hd.2, hkeep, hc _ hi]
    rfl

theorem exDupHandleTable_spec {procedure : Option (Entry log → Bool)} (ht : Holds t b) :
    ∃ result, exDupHandleTable r process t procedure = .ok result ∧
      ∀ t', result = some t' → (∃ b', Holds t' b') ∧ Duplicated t procedure t' := by
  have hnull : ∀ t', none = some t' → (∃ b', Holds t' b') ∧ Duplicated t procedure t' :=
    fun t' ht' => (some_ne_none t' ht'.symm).elim
  unfold exDupHandleTable
  cases hheader : r.refusesHeader process with
  | true =>
    rw [allocateHandleTable_refused hheader]
    exact ⟨none, rfl, hnull⟩
  | false =>
    rw [allocateHandleTable_granted hheader]
    dsimp only
    split
    · exact ⟨none, rfl, hnull⟩
    · cases halloc : r.alloc (u32 (bytes log t.countTableEntries)) with
      | none => exact ⟨none, rfl, hnull⟩
      | some b₀ =>
        have hb₀ := r.placed halloc
        rw [u32_of_lt ht.fits, bytes_div_bytes_one] at hb₀
        obtain ⟨c, hmove, hc, -, hmoved, -⟩ := hb₀.moveMemory ht.placed.length le_rfl
        obtain ⟨b', free, hloop, hb', hchain, hkept⟩ := dupEntries_spec (c := c) hc (Nat.zero_add _)
          (Chain.of_none.congr hc hc rfl (fun _ _ hF => hF.elim) fun i _ =>
            ⟨fun hF => absurd hF.1 (Nat.not_lt_zero i), False.elim⟩)
          (fun _ _ _ => rfl)
        obtain ⟨ht', hdup⟩ := ht.duplicated hb' hmoved hchain hkept rfl
        rw [hc.u32_place_zero] at hloop
        dsimp only
        rw [ht.block_eq, ok_bind, u32_of_lt ht.fits, hmove, ok_bind, hloop, ok_bind]
        refine ⟨_, rfl, fun t' heq => ?_⟩
        obtain rfl := Option.some.inj heq
        exact ⟨⟨b', ht'⟩, hdup⟩

end Nt365.Ex.Handle
