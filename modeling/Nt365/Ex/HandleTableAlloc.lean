import Nt365.Ex.HandleTableChain

/-!
# Allocation of the entries of a handle table

What `AllocateHandleTableEntries` and the loop of `ExDupHandleTable` do. The entries fit if their bytes do not
exceed a word; then the new block holds the old entries and a chain through the others. If they do not fit the number
of bytes wraps around, the block is too small, and writing the chain leaves it.
-/

namespace Nt365.Ex.Handle

open Nt365.Library

variable {log : ℕ} {b b' : Block log} {n m i j k lo free : ℕ}

/-- The bytes of so many entries are a word. -/
def Fits (log count : ℕ) : Prop := bytes log count < 4294967296

instance (log count : ℕ) : Decidable (Fits log count) := inferInstanceAs (Decidable (_ < _))

/-- The quota or the memory for so many entries is refused. -/
def Supply.refuses (r : Supply log) (process : Bool) (count : ℕ) : Bool :=
  (process && !r.quota) || (r.alloc (u32 (bytes log count))).isNone

/-! ### Moving memory -/

theorem zeroMemory_eq_ok {offset size : ℕ} (h : b.zeroMemory offset size = .ok b') :
    offset + size ≤ bytes log b.entries.length ∧ b'.address = b.address ∧ b'.entries.length = b.entries.length := by
  unfold Block.zeroMemory at h
  split at h
  · obtain rfl := Except.ok.inj h
    exact ⟨‹_›, rfl, List.length_mapIdx⟩
  · cases h

theorem zeroMemory_of_le {offset size : ℕ} (h : offset + size ≤ bytes log b.entries.length) :
    ∃ b', b.zeroMemory offset size = .ok b' := by
  unfold Block.zeroMemory
  rw [if_pos h]
  exact ⟨_, rfl⟩

theorem Placed.of_eq (hb : Placed b n) (haddress : b'.address = b.address) (hlength : b'.entries.length = b.entries.length) :
    Placed b' n where
  length := hlength.trans hb.length
  pos := haddress ▸ hb.pos
  lt := haddress ▸ hb.lt
  aligned := haddress ▸ hb.aligned
  below := haddress ▸ hb.below

theorem Placed.moveMemory {source : Block log} (hb : Placed b n) (hsource : source.entries.length = m) (hm : m ≤ n) :
    ∃ b', b.moveMemory source (bytes log m) = .ok b' ∧ Placed b' n ∧ b'.address = b.address ∧
      (∀ i < m, b'.entry i = source.entry i) ∧ ∀ i < n, m ≤ i → b'.entry i = b.entry i := by
  unfold Block.moveMemory
  rw [hb.length, hsource, if_pos ⟨bytes_le_bytes.mpr hm, le_rfl⟩]
  have hentry : ∀ i < n, ({ b with entries := b.entries.mapIdx fun i e => if bytes log i < bytes log m then source.entry i
    else e } : Block log).entry i
      = if i < m then source.entry i else b.entry i := by
    intro i hi
    unfold Block.entry
    simp only [List.getD_eq_getElem?_getD, List.getElem?_mapIdx, bytes_lt_bytes]
    rw [List.getElem?_eq_getElem (l := b.entries) (by rw [hb.length]; exact hi)]
    rfl
  refine ⟨_, rfl, hb.of_eq rfl List.length_mapIdx, rfl, fun i hi => ?_, fun i hi hmi => ?_⟩
  · rw [hentry i (by omega), if_pos hi]
  · rw [hentry i hi, if_neg (by omega)]

/-! ### The loops -/

theorem threadEntries_spec (hb : Placed b n) (hchain : Chain b n free fun i => lo ≤ i ∧ i < j) (hlo : lo ≤ j) (hjk : j + k ≤ n) :
    ∃ b' free', threadEntries k (u32 (b.place j)) b free = .ok (b', free') ∧ Placed b' n ∧ b'.address = b.address ∧
      Chain b' n free' fun i => lo ≤ i ∧ i < j + k := by
  induction k generalizing j b free with
  | zero => exact ⟨b, free, rfl, hb, rfl, hchain⟩
  | succ k ih =>
    have hj : j < n := by omega
    have hb₁ : Placed (b.set j { b.entry j with pointer := free }) n := hb.set
    have hchain₁ := hchain.push hb hj (by omega)
    obtain ⟨b', free', hloop, hb', haddress, hchain'⟩ := ih (j := j + 1) hb₁
      (hchain₁.congr hb₁ hb₁ rfl (fun _ _ _ => rfl) (fun i _ => by omega)) (by omega) (by omega)
    refine ⟨b', free', ?_, hb', haddress, ?_⟩
    · rw [threadEntries, hb.u32_place hj, hb.pushFree_place hj, ok_bind]
      dsimp only
      rw [← hb.u32_place hj, Block.add32_place]
      exact hloop
    · rwa [Nat.add_right_comm, Nat.add_assoc] at hchain'

theorem threadEntries_error (hb : Placed b n) (hj : j ≤ n) (hjk : n < j + k) :
    ∃ f, threadEntries k (u32 (b.place j)) b free = .error f := by
  induction k generalizing j b free with
  | zero => omega
  | succ k ih =>
    rw [threadEntries]
    by_cases hend : j = n
    · subst hend
      unfold Block.pushFree Block.read
      rw [hb.index_place_length]
      exact ⟨_, rfl⟩
    · have hlt : j < n := by omega
      rw [hb.u32_place hlt, hb.pushFree_place hlt, ok_bind]
      dsimp only
      rw [← hb.u32_place hlt, Block.add32_place]
      exact ih (j := j + 1) hb.set (by omega) (by omega)

/-- Whether a copied entry is put on the free list: it is free, or the procedure does not accept it. -/
def dropped (procedure : Option (Entry log → Bool)) (e : Entry log) : Bool :=
  testFreePointer e.pointer || !dupOkay procedure e

/-- The loop of `ExDupHandleTable`, with the entries of `c` copied and the first `j` seen. -/
theorem dupEntries_spec {procedure : Option (Entry log → Bool)} {c : Block log} (hb : Placed b n) (hjk : j + k = n)
    (hchain : Chain b n free fun i => i < j ∧ dropped procedure (c.entry i) = true)
    (hkept : ∀ i < n, ¬(i < j ∧ dropped procedure (c.entry i) = true) → b.entry i = c.entry i) :
    ∃ b' free', dupEntries procedure k (u32 (b.place j)) b free = .ok (b', free') ∧ Placed b' n ∧
      (Chain b' n free' fun i => dropped procedure (c.entry i) = true) ∧
      ∀ i < n, dropped procedure (c.entry i) = false → b'.entry i = c.entry i := by
  induction k generalizing j b free with
  | zero =>
    obtain rfl : j = n := hjk
    refine ⟨b, free, rfl, hb, hchain.congr hb hb rfl (fun _ _ _ => rfl) fun i hi => ?_, fun i hi hd => hkept i hi ?_⟩
    · exact (and_iff_right hi).symm
    · rw [hd]
      exact fun h => Bool.false_ne_true h.2
  | succ k ih =>
    have hj : j < n := by omega
    have hentry : b.entry j = c.entry j := hkept j hj fun h => lt_irrefl j h.1
    rw [dupEntries, hb.u32_place hj, hb.read_place hj, ok_bind]
    dsimp only
    rw [hentry, ← dropped]
    have hsplit : ∀ i, (i < j + 1 ∧ dropped procedure (c.entry i) = true) ↔
        (i = j ∧ dropped procedure (c.entry j) = true) ∨ (i < j ∧ dropped procedure (c.entry i) = true) := by
      intro i
      rw [Nat.lt_succ_iff_lt_or_eq, or_and_right, or_comm]
      refine or_congr (and_congr_right ?_) Iff.rfl
      rintro rfl
      rfl
    cases hd : dropped procedure (c.entry j) with
    | true =>
      rw [if_pos rfl, hb.pushFree_place hj, ok_bind]
      dsimp only
      rw [← hb.u32_place hj, Block.add32_place]
      have hb₁ : Placed (b.set j { b.entry j with pointer := free }) n := hb.set
      refine ih (j := j + 1) hb₁ (by omega) ?_ ?_
      · refine (hchain.push hb hj fun h => lt_irrefl j h.1).congr hb₁ hb₁ rfl (fun _ _ _ => rfl) fun i _ => ?_
        rw [hsplit, hd, and_iff_left rfl]
      · intro i hi hnot
        rw [hsplit, hd, and_iff_left rfl, not_or] at hnot
        rw [hb.entry_set hj, if_neg hnot.1]
        exact hkept i hi hnot.2
    | false =>
      have hsame : ∀ i, (i < j + 1 ∧ dropped procedure (c.entry i) = true) ↔ (i < j ∧ dropped procedure (c.entry i) = true) := by
        intro i
        rw [hsplit, hd, or_iff_right (fun h => Bool.false_ne_true h.2)]
      rw [if_neg Bool.false_ne_true, ok_bind]
      dsimp only
      rw [← hb.u32_place hj, Block.add32_place]
      refine ih (j := j + 1) hb (by omega) ?_ ?_
      · exact hchain.congr hb hb rfl (fun _ _ _ => rfl) fun i _ => hsame i
      · intro i hi hnot
        exact hkept i hi (by rwa [hsame] at hnot)

/-! ### Allocation -/

theorem Supply.placed (r : Supply log) {size : ℕ} (h : r.alloc size = some b) : Placed b (size / bytes log 1) := by
  obtain ⟨hpos, hlt, haligned, hbelow, hlength⟩ := r.alloc_sound size b h
  refine ⟨hlength, hpos, hlt, haligned, ?_⟩
  have hle : bytes log (size / bytes log 1) ≤ size := by
    rw [bytes_eq]
    exact Nat.div_mul_le_self size _
  omega

theorem allocateHandleTableEntries_refused {r : Supply log} {t : HandleTable log} {old : Option (Block log)} {oldCount : ℕ}
    (h : r.refuses t.processToChargeQuota t.countTableEntries = true) :
    ∃ x, allocateHandleTableEntries r t old oldCount = .ok (false, { t with tableEntries := x }) := by
  unfold allocateHandleTableEntries
  dsimp only
  split
  · exact ⟨t.tableEntries, rfl⟩
  · rw [Supply.refuses, Bool.or_eq_true, or_iff_right ‹_›, Option.isNone_iff_eq_none] at h
    rw [h]
    exact ⟨none, rfl⟩

theorem exists_alloc {r : Supply log} {process : Bool} {count : ℕ} (h : r.refuses process count = false) :
    ¬(process && !r.quota) = true ∧ ∃ b, r.alloc (u32 (bytes log count)) = some b := by
  rw [Supply.refuses, Bool.or_eq_false_iff] at h
  refine ⟨by rw [h.1]; exact Bool.false_ne_true, Option.isSome_iff_exists.mp ?_⟩
  rw [← Option.not_isNone, h.2]
  rfl

/-- **The entries fit**: the old ones are at the same indexes, and the free list goes through the others. -/
theorem allocateHandleTableEntries_fits {r : Supply log} {t : HandleTable log} (old : Option (Block log)) (oldCount : ℕ)
    (hgranted : r.refuses t.processToChargeQuota t.countTableEntries = false) (hfits : Fits log t.countTableEntries)
    (hfree : t.freeEntries = setFreePointer 0) (hcount : oldCount ≤ t.countTableEntries)
    (hnone : old = none → oldCount = 0) (hsome : ∀ ob, old = some ob → Placed ob oldCount) :
    ∃ b free, allocateHandleTableEntries r t old oldCount = .ok (true, { t with freeEntries := free, tableEntries := some b }) ∧
      Placed b t.countTableEntries ∧ (∀ ob, old = some ob → ∀ i < oldCount, b.entry i = ob.entry i) ∧
      Chain b t.countTableEntries free fun i => oldCount ≤ i ∧ i < t.countTableEntries := by
  obtain ⟨hquota, b₀, halloc⟩ := exists_alloc hgranted
  have hplaced := r.placed halloc
  have hle : bytes log oldCount ≤ bytes log t.countTableEntries := bytes_le_bytes.mpr hcount
  have hsize : bytes log t.countTableEntries < 4294967296 := hfits
  have hcountLt : t.countTableEntries < 4294967296 := (le_bytes _).trans_lt hsize
  have hold : u32 (bytes log oldCount) = bytes log oldCount := u32_of_lt (by omega)
  rw [u32_of_lt hsize] at halloc
  rw [u32_of_lt hsize, bytes_div_bytes_one] at hplaced
  obtain ⟨b₁, hzero⟩ := zeroMemory_of_le
    (show bytes log oldCount + (bytes log t.countTableEntries - bytes log oldCount) ≤
      bytes log b₀.entries.length by rw [hplaced.length]; omega)
  obtain ⟨-, haddress₁, hlength₁⟩ := zeroMemory_eq_ok hzero
  have hb₁ : Placed b₁ t.countTableEntries := hplaced.of_eq haddress₁ hlength₁
  obtain ⟨b₂, free, hthread, hb₂, -, hchain⟩ := threadEntries_spec (k := t.countTableEntries - oldCount) hb₁
    (j := oldCount)
    (Chain.of_none.congr hb₁ hb₁ rfl (fun _ _ h => h.elim) fun i _ =>
      ⟨fun h => absurd h.1 (not_le.mpr h.2), False.elim⟩) le_rfl (by omega)
  rw [show oldCount + (t.countTableEntries - oldCount) = t.countTableEntries by omega] at hchain
  have hstart : add32 b₁.address (bytes log oldCount) = u32 (b₁.place oldCount) := rfl
  have heq : allocateHandleTableEntries r t old oldCount = (moveOld b₂ (bytes log oldCount) old >>= fun b =>
      .ok (true, { t with freeEntries := free, tableEntries := some b })) := by
    unfold allocateHandleTableEntries
    dsimp only
    rw [if_neg hquota, hold, u32_of_lt hsize, halloc]
    dsimp only
    rw [sub32_of_le hsize hle, sub32_of_le hcountLt hcount, hzero, ok_bind, hstart, hfree, hthread, ok_bind]
    rfl
  rw [heq]
  cases old with
  | none =>
    exact ⟨b₂, free, rfl, hb₂, fun ob h => (Option.some_ne_none ob h.symm).elim, hchain⟩
  | some ob =>
    obtain ⟨b₃, hmove, hb₃, haddress₃, hmoved, hothers⟩ := hb₂.moveMemory (hsome ob rfl).length hcount
    refine ⟨b₃, free, ?_, hb₃, ?_, ?_⟩
    · rw [moveOld, hmove, ok_bind]
    · intro ob' h
      obtain rfl := Option.some.inj h
      exact hmoved
    · exact hchain.congr hb₂ hb₃ haddress₃ (fun i hi h => hothers i hi h.1) fun _ _ => Iff.rfl

/-- **The entries do not fit**: the chain leaves the block. -/
theorem allocateHandleTableEntries_error {r : Supply log} {t : HandleTable log} {old : Option (Block log)} {oldCount growth : ℕ}
    (hgranted : r.refuses t.processToChargeQuota t.countTableEntries = false) (hfits : ¬Fits log (oldCount + growth))
    (hold : Fits log oldCount) (hgrowth : growth < 4294967296) (hcount : t.countTableEntries = u32 (oldCount + growth)) :
    ∃ f, allocateHandleTableEntries r t old oldCount = .error f := by
  obtain ⟨hquota, b₀, halloc⟩ := exists_alloc hgranted
  have hplaced := r.placed halloc
  have hsize : bytes log oldCount < 4294967296 := hold
  unfold allocateHandleTableEntries
  dsimp only
  rw [if_neg hquota, u32_of_lt hsize, halloc]
  dsimp only
  cases hzero : b₀.zeroMemory (bytes log oldCount) (sub32 (u32 (bytes log t.countTableEntries)) (bytes log oldCount)) with
  | error f => exact ⟨f, rfl⟩
  | ok b₁ =>
    obtain ⟨hroom, haddress₁, hlength₁⟩ := zeroMemory_eq_ok hzero
    have hb₁ := hplaced.of_eq haddress₁ hlength₁
    rw [hplaced.length] at hroom
    generalize hblock : u32 (bytes log t.countTableEntries) / bytes log 1 = m at hroom hb₁
    have hm : bytes log m ≤ u32 (bytes log t.countTableEntries) := by
      rw [← hblock, bytes_eq]
      exact Nat.div_mul_le_self _ _
    -- the old entries are in the block, so the count has not wrapped: the number of bytes has
    have hin : oldCount ≤ m := bytes_le_bytes.mp (le_trans (Nat.le_add_right _ _) hroom)
    have hcountLt : oldCount + growth < 4294967296 := by
      by_contra hwrap
      have hsmall : t.countTableEntries < oldCount := by
        rw [hcount]
        unfold u32
        have := (le_bytes oldCount).trans_lt hsize
        omega
      have hbytes : bytes log t.countTableEntries < bytes log oldCount := bytes_lt_bytes.mpr hsmall
      have hle : bytes log oldCount ≤ bytes log m := bytes_le_bytes.mpr hin
      unfold u32 at hm
      omega
    rw [u32_of_lt hcountLt] at hcount
    have hover : m < oldCount + growth := by
      refine (bytes_lt_bytes : bytes log m < _ ↔ _).mp ?_
      have hbig : 4294967296 ≤ bytes log (oldCount + growth) := Nat.not_lt.mp hfits
      have hlt : u32 (bytes log t.countTableEntries) < 4294967296 := Nat.mod_lt _ (by omega)
      omega
    have hstart : add32 b₁.address (bytes log oldCount) = u32 (b₁.place oldCount) := rfl
    rw [ok_bind, hcount, sub32_of_le hcountLt (Nat.le_add_right _ _), Nat.add_sub_cancel_left, hstart]
    obtain ⟨f, hf⟩ := threadEntries_error (k := growth) hb₁ hin hover
    rw [hf]
    exact ⟨f, rfl⟩

end Nt365.Ex.Handle
