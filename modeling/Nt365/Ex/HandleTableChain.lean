import Nt365.Ex.HandleTable
import Nt365.Library.Loop
import Mathlib.Tactic.Linarith
import Mathlib.Tactic.Ring

/-!
# The entries of a handle table and the chain of its free entries

`Placed` says where a block is: its entries are at the addresses that the routines compute. `Chain b n free F` says
that the free list that starts with the word `free` goes through the entries in `F`, each once; the three places where
an entry is put on the list are `Chain.push`, the one where it is taken off `Chain.pop`.
-/

namespace Nt365.Ex.Handle

open Nt365.Library

variable {log : ℕ} {b b' : Block log} {n i j k free : ℕ} {e : Entry log} {F G : ℕ → Prop}

/-! ### Words -/

theorem testFreePointer_setFreePointer (p : ℕ) : testFreePointer (setFreePointer p) = true := by
  unfold testFreePointer setFreePointer
  exact decide_eq_true (by omega)

theorem getFreePointer_setFreePointer {p : ℕ} (hp : 2 ∣ p) : getFreePointer (setFreePointer p) = p := by
  unfold getFreePointer setFreePointer
  omega

theorem setFreePointer_inj {p q : ℕ} (hp : 2 ∣ p) (hq : 2 ∣ q) (h : setFreePointer p = setFreePointer q) : p = q := by
  unfold setFreePointer at h
  omega

theorem eq_of_getFreePointer_eq_zero {p : ℕ} (hp : testFreePointer p = true) (h : getFreePointer p = 0) :
    p = setFreePointer 0 := by
  have hodd : p % 2 = 1 := of_decide_eq_true hp
  unfold getFreePointer at h
  unfold setFreePointer
  omega

/-! ### Sizes -/

theorem bytes_one_pos : 0 < bytes log 1 := by
  unfold bytes
  positivity

variable (count : ℕ)

theorem bytes_eq : bytes log count = count * bytes log 1 := by
  unfold bytes
  rw [one_mul]

theorem le_bytes : count ≤ bytes log count := by
  rw [bytes_eq]
  exact Nat.le_mul_of_pos_right _ bytes_one_pos

theorem bytes_succ : bytes log (count + 1) = bytes log count + bytes log 1 := by
  unfold bytes
  ring

@[simp] theorem bytes_zero : bytes log 0 = 0 := by
  unfold bytes
  rw [zero_mul]

theorem bytes_le_bytes {m n : ℕ} : bytes log m ≤ bytes log n ↔ m ≤ n :=
  Nat.mul_le_mul_right_iff (by positivity)

theorem bytes_lt_bytes {m n : ℕ} : bytes log m < bytes log n ↔ m < n :=
  Nat.mul_lt_mul_right (by positivity)

theorem bytes_inj {m n : ℕ} : bytes log m = bytes log n ↔ m = n :=
  Nat.mul_left_inj (by positivity)

theorem bytes_div_bytes_one : bytes log count / bytes log 1 = count := by
  rw [bytes_eq count, Nat.mul_div_cancel _ bytes_one_pos]

theorem bytes_mod_bytes_one : bytes log count % bytes log 1 = 0 := by
  rw [bytes_eq count, Nat.mul_mod_left]

theorem four_dvd_bytes : 4 ∣ bytes log count := by
  refine Dvd.dvd.mul_left ?_ count
  exact pow_dvd_pow 2 (Nat.le_add_left 2 log)

/-! ### Blocks -/

/-- The block has `n` entries and lies where the pool puts blocks. -/
structure Placed (b : Block log) (n : ℕ) : Prop where
  length : b.entries.length = n
  pos : 0 < b.address
  lt : b.address < 4294967296
  aligned : 8 ∣ b.address
  below : b.address + bytes log n ≤ 4294967296

namespace Block

/-- Where an entry is. -/
def place (b : Block log) (i : ℕ) : ℕ := b.address + bytes log i

/-- The word that stands for an entry on the free list. -/
def tag (b : Block log) (i : ℕ) : ℕ := setFreePointer (b.place i)

theorem entry_set (hi : i < b.entries.length) : (b.set i e).entry j = if j = i then e else b.entry j := by
  unfold entry set
  rw [List.getD_eq_getElem?_getD, List.getD_eq_getElem?_getD, List.getElem?_set]
  split
  · subst_vars
    simp
  · rw [if_neg (Ne.symm ‹_›)]

@[simp] theorem tag_set : (b.set i e).tag j = b.tag j := rfl

theorem add32_place : add32 (u32 (b.place i)) (bytes log 1) = u32 (b.place (i + 1)) := by
  unfold add32 u32 place
  rw [Nat.mod_add_mod, bytes_succ i, Nat.add_assoc]

/-- The word after a tagged pointer: `Next` of the entry that it points to. -/
def next (b : Block log) (p : ℕ) : ℕ :=
  match b.read (getFreePointer p) with
  | .ok e => e.pointer
  | .error _ => 0

theorem next_eq {p : ℕ} (h : b.read (getFreePointer p) = .ok e) : b.next p = e.pointer := by
  unfold next
  rw [h]

end Block

namespace Placed

section

variable (h : Placed b n)

include h

theorem set : Placed (b.set i e) n :=
  { h with
    length := by
      rw [← h.length]
      exact List.length_set }

theorem entry_set (hi : i < n) : (b.set i e).entry j = if j = i then e else b.entry j :=
  Block.entry_set (h.length ▸ hi)

theorem bytes_lt : bytes log n < 4294967296 := by
  have hpos := h.pos
  have hbelow := h.below
  omega

theorem place_lt (hi : i < n) : b.place i < 4294967296 := by
  have hlt : bytes log i < bytes log n := bytes_lt_bytes.mpr hi
  have hbelow := h.below
  unfold Block.place
  omega

theorem two_dvd_place (i : ℕ) : 2 ∣ b.place i := by
  have haligned := h.aligned
  have hbytes : 4 ∣ bytes log i := four_dvd_bytes i
  unfold Block.place
  omega

theorem tag_inj : b.tag i = b.tag j ↔ i = j := by
  constructor
  · intro heq
    have hplace := setFreePointer_inj (h.two_dvd_place i) (h.two_dvd_place j) heq
    exact bytes_inj.mp (Nat.add_left_cancel hplace)
  · rintro rfl
    rfl

theorem tag_ne_nil : b.tag i ≠ setFreePointer 0 := by
  intro heq
  have hplace := setFreePointer_inj (h.two_dvd_place i) (dvd_zero 2) heq
  have hpos := h.pos
  unfold Block.place at hplace
  omega

theorem u32_place (hi : i < n) : u32 (b.place i) = b.place i := u32_of_lt (h.place_lt hi)

theorem u32_place_zero : u32 (b.place 0) = b.address := by
  rw [Block.place, bytes_zero, Nat.add_zero]
  exact u32_of_lt h.lt

theorem sub32_place (hi : i ≤ n) : sub32 (u32 (b.place i)) b.address = bytes log i := by
  have hle : bytes log i ≤ bytes log n := bytes_le_bytes.mpr hi
  have hlt := h.bytes_lt
  unfold sub32 u32 Block.place
  omega

theorem index_place (hi : i < n) : b.index (b.place i) = .ok i := by
  unfold Block.index
  dsimp only
  rw [← h.u32_place hi, h.sub32_place hi.le, bytes_mod_bytes_one, bytes_div_bytes_one, h.length]
  exact if_pos ⟨rfl, hi⟩

theorem index_place_length : b.index (u32 (b.place n)) = .error .outOfBlock := by
  unfold Block.index
  dsimp only
  rw [h.sub32_place le_rfl, bytes_mod_bytes_one, bytes_div_bytes_one, h.length]
  exact if_neg fun hlt => absurd hlt.2 (lt_irrefl n)

theorem read_place (hi : i < n) : b.read (b.place i) = .ok (b.entry i) := by
  unfold Block.read
  rw [h.index_place hi]
  rfl

theorem write_place (hi : i < n) : b.write (b.place i) e = .ok (b.set i e) := by
  unfold Block.write
  rw [h.index_place hi]
  rfl

theorem pushFree_place (hi : i < n) : b.pushFree free (b.place i) = .ok (b.set i { b.entry i with pointer := free }, b.tag i) := by
  unfold Block.pushFree
  rw [h.read_place hi, ok_bind, h.write_place hi]
  rfl

theorem entryAddress_eq (hi : i < n) : entryAddress b i = b.place i := by
  have hlt : bytes log i < bytes log n := bytes_lt_bytes.mpr hi
  have hbytes := h.bytes_lt
  have hplace := h.place_lt hi
  unfold entryAddress
  rw [u32_of_lt (by omega)]
  exact add32_of_lt hplace

theorem next_tag (hi : i < n) : b.next (b.tag i) = (b.entry i).pointer := by
  refine Block.next_eq ?_
  rw [Block.tag, getFreePointer_setFreePointer (h.two_dvd_place i), h.read_place hi]

end

end Placed

/-! ### The chain of free entries -/

/-- The words that stand for entries in `F`. -/
def OnChain (b : Block log) (n : ℕ) (F : ℕ → Prop) (p : ℕ) : Prop := ∃ i < n, F i ∧ p = b.tag i

/-- The free list from the word `free` on goes through the entries in `F`, and their words are tagged. -/
structure Chain (b : Block log) (n free : ℕ) (F : ℕ → Prop) : Prop where
  list : FreeList b.next (setFreePointer 0) free (OnChain b n F)
  head : testFreePointer free = true
  marked : ∀ i < n, F i → testFreePointer (b.entry i).pointer = true

namespace Chain

theorem of_none : Chain b n (setFreePointer 0) fun _ => False where
  list := .of_none_free fun _ ⟨_, _, hF, _⟩ => hF
  head := testFreePointer_setFreePointer 0
  marked := fun _ _ hF => hF.elim

theorem congr (h : Chain b n free F) (hb : Placed b n) (hb' : Placed b' n) (haddress : b'.address = b.address)
    (hentry : ∀ i < n, F i → b'.entry i = b.entry i) (hFG : ∀ i < n, G i ↔ F i) : Chain b' n free G where
  list := by
    have htag : ∀ i, b'.tag i = b.tag i := fun i => by rw [Block.tag, Block.tag, Block.place, Block.place, haddress]
    refine h.list.congr ?_ ?_
    · rintro _ ⟨i, hi, hF, rfl⟩
      rw [hb.next_tag hi, ← htag i, hb'.next_tag hi, hentry i hi hF]
    · intro p
      constructor
      · rintro ⟨i, hi, hG, rfl⟩
        exact ⟨i, hi, (hFG i hi).mp hG, htag i⟩
      · rintro ⟨i, hi, hF, rfl⟩
        exact ⟨i, hi, (hFG i hi).mpr hF, (htag i).symm⟩
  head := h.head
  marked := by
    intro i hi hG
    have hF := (hFG i hi).mp hG
    rw [hentry i hi hF]
    exact h.marked i hi hF

theorem push (h : Chain b n free F) (hb : Placed b n) (hi : i < n) (hnew : ¬F i) :
    Chain (b.set i { b.entry i with pointer := free }) n (b.tag i) fun k => k = i ∨ F k where
  list := by
    have hb' : Placed (b.set i { b.entry i with pointer := free }) n := hb.set
    have hpush : FreeList (b.set i { b.entry i with pointer := free }).next (setFreePointer 0) (b.tag i)
        fun p => p = b.tag i ∨ OnChain b n F p := by
      refine h.list.push ?_ ?_ ?_
      · rintro ⟨k, -, hF, heq⟩
        rw [hb.tag_inj] at heq
        exact hnew (heq ▸ hF)
      · rw [← Block.tag_set, hb'.next_tag hi, hb.entry_set hi, if_pos rfl]
      · rintro _ ⟨k, hk, hF, rfl⟩
        have hne : k ≠ i := by
          rintro rfl
          exact hnew hF
        rw [hb.next_tag hk, ← Block.tag_set, hb'.next_tag hk, hb.entry_set hi, if_neg hne]
    refine hpush.congr (fun _ _ => rfl) fun p => ?_
    constructor
    · rintro ⟨k, hk, rfl | hF, rfl⟩
      · exact .inl rfl
      · exact .inr ⟨k, hk, hF, rfl⟩
    · rintro (rfl | ⟨k, hk, hF, rfl⟩)
      · exact ⟨i, hi, .inl rfl, rfl⟩
      · exact ⟨k, hk, .inr hF, rfl⟩
  head := testFreePointer_setFreePointer _
  marked := by
    intro k hk hF
    rw [hb.entry_set hi]
    split
    · exact h.head
    · exact h.marked k hk (hF.resolve_left ‹_›)

theorem pop (h : Chain b n free F) (hb : Placed b n) (hfree : free ≠ setFreePointer 0) :
    ∃ i < n, F i ∧ free = b.tag i ∧ Chain b n (b.entry i).pointer fun k => F k ∧ k ≠ i := by
  obtain ⟨⟨i, hi, hF, rfl⟩, hrest⟩ := h.list.pop hfree
  rw [hb.next_tag hi] at hrest
  refine ⟨i, hi, hF, rfl, ?_, h.marked i hi hF, fun k hk hFk => h.marked k hk hFk.1⟩
  refine hrest.congr (fun _ _ => rfl) fun p => ?_
  constructor
  · rintro ⟨k, hk, ⟨hFk, hne⟩, rfl⟩
    exact ⟨⟨k, hk, hFk, rfl⟩, fun heq => hne (hb.tag_inj.mp heq)⟩
  · rintro ⟨⟨k, hk, hFk, rfl⟩, hne⟩
    exact ⟨k, hk, ⟨hFk, fun heq => hne (by rw [heq])⟩, rfl⟩

theorem not_mem (h : Chain b n free F) (hb : Placed b n) (hfree : free = setFreePointer 0) (hi : i < n) : ¬F i := by
  intro hF
  refine h.list.not_free_of_head_eq_nil ?_ hfree ⟨i, hi, hF, rfl⟩
  rintro ⟨k, -, -, heq⟩
  exact hb.tag_ne_nil heq.symm

end Chain

end Nt365.Ex.Handle
