import Mathlib.Data.Nat.Find
import Nt365.Rtl.Lznt1

/-!
# The match functions of LZNT1

Both match functions return 0 or the length of a match (`Match`): a string that starts before the position in the same chunk
and agrees with what is at the position. The standard engine keeps a binary tree over the strings of three bytes it has
seen. It is found again from any content of the work space, as the first call for a chunk makes the root anew and each entry
is written before it is linked (`Ready`).
-/

namespace Nt365.Rtl.Lznt1

open Nt365.Library Function

variable {B : Buffer} {i chunk stop pos : ℕ} {c : Call} {w : WorkSpace}

theorem fetch_of_lt (h : i < B.size) : fetch B i = .ok (B.byte i) := if_pos h

theorem store_of_lt {size : ℕ} {out : ℕ → Byte} {b : Byte} (h : i < size) :
    store size out i b = .ok (Function.update out i b) := if_pos h

theorem Call.touch_of_le {upTo : ℕ} (h : upTo ≤ c.workSpaceSize) : c.touch upTo = .ok () := if_pos h

theorem Call.entry_of_le (h : 36 + 16 * i ≤ c.workSpaceSize) : c.entry w i = .ok (w.table i) := by
  rw [Call.entry, touch_of_le h, ok_bind]
  rfl

/-- The three bytes at a position, as a number. -/
def zivAt (B : Buffer) (p : ℕ) : ℕ := (B.byte p).toNat + 256 * (B.byte (p + 1)).toNat + 65536 * (B.byte (p + 2)).toNat

theorem byte_eq_of_zivAt_eq {p q k : ℕ} (h : zivAt B p = zivAt B q) (hk : k < 3) : B.byte (p + k) = B.byte (q + k) := by
  unfold zivAt at h
  apply BitVec.eq_of_toNat_eq
  obtain rfl | rfl | rfl : k = 0 ∨ k = 1 ∨ k = 2 := by omega
  · simp only [Nat.add_zero]
    omega
  · omega
  · omega

/-- A match of `length` bytes for the position `ziv` of the chunk that starts at `chunk`. -/
structure Match (B : Buffer) (chunk stop ziv matched length : ℕ) : Prop where
  three_le : 3 ≤ length
  le_end : ziv + length ≤ stop
  chunk_le : chunk ≤ matched
  lt : matched < ziv
  agree : ∀ k < length, B.byte (matched + k) = B.byte (ziv + k)

theorem Match.shorter {ziv matched length n : ℕ} (h : Match B chunk stop ziv matched length)
    (hle : n ≤ length) (hn : 3 ≤ n) : Match B chunk stop ziv matched n where
  three_le := hn
  le_end := by have := h.le_end; omega
  chunk_le := h.chunk_le
  lt := h.lt
  agree := fun k hk => h.agree k (by omega)

/-- The children of an entry come after it and are in use. -/
def Ordered (nextFree i : ℕ) (e : CompressEntry) : Prop := ∀ ziv j, e.child ziv = some j → i < j ∧ j < nextFree

/-- The place where the search of the tree ends. -/
def seek (table : ℕ → CompressEntry) (ziv : ℕ) : ℕ → ℕ → ℕ
  | 0, i => i
  | fuel + 1, i =>
    if ziv = (table i).key then i
    else
      match (table i).child ziv with
      | none => i
      | some j => seek table ziv fuel j

/-- An entry for the positions of a key, the last one first: it has the last two of them. -/
inductive Kept (chunk key : ℕ) : List ℕ → CompressEntry → Prop
  | none {e : CompressEntry} (hkey : e.key ≠ key) : Kept chunk key [] e
  | one {e : CompressEntry} {p : ℕ} (hkey : e.key = key) (h0 : chunk + e.index0 = p) (h1 : e.index1 = 0xffff) :
      Kept chunk key [p] e
  | more {e : CompressEntry} {p q : ℕ} {ps : List ℕ} (hkey : e.key = key) (h0 : chunk + e.index0 = p) (h1 : chunk + e.index1 = q)
      (hne : e.index1 ≠ 0xffff) : Kept chunk key (p :: q :: ps) e

/-- The positions with these three bytes. -/
def positions (B : Buffer) (key : ℕ) (starts : List ℕ) : List ℕ := starts.filter fun p => zivAt B p = key

/-- The tree has the positions `starts`, the last one first, under their three bytes. -/
structure Tree (B : Buffer) (chunk : ℕ) (starts : List ℕ) (free : ℕ) (table : ℕ → CompressEntry) : Prop where
  root : 1 < free
  ordered : ∀ i, 1 ≤ i → i < free → Ordered free i (table i)
  kept : ∀ key, Kept chunk key (positions B key starts) (table (seek table key 4096 1))

/-- The work space is as the match functions left it for the positions before `pos` of a chunk, where they were called
for `starts`. -/
structure Ready (c : Call) (chunk stop pos : ℕ) (starts : List ℕ) (w : WorkSpace) : Prop where
  chunk_eq : w.uncompressedBuffer = chunk
  end_eq : w.endOfUncompressedBufferPlus1 = stop
  free_le : w.nextFreeEntry ≤ pos - chunk + 1
  starts_mem : ∀ p ∈ starts, chunk ≤ p ∧ p < pos
  started : chunk < pos → chunk + 3 ≤ stop → starts ≠ []
  tree : c.engine = .standard → w.nextFreeEntry = 0 ∧ starts = [] ∨ Tree c.source chunk starts w.nextFreeEntry w.table

theorem Ready.mono {pos' : ℕ} {starts : List ℕ} (h : Ready c chunk stop pos starts w) (hpos : pos ≤ pos')
    (hused : chunk < pos ∨ stop < chunk + 3) : Ready c chunk stop pos' starts w where
  chunk_eq := h.chunk_eq
  end_eq := h.end_eq
  free_le := by have := h.free_le; omega
  starts_mem := fun p hp => ⟨(h.starts_mem p hp).1, (h.starts_mem p hp).2.trans_le hpos⟩
  started := fun _ h3 => h.started (by omega) h3
  tree := h.tree

/-- The memory that a position of a chunk needs, and the work space. -/
structure InMemory (c : Call) (chunk stop : ℕ) : Prop where
  readable : stop ≤ c.source.size
  end_le : stop ≤ chunk + 4096
  work : max 18 (rtlCompressWorkSpaceSize c.engine) ≤ c.workSpaceSize

section Standard

variable {c : Call} {chunk stop ziv : ℕ} {w : WorkSpace}

theorem fetchZiv_eq (h : ziv + 3 ≤ c.source.size) : fetchZiv c ziv = .ok (zivAt c.source ziv) := by
  rw [fetchZiv, fetch_of_lt (by omega), ok_bind, fetch_of_lt (by omega), ok_bind, fetch_of_lt (by omega), ok_bind]
  rfl

/-- The search ends at an entry in use: the one with the key, or one without the child on its side. -/
theorem seek_spec {table : ℕ → CompressEntry} {free : ℕ} (ziv fuel : ℕ) {i : ℕ}
    (hok : ∀ i, 1 ≤ i → i < free → Ordered free i (table i)) (h1 : 1 ≤ i) (hi : i < free) (hfuel : free ≤ i + fuel) :
    1 ≤ seek table ziv fuel i ∧ seek table ziv fuel i < free ∧
      (ziv = (table (seek table ziv fuel i)).key ∨ (table (seek table ziv fuel i)).child ziv = none) := by
  induction fuel generalizing i with
  | zero => omega
  | succ fuel ih =>
    rw [seek]
    split_ifs with hkey
    · exact ⟨h1, hi, .inl hkey⟩
    · cases hchild : (table i).child ziv with
      | none => exact ⟨h1, hi, .inr hchild⟩
      | some j =>
        have hj := hok i h1 hi ziv j hchild
        exact ih (by omega) hj.2 (by omega)

theorem search_eq (ziv fuel : ℕ) {i : ℕ} (hp : c.workSpaceSize ≥ 65556) (hfree : w.nextFreeEntry ≤ 4096)
    (hok : ∀ i, 1 ≤ i → i < w.nextFreeEntry → Ordered w.nextFreeEntry i (w.table i))
    (h1 : 1 ≤ i) (hi : i < w.nextFreeEntry) (hfuel : 4096 ≤ i + fuel) :
    search c w ziv fuel i = .ok (seek w.table ziv fuel i, w.table (seek w.table ziv fuel i)) := by
  induction fuel generalizing i with
  | zero => omega
  | succ fuel ih =>
    rw [search, Call.entry_of_le (by omega), ok_bind, seek]
    split_ifs with hkey
    · rfl
    · cases hchild : (w.table i).child ziv with
      | none => rfl
      | some j =>
        have hj := hok i h1 hi ziv j hchild
        exact ih (by omega) hj.2 (by omega)

/-! ### The positions in the tree -/

theorem Kept.congr {key : ℕ} {ps : List ℕ} {e e' : CompressEntry} (h : Kept chunk key ps e) (hkey : e'.key = e.key)
    (h0 : e'.index0 = e.index0) (h1 : e'.index1 = e.index1) : Kept chunk key ps e' := by
  cases h with
  | none h => exact .none (hkey ▸ h)
  | one h h0' h1' => exact .one (hkey.trans h) (h0 ▸ h0') (h1.trans h1')
  | more h h0' h1' hne => exact .more (hkey.trans h) (h0 ▸ h0') (h1 ▸ h1') (h1 ▸ hne)

theorem Kept.eq_nil {key : ℕ} {ps : List ℕ} {e : CompressEntry} (h : Kept chunk key ps e) (hne : e.key ≠ key) : ps = [] := by
  cases h with
  | none => rfl
  | one h => exact absurd h hne
  | more h => exact absurd h hne

theorem Kept.index0_mem {key : ℕ} {ps : List ℕ} {e : CompressEntry} (h : Kept chunk key ps e) (hkey : e.key = key) :
    chunk + e.index0 ∈ ps := by
  cases h with
  | none h => exact absurd hkey h
  | one _ h0 => simp [h0]
  | more _ h0 => simp [h0]

theorem Kept.cons {key p : ℕ} {ps : List ℕ} {e e' : CompressEntry} (h : Kept chunk key ps e) (hkey : e.key = key)
    (hlt : e.index0 < 0xffff)
    (hkey' : e'.key = e.key) (h0 : chunk + e'.index0 = p) (h1 : e'.index1 = e.index0) : Kept chunk key (p :: ps) e' := by
  cases h with
  | none h => exact absurd hkey h
  | one _ h0' => exact .more (hkey'.trans hkey) h0 (h1 ▸ h0') (by omega)
  | more _ h0' => exact .more (hkey'.trans hkey) h0 (h1 ▸ h0') (by omega)

theorem positions_cons (B : Buffer) (key p : ℕ) (starts : List ℕ) :
    positions B key (p :: starts) = if zivAt B p = key then p :: positions B key starts else positions B key starts := by
  rw [positions, List.filter_cons]
  simp only [decide_eq_true_eq]
  rfl

/-- The search depends on the keys and the children only. -/
theorem seek_congr {table table' : ℕ → CompressEntry}
    (h : ∀ i ziv, (table' i).key = (table i).key ∧ (table' i).child ziv = (table i).child ziv)
    (ziv fuel i : ℕ) : seek table' ziv fuel i = seek table ziv fuel i := by
  induction fuel generalizing i with
  | zero => rfl
  | succ fuel ih => simp only [seek, h i ziv, ih]

section Insert

variable {e : CompressEntry} {ziv j z : ℕ}

theorem CompressEntry.withChild_fields (e : CompressEntry) (ziv j : ℕ) :
    (e.withChild ziv j).key = e.key ∧ (e.withChild ziv j).index0 = e.index0 ∧ (e.withChild ziv j).index1 = e.index1 := by
  unfold withChild
  split_ifs <;> exact ⟨rfl, rfl, rfl⟩

theorem CompressEntry.child_withChild : (e.withChild ziv j).child z = if (z < e.key ↔ ziv < e.key) then some j else e.child z := by
  unfold withChild child
  by_cases h : ziv < e.key <;> by_cases h' : z < e.key <;> simp [h, h']

/-- With a new entry under the one where its key belongs, a search ends where it did, or at the new entry if its key was
not there. -/
theorem seek_insert {table : ℕ → CompressEntry} {free i a : ℕ} (new : CompressEntry) (fuel : ℕ)
    (hok : ∀ i, 1 ≤ i → i < free → Ordered free i (table i)) (hi : i < free) (hnone : (table i).child ziv = none)
    (hnew : ∀ z, new.child z = none) (h1 : 1 ≤ a) (ha : a < free) :
    seek (update (update table free new) i ((table i).withChild ziv free)) z fuel a = seek table z fuel a ∨
      seek (update (update table free new) i ((table i).withChild ziv free)) z fuel a = free ∧
        (table (seek table z fuel a)).key ≠ z := by
  generalize htable : update (update table free new) i ((table i).withChild ziv free) = table'
  have hend (k : ℕ) : seek table' z k free = free := by
    cases k with
    | zero => rfl
    | succ k => rw [seek, ← htable, update_of_ne (by omega), update_self, hnew z, ite_self]
  induction fuel generalizing a with
  | zero => exact .inl rfl
  | succ fuel ih =>
    have hentry : (table' a).key = (table a).key ∧ ((table' a).child z = (table a).child z ∨
        (table a).child z = none ∧ (table' a).child z = some free) := by
      by_cases hai : a = i
      · rw [hai, ← htable, update_self, CompressEntry.child_withChild]
        refine ⟨(CompressEntry.withChild_fields _ _ _).1, ?_⟩
        split_ifs with hside
        · refine .inr ⟨?_, rfl⟩
          rwa [CompressEntry.child, if_congr hside rfl rfl]
        · exact .inl rfl
      · rw [← htable, update_of_ne hai, update_of_ne (by omega)]
        exact ⟨rfl, .inl rfl⟩
    rw [seek, seek, hentry.1]
    split_ifs with hkey
    · exact .inl rfl
    · obtain hsame | ⟨hnil, hsome⟩ := hentry.2
      · rw [hsame]
        cases hchild : (table a).child z with
        | none => exact .inl rfl
        | some b =>
          have hb := hok a h1 ha z b hchild
          exact ih (by omega) hb.2
      · rw [hnil, hsome]
        exact .inr ⟨hend fuel, fun h => hkey h.symm⟩

end Insert

section Tree

variable {starts : List ℕ} {ziv free free' : ℕ} {table : ℕ → CompressEntry}

/-- The match function puts a position to the entry of its key. -/
theorem Tree.age (h : Tree B chunk starts free table) (hi : seek table (zivAt B ziv) 4096 1 = i)
    (hkey : zivAt B ziv = (table i).key) (hlt : (table i).index0 < 0xffff) (hchunk : chunk ≤ ziv) :
    Tree B chunk (ziv :: starts) free (update table i { table i with index1 := (table i).index0, index0 := ziv - chunk }) := by
  generalize htable : update table i { table i with index1 := (table i).index0, index0 := ziv - chunk } = table'
  have hsame (j z : ℕ) : (table' j).key = (table j).key ∧ (table' j).child z = (table j).child z := by
    rw [← htable]
    by_cases hj : j = i
    · rw [hj, update_self]
      exact ⟨rfl, rfl⟩
    · rw [update_of_ne hj]
      exact ⟨rfl, rfl⟩
  refine ⟨h.root, fun j h1 hj z k hk => h.ordered j h1 hj z k ((hsame j z).2 ▸ hk), fun key => ?_⟩
  · have hkept := h.kept key
    rw [seek_congr hsame, positions_cons, ← htable]
    split_ifs with hz
    · rw [← hz, hi] at hkept ⊢
      rw [update_self]
      exact hkept.cons hkey.symm hlt rfl (Nat.add_sub_cancel' hchunk) rfl
    · by_cases hj : seek table key 4096 1 = i
      · rw [hj] at hkept ⊢
        have hne : (table i).key ≠ key := fun heq => hz (hkey.trans heq)
        rw [hkept.eq_nil hne, update_self]
        exact .none hne
      · rw [update_of_ne hj]
        exact hkept

/-- The match function makes a new entry for a position. -/
theorem Tree.insert (h : Tree B chunk starts free table) (hi : seek table (zivAt B ziv) 4096 1 = i) (hlt : i < free)
    (hkey : zivAt B ziv ≠ (table i).key) (hnone : (table i).child (zivAt B ziv) = none) (hchunk : chunk ≤ ziv)
    (hfree : free' = free + 1) (hle : free ≤ 4096) :
    Tree B chunk (ziv :: starts) free' (update (update table free ⟨zivAt B ziv, ziv - chunk, 0xffff, none, none⟩) i
      ((table i).withChild (zivAt B ziv) free)) := by
  generalize htable : update (update table free ⟨zivAt B ziv, ziv - chunk, 0xffff, none, none⟩) i
    ((table i).withChild (zivAt B ziv) free) = table'
  have hroot := h.root
  have hnew : table' free = ⟨zivAt B ziv, ziv - chunk, 0xffff, none, none⟩ := by
    rw [← htable, update_of_ne (by omega), update_self]
  have hordered (j : ℕ) (h1 : 1 ≤ j) (hj : j < free') : Ordered free' j (table' j) := by
    intro z k hk
    by_cases hji : j = i
    · rw [hji, ← htable, update_self, CompressEntry.child_withChild] at hk
      split_ifs at hk
      · cases hk
        omega
      · have := h.ordered i (hji ▸ h1) hlt z k hk
        omega
    · by_cases hjn : j = free
      · rw [hjn, hnew, CompressEntry.child, ite_self] at hk
        cases hk
      · rw [← htable, update_of_ne hji, update_of_ne hjn] at hk
        have := h.ordered j h1 (by omega) z k hk
        omega
  refine ⟨by omega, hordered, fun key => ?_⟩
  have hspec := seek_insert (z := key) ⟨zivAt B ziv, ziv - chunk, 0xffff, none, none⟩ 4096 h.ordered hlt hnone
    (fun z => ite_self _) le_rfl hroot
  rw [htable] at hspec
  have hkept := h.kept key
  rw [positions_cons]
  split_ifs with hz
  · subst hz
    rw [hi] at hkept hspec
    -- the search does not end at the old entry, as that has a child now
    have hend : seek table' (zivAt B ziv) 4096 1 = free := by
      refine (hspec.resolve_left fun heq => ?_).1
      have hstop := (seek_spec (zivAt B ziv) 4096 hordered le_rfl (by omega) (by omega)).2.2
      rw [heq, ← htable, update_self, (CompressEntry.withChild_fields _ _ _).1, CompressEntry.child_withChild,
        if_pos Iff.rfl] at hstop
      exact hstop.elim hkey fun h => by cases h
    rw [hkept.eq_nil (Ne.symm hkey), hend, hnew]
    exact .one rfl (Nat.add_sub_cancel' hchunk) rfl
  · obtain heq | ⟨heq, hne⟩ := hspec
    · rw [heq]
      have hin := (seek_spec key 4096 h.ordered le_rfl hroot (by omega)).2.1
      refine hkept.congr ?_ ?_ ?_ <;> rw [← htable] <;> by_cases hj : seek table key 4096 1 = i <;>
        simp [hj, update_of_ne, CompressEntry.withChild_fields, Nat.ne_of_lt hin]
    · rw [heq, hkept.eq_nil hne, hnew]
      exact .none hz

/-- The first position makes the root. -/
theorem Tree.first (hchunk : chunk ≤ ziv) (table : ℕ → CompressEntry) :
    Tree B chunk [ziv] 2 (update table 1 ⟨zivAt B ziv, ziv - chunk, 0xffff, none, none⟩) := by
  generalize htable : update table 1 ⟨zivAt B ziv, ziv - chunk, 0xffff, none, none⟩ = table'
  have hroot : table' 1 = ⟨zivAt B ziv, ziv - chunk, 0xffff, none, none⟩ := by rw [← htable, update_self]
  refine ⟨by omega, fun i h1 hi z j hj => ?_, fun key => ?_⟩
  · rw [show i = 1 by omega, hroot, CompressEntry.child, ite_self] at hj
    cases hj
  · rw [show seek table' key 4096 1 = 1 by rw [seek, hroot, CompressEntry.child, ite_self, ite_self], hroot, positions_cons]
    split_ifs with hz
    · exact .one hz (Nat.add_sub_cancel' hchunk) rfl
    · exact .none hz

end Tree

theorem matchEnd_spec (last fuel : ℕ) {q p : ℕ} (hlast : last ≤ c.source.size) (hp : p ≤ q) (hfuel : last < q + fuel)
    (hpos : 0 < fuel) : ∃ q', matchEnd c last fuel q p = .ok q' ∧ q < q' ∧ (q' = q + 1 ∨ q' ≤ last) ∧
      (∀ k, q + 1 + k < q' → c.source.byte (p + k) = c.source.byte (q + 1 + k)) ∧
      (q' < last → c.source.byte (p + (q' - (q + 1))) ≠ c.source.byte q') := by
  induction fuel generalizing q p with
  | zero => omega
  | succ fuel ih =>
    rw [matchEnd]
    split_ifs with hlt
    · rw [fetch_of_lt (by omega), ok_bind, fetch_of_lt (by omega), ok_bind]
      split_ifs with heq
      · obtain ⟨q', hq', hlt', hle, hsame, hstop⟩ := ih (q := q + 1) (p := p + 1) (by omega) (by omega) (by omega)
        refine ⟨q', hq', by omega, by omega, fun k hk => ?_, fun h => ?_⟩
        · cases k with
          | zero => exact heq.symm
          | succ k =>
            have h := hsame k (by omega)
            rwa [Nat.add_right_comm p 1 k, Nat.add_right_comm (q + 1) 1 k] at h
        · rw [show p + (q' - (q + 1)) = p + 1 + (q' - (q + 1 + 1)) by omega]
          exact hstop h
      · refine ⟨q + 1, rfl, by omega, .inl rfl, fun k hk => by omega, fun _ h => heq ?_⟩
        rw [Nat.sub_self, Nat.add_zero] at h
        exact h.symm
    · exact ⟨q + 1, rfl, by omega, .inl rfl, fun k hk => by omega, fun h => absurd h hlt⟩

/-- How long a match is: it stops before the last byte, unless that is its third. -/
def matchLength (B : Buffer) (stop ziv matched : ℕ) : ℕ :=
  max 3 (Nat.findGreatest (fun l => ziv + l < stop ∧ ∀ k < l, B.byte (matched + k) = B.byte (ziv + k)) 4096)

theorem matchLength_eq {matched length : ℕ} (h3 : 3 ≤ length) (hle : length ≤ 4096) (hend : length = 3 ∨ ziv + length < stop)
    (hagree : ∀ k < length, B.byte (matched + k) = B.byte (ziv + k))
    (hstop : ziv + length + 1 < stop → B.byte (matched + length) ≠ B.byte (ziv + length)) :
    length = matchLength B stop ziv matched := by
  refine le_antisymm ?_ (max_le h3 (Nat.le_of_not_lt fun hlt => ?_))
  · obtain rfl | hend := hend
    · exact le_max_left ..
    · exact le_max_of_le_right (Nat.le_findGreatest hle ⟨hend, hagree⟩)
  · obtain ⟨h1, h2⟩ := Nat.findGreatest_of_ne_zero rfl (Nat.ne_zero_of_lt hlt)
    exact hstop (by omega) (h2 _ hlt)

/-- The length of the match for a position: the longer one of the matches with the last two positions of its three bytes, or 0. -/
def greedyLength (B : Buffer) (stop ziv : ℕ) (starts : List ℕ) : ℕ :=
  (((positions B (zivAt B ziv) starts).take 2).map (matchLength B stop ziv)).foldr max 0

theorem matchEnd_matchLength {p : ℕ} (hp : InMemory c chunk stop) (hziv : ziv + 3 ≤ stop) (hchunk : chunk ≤ p) (hlt : p < ziv)
    (hkey : zivAt c.source p = zivAt c.source ziv) :
    ∃ q, matchEnd c (stop - 1) 4096 (ziv + 2) (p + 3) = .ok q ∧ q - ziv = matchLength c.source stop ziv p ∧
      Match c.source chunk stop ziv p (q - ziv) := by
  have hread := hp.readable
  have hend := hp.end_le
  obtain ⟨q, hq, hgt, hle, hsame, hstop⟩ := matchEnd_spec (c := c) (stop - 1) 4096 (q := ziv + 2) (p := p + 3) (by omega)
    (by omega) (by omega) (by omega)
  have hagree (k : ℕ) (hk : k < q - ziv) : c.source.byte (p + k) = c.source.byte (ziv + k) := by
    by_cases hk3 : k < 3
    · exact byte_eq_of_zivAt_eq hkey hk3
    · have h := hsame (k - 3) (by omega)
      rwa [show p + 3 + (k - 3) = p + k by omega, show ziv + 2 + 1 + (k - 3) = ziv + k by omega] at h
  refine ⟨q, hq, matchLength_eq (by omega) (by omega) (by omega) hagree fun h => ?_, by omega, by omega, hchunk, hlt, hagree⟩
  have := hstop (by omega)
  rwa [show p + 3 + (q - (ziv + 2 + 1)) = p + (q - ziv) by omega, ← Nat.add_sub_cancel' (show ziv ≤ q by omega),
    Nat.add_sub_cancel_left] at this

/-- The longer one of the matches with the last two positions of the three bytes. -/
theorem longestMatch_spec {e : CompressEntry} {ps : List ℕ} (hp : InMemory c chunk stop) (hziv : ziv + 3 ≤ stop)
    (hchunk : w.uncompressedBuffer = chunk) (hend : w.endOfUncompressedBufferPlus1 = stop)
    (hps : ∀ p ∈ ps, chunk ≤ p ∧ p < ziv ∧ zivAt c.source p = zivAt c.source ziv) {key : ℕ} (hkept : Kept chunk key ps e)
    (hkey : e.key = key) :
    ∃ index length, longestMatch c w ziv e = .ok (index, length) ∧ Match c.source chunk stop ziv (chunk + index) length ∧
      length = ((ps.take 2).map (matchLength c.source stop ziv)).foldr max 0 := by
  have hat {p : ℕ} (h : p ∈ ps) := matchEnd_matchLength hp hziv (hps p h).1 (hps p h).2.1 (hps p h).2.2
  cases hkept with
  | none h => exact absurd hkey h
  | one _ h0 h1 =>
    obtain ⟨q, hq, hlength, hmatch⟩ := hat (List.mem_singleton_self _)
    rw [longestMatch, hchunk, hend, h0, hq, ok_bind, if_neg (not_not.2 h1)]
    exact ⟨_, _, rfl, h0 ▸ hmatch, by simp [hlength]⟩
  | more _ h0 h1 hne =>
    obtain ⟨q, hq, hlength, hmatch⟩ := hat List.mem_cons_self
    obtain ⟨q', hq', hlength', hmatch'⟩ := hat (List.mem_cons_of_mem _ List.mem_cons_self)
    rw [longestMatch, hchunk, hend, h0, hq, ok_bind, if_pos hne, h1, hq', ok_bind]
    simp only [List.take_succ_cons, List.take_zero, List.map_cons, List.map_nil, List.foldr_cons,
      List.foldr_nil, ← hlength, ← hlength']
    split_ifs
    · exact ⟨_, _, rfl, h1 ▸ hmatch', by omega⟩
    · exact ⟨_, _, rfl, h0 ▸ hmatch, by omega⟩

/-- The bytes of a chunk are all zero. -/
def Zeros (B : Buffer) (chunk stop : ℕ) : Prop := ∀ p, chunk ≤ p → p < stop → B.byte p = 0

/-- What a match function owes for a position: 0 or a match, and a work space for the positions after. Among zeros there
is a match. -/
def Finds (c : Call) (chunk stop ziv : ℕ) (starts : List ℕ) (w : WorkSpace) (r : Except Fault (ℕ × WorkSpace)) : Prop :=
  ∃ length w', r = .ok (length, w') ∧ Ready c chunk stop (ziv + 1) (ziv :: starts) w' ∧ length ≤ w.maxLength ∧
    (length = 0 ∨ Match c.source chunk stop ziv w'.matchedString length) ∧
    (Zeros c.source chunk stop → chunk < ziv → length ≠ 0) ∧
    (c.engine = .standard → length = min w.maxLength (greedyLength c.source stop ziv starts))

theorem mem_starts (hchunk : chunk ≤ ziv) (h : ∀ p ∈ starts, chunk ≤ p ∧ p < ziv) (p : ℕ) (hp : p ∈ ziv :: starts) :
    chunk ≤ p ∧ p < ziv + 1 := by
  obtain rfl | hp := List.mem_cons.1 hp
  · omega
  · have := h p hp
    omega

theorem zivAt_of_zeros {p : ℕ} (hz : Zeros c.source chunk stop) (hchunk : chunk ≤ p) (hp : p + 3 ≤ stop) :
    zivAt c.source p = 0 := by
  rw [zivAt, hz p hchunk (by omega), hz (p + 1) (by omega) (by omega), hz (p + 2) (by omega) (by omega)]
  rfl

theorem lznt1FindMatchStandard_spec (hengine : c.engine = .standard) (hp : InMemory c chunk stop) (hchunk : chunk ≤ ziv)
    (hziv : ziv + 3 ≤ stop) (hmax : 3 ≤ w.maxLength) (hw : Ready c chunk stop ziv starts w) :
    Finds c chunk stop ziv starts w (lznt1FindMatchStandard c ziv w) := by
  have hread := hp.readable
  have hend := hp.end_le
  have hwork : 65556 ≤ c.workSpaceSize := by
    have := (Nat.max_le.1 hp.work).2
    rwa [hengine] at this
  have hfree := hw.free_le
  have hps (p : ℕ) (h : p ∈ positions c.source (zivAt c.source ziv) starts) :
      chunk ≤ p ∧ p < ziv ∧ zivAt c.source p = zivAt c.source ziv := by
    obtain ⟨hmem, hkey⟩ := List.mem_filter.1 h
    exact ⟨(hw.starts_mem p hmem).1, (hw.starts_mem p hmem).2, of_decide_eq_true hkey⟩
  have hzero (hz : Zeros c.source chunk stop) (hlt : chunk < ziv) : positions c.source (zivAt c.source ziv) starts ≠ [] := by
    obtain ⟨p, hp⟩ := List.exists_mem_of_ne_nil _ (hw.started hlt (by omega))
    have hmem := hw.starts_mem p hp
    refine List.ne_nil_of_mem (a := p) (List.mem_filter.2 ⟨hp, decide_eq_true ?_⟩)
    rw [zivAt_of_zeros hz hmem.1 (by omega), zivAt_of_zeros hz hchunk hziv]
  have hmem := mem_starts hchunk hw.starts_mem
  rw [Finds, lznt1FindMatchStandard, Call.touch_of_le (by omega), ok_bind, fetchZiv_eq (by omega), ok_bind, hw.chunk_eq]
  obtain ⟨hnone, rfl⟩ | htree := hw.tree hengine
  · rw [if_neg (not_not.2 hnone), Call.entry_of_le (by omega), ok_bind]
    exact ⟨_, _, rfl, ⟨rfl, hw.end_eq, by dsimp only; omega, hmem, fun _ _ => List.cons_ne_nil _ _,
      fun _ => .inr (.first hchunk w.table)⟩,
      by omega, .inl rfl, fun hz hlt => absurd rfl (hzero hz hlt), fun _ => (Nat.min_zero _).symm⟩
  · have hroot := htree.root
    obtain ⟨h1, hlt, hstop⟩ := seek_spec (zivAt c.source ziv) 4096 htree.ordered le_rfl hroot (by omega)
    have hkept := htree.kept (zivAt c.source ziv)
    rw [if_pos (by omega), search_eq (zivAt c.source ziv) 4096 hwork (by omega) htree.ordered le_rfl hroot (by omega), ok_bind]
    generalize hj : seek w.table (zivAt c.source ziv) 4096 1 = j at h1 hlt hstop hkept ⊢
    dsimp only
    split_ifs with hkey
    · obtain ⟨index, length, hlongest, hmatch, hlength⟩ := longestMatch_spec hp hziv hw.chunk_eq hw.end_eq hps hkept hkey.symm
      have h3 := hmatch.three_le
      have hindex := hps _ (hkept.index0_mem hkey.symm)
      have hmin : (if w.maxLength < length then w.maxLength else length) = min w.maxLength length := by
        split_ifs <;> omega
      rw [hlongest, ok_bind]
      dsimp only
      rw [hmin]
      exact ⟨_, _, rfl, ⟨rfl, hw.end_eq, by dsimp only; omega, hmem, fun _ _ => List.cons_ne_nil _ _,
        fun _ => .inr (htree.age hj hkey (by omega) hchunk)⟩, min_le_left .., .inr (hmatch.shorter (min_le_right ..) (by omega)),
        fun _ _ => by omega, fun _ => by rw [hlength, greedyLength]⟩
    · have hu16 : u16 (w.nextFreeEntry + 1) = w.nextFreeEntry + 1 := u16_of_lt (by omega)
      have hnil := hkept.eq_nil (Ne.symm hkey)
      rw [Call.entry_of_le (by omega), ok_bind]
      refine ⟨_, _, rfl, ⟨rfl, hw.end_eq, by dsimp only; omega, hmem, fun _ _ => List.cons_ne_nil _ _,
        fun _ => .inr (htree.insert hj hlt hkey (hstop.resolve_left hkey) hchunk hu16 (by omega))⟩, by omega, .inl rfl,
        fun hz hlt => absurd hnil (hzero hz hlt), fun _ => ?_⟩
      rw [greedyLength, hnil]
      exact (Nat.min_zero _).symm

end Standard

section Maximum

variable {c : Call} {chunk stop ziv : ℕ} {w : WorkSpace}

/-- How far two strings agree, up to the longest length and the end. -/
theorem matchCount_spec (ziv fuel : ℕ) {q i : ℕ} (hp : InMemory c chunk w.endOfUncompressedBufferPlus1) (hq : q < ziv)
    (hi : ziv + i ≤ w.endOfUncompressedBufferPlus1) (hmax : i ≤ w.maxLength)
    (hfuel : w.endOfUncompressedBufferPlus1 < ziv + i + fuel) (hsame : ∀ k < i, c.source.byte (q + k) = c.source.byte (ziv + k)) :
    ∃ i', matchCount c w ziv q fuel i = .ok i' ∧ i' ≤ w.maxLength ∧ ziv + i' ≤ w.endOfUncompressedBufferPlus1 ∧
      (∀ k < i', c.source.byte (q + k) = c.source.byte (ziv + k)) ∧
      (i' = w.maxLength ∨ ziv + i' = w.endOfUncompressedBufferPlus1 ∨ c.source.byte (ziv + i') ≠ c.source.byte (q + i')) := by
  have hread := hp.readable
  induction fuel generalizing i with
  | zero => omega
  | succ fuel ih =>
    rw [matchCount]
    split_ifs with hgo
    · rw [fetch_of_lt (by omega), ok_bind, fetch_of_lt (by omega), ok_bind]
      split_ifs with heq
      · refine ih (by omega) (by omega) (by omega) fun k hk => ?_
        obtain hk | rfl := Nat.lt_succ_iff_lt_or_eq.1 hk
        · exact hsame k hk
        · exact heq.symm
      · exact ⟨i, rfl, hmax, hi, hsame, .inr (.inr heq)⟩
    · exact ⟨i, rfl, hmax, hi, hsame, by omega⟩

/-- The best of the strings from `q` on is short or a match, and at least as long as what was found before. -/
theorem bestMatch_spec {n q : ℕ} (best : ℕ × ℕ) (hp : InMemory c chunk w.endOfUncompressedBufferPlus1) (hq : q + n = ziv)
    (hchunk : chunk ≤ q) (hziv : ziv + 3 ≤ w.endOfUncompressedBufferPlus1) (hmax : best.1 ≤ w.maxLength)
    (hbest : best.1 < 3 ∨ Match c.source chunk w.endOfUncompressedBufferPlus1 ziv best.2 best.1) :
    ∃ r, bestMatch c w ziv n q best = .ok r ∧ r.1 ≤ w.maxLength ∧ best.1 ≤ r.1 ∧
      (r.1 < 3 ∨ Match c.source chunk w.endOfUncompressedBufferPlus1 ziv r.2 r.1) ∧
      (Zeros c.source chunk w.endOfUncompressedBufferPlus1 → 3 ≤ w.maxLength → 0 < n → 3 ≤ r.1) := by
  have hend := hp.end_le
  induction n generalizing q best with
  | zero => exact ⟨best, rfl, hmax, le_rfl, hbest, by omega⟩
  | succ n ih =>
    obtain ⟨i, hi, himax, hiend, hsame, hstop⟩ := matchCount_spec ziv 4097 (q := q) (i := 0) hp (by omega) (by omega)
      (by omega) (by omega)
      fun k hk => by omega
    have hnew : i < 3 ∨ Match c.source chunk w.endOfUncompressedBufferPlus1 ziv q i := by
      by_cases h3 : i < 3
      · exact .inl h3
      · exact .inr ⟨by omega, hiend, hchunk, by omega, hsame⟩
    have hzero (hz : Zeros c.source chunk w.endOfUncompressedBufferPlus1) (h3 : 3 ≤ w.maxLength) : 3 ≤ i := by
      obtain hstop | hstop | hstop := hstop
      · omega
      · omega
      · by_contra hlt
        exact hstop ((hz _ (by omega) (by omega)).trans (hz _ (by omega) (by omega)).symm)
    rw [bestMatch, hi, ok_bind]
    split_ifs with hle
    · obtain ⟨r, hr, hrmax, hge, hmatch, -⟩ := ih (q := q + 1) (i, q) (by omega) (by omega) himax hnew
      exact ⟨r, hr, hrmax, by dsimp only at hge; omega, hmatch, fun hz h3 _ => (hzero hz h3).trans hge⟩
    · obtain ⟨r, hr, hrmax, hge, hmatch, -⟩ := ih (q := q + 1) best (by omega) (by omega) hmax hbest
      exact ⟨r, hr, hrmax, hge, hmatch, fun hz h3 _ => by have := hzero hz h3; omega⟩

theorem lznt1FindMatchMaximum_spec (hengine : c.engine = .maximum) (hp : InMemory c chunk stop) (hchunk : chunk ≤ ziv)
    (hziv : ziv + 3 ≤ stop) (hmax : 3 ≤ w.maxLength) (hw : Ready c chunk stop ziv starts w) :
    Finds c chunk stop ziv starts w (lznt1FindMatchMaximum c ziv w) := by
  obtain ⟨rfl, rfl, hfree, hmem, -, -⟩ := hw
  have hother {p : Prop} (he : c.engine = .standard) : p := absurd (hengine.symm.trans he) (by decide)
  have hwork := (Nat.max_le.1 hp.work).1
  obtain ⟨r, hr, hrmax, -, hmatch, hzero⟩ := bestMatch_spec (n := ziv - w.uncompressedBuffer) (q := w.uncompressedBuffer)
    (0, w.matchedString) hp (by omega) le_rfl hziv (Nat.zero_le _) (.inl (Nat.zero_lt_succ 2))
  rw [Finds, lznt1FindMatchMaximum, Call.touch_of_le (by omega), ok_bind, hr, ok_bind]
  refine ⟨_, _, rfl, ⟨rfl, rfl, by dsimp only; omega, mem_starts hchunk hmem, fun _ _ => List.cons_ne_nil _ _, hother⟩, ?_,
    ?_, ?_, hother⟩
  · split_ifs <;> omega
  · split_ifs with h3
    · exact .inl rfl
    · exact .inr (hmatch.resolve_left h3)
  · intro hz hlt
    have h3 := hzero hz hmax (by omega)
    rw [if_neg (by omega)]
    omega

end Maximum

/-- **The match functions** return 0 or the length of a match. -/
theorem findMatch_spec {ziv : ℕ} (hp : InMemory c chunk stop) (hchunk : chunk ≤ ziv)
    (hziv : ziv + 3 ≤ stop) (hmax : 3 ≤ w.maxLength) (hw : Ready c chunk stop ziv starts w) :
    Finds c chunk stop ziv starts w (findMatch c ziv w) := by
  unfold findMatch
  cases hengine : c.engine with
  | standard => exact lznt1FindMatchStandard_spec hengine hp hchunk hziv hmax hw
  | maximum => exact lznt1FindMatchMaximum_spec hengine hp hchunk hziv hmax hw

end Nt365.Rtl.Lznt1
