import Nt365.Boot.MmuWalk
import Nt365.Library.Apart
import Mathlib.Order.Interval.Finset.Nat

/-!
# When the page tables are exact and fit their pool

The pool is counted before its own range is registered, and the tables are assigned after that. If the pool lies in a
4 MB slot that no earlier mapped range is in, one more table is needed for it and one more for its mirror, and the last tables lie
behind the pool. `buildPageTables_exact_iff` says when the tables are inside the pool and map exactly what is registered.
-/

namespace Nt365.Boot.Mmu

open Nt365.Library List

/-! ### Counting -/

theorem count_lt_count {slot slot' : ℕ → Bool} (h : ∀ i, slot i = true → slot' i = true) {i : ℕ} (hi : i < 512)
    (hnew : slot' i = true) (hold : slot i = false) : Nat.count (slot · = true) 512 < Nat.count (slot' · = true) 512 := by
  rw [Nat.count_eq_card_filter_range, Nat.count_eq_card_filter_range]
  refine Finset.card_lt_card (Finset.ssubset_iff_of_subset ?_ |>.mpr ⟨i, ?_, ?_⟩)
  · exact Finset.monotone_filter_right _ fun j _ => h j
  · simp [hi, hnew]
  · simp [hold]

/-- What makes the pool large enough and every table used: the directory has been allocated, the slots of the pool
have been counted for an earlier range, and a slot that is marked has a page. -/
structure Fits (s t : Mmu) : Prop where
  pd : s.pd ≠ 0
  pool : ∀ i, Marks ⟨t.pts, t.ptPoolPages, .memoryData, false⟩ i → s.ksSlot i = true
  idFull : ∀ i, t.idSlot i = true → ∃ page ≠ 0, t.Mapped page ∧ page / 1024 = i
  ksFull : ∀ i, t.ksSlot i = true → ∃ page ≠ 0, t.Mirrored page ∧ page / 1024 = i

section Pool

variable {beAllocPages : List Request → ℕ} {s t : Mmu} (hs : s.Registered) (ht : mmuAllocPtPool beAllocPages s = (t, .success))

include ht

theorem pool_mem : ⟨t.pts, t.ptPoolPages, .memoryData, false⟩ ∈ t.reg := by
  rw [(mmuAllocPtPool_success ht).2.2.1]
  simp

theorem ksSlot_pool (i : ℕ) : t.ksSlot i = true ↔ s.ksSlot i = true ∨ Marks ⟨t.pts, t.ptPoolPages, .memoryData, false⟩ i := by
  rw [ksSlot_iff, ksSlot_iff, (mmuAllocPtPool_success ht).2.2.1]
  simp [or_and_right, exists_or]

theorem idSlot_pool (i : ℕ) : t.idSlot i = true ↔ s.idSlot i = true ∨ Marks ⟨t.pts, t.ptPoolPages, .memoryData, false⟩ i := by
  rw [idSlot_iff, idSlot_iff, ksSlot_pool ht, (mmuAllocPtPool_success ht).2.2.2.1, or_right_comm]

/-- **The pool is large enough** if and only if it lies in slots that have been counted. -/
theorem halTable_inPool_iff (hpts : t.pts < 1073741824) :
    t.InPool t.halPtPhys ↔ ∀ i, Marks ⟨t.pts, t.ptPoolPages, .memoryData, false⟩ i → s.ksSlot i = true := by
  have hcount : t.ptPoolPages = s.idRank 512 + s.ksRank 512 + 1 := (mmuAllocPtPool_success ht).2.1
  have hid : s.idRank 512 ≤ t.idRank 512 := Nat.count_mono_left fun i _ h => (idSlot_pool ht i).mpr (.inl h)
  have hks : s.ksRank 512 ≤ t.ksRank 512 := Nat.count_mono_left fun i _ h => (ksSlot_pool ht i).mpr (.inl h)
  rw [InPool, halPtPhys_eq hpts]
  constructor
  · intro h i hmarks
    by_contra hold
    have hlt : s.ksRank 512 < t.ksRank 512 := count_lt_count (fun i h => (ksSlot_pool ht i).mpr (.inl h)) hmarks.2.2
      ((ksSlot_pool ht i).mpr (.inr hmarks)) (Bool.eq_false_iff.mpr hold)
    omega
  · intro h
    have hks' : t.ksRank 512 ≤ s.ksRank 512 := Nat.count_mono_left fun i _ hi => ((ksSlot_pool ht i).mp hi).elim id (h i)
    have hid' : t.idRank 512 ≤ s.idRank 512 := Nat.count_mono_left fun i _ hi =>
      ((idSlot_pool ht i).mp hi).elim id fun hm => (idSlot_iff s i).mpr (.inl (h i hm))
    omega

variable (hapart : Apart AllocEntry.Covers (t.reg ++ t.image))
  (hrange : ∀ e ∈ t.reg ++ t.image, e.phys % 4096 = 0 ∧ e.phys + 4096 * e.pages ≤ 2147483648)
  (hmapped : ∀ e ∈ t.reg, e.noMap = false → e.phys + 4096 * e.pages ≤ 1073741824)

include hapart hrange

omit ht in
theorem apart_of_ne {e e' : AllocEntry} (he : e ∈ t.reg) (he' : e' ∈ t.reg) (hne : e ≠ e') (hpages : e.pages = 1) :
    e.phys + 4096 ≤ e'.phys ∨ e'.phys + 4096 * e'.pages ≤ e.phys := by
  have h := hrange e (mem_append_left _ he)
  have h' := hrange e' (mem_append_left _ he')
  by_contra hover
  refine hne (hapart.eq (mem_append_left _ he) (mem_append_left _ he') (x := e.phys / 4096) ?_ ?_)
  · exact ⟨le_rfl, by omega⟩
  · unfold AllocEntry.Covers
    omega

include hs hmapped

/-- The layout, if the directory has been allocated and the pool is large enough. -/
theorem layout_of_pool (hpd : s.pd ≠ 0) (hhal : t.InPool t.halPtPhys) : t.Layout := by
  obtain ⟨hpts, hcount, hreg, -, hpdEq, hpcrEq, hsudEq⟩ := mmuAllocPtPool_success ht
  have hpool := pool_mem ht
  have hptsRange := hrange _ (mem_append_left _ hpool)
  have hptsEnd := hmapped _ hpool rfl
  simp only at hptsRange hptsEnd
  have hmem : ∀ e ∈ s.reg, e ∈ t.reg := fun e he => by
    rw [hreg]
    exact mem_append_left _ he
  have hpdMem : ⟨t.pd, 1, .memoryData, false⟩ ∈ t.reg := by
    rw [hpdEq]
    exact hmem _ (hs.pd hpd)
  have hpdRange := hrange _ (mem_append_left _ hpdMem)
  have hpdEnd := hmapped _ hpdMem rfl
  simp only at hpdRange hpdEnd
  have hpages : 1 < t.ptPoolPages := by
    have hslot : s.ksSlot (t.pd / 4096 / 1024) = true := (ksSlot_iff s _).mpr ⟨_, hs.pd hpd, rfl,
      marks_of_covers (by rw [← hpdEq]; exact hpdRange.2) (by rw [← hpdEq]; exact ⟨le_rfl, Nat.lt_succ_self _⟩)⟩
    have hlt : s.ksRank (t.pd / 4096 / 1024) < s.ksRank 512 := Nat.count_strict_mono hslot (by omega)
    have heq : t.ptPoolPages = s.idRank 512 + s.ksRank 512 + 1 := hcount
    omega
  have hpdPool := apart_of_ne hapart hrange hpdMem hpool (by simp only [ne_eq, AllocEntry.mk.injEq]; omega) rfl
  simp only at hpdPool
  have hpdNe : t.pd ≠ 0 := hpdEq.trans_ne hpd
  -- a data page is registered, or it is page `0`
  have hdata : ∀ p, (p ≠ 0 → ⟨p, 1, .pcr, false⟩ ∈ t.reg) → p % 4096 = 0 ∧ (p + 4096 ≤ t.pd ∨ t.pd + 4096 ≤ p) ∧
      (p + 4096 ≤ t.pts ∨ t.pts + 4096 * t.ptPoolPages ≤ p) := by
    intro p hp
    by_cases hzero : p = 0
    · omega
    · have hpRange := hrange _ (mem_append_left _ (hp hzero))
      have hpPd := apart_of_ne hapart hrange (hp hzero) hpdMem (by simp) rfl
      have hpPool := apart_of_ne hapart hrange (hp hzero) hpool (by simp) rfl
      simp only at hpRange hpPd hpPool
      omega
  refine ⟨⟨hptsRange.1, hpts, hptsEnd⟩, ⟨hpdRange.1, hpdPool, by omega⟩, ?_, ?_, hrange, fun e he hmap => ⟨?_, hmapped e he hmap⟩⟩
  · rintro p (rfl | rfl)
    · exact hdata _ fun h => by rw [hpcrEq] at h ⊢; exact hmem _ (hs.pcr h).1
    · exact hdata _ fun h => by rw [hsudEq] at h ⊢; exact hmem _ (hs.sud h).1
  · have hcounted := (halTable_inPool_iff ht (by omega)).mp hhal
    rw [hcount]
    have hslot : ∀ i, t.ksSlot i = s.ksSlot i := fun i => Bool.eq_iff_iff.mpr
      ⟨fun h => ((ksSlot_pool ht i).mp h).elim id (hcounted i), fun h => (ksSlot_pool ht i).mpr (.inl h)⟩
    have hslot' : ∀ i, t.idSlot i = s.idSlot i := fun i => Bool.eq_iff_iff.mpr
      ⟨fun h => ((idSlot_pool ht i).mp h).elim id fun hm => (idSlot_iff s i).mpr (.inl (hcounted i hm)),
        fun h => (idSlot_pool ht i).mpr (.inl h)⟩
    simp only [countPtSlots, hslot, hslot']
  · rw [hreg, mem_append, mem_singleton] at he
    obtain he | rfl := he
    · exact hs.mapped e he hmap
    · exact hpts

omit hapart hrange hmapped in
theorem pd_of_exactTables {mem : Memory} (h : ExactTables t (t.buildPageTables mem)) : s.pd ≠ 0 := by
  intro hzero
  obtain ⟨-, -, -, -, hpdEq, hpcrEq, -⟩ := mmuAllocPtPool_success ht
  have hpcr : t.pcr = 0 := by
    by_contra hne
    exact (hs.pcr (hpcrEq ▸ hne)).2 hzero
  have hword : t.buildPageTables mem (t.pd + 4 * 768) = 0 := by
    unfold buildPageTables
    rw [storeAll_append]
    refine storeAll_of_mem ?_ fun w hw _ => ?_
    · rw [dataStores, mem_append, mem_zeroWords]
      exact .inl ⟨768, by decide, by rw [hpcr, hpdEq, hzero]⟩
    · rw [dataStores, mem_append, mem_zeroWords, mem_zeroWords] at hw
      obtain ⟨i, -, rfl⟩ | ⟨i, -, rfl⟩ := hw
      · rfl
      · rfl
  have hslot := (h.slots 768 (by decide)).mpr (.inl rfl)
  rw [hword] at hslot
  cases hslot

end Pool

/-- **The page tables are exact and fit their pool** if and only if the directory has been allocated, the pool lies in slots
that earlier mapped ranges are in, and every slot that is marked has a page. -/
theorem buildPageTables_exact_iff (beAllocPages : List Request → ℕ) (calls : List Call) (mem : Memory) {t : Mmu}
    (ht : mmuAllocPtPool beAllocPages (run beAllocPages calls) = (t, .success))
    (hapart : Apart AllocEntry.Covers (t.reg ++ t.image))
    (hrange : ∀ e ∈ t.reg ++ t.image, e.phys % 4096 = 0 ∧ e.phys + 4096 * e.pages ≤ 2147483648)
    (hmapped : ∀ e ∈ t.reg, e.noMap = false → e.phys + 4096 * e.pages ≤ 1073741824) :
    ExactTables t (t.buildPageTables mem) ↔ Fits (run beAllocPages calls) t := by
  have hs := @registered_run beAllocPages calls
  have hpts : t.pts < 1073741824 := by
    have hend := hmapped _ (pool_mem ht) rfl
    have hcount := (mmuAllocPtPool_success ht).2.1
    unfold countPtSlots at hcount
    simp only at hend
    omega
  constructor
  · intro h
    have hpd := pd_of_exactTables hs ht h
    have hfull := (exactTables_iff (layout_of_pool hs ht hapart hrange hmapped hpd h.halTable) mem).mp h
    exact ⟨hpd, (halTable_inPool_iff ht hpts).mp h.halTable, hfull .identity, hfull .mirror⟩
  · intro h
    have hhal := (halTable_inPool_iff ht hpts).mpr h.pool
    exact (exactTables_iff (layout_of_pool hs ht hapart hrange hmapped h.pd hhal) mem).mpr fun
      | .identity => h.idFull
      | .mirror => h.ksFull

/-! ### A pool in a slot of its own -/

theorem apart_of_pairwise {es : List AllocEntry}
    (h : es.Pairwise fun a b => a.phys / 4096 + a.pages ≤ b.phys / 4096 ∨ b.phys / 4096 + b.pages ≤ a.phys / 4096) :
    Apart AllocEntry.Covers es := by
  refine h.imp fun hab page ha hb => ?_
  unfold AllocEntry.Covers at ha hb
  omega

/-- The pages of `mmu_alloc_reserved` are the first ones, and the pool is at `pool`. -/
def answers (pool : ℕ) (rs : List Request) : ℕ :=
  [0x1000, 0x2000, 0x3000, 0x4000, 0x7000, 0xb000, 0xc000, pool].getD (rs.length - 1) 0

def allocated (pool : ℕ) : Mmu × Status := mmuAllocPtPool (answers pool) (run (answers pool) [.allocReserved])

/-- The pool at `0x10000`, in the slot of the other pages. -/
theorem buildPageTables_exact_iff_sameSlot :
    ∃ t, mmuAllocPtPool (answers 0x10000) (run (answers 0x10000) [.allocReserved]) = (t, .success) ∧
    (ExactTables t (t.buildPageTables fun _ => 0) ↔ Fits (run (answers 0x10000) [.allocReserved]) t) := by
  have hrun : allocated 0x10000 = ((allocated 0x10000).1, .success) := Prod.ext_iff.mpr ⟨rfl, by decide +kernel⟩
  refine ⟨(allocated 0x10000).1, hrun, buildPageTables_exact_iff _ _ _ hrun ?_ ?_ ?_⟩
  · exact apart_of_pairwise (by decide +kernel)
  · decide +kernel
  · decide +kernel

/-- **The pool at `0x400000`**, where nothing else is: three pages are counted, and the table of the HAL is the fifth. -/
theorem buildPageTables_overrun :
    ∃ t, mmuAllocPtPool (answers 0x400000) (run (answers 0x400000) [.allocReserved]) = (t, .success) ∧
    Apart AllocEntry.Covers (t.reg ++ t.image) ∧
    (∀ e ∈ t.reg ++ t.image, e.phys % 4096 = 0 ∧ e.phys + 4096 * e.pages ≤ 2147483648) ∧
    (∀ e ∈ t.reg, e.noMap = false → e.phys + 4096 * e.pages ≤ 1073741824) ∧
    t.pts = 0x400000 ∧ t.ptPoolPages = 3 ∧ t.halPtPhys = 0x404000 ∧ ∀ mem, ¬ExactTables t (t.buildPageTables mem) := by
  obtain ⟨hstatus, hpts, hpool, hhal⟩ : (allocated 0x400000).2 = .success ∧ (allocated 0x400000).1.pts = 0x400000 ∧
    (allocated 0x400000).1.ptPoolPages = 3 ∧ (allocated 0x400000).1.halPtPhys = 0x404000 := by decide +kernel
  refine ⟨(allocated 0x400000).1, Prod.ext_iff.mpr ⟨rfl, hstatus⟩, apart_of_pairwise (by decide +kernel), by decide +kernel,
    by decide +kernel, hpts, hpool, hhal, fun mem h => ?_⟩
  have hin := h.halTable
  rw [InPool, hpts, hpool, hhal] at hin
  omega

end Nt365.Boot.Mmu
