import Nt365.Boot.MmuTables

/-!
# What the page tables map

The words of the directory and of the tables after `build_page_tables`, when the pool is as large as the tables that are assigned
and is apart from the directory and the data pages (`Layout`), and what a walk through them gives.
-/

namespace Nt365.Boot.Mmu

open Nt365.Library List

/-! ### What the tables are for -/

variable (s : Mmu)

/-- The page belongs to a range that is mapped into the mirror. -/
def Mirrored (page : ℕ) : Prop := ∃ e ∈ s.reg, e.noMap = false ∧ e.Covers page

/-- The page belongs to a range that is mapped. -/
def Mapped (page : ℕ) : Prop := s.Mirrored page ∨ ∃ e ∈ s.image, e.Covers page

/-- The walk of a 32-bit address through the directory at `pd`. -/
def walk (mem : Memory) (pd va : ℕ) : Option ℕ :=
  let pde := mem (pd + 4 * (va / 4194304))
  if pde % 2 = 0 then none
  else
    let pte := mem (pde / 4096 * 4096 + 4 * (va / 4096 % 1024))
    if pte % 2 = 0 then none else some (pte / 4096 * 4096 + va % 4096)

/-- The page at the address is one of the pool. -/
def InPool (table : ℕ) : Prop := s.pts ≤ table ∧ table + 4096 ≤ s.pts + 4096 * s.ptPoolPages

/-- **Exact tables**: all tables are inside the pool, the pages that are mapped are mapped to themselves, those of
the registry also in the mirror, and no other slot is used but the self-map and the one of the HAL. -/
structure ExactTables (s : Mmu) (mem : Memory) : Prop where
  idTables : ∀ i < 512, s.idPtPhys i ≠ 0 → s.InPool (s.idPtPhys i)
  ksTables : ∀ i < 512, s.ksPtPhys i ≠ 0 → s.InPool (s.ksPtPhys i)
  halTable : s.InPool s.halPtPhys
  identity : ∀ va < 2147483648, ∀ pa, walk mem s.pd va = some pa ↔ pa = va ∧ va / 4096 ≠ 0 ∧ s.Mapped (va / 4096)
  mirror : ∀ va < 1073741824, ∀ pa, walk mem s.pd (2147483648 + va) = some pa ↔ pa = va ∧ va / 4096 ≠ 0 ∧ s.Mirrored (va / 4096)
  slots : ∀ i < 1024, mem (s.pd + 4 * i) % 2 = 1 ↔ i = 768 ∨ i = 1023 ∨ (∃ page ≠ 0, s.Mapped page ∧ page / 1024 = i) ∨
    ∃ page ≠ 0, s.Mirrored page ∧ 512 + page / 1024 = i

/-! ### Where things are -/

/-- The arithmetic of the layout. -/
structure Layout (s : Mmu) : Prop where
  pts : s.pts % 4096 = 0 ∧ s.pts ≠ 0 ∧ s.pts + 4096 * s.ptPoolPages ≤ 1073741824
  pd : s.pd % 4096 = 0 ∧ (s.pd + 4096 ≤ s.pts ∨ s.pts + 4096 * s.ptPoolPages ≤ s.pd) ∧ s.pd + 4096 ≤ 1073741824
  data : ∀ p, p = s.pcr ∨ p = s.sud → p % 4096 = 0 ∧ (p + 4096 ≤ s.pd ∨ s.pd + 4096 ≤ p) ∧
    (p + 4096 ≤ s.pts ∨ s.pts + 4096 * s.ptPoolPages ≤ p)
  count : s.ptPoolPages = s.countPtSlots
  range : ∀ e ∈ s.reg ++ s.image, e.phys % 4096 = 0 ∧ e.phys + 4096 * e.pages ≤ 2147483648
  mapped : ∀ e ∈ s.reg, e.noMap = false → e.phys ≠ 0 ∧ e.phys + 4096 * e.pages ≤ 1073741824

/-- The number of tables for the slots below `i`. -/
def idRank (i : ℕ) : ℕ := Nat.count (s.idSlot · = true) i

def ksRank (i : ℕ) : ℕ := Nat.count (s.ksSlot · = true) i

theorem idRank_le (i : ℕ) : s.idRank i ≤ i := Nat.count_le _

/-- The two maps: of the pages to themselves, and of the registry in the mirror. -/
inductive Half where
  | identity
  | mirror

namespace Half

/-- The slots of a map. -/
def slot : Half → ℕ → Bool
  | identity => s.idSlot
  | mirror => s.ksSlot

/-- Where its tables are. -/
def table : Half → ℕ → ℕ
  | identity => s.idPtPhys
  | mirror => s.ksPtPhys

/-- The pages that are mapped. -/
def Has : Half → ℕ → Prop
  | identity => s.Mapped
  | mirror => s.Mirrored

/-- Its first slot in the directory. -/
def first : Half → ℕ
  | identity => 0
  | mirror => 512

/-- How many tables are before that of a slot. -/
def rank : Half → ℕ → ℕ
  | identity, i => s.idRank i
  | mirror, i => s.idRank 512 + s.ksRank i

end Half

theorem present_eq (n : ℕ) : present (4096 * n) = 4096 * n + 3 := (Nat.two_pow_add_eq_or_of_lt (i := 12) (by decide) n).symm

theorem idSlot_lt {s : Mmu} {i : ℕ} (h : s.idSlot i = true) : i < 512 := by
  rw [idSlot_iff, ksSlot_iff] at h
  obtain ⟨e, -, -, hm⟩ | ⟨e, -, hm⟩ := h
  · exact hm.2.2
  · exact hm.2.2

section Addresses

variable {s : Mmu} (hpts : s.pts < 1073741824)

include hpts

theorem idTables_eq : assignTables s.idSlot (u32 s.pts) =
    (fun i => if i < 512 ∧ s.idSlot i = true then s.pts + 4096 * s.idRank i else 0, s.pts + 4096 * s.idRank 512) := by
  rw [u32_of_lt (by omega), assignTables_eq s.idSlot (by omega)]
  rfl

theorem idPtPhys_eq (i : ℕ) : s.idPtPhys i = if i < 512 ∧ s.idSlot i = true then s.pts + 4096 * s.idRank i else 0 := by
  rw [idPtPhys, idTables_eq hpts]

theorem ksTables_eq : assignTables s.ksSlot (assignTables s.idSlot (u32 s.pts)).2 =
    (fun i => if i < 512 ∧ s.ksSlot i = true then s.pts + 4096 * s.idRank 512 + 4096 * s.ksRank i else 0,
      s.pts + 4096 * s.idRank 512 + 4096 * s.ksRank 512) := by
  have hle := s.idRank_le 512
  rw [idTables_eq hpts, assignTables_eq s.ksSlot (by simp only; omega)]
  rfl

theorem ksPtPhys_eq (i : ℕ) :
    s.ksPtPhys i = if i < 512 ∧ s.ksSlot i = true then s.pts + 4096 * s.idRank 512 + 4096 * s.ksRank i else 0 := by
  rw [ksPtPhys, ksTables_eq hpts]

theorem halPtPhys_eq : s.halPtPhys = s.pts + 4096 * s.idRank 512 + 4096 * s.ksRank 512 := by
  rw [halPtPhys, ksTables_eq hpts]

end Addresses

/-! ### Stores -/

theorem mem_zeroWords {base n : ℕ} {w : ℕ × ℕ} : w ∈ zeroWords base n ↔ ∃ i < n, w = (base + 4 * i, 0) := by
  simp only [zeroWords, mem_map, mem_range, eq_comm]

theorem mem_populate {skipZero : Bool} {tables : ℕ → ℕ} {e : AllocEntry} (haligned : e.phys % 4096 = 0)
    (hend : e.phys + 4096 * e.pages ≤ 2147483648) {w : ℕ × ℕ} :
    w ∈ populate skipZero tables e ↔ ∃ page, e.Covers page ∧ ¬(skipZero = true ∧ page = 0) ∧ tables (page / 1024) ≠ 0 ∧
      w = (tables (page / 1024) + 4 * (page % 1024), present (4096 * page)) := by
  have hphys : ∀ p < e.pages, add32 (u32 e.phys) (u32 (p * 4096)) = 4096 * (e.phys / 4096 + p) := by
    intro p hp
    unfold add32 u32
    omega
  have hslot : ∀ page, 4096 * page / 4194304 = page / 1024 := by omega
  have hindex : ∀ page, 4096 * page / 4096 % 1024 = page % 1024 := by omega
  simp only [populate, mem_flatMap, mem_range]
  constructor
  · rintro ⟨p, hp, hw⟩
    rw [hphys p hp, hslot, hindex] at hw
    refine ⟨e.phys / 4096 + p, ⟨Nat.le_add_right _ _, by omega⟩, ?_⟩
    split at hw
    · cases hw
    split at hw
    · cases hw
    rw [mem_singleton] at hw
    exact ⟨fun h => ‹¬(skipZero = true ∧ _)› ⟨h.1, by omega⟩, by omega, hw⟩
  · rintro ⟨page, ⟨hlo, hhi⟩, hzero, htable, hw⟩
    refine ⟨page - e.phys / 4096, by omega, ?_⟩
    rw [hphys _ (by omega), Nat.add_sub_cancel' hlo, hslot, hindex, if_neg (fun h => hzero ⟨h.1, by omega⟩), if_neg (by omega),
      mem_singleton]
    exact hw

section Stores

variable {s : Mmu} (hs : s.Layout)

include hs

variable {w : ℕ × ℕ} {m m' : Half} {i j t page : ℕ}

theorem pts_lt : s.pts < 1073741824 := by
  have h := hs.pts
  have hcount := hs.count
  unfold countPtSlots at hcount
  omega

theorem pool_eq : s.ptPoolPages = s.idRank 512 + s.ksRank 512 + 1 := hs.count

theorem slot_of_has (h : m.Has s page) : m.slot s (page / 1024) = true := by
  cases m with
  | identity =>
    rw [Half.slot, idSlot_iff, ksSlot_iff]
    obtain ⟨e, he, hmap, hcov⟩ | ⟨e, he, hcov⟩ := h
    · exact .inl ⟨e, he, hmap, marks_of_covers (hs.range e (mem_append_left _ he)).2 hcov⟩
    · exact .inr ⟨e, he, marks_of_covers (hs.range e (mem_append_right _ he)).2 hcov⟩
  | mirror =>
    obtain ⟨e, he, hmap, hcov⟩ := h
    exact (ksSlot_iff s _).mpr ⟨e, he, hmap, marks_of_covers (hs.range e (mem_append_left _ he)).2 hcov⟩

theorem slot_lt (h : m.slot s i = true) : i < 512 ∧ m.first + i < 768 := by
  cases m with
  | identity =>
    have hi := idSlot_lt h
    simp only [Half.first]
    omega
  | mirror =>
    obtain ⟨e, he, hmap, hmarks⟩ := (ksSlot_iff s i).mp h
    have hrange := hs.mapped e he hmap
    unfold Marks at hmarks
    simp only [Half.first]
    omega

theorem table_of_slot (h : m.slot s i = true) :
    m.table s i = s.pts + 4096 * m.rank s i ∧ m.rank s i < s.idRank 512 + s.ksRank 512 := by
  have hlt := (slot_lt hs h).1
  cases m with
  | identity =>
    have hrank : s.idRank i < s.idRank 512 := Nat.count_strict_mono h hlt
    exact ⟨(idPtPhys_eq (pts_lt hs) i).trans (if_pos ⟨hlt, h⟩), by simp only [Half.rank]; omega⟩
  | mirror =>
    have hrank : s.ksRank i < s.ksRank 512 := Nat.count_strict_mono h hlt
    refine ⟨((ksPtPhys_eq (pts_lt hs) i).trans (if_pos ⟨hlt, h⟩)).trans ?_, ?_⟩ <;>
      simp only [Half.rank] <;> omega

theorem slot_of_ne_zero (h : m.table s i ≠ 0) : m.slot s i = true := by
  by_contra hslot
  cases m with
  | identity => exact h ((idPtPhys_eq (pts_lt hs) i).trans (if_neg fun hi => hslot hi.2))
  | mirror => exact h ((ksPtPhys_eq (pts_lt hs) i).trans (if_neg fun hi => hslot hi.2))

omit hs in
theorem eq_of_rank (hi : m.slot s i = true) (hj : m'.slot s j = true) (h : m.rank s i = m'.rank s j) : m = m' ∧ i = j := by
  have hrank : ∀ i, s.idSlot i = true → s.idRank i < s.idRank 512 := fun i hi => Nat.count_strict_mono hi (idSlot_lt hi)
  cases m <;> cases m' <;> simp only [Half.rank] at h
  · exact ⟨rfl, Nat.count_injective hi hj h⟩
  · have := hrank i hi
    omega
  · have := hrank j hj
    omega
  · exact ⟨rfl, Nat.count_injective hi hj (Nat.add_left_cancel h)⟩

omit hs in
theorem eq_of_first (hi : i < 512) (hj : j < 512) (h : m.first + i = m'.first + j) : m = m' ∧ i = j := by
  cases m <;> cases m' <;> simp only [Half.first] at h <;> first | exact ⟨rfl, by omega⟩ | omega

theorem mem_tableStores : w ∈ s.tableStores ↔ ∃ m : Half, ∃ page ≠ 0, m.Has s page ∧
    w = (m.table s (page / 1024) + 4 * (page % 1024), present (4096 * page)) := by
  have hpts := hs.pts
  simp only [tableStores, mem_append, mem_flatMap]
  constructor
  · rintro (⟨e, he, hw⟩ | ⟨e, he, hw⟩)
    · obtain ⟨haligned, hend⟩ := hs.range e (mem_append_left _ he)
      cases hmap : e.noMap
      · rw [hmap, if_neg Bool.false_ne_true, mem_append, mem_populate haligned hend, mem_populate haligned hend] at hw
        obtain ⟨page, hcov, hzero, -, rfl⟩ | ⟨page, hcov, -, -, rfl⟩ := hw
        · exact ⟨.identity, page, fun h => hzero ⟨rfl, h⟩, .inl ⟨e, he, hmap, hcov⟩, rfl⟩
        · have hphys := (hs.mapped e he hmap).1
          exact ⟨.mirror, page, by unfold AllocEntry.Covers at hcov; omega, ⟨e, he, hmap, hcov⟩, rfl⟩
      · rw [hmap, if_pos rfl] at hw
        cases hw
    · obtain ⟨haligned, hend⟩ := hs.range e (mem_append_right _ he)
      rw [mem_populate haligned hend] at hw
      obtain ⟨page, hcov, hzero, -, rfl⟩ := hw
      exact ⟨.identity, page, fun h => hzero ⟨rfl, h⟩, .inr ⟨e, he, hcov⟩, rfl⟩
  · rintro ⟨m, page, hpage, hhas, rfl⟩
    have htable : m.table s (page / 1024) ≠ 0 := by
      have haddr := table_of_slot hs (slot_of_has hs hhas)
      omega
    obtain ⟨e, he, hmap, hcov⟩ | ⟨e, he, hcov, rfl⟩ : (∃ e ∈ s.reg, e.noMap = false ∧ e.Covers page) ∨
        ∃ e ∈ s.image, e.Covers page ∧ m = .identity := by
      cases m with
      | identity => exact hhas.imp_right fun ⟨e, he, hcov⟩ => ⟨e, he, hcov, rfl⟩
      | mirror => exact .inl hhas
    · obtain ⟨haligned, hend⟩ := hs.range e (mem_append_left _ he)
      refine .inl ⟨e, he, ?_⟩
      rw [hmap, if_neg Bool.false_ne_true, mem_append, mem_populate haligned hend, mem_populate haligned hend]
      cases m with
      | identity => exact .inl ⟨page, hcov, fun h => hpage h.2, htable, rfl⟩
      | mirror => exact .inr ⟨page, hcov, fun h => Bool.false_ne_true h.1, htable, rfl⟩
    · obtain ⟨haligned, hend⟩ := hs.range e (mem_append_right _ he)
      exact .inr ⟨e, he, (mem_populate haligned hend).mpr ⟨page, hcov, fun h => hpage h.2, htable, rfl⟩⟩

/-- What is stored for pages is stored in the pool, before the table of the HAL. -/
theorem tableStores_inPool (h : w ∈ s.tableStores) : s.pts ≤ w.1 ∧ w.1 < s.halPtPhys := by
  have hhal := halPtPhys_eq (pts_lt hs)
  obtain ⟨m, page, -, hhas, rfl⟩ := (mem_tableStores hs).mp h
  have haddr := table_of_slot hs (slot_of_has hs hhas)
  simp only
  omega

/-- The two data pages are not in the directory and not in the pool. -/
theorem dataStores_apart (h : w ∈ s.dataStores) :
    (w.1 < s.pd ∨ s.pd + 4096 ≤ w.1) ∧ (w.1 < s.pts ∨ s.pts + 4096 * s.ptPoolPages ≤ w.1) := by
  rw [dataStores, mem_append, mem_zeroWords, mem_zeroWords] at h
  obtain ⟨i, hi, rfl⟩ | ⟨i, hi, rfl⟩ := h
  · have hdata := hs.data s.pcr (.inl rfl)
    simp only
    omega
  · have hdata := hs.data s.sud (.inr rfl)
    simp only
    omega

theorem halStores_inPool (h : w ∈ s.halStores) : s.halPtPhys ≤ w.1 ∧ w.1 < s.pts + 4096 * s.ptPoolPages := by
  have hhal := halPtPhys_eq (pts_lt hs)
  have hpool := pool_eq hs
  simp only [halStores, mem_cons, not_mem_nil, or_false] at h
  obtain rfl | rfl := h
  · simp only
    omega
  · simp only
    omega

/-! ### Words of the directory -/

theorem buildPageTables_pd (hi : i < 1024) (mem : Memory) :
    s.buildPageTables mem (s.pd + 4 * i) =
      storeAll (storeAll (storeAll (storeAll mem (zeroWords s.pd 1024)) (zeroWords s.pts (s.ptPoolPages * 1024))) s.slotStores)
        s.fixedStores (s.pd + 4 * i) := by
  have hpd := hs.pd
  have hhal := halPtPhys_eq (pts_lt hs)
  have hpool := pool_eq hs
  unfold buildPageTables
  simp only [storeAll_append]
  rw [storeAll_of_forall_ne, storeAll_of_forall_ne, storeAll_of_forall_ne]
  · intro w hw
    have h := tableStores_inPool hs hw
    omega
  · intro w hw
    have h := halStores_inPool hs hw
    omega
  · intro w hw
    have h := dataStores_apart hs hw
    omega

theorem mem_slotStores : w ∈ s.slotStores ↔
    ∃ (m : Half) (i : ℕ), m.slot s i = true ∧ w = (s.pd + 4 * (m.first + i), present (m.table s i)) := by
  have hpts := hs.pts
  have hentry : ∀ i, (s.pd + 4 * i, present (s.idPtPhys i)) =
    (s.pd + 4 * (Half.identity.first + i), present (Half.identity.table s i)) :=
    fun i => by rw [Half.first, Nat.zero_add, Half.table]
  simp only [slotStores, mem_flatMap, mem_range, mem_append]
  constructor
  · rintro ⟨i, -, hw | hw⟩
    · split at hw
      · exact ⟨.identity, i, slot_of_ne_zero hs ‹_›, (mem_singleton.mp hw).trans (hentry i)⟩
      · cases hw
    · split at hw
      · exact ⟨.mirror, i, slot_of_ne_zero hs ‹_›, mem_singleton.mp hw⟩
      · cases hw
  · rintro ⟨m, i, hslot, rfl⟩
    have haddr := table_of_slot hs hslot
    refine ⟨i, (slot_lt hs hslot).1, ?_⟩
    have hne : m.table s i ≠ 0 := by omega
    cases m with
    | identity =>
      rw [← hentry, if_pos (show s.idPtPhys i ≠ 0 from hne)]
      exact .inl (mem_singleton_self _)
    | mirror =>
      rw [if_pos (show s.ksPtPhys i ≠ 0 from hne)]
      exact .inr (mem_singleton_self _)

omit hs in
/-- The words that are stored for the slots stay, except for the self-map and the table of the HAL. -/
theorem fixedStores_ne (h768 : i ≠ 768) (h1023 : i ≠ 1023) : ∀ w ∈ s.fixedStores, w.1 ≠ s.pd + 4 * i := by
  intro w hw
  simp only [fixedStores, mem_cons, not_mem_nil, or_false] at hw
  obtain rfl | rfl := hw
  · simp only
    omega
  · simp only
    omega

theorem directory_slot (h : m.slot s i = true) (mem : Memory) :
    s.buildPageTables mem (s.pd + 4 * (m.first + i)) = present (m.table s i) := by
  have hi := slot_lt hs h
  rw [buildPageTables_pd hs (by omega), storeAll_of_forall_ne (fixedStores_ne (by omega) (by omega))]
  refine storeAll_of_mem ((mem_slotStores hs).mpr ⟨m, i, h, rfl⟩) fun w hw heq => ?_
  obtain ⟨m', j, hj, rfl⟩ := (mem_slotStores hs).mp hw
  obtain ⟨rfl, rfl⟩ := eq_of_first (slot_lt hs hj).1 hi.1 (show m'.first + j = m.first + i by simp only at heq; omega)
  rfl

theorem directory_none (hi : i < 1024) (h768 : i ≠ 768) (h1023 : i ≠ 1023)
    (hnone : ∀ (m : Half) (j : ℕ), m.slot s j = true → m.first + j ≠ i) (mem : Memory) :
    s.buildPageTables mem (s.pd + 4 * i) = 0 := by
  have hpd := hs.pd
  rw [buildPageTables_pd hs hi, storeAll_of_forall_ne (fixedStores_ne h768 h1023), storeAll_of_forall_ne, storeAll_of_forall_ne]
  · refine storeAll_of_mem (mem_zeroWords.mpr ⟨i, hi, rfl⟩) fun w hw _ => ?_
    obtain ⟨j, -, rfl⟩ := mem_zeroWords.mp hw
    rfl
  · intro w hw
    obtain ⟨j, hj, rfl⟩ := mem_zeroWords.mp hw
    simp only
    omega
  · intro w hw heq
    obtain ⟨m, j, hj, rfl⟩ := (mem_slotStores hs).mp hw
    exact hnone m j hj (by simp only at heq; omega)

theorem directory_fixed (mem : Memory) :
    s.buildPageTables mem (s.pd + 4 * 768) = present s.pd ∧ s.buildPageTables mem (s.pd + 4 * 1023) = present s.halPtPhys := by
  have hpd := hs.pd
  have hfixed : s.fixedStores = [(s.pd + 4 * 768, present s.pd), (s.pd + 4 * 1023, present s.halPtPhys)] := by
    rw [fixedStores, u32_of_lt (by omega)]
  rw [buildPageTables_pd hs (by decide), buildPageTables_pd hs (by decide), hfixed]
  constructor
  · refine storeAll_of_mem (by simp) fun w hw heq => ?_
    simp only [mem_cons, not_mem_nil, or_false] at hw
    obtain rfl | rfl := hw
    · rfl
    · simp only at heq
      omega
  · refine storeAll_of_mem (by simp) fun w hw heq => ?_
    simp only [mem_cons, not_mem_nil, or_false] at hw
    obtain rfl | rfl := hw
    · simp only at heq
      omega
    · rfl

/-- **The slots of the directory that are in use.** -/
theorem directory_present_iff (hi : i < 1024) (mem : Memory) :
    s.buildPageTables mem (s.pd + 4 * i) % 2 = 1 ↔ i = 768 ∨ i = 1023 ∨ ∃ (m : Half) (j : ℕ), m.slot s j = true ∧
      m.first + j = i := by
  have hpts := hs.pts
  have hpd := hs.pd
  have hpresent : ∀ n, n % 4096 = 0 → present n % 2 = 1 := by
    intro n hn
    rw [show n = 4096 * (n / 4096) by omega, present_eq]
    omega
  by_cases h768 : i = 768
  · subst h768
    rw [(directory_fixed hs mem).1]
    simp only [hpresent s.pd hpd.1, true_or]
  by_cases h1023 : i = 1023
  · subst h1023
    rw [(directory_fixed hs mem).2, halPtPhys_eq (pts_lt hs)]
    simp only [hpresent _ (show (s.pts + 4096 * s.idRank 512 + 4096 * s.ksRank 512) % 4096 = 0 by omega), true_or, or_true]
  by_cases hslot : ∃ (m : Half) (j : ℕ), m.slot s j = true ∧ m.first + j = i
  · refine iff_of_true ?_ (.inr (.inr hslot))
    obtain ⟨m, j, hj, rfl⟩ := hslot
    have haddr := table_of_slot hs hj
    rw [directory_slot hs hj]
    exact hpresent _ (by omega)
  · have hnone := directory_none hs hi h768 h1023 (fun m j hj heq => hslot ⟨m, j, hj, heq⟩) mem
    simp only [hnone, h768, h1023, hslot, or_false, Nat.zero_mod, Nat.zero_ne_one]

/-! ### Words of the tables -/

/-- A word of the pool is `0` before what is stored for the pages, and is not stored to after that. -/
theorem buildPageTables_pool {k : ℕ} (hk : k < s.idRank 512 + s.ksRank 512) (ht : t < 1024) (mem : Memory) :
    ∃ mem₀ : Memory, mem₀ (s.pts + 4096 * k + 4 * t) = 0 ∧
      s.buildPageTables mem (s.pts + 4096 * k + 4 * t) = storeAll mem₀ s.tableStores (s.pts + 4096 * k + 4 * t) := by
  have hpd := hs.pd
  have hhal := halPtPhys_eq (pts_lt hs)
  have hpool := pool_eq hs
  refine ⟨storeAll (storeAll (storeAll (storeAll mem (zeroWords s.pd 1024)) (zeroWords s.pts (s.ptPoolPages * 1024)))
    s.slotStores) s.fixedStores, ?_, ?_⟩
  · rw [storeAll_of_forall_ne, storeAll_of_forall_ne]
    · refine storeAll_of_mem (mem_zeroWords.mpr ⟨1024 * k + t, by omega, ?_⟩) fun w hw _ => ?_
      · rw [Prod.mk.injEq]
        exact ⟨by omega, rfl⟩
      · obtain ⟨j, -, rfl⟩ := mem_zeroWords.mp hw
        rfl
    · intro w hw
      obtain ⟨m, j, hj, rfl⟩ := (mem_slotStores hs).mp hw
      have hlt := slot_lt hs hj
      simp only
      omega
    · intro w hw
      simp only [fixedStores, mem_cons, not_mem_nil, or_false] at hw
      obtain rfl | rfl := hw
      · simp only
        omega
      · simp only
        omega
  · unfold buildPageTables
    simp only [storeAll_append]
    rw [storeAll_of_forall_ne, storeAll_of_forall_ne]
    · intro w hw
      have h := halStores_inPool hs hw
      omega
    · intro w hw
      have h := dataStores_apart hs hw
      omega

/-- The word for a page that is present if `P` holds. -/
def WordOf (mem : Memory) (a page : ℕ) (P : Prop) : Prop := (P → mem a = present (4096 * page)) ∧ (¬P → mem a = 0)

/-- **A word of a table** is what is stored for its page. -/
theorem table_word {d : ℕ} (hd : m.slot s d = true) (ht : t < 1024) (mem : Memory) :
    WordOf (s.buildPageTables mem) (m.table s d + 4 * t) (1024 * d + t) (1024 * d + t ≠ 0 ∧ m.Has s (1024 * d + t)) := by
  obtain ⟨haddr, hrank⟩ := table_of_slot hs hd
  obtain ⟨mem₀, hzero, heq⟩ := buildPageTables_pool hs hrank ht mem
  -- where a store for a page goes says which page it is for, and in which map
  have hat : ∀ w ∈ s.tableStores, w.1 = s.pts + 4096 * m.rank s d + 4 * t →
      (1024 * d + t ≠ 0 ∧ m.Has s (1024 * d + t)) ∧ w.2 = present (4096 * (1024 * d + t)) := by
    intro w hw hw'
    obtain ⟨m', page, hne, hhas, rfl⟩ := (mem_tableStores hs).mp hw
    have hslot := slot_of_has hs hhas
    have haddr' := table_of_slot hs hslot
    simp only at hw'
    obtain ⟨rfl, rfl⟩ := eq_of_rank hslot hd (by omega)
    rw [show 1024 * (page / 1024) + t = page by omega]
    exact ⟨⟨hne, hhas⟩, rfl⟩
  rw [WordOf, haddr, heq]
  refine ⟨fun h => storeAll_of_mem ((mem_tableStores hs).mpr ⟨m, _, h.1, h.2, ?_⟩) fun w hw hw' => (hat w hw hw').2,
    fun hnot => ?_⟩
  · rw [show (1024 * d + t) / 1024 = d by omega, show (1024 * d + t) % 1024 = t by omega, haddr]
  · rw [storeAll_of_forall_ne, hzero]
    exact fun w hw hw' => hnot (hat w hw hw').1

/-! ### Walks -/

variable (mem : Memory)

/-- **A walk** through one of the maps. -/
theorem walk_iff {va : ℕ} (hva : va / 4194304 < 512 ∧ m.first + va / 4194304 < 768) (pa : ℕ) :
    walk (s.buildPageTables mem) s.pd (4194304 * m.first + va) = some pa ↔ pa = va ∧ va / 4096 ≠ 0 ∧ m.Has s (va / 4096) := by
  have hdir : (4194304 * m.first + va) / 4194304 = m.first + va / 4194304 := by omega
  have hindex : (4194304 * m.first + va) / 4096 % 1024 = va / 4096 % 1024 := by omega
  unfold walk
  simp only [hdir, hindex]
  cases hslot : m.slot s (va / 4194304) with
  | false =>
    have hnot : ¬m.Has s (va / 4096) := fun h => by
      have hpage := slot_of_has hs h
      rw [show va / 4096 / 1024 = va / 4194304 by omega, hslot] at hpage
      cases hpage
    rw [directory_none hs (by omega) (by omega) (by omega) fun m' j hj heq => ?_]
    · simp [hnot]
    · obtain ⟨rfl, rfl⟩ := eq_of_first (slot_lt hs hj).1 hva.1 heq
      rw [hslot] at hj
      cases hj
  | true =>
    have hpts := hs.pts
    have haddr := table_of_slot hs hslot
    obtain ⟨hyes, hno⟩ := table_word hs hslot (show va / 4096 % 1024 < 1024 by omega) mem
    rw [show 1024 * (va / 4194304) + va / 4096 % 1024 = va / 4096 by omega] at hyes hno
    obtain ⟨n, hn⟩ := Nat.dvd_of_mod_eq_zero (show m.table s (va / 4194304) % 4096 = 0 by omega)
    rw [directory_slot hs hslot]
    rw [hn] at hyes hno ⊢
    rw [present_eq, if_neg (by omega), show (4096 * n + 3) / 4096 * 4096 = 4096 * n by omega]
    by_cases hP : va / 4096 ≠ 0 ∧ m.Has s (va / 4096)
    · rw [hyes hP, present_eq, if_neg (by omega), Option.some.injEq, and_iff_left hP]
      omega
    · rw [hno hP]
      exact iff_of_false (by simp) fun h => hP h.2

/-- **The tables are exact** if every slot that has a table has a page. -/
theorem exactTables_iff : ExactTables s (s.buildPageTables mem) ↔
    ∀ (m : Half) (i : ℕ), m.slot s i = true → ∃ page ≠ 0, m.Has s page ∧ page / 1024 = i := by
  have hslots : ∀ i, ((∃ page ≠ 0, s.Mapped page ∧ page / 1024 = i) ∨ ∃ page ≠ 0, s.Mirrored page ∧ 512 + page / 1024 = i) ↔
      ∃ m : Half, ∃ page ≠ 0, m.Has s page ∧ m.first + page / 1024 = i := by
    intro i
    constructor
    · rintro (⟨page, hne, h, rfl⟩ | h)
      · exact ⟨.identity, page, hne, h, Nat.zero_add _⟩
      · exact ⟨.mirror, h⟩
    · rintro ⟨_ | _, page, hne, h, rfl⟩
      · exact .inl ⟨page, hne, h, (Nat.zero_add _).symm⟩
      · exact .inr ⟨page, hne, h, rfl⟩
  constructor
  · intro h m i hslot
    have hi := slot_lt hs hslot
    have hused := (h.slots (m.first + i) (by omega)).mp
      ((directory_present_iff hs (by omega) mem).mpr (.inr (.inr ⟨m, i, hslot, rfl⟩)))
    rw [hslots] at hused
    obtain h' | h' | ⟨m', page, hne, hhas, heq⟩ := hused
    · omega
    · omega
    · obtain ⟨rfl, rfl⟩ := eq_of_first (slot_lt hs (slot_of_has hs hhas)).1 hi.1 heq
      exact ⟨page, hne, hhas, rfl⟩
  · intro hfull
    have hpool := pool_eq hs
    have hinPool : ∀ (m : Half) (i : ℕ), m.table s i ≠ 0 → s.InPool (m.table s i) := by
      intro m i h
      have haddr := table_of_slot hs (slot_of_ne_zero hs h)
      unfold InPool
      omega
    refine ⟨fun i _ => hinPool .identity i, fun i _ => hinPool .mirror i, ?_, fun va hva pa => ?_, fun va hva pa => ?_,
      fun i hi => ?_⟩
    · rw [halPtPhys_eq (pts_lt hs), InPool]
      omega
    · have hwalk := walk_iff (m := .identity) hs mem (show va / 4194304 < 512 ∧ _ by simp only [Half.first]; omega) pa
      rwa [Half.first, Nat.mul_zero, Nat.zero_add] at hwalk
    · exact walk_iff (m := .mirror) hs mem (by simp only [Half.first]; omega) pa
    · rw [directory_present_iff hs hi, hslots]
      refine or_congr_right (or_congr_right ⟨?_, ?_⟩)
      · rintro ⟨m, j, hj, rfl⟩
        obtain ⟨page, hne, hhas, rfl⟩ := hfull m j hj
        exact ⟨m, page, hne, hhas, rfl⟩
      · rintro ⟨m, page, -, hhas, rfl⟩
        exact ⟨m, _, slot_of_has hs hhas, rfl⟩

end Stores

end Nt365.Boot.Mmu
