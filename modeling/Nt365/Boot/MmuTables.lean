import Nt365.Boot.Mmu
import Mathlib.Order.Nat

/-!
# Slots, tables and what is registered

The slots that `count_pt_slots` marks, the addresses of the tables that are assigned to them, and what the calls keep:
the page directory, the PCR page and the shared page are registered, and nothing that is mapped is at address `0`.
-/

namespace Nt365.Boot.Mmu

open Nt365.Library List

/-! ### Slots -/

/-- The range marks the slot. -/
def Marks (e : AllocEntry) (i : ℕ) : Prop :=
  e.phys / 4194304 ≤ i ∧ i ≤ (e.phys + e.pages * 4096 + 18446744073709551615) % 18446744073709551616 / 4194304 ∧ i < 512

theorem markSlots_iff {slot : ℕ → Bool} {e : AllocEntry} {i : ℕ} : markSlots slot e i = true ↔ slot i = true ∨ Marks e i := by
  simp only [markSlots, Marks, Bool.or_eq_true, Bool.and_eq_true, decide_eq_true_eq, and_assoc]
  exact or_comm

theorem foldl_markSlots_iff (es : List AllocEntry) (slot : ℕ → Bool) (i : ℕ) :
    es.foldl markSlots slot i = true ↔ slot i = true ∨ ∃ e ∈ es, Marks e i := by
  induction es generalizing slot with
  | nil => simp
  | cons e es ih => rw [foldl_cons, ih, markSlots_iff, exists_mem_cons_iff, or_assoc]

theorem ksSlot_iff (s : Mmu) (i : ℕ) : s.ksSlot i = true ↔ ∃ e ∈ s.reg, e.noMap = false ∧ Marks e i := by
  unfold ksSlot
  generalize hslot : (fun _ : ℕ => false) = slot
  have hgen : ∀ (es : List AllocEntry) (slot : ℕ → Bool),
      es.foldl (fun slot e => if e.noMap then slot else markSlots slot e) slot i = true ↔
        slot i = true ∨ ∃ e ∈ es, e.noMap = false ∧ Marks e i := by
    intro es
    induction es with
    | nil => simp
    | cons e es ih =>
      intro slot
      rw [foldl_cons, ih, exists_mem_cons_iff]
      cases hmap : e.noMap
      · simp [markSlots_iff, or_assoc]
      · simp
  rw [hgen, ← hslot]
  simp

theorem idSlot_iff (s : Mmu) (i : ℕ) : s.idSlot i = true ↔ s.ksSlot i = true ∨ ∃ e ∈ s.image, Marks e i :=
  foldl_markSlots_iff _ _ _

theorem marks_of_covers {e : AllocEntry} (hend : e.phys + 4096 * e.pages ≤ 2147483648) {page : ℕ}
    (h : e.Covers page) : Marks e (page / 1024) := by
  unfold AllocEntry.Covers at h
  unfold Marks
  omega

/-! ### Tables -/

theorem assignTables_eq (slot : ℕ → Bool) {cursor : ℕ} (h : cursor + 4096 * 512 < 4294967296) :
    assignTables slot cursor = (fun i => if i < 512 ∧ slot i = true then cursor + 4096 * Nat.count (slot · = true) i else 0,
      cursor + 4096 * Nat.count (slot · = true) 512) := by
  unfold assignTables
  have hgen : ∀ n ≤ 512, (List.range n).foldl
      (fun a i => if slot i then (Function.update a.1 i a.2, add32 a.2 4096) else a) ((fun _ => 0 : ℕ → ℕ), cursor) =
      (fun i => if i < n ∧ slot i = true then cursor + 4096 * Nat.count (slot · = true) i else 0,
        cursor + 4096 * Nat.count (slot · = true) n) := by
    intro n hn
    induction n with
    | zero => simp
    | succ n ih =>
      rw [range_succ, foldl_append, ih (by omega), foldl_cons, foldl_nil, Nat.count_succ]
      have hcount : Nat.count (slot · = true) n ≤ n := Nat.count_le _
      cases hslot : slot n
      · simp only [Bool.false_eq_true, if_false, Nat.add_zero, Prod.mk.injEq, and_true]
        funext i
        refine if_congr (and_congr_left fun hi => ?_) rfl rfl
        have hne : i ≠ n := by
          rintro rfl
          rw [hslot] at hi
          cases hi
        omega
      · simp only [if_true, Prod.mk.injEq]
        refine ⟨?_, ?_⟩
        · funext i
          by_cases hi : i = n
          · subst hi
            rw [Function.update_self, if_pos ⟨by omega, hslot⟩]
          · rw [Function.update_of_ne hi]
            exact if_congr (and_congr_left fun _ => by omega) rfl rfl
        · rw [add32_of_lt (by omega)]
          omega
  exact hgen 512 le_rfl

/-! ### Calls -/

section Calls

variable {beAllocPages : List Request → ℕ}

theorem mmuAllocImpl_cases (pages : ℕ) (kind : PageKind) (mode : BeAllocMode) (preferred : ℕ) (noMap : Bool) (s : Mmu) :
    (∃ rs, mmuAllocImpl beAllocPages pages kind mode preferred noMap s = ({ s with requests := rs }, none)) ∨
    ∃ rs phys, phys ≠ 0 ∧ mmuAllocImpl beAllocPages pages kind mode preferred noMap s =
      ({ s with requests := rs, reg := s.reg ++ [⟨phys, pages, kind, noMap⟩] }, some phys) := by
  unfold mmuAllocImpl
  split
  · exact .inl ⟨s.requests, rfl⟩
  · simp only
    split
    · exact .inl ⟨_, rfl⟩
    · exact .inr ⟨_, _, ‹_›, rfl⟩

/-- **What the variables stand for**: the directory, the PCR page and the shared page are registered if they have been
allocated, the directory first, and what is mapped is not at address `0`. -/
structure Registered (s : Mmu) : Prop where
  pd : s.pd ≠ 0 → ⟨s.pd, 1, .memoryData, false⟩ ∈ s.reg
  pcr : s.pcr ≠ 0 → ⟨s.pcr, 1, .pcr, false⟩ ∈ s.reg ∧ s.pd ≠ 0
  sud : s.sud ≠ 0 → ⟨s.sud, 1, .pcr, false⟩ ∈ s.reg ∧ s.pd ≠ 0
  mapped : ∀ e ∈ s.reg, e.noMap = false → e.phys ≠ 0

namespace Registered

variable {s : Mmu}

theorem requests (h : s.Registered) (rs : List Request) : Registered { s with requests := rs } := { h with }

theorem append (h : s.Registered) {e : AllocEntry} (he : e.noMap = false → e.phys ≠ 0) :
    Registered { s with reg := s.reg ++ [e] } where
  pd hpd := mem_append_left _ (h.pd hpd)
  pcr hpcr := ⟨mem_append_left _ (h.pcr hpcr).1, (h.pcr hpcr).2⟩
  sud hsud := ⟨mem_append_left _ (h.sud hsud).1, (h.sud hsud).2⟩
  mapped := by
    simp only [forall_mem_append, forall_mem_singleton]
    exact ⟨h.mapped, he⟩

theorem alloc (h : s.Registered) (pages : ℕ) (kind : PageKind) (mode : BeAllocMode) (preferred : ℕ) (noMap : Bool) :
    (mmuAllocImpl beAllocPages pages kind mode preferred noMap s).1.Registered := by
  obtain ⟨rs, heq⟩ | ⟨rs, phys, hphys, heq⟩ := @mmuAllocImpl_cases beAllocPages pages kind mode preferred noMap s
  · rw [heq]
    exact h.requests rs
  · rw [heq]
    exact (h.append fun _ => hphys).requests rs

end Registered

/-- Pages are allocated, and what follows starts with them registered. -/
theorem allocInto_rule {pages : ℕ} {kind : PageKind} {set : ℕ → Mmu → Mmu} {next : Mmu → Mmu × Status} {s : Mmu}
    (hs : s.Registered) (hset : ∀ phys t, phys ≠ 0 → t.Registered → t.pd = s.pd → ⟨phys, pages, kind, false⟩ ∈ t.reg →
      (next (set phys t)).1.Registered) :
    (allocInto beAllocPages pages kind set next s).1.Registered := by
  unfold allocInto mmuAllocBelow
  obtain ⟨rs, heq⟩ | ⟨rs, phys, hphys, heq⟩ := @mmuAllocImpl_cases beAllocPages pages kind .max low16M false s
  · rw [heq]
    exact hs.requests rs
  · rw [heq]
    exact hset phys _ hphys ((hs.append fun _ => hphys).requests rs) rfl (by simp)

theorem Registered.allocReserved {s : Mmu} (hs : s.Registered) : (mmuAllocReserved beAllocPages s).1.Registered := by
  unfold mmuAllocReserved
  refine allocInto_rule hs fun pd t hpd ht _ hmem => ?_
  have ht : Registered { t with pd := pd } :=
    ⟨fun _ => hmem, fun h => ⟨(ht.pcr h).1, hpd⟩, fun h => ⟨(ht.sud h).1, hpd⟩, ht.mapped⟩
  refine allocInto_rule ht fun pcr t _ ht hpd₁ hmem => ?_
  have hpd₁ : t.pd ≠ 0 := hpd₁.trans_ne hpd
  have ht : Registered { t with pcr := pcr } := ⟨ht.pd, fun _ => ⟨hmem, hpd₁⟩, ht.sud, ht.mapped⟩
  refine allocInto_rule ht fun sud t _ ht hpd₂ hmem => ?_
  have ht : Registered { t with sud := sud } := ⟨ht.pd, ht.pcr, fun _ => ⟨hmem, hpd₂.trans_ne hpd₁⟩, ht.mapped⟩
  refine allocInto_rule ht fun _ t _ ht _ _ => allocInto_rule ht fun _ t _ ht _ _ => ?_
  exact allocInto_rule ht fun _ t _ ht _ _ => allocInto_rule ht fun _ t _ ht _ _ => ht

theorem Registered.step {s : Mmu} (hs : s.Registered) (c : Call) : (s.step beAllocPages c).Registered := by
  cases c with
  | alloc pages kind => exact hs.alloc pages kind .any 0 false
  | allocAt pages kind preferred => exact hs.alloc pages kind .at preferred false
  | allocBelow pages kind maxAddr => exact hs.alloc pages kind .max maxAddr false
  | allocReserve pages kind => exact hs.alloc pages kind .any 0 true
  | allocReserved => exact hs.allocReserved
  | reserve phys pages kind =>
    unfold Mmu.step mmuReserve
    simp only
    split
    · exact hs
    · exact hs.append (by simp)
  | registerImage phys pages =>
    unfold Mmu.step mmuRegisterImage
    simp only
    split
    · exact hs
    · exact { hs with }

/-- **Every run** registers what it keeps. -/
theorem registered_run (calls : List Call) : (run beAllocPages calls).Registered := by
  have hinit : init.Registered := ⟨fun h => absurd rfl h, fun h => absurd rfl h, fun h => absurd rfl h, by simp [init]⟩
  have hgen : ∀ s : Mmu, s.Registered → (calls.foldl (Mmu.step beAllocPages) s).Registered := by
    induction calls with
    | nil => exact fun s hs => hs
    | cons c calls ih => exact fun s hs => ih _ (hs.step c)
  exact hgen init hinit

/-- The pool, if it has been allocated: its range comes last in the registry. -/
theorem mmuAllocPtPool_success {s t : Mmu} (h : mmuAllocPtPool beAllocPages s = (t, .success)) :
    t.pts ≠ 0 ∧ t.ptPoolPages = s.countPtSlots ∧ t.reg = s.reg ++ [⟨t.pts, t.ptPoolPages, .memoryData, false⟩] ∧
      t.image = s.image ∧ t.pd = s.pd ∧ t.pcr = s.pcr ∧ t.sud = s.sud := by
  unfold mmuAllocPtPool allocInto mmuAllocBelow at h
  obtain ⟨rs, heq⟩ | ⟨rs, phys, hphys, heq⟩ := @mmuAllocImpl_cases beAllocPages s.countPtSlots .memoryData .max low16M false s
  · simp only [heq] at h
    cases h
  · simp only [heq] at h
    cases h
    exact ⟨hphys, rfl, rfl, rfl, rfl, rfl, rfl⟩

end Calls

end Nt365.Boot.Mmu
