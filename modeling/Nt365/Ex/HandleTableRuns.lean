import Nt365.Ex.HandleTableMap

/-!
# Runs of calls on a handle table

A run creates a table and makes any calls on it, or on a duplicate that replaces it, with quota and memory granted or refused
anew at each call. The run is right if every call does to the map what it should and leaves a free list of exactly the free
entries. It is right exactly if no table is asked to be larger than a word can say and no live handle of a table of
one-word entries that is looked up has the value 0.
-/

namespace Nt365.Ex.Handle

open Nt365.Library

variable {log : ℕ}

/-- A call, with what the caller guarantees: values have their low bit clear, and handles are words. -/
inductive Call (log : ℕ) where
  | createHandle (r : Supply log) (v : Entry log) (low : testFreePointer v.pointer = false)
  | destroyHandle (h : ℕ) (word : h < 4294967296)
  | changeHandle (h : ℕ) (word : h < 4294967296) (changeRoutine : Entry log → Bool × Entry log)
      (low : ∀ e, testFreePointer e.pointer = false → testFreePointer (changeRoutine e).2.pointer = false)
  | mapHandleToPointer (h : ℕ)
  | enumHandleTable (procedure : List ℕ → Entry log → ℕ → Bool)
  | dupHandleTable (r : Supply log) (process : Bool) (procedure : Option (Entry log → Bool)) (replaces : Bool)

/-- What a call returns. -/
inductive Answer (log : ℕ) where
  | handle (h : ℕ)
  | success (result : Bool)
  | pointer (p : ℕ)
  | visited (result : Option ℕ × List ℕ)
  | table (t : Option (HandleTable log))

namespace Call

/-- The table after a call, and the answer. -/
def apply (t : HandleTable log) : Call log → Except Fault (HandleTable log × Answer log)
  | createHandle r v _ => do
    let (h, t) ← exCreateHandle r t v
    return (t, .handle h)
  | destroyHandle h _ => do
    let (result, t) ← exDestroyHandle t h
    return (t, .success result)
  | changeHandle h _ changeRoutine _ => do
    let (result, t) ← exChangeHandle t h changeRoutine
    return (t, .success result)
  | mapHandleToPointer h => do
    let p ← exMapHandleToPointer t h
    return (t, .pointer p)
  | enumHandleTable procedure => do
    let result ← exEnumHandleTable t procedure
    return (t, .visited result)
  | dupHandleTable r process procedure replaces => do
    let new ← exDupHandleTable r process t procedure
    return (if replaces then new.getD t else t, .table new)

/-- What a call should do to the map and answer. -/
def Refines (t t' : HandleTable log) : Call log → Answer log → Prop
  | createHandle _ v _, .handle h => Created t v h t'
  | destroyHandle h _, .success result => Destroyed t h result t'
  | changeHandle h _ changeRoutine _, .success result => Changed t h changeRoutine result t'
  | mapHandleToPointer h, .pointer p => t' = t ∧ Mapped t h p
  | enumHandleTable procedure, .visited result => t' = t ∧ Enumerated t procedure result
  | dupHandleTable _ _ procedure replaces, .table new =>
    t' = (if replaces then new.getD t else t) ∧ ∀ d, new = some d → (∃ b, Holds d b) ∧ Duplicated t procedure d
  | _, _ => False

/-- The condition on a call: a table that is to grow fits, and a live one-word value that is looked up is not 0. -/
def Fits (t : HandleTable log) : Call log → Prop
  | createHandle r _ _ => GrowthFits r t
  | mapHandleToPointer h => log = 0 → ∀ e, t.value h = some e → e.pointer ≠ 0
  | _ => True

end Call

/-- Every call of a run does what it should. -/
def RunRight (t : HandleTable log) : List (Call log) → Prop
  | [] => True
  | c :: cs => ∃ t' answer, c.apply t = .ok (t', answer) ∧ c.Refines t t' answer ∧ (∃ b, Holds t' b) ∧ RunRight t' cs

/-- Every call of a run meets the condition in the table that it is made on. -/
def RunFits (t : HandleTable log) : List (Call log) → Prop
  | [] => True
  | c :: cs => c.Fits t ∧ ∀ t' answer, c.apply t = .ok (t', answer) → RunFits t' cs

section Step

variable {t : HandleTable log} {b : Block log} {c : Call log}

theorem Call.refines (ht : Holds t b) (hfits : c.Fits t) :
    ∃ t' answer, c.apply t = .ok (t', answer) ∧ c.Refines t t' answer ∧ ∃ b', Holds t' b' := by
  cases c with
  | createHandle r v low =>
    obtain ⟨h, t', b', happly, ht', hcreated⟩ := exCreateHandle_spec ht low hfits
    refine ⟨t', .handle h, ?_, hcreated, b', ht'⟩
    rw [apply, happly, ok_bind]
    rfl
  | destroyHandle h word =>
    obtain ⟨result, t', b', happly, ht', hdestroyed⟩ := exDestroyHandle_spec ht word
    refine ⟨t', .success result, ?_, hdestroyed, b', ht'⟩
    rw [apply, happly, ok_bind]
    rfl
  | changeHandle h word changeRoutine low =>
    obtain ⟨result, t', b', happly, ht', hchanged⟩ := exChangeHandle_spec ht word low
    refine ⟨t', .success result, ?_, hchanged, b', ht'⟩
    rw [apply, happly, ok_bind]
    rfl
  | mapHandleToPointer h =>
    obtain ⟨p, happly, hmapped⟩ := exMapHandleToPointer_spec (h := h) ht
    refine ⟨t, .pointer p, ?_, ⟨rfl, hmapped.mpr hfits⟩, b, ht⟩
    rw [apply, happly, ok_bind]
    rfl
  | enumHandleTable procedure =>
    obtain ⟨result, happly, henumerated⟩ := exEnumHandleTable_spec ht
    refine ⟨t, .visited result, ?_, ⟨rfl, henumerated⟩, b, ht⟩
    rw [apply, happly, ok_bind]
    rfl
  | dupHandleTable r process procedure replaces =>
    obtain ⟨new, happly, hdup⟩ := exDupHandleTable_spec (r := r) ht
    refine ⟨if replaces then new.getD t else t, .table new, ?_, ⟨rfl, hdup⟩, ?_⟩
    · rw [apply, happly, ok_bind]
      rfl
    · cases replaces with
      | false => exact ⟨b, ht⟩
      | true =>
        cases new with
        | none => exact ⟨b, ht⟩
        | some d => exact (hdup d rfl).1

theorem Call.fits_of_refines (ht : Holds t b) {t' : HandleTable log} {answer : Answer log} (happly : c.apply t = .ok (t', answer))
    (hrefines : c.Refines t t' answer) : c.Fits t := by
  cases c with
  | createHandle r v low =>
    by_contra hover
    obtain ⟨f, hf⟩ := exCreateHandle_error (v := v) ht hover
    rw [apply, hf] at happly
    cases happly
  | mapHandleToPointer h =>
    obtain ⟨p, hp, hmapped⟩ := exMapHandleToPointer_spec (h := h) ht
    rw [apply, hp, ok_bind] at happly
    obtain ⟨rfl, rfl⟩ := Prod.mk.inj (Except.ok.inj happly)
    exact hmapped.mp hrefines.2
  | _ => trivial

/-- A run is right exactly if its calls meet the condition. -/
theorem runRight_iff {calls : List (Call log)} (ht : Holds t b) : RunRight t calls ↔ RunFits t calls := by
  induction calls generalizing t b with
  | nil => rfl
  | cons c cs ih =>
    constructor
    · rintro ⟨t', answer, happly, hrefines, ⟨b', ht'⟩, hrest⟩
      refine ⟨c.fits_of_refines ht happly hrefines, fun u answer' happly' => ?_⟩
      rw [happly] at happly'
      obtain ⟨rfl, -⟩ := Prod.mk.inj (Except.ok.inj happly')
      exact (ih ht').mp hrest
    · rintro ⟨hfits, hrest⟩
      obtain ⟨t', answer, happly, hrefines, b', ht'⟩ := Call.refines ht hfits
      exact ⟨t', answer, happly, hrefines, ⟨b', ht'⟩, (ih ht').mpr (hrest t' answer happly)⟩

end Step

/-- What creating a table and the calls after it should do. -/
def TableRight (smallSystem : Bool) (r : Supply log) (process : Bool) (initial growBy : ℕ) (calls : List (Call log)) : Prop :=
  ∃ result, exCreateHandleTable smallSystem r process initial growBy = .ok result ∧
    ∀ t, result = some t → (∃ b, Holds t b) ∧ (∀ h, t.value h = none) ∧ RunRight t calls

/-- **A handle table is a finite map**, exactly if its entries fit in the words that count their bytes, when it is created and
whenever it grows, and no value 0 of a live handle is looked up in a table of one-word entries. -/
theorem handleTable_refines_map (smallSystem : Bool) (r : Supply log) (process : Bool) {initial growBy : ℕ}
    (hinitial : initial < 4294967296) (hgrowBy : growBy < 4294967296) (calls : List (Call log)) :
    TableRight smallSystem r process initial growBy calls ↔
      InitialFits r process (countOrDefault smallSystem initial) ∧
      ∀ t, exCreateHandleTable smallSystem r process initial growBy = .ok (some t) → RunFits t calls := by
  constructor
  · rintro ⟨result, hcreate, hright⟩
    constructor
    · by_contra hover
      obtain ⟨f, hf⟩ := exCreateHandleTable_error growBy hinitial hover
      rw [hf] at hcreate
      cases hcreate
    · intro t ht
      rw [hcreate] at ht
      obtain ⟨⟨b, hholds⟩, -, hrun⟩ := hright t (Except.ok.inj ht)
      exact (runRight_iff hholds).mp hrun
  · rintro ⟨hfits, hrun⟩
    obtain ⟨result, hcreate, hnew⟩ := exCreateHandleTable_spec hgrowBy hfits
    refine ⟨result, hcreate, fun t ht => ?_⟩
    obtain ⟨⟨b, hholds⟩, hempty⟩ := hnew t ht
    subst ht
    exact ⟨⟨b, hholds⟩, hempty, (runRight_iff hholds).mpr (hrun t hcreate)⟩

/-- A system that grants everything, with the blocks of the pool at the address 8. -/
def grantAll (log : ℕ) : Supply log where
  header := true
  headerQuota := true
  quota := true
  alloc size := if size ≤ 4096 then some ⟨8, List.replicate (size / bytes log 1) .zero⟩ else none
  alloc_sound := by
    intro size b h
    split at h
    · obtain rfl := Option.some.inj h
      dsimp only
      exact ⟨by omega, by omega, dvd_refl 8, by omega, List.length_replicate⟩
    · cases h

/-- A table for one handle that is asked for two: it grows, and the first handle is still there. -/
theorem handleTable_refines_map_grown :
    TableRight true (grantAll 0) true 1 1
      [.createHandle (grantAll 0) ⟨16, #v[]⟩ rfl, .createHandle (grantAll 0) ⟨32, #v[]⟩ rfl, .mapHandleToPointer 1] := by
  refine (handleTable_refines_map true (grantAll 0) true (by omega) (by omega) _).mpr ⟨by decide, ?_⟩
  have hnew : exCreateHandleTable true (grantAll 0) true 1 1 = .ok (some ⟨true, 1, 1, 9, some ⟨8, [⟨1, #v[]⟩]⟩⟩) := rfl
  rw [hnew]
  rintro _ ⟨⟩
  refine ⟨show GrowthFits _ _ by decide, ?_⟩
  rintro _ _ ⟨⟩
  refine ⟨show GrowthFits _ _ by decide, ?_⟩
  rintro _ _ ⟨⟩
  refine ⟨?_, fun _ _ _ => trivial⟩
  rintro - _ ⟨⟩
  decide

/-- With `2 ^ 30` entries of 4 bytes the number of bytes is 0: the chain of free entries is written outside the block. -/
theorem handleTable_overflow : ¬TableRight true (grantAll 0) true 1073741824 1 [] := by
  rintro ⟨result, hcreate, -⟩
  obtain ⟨f, hf⟩ := exCreateHandleTable_error 1 (show 1073741824 < 4294967296 by omega)
    (show ¬InitialFits (grantAll 0) true (countOrDefault true 1073741824) by decide)
  rw [hf] at hcreate
  cases hcreate

end Nt365.Ex.Handle
