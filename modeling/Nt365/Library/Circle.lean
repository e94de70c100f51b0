import Mathlib.Data.List.Chain
import Mathlib.Data.List.Nodup
import Mathlib.Logic.Function.Iterate

/-!
# Circular lists in memory

An entry has links to the next entry and to the one before it. A list is a circle of entries
through a head; `Circle` says which entries there are between the head and itself. An entry is put in
before the head, and taken out from any place, by changing the links of its neighbours.
-/

namespace Nt365.Library

open List

/-- The links of the entries. -/
structure Entries (α : Type*) where
  flink : α → α
  blink : α → α

namespace Entries

variable {α : Type*} {e : Entries α} {head x a b : α} {l l₁ l₂ : List α}

/-- One entry is followed by the other. -/
def Adjacent (e : Entries α) (a b : α) : Prop := e.flink a = b ∧ e.blink b = a

/-- The entries from the head on are `l`. -/
def Circle (e : Entries α) (head : α) (l : List α) : Prop := (head :: (l ++ [head])).IsChain e.Adjacent

theorem Circle.flink_iterate (hc : e.Circle head l) {k d : ℕ} (ha : (head :: (l ++ [head]))[k]? = some a)
    (hb : (head :: (l ++ [head]))[k + d]? = some b) : e.flink^[d] a = b := by
  induction d generalizing k a with
  | zero => exact Option.some.inj (ha.symm.trans hb)
  | succ d ih =>
    obtain ⟨hk, -⟩ := List.getElem?_eq_some_iff.mp hb
    obtain ⟨hk', rfl⟩ := List.getElem?_eq_some_iff.mp ha
    have hstep := (isChain_iff_getElem.mp hc k (by omega)).1
    rw [Function.iterate_succ_apply, hstep]
    exact ih (getElem?_eq_getElem _) (by rwa [Nat.add_right_comm])

theorem Circle.blink_iterate (hc : e.Circle head l) {k d : ℕ} (ha : (head :: (l ++ [head]))[k]? = some a)
    (hb : (head :: (l ++ [head]))[k + d]? = some b) : e.blink^[d] b = a := by
  induction d generalizing b with
  | zero => exact Option.some.inj (hb.symm.trans ha)
  | succ d ih =>
    obtain ⟨hk, rfl⟩ := List.getElem?_eq_some_iff.mp hb
    have hstep := (isChain_iff_getElem.mp hc (k + d) hk).2
    rw [Function.iterate_succ_apply]
    exact ih (by rw [getElem?_eq_getElem (by omega), ← hstep]; rfl)

theorem Circle.congr {e' : Entries α} (hc : e.Circle head l) (hflink : ∀ a ∈ head :: l, e'.flink a = e.flink a)
    (hblink : ∀ a ∈ head :: l, e'.blink a = e.blink a) : e'.Circle head l := by
  have hmem : ∀ a, a ∈ head :: (l ++ [head]) → a ∈ head :: l := by simp [or_comm]
  refine hc.imp_of_mem_imp fun a b ha hb hab => ⟨?_, ?_⟩
  · rw [hflink a (hmem a ha), hab.1]
  · rw [hblink b (hmem b hb), hab.2]

variable [DecidableEq α]

def setFlink (e : Entries α) (x y : α) : Entries α := { e with flink := Function.update e.flink x y }

def setBlink (e : Entries α) (x y : α) : Entries α := { e with blink := Function.update e.blink x y }

section Set

variable (e : Entries α) (x y z : α)

@[simp] theorem setFlink_flink : (e.setFlink x y).flink z = if z = x then y else e.flink z := Function.update_apply ..

@[simp] theorem setFlink_blink : (e.setFlink x y).blink = e.blink := rfl

@[simp] theorem setBlink_blink : (e.setBlink x y).blink z = if z = x then y else e.blink z := Function.update_apply ..

@[simp] theorem setBlink_flink : (e.setBlink x y).flink = e.flink := rfl

end Set

/-- An entry that is alone. -/
def single (e : Entries α) (x : α) : Entries α := (e.setBlink x x).setFlink x x

/-- Puts an entry in before the head. -/
def insertTail (e : Entries α) (head x : α) : Entries α :=
  let last := e.blink head
  (((e.setFlink x head).setBlink x last).setFlink last x).setBlink head x

/-- Takes an entry out. -/
def remove (e : Entries α) (x : α) : Entries α :=
  let next := e.flink x
  let last := e.blink x
  (e.setFlink last next).setBlink next last

theorem circle_single (e : Entries α) (x : α) : (e.single x).Circle x [] := by simp [Circle, Adjacent, single]

/-- **An entry is put in at the end.** -/
theorem Circle.insertTail (hc : e.Circle head l) (hhead : head ∉ l) (hx : x ∉ head :: l) :
    (e.insertTail head x).Circle head (l ++ [x]) := by
  obtain ⟨A, p, hA⟩ : ∃ A p, head :: l = A ++ [p] := (eq_nil_or_concat' _).resolve_left (cons_ne_nil _ _)
  have hL : head :: (l ++ [head]) = A ++ p :: head :: [] := by
    rw [← cons_append, hA]
    simp
  have hL' : head :: (l ++ [x] ++ [head]) = A ++ p :: x :: [head] := by
    rw [append_assoc, ← cons_append, hA]
    simp
  unfold Circle at hc ⊢
  rw [hL, isChain_append_cons_cons] at hc
  obtain ⟨hpre, ⟨hnext, hlast⟩, -⟩ := hc
  rw [← hA] at hpre
  have hpx : p ≠ x := by
    rintro rfl
    exact hx (by simp [hA])
  have hxh : x ≠ head := fun h => hx (by simp [h])
  rw [hL', isChain_append_cons_cons, ← hA, isChain_pair]
  refine ⟨hpre.imp_of_mem_tail_imp fun a b ha hb hab => ?_, ?_, ?_⟩
  · -- an old link is not that from the last entry to the head
    obtain ⟨hab₁, hab₂⟩ := hab
    have hap : a ≠ p := by
      rintro rfl
      exact hhead (by rwa [← hab₁, hnext, tail_cons] at hb)
    have hbh : b ≠ head := ne_of_mem_of_not_mem hb hhead
    have hax : a ≠ x := ne_of_mem_of_not_mem ha hx
    have hbx : b ≠ x := ne_of_mem_of_not_mem (mem_of_mem_tail hb) hx
    simp [Adjacent, Entries.insertTail, hlast, hap, hax, hbh, hbx, hab₁, hab₂]
  · simp [Adjacent, Entries.insertTail, hlast, hxh]
  · simp [Adjacent, Entries.insertTail, hlast, hpx.symm]

/-- **An entry is taken out.** -/
theorem Circle.remove (hc : e.Circle head (l₁ ++ x :: l₂)) (hhead : x ≠ head) (h₁ : x ∉ l₁) (h₂ : x ∉ l₂) :
    (e.remove x).Circle head (l₁ ++ l₂) := by
  obtain ⟨A, p, hA⟩ : ∃ A p, head :: l₁ = A ++ [p] := (eq_nil_or_concat' _).resolve_left (cons_ne_nil _ _)
  obtain ⟨q, B, hB⟩ : ∃ q B, l₂ ++ [head] = q :: B := exists_cons_of_ne_nil (by simp)
  have hL : head :: (l₁ ++ x :: l₂ ++ [head]) = A ++ p :: x :: q :: B := by
    rw [append_assoc, ← cons_append, hA, cons_append, hB]
    simp
  have hL' : head :: (l₁ ++ l₂ ++ [head]) = A ++ p :: q :: B := by
    rw [append_assoc, ← cons_append, hA, hB]
    simp
  unfold Circle at hc ⊢
  rw [hL, isChain_append_cons_cons, isChain_cons_cons, ← hA, ← hB] at hc
  obtain ⟨hpre, ⟨hpx, hxp⟩, ⟨hxq, hqx⟩, hpost⟩ := hc
  have heq : e.remove x = (e.setFlink p q).setBlink q p := by rw [Entries.remove, hxp, hxq]
  have hx₁ : x ∉ head :: l₁ := by simp [hhead, h₁]
  have hx₂ : x ∉ l₂ ++ [head] := by simp [hhead, h₂]
  -- a link that stays is neither that to the entry nor that from it
  have hkeep : ∀ a b, a ≠ x → b ≠ x → e.Adjacent a b → (e.remove x).Adjacent a b := by
    rintro a b hax hbx ⟨hab₁, hab₂⟩
    have hap : a ≠ p := fun h => hbx (by rw [← hab₁, h, hpx])
    have hbq : b ≠ q := fun h => hax (by rw [← hab₂, h, hqx])
    simp [heq, Adjacent, hap, hbq, hab₁, hab₂]
  rw [hL', isChain_append_cons_cons, ← hA, ← hB]
  refine ⟨hpre.imp_of_mem_imp fun a b ha hb => ?_, ?_, hpost.imp_of_mem_imp fun a b ha hb => ?_⟩
  · exact hkeep a b (ne_of_mem_of_not_mem ha hx₁) (ne_of_mem_of_not_mem hb hx₁)
  · simp [heq, Adjacent]
  · exact hkeep a b (ne_of_mem_of_not_mem ha hx₂) (ne_of_mem_of_not_mem hb hx₂)

end Entries

end Nt365.Library
