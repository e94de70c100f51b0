import Mathlib.Data.List.Pairwise
import Mathlib.Data.Nat.Notation

/-!
# Lists of things that lie apart

Each thing of a list covers some places, and no place is covered twice. What covers a place is then
one thing, and at most one position of the list covers it.
-/

namespace Nt365.Library

variable {α β : Type*} {C : α → β → Prop} {l : List α}

/-- No place is covered at two positions of the list. -/
def Apart (C : α → β → Prop) (l : List α) : Prop := l.Pairwise fun a b => ∀ x, C a x → ¬C b x

theorem Apart.eq (h : Apart C l) {a b : α} {x : β} (ha : a ∈ l) (hb : b ∈ l) (hax : C a x) (hbx : C b x) : a = b := by
  by_contra hne
  have hsymm : Std.Symm fun a b => ∀ x, C a x → ¬C b x := ⟨fun _ _ h x hb ha => h x ha hb⟩
  exact h.forall ha hb hne x hax hbx

theorem Apart.mono {γ : Type*} {D : α → γ → Prop} (f : γ → β) (h : Apart C l) (hCD : ∀ a ∈ l, ∀ x, D a x → C a (f x)) :
    Apart D l :=
  List.Pairwise.imp_of_mem (fun ha hb hab x hax hbx => hab (f x) (hCD _ ha x hax) (hCD _ hb x hbx)) h

section Filter

variable [∀ a x, Decidable (C a x)]

theorem apart_iff_length_filter : Apart C l ↔ ∀ x, (l.filter (C · x)).length ≤ 1 := by
  induction l with
  | nil => simp [Apart]
  | cons a l ih =>
    rw [Apart, List.pairwise_cons]
    change (_ ∧ Apart C l) ↔ _
    rw [ih]
    constructor
    · rintro ⟨ha, hl⟩ x
      by_cases hax : C a x
      · have hnone : l.filter (C · x) = [] := by
          rw [List.filter_eq_nil_iff]
          intro b hb
          simpa using ha b hb x hax
        simp [hax, hnone]
      · simpa [List.filter_cons, hax] using hl x
    · intro h
      constructor
      · intro b hb x hax hbx
        have hx := h x
        have hmem : b ∈ l.filter (C · x) := List.mem_filter.mpr ⟨hb, by simpa using hbx⟩
        simp only [List.filter_cons, hax, decide_true, if_true, List.length_cons] at hx
        have hpos := List.length_pos_of_mem hmem
        omega
      · intro x
        have hx := h x
        rw [List.filter_cons] at hx
        split at hx
        · simp only [List.length_cons] at hx
          omega
        · exact hx

end Filter

end Nt365.Library
