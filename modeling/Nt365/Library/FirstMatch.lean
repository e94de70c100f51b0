import Mathlib.Data.List.Basic

/-!
# The first match decides

A list of rules is read from the front, and the first rule that applies decides. `FirstMatch applies accepts
rules` says that there is such a rule and that it accepts.
-/

namespace Nt365.Library

variable {α : Type*} {applies applies' accepts : α → Prop} {rule : α} {rules before : List α}

/-- The first rule that applies accepts. -/
def FirstMatch (applies accepts : α → Prop) (rules : List α) : Prop :=
  ∃ before rule after, rules = before ++ rule :: after ∧ (∀ r ∈ before, ¬ applies r) ∧
    applies rule ∧ accepts rule

@[simp] theorem not_firstMatch_nil : ¬ FirstMatch applies accepts [] := by
  rintro ⟨before, rule, after, h, -⟩
  exact List.append_ne_nil_of_right_ne_nil before (List.cons_ne_nil rule after) h.symm

theorem firstMatch_cons :
    FirstMatch applies accepts (rule :: rules) ↔
      (applies rule ∧ accepts rule) ∨ (¬ applies rule ∧ FirstMatch applies accepts rules) := by
  constructor
  · rintro ⟨before, r, after, h, hbefore, happ, hacc⟩
    cases before with
    | nil =>
      obtain ⟨rfl, rfl⟩ := List.cons.inj h
      exact .inl ⟨happ, hacc⟩
    | cons b before =>
      obtain ⟨rfl, rfl⟩ := List.cons.inj h
      exact .inr ⟨hbefore _ (List.mem_cons_self ..),
        before, r, after, rfl, fun x hx => hbefore x (List.mem_cons_of_mem _ hx), happ, hacc⟩
  · rintro (⟨happ, hacc⟩ | ⟨hnot, before, r, after, rfl, hbefore, happ, hacc⟩)
    · exact ⟨[], rule, rules, rfl, by simp, happ, hacc⟩
    · exact ⟨rule :: before, r, after, rfl, List.forall_mem_cons.2 ⟨hnot, hbefore⟩, happ, hacc⟩

theorem firstMatch_cons_of_pos (h : applies rule) : FirstMatch applies accepts (rule :: rules) ↔ accepts rule := by
  simp [firstMatch_cons, h]

theorem firstMatch_cons_of_neg (h : ¬ applies rule) :
    FirstMatch applies accepts (rule :: rules) ↔ FirstMatch applies accepts rules := by
  simp [firstMatch_cons, h]

/-- A rule in the middle that applies and accepts decides, unless an earlier one rejects. -/
theorem firstMatch_append_cons_of_pos (happ : applies rule) (hacc : accepts rule) :
    FirstMatch applies accepts (before ++ rule :: rules) ↔ ¬ FirstMatch applies (fun r => ¬ accepts r) before := by
  induction before with
  | nil => simp [firstMatch_cons_of_pos happ, hacc]
  | cons r before ih =>
    rw [List.cons_append, firstMatch_cons, firstMatch_cons, ih]
    tauto

/-- A rule in the middle that does not apply is of no account. -/
theorem firstMatch_append_cons_of_neg (h : ¬ applies rule) :
    FirstMatch applies accepts (before ++ rule :: rules) ↔ FirstMatch applies accepts (before ++ rules) := by
  induction before with
  | nil => exact firstMatch_cons_of_neg h
  | cons r before ih => rw [List.cons_append, List.cons_append, firstMatch_cons, firstMatch_cons, ih]

end Nt365.Library
