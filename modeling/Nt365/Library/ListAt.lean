import Mathlib.Data.List.GetD

/-!
# Editing a list at a place

An array edited in place is a list cut at a place, `pre ++ xs`. These lemmas say what
reading, writing, and cutting at the index `pre.length + k` do to the part `xs`, so that
an edit of the array becomes an edit of a short list written out.
-/

namespace Nt365.Library

variable {α : Type*} (pre xs : List α) (k : ℕ)

theorem getD_at (d : α) : (pre ++ xs).getD (pre.length + k) d = xs.getD k d := by
  rw [List.getD_append_right _ _ _ _ (Nat.le_add_right _ _), Nat.add_sub_cancel_left]

theorem take_at : (pre ++ xs).take (pre.length + k) = pre ++ xs.take k := List.take_length_add_append k

theorem drop_at : (pre ++ xs).drop (pre.length + k) = xs.drop k := List.drop_length_add_append k

theorem modify_at (f : α → α) : (pre ++ xs).modify (pre.length + k) f = pre ++ xs.modify k f := by
  induction pre with
  | nil => simp
  | cons a pre ih =>
    rw [List.length_cons, Nat.add_right_comm, List.cons_append, List.modify_succ_cons, ih, List.cons_append]

end Nt365.Library
