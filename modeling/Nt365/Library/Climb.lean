import Mathlib.Order.Lattice
import Mathlib.Data.List.Basic

/-!
# Lists that climb

A list climbs if it starts at its least element, ends at its greatest and goes up only to the next element above: it may go
back, but then it passes again what it has passed. Such lists stand for sets. `Round next` makes a new list from one that
climbs: from each element in turn the elements that `next` leads to, with some elements passed over that are below what the
one before them led to. If elements lead to ends of what those below them lead to, or else above all of it, nothing is lost
by passing over, and the new list climbs.
-/

namespace Nt365.Library

open List

variable {α : Type*}

variable [LinearOrder α]

/-- From each element the list goes up to no more than the next one of the set, and from its last nothing is above. -/
def Climbs (S : α → Prop) : List α → Prop
  | [] => True
  | x :: l => (∀ z, S z → x < z → ∃ y ∈ l.head?, y ≤ z) ∧ Climbs S l

/-- The list climbs through its elements. -/
structure Climbing (l : List α) : Prop where
  climbs : Climbs (· ∈ l) l
  first : ∀ x ∈ l.head?, ∀ z ∈ l, x ≤ z

/-- What is left of the sources once some are passed over that are below an element. -/
def Skips (dests sources rest : List α) : Prop := ∃ skipped, sources = skipped ++ rest ∧ ∀ x ∈ skipped, ∃ d ∈ dests, x < d

/-- A round over the sources, and what it leads to. -/
inductive Round (next : α → List α) : List α → List α → Prop
  | nil : Round next [] []
  | cons {s : α} {sources rest out : List α} : Skips (next s) sources rest → Round next rest out →
      Round next (s :: sources) (next s ++ out)

/-- What `next` must do on a set: what an element leads to is in order, and one above it leads to an end of that, or else lies
above it and leads above it. -/
structure Layered (next : α → List α) (S : α → Prop) : Prop where
  sorted : ∀ s, S s → (next s).Pairwise (· ≤ ·)
  above : ∀ s t, S s → S t → s < t → next t <:+ next s ∨ ∀ d ∈ next s, d ≤ t ∧ ∀ e ∈ next t, d ≤ e

variable {S : α → Prop} {next : α → List α} {l l' out : List α} {x s t u z : α}

theorem Climbs.suffix (h : Climbs S (l ++ l')) : Climbs S l' := by
  induction l with
  | nil => exact h
  | cons x l ih => exact ih h.2

/-- Behind skipped elements the list has not gone above an element that it has still to pass. -/
theorem Climbs.head_le_of_skipped (h : Climbs S (s :: (l ++ l'))) (hu : S u) (hlt : s < u) (hskipped : ∀ x ∈ l, x < u) :
    ∃ y ∈ l'.head?, y ≤ u := by
  induction l generalizing s with
  | nil => exact h.1 u hu hlt
  | cons x l ih => exact ih h.2 (hskipped x mem_cons_self) fun y hy => hskipped y (mem_cons_of_mem x hy)

/-- A list in order starts below each of its elements, whatever comes after it. -/
theorem head_le_of_sorted {l : List α} (h : l.Pairwise (· ≤ ·)) (l' : List α) (hz : z ∈ l) : ∃ y ∈ (l ++ l').head?, y ≤ z := by
  cases l with
  | nil => cases hz
  | cons y l =>
    refine ⟨y, rfl, ?_⟩
    rcases mem_cons.mp hz with rfl | hz
    · exact le_rfl
    · exact (pairwise_cons.mp h).1 z hz

namespace Layered

/-- What is not led to by `s` is led to by an element that is above all that `s` leads to. -/
theorem above_of_not_mem (h : Layered next S) (hs : S s) (hu : S u) (hlt : s < u) (hz : z ∈ next u) (hnot : z ∉ next s) :
    ∀ d ∈ next s, d ≤ u ∧ d ≤ z := by
  rcases h.above s u hs hu hlt with hsuffix | habove
  · exact absurd (hsuffix.subset hz) hnot
  · exact fun d hd => ⟨(habove d hd).1, (habove d hd).2 z hz⟩

end Layered

theorem Skips.rest {sources rest : List α} (hskips : Skips (next s) sources rest) (hclimbs : Climbs S (s :: sources))
    (hl : ∀ t ∈ s :: sources, S t) : Climbs S rest ∧ ∀ t ∈ rest, S t := by
  obtain ⟨skipped, rfl, -⟩ := hskips
  exact ⟨hclimbs.2.suffix, fun t ht => hl t (mem_cons_of_mem _ (mem_append_right _ ht))⟩

/-- What the elements of a set lead to. -/
def Led (next : α → List α) (S : α → Prop) (z : α) : Prop := ∃ u, S u ∧ z ∈ next u

namespace Round

theorem subset (h : Round next l out) (hl : ∀ s ∈ l, S s) : ∀ z ∈ out, Led next S z := by
  induction h with
  | nil => exact fun z hz => (nomatch hz)
  | cons hskips _ ih =>
    obtain ⟨skipped, rfl, -⟩ := hskips
    intro z hz
    rcases mem_append.mp hz with hz | hz
    · exact ⟨_, hl _ mem_cons_self, hz⟩
    · exact ih (fun s hs => hl s (mem_cons_of_mem _ (mem_append_right _ hs))) z hz

/-- An element above the source that leads to something new is still to come. -/
theorem head_le (hnext : Layered next S) {sources rest : List α} (hclimbs : Climbs S (s :: sources))
    (hskips : Skips (next s) sources rest)
    (hs : S s) (hu : S u) (hlt : s < u) (hz : z ∈ next u) (hnot : z ∉ next s) : ∃ y ∈ rest.head?, y ≤ u := by
  obtain ⟨skipped, rfl, hskipped⟩ := hskips
  refine hclimbs.head_le_of_skipped hu hlt fun x hx => ?_
  obtain ⟨d, hd, hxd⟩ := hskipped x hx
  exact lt_of_lt_of_le hxd (hnext.above_of_not_mem hs hu hlt hz hnot d hd).1

/-- Nothing is lost: all that is led to from the first source on is in the new list, which starts with the least of it. -/
theorem mem_and_head_le (h : Round next l out) (hnext : Layered next S) (hclimbs : Climbs S l) (hl : ∀ s ∈ l, S s) (hu : S u)
    (hhead : ∃ y ∈ l.head?, y ≤ u) (hz : z ∈ next u) : z ∈ out ∧ ∃ y ∈ out.head?, y ≤ z := by
  induction h with
  | nil =>
    obtain ⟨y, hy, -⟩ := hhead
    cases hy
  | @cons s sources rest out hskips _ ih =>
    obtain ⟨_, ⟨⟩, hle⟩ := hhead
    have hs := hl s mem_cons_self
    by_cases hin : z ∈ next s
    · exact ⟨mem_append_left _ hin, head_le_of_sorted (hnext.sorted s hs) out hin⟩
    · have hlt : s < u := lt_of_le_of_ne hle (by rintro rfl; exact hin hz)
      obtain ⟨hclimbs', hrest⟩ := hskips.rest hclimbs hl
      obtain ⟨hmem, hle'⟩ := ih hclimbs' hrest (head_le hnext hclimbs hskips hs hu hlt hz hin)
      refine ⟨mem_append_right _ hmem, ?_⟩
      cases hnil : next s with
      | nil => exact hle'
      | cons d ds =>
        refine ⟨d, rfl, (hnext.above_of_not_mem hs hu hlt hz hin d ?_).2⟩
        rw [hnil]
        exact mem_cons_self

/-- What a source leads to, and what is led to after it, is a list that climbs. -/
theorem climbs_append (hnext : Layered next S) (hs : S s) {ds : List α} (hds : ds <:+ next s) (hout : Climbs (Led next S) out)
    (hgo : ∀ u, S u → s < u → ∀ z ∈ next u, z ∉ next s → ∃ y ∈ out.head?, y ≤ z) : Climbs (Led next S) (ds ++ out) := by
  induction ds with
  | nil => exact hout
  | cons x ds ih =>
    have hx : x ∈ next s := hds.subset mem_cons_self
    obtain ⟨pre, hpre⟩ := hds
    have hsorted := hnext.sorted s hs
    rw [← hpre, pairwise_append, pairwise_cons] at hsorted
    refine ⟨?_, ih ⟨pre ++ [x], by rw [← hpre, append_assoc]; rfl⟩⟩
    rintro z ⟨u, hu, hz⟩ hlt
    by_cases hin : z ∈ next s
    · have hmem : z ∈ ds := by
        rw [← hpre, mem_append, mem_cons] at hin
        rcases hin with hin | rfl | hin
        · exact absurd (hsorted.2.2 z hin x mem_cons_self) (not_le.mpr hlt)
        · exact absurd hlt (lt_irrefl z)
        · exact hin
      exact head_le_of_sorted hsorted.2.1.2 out hmem
    · have hsu : s < u := by
        refine lt_of_not_ge fun hle => ?_
        rcases eq_or_lt_of_le hle with rfl | hus
        · exact hin hz
        · rcases hnext.above u s hu hs hus with ⟨pre', hpre'⟩ | habove
          · have hsorted' := hnext.sorted u hu
            rw [← hpre', pairwise_append] at hsorted'
            rw [← hpre', mem_append, or_iff_left hin] at hz
            exact absurd (hsorted'.2.2 z hz x hx) (not_le.mpr hlt)
          · exact absurd ((habove z hz).2 x hx) (not_le.mpr hlt)
      cases ds with
      | nil => exact hgo u hu hsu z hz hin
      | cons y ds =>
        refine ⟨y, rfl, (hnext.above_of_not_mem hs hu hsu hz hin y ?_).2⟩
        rw [← hpre]
        exact mem_append_right _ (mem_cons_of_mem _ mem_cons_self)

theorem climbs (h : Round next l out) (hnext : Layered next S) (hclimbs : Climbs S l) (hl : ∀ s ∈ l, S s) :
    Climbs (Led next S) out := by
  induction h with
  | nil => trivial
  | @cons s sources rest out hskips hround ih =>
    have hs := hl s mem_cons_self
    obtain ⟨hclimbs', hrest⟩ := hskips.rest hclimbs hl
    refine climbs_append hnext hs (suffix_refl _) (ih hclimbs' hrest) fun u hu hlt z hz hnot => ?_
    exact (hround.mem_and_head_le hnext hclimbs' hrest hu (head_le hnext hclimbs hskips hs hu hlt hz hnot) hz).2

end Round

theorem Climbs.congr {S' : α → Prop} (h : Climbs S l) (hS : ∀ z, S' z → S z) : Climbs S' l := by
  induction l with
  | nil => trivial
  | cons x l ih => exact ⟨fun z hz => h.1 z (hS z hz), ih h.2⟩

/-- **A round over a list that climbs** is a list that climbs, of exactly what the elements lead to. -/
theorem Climbing.round (hl : Climbing l) (hnext : Layered next (· ∈ l)) (h : Round next l out) :
    Climbing out ∧ ∀ z, z ∈ out ↔ ∃ s ∈ l, z ∈ next s := by
  have hhead : ∀ u ∈ l, ∃ y ∈ l.head?, y ≤ u := by
    intro u hu
    have hne : l ≠ [] := ne_nil_of_mem hu
    exact ⟨l.head hne, head?_eq_some_head hne, hl.first _ (head?_eq_some_head hne) u hu⟩
  have hmem : ∀ z, z ∈ out ↔ ∃ s ∈ l, z ∈ next s := by
    intro z
    constructor
    · exact h.subset (fun _ hs => hs) z
    · rintro ⟨s, hs, hz⟩
      exact (h.mem_and_head_le hnext hl.climbs (fun _ hs => hs) hs (hhead s hs) hz).1
  refine ⟨⟨(h.climbs hnext hl.climbs fun _ hs => hs).congr fun z hz => (hmem z).mp hz, ?_⟩, hmem⟩
  intro x hx z hz
  obtain ⟨s, hs, hz⟩ := (hmem z).mp hz
  obtain ⟨-, y, hy, hle⟩ := h.mem_and_head_le hnext hl.climbs (fun _ hs => hs) hs (hhead s hs) hz
  rwa [Option.mem_unique hx hy]

theorem Climbing.le_getLast (hl : Climbing l) (hz : z ∈ l) (hx : l.getLast? = some x) : z ≤ x := by
  have hclimbs := hl.climbs
  generalize hS : (· ∈ l) = S at hclimbs
  have hSz : S z := by
    rw [← hS]
    exact hz
  clear hl hS hz
  induction l with
  | nil => cases hx
  | cons y l ih =>
    cases l with
    | nil =>
      obtain rfl : y = x := by simpa using hx
      refine le_of_not_gt fun hlt => ?_
      obtain ⟨w, hw, -⟩ := hclimbs.1 z hSz hlt
      cases hw
    | cons w l => exact ih (by simpa using hx) hclimbs.2

theorem climbing_singleton (x : α) : Climbing [x] where
  climbs := ⟨fun z hz hlt => absurd (mem_singleton.mp hz) (ne_of_gt hlt), trivial⟩
  first := by
    rintro _ ⟨⟩ z hz
    exact le_of_eq (mem_singleton.mp hz).symm

end Nt365.Library
