import Mathlib.Data.Int.Order.Basic
import Mathlib.Tactic.Linarith
import Nt365.FsRtl.LargeMcb

/-!
# What a map control block means

The pairs of an MCB are runs laid end to end (`Nt365.Library.RunMap`), a pair with
`UNUSED_LBN` being a hole. `Mcb.view` is the partial map from VBNs to LBNs that an MCB
stands for, and `Mcb.Good` the invariant of the array. For an array cut at a place,
`pre ++ e :: post`, this module says what each macro of the code reads there and what
each assignment writes, and that the binary search finds the place of a VBN.
-/

namespace Nt365.FsRtl

open Nt365.Library

namespace LargeMcb

/-- The run that a pair describes. -/
def Mapping.toRun (pair : Mapping) : Run := ⟨pair.nextVbn, if pair.lbn = unusedLbn then none else some pair.lbn⟩

@[simp] theorem Mapping.toRun_stop (pair : Mapping) : pair.toRun.stop = pair.nextVbn := rfl

theorem Mapping.toRun_hole (nextVbn : ℕ) : Mapping.toRun ⟨nextVbn, unusedLbn⟩ = ⟨nextVbn, none⟩ := by simp [toRun]

theorem Mapping.toRun_run {nextVbn lbn : ℕ} (h : lbn ≠ unusedLbn) : Mapping.toRun ⟨nextVbn, lbn⟩ = ⟨nextVbn, some lbn⟩ := by
  simp [toRun, h]

/-- The runs of an MCB. -/
def Mcb.runs (mcb : Mcb) : List Run := mcb.mapping.map Mapping.toRun

/-- **The partial map** from VBNs to LBNs that an MCB stands for. -/
def Mcb.view (mcb : Mcb) : ℕ → Option ℕ := lookup 0 mcb.runs

/-- **The invariant of the array**: the runs are in canonical form, VBNs stay below
`0xffffffff` and no LBN reaches `UNUSED_LBN`. -/
def Mcb.Good (mcb : Mcb) : Prop := Tight 0xffffffff 0xfffffffe mcb.runs

/-- The position after the pairs `pre`. -/
def edge (pre : List Mapping) : Edge := Edge.start.over (pre.map Mapping.toRun)

@[simp] theorem edge_nil : edge [] = .start := rfl

@[simp] theorem edge_concat (pre : List Mapping) (p : Mapping) : edge (pre ++ [p]) = (edge pre).next p.toRun := by
  simp [edge]

variable {M : ℕ} {pre xs : List Mapping}

theorem good_append :
    Mcb.Good ⟨M, pre ++ xs⟩ ↔ Seg 0xffffffff 0xfffffffe .start (pre.map Mapping.toRun) ∧
      Seg 0xffffffff 0xfffffffe (edge pre) (xs.map Mapping.toRun) ∧
      ((edge pre).over (xs.map Mapping.toRun)).before ≠ .hole := by
  rw [Mcb.Good, Mcb.runs, List.map_append, tight_append]
  rfl

/-- Runs are not empty, so `PairCount` fits in a `ULONG`. -/
theorem Mcb.Good.length_lt {mcb : Mcb} (hg : mcb.Good) : mcb.mapping.length < 4294967296 := by
  have hlen := hg.1.length_le
  have hkey := hg.1.key_le_bound (Nat.zero_le _)
  rw [Mcb.runs, List.length_map] at hlen
  rw [Mcb.runs] at hkey
  omega

/-! ### Reading and writing at a place -/

section Place

variable {M : ℕ} (pre : List Mapping) (e e' e'' : Mapping) (xs post : List Mapping) (k lbn nextVbn : ℕ)

@[simp] theorem pair_at : (⟨M, pre ++ e :: post⟩ : Mcb).pair pre.length = e := getD_at pre (e :: post) 0 _

@[simp] theorem pair_at_one : (⟨M, pre ++ e :: e' :: post⟩ : Mcb).pair (pre.length + 1) = e' :=
  getD_at pre (e :: e' :: post) 1 _

@[simp] theorem pair_at_two : (⟨M, pre ++ e :: e' :: e'' :: post⟩ : Mcb).pair (pre.length + 2) = e'' :=
  getD_at pre (e :: e' :: e'' :: post) 2 _

@[simp] theorem startingVbn_at : (⟨M, pre ++ xs⟩ : Mcb).startingVbn pre.length = (edge pre).key := by
  rcases pre.eq_nil_or_concat' with rfl | ⟨pre, p, rfl⟩
  · rfl
  · simp [Mcb.startingVbn]

@[simp] theorem startingVbn_at_one : (⟨M, pre ++ e :: post⟩ : Mcb).startingVbn (pre.length + 1) = e.nextVbn := by
  simp [Mcb.startingVbn]

@[simp] theorem setLbn_at : (⟨M, pre ++ e :: post⟩ : Mcb).setLbn pre.length lbn = ⟨M, pre ++ { e with lbn := lbn } :: post⟩ := by
  rw [Mcb.setLbn, ← Nat.add_zero pre.length, modify_at]
  rfl

@[simp] theorem setLbn_at_one :
    (⟨M, pre ++ e :: e' :: post⟩ : Mcb).setLbn (pre.length + 1) lbn = ⟨M, pre ++ e :: { e' with lbn := lbn } :: post⟩ := by
  rw [Mcb.setLbn, modify_at]
  rfl

@[simp] theorem setLbn_at_two :
    (⟨M, pre ++ e :: e' :: e'' :: post⟩ : Mcb).setLbn (pre.length + 2) lbn =
      ⟨M, pre ++ e :: e' :: { e'' with lbn := lbn } :: post⟩ := by
  rw [Mcb.setLbn, modify_at]
  rfl

@[simp] theorem setNextVbn_at :
    (⟨M, pre ++ e :: post⟩ : Mcb).setNextVbn pre.length nextVbn = ⟨M, pre ++ { e with nextVbn := nextVbn } :: post⟩ := by
  rw [Mcb.setNextVbn, ← Nat.add_zero pre.length, modify_at]
  rfl

@[simp] theorem setNextVbn_at_one :
    (⟨M, pre ++ e :: e' :: post⟩ : Mcb).setNextVbn (pre.length + 1) nextVbn =
      ⟨M, pre ++ e :: { e' with nextVbn := nextVbn } :: post⟩ := by
  rw [Mcb.setNextVbn, modify_at]
  rfl

@[simp] theorem setPair_at :
    (⟨M, pre ++ e :: post⟩ : Mcb).setPair pre.length lbn nextVbn = ⟨M, pre ++ ⟨nextVbn, lbn⟩ :: post⟩ := by
  rw [Mcb.setPair, setLbn_at, setNextVbn_at]

@[simp] theorem setPair_at_one :
    (⟨M, pre ++ e :: e' :: post⟩ : Mcb).setPair (pre.length + 1) lbn nextVbn =
      ⟨M, pre ++ e :: ⟨nextVbn, lbn⟩ :: post⟩ := by
  rw [Mcb.setPair, setLbn_at_one, setNextVbn_at_one]

variable (amount : ℕ)

theorem fsRtlAddLargeEntry_add :
    fsRtlAddLargeEntry ⟨M, pre ++ xs⟩ (pre.length + k) amount =
      ⟨newMaximumPairCount M ((pre ++ xs).length + amount),
        pre ++ (xs.take k ++ (List.replicate amount ⟨0, 0⟩ ++ xs.drop k))⟩ := by
  rw [fsRtlAddLargeEntry, take_at, drop_at, List.append_assoc, List.append_assoc]
  rfl

theorem fsRtlAddLargeEntry_at :
    fsRtlAddLargeEntry ⟨M, pre ++ xs⟩ pre.length amount =
      ⟨newMaximumPairCount M ((pre ++ xs).length + amount), pre ++ (List.replicate amount ⟨0, 0⟩ ++ xs)⟩ :=
  fsRtlAddLargeEntry_add pre xs 0 amount

theorem fsRtlRemoveLargeEntry_add :
    fsRtlRemoveLargeEntry ⟨M, pre ++ xs⟩ (pre.length + k) amount = ⟨M, pre ++ (xs.take k ++ xs.drop (k + amount))⟩ := by
  rw [fsRtlRemoveLargeEntry, Nat.add_assoc, take_at, drop_at, List.append_assoc]

theorem fsRtlRemoveLargeEntry_at : fsRtlRemoveLargeEntry ⟨M, pre ++ xs⟩ pre.length amount = ⟨M, pre ++ xs.drop amount⟩ := by
  simpa using fsRtlRemoveLargeEntry_add (M := M) pre xs 0 amount

end Place

/-! ### What the macros read -/

theorem edge_before_run (h : Seg 0xffffffff 0xfffffffe .start (pre.map Mapping.toRun)) {n : ℕ}
    (hn : (edge pre).before = .run n) :
    ∃ pre' p, pre = pre' ++ [p] ∧ p.lbn ≠ unusedLbn ∧ 1 ≤ p.lbn ∧ (edge pre').key < p.nextVbn ∧
      p.nextVbn ≤ 0xffffffff ∧ n = p.lbn + (p.nextVbn - (edge pre').key) ∧ n ≤ 0xfffffffe ∧
      (edge pre').before ≠ .run p.lbn := by
  rcases pre.eq_nil_or_concat' with rfl | ⟨pre, p, rfl⟩
  · cases hn
  · rw [List.map_append, seg_append] at h
    obtain ⟨-, hp, -⟩ := h
    rw [edge_concat] at hn
    by_cases hu : p.lbn = unusedLbn
    · simp [Edge.next, Mapping.toRun, hu] at hn
    · simp only [Edge.next, Mapping.toRun, hu, if_false, Before.run.injEq] at hn
      simp only [Edge.Admits, Mapping.toRun, hu, if_false] at hp
      exact ⟨pre, p, rfl, hu, hp.2.2.1, hp.1, hp.2.1, hn.symm, hn ▸ hp.2.2.2.1, hp.2.2.2.2⟩

theorem edge_before_hole (hn : (edge pre).before = .hole) : ∃ pre' p, pre = pre' ++ [p] ∧ p.lbn = unusedLbn := by
  rcases pre.eq_nil_or_concat' with rfl | ⟨pre, p, rfl⟩
  · cases hn
  · refine ⟨pre, p, rfl, ?_⟩
    by_contra hu
    simp [Edge.next, Mapping.toRun, hu] at hn

theorem edge_before_start (hn : (edge pre).before = .start) : pre = [] := by
  rcases pre.eq_nil_or_concat' with rfl | ⟨pre, p, rfl⟩
  · rfl
  · rw [edge_concat] at hn
    by_cases hu : p.lbn = unusedLbn <;> simp [Edge.next, Mapping.toRun, hu] at hn

section Read

variable {M : ℕ} {pre : List Mapping} {e : Mapping} {xs post : List Mapping}

theorem endingVbn_at (h₁ : 0 < e.nextVbn) (h₂ : e.nextVbn ≤ 0xffffffff) :
    (⟨M, pre ++ e :: post⟩ : Mcb).endingVbn pre.length = e.nextVbn - 1 := by
  rw [Mcb.endingVbn, pair_at, sub32_of_le (by omega) h₁]

theorem startingLbn_at : (⟨M, pre ++ e :: post⟩ : Mcb).startingLbn pre.length = e.lbn := by
  rw [Mcb.startingLbn, pair_at]

theorem endingLbn_at (hu : e.lbn ≠ unusedLbn) (h₀ : 1 ≤ e.lbn) (h₁ : (edge pre).key < e.nextVbn)
    (h₂ : e.nextVbn ≤ 0xffffffff) (h₃ : e.lbn + (e.nextVbn - (edge pre).key) ≤ 0xfffffffe) :
    (⟨M, pre ++ e :: post⟩ : Mcb).endingLbn pre.length = e.lbn + (e.nextVbn - (edge pre).key) - 1 := by
  rw [Mcb.endingLbn, startingLbn_at, if_neg hu, pair_at, startingVbn_at]
  unfold sub32 add32
  omega

theorem sectorsWithinRun_at (h₁ : (edge pre).key < e.nextVbn) (h₂ : e.nextVbn ≤ 0xffffffff) :
    (⟨M, pre ++ e :: post⟩ : Mcb).sectorsWithinRun pre.length = e.nextVbn - (edge pre).key := by
  rw [Mcb.sectorsWithinRun, endingVbn_at (by omega) h₂, startingVbn_at]
  unfold sub32 add32
  omega

theorem sectorsWithinRun_at_one {e' : Mapping} (h₁ : e.nextVbn < e'.nextVbn) (h₂ : e'.nextVbn ≤ 0xffffffff) :
    (⟨M, pre ++ e :: e' :: post⟩ : Mcb).sectorsWithinRun (pre.length + 1) = e'.nextVbn - e.nextVbn := by
  have hat : (⟨M, (pre ++ [e]) ++ e' :: post⟩ : Mcb).sectorsWithinRun (pre ++ [e]).length =
      e'.nextVbn - (edge (pre ++ [e])).key := sectorsWithinRun_at (by simpa using h₁) h₂
  simpa using hat

section

variable (h : Seg 0xffffffff 0xfffffffe .start (pre.map Mapping.toRun))

include h

theorem previousEndingLbn_at :
    (⟨M, pre ++ xs⟩ : Mcb).previousEndingLbn pre.length =
      match (edge pre).before with
      | .run n => n - 1
      | _ => unusedLbn := by
  cases hb : (edge pre).before with
  | start => rw [edge_before_start hb]; rfl
  | hole =>
    obtain ⟨pre', p, rfl, hp⟩ := edge_before_hole hb
    simp [Mcb.previousEndingLbn, Mcb.endingLbn, Mcb.startingLbn, hp]
  | run n =>
    obtain ⟨pre', p, rfl, hu, h₀, h₁, h₂, rfl, h₃, -⟩ := edge_before_run h hb
    simp only [Mcb.previousEndingLbn, List.length_append, List.length_singleton, Nat.add_eq_zero_iff, Nat.succ_ne_self,
      and_false, if_false, Nat.add_sub_cancel, List.append_assoc, List.singleton_append]
    exact endingLbn_at hu h₀ h₁ h₂ h₃

theorem continues_iff {lbn : ℕ} (h₁ : 1 ≤ lbn) :
    add32 ((⟨M, pre ++ xs⟩ : Mcb).previousEndingLbn pre.length) 1 = lbn ↔ (edge pre).before = .run lbn := by
  rw [previousEndingLbn_at h]
  cases hb : (edge pre).before with
  | start => simp [unusedLbn, add32]; omega
  | hole => simp [unusedLbn, add32]; omega
  | run n =>
    obtain ⟨pre', p, -, -, h₀, h₁, -, hn, h₃, -⟩ := edge_before_run h hb
    have hn1 : add32 (n - 1) 1 = n := by rw [add32]; omega
    simp only [hn1, Before.run.injEq]

theorem previousNotHole_iff : previousNotHole ⟨M, pre ++ xs⟩ pre.length ↔ (edge pre).before ≠ .hole := by
  rw [previousNotHole, previousEndingLbn_at h]
  cases hb : (edge pre).before with
  | start => simp [edge_before_start hb]
  | hole =>
    obtain ⟨pre', p, rfl, -⟩ := edge_before_hole hb
    simp
  | run n =>
    obtain ⟨pre', p, -, -, -, -, -, -, h₃, -⟩ := edge_before_run h hb
    simp [unusedLbn]
    omega

end

theorem nextStartingLbn_at (h : (pre ++ e :: post).length < 4294967296) :
    (⟨M, pre ++ e :: post⟩ : Mcb).nextStartingLbn pre.length =
      match post with
      | [] => unusedLbn
      | n :: _ => n.lbn := by
  rw [List.length_append, List.length_cons] at h
  rw [Mcb.nextStartingLbn, Mcb.pairCount, sub32_of_le (by simp; omega) (by simp; omega)]
  cases post with
  | nil => simp
  | cons n post =>
    rw [if_neg (by simp), Mcb.startingLbn, pair_at_one]

end Read

/-- The VBN after the pairs `pre`: "`PreviousEndingVbn + 1`", also where there are none. -/
theorem previousEndingVbn_at (h : Seg 0xffffffff 0xfffffffe .start (pre.map Mapping.toRun)) :
    add32 ((⟨M, pre ++ xs⟩ : Mcb).previousEndingVbn pre.length) 1 = (edge pre).key := by
  rcases pre.eq_nil_or_concat' with rfl | ⟨pre, p, rfl⟩
  · simp [Mcb.previousEndingVbn, add32, Edge.start]
  · rw [List.map_append, seg_append] at h
    obtain ⟨-, ⟨h₁, h₂, -⟩, -⟩ := h
    rw [Mapping.toRun_stop] at h₁ h₂
    have hend : (⟨M, pre ++ p :: xs⟩ : Mcb).endingVbn pre.length = p.nextVbn - 1 := endingVbn_at (by omega) h₂
    simp only [Mcb.previousEndingVbn, List.length_append, List.length_singleton, Nat.add_eq_zero_iff, Nat.succ_ne_self,
      and_false, if_false, Nat.add_sub_cancel, List.append_assoc, List.singleton_append, hend, edge_concat,
      Edge.next_key, Mapping.toRun_stop, add32]
    omega

theorem view_append (h : Seg 0xffffffff 0xfffffffe .start (pre.map Mapping.toRun)) (v : ℕ) :
    Mcb.view ⟨M, pre ++ xs⟩ v =
      if v < (edge pre).key then lookup 0 (pre.map Mapping.toRun) v else lookup (edge pre).key (xs.map Mapping.toRun) v := by
  rw [Mcb.view, Mcb.runs, List.map_append]
  exact h.lookup_append _ (Nat.zero_le v)

theorem Mcb.Good.view_from (hg : Mcb.Good ⟨M, pre ++ xs⟩) {v : ℕ} (hv : (edge pre).key ≤ v) :
    Mcb.view ⟨M, pre ++ xs⟩ v = lookup (edge pre).key (xs.map Mapping.toRun) v := by
  rw [view_append (good_append.mp hg).1, if_neg (Nat.not_lt.mpr hv)]

section At

variable {M : ℕ} {pre post : List Mapping} {e : Mapping}

section

variable (hg : Mcb.Good ⟨M, pre ++ e :: post⟩)

include hg

theorem Mcb.Good.view_run (hu : e.lbn ≠ unusedLbn) {v : ℕ} (h₁ : (edge pre).key ≤ v)
    (h₂ : v < e.nextVbn) : Mcb.view ⟨M, pre ++ e :: post⟩ v = some (e.lbn + (v - (edge pre).key)) := by
  rw [hg.view_from h₁, List.map_cons, lookup, if_pos (show v < e.toRun.stop from h₂)]
  simp [Run.value, Mapping.toRun, hu]

theorem Mcb.Good.view_hole (hu : e.lbn = unusedLbn) {v : ℕ} (h₁ : (edge pre).key ≤ v)
    (h₂ : v < e.nextVbn) : Mcb.view ⟨M, pre ++ e :: post⟩ v = none := by
  rw [hg.view_from h₁, List.map_cons, lookup, if_pos (show v < e.toRun.stop from h₂)]
  simp [Run.value, Mapping.toRun, hu]

theorem Mcb.Good.at_place : (edge pre).key < e.nextVbn ∧ e.nextVbn ≤ 0xffffffff :=
  ⟨(good_append.mp hg).2.1.1.1, (good_append.mp hg).2.1.1.2.1⟩

theorem Mcb.Good.at_run (hu : e.lbn ≠ unusedLbn) :
    1 ≤ e.lbn ∧ e.lbn + (e.nextVbn - (edge pre).key) ≤ 0xfffffffe ∧ (edge pre).before ≠ .run e.lbn ∧
      (Edge.mk e.nextVbn (.run (e.lbn + (e.nextVbn - (edge pre).key)))).Joins 0xffffffff 0xfffffffe
        (post.map Mapping.toRun) := by
  obtain ⟨-, ⟨he, hpost⟩, hlast⟩ := good_append.mp hg
  have hj := joins_of_seg hpost hlast
  simp only [Edge.Admits, Edge.next, Mapping.toRun, hu, if_false] at he hj
  exact ⟨he.2.2.1, he.2.2.2.1, he.2.2.2.2, hj⟩

end

end At

/-! ### The search -/

section Search

variable {mcb : Mcb}

variable {i vbn : ℕ}

theorem exists_place (h : i < mcb.pairCount) : ∃ pre e post, mcb = ⟨mcb.maximumPairCount, pre ++ e :: post⟩ ∧ pre.length = i := by
  refine ⟨mcb.mapping.take i, mcb.mapping[i], mcb.mapping.drop (i + 1), ?_, ?_⟩
  · rw [← List.drop_eq_getElem_cons h, List.take_append_drop]
  · exact List.length_take_of_le (Nat.le_of_lt h)

/-- Every run is nonempty, and its VBNs fit in a `ULONG`. -/
def Mcb.Ordered (mcb : Mcb) : Prop :=
  ∀ i < mcb.pairCount, mcb.startingVbn i < (mcb.pair i).nextVbn ∧ (mcb.pair i).nextVbn ≤ 0xffffffff

theorem Mcb.Good.ordered (hg : mcb.Good) : mcb.Ordered := by
  intro i h
  obtain ⟨pre, e, post, hm, rfl⟩ := exists_place h
  rw [hm] at hg ⊢
  rw [startingVbn_at, pair_at]
  exact ⟨(good_append.mp hg).2.1.1.1, (good_append.mp hg).2.1.1.2.1⟩

theorem startingVbn_succ (i : ℕ) : mcb.startingVbn (i + 1) = (mcb.pair i).nextVbn := by
  rw [Mcb.startingVbn, if_neg (Nat.succ_ne_zero i), Nat.add_sub_cancel]

theorem Mcb.Ordered.endingVbn_eq (ho : mcb.Ordered) (h : i < mcb.pairCount) : mcb.endingVbn i = (mcb.pair i).nextVbn - 1 := by
  obtain ⟨h₁, h₂⟩ := ho i h
  rw [Mcb.endingVbn, sub32_of_le (by omega) (by omega)]

theorem Mcb.Ordered.startingVbn_mono (ho : mcb.Ordered) {j : ℕ} (hij : i ≤ j) (hj : j ≤ mcb.pairCount) :
    mcb.startingVbn i ≤ mcb.startingVbn j := by
  induction j, hij using Nat.le_induction with
  | base => exact Nat.le_refl _
  | succ j _ ih =>
    have hlt := (ho j hj).1
    rw [startingVbn_succ]
    exact Nat.le_trans (ih (Nat.le_of_succ_le hj)) (Nat.le_of_lt hlt)

/-- The loop keeps the place of `vbn` between its bounds: the runs below `minIndex` stop
before `vbn`, the runs above `maxIndex` start after it. -/
theorem findLargeIndexLoop_spec (ho : mcb.Ordered) {minIndex maxIndex : ℤ} (h₀ : 0 ≤ minIndex)
    (h₁ : maxIndex < mcb.pairCount) (hmin : ∀ i : ℕ, i < minIndex → (mcb.pair i).nextVbn ≤ vbn)
    (hmax : ∀ i : ℕ, maxIndex < i → i < mcb.pairCount → vbn < mcb.startingVbn i) :
    match findLargeIndexLoop mcb vbn minIndex maxIndex with
    | some i => i < mcb.pairCount ∧ mcb.startingVbn i ≤ vbn ∧ vbn < (mcb.pair i).nextVbn
    | none => ∀ i < mcb.pairCount, (mcb.pair i).nextVbn ≤ vbn := by
  fun_induction findLargeIndexLoop mcb vbn minIndex maxIndex with
  | case1 minIndex maxIndex hle midIndex hlt ih =>
    refine ih h₀ (by omega) hmin fun i hi hic => ?_
    exact Nat.lt_of_lt_of_le hlt (ho.startingVbn_mono (by omega) (Nat.le_of_lt hic))
  | case2 minIndex maxIndex hle midIndex hge hgt ih =>
    have hmid : midIndex.toNat < mcb.pairCount := by omega
    rw [ho.endingVbn_eq hmid] at hgt
    refine ih (by omega) h₁ (fun i hi => ?_) hmax
    have hmono := ho.startingVbn_mono (show i + 1 ≤ midIndex.toNat + 1 by omega) hmid
    rw [startingVbn_succ, startingVbn_succ] at hmono
    omega
  | case3 minIndex maxIndex hle midIndex hge hgt =>
    have hmid : midIndex.toNat < mcb.pairCount := by omega
    have hpos := ho _ hmid
    rw [ho.endingVbn_eq hmid] at hgt
    exact ⟨hmid, by omega, by omega⟩
  | case4 minIndex maxIndex hle =>
    intro i hi
    by_cases him : (i : ℤ) < minIndex
    · exact hmin i him
    · -- the run at `minIndex` would start after `vbn`, and the one before it stop before `vbn`
      exfalso
      obtain ⟨m, rfl⟩ := Int.eq_ofNat_of_zero_le h₀
      have hgt := hmax m (by omega) (by omega)
      cases m with
      | zero => exact absurd hgt (Nat.not_lt_zero _)
      | succ m =>
        rw [startingVbn_succ] at hgt
        have := hmin m (by omega)
        omega

theorem Mcb.Ordered.find_spec (ho : mcb.Ordered) (vbn : ℕ) :
    match fsRtlFindLargeIndex mcb vbn with
    | some i => i < mcb.pairCount ∧ mcb.startingVbn i ≤ vbn ∧ vbn < (mcb.pair i).nextVbn
    | none => ∀ i < mcb.pairCount, (mcb.pair i).nextVbn ≤ vbn :=
  findLargeIndexLoop_spec ho le_rfl (by omega) (fun i hi => by omega) (fun i _ _ => by omega)

/-- The VBN after the last run. -/
def Mcb.endVbn (mcb : Mcb) : ℕ := (edge mcb.mapping).key

/-- **The search** finds the place of every VBN before the end of the mapping. -/
theorem Mcb.Ordered.find_some (ho : mcb.Ordered) (hv : vbn < mcb.endVbn) :
    ∃ pre e post, mcb = ⟨mcb.maximumPairCount, pre ++ e :: post⟩ ∧ fsRtlFindLargeIndex mcb vbn = some pre.length ∧
      (edge pre).key ≤ vbn ∧ vbn < e.nextVbn := by
  have hs := ho.find_spec vbn
  cases hf : fsRtlFindLargeIndex mcb vbn with
  | some i =>
    rw [hf] at hs
    obtain ⟨hi, h₁, h₂⟩ := hs
    obtain ⟨pre, e, post, hm, rfl⟩ := exists_place hi
    rw [hm, startingVbn_at] at h₁
    rw [hm, pair_at] at h₂
    exact ⟨pre, e, post, hm, rfl, h₁, h₂⟩
  | none =>
    rw [hf] at hs
    obtain ⟨M, mapping⟩ := mcb
    rcases mapping.eq_nil_or_concat' with rfl | ⟨pre, p, rfl⟩
    · exact absurd hv (Nat.not_lt_zero _)
    · have hp := hs pre.length (by simp [Mcb.pairCount])
      rw [pair_at] at hp
      rw [Mcb.endVbn, edge_concat, Edge.next_key, Mapping.toRun_stop] at hv
      omega

theorem Mcb.Good.find_some (hg : mcb.Good) (hv : vbn < mcb.endVbn) :
    ∃ pre e post, mcb = ⟨mcb.maximumPairCount, pre ++ e :: post⟩ ∧ fsRtlFindLargeIndex mcb vbn = some pre.length ∧
      (edge pre).key ≤ vbn ∧ vbn < e.nextVbn :=
  hg.ordered.find_some hv

theorem startingVbn_pairCount : mcb.startingVbn mcb.pairCount = mcb.endVbn := by
  have hat := startingVbn_at (M := mcb.maximumPairCount) mcb.mapping []
  rw [List.append_nil] at hat
  exact hat

theorem Mcb.Ordered.find_none (ho : mcb.Ordered) (hv : mcb.endVbn ≤ vbn) : fsRtlFindLargeIndex mcb vbn = none := by
  have hs := ho.find_spec vbn
  cases hf : fsRtlFindLargeIndex mcb vbn with
  | none => rfl
  | some i =>
    rw [hf] at hs
    obtain ⟨hi, -, h₂⟩ := hs
    have hmono := ho.startingVbn_mono (Nat.succ_le_of_lt hi) le_rfl
    rw [startingVbn_succ, startingVbn_pairCount] at hmono
    omega

theorem Mcb.Good.find_none (hg : mcb.Good) (hv : mcb.endVbn ≤ vbn) : fsRtlFindLargeIndex mcb vbn = none :=
  hg.ordered.find_none hv

end Search

end LargeMcb

end Nt365.FsRtl
