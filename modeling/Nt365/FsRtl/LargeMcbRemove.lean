import Nt365.FsRtl.LargeMcbAdd

/-!
# Removing from a map control block

`FsRtlRemoveMcbEntryPrivate` removes a range run by run: each iteration of its loop
finds the run that holds the next VBN and removes from it all of it, its first part, its
last part or its middle, merging the hole that is left with the holes around it. Each of
the cases unmaps exactly the part of the range that lies in that run (`removeStep_spec`),
and so the loop, which ends because no run is empty, unmaps exactly the range
(`removeLoop_spec`).
-/

namespace Nt365.FsRtl

open Nt365.Library List

namespace LargeMcb

/-! ### Holes -/

section Holes

variable {M : ℕ} {pre post : List Mapping} {e : Mapping} {lo hi : ℕ}

section

variable (hg : Mcb.Good ⟨M, pre ++ e :: post⟩)

include hg

/-- A hole after the first part of a run. -/
theorem Mcb.Good.left_part (hu : e.lbn ≠ unusedLbn) (h₁ : (edge pre).key < lo) (h₂ : lo ≤ e.nextVbn) :
    Left (Mcb.view ⟨M, pre ++ e :: post⟩) lo (pre ++ [⟨lo, e.lbn⟩]) none := by
  obtain ⟨-, hmax⟩ := hg.at_place
  obtain ⟨hl, hlb, hb, -⟩ := hg.at_run hu
  have hrun : Mapping.toRun ⟨lo, e.lbn⟩ = ⟨lo, some e.lbn⟩ := Mapping.toRun_run hu
  refine hg.left_snoc (r := ⟨lo, e.lbn⟩) ?_ (fun v h₁ (h₂ : v < lo) => ?_) ?_
  · rw [hrun]
    exact ⟨h₁, by dsimp only; omega, hl, by dsimp only; omega, hb⟩
  · rw [hrun, hg.view_run hu h₁ (by omega)]
    rfl
  · rw [hrun]
    exact Before.noConfusion

/-- A hole before a run. -/
theorem Mcb.Good.right_run (hu : e.lbn ≠ unusedLbn) :
    Right (Mcb.view ⟨M, pre ++ e :: post⟩) (edge pre).key (fun _ => none) (edge pre).key .hole (e :: post) := by
  obtain ⟨h₁, h₂⟩ := hg.at_place
  obtain ⟨h₃, h₄, -⟩ := hg.at_run hu
  refine hg.right_here ?_
  simp only [map_cons, Edge.Joins, Edge.Admits, Mapping.toRun, hu, if_false]
  exact ⟨h₁, h₂, h₃, h₄, Before.noConfusion⟩

/-- A hole that is continued by the next. -/
theorem Mcb.Good.right_hole (hu : e.lbn = unusedLbn) :
    Right (Mcb.view ⟨M, pre ++ e :: post⟩) (edge pre).key (fun _ => none) e.nextVbn .hole post := by
  obtain ⟨-, ⟨-, hpost⟩, hlast⟩ := good_append.mp hg
  exact hg.right_swallow (by simpa [Edge.next, Mapping.toRun, hu] using joins_of_seg hpost hlast) fun v h₁ h₂ =>
    (hg.view_hole hu h₁ h₂).symm

/-- A hole before the last part of a run. -/
theorem Mcb.Good.right_part (hu : e.lbn ≠ unusedLbn) (h₁ : (edge pre).key ≤ hi) (h₂ : hi < e.nextVbn) :
    Right (Mcb.view ⟨M, pre ++ e :: post⟩) hi (fun _ => none) hi .hole (⟨e.nextVbn, e.lbn + (hi - (edge pre).key)⟩ :: post) := by
  obtain ⟨-, hmax⟩ := hg.at_place
  obtain ⟨hl, hlb, -⟩ := hg.at_run hu
  have hlu : e.lbn + (hi - (edge pre).key) ≠ unusedLbn := by unfold unusedLbn; omega
  have hrun : Mapping.toRun ⟨e.nextVbn, e.lbn + (hi - (edge pre).key)⟩ = ⟨e.nextVbn, some (e.lbn + (hi - (edge pre).key))⟩ :=
    Mapping.toRun_run hlu
  refine hg.right_cut h₁ ?_ ?_ fun v h₁ h₂ => ?_
  · rw [hrun]
    exact ⟨h₂, hmax, by omega, by dsimp only; omega, Before.noConfusion⟩
  · rw [hrun, show e.toRun = ⟨e.nextVbn, some e.lbn⟩ from Mapping.toRun_run hu, Edge.next, Edge.next]
    dsimp only
    rw [show e.lbn + (hi - (edge pre).key) + (e.nextVbn - hi) = e.lbn + (e.nextVbn - (edge pre).key) by omega]
  · rw [hrun, hg.view_run hu (by omega) h₂]
    change some (e.lbn + (hi - (edge pre).key) + (v - hi)) = _
    rw [Option.some.injEq]
    omega

end

end Holes

/-! ### Removing part of a run -/

/-- The VBNs of `[lo, hi)` lie in the run `e` after the pairs `pre`, which is not a hole. -/
structure InRun (M : ℕ) (pre : List Mapping) (e : Mapping) (post : List Mapping) (lo hi : ℕ) : Prop where
  good : Mcb.Good ⟨M, pre ++ e :: post⟩
  run : e.lbn ≠ unusedLbn
  start : (edge pre).key ≤ lo
  nonempty : lo < hi
  stop : hi ≤ e.nextVbn

/-- `mcb'` is the MCB of the run with the VBNs of `[lo, hi)` unmapped. -/
def Cleared (M : ℕ) (pre : List Mapping) (e : Mapping) (post : List Mapping) (lo hi : ℕ) (mcb' : Mcb) : Prop :=
  mcb'.Good ∧ mcb'.view = PMap.clear (Mcb.view ⟨M, pre ++ e :: post⟩) lo hi

namespace InRun

variable {M M' : ℕ} {pre : List Mapping} {p e nx : Mapping} {post : List Mapping} {lo hi : ℕ}

theorem good_next (h : InRun M pre e post lo hi) : Mcb.Good ⟨M, (pre ++ [e]) ++ post⟩ := by
  simpa using h.good

theorem left_next (h : InRun M pre e post lo hi) (h₁ : (edge pre).key = lo) (hb : (edge pre).before ≠ .hole) :
    Left (Mcb.view ⟨M, pre ++ e :: post⟩) lo pre none := h₁ ▸ h.good.left_here hb

theorem left_continue (h : InRun M (pre ++ [p]) e post lo hi) (h₁ : p.nextVbn = lo) (hpu : p.lbn = unusedLbn) :
    Left (Mcb.view ⟨M, (pre ++ [p]) ++ e :: post⟩) lo pre none := by
  have hg := h.good
  rw [append_assoc, singleton_append] at hg ⊢
  have hleft := hg.left_extend
  rwa [h₁, show p.toRun.base = none from if_pos hpu] at hleft

theorem right_next (h : InRun M pre e (nx :: post) lo hi) (hnu : nx.lbn ≠ unusedLbn) :
    Right (Mcb.view ⟨M, pre ++ e :: nx :: post⟩) e.nextVbn (fun _ => none) e.nextVbn .hole (nx :: post) := by
  simpa using h.good_next.right_run hnu

theorem right_continue (h : InRun M pre e (nx :: post) lo hi) (hnu : nx.lbn = unusedLbn) :
    Right (Mcb.view ⟨M, pre ++ e :: nx :: post⟩) e.nextVbn (fun _ => none) nx.nextVbn .hole post := by
  simpa using h.good_next.right_hole hnu

section

variable (h : InRun M pre e post lo hi)

include h

theorem right_part (h₂ : hi < e.nextVbn) :
    Right (Mcb.view ⟨M, pre ++ e :: post⟩) hi (fun _ => none) hi .hole (⟨e.nextVbn, e.lbn + (hi - (edge pre).key)⟩ :: post) :=
  h.good.right_part h.run (h.start.trans h.nonempty.le) h₂

theorem left_part (h₁ : (edge pre).key < lo) : Left (Mcb.view ⟨M, pre ++ e :: post⟩) lo (pre ++ [⟨lo, e.lbn⟩]) none :=
  h.good.left_part h.run h₁ (h.nonempty.le.trans h.stop)

/-- A hole between a left and a right of them clears the range. -/
theorem cleared {pre' post' : List Mapping} {stop : ℕ}
    (hl : Left (Mcb.view ⟨M, pre ++ e :: post⟩) lo pre' none)
    (hr : Right (Mcb.view ⟨M, pre ++ e :: post⟩) hi (fun _ => none) stop .hole post') :
    Cleared M pre e post lo hi ⟨M', pre' ++ ⟨stop, unusedLbn⟩ :: post'⟩ :=
  edit_hole hl hr (h.nonempty.trans_le hr.hi_le)

/-- With the first part of the run left before it. -/
theorem cleared_part {post' : List Mapping} {stop : ℕ} (h₁ : (edge pre).key < lo)
    (hr : Right (Mcb.view ⟨M, pre ++ e :: post⟩) hi (fun _ => none) stop .hole post') :
    Cleared M pre e post lo hi ⟨M', pre ++ ⟨lo, e.lbn⟩ :: ⟨stop, unusedLbn⟩ :: post'⟩ := by
  rw [append_cons pre]
  exact h.cleared (h.left_part h₁) hr

end

/-- At the end of the mapping nothing is put in its place. -/
theorem cleared_end {pre' : List Mapping} (h : InRun M pre e [] lo hi) (h₂ : hi = e.nextVbn)
    (hl : Left (Mcb.view ⟨M, pre ++ [e]⟩) lo pre' none) : Cleared M pre e [] lo hi ⟨M', pre'⟩ := by
  have hg := h.good_next
  rw [append_nil] at hg
  refine hl.ends fun v hv => hg.1.lookup_of_le ?_
  change (edge (pre ++ [e])).key ≤ v
  simpa [h₂] using hv

end InRun

/-! ### An iteration of the loop -/

variable {M vbn n : ℕ} {pre post : List Mapping} {e : Mapping} {mcb : Mcb}

theorem isLast_iff (hg : Mcb.Good ⟨M, pre ++ e :: post⟩) :
    pre.length = sub32 (Mcb.mk M (pre ++ e :: post)).pairCount 1 ↔ post = [] := by
  have hlen := hg.length_lt
  rw [Mcb.pairCount]
  simp only [length_append, length_cons] at hlen ⊢
  rw [sub32_of_le (by omega) (by omega), ← length_eq_zero_iff]
  omega

theorem is_hole (h : e.lbn = unusedLbn) : ∃ t, e = ⟨t, unusedLbn⟩ := ⟨e.nextVbn, by rw [← h]⟩

section Parts

variable {M : ℕ} {pre : List Mapping} {e : Mapping} {post : List Mapping} {lo hi : ℕ}

section

variable (h : InRun M pre e post lo hi)

include h

theorem removeEntireRun_spec (h₁ : (edge pre).key = lo) (h₂ : hi = e.nextVbn) :
    Cleared M pre e post lo hi (removeEntireRun ⟨M, pre ++ e :: post⟩ pre.length) := by
  have ⟨hg, hu, _, _, _⟩ := h
  have hpre := (good_append.mp hg).1
  have hprev (hb : (edge pre).before = .hole) : ∃ pre' p, pre = pre' ++ [p] ∧ p.lbn = unusedLbn ∧ p.nextVbn = lo := by
    obtain ⟨pre', p, rfl, hp⟩ := edge_before_hole hb
    exact ⟨pre', p, rfl, hp, by simpa using h₁⟩
  have hhole (hb : ¬ (edge pre).before ≠ .hole) : (edge pre).before = .hole := not_not.mp hb
  subst h₂
  rw [removeEntireRun, startingLbn_at, if_neg hu]
  cases post with
  | nil =>
    simp only [isLast_iff hg, if_true, previousNotHole_iff hpre]
    split_ifs with hb
    · simp only [fsRtlRemoveLargeEntry_at, drop_one, tail_cons, append_nil]
      exact h.cleared_end rfl (h.left_next h₁ hb)
    · obtain ⟨pre, p, rfl, hpu, hp⟩ := hprev (hhole hb)
      simp only [length_append, length_singleton, Nat.add_sub_cancel, append_assoc, singleton_append,
        fsRtlRemoveLargeEntry_at, drop_succ_cons, drop_zero, append_nil]
      exact h.cleared_end rfl (h.left_continue hp hpu)
  | cons nx post =>
    have hnl := nextStartingLbn_at (M := M) hg.length_lt
    simp only [isLast_iff hg, reduceCtorEq, if_false, previousNotHole_iff hpre, previousEndingLbn_at hpre, hnl]
    split_ifs with hc₁ hc₂ hc₃
    · rw [setLbn_at]
      exact h.cleared (h.left_next h₁ hc₁.1) (h.right_next hc₁.2)
    · simp only [fsRtlRemoveLargeEntry_at, drop_one, tail_cons]
      obtain ⟨t, rfl⟩ := is_hole hc₂.2
      exact h.cleared (h.left_next h₁ hc₂.1) (h.right_continue rfl)
    · have hb : (edge pre).before = .hole := hhole fun hb => hc₁ ⟨hb, hc₃.2⟩
      obtain ⟨pre, p, rfl, hpu, hp⟩ := hprev hb
      rw [setLbn_at]
      simp only [length_append, length_singleton, Nat.add_sub_cancel, append_assoc, singleton_append,
        fsRtlRemoveLargeEntry_at, drop_one, tail_cons]
      exact h.cleared (h.left_continue hp hpu) (h.right_next hc₃.2)
    · have hb : (edge pre).before = .hole := hhole fun hb => by
        by_cases hnu : nx.lbn = unusedLbn
        · exact hc₂ ⟨hb, hnu⟩
        · exact hc₁ ⟨hb, hnu⟩
      have hnu : nx.lbn = unusedLbn := by
        by_contra hnu
        rw [hb] at hc₃
        exact hc₃ ⟨rfl, hnu⟩
      obtain ⟨pre, p, rfl, hpu, hp⟩ := hprev hb
      simp only [length_append, length_singleton, Nat.add_sub_cancel, append_assoc, singleton_append,
        fsRtlRemoveLargeEntry_at, drop_succ_cons, drop_zero]
      obtain ⟨t, rfl⟩ := is_hole hnu
      exact h.cleared (h.left_continue hp hpu) (h.right_continue rfl)

theorem removeFirstPart_spec (h₁ : (edge pre).key = lo) (h₂ : hi < e.nextVbn) :
    Cleared M pre e post lo hi (removeFirstPart ⟨M, pre ++ e :: post⟩ pre.length lo (hi - lo)) := by
  have ⟨hg, hu, _, hlt, _⟩ := h
  have hpre := (good_append.mp hg).1
  obtain ⟨hk, hmax⟩ := hg.at_place
  obtain ⟨hl, hlb, -⟩ := hg.at_run hu
  have hvbn : add32 lo (hi - lo) = hi := by unfold add32; omega
  have hlbn : add32 e.lbn (hi - lo) = e.lbn + (hi - lo) := by unfold add32; omega
  rw [removeFirstPart, startingLbn_at, if_neg hu]
  simp only [previousNotHole_iff hpre, hvbn]
  split_ifs with hb
  · simp only [fsRtlAddLargeEntry_at, List.replicate, cons_append, nil_append, setPair_at, pair_at_one, setLbn_at_one,
      hlbn]
    exact h.cleared (h.left_next h₁ hb) (h₁ ▸ h.right_part h₂)
  · obtain ⟨pre, p, rfl, hpu⟩ := edge_before_hole (not_not.mp hb)
    obtain ⟨pt, _⟩ := p
    subst hpu
    obtain rfl : pt = lo := by simpa using h₁
    simp only [length_append, length_singleton, Nat.add_sub_cancel, append_assoc, singleton_append,
      pair_at, pair_at_one, setNextVbn_at, setLbn_at_one, hvbn, hlbn]
    simpa using h.cleared (h.left_continue rfl rfl) (h.right_part h₂)

theorem removeLastPart_spec (h₁ : (edge pre).key < lo) (h₂ : hi = e.nextVbn) :
    Cleared M pre e post lo hi (removeLastPart ⟨M, pre ++ e :: post⟩ pre.length (e.nextVbn - lo)) := by
  have ⟨hg, hu, _, hlt, _⟩ := h
  obtain ⟨hk, hmax⟩ := hg.at_place
  have hvbn : sub32 e.nextVbn (e.nextVbn - lo) = lo := by unfold sub32; omega
  subst h₂
  rw [removeLastPart, startingLbn_at, if_neg hu]
  cases post with
  | nil =>
    simp only [isLast_iff hg, if_true, pair_at, setNextVbn_at, hvbn]
    exact h.cleared_end rfl (h.left_part h₁)
  | cons nx post =>
    simp only [isLast_iff hg, reduceCtorEq, if_false, nextStartingLbn_at hg.length_lt]
    split_ifs with hnu
    · simp only [pair_at, setNextVbn_at, hvbn]
      obtain ⟨t, rfl⟩ := is_hole hnu
      exact h.cleared_part h₁ (h.right_continue rfl)
    · simp only [fsRtlAddLargeEntry_add, List.replicate, take_succ_cons, take_zero, drop_succ_cons, drop_zero,
        cons_append, nil_append, pair_at, setPair_at_one, setNextVbn_at, hvbn]
      exact h.cleared_part h₁ (h.right_next hnu)

theorem removeMiddle_spec (h₁ : (edge pre).key < lo) (h₂ : hi < e.nextVbn) :
    Cleared M pre e post lo hi (removeMiddle ⟨M, pre ++ e :: post⟩ pre.length lo (hi - lo)) := by
  have ⟨hg, hu, _, hlt, _⟩ := h
  obtain ⟨hk, hmax⟩ := hg.at_place
  obtain ⟨hl, hlb, -⟩ := hg.at_run hu
  have hvbn : add32 lo (hi - lo) = hi := by unfold add32; omega
  rw [removeMiddle, startingLbn_at, if_neg hu]
  simp only [fsRtlAddLargeEntry_at, List.replicate, cons_append, nil_append, pair_at_two, setPair_at, setPair_at_one,
    setLbn_at_two, hvbn]
  have hw₁ {M' : ℕ} : (⟨M', pre ++ ⟨lo, e.lbn⟩ :: ⟨hi, unusedLbn⟩ :: e :: post⟩ : Mcb).sectorsWithinRun pre.length =
      lo - (edge pre).key := sectorsWithinRun_at h₁ (by dsimp only; omega)
  have hw₂ {M' : ℕ} : (⟨M', pre ++ ⟨lo, e.lbn⟩ :: ⟨hi, unusedLbn⟩ :: e :: post⟩ : Mcb).sectorsWithinRun (pre.length + 1) =
      hi - lo := sectorsWithinRun_at_one hlt (by dsimp only; omega)
  have hlbn : add32 e.lbn (add32 (lo - (edge pre).key) (hi - lo)) = e.lbn + (hi - (edge pre).key) := by
    unfold add32
    omega
  rw [hw₁, hw₂, hlbn]
  exact h.cleared_part h₁ (h.right_part h₂)

end

end Parts

theorem cleared_hole {lo hi : ℕ} (hg : Mcb.Good ⟨M, pre ++ e :: post⟩)
    (hu : e.lbn = unusedLbn) (hs : (edge pre).key ≤ lo) (hle : hi ≤ e.nextVbn) :
    Cleared M pre e post lo hi ⟨M, pre ++ e :: post⟩ := by
  refine ⟨hg, funext fun v => ?_⟩
  simp only [PMap.clear, PMap.on]
  split_ifs with hv
  · exact hg.view_hole hu (by omega) (by omega)
  · rfl

/-- **An iteration of the loop** unmaps the VBNs up to where the next one starts. -/
theorem removeStep_spec (hg : Mcb.Good ⟨M, pre ++ e :: post⟩)
    (hs : (edge pre).key ≤ vbn) (ht : vbn < e.nextVbn) (hn : 0 < n) (hvn : vbn + n ≤ 0xffffffff) :
    ∃ mcb' hi, removeStep ⟨M, pre ++ e :: post⟩ pre.length vbn n = (mcb', hi, vbn + n - hi) ∧ vbn < hi ∧ hi ≤ vbn + n ∧
      Cleared M pre e post vbn hi mcb' := by
  obtain ⟨hk, hmax⟩ := hg.at_place
  have hend : (Mcb.mk M (pre ++ e :: post)).endingVbn pre.length = e.nextVbn - 1 := endingVbn_at (by omega) hmax
  have hvn' : add32 vbn n = vbn + n := by unfold add32; omega
  have hamount : add32 (sub32 (e.nextVbn - 1) vbn) 1 = e.nextVbn - vbn := by unfold add32 sub32; omega
  simp only [removeStep, startingVbn_at, hend, hvn', sectorsWithinRun_at hk hmax, hamount]
  split_ifs with h₁ h₂ h₃
  · rw [show add32 vbn (e.nextVbn - (edge pre).key) = e.nextVbn by unfold add32; omega,
      show sub32 n (e.nextVbn - (edge pre).key) = vbn + n - e.nextVbn by unfold sub32; omega]
    refine ⟨_, e.nextVbn, rfl, ht, by omega, ?_⟩
    by_cases hu : e.lbn = unusedLbn
    · rw [removeEntireRun, startingLbn_at, if_pos hu]
      exact cleared_hole hg hu hs le_rfl
    · exact removeEntireRun_spec ⟨hg, hu, hs, ht, le_rfl⟩ h₁.1 rfl
  · refine ⟨_, vbn + n, by rw [Nat.sub_self], by omega, le_rfl, ?_⟩
    by_cases hu : e.lbn = unusedLbn
    · rw [removeFirstPart, startingLbn_at, if_pos hu]
      exact cleared_hole hg hu hs (by omega)
    · have hin : InRun M pre e post vbn (vbn + n) := ⟨hg, hu, hs, by omega, by omega⟩
      have hfirst := removeFirstPart_spec hin h₂ (by omega)
      rwa [Nat.add_sub_cancel_left] at hfirst
  · rw [show add32 vbn (e.nextVbn - vbn) = e.nextVbn by unfold add32; omega,
      show sub32 n (e.nextVbn - vbn) = vbn + n - e.nextVbn by unfold sub32; omega]
    refine ⟨_, e.nextVbn, rfl, ht, by omega, ?_⟩
    by_cases hu : e.lbn = unusedLbn
    · rw [removeLastPart, startingLbn_at, if_pos hu]
      exact cleared_hole hg hu hs le_rfl
    · exact removeLastPart_spec ⟨hg, hu, hs, ht, le_rfl⟩ (by omega) rfl
  · refine ⟨_, vbn + n, by rw [Nat.sub_self], by omega, le_rfl, ?_⟩
    by_cases hu : e.lbn = unusedLbn
    · rw [removeMiddle, startingLbn_at, if_pos hu]
      exact cleared_hole hg hu hs (by omega)
    · have hin : InRun M pre e post vbn (vbn + n) := ⟨hg, hu, hs, by omega, by omega⟩
      have hmid := removeMiddle_spec hin (by omega) (by omega)
      rwa [Nat.add_sub_cancel_left] at hmid

/-! ### The loop -/

theorem Mcb.Good.view_past (hg : mcb.Good) {v : ℕ} (hv : mcb.endVbn ≤ v) : mcb.view v = none :=
  hg.1.lookup_of_le hv

/-- **The loop** ends and unmaps the range: by induction on the sectors left, each
iteration unmapping the first of them. -/
theorem removeLoop_spec {fuel : ℕ} (hg : mcb.Good) (hf : n < fuel) (hvn : vbn + n ≤ 0xffffffff) :
    ∃ mcb', removeLoop fuel mcb vbn n = some mcb' ∧ mcb'.Good ∧ mcb'.view = PMap.clear mcb.view vbn (vbn + n) := by
  induction fuel generalizing mcb vbn n with
  | zero => omega
  | succ fuel ih =>
    rw [removeLoop]
    by_cases hn : 0 < n
    · rw [if_pos hn]
      by_cases hv : vbn < mcb.endVbn
      · obtain ⟨pre, e, post, hm, hfind, hs, ht⟩ := hg.find_some hv
        rw [hfind]
        obtain ⟨M, mapping⟩ := mcb
        simp only [Mcb.mk.injEq, true_and] at hm
        subst hm
        obtain ⟨mcb₁, hi, hstep, hlt, hle, hg₁, hview₁⟩ := removeStep_spec hg hs ht hn hvn
        have hleft : hi + (vbn + n - hi) ≤ 0xffffffff := by omega
        obtain ⟨mcb', hloop, hg', hview'⟩ := ih hg₁ (by omega) hleft
        refine ⟨mcb', ?_, hg', ?_⟩
        · simp only [hstep]
          exact hloop
        · rw [hview', hview₁, Nat.add_sub_cancel' hle, PMap.clear_clear _ (Nat.le_of_lt hlt) hle]
      · rw [hg.find_none (Nat.le_of_not_lt hv)]
        refine ⟨mcb, rfl, hg, funext fun v => ?_⟩
        simp only [PMap.clear, PMap.on]
        split_ifs with hc
        · exact hg.view_past (by omega)
        · rfl
    · obtain rfl : n = 0 := by omega
      rw [if_neg hn]
      exact ⟨mcb, rfl, hg, (PMap.clear_self _ _).symm⟩

theorem good_nil (M : ℕ) : Mcb.Good ⟨M, []⟩ := ⟨trivial, by simp [Edge.start, Mcb.runs]⟩

/-- **Removing** unmaps exactly the range. -/
theorem fsRtlRemoveMcbEntryPrivate_spec (hg : mcb.Good) (hvn : vbn + n ≤ 0xffffffff) :
    ∃ mcb', fsRtlRemoveMcbEntryPrivate mcb vbn n = some mcb' ∧ mcb'.Good ∧
      mcb'.view = PMap.clear mcb.view vbn (vbn + n) := by
  rw [fsRtlRemoveMcbEntryPrivate]
  split_ifs with hc
  · -- the whole mapping
    obtain ⟨rfl, hpc, hlast⟩ := hc
    refine ⟨_, rfl, good_nil _, funext fun v => ?_⟩
    obtain ⟨M, mapping⟩ := mcb
    rcases mapping.eq_nil_or_concat' with rfl | ⟨pre, p, rfl⟩
    · exact absurd hpc (lt_irrefl 0)
    · simp only [Mcb.pairCount, length_append, length_singleton, Nat.add_sub_cancel, pair_at] at hlast
      have hend : (Mcb.mk M (pre ++ [p])).endVbn = p.nextVbn := by simp [Mcb.endVbn]
      simp only [PMap.clear, PMap.on]
      split_ifs with hv
      · rfl
      · rw [hg.view_past (by omega)]
        rfl
  · exact removeLoop_spec hg (Nat.lt_succ_self n) hvn

end LargeMcb

end Nt365.FsRtl
