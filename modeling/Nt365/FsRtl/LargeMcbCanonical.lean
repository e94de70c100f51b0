import Nt365.FsRtl.LargeMcbRefine

/-!
# The canonical form of a map control block

The invariant of the array says that its runs are as long as they can be. So the array depends on the partial map only, and not
on the calls that led to it.
-/

namespace Nt365.FsRtl

open Nt365.Library

namespace LargeMcb

/-- **The canonical form**, pair by pair. -/
structure Mcb.Canonical (mcb : Mcb) : Prop where
  increasing : ∀ i, i + 1 < mcb.pairCount → (mcb.pair i).nextVbn < (mcb.pair (i + 1)).nextVbn
  /-- No two adjacent pairs are holes. -/
  holes : ∀ i, i + 1 < mcb.pairCount → (mcb.pair i).lbn = unusedLbn → (mcb.pair (i + 1)).lbn ≠ unusedLbn
  last : 0 < mcb.pairCount → (mcb.pair (mcb.pairCount - 1)).lbn ≠ unusedLbn
  /-- No two adjacent pairs that are not holes could be one. -/
  contiguous : ∀ i, i + 1 < mcb.pairCount → (mcb.pair i).lbn ≠ unusedLbn → (mcb.pair (i + 1)).lbn ≠ unusedLbn →
    (mcb.pair (i + 1)).lbn ≠ (mcb.pair i).lbn + ((mcb.pair i).nextVbn - mcb.startingVbn i)
  room : mcb.pairCount ≤ mcb.maximumPairCount

theorem Mapping.toRun_inj {a b : Mapping} (h : a.toRun = b.toRun) : a = b := by
  obtain ⟨nextVbn, lbn⟩ := a
  obtain ⟨nextVbn', lbn'⟩ := b
  simp only [toRun, Run.mk.injEq] at h
  obtain ⟨rfl, hbase⟩ := h
  split_ifs at hbase with ha hb
  · rw [ha, hb]
  · rw [Option.some.inj hbase]

theorem Mcb.Good.mapping_eq {mcb mcb' : Mcb} (h : mcb.Good) (h' : mcb'.Good) (heq : mcb.view = mcb'.view) :
    mcb.mapping = mcb'.mapping :=
  List.map_injective_iff.mpr (fun _ _ => Mapping.toRun_inj) (Tight.eq_of_lookup_eq h h' heq)

theorem exists_two_places {mcb : Mcb} {i : ℕ} (h : i + 1 < mcb.pairCount) :
    ∃ pre e e' post, mcb = ⟨mcb.maximumPairCount, pre ++ e :: e' :: post⟩ ∧ pre.length = i := by
  obtain ⟨pre, e, rest, hmcb, hlen⟩ := exists_place (Nat.lt_of_succ_lt h)
  cases rest with
  | nil =>
    rw [hmcb, Mcb.pairCount, List.length_append, hlen] at h
    exact absurd h (Nat.lt_irrefl _)
  | cons e' post => exact ⟨pre, e, e', post, hmcb, hlen⟩

theorem Mcb.Good.canonical {mcb : Mcb} (hg : mcb.Good) (hroom : mcb.pairCount ≤ mcb.maximumPairCount) : mcb.Canonical where
  increasing := by
    intro i hi
    have h := (hg.ordered (i + 1) hi).1
    rwa [startingVbn_succ] at h
  holes := by
    intro i hi
    obtain ⟨pre, e, e', post, hmcb, rfl⟩ := exists_two_places hi
    rw [hmcb] at hg ⊢
    rw [pair_at, pair_at_one]
    intro hhole hhole'
    have hadmits := (good_append.mp hg).2.1.2.1.2.2
    simp only [Mapping.toRun, hhole, hhole', if_true] at hadmits
    exact hadmits rfl
  last := by
    intro hpos
    obtain ⟨pre, e, post, hmcb, hlen⟩ := exists_place (Nat.sub_one_lt_of_lt hpos)
    have hpost : post = [] := by
      have hcount : mcb.pairCount = pre.length + (post.length + 1) := by
        rw [hmcb, Mcb.pairCount, List.length_append, List.length_cons]
      exact List.length_eq_zero_iff.mp (by omega)
    subst hpost
    rw [← hlen]
    rw [hmcb] at hg ⊢
    rw [pair_at]
    intro hhole
    refine (good_append.mp hg).2.2 ?_
    simp [Edge.next, Mapping.toRun, hhole]
  contiguous := by
    intro i hi
    obtain ⟨pre, e, e', post, hmcb, rfl⟩ := exists_two_places hi
    rw [hmcb] at hg ⊢
    rw [pair_at, pair_at_one, startingVbn_at]
    intro hrun hrun' heq
    have hadmits := (good_append.mp hg).2.1.2.1.2.2
    simp only [Mapping.toRun, hrun, hrun', if_false, Edge.next] at hadmits
    exact hadmits.2.2 (by rw [heq])
  room := hroom

/-- **Map control blocks are in canonical form**: after any calls no two pairs could be one, and calls that lead to the same
partial map lead to the same array. -/
theorem mcb_canonical {calls calls' : List (Op × Bool)} {mcb mcb' : Mcb} (h : Run calls mcb) (h' : Run calls' mcb') :
    mcb.Canonical ∧ (replay calls = replay calls' → mcb.pairCount = mcb'.pairCount ∧ mcb.mapping = mcb'.mapping) := by
  refine ⟨h.good.1.canonical h.roomy.2, fun hsame => ?_⟩
  have hmapping := h.good.1.mapping_eq h'.good.1 (by rw [h.good.2, h'.good.2, hsame])
  exact ⟨congrArg List.length hmapping, hmapping⟩

/-- Four sectors added at once, and by halves with the second half first. -/
theorem mcb_canonical_halves :
    ∃ mcb mcb', Run [(.add 4 100 4, true)] mcb ∧ Run [(.add 4 100 2, true), (.add 6 102 2, true)] mcb' ∧ mcb.Canonical ∧
      mcb.mapping = mcb'.mapping := by
  have hwhole : Run [(.add 4 100 4, true)] ⟨15, [⟨4, unusedLbn⟩, ⟨8, 100⟩]⟩ :=
    Run.init.call ⟨by decide, by decide, by decide, by decide, fun _ hl => (nomatch hl), fun _ _ hl => (nomatch hl)⟩
      (by decide +kernel)
  have hsecond : Run [(.add 6 102 2, true)] ⟨15, [⟨6, unusedLbn⟩, ⟨8, 102⟩]⟩ :=
    Run.init.call ⟨by decide, by decide, by decide, by decide, fun _ hl => (nomatch hl), fun _ _ hl => (nomatch hl)⟩
      (by decide +kernel)
  have hhalves : Run [(.add 4 100 2, true), (.add 6 102 2, true)] ⟨15, [⟨4, unusedLbn⟩, ⟨8, 100⟩]⟩ :=
    hsecond.call ⟨by decide, by decide, by decide, by decide, fun _ hl => (nomatch hl), fun _ _ hl => (nomatch hl)⟩
      (by decide +kernel)
  have hsame : replay [(.add 4 100 4, true)] = replay [(.add 4 100 2, true), (.add 6 102 2, true)] := by
    funext v
    simp only [replay, Op.effect, PMap.assign, PMap.on]
    split_ifs <;> first | rfl | omega | (congr 1; omega)
  have hcanonical := mcb_canonical hwhole hhalves
  exact ⟨_, _, hwhole, hhalves, hcanonical.1, (hcanonical.2 hsame).2⟩

end LargeMcb

end Nt365.FsRtl
