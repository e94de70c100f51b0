import Nt365.FsRtl.LargeMcbRuns

/-!
# Looking up in a map control block

The routines of `LARGEMCB.C` that read a mapping run by run: `FsRtlLookupLargeMcbEntry` from any VBN
on, and `FsRtlGetNextLargeMcbEntry` by index. `Mcb.Plain` is all that they need of an MCB; it does not
ask for a canonical form, and a run may begin at LBN `0`. A run that is added past the end of such an
MCB is mapped there.
-/

namespace Nt365.FsRtl

open Nt365.Library
open List hiding lookup

namespace LargeMcb

/-- A `ULONG` as a `LONGLONG`, "`(x == UNUSED_LBN ? UNUSED_LBN : 0)`" being its high part. -/
def large (x : ℕ) : ℤ := if x = unusedLbn then -1 else x

/-- The low part of a `LONGLONG`. -/
def lowPart (x : ℤ) : ℕ := (x % 4294967296).toNat

/-- `FsRtlLookupLargeMcbEntry`: the LBN and how many sectors of the run there are from it on, and the
index of the run. -/
def fsRtlLookupLargeMcbEntry (mcb : Mcb) (largeVbn : ℤ) : Option (ℤ × ℤ × ℕ) :=
  let vbn := lowPart largeVbn
  (fsRtlFindLargeIndex mcb vbn).map fun index =>
    (large (if mcb.startingLbn index = unusedLbn then unusedLbn
      else add32 (mcb.startingLbn index) (sub32 vbn (mcb.startingVbn index))),
    add32 (sub32 (mcb.endingVbn index) vbn) 1, index)

/-- `FsRtlGetNextLargeMcbEntry`: the VBN, the LBN and the number of sectors of a run. -/
def fsRtlGetNextLargeMcbEntry (mcb : Mcb) (runIndex : ℕ) : Option (ℤ × ℤ × ℤ) :=
  if runIndex ≥ mcb.pairCount then none
  else some (large (mcb.startingVbn runIndex), large (mcb.startingLbn runIndex), mcb.sectorsWithinRun runIndex)

/-- **An MCB in memory**: runs are not empty, VBNs and LBNs are below `0xffffffff`. -/
structure Mcb.Plain (mcb : Mcb) : Prop where
  ordered : mcb.Ordered
  lbns : ∀ i < mcb.pairCount, mcb.startingLbn i ≠ unusedLbn →
    mcb.startingLbn i + ((mcb.pair i).nextVbn - mcb.startingVbn i) ≤ 0xffffffff

/-- The LBN of a VBN in run `i`, or `-1`. -/
def Mcb.lbnAt (mcb : Mcb) (i v : ℕ) : ℤ :=
  if mcb.startingLbn i = unusedLbn then -1 else (mcb.startingLbn i + (v - mcb.startingVbn i) : ℕ)

section Lookup

variable {mcb : Mcb}

theorem lowPart_of_lt {v : ℕ} (h : v < 4294967296) : lowPart v = v := by
  unfold lowPart
  omega

theorem large_of_ne {x : ℕ} (h : x ≠ unusedLbn) : large x = x := if_neg h

theorem Mcb.Ordered.endVbn_le (ho : mcb.Ordered) : mcb.endVbn ≤ 0xffffffff := by
  rw [← startingVbn_pairCount, Mcb.startingVbn]
  split
  · exact Nat.zero_le _
  · exact (ho _ (by omega)).2

/-- **Lookup**: the run of a VBN before the end, from that VBN on. -/
theorem Mcb.Plain.lookup_some (hp : mcb.Plain) {v : ℕ} (hv : v < mcb.endVbn) :
    ∃ i < mcb.pairCount, mcb.startingVbn i ≤ v ∧ v < (mcb.pair i).nextVbn ∧
      fsRtlLookupLargeMcbEntry mcb v = some (mcb.lbnAt i v, ((mcb.pair i).nextVbn : ℤ) - v, i) := by
  have hend := hp.ordered.endVbn_le
  have hs := hp.ordered.find_spec v
  cases hf : fsRtlFindLargeIndex mcb v with
  | none =>
    obtain ⟨pre, e, post, -, hfound, -⟩ := hp.ordered.find_some hv
    rw [hf] at hfound
    cases hfound
  | some i =>
    rw [hf] at hs
    obtain ⟨hi, hlo, hhi⟩ := hs
    refine ⟨i, hi, hlo, hhi, ?_⟩
    have hnext := (hp.ordered i hi).2
    have hcount : (add32 (sub32 (mcb.endingVbn i) v) 1 : ℤ) = (mcb.pair i).nextVbn - v := by
      rw [hp.ordered.endingVbn_eq hi, sub32_of_le (by omega) (by omega), add32_of_lt (by omega)]
      omega
    rw [fsRtlLookupLargeMcbEntry, lowPart_of_lt (by omega), hf, Option.map_some, hcount, Mcb.lbnAt]
    by_cases hu : mcb.startingLbn i = unusedLbn
    · rw [if_pos hu, if_pos hu]
      rfl
    · have hlbn := hp.lbns i hi hu
      rw [if_neg hu, if_neg hu, sub32_of_le (by omega) hlo, add32_of_lt (by omega), large_of_ne (by unfold unusedLbn; omega)]

theorem Mcb.Plain.lookup_none (hp : mcb.Plain) {v : ℕ} (hv : mcb.endVbn ≤ v) (hlt : v < 4294967296) :
    fsRtlLookupLargeMcbEntry mcb v = none := by
  rw [fsRtlLookupLargeMcbEntry, lowPart_of_lt hlt, hp.ordered.find_none hv]
  rfl

theorem Mcb.Plain.getNext_some (hp : mcb.Plain) {i : ℕ} (hi : i < mcb.pairCount) :
    fsRtlGetNextLargeMcbEntry mcb i =
      some ((mcb.startingVbn i : ℤ), mcb.lbnAt i (mcb.startingVbn i), ((mcb.pair i).nextVbn : ℤ) - mcb.startingVbn i) := by
  obtain ⟨hlt, hnext⟩ := hp.ordered i hi
  have hcount : (mcb.sectorsWithinRun i : ℤ) = (mcb.pair i).nextVbn - mcb.startingVbn i := by
    rw [Mcb.sectorsWithinRun, hp.ordered.endingVbn_eq hi, sub32_of_le (by omega) (by omega), add32_of_lt (by omega)]
    omega
  rw [fsRtlGetNextLargeMcbEntry, if_neg (by omega), hcount, large_of_ne (by unfold unusedLbn; omega), Mcb.lbnAt, large]
  simp only [Nat.sub_self, Nat.add_zero]

theorem getNext_none {i : ℕ} (hi : mcb.pairCount ≤ i) : fsRtlGetNextLargeMcbEntry mcb i = none := if_pos hi

end Lookup

/-! ### Adding at the end -/

section Append

variable {M M' : ℕ} {pre xs : List Mapping} {p : Mapping}

theorem pair_append {i : ℕ} (hi : i < pre.length) : (⟨M, pre ++ xs⟩ : Mcb).pair i = (⟨M', pre⟩ : Mcb).pair i :=
  getD_append _ _ _ _ hi

theorem startingVbn_append {i : ℕ} (hi : i ≤ pre.length) :
    (⟨M, pre ++ xs⟩ : Mcb).startingVbn i = (⟨M', pre⟩ : Mcb).startingVbn i := by
  rw [Mcb.startingVbn, Mcb.startingVbn]
  split
  · rfl
  · rw [pair_append (by omega)]

theorem Mcb.Ordered.of_append (ho : Mcb.Ordered ⟨M, pre ++ xs⟩) : Mcb.Ordered ⟨M', pre⟩ := by
  intro i hi
  have hrun := ho i (hi.trans_le (by simp [Mcb.pairCount]))
  rwa [pair_append hi, startingVbn_append (Nat.le_of_lt hi)] at hrun

variable (M') in
theorem plain_concat : Mcb.Plain ⟨M, pre ++ [p]⟩ ↔ Mcb.Plain ⟨M', pre⟩ ∧ ((edge pre).key < p.nextVbn ∧ p.nextVbn ≤ 0xffffffff) ∧
    (p.lbn ≠ unusedLbn → p.lbn + (p.nextVbn - (edge pre).key) ≤ 0xffffffff) := by
  have hlast : pre.length < (⟨M, pre ++ [p]⟩ : Mcb).pairCount := by simp [Mcb.pairCount]
  constructor
  · rintro ⟨ho, hl⟩
    refine ⟨⟨ho.of_append, fun i hi => ?_⟩, ?_, ?_⟩
    · have hrun := hl i (Nat.lt_trans hi hlast)
      rwa [Mcb.startingLbn, pair_append hi, startingVbn_append (Nat.le_of_lt hi)] at hrun
    · have hrun := ho pre.length hlast
      rwa [startingVbn_at, pair_at] at hrun
    · have hrun := hl pre.length hlast
      rwa [startingLbn_at, startingVbn_at, pair_at] at hrun
  · rintro ⟨⟨ho, hl⟩, hp, hlp⟩
    have hcases : ∀ i < (⟨M, pre ++ [p]⟩ : Mcb).pairCount, i < pre.length ∨ i = pre.length := by
      intro i hi
      simp only [Mcb.pairCount, length_append, length_singleton] at hi
      omega
    refine ⟨fun i hi => ?_, fun i hi => ?_⟩
    · obtain hi | rfl := hcases i hi
      · rw [pair_append hi, startingVbn_append (Nat.le_of_lt hi)]
        exact ho i hi
      · rw [startingVbn_at, pair_at]
        exact hp
    · obtain hi | rfl := hcases i hi
      · rw [Mcb.startingLbn, pair_append hi, startingVbn_append (Nat.le_of_lt hi)]
        exact hl i hi
      · rw [startingLbn_at, startingVbn_at, pair_at]
        exact hlp

theorem Mcb.Ordered.view_append (ho : Mcb.Ordered ⟨M', pre⟩) (v : ℕ) :
    Mcb.view ⟨M, pre ++ xs⟩ v = if v < (edge pre).key then Mcb.view ⟨M', pre⟩ v
      else lookup (edge pre).key (xs.map Mapping.toRun) v := by
  rw [Mcb.view, Mcb.view, Mcb.runs, Mcb.runs, map_append]
  split
  · rename_i hv
    apply lookup_append_of_lt
    rcases pre.eq_nil_or_concat' with rfl | ⟨pre, p, rfl⟩
    · exact absurd hv (Nat.not_lt_zero _)
    · exact ⟨p.toRun, by simp, by simpa using hv⟩
  · rename_i hv
    refine lookup_append_of_le (e := .start) fun r hr => ?_
    obtain ⟨p, hmem, rfl⟩ := mem_map.mp hr
    obtain ⟨j, hj, rfl⟩ := mem_iff_getElem.mp hmem
    have hmono := ho.startingVbn_mono (show j + 1 ≤ Mcb.pairCount ⟨M', pre⟩ from hj) le_rfl
    rw [startingVbn_succ, startingVbn_pairCount, Mcb.pair, getD_eq_getElem _ _ hj] at hmono
    exact hmono.trans (Nat.le_of_not_lt hv)

theorem Mcb.Ordered.view_at {mcb : Mcb} (ho : mcb.Ordered) {i v : ℕ} (hi : i < mcb.pairCount) (hlo : mcb.startingVbn i ≤ v)
    (hhi : v < (mcb.pair i).nextVbn) :
    mcb.view v = if mcb.startingLbn i = unusedLbn then none else some (mcb.startingLbn i + (v - mcb.startingVbn i)) := by
  obtain ⟨pre, e, post, hm, rfl⟩ := exists_place hi
  rw [hm] at ho hlo hhi ⊢
  rw [startingVbn_at] at hlo ⊢
  rw [pair_at] at hhi
  rw [(ho.of_append : Mcb.Ordered ⟨0, pre⟩).view_append, if_neg (Nat.not_lt.mpr hlo), map_cons, lookup,
    if_pos (by simpa using hhi), Run.value, Mapping.toRun, startingLbn_at]
  split <;> rfl

theorem Mcb.Ordered.view_end {mcb : Mcb} (ho : mcb.Ordered) {v : ℕ} (hv : mcb.endVbn ≤ v) : mcb.view v = none := by
  have hview : Mcb.view ⟨mcb.maximumPairCount, mcb.mapping ++ []⟩ v = _ := ho.view_append v
  rwa [append_nil, if_neg (show ¬v < (edge mcb.mapping).key from Nat.not_lt.mpr hv)] at hview

/-- The last run is not a hole. -/
def Mcb.Closed (mcb : Mcb) : Prop := ∀ p ∈ mcb.mapping.getLast?, p.lbn ≠ unusedLbn

theorem closed_concat (hu : p.lbn ≠ unusedLbn) : Mcb.Closed ⟨M, pre ++ [p]⟩ := by
  intro q hq
  rw [List.getLast?_concat, Option.mem_some_iff] at hq
  exact hq ▸ hu

theorem endVbn_concat : Mcb.endVbn ⟨M, pre ++ [p]⟩ = p.nextVbn := by
  rw [Mcb.endVbn, edge_concat]
  rfl

theorem Mcb.Ordered.previousEndingVbn_end {mcb : Mcb} (ho : mcb.Ordered) :
    add32 (mcb.previousEndingVbn mcb.pairCount) 1 = mcb.endVbn := by
  rw [Mcb.previousEndingVbn, ← startingVbn_pairCount, Mcb.startingVbn]
  split
  · rfl
  · have hlast := ho (mcb.pairCount - 1) (by omega)
    rw [ho.endingVbn_eq (by omega), add32_of_lt (by omega)]
    omega

theorem Mcb.Plain.previousEndingLbn_end (hp : Mcb.Plain ⟨M, pre ++ [p]⟩) (hu : p.lbn ≠ unusedLbn) :
    add32 ((⟨M, pre ++ [p]⟩ : Mcb).previousEndingLbn (pre ++ [p]).length) 1 =
      add32 (p.lbn + (p.nextVbn - (edge pre).key) - 1) 1 := by
  obtain ⟨-, ⟨hlt, hle⟩, hlbn⟩ := (plain_concat M).mp hp
  have hlbn := hlbn hu
  rw [Mcb.previousEndingLbn, if_neg (by simp), length_append, length_singleton, Nat.add_sub_cancel, Mcb.endingLbn,
    startingLbn_at, if_neg hu, pair_at, startingVbn_at]
  refine congrArg (fun x => add32 x 1) ?_
  unfold sub32 add32
  omega

theorem Mcb.Plain.concat {vbn lbn n : ℕ} (hp : Mcb.Plain ⟨M', pre⟩) (hkey : (edge pre).key = vbn) (hn : 1 ≤ n)
    (hvn : vbn + n ≤ 0xffffffff) (hln : lbn + n ≤ 0xffffffff) :
    Mcb.Plain ⟨M, pre ++ [⟨vbn + n, lbn⟩]⟩ ∧ Mcb.Closed ⟨M, pre ++ [⟨vbn + n, lbn⟩]⟩ ∧
      Mcb.endVbn ⟨M, pre ++ [⟨vbn + n, lbn⟩]⟩ = vbn + n ∧
      Mcb.view ⟨M, pre ++ [⟨vbn + n, lbn⟩]⟩ = PMap.assign (Mcb.view ⟨M', pre⟩) vbn lbn n := by
  have hlu : lbn ≠ unusedLbn := by unfold unusedLbn; omega
  refine ⟨(plain_concat M').mpr ⟨hp, ⟨by dsimp only; omega, hvn⟩, fun _ => by dsimp only; omega⟩, closed_concat hlu,
    endVbn_concat, ?_⟩
  funext v
  rw [PMap.assign, PMap.on, hp.ordered.view_append]
  simp only [List.map, lookup, Run.value, Mapping.toRun, if_neg hlu, Option.map_some]
  split_ifs with h h' h' h'
  all_goals first | omega | rfl | (rw [Option.some.injEq]; omega) | skip
  exact (hp.ordered.view_end (show (edge pre).key ≤ v by omega)).symm

theorem Mcb.Plain.concat_hole {vbn : ℕ} (hp : Mcb.Plain ⟨M', pre⟩) (hkey : (edge pre).key < vbn) (hvbn : vbn ≤ 0xffffffff) :
    Mcb.Plain ⟨M, pre ++ [⟨vbn, unusedLbn⟩]⟩ ∧ Mcb.view ⟨M, pre ++ [⟨vbn, unusedLbn⟩]⟩ = Mcb.view ⟨M', pre⟩ := by
  refine ⟨(plain_concat M').mpr ⟨hp, ⟨hkey, hvbn⟩, fun h => absurd rfl h⟩, funext fun v => ?_⟩
  rw [hp.ordered.view_append]
  split
  · rfl
  · rename_i hv
    rw [hp.ordered.view_end (Nat.le_of_not_lt hv)]
    simp [lookup, Run.value, Mapping.toRun]

/-- **A run past the end** is mapped there; what comes before is as it was. -/
theorem appendRun_plain {mcb : Mcb} (vbn lbn n : ℕ) (hp : mcb.Plain) (hc : mcb.Closed) (hv : mcb.endVbn ≤ vbn)
    (hn : 1 ≤ n) (hvn : vbn + n ≤ 0xffffffff) (hln : lbn + n ≤ 0xffffffff) :
    (appendRun mcb vbn lbn n).Plain ∧ (appendRun mcb vbn lbn n).Closed ∧ (appendRun mcb vbn lbn n).endVbn = vbn + n ∧
      (appendRun mcb vbn lbn n).view = PMap.assign mcb.view vbn lbn n := by
  have hvn' : add32 vbn n = vbn + n := add32_of_lt (by omega)
  have hkey := hp.ordered.previousEndingVbn_end
  obtain ⟨M, pre⟩ := mcb
  rw [appendRun]
  simp only [hkey, hvn']
  split_ifs with h₁ h₂
  · -- continues the last run
    rcases pre.eq_nil_or_concat' with rfl | ⟨pre, p, rfl⟩
    · exact absurd rfl h₁.1
    · have hpu : p.lbn ≠ unusedLbn := hc p (by simp)
      obtain ⟨hpre, ⟨hlt, hle⟩, hlbn⟩ := (plain_concat M).mp hp
      have hend : (⟨M, pre ++ [p]⟩ : Mcb).endVbn = p.nextVbn := endVbn_concat
      have hlbn := hlbn hpu
      have hcont := h₁.2.2
      rw [Mcb.pairCount, hp.previousEndingLbn_end hpu, add32_of_lt (by omega)] at hcont
      have hvbn := h₁.2.1
      rw [hend] at hvbn hv
      simp only [Mcb.pairCount, length_append, length_singleton, Nat.add_sub_cancel, pair_at, setNextVbn_at]
      rw [add32_of_lt (by omega)]
      refine ⟨(plain_concat M).mpr ⟨hpre, ⟨by dsimp only; omega, by dsimp only; omega⟩, fun _ => by dsimp only; omega⟩,
        closed_concat hpu, by rw [endVbn_concat, hvbn], ?_⟩
      · funext v
        rw [PMap.assign, PMap.on, hpre.ordered.view_append, hpre.ordered.view_append]
        simp only [List.map, lookup, Run.value, Mapping.toRun, if_neg hpu, Option.map_some]
        split_ifs <;> first | omega | rfl | (rw [Option.some.injEq]; omega)
  · -- a new last run
    have hadd := fsRtlAddLargeEntry_at (M := M) pre [] 1
    rw [append_nil] at hadd
    simp only [Mcb.pairCount, hadd, List.replicate, cons_append, nil_append, setPair_at]
    exact hp.concat (h₂.elim (fun h => Nat.le_antisymm hv (h ▸ Nat.zero_le _)) id) hn hvn hln
  · -- a hole, then a new last run
    have hadd := fsRtlAddLargeEntry_at (M := M) pre [] 2
    rw [append_nil] at hadd
    simp only [Mcb.pairCount, hadd, List.replicate, cons_append, nil_append, setPair_at, setPair_at_one]
    obtain ⟨hhole, hview⟩ := hp.concat_hole (M := M) (lt_of_le_of_ne hv fun h => h₂ (.inr h)) (by omega)
    rw [append_cons, ← hview]
    exact hhole.concat (by simp) hn hvn hln

theorem fsRtlAddLargeMcbEntry_end {mcb : Mcb} {vbn lbn n : ℕ} (hp : mcb.Plain) (hv : mcb.endVbn ≤ vbn)
    (hvn : vbn + n ≤ 0xffffffff) (hln : lbn + n ≤ 0xffffffff) :
    fsRtlAddLargeMcbEntry mcb vbn lbn n = (true, appendRun mcb vbn lbn n) := by
  rw [fsRtlAddLargeMcbEntry, u32_of_lt (by omega), u32_of_lt (by omega), u32_of_lt (by omega), trimRequest,
    hp.ordered.find_none hv]
  dsimp only
  rw [hp.ordered.previousEndingVbn_end, if_pos (.inr hv)]

end Append

end LargeMcb

end Nt365.FsRtl
