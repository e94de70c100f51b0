import Nt365.FsRtl.LargeMcbRemove

/-!
# A map control block is a partial map

`FsRtlSplitLargeMcb` opens a gap in the mapping (`fsRtlSplitLargeMcb_spec`), which with
adding and removing makes every routine an operation on partial maps. A run of the
package is any finite sequence of calls from `FsRtlInitializeLargeMcb` on, each made as
the code asks its callers to (`Op.Ok`); in every such run each call does to the partial
map exactly what it is for (`mcb_refines_partial_map`).
-/

namespace Nt365.FsRtl

open Nt365.Library
open List hiding lookup

namespace LargeMcb

/-! ### Splitting -/

theorem map_shift {pairs : List Mapping} {amount : ℕ} (h : ∀ pair ∈ pairs, pair.nextVbn + amount ≤ 0xffffffff) :
    (pairs.map (Mapping.shift amount)).map Mapping.toRun = shift amount (pairs.map Mapping.toRun) := by
  rw [shift, map_map, map_map]
  refine map_congr_left fun pair hp => ?_
  have hle := h pair hp
  simp only [Function.comp, Mapping.shift, Mapping.toRun, add32_of_lt (show pair.nextVbn + amount < 4294967296 by omega)]

theorem shiftRuns_add {M : ℕ} (pre xs : List Mapping) (k amount : ℕ) :
    shiftRuns ⟨M, pre ++ xs⟩ (pre.length + k) amount =
      ⟨M, pre ++ (xs.take k ++ (xs.drop k).map (Mapping.shift amount))⟩ := by
  rw [shiftRuns, take_at, drop_at, append_assoc]

theorem shiftRuns_at {M : ℕ} (pre xs : List Mapping) (amount : ℕ) :
    shiftRuns ⟨M, pre ++ xs⟩ pre.length amount = ⟨M, pre ++ xs.map (Mapping.shift amount)⟩ :=
  shiftRuns_add pre xs 0 amount

theorem Mcb.Good.nextVbn_le {M : ℕ} {pre xs : List Mapping} (hg : Mcb.Good ⟨M, pre ++ xs⟩) {pair : Mapping} (hp : pair ∈ xs) :
    pair.nextVbn ≤ (Mcb.mk M (pre ++ xs)).endVbn := by
  obtain ⟨ys, zs, rfl⟩ := append_of_mem hp
  have hg' : Mcb.Good ⟨M, (pre ++ (ys ++ [pair])) ++ zs⟩ := by simpa using hg
  have hle := (good_append.mp hg').2.1.key_le
  simpa [Mcb.endVbn, edge] using hle

section Gap

variable {M M' : ℕ} {pre post : List Mapping} {e : Mapping} {vbn amount : ℕ}

/-- A hole between a left and a right that moves up. -/
theorem open_gap {f : ℕ → Option ℕ} {stop : ℕ} (hl : Left f vbn pre none) (hr : Right f vbn (fun _ => none) stop .hole post)
    (ha : 1 ≤ amount) (hstop : stop + amount ≤ 0xffffffff) (hroom : ∀ pair ∈ post, pair.nextVbn + amount ≤ 0xffffffff) :
    Mcb.Good ⟨M', pre ++ ⟨stop + amount, unusedLbn⟩ :: post.map (Mapping.shift amount)⟩ ∧
      Mcb.view ⟨M', pre ++ ⟨stop + amount, unusedLbn⟩ :: post.map (Mapping.shift amount)⟩ = PMap.gap f vbn amount := by
  rw [Mcb.Good, Mcb.view, Mcb.runs, map_append, map_cons, Mapping.toRun_hole, map_shift hroom]
  exact hl.gap hr ha hstop (forall_mem_map.2 hroom)

section

variable (hg : Mcb.Good ⟨M, pre ++ e :: post⟩)

include hg

/-- Splitting in or at the end of a hole makes it longer. -/
theorem gap_in_hole (hu : e.lbn = unusedLbn) (hs : (edge pre).key ≤ vbn) (ht : vbn ≤ e.nextVbn)
    (ha : 1 ≤ amount) (hroom : (Mcb.mk M (pre ++ e :: post)).endVbn + amount ≤ 0xffffffff) :
    Mcb.Good ⟨M', pre ++ (e :: post).map (Mapping.shift amount)⟩ ∧
      Mcb.view ⟨M', pre ++ (e :: post).map (Mapping.shift amount)⟩ = PMap.gap (Mcb.view ⟨M, pre ++ e :: post⟩) vbn amount := by
  have hle := hg.nextVbn_le (mem_cons_self ..)
  have hleft := hg.left_extend
  rw [show e.toRun.base = none from if_pos hu] at hleft
  have hshift : e.shift amount = ⟨e.nextVbn + amount, unusedLbn⟩ := by
    rw [Mapping.shift, hu, add32_of_lt (by omega)]
  rw [map_cons, hshift]
  refine open_gap (hleft.mono ht hs) ((hg.right_hole hu).mono hs ht) ha (by omega) fun pair hp => ?_
  have := hg.nextVbn_le (mem_cons_of_mem _ hp)
  omega

/-- Splitting between two runs adds a hole. -/
theorem gap_between (hu : e.lbn ≠ unusedLbn) (hs : (edge pre).key = vbn)
    (hb : (edge pre).before ≠ .hole) (ha : 1 ≤ amount)
    (hroom : (Mcb.mk M (pre ++ e :: post)).endVbn + amount ≤ 0xffffffff) :
    Mcb.Good ⟨M', pre ++ ⟨vbn + amount, unusedLbn⟩ :: (e :: post).map (Mapping.shift amount)⟩ ∧
      Mcb.view ⟨M', pre ++ ⟨vbn + amount, unusedLbn⟩ :: (e :: post).map (Mapping.shift amount)⟩ =
        PMap.gap (Mcb.view ⟨M, pre ++ e :: post⟩) vbn amount := by
  have hk := hg.at_place.1
  have hle := hg.nextVbn_le (mem_cons_self ..)
  subst hs
  refine open_gap (hg.left_here hb) (hg.right_run hu) ha (by omega) fun pair hp => ?_
  have := hg.nextVbn_le hp
  omega

/-- Splitting inside a run splits the run. -/
theorem gap_inside (hu : e.lbn ≠ unusedLbn) (hs : (edge pre).key < vbn)
    (ht : vbn < e.nextVbn) (ha : 1 ≤ amount) (hroom : (Mcb.mk M (pre ++ e :: post)).endVbn + amount ≤ 0xffffffff) :
    Mcb.Good ⟨M', pre ++ ⟨vbn, e.lbn⟩ :: ⟨vbn + amount, unusedLbn⟩ ::
        (⟨e.nextVbn, e.lbn + (vbn - (edge pre).key)⟩ :: post).map (Mapping.shift amount)⟩ ∧
      Mcb.view ⟨M', pre ++ ⟨vbn, e.lbn⟩ :: ⟨vbn + amount, unusedLbn⟩ ::
        (⟨e.nextVbn, e.lbn + (vbn - (edge pre).key)⟩ :: post).map (Mapping.shift amount)⟩ =
        PMap.gap (Mcb.view ⟨M, pre ++ e :: post⟩) vbn amount := by
  have hle := hg.nextVbn_le (mem_cons_self ..)
  have hposts (pair : Mapping) (hp : pair ∈ post) := hg.nextVbn_le (mem_cons_of_mem _ hp)
  rw [append_cons pre]
  refine open_gap (hg.left_part hu hs ht.le) (hg.right_part hu hs.le ht) ha (by omega)
    (forall_mem_cons.2 ⟨by dsimp only; omega, fun pair hp => ?_⟩)
  have := hposts pair hp
  omega

end

end Gap

/-- **Splitting** opens a gap of `amount` VBNs at `vbn`. -/
theorem fsRtlSplitLargeMcb_spec {mcb : Mcb} {vbn amount : ℕ} (hg : mcb.Good) (hv : vbn < 4294967296) (ha : 1 ≤ amount)
    (ha' : amount < 4294967296) (hroom : vbn < mcb.endVbn → mcb.endVbn + amount ≤ 0xffffffff) :
    (fsRtlSplitLargeMcb mcb vbn amount).2.Good ∧
      (fsRtlSplitLargeMcb mcb vbn amount).2.view = PMap.gap mcb.view vbn amount := by
  rw [fsRtlSplitLargeMcb, u32_of_lt hv, u32_of_lt ha']
  by_cases hend : vbn < mcb.endVbn
  · obtain ⟨pre, e, post, hm, hfind, hs, ht⟩ := hg.find_some hend
    obtain ⟨M, mapping⟩ := mcb
    simp only [Mcb.mk.injEq, true_and] at hm
    subst hm
    have hroom := hroom hend
    have hpre := (good_append.mp hg).1
    obtain ⟨hk, -⟩ := hg.at_place
    have hle := hg.nextVbn_le (mem_cons_self ..)
    have hva : add32 vbn amount = vbn + amount := add32_of_lt (by omega)
    simp only [hfind, startingLbn_at, startingVbn_at, hva]
    split_ifs with hu h₁ h₂
    · rw [shiftRuns_at]
      exact gap_in_hole hg hu hs (Nat.le_of_lt ht) ha hroom
    · -- the hole before is made longer
      have hb : (edge pre).before = .hole := by
        by_contra hb
        rcases (previousNotHole_iff hpre).mpr hb with hc | hc
        · exact hc h₁.2.2
        · exact h₁.2.1 hc
      obtain ⟨pre, p, rfl, hpu⟩ := edge_before_hole hb
      have hg' : Mcb.Good ⟨M, pre ++ p :: e :: post⟩ := by simpa using hg
      have hp : p.nextVbn = vbn := by simpa using h₁.1
      have hpk := hg'.at_place.1
      simp only [length_append, length_singleton, Nat.add_sub_cancel, append_assoc, singleton_append,
        shiftRuns_at] at hroom ⊢
      exact gap_in_hole hg' hpu (by omega) (by omega) ha hroom
    · have hb : (edge pre).before ≠ .hole := by
        refine (previousNotHole_iff hpre : previousNotHole ⟨M, pre ++ e :: post⟩ pre.length ↔ _).mp ?_
        rw [previousNotHole]
        by_contra hc
        exact h₁ ⟨h₂, fun h₀ => hc (Or.inr h₀), by_contra fun hl => hc (Or.inl hl)⟩
      simp only [fsRtlAddLargeEntry_at, List.replicate, cons_append, nil_append, setPair_at, shiftRuns_add,
        take_succ_cons, take_zero, drop_succ_cons, drop_zero]
      exact gap_between hg hu h₂ hb ha hroom
    · obtain ⟨hl, hlb, -⟩ := hg.at_run hu
      have hlbn : sub32 (add32 e.lbn vbn) (edge pre).key = e.lbn + (vbn - (edge pre).key) := by
        unfold sub32 add32
        omega
      simp only [fsRtlAddLargeEntry_at, List.replicate, cons_append, nil_append, pair_at_two, setPair_at, setPair_at_one,
        setLbn_at_two, startingVbn_at, startingVbn_at_one, hlbn, shiftRuns_add, take_succ_cons, take_zero,
        drop_succ_cons, drop_zero]
      exact gap_inside hg hu (by omega) ht ha hroom
  · rw [hg.find_none (Nat.le_of_not_lt hend)]
    refine ⟨hg, funext fun v => ?_⟩
    simp only [PMap.gap]
    split_ifs with h₁ h₂
    · rfl
    · exact hg.view_past (by omega)
    · rw [hg.view_past (by omega), hg.view_past (by omega)]

/-! ### Truncating -/

variable (mcb : Mcb)

theorem shrinkBuffer_mapping : (shrinkBuffer mcb).mapping = mcb.mapping := by
  unfold shrinkBuffer
  split_ifs <;> rfl

/-- **Truncating** unmaps exactly the VBNs from `vbn` on. -/
theorem fsRtlTruncateLargeMcb_spec {mcb : Mcb} {vbn : ℕ} (hg : mcb.Good) (hv : vbn < 4294967296) :
    ∃ mcb', fsRtlTruncateLargeMcb mcb vbn = some mcb' ∧ mcb'.Good ∧ mcb'.view = PMap.cut mcb.view vbn := by
  have hsame {mcb₁ mcb₂ : Mcb} (h : mcb₁.mapping = mcb₂.mapping) (hg : mcb₂.Good) : mcb₁.Good ∧ mcb₁.view = mcb₂.view := by
    rw [Mcb.Good, Mcb.view, Mcb.runs, h]
    exact ⟨hg, rfl⟩
  rw [fsRtlTruncateLargeMcb, u32_of_lt hv]
  split_ifs with h₀ h₁
  · subst h₀
    obtain ⟨hg', hview'⟩ := hsame (shrinkBuffer_mapping { mcb with mapping := [] }) (good_nil _)
    refine ⟨_, rfl, hg', hview'.trans (funext fun v => ?_)⟩
    rw [PMap.cut, if_pos (Nat.zero_le v)]
    rfl
  · have hrange : vbn + sub32 0xffffffff vbn ≤ 0xffffffff := by unfold sub32; omega
    obtain ⟨mcb', hrem, hg', hview'⟩ := fsRtlRemoveMcbEntryPrivate_spec hg hrange
    obtain ⟨hg'', hview''⟩ := hsame (shrinkBuffer_mapping mcb') hg'
    refine ⟨shrinkBuffer mcb', by rw [hrem]; rfl, hg'', hview''.trans (hview'.trans (funext fun v => ?_))⟩
    -- VBNs stay below `0xffffffff`
    have hmax : mcb.endVbn ≤ 0xffffffff := hg.1.key_le_bound (Nat.zero_le _)
    rw [show vbn + sub32 0xffffffff vbn = 0xffffffff by unfold sub32; omega]
    simp only [PMap.clear, PMap.on, PMap.cut]
    by_cases hve : v < 0xffffffff
    · simp [hve]
    · rw [hg.view_past (show mcb.endVbn ≤ v by omega)]
      simp
  · obtain ⟨hg', hview'⟩ := hsame (shrinkBuffer_mapping mcb) hg
    refine ⟨_, rfl, hg', hview'.trans (funext fun v => ?_)⟩
    have hnil : mcb.mapping = [] := length_eq_zero_iff.mp (Nat.le_zero.mp (Nat.le_of_not_lt h₁))
    simp only [PMap.cut, Mcb.view, Mcb.runs, hnil, map_nil, lookup, ite_self]

/-! ### Runs -/

/-- A call of one of the routines. -/
inductive Op where
  /-- `FsRtlAddLargeMcbEntry`. -/
  | add (vbn lbn sectorCount : ℕ)
  /-- `FsRtlRemoveLargeMcbEntry`. -/
  | remove (vbn sectorCount : ℕ)
  /-- `FsRtlTruncateLargeMcb`. -/
  | truncate (vbn : ℕ)
  /-- `FsRtlSplitLargeMcb`. -/
  | split (vbn amount : ℕ)

/-- The call: what it returns (`TRUE` if it returns nothing), and the MCB after it. -/
def Op.run : Op → Option (Bool × Mcb)
  | .add vbn lbn sectorCount => some (fsRtlAddLargeMcbEntry mcb vbn lbn sectorCount)
  | .remove vbn sectorCount => (fsRtlRemoveLargeMcbEntry mcb vbn sectorCount).map (true, ·)
  | .truncate vbn => (fsRtlTruncateLargeMcb mcb vbn).map (true, ·)
  | .split vbn amount => some (fsRtlSplitLargeMcb mcb vbn amount)

/-- The calls that may be made: VBNs and LBNs are `ULONG`s that stay below `0xffffffff`,
a request to add agrees with the runs it overlaps, and splitting does not push the last
`NextVbn` past `0xffffffff`. -/
def Op.Ok : Op → Prop
  | .add vbn lbn sectorCount => AddOk mcb vbn lbn sectorCount
  | .remove vbn sectorCount => vbn + sectorCount < 0xffffffff
  | .truncate vbn => vbn ≤ 0xffffffff
  | .split vbn amount => vbn ≤ 0xffffffff ∧ 1 ≤ amount ∧ amount ≤ 0xffffffff ∧
      (vbn < mcb.endVbn → mcb.endVbn + amount ≤ 0xffffffff)

/-- **What a call is for**, as an operation on partial maps. -/
def Op.effect (f : ℕ → Option ℕ) : Op → Bool → ℕ → Option ℕ
  | .add vbn lbn sectorCount, true => PMap.assign f vbn lbn sectorCount
  | .add _ _ _, false => f
  | .remove vbn sectorCount, _ => PMap.clear f vbn (vbn + sectorCount)
  | .truncate vbn, _ => PMap.cut f vbn
  | .split vbn amount, _ => PMap.gap f vbn amount

/-- A request to add is refused only if it meets a VBN that is mapped already, and then
nothing is changed. -/
def Op.RefusedOnlyIfMapped (mcb mcb' : Mcb) : Op → Bool → Prop
  | .add vbn _ sectorCount, false => mcb' = mcb ∧ ∃ v, vbn ≤ v ∧ v < vbn + sectorCount ∧ mcb.view v ≠ none
  | _, _ => True

/-- The runs of the package: the calls made with what they returned, last call first, and
the MCB they lead to from `FsRtlInitializeLargeMcb`. -/
inductive Run : List (Op × Bool) → Mcb → Prop
  /-- No calls. -/
  | init : Run [] fsRtlInitializeLargeMcb
  /-- One more call. -/
  | call {calls : List (Op × Bool)} {mcb mcb' : Mcb} {op : Op} {result : Bool} :
      Run calls mcb → op.Ok mcb → op.run mcb = some (result, mcb') → Run ((op, result) :: calls) mcb'

/-- The partial map that calls lead to from the empty one. -/
def replay : List (Op × Bool) → ℕ → Option ℕ
  | [] => fun _ => none
  | (op, result) :: calls => op.effect (replay calls) result

/-- A call made as it may be returns, keeps the invariant and does what it is for. -/
theorem Mcb.Good.step {mcb : Mcb} (hg : mcb.Good) {op : Op} (hop : op.Ok mcb) :
    ∃ result mcb', op.run mcb = some (result, mcb') ∧ mcb'.Good ∧ mcb'.view = op.effect mcb.view result ∧
      op.RefusedOnlyIfMapped mcb mcb' result := by
  cases op with
  | add vbn lbn n =>
    have hadd := fsRtlAddLargeMcbEntry_added hg hop
    rcases hr : fsRtlAddLargeMcbEntry mcb vbn lbn n with ⟨result, mcb'⟩
    rw [hr] at hadd
    refine ⟨result, mcb', congrArg some hr, ?_⟩
    cases result with
    | true => exact ⟨hadd.1, hadd.2, trivial⟩
    | false =>
      obtain ⟨rfl, hmeets⟩ := hadd
      exact ⟨hg, rfl, rfl, hmeets⟩
  | remove vbn n =>
    replace hop : vbn + n < 0xffffffff := hop
    obtain ⟨mcb', hrem, hg', hview'⟩ := fsRtlRemoveMcbEntryPrivate_spec hg (Nat.le_of_lt hop)
    refine ⟨true, mcb', ?_, hg', hview', trivial⟩
    rw [Op.run, fsRtlRemoveLargeMcbEntry, u32_of_lt (by omega), u32_of_lt (by omega), hrem]
    rfl
  | truncate vbn =>
    obtain ⟨mcb', htrunc, hg', hview'⟩ := fsRtlTruncateLargeMcb_spec hg (Nat.lt_succ_of_le hop)
    refine ⟨true, mcb', ?_, hg', hview', trivial⟩
    rw [Op.run, htrunc]
    rfl
  | split vbn amount =>
    obtain ⟨hv, ha, ha', hroom⟩ := hop
    obtain ⟨hg', hview'⟩ := fsRtlSplitLargeMcb_spec hg (Nat.lt_succ_of_le hv) ha (Nat.lt_succ_of_le ha') hroom
    exact ⟨_, _, rfl, hg', hview', trivial⟩

theorem Run.good {calls : List (Op × Bool)} {mcb : Mcb} (h : Run calls mcb) : mcb.Good ∧ mcb.view = replay calls := by
  induction h with
  | init => exact ⟨good_nil _, rfl⟩
  | call _ hop hrun ih =>
    obtain ⟨result, mcb', hrun', hg', hview', -⟩ := ih.1.step hop
    rw [hrun] at hrun'
    obtain ⟨rfl, rfl⟩ := Prod.mk.inj (Option.some.inj hrun')
    exact ⟨hg', by rw [hview', ih.2]; rfl⟩

/-- **A map control block refines a partial map**: after any calls made as they may be,
the MCB stands for the partial map that the calls lead to; and the next call returns, does
to the partial map exactly what it is for, and refuses to add, with nothing changed, only
where a VBN is mapped already. -/
theorem mcb_refines_partial_map {calls : List (Op × Bool)} {mcb : Mcb} (h : Run calls mcb) :
    mcb.view = replay calls ∧
      ∀ op : Op, op.Ok mcb → ∃ result mcb', op.run mcb = some (result, mcb') ∧
        mcb'.view = op.effect mcb.view result ∧ op.RefusedOnlyIfMapped mcb mcb' result := by
  refine ⟨h.good.2, fun op hop => ?_⟩
  obtain ⟨result, mcb', hrun, -, hview, hrefused⟩ := h.good.1.step hop
  exact ⟨result, mcb', hrun, hview, hrefused⟩

/-- Two sectors are added at VBN `4`, and then a gap of one is opened at VBN `5`: the MCB
maps VBN `4` and VBN `6`. -/
theorem mcb_refines_partial_map_add_split :
    ∃ mcb, Run [(.split 5 1, true), (.add 4 100 2, true)] mcb ∧
      mcb.view = replay [(.split 5 1, true), (.add 4 100 2, true)] ∧ mcb.view 4 = some 100 ∧ mcb.view 5 = none ∧
      mcb.view 6 = some 101 := by
  have hadd : Run [(.add 4 100 2, true)] ⟨15, [⟨4, unusedLbn⟩, ⟨6, 100⟩]⟩ :=
    Run.init.call ⟨by decide, by decide, by decide, by decide, fun _ hl => (nomatch hl), fun _ _ hl => (nomatch hl)⟩
      (by decide +kernel)
  have hsplit : Run [(.split 5 1, true), (.add 4 100 2, true)] ⟨15, [⟨4, unusedLbn⟩, ⟨5, 100⟩, ⟨6, unusedLbn⟩, ⟨7, 101⟩]⟩ :=
    hadd.call ⟨by decide, by decide, by decide, fun _ => by decide⟩ (by decide +kernel)
  have hview := (mcb_refines_partial_map hsplit).1
  exact ⟨_, hsplit, hview, by rw [hview]; decide, by rw [hview]; decide, by rw [hview]; decide⟩

/-! ### The buffer -/

/-- The pairs fit in the buffer, which is never smaller than the first one. -/
def Mcb.Roomy : Prop := initialMaximumPairCount ≤ mcb.maximumPairCount ∧ mcb.pairCount ≤ mcb.maximumPairCount

@[simp] theorem roomy_setLbn (i lbn : ℕ) : (mcb.setLbn i lbn).Roomy ↔ mcb.Roomy := by
  simp [Mcb.Roomy, Mcb.setLbn, Mcb.pairCount]

@[simp] theorem roomy_setNextVbn (i nextVbn : ℕ) : (mcb.setNextVbn i nextVbn).Roomy ↔ mcb.Roomy := by
  simp [Mcb.Roomy, Mcb.setNextVbn, Mcb.pairCount]

@[simp] theorem roomy_setPair (i lbn nextVbn : ℕ) : (mcb.setPair i lbn nextVbn).Roomy ↔ mcb.Roomy := by
  simp [Mcb.setPair]

@[simp] theorem roomy_shiftRuns (i amount : ℕ) : (shiftRuns mcb i amount).Roomy ↔ mcb.Roomy := by
  simp only [Mcb.Roomy, shiftRuns, Mcb.pairCount, length_append, length_map, length_take, length_drop]
  omega

namespace Mcb.Roomy

variable {mcb : Mcb}

section

variable (h : mcb.Roomy)

include h

/-- "We'll only be asked to grow by at most 2 at a time, so doubling will definitely make
us large enough for the new amount." -/
theorem addEntry (i : ℕ) {amount : ℕ} (ha : amount ≤ 2) : (fsRtlAddLargeEntry mcb i amount).Roomy := by
  obtain ⟨h₁, h₂⟩ := h
  have hmax : mcb.maximumPairCount ≤ (fsRtlAddLargeEntry mcb i amount).maximumPairCount ∧
      mcb.pairCount + amount ≤ (fsRtlAddLargeEntry mcb i amount).maximumPairCount := by
    simp only [fsRtlAddLargeEntry, newMaximumPairCount, initialMaximumPairCount] at *
    split_ifs <;> constructor <;> omega
  have hlen : (fsRtlAddLargeEntry mcb i amount).pairCount = mcb.pairCount + amount := by
    simp only [fsRtlAddLargeEntry, pairCount, length_append, length_replicate, length_take, length_drop]
    omega
  exact ⟨Nat.le_trans h₁ hmax.1, hlen ▸ hmax.2⟩

theorem removeEntry (i amount : ℕ) : (fsRtlRemoveLargeEntry mcb i amount).Roomy := by
  obtain ⟨h₁, h₂⟩ := h
  simp only [Roomy, fsRtlRemoveLargeEntry, pairCount, initialMaximumPairCount, length_append, length_take,
    length_drop] at *
  omega

theorem nil : Roomy { mcb with mapping := [] } := ⟨h.1, Nat.zero_le _⟩

theorem appendRun (vbn lbn n : ℕ) : (LargeMcb.appendRun mcb vbn lbn n).Roomy := by
  unfold LargeMcb.appendRun
  dsimp only
  split_ifs <;> simp [h, h.addEntry]

theorem fillHole (index vbn lbn n : ℕ) : (LargeMcb.fillHole mcb index vbn lbn n).2.Roomy := by
  unfold LargeMcb.fillHole
  dsimp only
  split_ifs <;> simp [h, h.addEntry, removeEntry]

theorem add (vbn lbn n : ℕ) : (fsRtlAddLargeMcbEntry mcb vbn lbn n).2.Roomy := by
  unfold fsRtlAddLargeMcbEntry
  split
  · exact h
  · split_ifs
    · exact h.appendRun _ _ _
    · split
      · exact h.appendRun _ _ _
      · exact h.fillHole _ _ _ _

theorem removeStep (index vbn n : ℕ) : (LargeMcb.removeStep mcb index vbn n).1.Roomy := by
  unfold LargeMcb.removeStep removeEntireRun removeFirstPart removeLastPart removeMiddle
  dsimp only
  split_ifs <;> simp [h, h.addEntry, removeEntry]

theorem removeLoop {fuel vbn n : ℕ} {mcb' : Mcb} (hr : LargeMcb.removeLoop fuel mcb vbn n = some mcb') : mcb'.Roomy := by
  induction fuel generalizing mcb vbn n with
  | zero => cases hr
  | succ fuel ih =>
    rw [LargeMcb.removeLoop] at hr
    split_ifs at hr
    · cases hf : fsRtlFindLargeIndex mcb vbn with
      | none =>
        rw [hf] at hr
        exact Option.some.inj hr ▸ h
      | some index =>
        rw [hf] at hr
        exact ih (h.removeStep index vbn n) hr
    · exact Option.some.inj hr ▸ h

theorem remove {vbn n : ℕ} {mcb' : Mcb} (hr : fsRtlRemoveMcbEntryPrivate mcb vbn n = some mcb') : mcb'.Roomy := by
  unfold fsRtlRemoveMcbEntryPrivate at hr
  split_ifs at hr
  · exact Option.some.inj hr ▸ h.nil
  · exact h.removeLoop hr

theorem shrink : (shrinkBuffer mcb).Roomy := by
  obtain ⟨h₁, h₂⟩ := h
  unfold shrinkBuffer
  dsimp only
  split_ifs with hc hs
  · exact ⟨le_rfl, by simp only [pairCount] at hs ⊢; omega⟩
  · exact ⟨by simp only [pairCount] at hs ⊢; omega, by simp only [pairCount]; omega⟩
  · exact ⟨h₁, h₂⟩

theorem split (vbn amount : ℕ) : (fsRtlSplitLargeMcb mcb vbn amount).2.Roomy := by
  unfold fsRtlSplitLargeMcb
  dsimp only
  split
  · exact h
  · split_ifs <;> simp [h, h.addEntry]

theorem step {op : Op} {result : Bool} {mcb' : Mcb} (hr : op.run mcb = some (result, mcb')) : mcb'.Roomy := by
  cases op with
  | add vbn lbn n =>
    have hadd := h.add vbn lbn n
    rw [Option.some.inj hr] at hadd
    exact hadd
  | remove vbn n =>
    obtain ⟨mcb₁, h₁, h₂⟩ := Option.map_eq_some_iff.mp hr
    exact (Prod.mk.inj h₂).2 ▸ h.remove h₁
  | truncate vbn =>
    obtain ⟨mcb₁, h₁, h₂⟩ := Option.map_eq_some_iff.mp hr
    obtain ⟨-, rfl⟩ := Prod.mk.inj h₂
    unfold fsRtlTruncateLargeMcb at h₁
    dsimp only at h₁
    split_ifs at h₁
    · exact Option.some.inj h₁ ▸ h.nil.shrink
    · obtain ⟨mcb₂, h₃, rfl⟩ := Option.map_eq_some_iff.mp h₁
      exact (h.remove h₃).shrink
    · exact Option.some.inj h₁ ▸ h.shrink
  | split vbn amount =>
    have hsplit := h.split vbn amount
    rw [Option.some.inj hr] at hsplit
    exact hsplit

end

end Mcb.Roomy

/-- **The array never outgrows its buffer.** -/
theorem Run.roomy {calls : List (Op × Bool)} {mcb : Mcb} (h : Run calls mcb) : mcb.Roomy := by
  induction h with
  | init => exact ⟨le_rfl, Nat.zero_le _⟩
  | call _ _ hrun ih => exact ih.step hrun

end LargeMcb

end Nt365.FsRtl
