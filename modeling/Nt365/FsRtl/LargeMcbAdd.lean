import Nt365.FsRtl.LargeMcbRuns

/-!
# Adding to a map control block

`FsRtlAddLargeMcbEntry` first trims the request to what is not mapped already, and then
either appends a run at the end of the array or fills a part of one hole. Filling a hole
has nine cases: what is filled is all of the hole, its front, its rear or its middle, and
a new run that continues the one before it, or is continued by the one after it, is joined
to it.

## What is proved

Each case writes one run between what is left of it and what is right of it, so each is an
instance of `edit_run`: there are three lefts and three rights, which depend on the pairs
around the hole only. `fillHole_spec` and `appendRun_spec` assemble the cases, `trimRequest_spec` says what
the trimming leaves, and `fsRtlAddLargeMcbEntry_added` is about the whole call.
-/

namespace Nt365.FsRtl

open Nt365.Library
open List hiding lookup

namespace LargeMcb

variable {M M' vbn lbn n : ℕ} {pre post : List Mapping} {e : Mapping} {mcb : Mcb}

/-! ### Editing -/

/-- The pairs to the left and to the right of an edit. -/
abbrev Left (f : ℕ → Option ℕ) (lo : ℕ) (pre : List Mapping) (b : Option ℕ) : Prop :=
  Leads 0xffffffff 0xfffffffe f lo (pre.map Mapping.toRun) b

abbrev Right (f : ℕ → Option ℕ) (hi : ℕ) (c : ℕ → Option ℕ) (stop : ℕ) (after : Before) (post : List Mapping) : Prop :=
  Trails 0xffffffff 0xfffffffe f hi c stop after (post.map Mapping.toRun)

section Edit

variable {xs : List Mapping} {p r : Mapping} {hi stop l : ℕ} {b : Option ℕ} {f c : ℕ → Option ℕ} {after : Before}

/-- A new run or hole begins after the pairs that are there. -/
theorem Mcb.Good.left_here (hg : Mcb.Good ⟨M, pre ++ xs⟩)
    (hfits : match b with
      | none => (edge pre).before ≠ .hole
      | some b => 1 ≤ b ∧ (edge pre).before ≠ .run b) : Left (Mcb.view ⟨M, pre ++ xs⟩) (edge pre).key pre b := by
  have hpre := (good_append.mp hg).1
  refine ⟨hpre, le_rfl, hfits, fun v hv => ?_⟩
  rw [view_append hpre, if_pos hv]
  exact if_pos hv

/-- The last of them goes on. -/
theorem Mcb.Good.left_extend (hg : Mcb.Good ⟨M, pre ++ p :: xs⟩) :
    Left (Mcb.view ⟨M, pre ++ p :: xs⟩) p.nextVbn pre p.toRun.base := by
  obtain ⟨hpre, ⟨hp, -⟩, -⟩ := good_append.mp hg
  refine ⟨hpre, hg.at_place.1.le, ?_, fun v hv => ?_⟩
  · have hfits := hp.2.2
    cases hbase : p.toRun.base with
    | none =>
      rw [hbase] at hfits
      exact hfits
    | some x =>
      rw [hbase] at hfits
      exact ⟨hfits.1, hfits.2.2⟩
  · rw [view_append hpre, map_cons, lookup, if_pos (show v < p.toRun.stop from hv)]
    rfl

/-- A pair is written before it. -/
theorem Mcb.Good.left_snoc (hg : Mcb.Good ⟨M, pre ++ xs⟩) (hr : (edge pre).Admits 0xffffffff 0xfffffffe r.toRun)
    (hin : ∀ v, (edge pre).key ≤ v → v < r.nextVbn → Mcb.view ⟨M, pre ++ xs⟩ v = r.toRun.value (edge pre).key v)
    (hfits : match b with
      | none => ((edge pre).next r.toRun).before ≠ .hole
      | some b => 1 ≤ b ∧ ((edge pre).next r.toRun).before ≠ .run b) :
    Left (Mcb.view ⟨M, pre ++ xs⟩) r.nextVbn (pre ++ [r]) b := by
  have hpre := (good_append.mp hg).1
  have hedge : Edge.start.over ((pre ++ [r]).map Mapping.toRun) = (edge pre).next r.toRun := edge_concat pre r
  refine ⟨?_, ?_, hedge ▸ hfits, fun v hv => ?_⟩
  · rw [map_append, seg_append]
    exact ⟨hpre, hr, trivial⟩
  · rw [hedge]
    exact le_rfl
  · have happ := hpre.lookup_append [r.toRun] (Nat.zero_le v)
    rw [hedge, if_pos (show v < ((edge pre).next r.toRun).key from hv), map_append]
    refine happ.trans ?_
    by_cases hlt : v < (edge pre).key
    · rw [view_append hpre, if_pos hlt]
      exact if_pos hlt
    · rw [hin v (Nat.le_of_not_lt hlt) hv, lookup, if_pos (show v < r.toRun.stop from hv)]
      exact if_neg hlt

/-- The pairs after it stay. -/
theorem Mcb.Good.right_here (hg : Mcb.Good ⟨M, pre ++ xs⟩)
    (hj : (Edge.mk (edge pre).key after).Joins 0xffffffff 0xfffffffe (xs.map Mapping.toRun)) :
    Right (Mcb.view ⟨M, pre ++ xs⟩) (edge pre).key c (edge pre).key after xs := by
  obtain ⟨hpre, hxs, hlast⟩ := good_append.mp hg
  obtain ⟨hseg, hend⟩ := hj.seg (show _ = (edge pre).key from rfl) hxs hlast
  refine ⟨le_rfl, hpre.key_le_bound (Nat.zero_le _), hseg, hend, fun v hv => ?_⟩
  rw [if_neg (Nat.not_lt.mpr hv), hg.view_from hv]

/-- It takes in the first of them. -/
theorem Mcb.Good.right_swallow (hg : Mcb.Good ⟨M, pre ++ p :: xs⟩)
    (hj : (Edge.mk p.nextVbn after).Joins 0xffffffff 0xfffffffe (xs.map Mapping.toRun))
    (hc : ∀ v, (edge pre).key ≤ v → v < p.nextVbn → c v = Mcb.view ⟨M, pre ++ p :: xs⟩ v) :
    Right (Mcb.view ⟨M, pre ++ p :: xs⟩) (edge pre).key c p.nextVbn after xs := by
  obtain ⟨-, ⟨-, hxs⟩, hlast⟩ := good_append.mp hg
  obtain ⟨hseg, hend⟩ := hj.seg (show _ = ((edge pre).next p.toRun).key from rfl) hxs hlast
  refine ⟨hg.at_place.1.le, hg.at_place.2, hseg, hend, fun v hv => ?_⟩
  split_ifs with hlt
  · exact hc v hv hlt
  · rw [hg.view_from hv, map_cons, lookup, if_neg (show ¬v < p.toRun.stop from hlt)]
    rfl

/-- The first of them is cut. -/
theorem Mcb.Good.right_cut (hg : Mcb.Good ⟨M, pre ++ p :: xs⟩) (hkey : (edge pre).key ≤ hi)
    (hr : (Edge.mk hi after).Admits 0xffffffff 0xfffffffe r.toRun)
    (hnext : (Edge.mk hi after).next r.toRun = (edge pre).next p.toRun)
    (hsame : ∀ v, hi ≤ v → v < p.nextVbn → r.toRun.value hi v = Mcb.view ⟨M, pre ++ p :: xs⟩ v) :
    Right (Mcb.view ⟨M, pre ++ p :: xs⟩) hi c hi after (r :: xs) := by
  obtain ⟨-, ⟨-, hxs⟩, hlast⟩ := good_append.mp hg
  have hstop : r.toRun.stop = p.toRun.stop := congrArg Edge.key hnext
  refine ⟨le_rfl, hr.1.le.trans hr.2.1, ⟨hr, hnext ▸ hxs⟩, ?_, fun v hv => ?_⟩
  · rw [map_cons, Edge.over_cons, hnext]
    exact hlast
  · rw [if_neg (Nat.not_lt.mpr hv), map_cons, lookup, hstop]
    split_ifs with hlt
    · exact hsame v hv hlt
    · rw [hg.view_from (hkey.trans hv), map_cons, lookup, if_neg hlt]

/-! A run begins after a hole or after the run before it, or it continues that run. -/

theorem Mcb.Good.run_gap (hg : Mcb.Good ⟨M, pre ++ xs⟩) (hl : 1 ≤ lbn) (h₁ : (edge pre).key < vbn) (hle : vbn ≤ 0xffffffff)
    (hb : (edge pre).before ≠ .hole) (hnone : ∀ v, (edge pre).key ≤ v → v < vbn → Mcb.view ⟨M, pre ++ xs⟩ v = none) :
    Left (Mcb.view ⟨M, pre ++ xs⟩) vbn (pre ++ [⟨vbn, unusedLbn⟩]) (some lbn) := by
  refine hg.left_snoc (r := ⟨vbn, unusedLbn⟩) ?_ (fun v h₁ h₂ => ?_) ⟨hl, by simp [Edge.next, Mapping.toRun_hole]⟩
  · rw [Mapping.toRun_hole]
    exact ⟨h₁, hle, hb⟩
  · rw [hnone v h₁ h₂, Mapping.toRun_hole]
    rfl

theorem Mcb.Good.run_next (hg : Mcb.Good ⟨M, pre ++ xs⟩) (hl : 1 ≤ lbn) (h₁ : (edge pre).key = vbn)
    (hc : (edge pre).before ≠ .run lbn) : Left (Mcb.view ⟨M, pre ++ xs⟩) vbn pre (some lbn) := h₁ ▸ hg.left_here ⟨hl, hc⟩

theorem Mcb.Good.run_continue (hg : Mcb.Good ⟨M, (pre ++ [p]) ++ xs⟩) (h₁ : p.nextVbn = vbn)
    (hc : (edge (pre ++ [p])).before = .run lbn) :
    Left (Mcb.view ⟨M, (pre ++ [p]) ++ xs⟩) vbn pre (some p.lbn) ∧ p.lbn + (vbn - (edge pre).key) = lbn := by
  obtain ⟨pre', p', hp', hpu, -, -, -, hpl, -⟩ := edge_before_run (good_append.mp hg).1 hc
  obtain ⟨rfl, hp⟩ := append_inj' hp' rfl
  obtain rfl := singleton_inj.mp hp
  rw [append_assoc, singleton_append] at hg ⊢
  have hleft := hg.left_extend
  rw [h₁, show p.toRun.base = some p.lbn from if_neg hpu] at hleft
  exact ⟨hleft, by rw [hpl, h₁]⟩

/-- There is nothing after it, and nothing is mapped there. -/
theorem right_end (hhi : hi ≤ 0xffffffff) (hafter : after ≠ .hole) (hf : ∀ v, hi ≤ v → f v = none) : Right f hi c hi after [] :=
  ⟨le_rfl, hhi, trivial, hafter, fun v hv => by rw [if_neg (Nat.not_lt.mpr hv), hf v hv]; rfl⟩

/-- **Writing a run** between a left and a right. -/
theorem edit_run (hl : Left f vbn pre (some l)) (hbase : l + (vbn - (edge pre).key) = lbn)
    (hr : Right f (vbn + n) (fun v => some (lbn + (v - vbn))) stop (.run (lbn + (stop - vbn))) post) (hn : 1 ≤ n)
    (hV : lbn + (stop - vbn) ≤ 0xfffffffe) :
    Mcb.Good ⟨M', pre ++ ⟨stop, l⟩ :: post⟩ ∧ Mcb.view ⟨M', pre ++ ⟨stop, l⟩ :: post⟩ = PMap.assign f vbn lbn n := by
  have hkey : (edge pre).key ≤ vbn := hl.key_le
  have hstop := hr.hi_le
  have hu : l ≠ unusedLbn := by unfold unusedLbn; omega
  rw [Mcb.Good, Mcb.view, Mcb.runs, map_append, map_cons, Mapping.toRun_run hu]
  refine hl.edit hr (by omega) ?_ ?_ fun v hv => ?_
  · rintro _ ⟨⟩
    change l + (stop - (edge pre).key) ≤ _
    omega
  · change Before.run (l + (stop - (edge pre).key)) = _
    rw [Before.run.injEq]
    omega
  · change some (l + (v - (edge pre).key)) = _
    rw [Option.some.injEq]
    omega

/-- **Writing a hole** between a left and a right. -/
theorem edit_hole (hl : Left f vbn pre none) (hr : Right f hi (fun _ => none) stop .hole post) (hlt : vbn < stop) :
    Mcb.Good ⟨M', pre ++ ⟨stop, unusedLbn⟩ :: post⟩ ∧ Mcb.view ⟨M', pre ++ ⟨stop, unusedLbn⟩ :: post⟩ = PMap.clear f vbn hi := by
  rw [Mcb.Good, Mcb.view, Mcb.runs, map_append, map_cons, Mapping.toRun_hole]
  exact hl.edit hr hlt (by simp) rfl fun _ _ => rfl

end Edit

/-- What the invariant says of a hole: the run before it is not a hole, and it is
followed by a run that is not a hole. -/
theorem Mcb.Good.at_hole (hg : Mcb.Good ⟨M, pre ++ e :: post⟩)
    (hu : e.lbn = unusedLbn) :
    (edge pre).key < e.nextVbn ∧ e.nextVbn ≤ 0xffffffff ∧ (edge pre).before ≠ .hole ∧
      ∃ nx post', post = nx :: post' ∧ nx.lbn ≠ unusedLbn ∧ 1 ≤ nx.lbn ∧ e.nextVbn < nx.nextVbn ∧
        nx.nextVbn ≤ 0xffffffff ∧ nx.lbn + (nx.nextVbn - e.nextVbn) ≤ 0xfffffffe ∧
        (Edge.mk nx.nextVbn (.run (nx.lbn + (nx.nextVbn - e.nextVbn)))).Joins 0xffffffff 0xfffffffe
          (post'.map Mapping.toRun) := by
  obtain ⟨-, ⟨he, hpost⟩, hlast⟩ := good_append.mp hg
  simp only [Edge.Admits, Mapping.toRun, hu, if_true] at he
  refine ⟨he.1, he.2.1, he.2.2, ?_⟩
  cases post with
  | nil => simp [Edge.next, Mapping.toRun, hu] at hlast
  | cons nx post' =>
    obtain ⟨hnx, hpost'⟩ := hpost
    by_cases hnu : nx.lbn = unusedLbn
    · simp [Edge.Admits, Edge.next, Mapping.toRun, hu, hnu] at hnx
    · simp only [Edge.Admits, Edge.next, Mapping.toRun, hu, hnu, if_true, if_false] at hnx
      refine ⟨nx, post', rfl, hnu, hnx.2.2.1, hnx.1, hnx.2.1, hnx.2.2.2.1, ?_⟩
      have hj := joins_of_seg hpost' hlast
      simpa only [Edge.next, Mapping.toRun, hnu, if_false] using hj

/-! ### Filling a hole -/

/-- A request that fits in the hole `⟨t, UNUSED_LBN⟩` after the pairs `pre`. -/
structure Fits (M : ℕ) (pre : List Mapping) (t : ℕ) (nx : Mapping) (post : List Mapping) (vbn lbn n : ℕ) : Prop where
  good : Mcb.Good ⟨M, pre ++ ⟨t, unusedLbn⟩ :: nx :: post⟩
  start : (edge pre).key ≤ vbn
  stop : vbn + n ≤ t
  count : 1 ≤ n
  lbn_pos : 1 ≤ lbn
  lbn_le : lbn + n ≤ 0xfffffffe

/-- `mcb'` is the MCB of the hole with the request added. -/
def Filled (M : ℕ) (pre : List Mapping) (t : ℕ) (nx : Mapping) (post : List Mapping) (vbn lbn n : ℕ) (mcb' : Mcb) : Prop :=
  mcb'.Good ∧ mcb'.view = PMap.assign (Mcb.view ⟨M, pre ++ ⟨t, unusedLbn⟩ :: nx :: post⟩) vbn lbn n

/-- A run of the request may end at `stop`, with the pairs `post'` after it. -/
def Ends (M : ℕ) (pre : List Mapping) (t : ℕ) (nx : Mapping) (post : List Mapping) (vbn lbn n stop : ℕ) (post' : List Mapping) :
    Prop :=
  lbn + (stop - vbn) ≤ 0xfffffffe ∧ Right (Mcb.view ⟨M, pre ++ ⟨t, unusedLbn⟩ :: nx :: post⟩) (vbn + n)
    (fun v => some (lbn + (v - vbn))) stop (.run (lbn + (stop - vbn))) post'

namespace Fits

variable {M M' : ℕ} {pre : List Mapping} {t : ℕ} {p nx : Mapping} {post : List Mapping} {vbn lbn n : ℕ}

theorem around (h : Fits M pre t nx post vbn lbn n) :
    t ≤ 0xffffffff ∧ (edge pre).before ≠ .hole ∧ nx.lbn ≠ unusedLbn ∧ 1 ≤ nx.lbn ∧ t < nx.nextVbn ∧
      nx.nextVbn ≤ 0xffffffff ∧ nx.lbn + (nx.nextVbn - t) ≤ 0xfffffffe ∧
      (Edge.mk nx.nextVbn (.run (nx.lbn + (nx.nextVbn - t)))).Joins 0xffffffff 0xfffffffe (post.map Mapping.toRun) := by
  obtain ⟨-, ht, hb, _, _, ⟨rfl, rfl⟩, hrest⟩ := h.good.at_hole rfl
  exact ⟨ht, hb, hrest⟩

/-- The run after the hole may follow a hole, or a run it does not continue. -/
theorem joins (h : Fits M pre t nx post vbn lbn n) {before : Before} (hb : before ≠ .run nx.lbn) :
    (Edge.mk t before).Joins 0xffffffff 0xfffffffe ((nx :: post).map Mapping.toRun) := by
  obtain ⟨-, -, hnu, hn1, hnt, hnx, hnl, -⟩ := h.around
  simp only [map_cons, Edge.Joins, Edge.Admits, Mapping.toRun, hnu, if_false]
  exact ⟨hnt, hnx, hn1, hnl, hb⟩

/-! It ends before a hole or before the run after it, or it is continued by that run. -/

section

variable (h : Fits M pre t nx post vbn lbn n)

include h

theorem right_gap (h₂ : vbn + n < t) : Ends M pre t nx post vbn lbn n (vbn + n) (⟨t, unusedLbn⟩ :: nx :: post) := by
  obtain ⟨ht, -⟩ := h.around
  have hs := h.start
  have hlb := h.lbn_le
  refine ⟨by omega, h.good.right_cut (by omega) ?_ ?_ fun v h₁ h₂ => ?_⟩
  · rw [Mapping.toRun_hole]
    exact ⟨h₂, ht, by simp⟩
  · rw [Mapping.toRun_hole]
    rfl
  · rw [h.good.view_hole rfl (by omega) h₂, Mapping.toRun_hole]
    rfl

theorem good_next : Mcb.Good ⟨M, (pre ++ [⟨t, unusedLbn⟩]) ++ nx :: post⟩ := by
  simpa using h.good

theorem right_next (h₂ : vbn + n = t) (hc : nx.lbn ≠ lbn + n) : Ends M pre t nx post vbn lbn n t (nx :: post) := by
  have hne : Before.run (lbn + (t - vbn)) ≠ .run nx.lbn := by
    rw [Ne, Before.run.injEq]
    omega
  have hj : (Edge.mk (edge (pre ++ [⟨t, unusedLbn⟩])).key (.run (lbn + (t - vbn)))).Joins 0xffffffff 0xfffffffe
    ((nx :: post).map Mapping.toRun) := by
    simpa [Mapping.toRun_hole] using h.joins hne
  have hright := h.good_next.right_here (c := fun v => some (lbn + (v - vbn))) hj
  have hlb := h.lbn_le
  refine ⟨by omega, ?_⟩
  rw [h₂]
  simpa [Mapping.toRun_hole] using hright

theorem right_continue (h₂ : vbn + n = t) (hc : nx.lbn = lbn + n) : Ends M pre t nx post vbn lbn n nx.nextVbn post := by
  obtain ⟨-, -, hnu, -, hnt, -, hnl, hj⟩ := h.around
  rw [hc, show lbn + n + (nx.nextVbn - t) = lbn + (nx.nextVbn - vbn) by omega] at hj hnl
  have hright := h.good_next.right_swallow (c := fun v => some (lbn + (v - vbn))) hj fun v h₁ h₂ => ?_
  · refine ⟨hnl, ?_⟩
    rw [h₂]
    simpa [Mapping.toRun_hole] using hright
  · rw [h.good_next.view_run hnu h₁ h₂, Option.some.injEq, edge_concat, Edge.next_key, Mapping.toRun_stop]
    dsimp only
    rw [edge_concat, Edge.next_key, Mapping.toRun_stop] at h₁
    dsimp only at h₁
    omega

/-- A run between a left and a right of them fills the hole. -/
theorem filled {pre' post' : List Mapping} {l stop : ℕ} (hr : Ends M pre t nx post vbn lbn n stop post')
    (hl : Left (Mcb.view ⟨M, pre ++ ⟨t, unusedLbn⟩ :: nx :: post⟩) vbn pre' (some l)) (hbase : l + (vbn - (edge pre').key) = lbn) :
    Filled M pre t nx post vbn lbn n ⟨M', pre' ++ ⟨stop, l⟩ :: post'⟩ := edit_run hl hbase hr.2 h.count hr.1

/-- With a hole left before it. -/
theorem filled_gap {post' : List Mapping} {stop : ℕ} (h₁ : (edge pre).key < vbn) (hr : Ends M pre t nx post vbn lbn n stop post') :
    Filled M pre t nx post vbn lbn n ⟨M', pre ++ ⟨vbn, unusedLbn⟩ :: ⟨stop, lbn⟩ :: post'⟩ := by
  obtain ⟨ht, hb, -⟩ := h.around
  have hle := h.stop
  rw [append_cons pre]
  refine h.filled hr (h.good.run_gap h.lbn_pos h₁ (by omega) hb fun v h₁ h₂ => h.good.view_hole rfl h₁ ?_) (by simp)
  exact h₂.trans_le (show vbn ≤ t by omega)

end

end Fits

/-- **A request that fits in a hole** is added to it. -/
theorem fillHole_spec {t : ℕ} {nx : Mapping}
    (h : Fits M pre t nx post vbn lbn n) :
    ∃ mcb', fillHole ⟨M, pre ++ ⟨t, unusedLbn⟩ :: nx :: post⟩ pre.length vbn lbn n = (true, mcb') ∧
      Filled M pre t nx post vbn lbn n mcb' := by
  have ⟨hg, hs, he, hn, hl, hlb⟩ := h
  obtain ⟨ht, -⟩ := h.around
  have hpre := (good_append.mp hg).1
  have hvn : add32 vbn n = vbn + n := add32_of_lt (by omega)
  have hlast : sub32 (vbn + n) 1 = vbn + n - 1 := sub32_of_le (by omega) (by omega)
  have hln : add32 lbn n = lbn + n := add32_of_lt (by omega)
  have hend : (Mcb.mk M (pre ++ ⟨t, unusedLbn⟩ :: nx :: post)).endingVbn pre.length = t - 1 :=
    endingVbn_at (show 0 < t by omega) ht
  rw [fillHole]
  simp only [hvn, hlast, hln, hend, startingLbn_at, startingVbn_at, continues_iff hpre hl, nextStartingLbn_at hg.length_lt]
  rw [if_pos ⟨trivial, hs, by omega⟩]
  have hbefore : vbn + n - 1 < t - 1 ↔ vbn + n < t := by omega
  have hwith : vbn + n - 1 = t - 1 ↔ vbn + n = t := by omega
  simp only [hbefore, hwith]
  -- a request that continues the run before the hole writes to that run
  have hprev (hc : (edge pre).before = .run lbn) : ∃ pre' p, pre = pre' ++ [p] ∧ p.nextVbn = (edge pre).key := by
    obtain ⟨pre', p, rfl, -⟩ := edge_before_run hpre hc
    exact ⟨pre', p, rfl, by simp⟩
  split_ifs with h₁ h₂ h₃ h₄ h₅ h₆ h₇ h₈
  · refine ⟨_, rfl, ?_⟩
    simp only [fsRtlAddLargeEntry_at, List.replicate, cons_append, nil_append, setPair_at, setPair_at_one]
    exact h.filled_gap h₁.1 (h.right_gap h₁.2)
  · obtain ⟨pre, p, rfl, hp⟩ := hprev h₃
    refine ⟨_, rfl, ?_⟩
    simp only [length_append, length_singleton, Nat.add_sub_cancel, append_assoc, singleton_append,
      pair_at, setNextVbn_at, hp, h₂.1, hvn]
    obtain ⟨hleft, hbase⟩ := hg.run_continue (hp.trans h₂.1) h₃
    exact h.filled (h.right_gap h₂.2) hleft hbase
  · refine ⟨_, rfl, ?_⟩
    simp only [fsRtlAddLargeEntry_at, List.replicate, cons_append, nil_append, setPair_at]
    exact h.filled (h.right_gap h₂.2) (hg.run_next hl h₂.1 h₃) (by simp [h₂.1])
  · refine ⟨_, rfl, ?_⟩
    simp only [setNextVbn_at, setLbn_at_one]
    exact h.filled_gap h₄.1 (h.right_continue h₄.2 h₅)
  · refine ⟨_, rfl, ?_⟩
    simp only [fsRtlAddLargeEntry_at, List.replicate, cons_append, nil_append, setPair_at, setLbn_at_one]
    exact h.filled_gap h₄.1 (h.right_next h₄.2 h₅)
  · obtain ⟨hstart, hstop⟩ : (edge pre).key = vbn ∧ vbn + n = t := by omega
    obtain ⟨pre, p, rfl, hp⟩ := hprev h₆.1
    refine ⟨_, rfl, ?_⟩
    have hnx := pair_at_two (M := M) pre p ⟨t, unusedLbn⟩ nx post
    simp only [length_append, length_singleton, Nat.add_sub_cancel, Nat.add_assoc, append_assoc,
      singleton_append, hnx, setNextVbn_at, fsRtlRemoveLargeEntry_add, Nat.reduceAdd, take_succ_cons, take_zero,
      drop_succ_cons, drop_zero]
    obtain ⟨hleft, hbase⟩ := hg.run_continue (hp.trans hstart) h₆.1
    exact h.filled (h.right_continue hstop h₆.2) hleft hbase
  · obtain ⟨hstart, hstop⟩ : (edge pre).key = vbn ∧ vbn + n = t := by omega
    refine ⟨_, rfl, ?_⟩
    simp only [setLbn_at_one, fsRtlRemoveLargeEntry_at, drop_one, tail_cons]
    exact h.filled (h.right_continue hstop h₇) (hg.run_next hl hstart fun hc => h₆ ⟨hc, h₇⟩) (by simp [hstart])
  · obtain ⟨hstart, hstop⟩ : (edge pre).key = vbn ∧ vbn + n = t := by omega
    obtain ⟨pre, p, rfl, hp⟩ := hprev h₈
    refine ⟨_, rfl, ?_⟩
    simp only [length_append, length_singleton, Nat.add_sub_cancel, append_assoc, singleton_append,
      pair_at_one, setNextVbn_at, fsRtlRemoveLargeEntry_add, Nat.reduceAdd, take_succ_cons, take_zero,
      drop_succ_cons, drop_zero]
    obtain ⟨hleft, hbase⟩ := hg.run_continue (hp.trans hstart) h₈
    exact h.filled (h.right_next hstop h₇) hleft hbase
  · obtain ⟨hstart, hstop⟩ : (edge pre).key = vbn ∧ vbn + n = t := by omega
    refine ⟨_, rfl, ?_⟩
    simp only [setLbn_at]
    exact h.filled (h.right_next hstop h₇) (hg.run_next hl hstart h₈) (by simp [hstart])

/-! ### Adding at the end -/

/-- **A request past the end of the mapping** is added there. -/
theorem appendRun_spec (hg : mcb.Good) (hv : mcb.endVbn ≤ vbn) (hvn : vbn + n < 0xffffffff)
    (hn : 1 ≤ n) (hl : 1 ≤ lbn) (hlb : lbn + n ≤ 0xfffffffe) :
    (appendRun mcb vbn lbn n).Good ∧ (appendRun mcb vbn lbn n).view = PMap.assign mcb.view vbn lbn n := by
  obtain ⟨M, pre⟩ := mcb
  rw [Mcb.endVbn] at hv
  dsimp only at hv
  have hg' : Mcb.Good ⟨M, pre ++ []⟩ := by rwa [append_nil]
  obtain ⟨hpre, -, hb⟩ := good_append.mp hg'
  have hkey : add32 ((⟨M, pre ++ []⟩ : Mcb).previousEndingVbn pre.length) 1 = (edge pre).key := previousEndingVbn_at hpre
  have hcont : add32 ((⟨M, pre ++ []⟩ : Mcb).previousEndingLbn pre.length) 1 = lbn ↔ (edge pre).before = .run lbn :=
    continues_iff hpre hl
  have hpast (v : ℕ) (hv : (edge pre).key ≤ v) : Mcb.view ⟨M, pre ++ []⟩ v = none := hg'.view_from hv
  have hright : Right (Mcb.view ⟨M, pre ++ []⟩) (vbn + n) (fun v => some (lbn + (v - vbn))) (vbn + n)
    (.run (lbn + (vbn + n - vbn))) [] :=
    right_end (by omega) (by simp) fun v hv => hpast v (by omega)
  have hvn' : add32 vbn n = vbn + n := add32_of_lt (by omega)
  rw [append_nil] at hkey hcont
  simp only [appendRun, Mcb.pairCount, hkey, hcont, hvn']
  split_ifs with h₁ h₂
  · -- continues the last run
    obtain ⟨pre, p, rfl, -⟩ := edge_before_run hpre h₁.2.2
    have hp : p.nextVbn = vbn := by simpa using h₁.2.1
    obtain ⟨hleft, hbase⟩ := hg'.run_continue hp h₁.2.2
    simp only [length_append, length_singleton, Nat.add_sub_cancel, pair_at, setNextVbn_at, hp, hvn']
    rw [append_nil] at hleft hright
    exact edit_run hleft hbase hright hn (by omega)
  · -- a new last run
    have hkey : (edge pre).key = vbn := by omega
    have hnc : (edge pre).before ≠ .run lbn := by
      intro hc
      refine h₁ ⟨fun h₀ => ?_, hkey, hc⟩
      rw [length_eq_zero_iff.mp h₀] at hc
      cases hc
    have hadd := fsRtlAddLargeEntry_at (M := M) pre [] 1
    have hleft := hg'.run_next hl hkey hnc
    rw [append_nil] at hadd hleft hright
    simp only [hadd, List.replicate, cons_append, nil_append, setPair_at]
    exact edit_run hleft (by omega) hright hn (by omega)
  · -- a hole, then a new last run
    have hadd := fsRtlAddLargeEntry_at (M := M) pre [] 2
    have hleft := hg'.run_gap hl (show (edge pre).key < vbn by omega) (by omega) hb fun v hv _ => hpast v hv
    rw [append_nil] at hadd hleft hright
    simp only [hadd, List.replicate, cons_append, nil_append, setPair_at, setPair_at_one]
    rw [append_cons pre]
    exact edit_run hleft (by simp) hright hn (by omega)

/-! ### The request -/

/-- What a caller of `FsRtlAddLargeMcbEntry` must see to. The last two are the code's
`ASSERT`s "that the Lbn's line up", where the request overlaps a mapped run at its start,
or else at its end. -/
structure AddOk (mcb : Mcb) (vbn lbn n : ℕ) : Prop where
  lbn_pos : 1 ≤ lbn
  count : 1 ≤ n
  vbn_lt : vbn + n < 0xffffffff
  lbn_lt : lbn + n < 0xffffffff
  agree_start : ∀ l, mcb.view vbn = some l → l = lbn
  agree_end : mcb.view vbn = none → ∀ l, mcb.view (vbn + n - 1) = some l → l = lbn + (n - 1)

/-- The request `(vbn', lbn', n')` adds what `(vbn, lbn, n)` does, and starts no earlier. -/
structure Trimmed (mcb : Mcb) (vbn lbn n vbn' lbn' n' : ℕ) : Prop where
  lbn_pos : 1 ≤ lbn'
  count : 1 ≤ n'
  start : vbn ≤ vbn'
  stop : vbn' + n' ≤ vbn + n
  lbn_le : lbn' + n' ≤ 0xfffffffe
  same : PMap.assign mcb.view vbn' lbn' n' = PMap.assign mcb.view vbn lbn n
  unmapped : mcb.view vbn = none → vbn' = vbn

theorem AddOk.untrimmed (h : AddOk mcb vbn lbn n) : Trimmed mcb vbn lbn n vbn lbn n :=
  ⟨h.lbn_pos, h.count, le_rfl, le_rfl, Nat.le_of_lt_succ h.lbn_lt, rfl, fun _ => rfl⟩

/-- A request that starts in a run and goes past it, without what is in the run. -/
theorem AddOk.trim_run
    (hg : Mcb.Good ⟨M, pre ++ e :: post⟩) (h : AddOk ⟨M, pre ++ e :: post⟩ vbn lbn n) (hu : e.lbn ≠ unusedLbn)
    (hs : (edge pre).key ≤ vbn) (ht : vbn < e.nextVbn) (hend : e.nextVbn < vbn + n) :
    Trimmed ⟨M, pre ++ e :: post⟩ vbn lbn n e.nextVbn (e.lbn + (e.nextVbn - (edge pre).key)) (vbn + n - e.nextVbn) := by
  obtain ⟨hl, hlb, -, -⟩ := hg.at_run hu
  have hmap := hg.view_run hu hs ht
  have hagree := h.agree_start _ hmap
  have hlt := h.lbn_lt
  refine ⟨by omega, by omega, by omega, by omega, by omega, funext fun v => ?_, fun hnone => ?_⟩
  · simp only [PMap.assign, PMap.on]
    by_cases hv : vbn ≤ v ∧ v < e.nextVbn
    · rw [if_neg (by omega), if_pos (by omega), hg.view_run hu (by omega) hv.2, Option.some.injEq]
      omega
    · split_ifs <;> first | omega | (rw [Option.some.injEq]; omega) | rfl
  · rw [hmap] at hnone
    cases hnone

theorem AddOk.contained
    (hg : Mcb.Good ⟨M, pre ++ e :: post⟩) (h : AddOk ⟨M, pre ++ e :: post⟩ vbn lbn n) (hu : e.lbn ≠ unusedLbn)
    (hs : (edge pre).key ≤ vbn) (hend : vbn + n ≤ e.nextVbn) :
    PMap.assign (Mcb.view ⟨M, pre ++ e :: post⟩) vbn lbn n = Mcb.view ⟨M, pre ++ e :: post⟩ := by
  have hn := h.count
  have hagree := h.agree_start _ (hg.view_run hu hs (by omega))
  funext v
  simp only [PMap.assign, PMap.on]
  split_ifs with hv
  · rw [hg.view_run hu (by omega) (by omega), Option.some.injEq]
    omega
  · rfl

/-- A request that starts in a hole and ends in the run that follows, without what is in
that run. -/
theorem AddOk.trim_hole {t : ℕ} {nx : Mapping}
    (hg : Mcb.Good ⟨M, pre ++ ⟨t, unusedLbn⟩ :: nx :: post⟩) (h : AddOk ⟨M, pre ++ ⟨t, unusedLbn⟩ :: nx :: post⟩ vbn lbn n)
    (hs : (edge pre).key ≤ vbn) (ht : vbn < t) (hend : t < vbn + n) (hend' : vbn + n ≤ nx.nextVbn) :
    Trimmed ⟨M, pre ++ ⟨t, unusedLbn⟩ :: nx :: post⟩ vbn lbn n vbn lbn (t - vbn) := by
  obtain ⟨-, -, -, _, _, ⟨rfl, rfl⟩, hnu, -⟩ := hg.at_hole rfl
  have hg' : Mcb.Good ⟨M, (pre ++ [⟨t, unusedLbn⟩]) ++ nx :: post⟩ := by simpa using hg
  have hmap {v : ℕ} (h₁ : t ≤ v) (h₂ : v < nx.nextVbn) : Mcb.view ⟨M, pre ++ ⟨t, unusedLbn⟩ :: nx :: post⟩ v =
    some (nx.lbn + (v - t)) := by
    simpa using hg'.view_run hnu (v := v) (by simpa using h₁) h₂
  have hagree := h.agree_end (hg.view_hole rfl hs ht) _ (hmap (by omega) (by omega))
  have hlt := h.lbn_lt
  have hl := h.lbn_pos
  refine ⟨hl, by omega, le_rfl, by omega, by omega, funext fun v => ?_, fun _ => rfl⟩
  simp only [PMap.assign, PMap.on]
  by_cases hv : t ≤ v ∧ v < vbn + n
  · rw [if_neg (by omega), if_pos (by omega), hmap hv.1 (by omega), Option.some.injEq]
    omega
  · split_ifs <;> first | omega | rfl

theorem trimRequest_spec (hg : mcb.Good) (h : AddOk mcb vbn lbn n) :
    match trimRequest mcb vbn lbn n with
    | none => PMap.assign mcb.view vbn lbn n = mcb.view
    | some (vbn', lbn', n') => Trimmed mcb vbn lbn n vbn' lbn' n' := by
  by_cases hv : vbn < mcb.endVbn
  · obtain ⟨pre, e, post, hm, hf, hs, ht⟩ := hg.find_some hv
    obtain ⟨M, mapping⟩ := mcb
    simp only [Mcb.mk.injEq, true_and] at hm
    subst hm
    have hvn := h.vbn_lt
    have hn := h.count
    obtain ⟨hk, hmax⟩ := hg.at_place
    have hendv : sub32 (add32 vbn n) 1 = vbn + n - 1 := by
      unfold sub32 add32
      omega
    have hend : (Mcb.mk M (pre ++ e :: post)).endingVbn pre.length = e.nextVbn - 1 := endingVbn_at (by omega) hmax
    simp only [trimRequest, hf, startingLbn_at, hendv, hend]
    by_cases hu : e.lbn = unusedLbn
    · rw [if_neg (not_not.mpr hu)]
      obtain ⟨t, _⟩ := e
      subst hu
      obtain ⟨-, -, -, nx, post, rfl, -⟩ := hg.at_hole rfl
      by_cases hv' : vbn + n - 1 < (Mcb.mk M (pre ++ ⟨t, unusedLbn⟩ :: nx :: post)).endVbn
      · obtain ⟨pre', e', post', hm', hf', hs', ht'⟩ := hg.find_some hv'
        simp only [hf']
        split_ifs with hi
        · -- the run that follows is the one the request ends in
          simp only [Mcb.mk.injEq, true_and] at hm'
          rw [← singleton_append, ← append_assoc] at hm'
          obtain ⟨rfl, hpost⟩ := append_inj hm' (by simpa using hi)
          obtain ⟨rfl, rfl⟩ := List.cons.inj hpost
          rw [edge_concat, Edge.next_key, Mapping.toRun_stop] at hs'
          dsimp only at ht hs' hmax
          have hstart := startingVbn_at_one (M := M) pre ⟨t, unusedLbn⟩ (nx :: post)
          rw [← hi, hstart, sub32_of_le (by dsimp only; omega) (by dsimp only; omega)]
          exact h.trim_hole hg hs ht (by omega) (by omega)
        · exact h.untrimmed
      · simp only [hg.find_none (Nat.le_of_not_lt hv')]
        exact h.untrimmed
    · rw [if_pos hu]
      by_cases hc : vbn + n - 1 ≤ e.nextVbn - 1
      · rw [if_pos hc]
        exact h.contained hg hu hs (by omega)
      · obtain ⟨hl, hlb, -⟩ := hg.at_run hu
        have hnext : (Mcb.mk M (pre ++ e :: post)).nextStartingVbn pre.length = e.nextVbn := by
          rw [Mcb.nextStartingVbn, if_neg (by simp [Mcb.pairCount]), startingVbn_at_one]
        have hlbn : add32 (e.lbn + (e.nextVbn - (edge pre).key) - 1) 1 = e.lbn + (e.nextVbn - (edge pre).key) := by
          unfold add32
          omega
        have hcount : add32 (sub32 (vbn + n - 1) e.nextVbn) 1 = vbn + n - e.nextVbn := by
          unfold add32 sub32
          omega
        rw [if_neg hc, hnext, endingLbn_at hu hl hk hmax hlb, hlbn, hcount]
        exact h.trim_run hg hu hs ht (by omega)
  · simp only [trimRequest, hg.find_none (Nat.le_of_not_lt hv)]
    exact h.untrimmed

/-! ### The routine -/

/-- What `FsRtlAddLargeMcbEntry` is for: `TRUE` and the request is added, or `FALSE` and
nothing is changed, the request meeting a mapped VBN. -/
def Added (mcb : Mcb) (vbn lbn n : ℕ) (result : Bool × Mcb) : Prop :=
  match result with
  | (true, mcb') => mcb'.Good ∧ mcb'.view = PMap.assign mcb.view vbn lbn n
  | (false, mcb') => mcb' = mcb ∧ ∃ v, vbn ≤ v ∧ v < vbn + n ∧ mcb.view v ≠ none

/-- The last part of the routine, at the place of the trimmed request. -/
theorem fillHole_added {vbn' lbn' n' : ℕ}
    (hg : Mcb.Good ⟨M, pre ++ e :: post⟩) (hvn : vbn + n < 0xffffffff)
    (h : Trimmed ⟨M, pre ++ e :: post⟩ vbn lbn n vbn' lbn' n') (hs : (edge pre).key ≤ vbn') (ht : vbn' < e.nextVbn) :
    Added ⟨M, pre ++ e :: post⟩ vbn lbn n (fillHole ⟨M, pre ++ e :: post⟩ pre.length vbn' lbn' n') := by
  have ⟨hl, hn, hstart, hstop, hlb, hsame, hun⟩ := h
  obtain ⟨hk, hmax⟩ := hg.at_place
  have hend : (Mcb.mk M (pre ++ e :: post)).endingVbn pre.length = e.nextVbn - 1 := endingVbn_at (by omega) hmax
  have hlast : sub32 (add32 vbn' n') 1 = vbn' + n' - 1 := by
    unfold sub32 add32
    omega
  by_cases hfit : e.lbn = unusedLbn ∧ vbn' + n' ≤ e.nextVbn
  · obtain ⟨t, _⟩ := e
    obtain ⟨rfl, hfit⟩ := hfit
    obtain ⟨-, -, -, nx, post, rfl, -⟩ := hg.at_hole rfl
    obtain ⟨mcb', hfill, hgood, hview⟩ := fillHole_spec ⟨hg, hs, hfit, hn, hl, hlb⟩
    rw [hfill]
    exact ⟨hgood, hview.trans hsame⟩
  · -- the request does not fit: `FALSE`
    rw [fillHole]
    simp only [hlast, hend, startingLbn_at, startingVbn_at]
    rw [if_neg fun hc => hfit ⟨hc.1, by omega⟩]
    refine ⟨rfl, ?_⟩
    by_cases hmap : Mcb.view ⟨M, pre ++ e :: post⟩ vbn = none
    · -- it starts in the hole, and reaches the run after it
      obtain rfl := hun hmap
      have hu : e.lbn = unusedLbn := by
        by_contra hu
        rw [hg.view_run hu hs ht] at hmap
        cases hmap
      have hlong : ¬ vbn' + n' ≤ e.nextVbn := fun hc => hfit ⟨hu, hc⟩
      obtain ⟨-, -, -, nx, post, rfl, hnu, -, hnt, -⟩ := hg.at_hole hu
      have hg' : Mcb.Good ⟨M, (pre ++ [e]) ++ nx :: post⟩ := by simpa using hg
      refine ⟨e.nextVbn, by omega, by omega, ?_⟩
      have hrun := hg'.view_run hnu (v := e.nextVbn) (by simp) hnt
      simp only [append_assoc, singleton_append] at hrun
      rw [hrun]
      exact Option.some_ne_none _
    · exact ⟨vbn, le_rfl, by omega, hmap⟩

/-- **Adding**: under the conditions the code asserts, `FsRtlAddLargeMcbEntry` adds the
request, or says that it meets a mapped VBN. -/
theorem fsRtlAddLargeMcbEntry_added (hg : mcb.Good) (h : AddOk mcb vbn lbn n) :
    Added mcb vbn lbn n (fsRtlAddLargeMcbEntry mcb vbn lbn n) := by
  have ⟨hl, hn, hvn, hln, _, _⟩ := h
  have htrim := trimRequest_spec hg h
  rw [fsRtlAddLargeMcbEntry, u32_of_lt (by omega), u32_of_lt (by omega), u32_of_lt (by omega)]
  cases htr : trimRequest mcb vbn lbn n with
  | none =>
    rw [htr] at htrim
    exact ⟨hg, htrim.symm⟩
  | some r =>
    obtain ⟨vbn', lbn', n'⟩ := r
    rw [htr] at htrim
    dsimp only at htrim ⊢
    have hkey : add32 (mcb.previousEndingVbn mcb.pairCount) 1 = mcb.endVbn := by
      obtain ⟨M, mapping⟩ := mcb
      have hend : add32 ((⟨M, mapping ++ []⟩ : Mcb).previousEndingVbn mapping.length) 1 = (edge mapping).key :=
        previousEndingVbn_at hg.1
      rwa [append_nil] at hend
    rw [hkey]
    by_cases hv : mcb.endVbn ≤ vbn'
    · obtain ⟨hl', hn', -, hstop, hlb', hsame, -⟩ := htrim
      obtain ⟨hgood, hview⟩ := appendRun_spec hg hv (by omega) hn' hl' hlb'
      rw [if_pos (Or.inr hv)]
      exact ⟨hgood, hview.trans hsame⟩
    · obtain ⟨pre, e, post, hm, hf, hs, ht⟩ := hg.find_some (Nat.lt_of_not_le hv)
      have hpc : mcb.pairCount ≠ 0 := by
        rw [hm]
        simp [Mcb.pairCount]
      rw [if_neg (by tauto), hf]
      obtain ⟨M, mapping⟩ := mcb
      simp only [Mcb.mk.injEq, true_and] at hm
      subst hm
      exact fillHole_added hg hvn htrim hs ht

end LargeMcb

end Nt365.FsRtl
