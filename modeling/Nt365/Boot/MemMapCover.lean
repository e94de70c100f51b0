import Nt365.Boot.MemMap
import Nt365.Library.Apart
import Mathlib.Data.List.Flatten
import Mathlib.Data.List.Forall2
import Mathlib.Data.List.Induction
import Mathlib.Order.Nat

/-!
# What the memory map covers

A region is split into pieces that go up through its pages, and merging keeps which pages have which
types (`typesAt`). Base and size are cut down to pages separately, so that a region that starts inside a page
gives that page although part of it is not in the region. `memmapToNt_cover_iff` says for which regions and registries the
map is an exact cover.
-/

namespace Nt365.Boot.MemMap

open Nt365.Library List

/-! ### Runs -/

namespace NtMemEntry

/-- The page is one of the run. -/
def Covers (run : NtMemEntry) (page : ℕ) : Prop := run.basePage ≤ page ∧ page < run.basePage + run.pageCount

instance (run : NtMemEntry) (page : ℕ) : Decidable (run.Covers page) := inferInstanceAs (Decidable (_ ∧ _))

/-- The pages are 32-bit numbers, and so is the end. -/
def Bounded (run : NtMemEntry) : Prop := run.basePage + run.pageCount < 4294967296

end NtMemEntry

/-- All pages of the first run are related to all of the second. -/
def Before (R : ℕ → ℕ → Prop) (a b : NtMemEntry) : Prop := ∀ p q, a.Covers p → b.Covers q → R p q

variable (page : ℕ)

/-- The types of the runs that cover a page. -/
def typesAt (runs : List NtMemEntry) : List ℕ := (runs.filter (·.Covers page)).map (·.memoryType)

@[simp] theorem typesAt_nil : typesAt page [] = [] := rfl

theorem typesAt_cons (run : NtMemEntry) (runs : List NtMemEntry) :
    typesAt page (run :: runs) = (if run.Covers page then [run.memoryType] else []) ++ typesAt page runs := by
  by_cases h : run.Covers page <;> simp [typesAt, h]

@[simp] theorem typesAt_append (runs runs' : List NtMemEntry) :
    typesAt page (runs ++ runs') = typesAt page runs ++ typesAt page runs' := by
  simp [typesAt]

@[simp] theorem typesAt_reverse (runs : List NtMemEntry) : typesAt page runs.reverse = (typesAt page runs).reverse := by
  simp [typesAt, filter_reverse, map_reverse]

theorem mem_typesAt {page type : ℕ} {runs : List NtMemEntry} :
    type ∈ typesAt page runs ↔ ∃ run ∈ runs, run.Covers page ∧ run.memoryType = type := by
  simp only [typesAt, mem_map, mem_filter, decide_eq_true_eq, and_assoc]

/-! ### Emitting -/

section Emit

variable {cap : ℕ}

/-- An entry is dropped, or it continues the last run, or it is a new run. -/
theorem emitEntry_cases (out : List NtMemEntry) (run : NtMemEntry) :
    emitEntry cap out run = out ∧ (run.pageCount = 0 ∨ out.length ≥ cap) ∨
    (∃ prev rest, out = prev :: rest ∧ prev.memoryType = run.memoryType ∧ add32 prev.basePage prev.pageCount = run.basePage ∧
      emitEntry cap out run = { prev with pageCount := add32 prev.pageCount run.pageCount } :: rest) ∨
    emitEntry cap out run = run :: out := by
  unfold emitEntry
  split
  · exact .inl ⟨rfl, ‹_›⟩
  · cases out with
    | nil => exact .inr (.inr rfl)
    | cons prev rest =>
      by_cases hadj : prev.memoryType = run.memoryType ∧ add32 prev.basePage prev.pageCount = run.basePage
      · exact .inr (.inl ⟨prev, rest, rfl, hadj.1, hadj.2, if_pos hadj⟩)
      · exact .inr (.inr (if_neg hadj))

theorem length_emitEntry (out : List NtMemEntry) (run : NtMemEntry) : out.length ≤ (emitEntry cap out run).length := by
  obtain ⟨heq, -⟩ | ⟨prev, rest, rfl, -, -, heq⟩ | heq := @emitEntry_cases cap out run <;> simp [heq]

theorem covers_merge {prev run : NtMemEntry} (hp : prev.Bounded) (hr : run.Bounded)
    (hadj : add32 prev.basePage prev.pageCount = run.basePage) (page : ℕ) :
    prev.basePage + prev.pageCount = run.basePage ∧
      add32 prev.pageCount run.pageCount = prev.pageCount + run.pageCount ∧
      (NtMemEntry.Covers ⟨prev.memoryType, prev.basePage, prev.pageCount + run.pageCount⟩ page ↔
        prev.Covers page ∨ run.Covers page) := by
  unfold NtMemEntry.Bounded at hp hr
  rw [add32_of_lt hp] at hadj
  refine ⟨hadj, add32_of_lt (by omega), ?_⟩
  unfold NtMemEntry.Covers
  simp only
  omega

section Step

variable {out : List NtMemEntry} {run : NtMemEntry} (hout : ∀ a ∈ out, a.Bounded) (hrun : run.Bounded)

include hout hrun

theorem emitEntry_bounded : ∀ a ∈ emitEntry cap out run, a.Bounded := by
  obtain ⟨heq, -⟩ | ⟨prev, rest, rfl, -, hadj, heq⟩ | heq := @emitEntry_cases cap out run
  · rwa [heq]
  · obtain ⟨hadj, hcount, -⟩ := covers_merge (hout prev mem_cons_self) hrun hadj 0
    rw [heq, hcount, forall_mem_cons]
    refine ⟨?_, fun a ha => hout a (mem_cons_of_mem _ ha)⟩
    unfold NtMemEntry.Bounded at hrun ⊢
    simp only
    omega
  · rw [heq, forall_mem_cons]
    exact ⟨hrun, hout⟩

/-- **Emitting keeps the types of the pages.** -/
theorem typesAt_emitEntry (hcap : (emitEntry cap out run).length < cap) (page : ℕ) :
    typesAt page (emitEntry cap out run) = typesAt page [run] ++ typesAt page out := by
  obtain ⟨heq, hdrop⟩ | ⟨prev, rest, rfl, htype, hadj, heq⟩ | heq := @emitEntry_cases cap out run
  · rw [heq] at hcap
    have hempty : ¬run.Covers page := by
      unfold NtMemEntry.Covers
      omega
    rw [heq, typesAt_cons, if_neg hempty]
    rfl
  · obtain ⟨hadj, hcount, hcovers⟩ := covers_merge (hout prev mem_cons_self) hrun hadj page
    rw [heq, hcount, typesAt_cons, typesAt_cons, typesAt_cons]
    simp only [hcovers, typesAt_nil, append_nil]
    rw [htype]
    by_cases hp : prev.Covers page
    · have hr : ¬run.Covers page := by
        unfold NtMemEntry.Covers at hp ⊢
        omega
      simp [hp, hr]
    · simp [hp]
  · rw [heq, typesAt_cons, typesAt_cons]
    simp

theorem covers_emitEntry {a : NtMemEntry} (ha : a ∈ emitEntry cap out run) {page : ℕ} (h : a.Covers page) :
    run.Covers page ∨ ∃ b ∈ out, b.Covers page := by
  obtain ⟨heq, -⟩ | ⟨prev, rest, rfl, -, hadj, heq⟩ | heq := @emitEntry_cases cap out run
  · exact .inr ⟨a, heq ▸ ha, h⟩
  · obtain ⟨-, hcount, hcovers⟩ := covers_merge (hout prev mem_cons_self) hrun hadj page
    rw [heq, hcount, mem_cons] at ha
    obtain rfl | ha := ha
    · obtain h | h := hcovers.mp h
      · exact .inr ⟨prev, mem_cons_self, h⟩
      · exact .inl h
    · exact .inr ⟨a, mem_cons_of_mem _ ha, h⟩
  · rw [heq, mem_cons] at ha
    obtain rfl | ha := ha
    · exact .inl h
    · exact .inr ⟨a, ha, h⟩

theorem pairwise_emitEntry {R : ℕ → ℕ → Prop} (h : out.Pairwise (flip (Before R))) (hnew : ∀ a ∈ out, Before R a run) :
    (emitEntry cap out run).Pairwise (flip (Before R)) := by
  obtain ⟨heq, -⟩ | ⟨prev, rest, rfl, -, hadj, heq⟩ | heq := @emitEntry_cases cap out run
  · rwa [heq]
  · rw [heq]
    rw [pairwise_cons] at h ⊢
    refine ⟨fun a ha p q hp hq => ?_, h.2⟩
    obtain ⟨-, hcount, hcovers⟩ := covers_merge (hout prev mem_cons_self) hrun hadj q
    rw [hcount, hcovers] at hq
    obtain hq | hq := hq
    · exact h.1 a ha p q hp hq
    · exact hnew a (mem_cons_of_mem _ ha) p q hp hq
  · rw [heq, pairwise_cons]
    exact ⟨hnew, h⟩

end Step

/-- Several entries, one after another. -/
def emitAll (cap : ℕ) (out pieces : List NtMemEntry) : List NtMemEntry := pieces.foldl (emitEntry cap) out

theorem emitAll_append (out pieces pieces' : List NtMemEntry) :
    emitAll cap out (pieces ++ pieces') = emitAll cap (emitAll cap out pieces) pieces' := foldl_append ..

theorem length_emitAll (out pieces : List NtMemEntry) : out.length ≤ (emitAll cap out pieces).length := by
  induction pieces generalizing out with
  | nil => exact le_rfl
  | cons run pieces ih => exact (length_emitEntry out run).trans (ih _)

variable {out pieces : List NtMemEntry}

theorem emitAll_bounded (hout : ∀ a ∈ out, a.Bounded) (hpieces : ∀ a ∈ pieces, a.Bounded) :
    ∀ a ∈ emitAll cap out pieces, a.Bounded := by
  induction pieces generalizing out with
  | nil => exact hout
  | cons run pieces ih =>
    rw [forall_mem_cons] at hpieces
    exact ih (emitEntry_bounded hout hpieces.1) hpieces.2

/-- **The types of the pages** are those of the pieces. -/
theorem typesAt_emitAll (hout : ∀ a ∈ out, a.Bounded) (hpieces : ∀ a ∈ pieces, a.Bounded)
    (hcap : (emitAll cap out pieces).length < cap) (page : ℕ) :
    typesAt page (emitAll cap out pieces) = (typesAt page pieces).reverse ++ typesAt page out := by
  induction pieces generalizing out with
  | nil => rfl
  | cons run pieces ih =>
    rw [forall_mem_cons] at hpieces
    have hfirst : (emitEntry cap out run).length < cap := (length_emitAll _ pieces).trans_lt hcap
    rw [emitAll, foldl_cons, ← emitAll, ih (emitEntry_bounded hout hpieces.1) hpieces.2 hcap,
      typesAt_emitEntry hout hpieces.1 hfirst, ← singleton_append (l := pieces), typesAt_append, reverse_append,
      append_assoc]
    congr 2
    rw [typesAt_cons]
    split <;> rfl

theorem pairwise_emitAll {R : ℕ → ℕ → Prop} (hout : ∀ a ∈ out, a.Bounded)
    (hpieces : ∀ a ∈ pieces, a.Bounded) (hR : out.Pairwise (flip (Before R))) (hR' : pieces.Pairwise (Before R))
    (hnew : ∀ a ∈ out, ∀ b ∈ pieces, Before R a b) : (emitAll cap out pieces).Pairwise (flip (Before R)) := by
  induction pieces generalizing out with
  | nil => exact hR
  | cons run pieces ih =>
    rw [forall_mem_cons] at hpieces
    rw [pairwise_cons] at hR'
    refine ih (emitEntry_bounded hout hpieces.1) hpieces.2
      (pairwise_emitEntry hout hpieces.1 hR fun a ha => hnew a ha run mem_cons_self) hR'.2 fun a ha b hb p q hp hq => ?_
    obtain hrun | ⟨c, hc, hcp⟩ := covers_emitEntry hout hpieces.1 ha hp
    · exact hR'.1 b hb p q hrun hq
    · exact hnew c hc b (mem_cons_of_mem _ hb) p q hcp hq

end Emit

/-! ### Overlaps -/

/-- The page is one of the entry's range in 32 bits. -/
def Registers (e : AllocEntry) (page : ℕ) : Prop := (registryPages e).1 ≤ page ∧ page < (registryPages e).2

instance (e : AllocEntry) (page : ℕ) : Decidable (Registers e page) := inferInstanceAs (Decidable (_ ∧ _))

/-- The type of a page: that of the entry that registers it, or else the coarse one. -/
def typeAt (registry : List AllocEntry) (coarse page : ℕ) : ℕ :=
  match registry.find? (Registers · page) with
  | some e => kindToNt e.kind
  | none => coarse

section TypeAt

variable {registry : List AllocEntry} {coarse page : ℕ}

theorem typeAt_of_registers (h : Apart Registers registry) {e : AllocEntry} (he : e ∈ registry) (hpage : Registers e page) :
    typeAt registry coarse page = kindToNt e.kind := by
  unfold typeAt
  cases hfind : registry.find? (Registers · page) with
  | none => exact absurd hpage (by simpa using find?_eq_none.mp hfind e he)
  | some e' =>
    have hpage' : Registers e' page := by simpa using find?_some hfind
    rw [h.eq (mem_of_find?_eq_some hfind) he hpage' hpage]

theorem typeAt_of_not_registers (h : ∀ e ∈ registry, ¬Registers e page) : typeAt registry coarse page = coarse := by
  have hnone : registry.find? (Registers · page) = none := by
    rw [find?_eq_none]
    simpa using h
  rw [typeAt, hnone]

end TypeAt

/-- What the search has found: nothing if no entry overlaps, or the overlap of an entry, and none starts before it. -/
def Overlap.Spec (best : Overlap) (registry : List AllocEntry) (cursor stop : ℕ) : Prop :=
  best.found = false ∧ best.start = stop ∧ (∀ e ∈ registry, ∀ page, cursor ≤ page → page < stop → ¬Registers e page) ∨
  best.found = true ∧ cursor ≤ best.start ∧ best.start < best.stop ∧ best.stop ≤ stop ∧
    (∃ e ∈ registry, best.nt = kindToNt e.kind ∧ ∀ page, best.start ≤ page → page < best.stop → Registers e page) ∧
    ∀ e ∈ registry, ∀ page, cursor ≤ page → page < best.start → ¬Registers e page

variable {registry : List AllocEntry} {regions : List BeRegion} {pss : List (List NtMemEntry)}

theorem Overlap.Spec.step {best : Overlap} {cursor stop : ℕ} (h : best.Spec registry cursor stop)
    (e : AllocEntry) : (overlapStep cursor stop best e).Spec (registry ++ [e]) cursor stop := by
  unfold overlapStep
  simp only
  generalize hos : (if (registryPages e).1 > cursor then (registryPages e).1 else cursor) = os
  generalize hoe : (if (registryPages e).2 < stop then (registryPages e).2 else stop) = oe
  -- the entry registers from `os` to `oe`, of the pages that are looked at
  have hmid : ∀ page, os ≤ page → page < oe → Registers e page := by
    intro page hlo hhi
    unfold Registers
    split at hos <;> split at hoe <;> omega
  have hout : ∀ page, cursor ≤ page → page < stop → Registers e page → os ≤ page ∧ page < oe := by
    intro page hlo hhi hreg
    unfold Registers at hreg
    split at hos <;> split at hoe <;> omega
  have hcursor : cursor ≤ os := by
    split at hos <;> omega
  have hstop : oe ≤ stop := by
    split at hoe <;> omega
  split
  case isTrue hempty =>
    obtain ⟨hfound, hstart, hnone⟩ | ⟨hfound, h₁, h₂, h₃, ⟨e', he', hnt, hreg⟩, hnone⟩ := h
    · refine .inl ⟨hfound, hstart, ?_⟩
      rw [forall_mem_append, forall_mem_singleton]
      refine ⟨hnone, fun page hlo hhi hreg => ?_⟩
      have := hout page hlo hhi hreg
      omega
    · refine .inr ⟨hfound, h₁, h₂, h₃, ⟨e', mem_append_left _ he', hnt, hreg⟩, ?_⟩
      rw [forall_mem_append, forall_mem_singleton]
      refine ⟨hnone, fun page hlo hhi hreg => ?_⟩
      have := hout page hlo (by omega) hreg
      omega
  case isFalse hover =>
    have hnone' : ∀ page, cursor ≤ page → page < os → ¬Registers e page := by
      intro page hlo hhi hreg
      have := hout page hlo (by omega) hreg
      omega
    split
    case isTrue hbefore =>
      refine .inr ⟨rfl, hcursor, by simpa using hover, hstop, ⟨e, by simp, rfl, hmid⟩, ?_⟩
      rw [forall_mem_append, forall_mem_singleton]
      refine ⟨fun e' he' page hlo hhi => ?_, hnone'⟩
      simp only at hhi
      obtain ⟨-, hstart, hnone⟩ | ⟨-, -, h₂, h₃, -, hnone⟩ := h
      · exact hnone e' he' page hlo (by omega)
      · exact hnone e' he' page hlo (by omega)
    case isFalse hafter =>
      obtain ⟨-, hstart, -⟩ | ⟨hfound, h₁, h₂, h₃, ⟨e', he', hnt, hreg⟩, hnone⟩ := h
      · omega
      · refine .inr ⟨hfound, h₁, h₂, h₃, ⟨e', mem_append_left _ he', hnt, hreg⟩, ?_⟩
        rw [forall_mem_append, forall_mem_singleton]
        exact ⟨hnone, fun page hlo hhi => hnone' page hlo (by omega)⟩

theorem firstOverlap_spec (registry : List AllocEntry) (cursor stop : ℕ) :
    (firstOverlap registry cursor stop).Spec registry cursor stop := by
  unfold firstOverlap
  induction registry using List.reverseRecOn with
  | nil => exact .inl ⟨rfl, rfl, by simp⟩
  | append_singleton registry e ih =>
    rw [foldl_append, foldl_cons, foldl_nil]
    exact ih.step e

/-! ### Pieces -/

/-- Pieces that go up and give each page of a set its type. -/
structure Splits (E : ℕ → Prop) [DecidablePred E] (type : ℕ → ℕ) (pieces : List NtMemEntry) : Prop where
  bounded : ∀ a ∈ pieces, a.Bounded
  typesAt : ∀ page, typesAt page pieces = if E page then [type page] else []
  ascending : pieces.Pairwise (Before (· < ·))

namespace Splits

variable {type : ℕ → ℕ} {pieces : List NtMemEntry}

theorem nil {E : ℕ → Prop} [DecidablePred E] (h : ∀ page, ¬E page) : Splits E type [] where
  bounded := by simp
  typesAt page := by rw [if_neg (h page), typesAt_nil]
  ascending := .nil

theorem congr {E E' : ℕ → Prop} [DecidablePred E] [DecidablePred E'] (h : Splits E type pieces) (heq : ∀ page, E page ↔ E' page) :
    Splits E' type pieces where
  bounded := h.bounded
  typesAt page := by rw [h.typesAt page, if_congr (heq page) rfl rfl]
  ascending := h.ascending

theorem covers {E : ℕ → Prop} [DecidablePred E] (h : Splits E type pieces) {a : NtMemEntry} (ha : a ∈ pieces) {page : ℕ}
    (hpage : a.Covers page) : E page := by
  have hmem : a.memoryType ∈ MemMap.typesAt page pieces := mem_typesAt.mpr ⟨a, ha, hpage, rfl⟩
  rw [h.typesAt page] at hmem
  split at hmem
  · assumption
  · cases hmem

theorem snoc {lo cursor next t : ℕ} (h : Splits (fun page => lo ≤ page ∧ page < cursor) type pieces) (hlo : lo ≤ cursor)
    (hle : cursor ≤ next) (hlt : next < 4294967296) (htype : ∀ page, cursor ≤ page → page < next → type page = t) :
    Splits (fun page => lo ≤ page ∧ page < next) type (pieces ++ [⟨t, cursor, sub32 next cursor⟩]) := by
  rw [sub32_of_le hlt hle]
  refine ⟨?_, fun page => ?_, ?_⟩
  · rw [forall_mem_append, forall_mem_singleton]
    refine ⟨h.bounded, ?_⟩
    unfold NtMemEntry.Bounded
    simp only
    omega
  · have hcovers : NtMemEntry.Covers ⟨t, cursor, next - cursor⟩ page ↔ cursor ≤ page ∧ page < next := by
      unfold NtMemEntry.Covers
      simp only
      omega
    rw [typesAt_append, h.typesAt page, typesAt_cons, typesAt_nil, append_nil, if_congr hcovers rfl rfl]
    by_cases hc : page < cursor
    · rw [if_neg (show ¬(cursor ≤ page ∧ page < next) by omega), append_nil]
      exact if_congr (by omega) rfl rfl
    · rw [if_neg (show ¬(lo ≤ page ∧ page < cursor) by omega), nil_append]
      by_cases hn : page < next
      · rw [if_pos (by omega), if_pos (by omega), htype page (by omega) hn]
      · rw [if_neg (by omega), if_neg (by omega)]
  · rw [pairwise_append]
    refine ⟨h.ascending, pairwise_singleton _ _, fun a ha b hb p q hp hq => ?_⟩
    rw [mem_singleton] at hb
    subst hb
    have hp' := h.covers ha hp
    have hq' := hq.1
    simp only at hq'
    omega

end Splits

/-! ### Regions -/

namespace BeRegion

variable (r : BeRegion)

/-- `base_page`. -/
def firstPage : ℕ := u32 (r.base / 4096)

/-- The end of the pages that are computed for the region. -/
def endPage : ℕ := add32 r.firstPage (u32 (r.size / 4096))

/-- The page is one of those that are computed for the region. -/
def Emits (page : ℕ) : Prop := r.type ≠ .reserved ∧ r.firstPage ≤ page ∧ page < r.endPage

instance (r : BeRegion) (page : ℕ) : Decidable (r.Emits page) := inferInstanceAs (Decidable (_ ∧ _))

instance (r : BeRegion) : DecidablePred r.Emits := fun _ => inferInstance

end BeRegion

section Region

variable {cap : ℕ} {registry : List AllocEntry} (hreg : Apart Registers registry)

include hreg

/-- **A region is split** into pieces that give its pages their types. -/
theorem splitByRegistry_eq (base pages coarse : ℕ) (out : List NtMemEntry) :
    ∃ pieces, splitByRegistry cap registry base pages coarse out = .ok (emitAll cap out pieces) ∧
      Splits (fun page => base ≤ page ∧ page < add32 base pages) (typeAt registry coarse) pieces := by
  have hstop := add32_lt base pages
  unfold splitByRegistry
  simp only
  generalize add32 base pages = stop at hstop
  by_cases hempty : stop ≤ base
  · refine ⟨[], ?_, .nil fun page => by omega⟩
    rw [loop, splitBody, if_neg (by omega)]
    rfl
  · -- the pieces so far give the pages below the cursor
    let I : ℕ → ℕ × List NtMemEntry → Prop := fun k s =>
      k = stop - s.1 ∧ base ≤ s.1 ∧ s.1 ≤ stop ∧ ∃ pieces, s.2 = emitAll cap out pieces ∧
        Splits (fun page => base ≤ page ∧ page < s.1) (typeAt registry coarse) pieces
    let Q : Except Fault (List NtMemEntry) → Prop := fun r => ∃ pieces, r = .ok (emitAll cap out pieces) ∧
      Splits (fun page => base ≤ page ∧ page < stop) (typeAt registry coarse) pieces
    refine loop_rule (I := I) (Q := Q) ?_ (k := stop - base) ⟨rfl, le_rfl, by omega, [], rfl, .nil fun page => by omega⟩ (by omega)
    rintro k ⟨cursor, out'⟩ ⟨hk, hlo, hhi, pieces, rfl, hsplits⟩
    simp only at hk hlo hhi hsplits
    unfold splitBody
    refine iterates_ite (fun hlt => ?_) fun hge => ⟨pieces, rfl, hsplits.congr fun page => by omega⟩
    simp only
    generalize hbest : firstOverlap registry cursor stop = best
    have hspec := firstOverlap_spec registry cursor stop
    rw [hbest] at hspec
    obtain ⟨hfound, -, hnone⟩ | ⟨hfound, h₁, h₂, h₃, ⟨e, he, hnt, hcov⟩, hnone⟩ := hspec
    · rw [hfound]
      refine ⟨_, (congrArg Except.ok (emitAll_append out pieces [_]).symm), hsplits.snoc hlo hhi hstop fun page hl hh => ?_⟩
      exact typeAt_of_not_registers fun e he => hnone e he page hl hh
    · rw [hfound]
      have hgap := hsplits.snoc (t := coarse) hlo h₁ (by omega) fun page hl hh =>
        typeAt_of_not_registers fun e he => hnone e he page hl hh
      have hover : ∀ page, best.start ≤ page → page < best.stop → typeAt registry coarse page = best.nt := by
        intro page hl hh
        rw [hnt]
        exact typeAt_of_registers hreg he (hcov page hl hh)
      refine ⟨stop - best.stop, by omega, rfl, by simp only; omega, h₃, ?_⟩
      by_cases hstart : best.start > cursor
      · refine ⟨_, ?_, hgap.snoc (by omega) h₂.le (by omega) hover⟩
        rw [if_pos hstart, emitAll_append, emitAll_append]
        rfl
      · obtain rfl : cursor = best.start := by omega
        refine ⟨_, ?_, hsplits.snoc hlo h₂.le (by omega) hover⟩
        rw [if_neg hstart, emitAll_append]
        rfl

/-- The pieces of a region give the pages that truncation computes for it. -/
theorem regionStep_eq (r : BeRegion) (out : List NtMemEntry) :
    ∃ pieces, regionStep cap registry out r = .ok (emitAll cap out pieces) ∧
      Splits r.Emits (typeAt registry (beMemtypeToNt r.type)) pieces := by
  unfold regionStep
  by_cases hres : r.type = .reserved
  · exact ⟨[], by rw [if_pos hres]; rfl, .nil fun page h => h.1 hres⟩
  · rw [if_neg hres]
    simp only
    by_cases hpages : u32 (r.size / 4096) = 0
    · refine ⟨[], by rw [if_pos hpages]; rfl, .nil fun page h => ?_⟩
      have hlo := h.2.1
      have hhi := h.2.2
      rw [BeRegion.endPage, hpages, add32_of_lt (by unfold BeRegion.firstPage u32; omega)] at hhi
      omega
    · rw [if_neg hpages]
      obtain ⟨pieces, heq, hsplits⟩ := @splitByRegistry_eq cap registry hreg (u32 (r.base / 4096)) (u32 (r.size / 4096))
        (beMemtypeToNt r.type) out
      exact ⟨pieces, heq, hsplits.congr fun page => ⟨fun h => ⟨hres, h⟩, fun h => h.2⟩⟩

theorem foldlM_regionStep (regions : List BeRegion) (out : List NtMemEntry) :
    ∃ pss : List (List NtMemEntry), regions.foldlM (regionStep cap registry) out = .ok (emitAll cap out pss.flatten) ∧
      List.Forall₂ (fun r => Splits r.Emits (typeAt registry (beMemtypeToNt r.type))) regions pss := by
  induction regions generalizing out with
  | nil => exact ⟨[], rfl, .nil⟩
  | cons r regions ih =>
    obtain ⟨pieces, heq, hsplits⟩ := @regionStep_eq cap registry hreg r out
    obtain ⟨pss, heq', hsplits'⟩ := ih (emitAll cap out pieces)
    refine ⟨pieces :: pss, ?_, .cons hsplits hsplits'⟩
    rw [foldlM_cons, heq, ok_bind, heq', flatten_cons, emitAll_append]

end Region

theorem typesAt_flatten
    (h : List.Forall₂ (fun r => Splits r.Emits (typeAt registry (beMemtypeToNt r.type))) regions pss) (page : ℕ) :
    typesAt page pss.flatten =
      (regions.filter (·.Emits page)).map fun r => typeAt registry (beMemtypeToNt r.type) page := by
  induction h with
  | nil => rfl
  | @cons r pieces regions pss hr _ ih =>
    rw [flatten_cons, typesAt_append, hr.typesAt page, ih]
    by_cases hpage : r.Emits page <;> simp [hpage]

theorem exists_of_mem_flatten
    (h : List.Forall₂ (fun r => Splits r.Emits (typeAt registry (beMemtypeToNt r.type))) regions pss) {a : NtMemEntry}
    (ha : a ∈ pss.flatten) : a.Bounded ∧ ∃ r ∈ regions, ∀ page, a.Covers page → r.Emits page := by
  induction h with
  | nil => cases ha
  | @cons r pieces regions pss hr _ ih =>
    rw [flatten_cons, mem_append] at ha
    obtain ha | ha := ha
    · exact ⟨hr.bounded a ha, r, mem_cons_self, fun page => hr.covers ha⟩
    · obtain ⟨hbounded, r', hr', hemits⟩ := ih ha
      exact ⟨hbounded, r', mem_cons_of_mem _ hr', hemits⟩

/-- The pieces are in order if those of each region are, and those of different regions. -/
theorem pairwise_flatten {R : ℕ → ℕ → Prop}
    (h : List.Forall₂ (fun r => Splits r.Emits (typeAt registry (beMemtypeToNt r.type))) regions pss)
    (hlt : ∀ p q, p < q → R p q) (hR : regions.Pairwise fun r r' => ∀ p q, r.Emits p → r'.Emits q → R p q) :
    pss.flatten.Pairwise (Before R) := by
  induction h with
  | nil => exact .nil
  | @cons r pieces regions pss hr hrest ih =>
    rw [pairwise_cons] at hR
    rw [flatten_cons, pairwise_append]
    refine ⟨hr.ascending.imp fun hab p q hp hq => hlt p q (hab p q hp hq), ih hR.2, fun a ha b hb p q hp hq => ?_⟩
    obtain ⟨-, r', hr', hemits⟩ := exists_of_mem_flatten hrest hb
    exact hR.1 r' hr' p q (hr.covers ha hp) (hemits q hq)

/-- **The runs of the map.** -/
theorem memmapToNt_spec (cap : ℕ) (hreg : Apart Registers registry) (regions : List BeRegion) :
    ∃ status runs, memmapToNt cap regions registry = .ok (status, runs) ∧ (runs.length < cap →
      (∀ a ∈ runs, a.Bounded) ∧
      (∀ page, typesAt page runs = (regions.filter (·.Emits page)).map fun r => typeAt registry (beMemtypeToNt r.type) page) ∧
      ∀ R : ℕ → ℕ → Prop, (∀ p q, p < q → R p q) →
        (regions.Pairwise fun r r' => ∀ p q, r.Emits p → r'.Emits q → R p q) → runs.Pairwise (Before R)) := by
  by_cases hcap : cap = 0
  · exact ⟨.invalidParameter, [], by rw [memmapToNt, if_pos hcap]; rfl, by simp [hcap]⟩
  · obtain ⟨pss, heq, hpss⟩ := @foldlM_regionStep cap registry hreg regions []
    have hbounded : ∀ a ∈ pss.flatten, a.Bounded := fun a ha => (exists_of_mem_flatten hpss ha).1
    refine ⟨if regions = [] then .notReady else .success, (emitAll cap [] pss.flatten).reverse, ?_,
      fun hlen => ⟨?_, fun page => ?_, fun R hlt hR => ?_⟩⟩
    · rw [memmapToNt, if_neg hcap]
      by_cases hnil : regions = []
      · rw [if_pos hnil, if_pos hnil]
        subst hnil
        cases hpss
        rfl
      · rw [if_neg hnil, if_neg hnil, heq, ok_bind]
        rfl
    · intro a ha
      exact emitAll_bounded (by simp) hbounded a (mem_reverse.mp ha)
    · rw [typesAt_reverse, typesAt_emitAll (by simp) hbounded (by simpa using hlen), typesAt_nil, append_nil,
        reverse_reverse, typesAt_flatten hpss]
    · rw [pairwise_reverse]
      exact pairwise_emitAll (by simp) hbounded .nil (pairwise_flatten hpss hlt hR) (by simp)

end Nt365.Boot.MemMap
