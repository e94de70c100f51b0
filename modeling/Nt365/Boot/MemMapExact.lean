import Nt365.Boot.MemMapCover

/-!
# When the memory map is an exact typed cover

`ExactCover` is what the map is for. `memmapToNt_cover_iff` says for which regions and registries the map is one: the
regions have to start on a page (`BeRegion.Truncates`), and no entry of the registry that is still marked as free
may cover a page of a region.
-/

namespace Nt365.Boot.MemMap

open Nt365.Library

namespace BeRegion

variable (r : BeRegion)

/-- The page lies entirely inside the region. -/
def Inside (page : ℕ) : Prop := r.base ≤ 4096 * page ∧ 4096 * page + 4096 ≤ r.base + r.size

/-- The byte is one of the region. -/
def Holds (address : ℕ) : Prop := r.base ≤ address ∧ address < r.base + r.size

/-- **The pages are those inside the region**: there are none, or the region starts on a page and ends below the last
32-bit page, or it holds no page and what is computed for it wraps to nothing. -/
def Truncates : Prop :=
  r.size < 4096 ∨ r.base % 4096 = 0 ∧ r.base / 4096 + r.size / 4096 < 4294967296 ∨
    r.base % 4096 ≠ 0 ∧ (r.base + r.size) / 4096 ≤ r.base / 4096 + 1 ∧ r.base / 4096 % 4294967296 = 4294967295

instance (r : BeRegion) : Decidable r.Truncates := inferInstanceAs (Decidable (_ ∨ _ ∨ _))

theorem Inside.holds {r : BeRegion} {page : ℕ} (h : r.Inside page) : r.Holds (4096 * page) := by
  unfold Inside at h
  unfold Holds
  omega

theorem emits_iff_inside {r : BeRegion} (h : r.Truncates) (page : ℕ) : r.Emits page ↔ r.type ≠ .reserved ∧ r.Inside page := by
  unfold Emits Inside endPage firstPage add32 u32
  refine and_congr_right fun _ => ?_
  obtain h | h | h := h
  · omega
  · omega
  · omega

end BeRegion

/-- **An exact typed cover** of the pages inside the regions: the runs lie apart and go up inside each region, they
cover the pages of the regions that are not reserved, and a page has the type of the entry that covers it or else of
its region. -/
structure ExactCover (regions : List BeRegion) (registry : List AllocEntry) (runs : List NtMemEntry) : Prop where
  apart : Apart NtMemEntry.Covers runs
  ascending : runs.Pairwise fun a b => ∀ r ∈ regions, ∀ p q, a.Covers p → b.Covers q → r.Inside p → r.Inside q → p < q
  covered : ∀ page, (∃ run ∈ runs, run.Covers page) ↔ ∃ r ∈ regions, r.type ≠ .reserved ∧ r.Inside page
  registered : ∀ run ∈ runs, ∀ page, run.Covers page → ∀ e ∈ registry, e.Covers page → run.memoryType = kindToNt e.kind
  coarse : ∀ run ∈ runs, ∀ page, run.Covers page → (∀ e ∈ registry, ¬e.Covers page) →
    ∀ r ∈ regions, r.type ≠ .reserved → r.Inside page → run.memoryType = beMemtypeToNt r.type
  free : ∀ run ∈ runs, ∀ page, run.Covers page → run.memoryType = loaderFree →
    (∃ r ∈ regions, r.type = .free ∧ r.Inside page) ∧ ∀ e ∈ registry, ¬e.Covers page

/-- What regions and registry have to satisfy. -/
structure Fits (regions : List BeRegion) (registry : List AllocEntry) : Prop where
  truncates : ∀ r ∈ regions, r.type ≠ .reserved → r.Truncates
  notFree : ∀ r ∈ regions, r.type ≠ .reserved → ∀ e ∈ registry, ∀ page, r.Inside page → e.Covers page → e.kind ≠ .free
  /-- The end of an entry that ends with the last 32-bit page wraps, and its pages keep the types of their regions. -/
  atEnd : ∀ r ∈ regions, r.type ≠ .reserved → ∀ e ∈ registry, ∀ page, r.Inside page → e.Covers page →
    e.phys / 4096 + e.pages = 4294967296 → kindToNt e.kind = beMemtypeToNt r.type

theorem kindToNt_eq_free {kind : PageKind} : kindToNt kind = loaderFree ↔ kind = .free := by
  cases kind <;> decide

/-- An entry registers its pages, unless it ends with the last 32-bit page. -/
theorem registers_iff {e : AllocEntry} (h : e.phys / 4096 + e.pages ≤ 4294967296) (page : ℕ) :
    Registers e page ↔ e.Covers page ∧ e.phys / 4096 + e.pages ≠ 4294967296 := by
  unfold Registers AllocEntry.Covers registryPages u32 add32
  simp only
  omega

section Cover

variable {regions : List BeRegion} {registry : List AllocEntry} {runs : List NtMemEntry} (hregions : Apart BeRegion.Holds regions)
  (hpages : ∀ e ∈ registry, e.phys / 4096 + e.pages ≤ 4294967296) (hregistry : Apart AllocEntry.Covers registry)
  (htypes : ∀ page, typesAt page runs = (regions.filter (·.Emits page)).map fun r => typeAt registry (beMemtypeToNt r.type) page)

include htypes in
/-- A page is covered if a region gives it, with the type that the region gives it. -/
theorem covers_iff {page type : ℕ} : (∃ run ∈ runs, run.Covers page ∧ run.memoryType = type) ↔
    ∃ r ∈ regions, r.Emits page ∧ typeAt registry (beMemtypeToNt r.type) page = type := by
  rw [← mem_typesAt, htypes]
  simp only [List.mem_map, List.mem_filter, decide_eq_true_eq, and_assoc]

include htypes in
theorem apart_iff : Apart NtMemEntry.Covers runs ↔ Apart BeRegion.Emits regions := by
  rw [apart_iff_length_filter, apart_iff_length_filter]
  refine forall_congr' fun page => ?_
  have hlen := congrArg List.length (htypes page)
  rw [typesAt, List.length_map, List.length_map] at hlen
  rw [hlen]

include hpages in
theorem typeAt_of_covers (hregistry : Apart AllocEntry.Covers registry) {e : AllocEntry} (he : e ∈ registry) {page coarse : ℕ}
    (h : e.Covers page) (hend : e.phys / 4096 + e.pages = 4294967296 → kindToNt e.kind = coarse) :
    typeAt registry coarse page = kindToNt e.kind := by
  have hapart : Apart Registers registry := hregistry.mono id fun a ha x hx => ((registers_iff (hpages a ha) x).mp hx).1
  by_cases hlast : e.phys / 4096 + e.pages = 4294967296
  · rw [hend hlast]
    refine typeAt_of_not_registers fun e' he' hreg => ?_
    obtain ⟨hcov, hne⟩ := (registers_iff (hpages e' he') page).mp hreg
    rw [hregistry.eq he' he hcov h] at hne
    exact hne hlast
  · exact typeAt_of_registers hapart he ((registers_iff (hpages e he) page).mpr ⟨h, hlast⟩)

include hpages in
theorem typeAt_of_not_covers {page coarse : ℕ} (h : ∀ e ∈ registry, ¬e.Covers page) : typeAt registry coarse page = coarse :=
  typeAt_of_not_registers fun e he hreg => h e he ((registers_iff (hpages e he) page).mp hreg).1

include hregions hpages hregistry htypes in
/-- **Regions and a registry that fit** are covered exactly. -/
theorem Fits.exactCover (h : Fits regions registry)
    (hordered : ∀ R : ℕ → ℕ → Prop, (∀ p q, p < q → R p q) →
      (regions.Pairwise fun r r' => ∀ p q, r.Emits p → r'.Emits q → R p q) → runs.Pairwise (Before R)) :
    ExactCover regions registry runs := by
  have hemits : ∀ r ∈ regions, ∀ page, r.Emits page ↔ r.type ≠ .reserved ∧ r.Inside page := by
    intro r hr page
    by_cases hres : r.type = .reserved
    · exact ⟨fun hp => absurd hres hp.1, fun hp => absurd hres hp.1⟩
    · exact BeRegion.emits_iff_inside (h.truncates r hr hres) page
  have hone : ∀ r ∈ regions, ∀ r' ∈ regions, ∀ page, r.Inside page → r'.Inside page → r = r' :=
    fun r hr r' hr' page hp hp' => hregions.eq hr hr' hp.holds hp'.holds
  -- a run has the type that its page gets from the page's region
  have htype : ∀ run ∈ runs, ∀ page, run.Covers page → ∃ r ∈ regions, r.type ≠ .reserved ∧ r.Inside page ∧
      run.memoryType = typeAt registry (beMemtypeToNt r.type) page := by
    intro run hrun page hp
    obtain ⟨r, hr, hemit, heq⟩ := (covers_iff htypes).mp ⟨run, hrun, hp, rfl⟩
    obtain ⟨hres, hin⟩ := (hemits r hr page).mp hemit
    exact ⟨r, hr, hres, hin, heq.symm⟩
  have hreg : ∀ run ∈ runs, ∀ page, run.Covers page → ∀ e ∈ registry, e.Covers page → run.memoryType = kindToNt e.kind := by
    intro run hrun page hp e he hcov
    obtain ⟨r, hr, hres, hin, heq⟩ := htype run hrun page hp
    rw [heq, typeAt_of_covers hpages hregistry he hcov (h.atEnd r hr hres e he page hin hcov)]
  refine ⟨?_, ?_, fun page => ?_, hreg, ?_, ?_⟩
  · rw [apart_iff htypes]
    exact hregions.mono (4096 * ·) fun r hr page hp => ((hemits r hr page).mp hp).2.holds
  · refine (hordered (fun p q => ∀ r ∈ regions, r.Inside p → r.Inside q → p < q) (fun p q hlt _ _ _ _ => hlt) ?_).imp
      fun hab r hr p q hp hq => hab p q hp hq r hr
    refine List.Pairwise.imp_of_mem (fun {r₁ r₂} h₁ h₂ hab p q hp hq r hr hrp hrq => ?_) hregions
    -- both pages are in one region, and the two regions are apart
    obtain rfl := hone r₁ h₁ r hr p ((hemits r₁ h₁ p).mp hp).2 hrp
    exact absurd ((hemits r₂ h₂ q).mp hq).2.holds (hab _ hrq.holds)
  · constructor
    · rintro ⟨run, hrun, hp⟩
      obtain ⟨r, hr, hres, hin, -⟩ := htype run hrun page hp
      exact ⟨r, hr, hres, hin⟩
    · rintro ⟨r, hr, hres, hin⟩
      obtain ⟨run, hrun, hp, -⟩ := (covers_iff htypes).mpr ⟨r, hr, (hemits r hr page).mpr ⟨hres, hin⟩, rfl⟩
      exact ⟨run, hrun, hp⟩
  · intro run hrun page hp hnone r hr hres hin
    obtain ⟨r', hr', -, hin', heq⟩ := htype run hrun page hp
    rw [heq, typeAt_of_not_covers hpages hnone, hone r hr r' hr' page hin hin']
  · intro run hrun page hp hfree
    obtain ⟨r, hr, hres, hin, heq⟩ := htype run hrun page hp
    have hnone : ∀ e ∈ registry, ¬e.Covers page := by
      intro e he hcov
      rw [hreg run hrun page hp e he hcov, kindToNt_eq_free] at hfree
      exact h.notFree r hr hres e he page hin hcov hfree
    refine ⟨⟨r, hr, ?_, hin⟩, hnone⟩
    rw [heq, typeAt_of_not_covers hpages hnone] at hfree
    cases ht : r.type with
    | free => rfl
    | _ =>
      rw [ht] at hfree
      exact absurd hfree (by decide)

include hregions htypes in
/-- Only regions that are truncated to their pages are covered exactly. -/
theorem ExactCover.truncates (h : ExactCover regions registry runs) (hbounded : ∀ a ∈ runs, a.Bounded) {r : BeRegion}
    (hr : r ∈ regions) (hres : r.type ≠ .reserved) : r.Truncates := by
  have hinside : ∀ r ∈ regions, ∀ page, r.Emits page → ∃ r' ∈ regions, r'.type ≠ .reserved ∧ r'.Inside page := by
    intro r hr page hemit
    obtain ⟨run, hrun, hp, -⟩ := (covers_iff htypes).mpr ⟨r, hr, hemit, rfl⟩
    exact (h.covered page).mp ⟨run, hrun, hp⟩
  have hsmall : ∀ r ∈ regions, r.type ≠ .reserved → ∀ page, r.Inside page → page < 4294967295 := by
    intro r hr hres page hin
    obtain ⟨run, hrun, hp⟩ := (h.covered page).mpr ⟨r, hr, hres, hin⟩
    have hb := hbounded run hrun
    unfold NtMemEntry.Bounded at hb
    unfold NtMemEntry.Covers at hp
    omega
  -- a region below the last 32-bit page starts on a page
  have haligned : ∀ r ∈ regions, r.type ≠ .reserved → 4096 ≤ r.size → r.base / 4096 + r.size / 4096 < 4294967296 →
    r.base % 4096 = 0 := by
    intro r hr hres hsize hlt
    have hemit : r.Emits (r.base / 4096) := by
      refine ⟨hres, ?_⟩
      unfold BeRegion.endPage BeRegion.firstPage add32 u32
      omega
    obtain ⟨r', hr', -, hin⟩ := hinside r hr _ hemit
    have hholds : r.Holds r.base := by
      unfold BeRegion.Holds
      omega
    have hholds' : r'.Holds r.base := by
      unfold BeRegion.Inside at hin
      unfold BeRegion.Holds
      omega
    obtain rfl := hregions.eq hr' hr hholds' hholds
    unfold BeRegion.Inside at hin
    omega
  by_cases hsize : r.size < 4096
  · exact .inl hsize
  by_cases hlt : r.base / 4096 + r.size / 4096 < 4294967296
  · exact .inr (.inl ⟨haligned r hr hres (by omega) hlt, hlt⟩)
  -- its last page would be too high, so that it holds none
  have hlast : ∀ r ∈ regions, r.type ≠ .reserved → 4294967296 ≤ r.base / 4096 + r.size / 4096 →
      ¬r.Inside ((r.base + r.size) / 4096 - 1) := by
    intro r hr hres hge hin
    have := hsmall r hr hres _ hin
    omega
  have hnone := hlast r hr hres (by omega)
  unfold BeRegion.Inside at hnone
  refine .inr (.inr ⟨by omega, by omega, ?_⟩)
  by_contra hwrap
  -- what is computed for it is a page of another region
  have hemit : r.Emits (r.base / 4096 % 4294967296) := by
    refine ⟨hres, ?_⟩
    unfold BeRegion.endPage BeRegion.firstPage add32 u32
    omega
  obtain ⟨r', hr', hres', hin⟩ := hinside r hr _ hemit
  have hlt' : r'.base / 4096 + r'.size / 4096 < 4294967296 := by
    by_contra hge
    refine hlast r' hr' hres' (by omega) ?_
    unfold BeRegion.Inside at hin ⊢
    omega
  have htrunc : r'.Truncates := by
    by_cases hsize' : r'.size < 4096
    · exact .inl hsize'
    · exact .inr (.inl ⟨haligned r' hr' hres' (by omega) hlt', hlt'⟩)
  have hemit' := (BeRegion.emits_iff_inside htrunc _).mpr ⟨hres', hin⟩
  obtain rfl := ((apart_iff htypes).mp h.apart).eq hr' hr hemit' hemit
  omega

include hregions hpages hregistry htypes in
/-- **Only regions and a registry that fit** are covered exactly. -/
theorem ExactCover.fits (h : ExactCover regions registry runs) (hbounded : ∀ a ∈ runs, a.Bounded) : Fits regions registry := by
  have htrunc : ∀ r ∈ regions, r.type ≠ .reserved → r.Truncates := fun r hr hres => h.truncates hregions htypes hbounded hr hres
  refine ⟨htrunc, ?_, ?_⟩
  · intro r hr hres e he page hin hcov hkind
    obtain ⟨run, hrun, hp⟩ := (h.covered page).mpr ⟨r, hr, hres, hin⟩
    have htype := h.registered run hrun page hp e he hcov
    rw [kindToNt_eq_free.mpr hkind] at htype
    exact (h.free run hrun page hp htype).2 e he hcov
  · intro r hr hres e he page hin hcov hlast
    have hemit := (BeRegion.emits_iff_inside (htrunc r hr hres) page).mpr ⟨hres, hin⟩
    obtain ⟨run, hrun, hp, htype⟩ := (covers_iff htypes).mpr ⟨r, hr, hemit, rfl⟩
    rw [← h.registered run hrun page hp e he hcov, htype]
    refine typeAt_of_not_registers fun e' he' hreg => ?_
    obtain ⟨hcov', hne⟩ := (registers_iff (hpages e' he') page).mp hreg
    rw [hregistry.eq he' he hcov' hcov] at hne
    exact hne hlast

end Cover

/-- **The memory map is an exact typed cover** if and only if the regions and the registry fit. -/
theorem memmapToNt_cover_iff (cap : ℕ) {regions : List BeRegion} {registry : List AllocEntry}
    (hregions : Apart BeRegion.Holds regions) (hpages : ∀ e ∈ registry, e.phys / 4096 + e.pages ≤ 4294967296)
    (hregistry : Apart AllocEntry.Covers registry) :
    ∃ status runs, memmapToNt cap regions registry = .ok (status, runs) ∧
      (runs.length < cap → (ExactCover regions registry runs ↔ Fits regions registry)) := by
  have hapart : Apart Registers registry := hregistry.mono id fun a ha x hx => ((registers_iff (hpages a ha) x).mp hx).1
  obtain ⟨status, runs, heq, hspec⟩ := memmapToNt_spec cap hapart regions
  refine ⟨status, runs, heq, fun hcap => ?_⟩
  obtain ⟨hbounded, htypes, hordered⟩ := hspec hcap
  exact ⟨fun h => h.fits hregions hpages hregistry htypes hbounded,
    fun h => h.exactCover hregions hpages hregistry htypes hordered⟩

/-- Low memory, memory with a kernel in it, and firmware tables. -/
theorem memmapToNt_cover_iff_kernel : ∃ status runs,
    memmapToNt 64 [⟨0, 0x9f000, .free⟩, ⟨0x9f000, 0x1000, .reserved⟩, ⟨0x100000, 0x7ee0000, .free⟩,
      ⟨0x7fe0000, 0x20000, .firmware⟩]
      [⟨0x100000, 16, .kernelImage, false⟩] = .ok (status, runs) ∧
    (runs.length < 64 →
      (ExactCover [⟨0, 0x9f000, .free⟩, ⟨0x9f000, 0x1000, .reserved⟩, ⟨0x100000, 0x7ee0000, .free⟩,
        ⟨0x7fe0000, 0x20000, .firmware⟩]
        [⟨0x100000, 16, .kernelImage, false⟩] runs ↔
      Fits [⟨0, 0x9f000, .free⟩, ⟨0x9f000, 0x1000, .reserved⟩, ⟨0x100000, 0x7ee0000, .free⟩, ⟨0x7fe0000, 0x20000, .firmware⟩]
        [⟨0x100000, 16, .kernelImage, false⟩])) := by
  refine memmapToNt_cover_iff 64 ?_ (by decide) (List.pairwise_singleton _ _)
  simp only [Apart, BeRegion.Holds, List.pairwise_cons, List.mem_cons, forall_eq_or_imp, List.not_mem_nil, false_imp_iff,
    List.Pairwise.nil, and_true]
  refine ⟨⟨?_, ?_, ?_, fun _ => trivial⟩, ⟨?_, ?_, fun _ => trivial⟩, ⟨?_, fun _ => trivial⟩, fun _ => trivial⟩
  all_goals
    intro x h h'
    omega

/-- Free memory from `0x1800` on: page `1` is given to the kernel although half of it is not in the region. -/
theorem memmapToNt_partialPage :
    memmapToNt 64 [⟨0x1800, 0x2000, .free⟩] [] = .ok (.success, [⟨loaderFree, 1, 2⟩]) ∧
      ¬BeRegion.Inside ⟨0x1800, 0x2000, .free⟩ 1 ∧ ¬ExactCover [⟨0x1800, 0x2000, .free⟩] [] [⟨loaderFree, 1, 2⟩] := by
  have hout : ¬BeRegion.Inside ⟨0x1800, 0x2000, .free⟩ 1 := by
    unfold BeRegion.Inside
    decide
  refine ⟨by decide +kernel, hout, fun h => ?_⟩
  obtain ⟨r, hr, -, hin⟩ := (h.covered 1).mp ⟨⟨loaderFree, 1, 2⟩, List.mem_singleton_self _, by decide⟩
  rw [List.mem_singleton] at hr
  subst hr
  exact hout hin

end Nt365.Boot.MemMap
