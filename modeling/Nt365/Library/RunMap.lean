import Mathlib.Data.List.Basic
import Mathlib.Tactic.SplitIfs

/-!
# Partial maps kept as lists of runs

A partial map from `ℕ` to `ℕ` that is piecewise consecutive can be kept as a list of
*runs* laid end to end: each run says where it stops, and either the value of its
first key (the following keys map to the following values) or that it is a hole.
Where a run starts is where the run before it stops, so the meaning of an entry
depends on its neighbours.

`lookup` is the partial map a list of runs stands for. `Tight` says that the list is
in canonical form: no run is empty, no two holes are adjacent, no two adjacent runs
could be one, and the last run is not a hole. The position between two runs is an
`Edge`: the key reached, and what lies before it.
-/

namespace Nt365.Library

open List

/-! ### Partial maps -/

namespace PMap

variable (f : ℕ → Option ℕ)

/-- Replace what the keys of `[lo, hi)` map to by `c`. -/
def on (lo hi : ℕ) (c : ℕ → Option ℕ) : ℕ → Option ℕ := fun v => if lo ≤ v ∧ v < hi then c v else f v

/-- Map the `n` keys from `k` on to the values from `x` on. -/
def assign (k x n : ℕ) : ℕ → Option ℕ := on f k (k + n) fun v => some (x + (v - k))

/-- Unmap the keys of `[lo, hi)`. -/
def clear (lo hi : ℕ) : ℕ → Option ℕ := on f lo hi fun _ => none

/-- Unmap every key from `k` on. -/
def cut (k : ℕ) : ℕ → Option ℕ := fun v => if k ≤ v then none else f v

/-- Open a gap of `n` unmapped keys at `k`: the keys from `k` on move up by `n`. -/
def gap (k n : ℕ) : ℕ → Option ℕ := fun v => if v < k then f v else if v < k + n then none else f (v - n)

theorem clear_self (lo : ℕ) : clear f lo lo = f := by
  funext v
  exact if_neg (by omega)

/-- Unmapping two ranges laid end to end is unmapping the whole. -/
theorem clear_clear {lo mid hi : ℕ} (h₁ : lo ≤ mid) (h₂ : mid ≤ hi) : clear (clear f lo mid) mid hi = clear f lo hi := by
  funext v
  simp only [clear, on]
  split_ifs <;> first | rfl | omega

end PMap

/-! ### Runs -/

/-- A run: the key it stops before, and the value of its first key (`none` for a hole). -/
structure Run where
  /-- The first key after the run. -/
  stop : ℕ
  /-- The value of the first key. -/
  base : Option ℕ
  deriving DecidableEq

/-- What key `v` maps to in a run that starts at `s`. -/
def Run.value (r : Run) (s v : ℕ) : Option ℕ := r.base.map (· + (v - s))

/-- **The partial map** of a list of runs, the first of which starts at `s`. -/
def lookup : ℕ → List Run → ℕ → Option ℕ
  | _, [], _ => none
  | s, r :: rs, v => if v < r.stop then r.value s v else lookup r.stop rs v

/-- What lies before an edge: nothing, a hole, or a run that value `next` would continue. -/
inductive Before where
  /-- The start of the list. -/
  | start
  /-- A hole. -/
  | hole
  /-- A run whose next value would be `next`. -/
  | run (next : ℕ)
  deriving DecidableEq

/-- A position between two runs. -/
structure Edge where
  /-- The key reached. -/
  key : ℕ
  /-- What lies before. -/
  before : Before

/-- The edge at the start of a list of runs. -/
def Edge.start : Edge := ⟨0, .start⟩

variable (e : Edge)

/-- The edge after run `r`. -/
def Edge.next (r : Run) : Edge :=
  ⟨r.stop, match r.base with | none => .hole | some b => .run (b + (r.stop - e.key))⟩

/-- The edge after the runs `rs`. -/
def Edge.over (rs : List Run) : Edge := rs.foldl Edge.next e

@[simp] theorem Edge.over_nil : e.over [] = e := rfl

@[simp] theorem Edge.over_cons (r : Run) (rs : List Run) : e.over (r :: rs) = (e.next r).over rs := rfl

@[simp] theorem Edge.over_append (xs ys : List Run) : e.over (xs ++ ys) = (e.over xs).over ys :=
  foldl_append ..

@[simp] theorem Edge.next_key (r : Run) : (e.next r).key = r.stop := rfl

/-- The edge after a run depends on the edge before it by its key only. -/
theorem Edge.next_congr {e e' : Edge} (h : e.key = e'.key) (r : Run) : e.next r = e'.next r := by
  simp only [Edge.next, h]

/-- A run in canonical position after an edge: not empty, and not one with what lies
before. The bounds `K` and `V` are on its keys and its values. -/
def Edge.Admits (K V : ℕ) (e : Edge) (r : Run) : Prop :=
  e.key < r.stop ∧ r.stop ≤ K ∧
    match r.base with
    | none => e.before ≠ .hole
    | some b => 1 ≤ b ∧ b + (r.stop - e.key) ≤ V ∧ e.before ≠ .run b

/-- Every run is in canonical position after the ones before it. -/
def Seg (K V : ℕ) : Edge → List Run → Prop
  | _, [] => True
  | e, r :: rs => e.Admits K V r ∧ Seg K V (e.next r) rs

/-- **Canonical form**: every run is in canonical position, and the last is not a hole. -/
def Tight (K V : ℕ) (rs : List Run) : Prop := Seg K V .start rs ∧ (Edge.start.over rs).before ≠ .hole

section

variable {K V v : ℕ} {e e' : Edge} {xs ys rs : List Run}

theorem seg_append : Seg K V e (xs ++ ys) ↔ Seg K V e xs ∧ Seg K V (e.over xs) ys := by
  induction xs generalizing e with
  | nil => simp [Seg]
  | cons r xs ih => simp only [cons_append, Seg, ih, Edge.over_cons, and_assoc]

/-- A nonempty list of runs ends at an edge that depends on the edge before it by its key only. -/
theorem Edge.over_congr (hk : e.key = e'.key) (hr : rs ≠ []) : e.over rs = e'.over rs := by
  cases rs with
  | nil => exact absurd rfl hr
  | cons r rs => rw [Edge.over_cons, Edge.over_cons, Edge.next_congr hk]

theorem Seg.key_le (h : Seg K V e rs) : e.key ≤ (e.over rs).key := by
  induction rs generalizing e with
  | nil => exact Nat.le_refl _
  | cons r rs ih => exact Nat.le_trans (Nat.le_of_lt h.1.1) (ih h.2)

theorem Seg.key_le_bound (h : Seg K V e rs) (hk : e.key ≤ K) : (e.over rs).key ≤ K := by
  induction rs generalizing e with
  | nil => exact hk
  | cons r rs ih => exact ih h.2 h.1.2.1

theorem lookup_append_of_le (h : ∀ r ∈ xs, r.stop ≤ v) : lookup e.key (xs ++ ys) v = lookup (e.over xs).key ys v := by
  induction xs generalizing e with
  | nil => rfl
  | cons r xs ih =>
    have hr := h r mem_cons_self
    rw [cons_append, lookup, if_neg (by omega)]
    exact ih (e := e.next r) fun r' hr' => h r' (mem_cons_of_mem _ hr')

theorem lookup_append_of_lt {s : ℕ} (h : ∃ r ∈ xs, v < r.stop) : lookup s (xs ++ ys) v = lookup s xs v := by
  induction xs generalizing s with
  | nil =>
    obtain ⟨r, hr, -⟩ := h
    cases hr
  | cons x xs ih =>
    rw [cons_append, lookup, lookup]
    split
    · rfl
    · obtain ⟨r, hr, hv⟩ := h
      cases hr with
      | head => exact absurd hv ‹_›
      | tail _ hr => exact ih ⟨r, hr, hv⟩

theorem Seg.lookup_of_le (h : Seg K V e rs) (hv : (e.over rs).key ≤ v) : lookup e.key rs v = none := by
  induction rs generalizing e with
  | nil => rfl
  | cons r rs ih =>
    have hle : r.stop ≤ v := Nat.le_trans h.2.key_le hv
    rw [lookup, if_neg (by omega)]
    exact ih h.2 hv

theorem Seg.lookup_append (h : Seg K V e xs) (ys : List Run) (hv : e.key ≤ v) :
    lookup e.key (xs ++ ys) v = if v < (e.over xs).key then lookup e.key xs v else lookup (e.over xs).key ys v := by
  induction xs generalizing e with
  | nil => rw [nil_append, Edge.over_nil, if_neg (by omega)]
  | cons r xs ih =>
    rw [cons_append, lookup]
    by_cases hr : v < r.stop
    · have hle : r.stop ≤ (e.over (r :: xs)).key := h.2.key_le
      rw [if_pos hr, if_pos (by omega), lookup, if_pos hr]
    · rw [if_neg hr, lookup, if_neg hr]
      exact ih h.2 (Nat.le_of_not_lt hr)

/-- What follows an edge may follow it: the next run is in canonical position there, and
there is a next run after a hole. -/
def Edge.Joins (K V : ℕ) (e : Edge) (rs : List Run) : Prop :=
  match rs with
  | [] => e.before ≠ .hole
  | r :: _ => e.Admits K V r

/-- A canonical list, at any place in it. -/
theorem tight_append :
    Tight K V (xs ++ ys) ↔
      Seg K V .start xs ∧ Seg K V (Edge.start.over xs) ys ∧ ((Edge.start.over xs).over ys).before ≠ .hole := by
  rw [Tight, seg_append, Edge.over_append, and_assoc]

theorem joins_of_seg (h : Seg K V e rs) (hl : (e.over rs).before ≠ .hole) : e.Joins K V rs := by
  cases rs with
  | nil => exact hl
  | cons r rs => exact h.1

/-- Runs follow another edge at the same key, if the next of them joins it. -/
theorem Edge.Joins.seg (hj : e.Joins K V rs) (hk : e.key = e'.key) (h : Seg K V e' rs) (hl : (e'.over rs).before ≠ .hole) :
    Seg K V e rs ∧ (e.over rs).before ≠ .hole := by
  cases rs with
  | nil => exact ⟨trivial, hj⟩
  | cons r rs =>
    refine ⟨⟨hj, ?_⟩, ?_⟩
    · rw [Edge.next_congr hk]
      exact h.2
    · rw [Edge.over_congr hk (cons_ne_nil r rs)]
      exact hl

/-! ### Editing -/

/-- **The left of an edit** of `f` from `lo` on: with a run of base `b` after them, these runs are in canonical position and
map the keys below `lo` as `f` does. -/
structure Leads (K V : ℕ) (f : ℕ → Option ℕ) (lo : ℕ) (xs : List Run) (b : Option ℕ) : Prop where
  seg : Seg K V .start xs
  key_le : (Edge.start.over xs).key ≤ lo
  fits : match b with
    | none => (Edge.start.over xs).before ≠ .hole
    | some b => 1 ≤ b ∧ (Edge.start.over xs).before ≠ .run b
  same : ∀ v < lo, (if v < (Edge.start.over xs).key then lookup 0 xs v else b.map (· + (v - (Edge.start.over xs).key))) = f v

/-- **The right of an edit** of `f` up to `hi` by `c`: after a run that stops at `stop`, these runs are in canonical
position and map the keys from `hi` on as `f` does. -/
structure Trails (K V : ℕ) (f : ℕ → Option ℕ) (hi : ℕ) (c : ℕ → Option ℕ) (stop : ℕ) (after : Before) (ys : List Run) : Prop where
  hi_le : hi ≤ stop
  stop_le : stop ≤ K
  seg : Seg K V ⟨stop, after⟩ ys
  last : ((Edge.mk stop after).over ys).before ≠ .hole
  same : ∀ v, hi ≤ v → (if v < stop then c v else lookup stop ys v) = f v

variable {f c : ℕ → Option ℕ} {lo hi stop : ℕ} {b : Option ℕ} {after : Before}

/-- **Editing**: one run between a left and a right. -/
theorem Leads.edit (hl : Leads K V f lo xs b) (hr : Trails K V f hi c stop after ys) (hlt : lo < stop)
    (hV : ∀ x ∈ b, x + (stop - (Edge.start.over xs).key) ≤ V) (hafter : ((Edge.start.over xs).next ⟨stop, b⟩).before = after)
    (hc : ∀ v, lo ≤ v → b.map (· + (v - (Edge.start.over xs).key)) = c v) :
    Tight K V (xs ++ ⟨stop, b⟩ :: ys) ∧ lookup 0 (xs ++ ⟨stop, b⟩ :: ys) = PMap.on f lo hi c := by
  have hkey := hl.key_le
  have hedge : (Edge.start.over xs).next ⟨stop, b⟩ = ⟨stop, after⟩ := by rw [← hafter]; rfl
  refine ⟨tight_append.mpr ⟨hl.seg, ⟨⟨by dsimp only; omega, hr.stop_le, ?_⟩, hedge ▸ hr.seg⟩, ?_⟩, funext fun v => ?_⟩
  · have hfits := hl.fits
    cases b with
    | none => exact hfits
    | some x => exact ⟨hfits.1, hV x rfl, hfits.2⟩
  · rw [Edge.over_cons, hedge]
    exact hr.last
  · have hle := hr.hi_le
    have happ := hl.seg.lookup_append (⟨stop, b⟩ :: ys) (Nat.zero_le v)
    rw [lookup] at happ
    refine happ.trans ?_
    dsimp only [Run.value]
    rw [PMap.on]
    by_cases hv : v < lo
    · rw [if_neg (show ¬(lo ≤ v ∧ v < hi) by omega), ← hl.same v hv, if_pos (show v < stop by omega)]
      rfl
    · rw [if_neg (show ¬v < (Edge.start.over xs).key by omega), hc v (by omega)]
      split_ifs with h₁ h₂ h₂
      · rfl
      · rw [← hr.same v (by omega), if_pos h₁]
      · omega
      · rw [← hr.same v (by omega), if_neg h₁]

theorem Leads.ends (hl : Leads K V f lo xs none) (hend : ∀ v, hi ≤ v → f v = none) :
    Tight K V xs ∧ lookup 0 xs = PMap.on f lo hi fun _ => none := by
  refine ⟨⟨hl.seg, hl.fits⟩, funext fun v => ?_⟩
  have hpast : (Edge.start.over xs).key ≤ v → lookup 0 xs v = none := fun hv => hl.seg.lookup_of_le hv
  have hkey := hl.key_le
  rw [PMap.on]
  by_cases hv : v < lo
  · rw [if_neg (by omega), ← hl.same v hv]
    split_ifs with hlt
    · rfl
    · exact hpast (by omega)
  · rw [hpast (by omega)]
    split_ifs with hin
    · rfl
    · exact (hend v (by omega)).symm

theorem Leads.mono {lo' : ℕ} (h : Leads K V f lo xs b) (hle : lo' ≤ lo) (hkey : (Edge.start.over xs).key ≤ lo') :
    Leads K V f lo' xs b :=
  ⟨h.seg, hkey, h.fits, fun v hv => h.same v (by omega)⟩

theorem Trails.mono {hi' : ℕ} (h : Trails K V f hi c stop after ys) (hle : hi ≤ hi') (hstop : hi' ≤ stop) :
    Trails K V f hi' c stop after ys :=
  ⟨hstop, h.stop_le, h.seg, h.last, fun v hv => h.same v (by omega)⟩

/-- A list of nonempty runs is no longer than the key it reaches. -/
theorem Seg.length_le (h : Seg K V e rs) : e.key + rs.length ≤ (e.over rs).key := by
  induction rs generalizing e with
  | nil => simp
  | cons r rs ih =>
    have hr := h.1.1
    have hrs := ih h.2
    rw [length_cons, Edge.over_cons]
    rw [Edge.next_key] at hrs
    omega

/-! ### One list of runs for each partial map -/

/-- The first run of a canonical list is as long as it can be: the map does not go on after it as it would have to. -/
theorem Seg.lookup_stop_ne {r : Run} (h : Seg K V e (r :: rs)) (hl : (e.over (r :: rs)).before ≠ .hole) :
    lookup e.key (r :: rs) r.stop ≠ r.value e.key r.stop := by
  rw [lookup, if_neg (Nat.lt_irrefl _)]
  intro heq
  obtain ⟨stop, base⟩ := r
  cases rs with
  | nil =>
    cases base with
    | none => exact hl rfl
    | some b => cases heq
  | cons q rs =>
    obtain ⟨qlt, -, qbefore⟩ := h.2.1
    rw [lookup, if_pos (show stop < q.stop from qlt), Run.value, Run.value, Nat.sub_self] at heq
    obtain ⟨qstop, qbase⟩ := q
    cases base with
    | none =>
      cases qbase with
      | none => exact qbefore rfl
      | some c => cases heq
    | some b =>
      cases qbase with
      | none => cases heq
      | some c =>
        obtain rfl : c = b + (stop - e.key) := Option.some.inj heq
        exact qbefore.2.2 rfl

theorem Seg.exists_lookup_ne_none {r : Run} (h : Seg K V e (r :: rs))
    (hl : (e.over (r :: rs)).before ≠ .hole) : ∃ v, e.key ≤ v ∧ lookup e.key (r :: rs) v ≠ none := by
  cases hbase : r.base with
  | none =>
    refine ⟨r.stop, Nat.le_of_lt h.1.1, ?_⟩
    have hne := h.lookup_stop_ne hl
    rwa [Run.value, hbase] at hne
  | some b =>
    refine ⟨e.key, Nat.le_refl _, ?_⟩
    rw [lookup, if_pos h.1.1, Run.value, hbase]
    exact Option.some_ne_none _

/-- **Canonical lists of the same partial map are equal.** -/
theorem Seg.eq_of_lookup_eq {rs' : List Run} (h : Seg K V e rs) (h' : Seg K V e' rs')
    (hl : rs ≠ [] → (e.over rs).before ≠ .hole) (hl' : rs' ≠ [] → (e'.over rs').before ≠ .hole) (hk : e.key = e'.key)
    (heq : ∀ v, e.key ≤ v → lookup e.key rs v = lookup e'.key rs' v) : rs = rs' := by
  induction rs generalizing e e' rs' with
  | nil =>
    cases rs' with
    | nil => rfl
    | cons r' rs' =>
      obtain ⟨v, hv, hsome⟩ := h'.exists_lookup_ne_none (hl' (cons_ne_nil _ _))
      exact absurd (heq v (hk ▸ hv)).symm hsome
  | cons r rs ih =>
    have hlast := hl (cons_ne_nil _ _)
    cases rs' with
    | nil =>
      obtain ⟨v, hv, hsome⟩ := h.exists_lookup_ne_none hlast
      exact absurd (heq v hv) hsome
    | cons r' rs' =>
      have hlast' := hl' (cons_ne_nil _ _)
      have hlt := h.1.1
      have hlt' := h'.1.1
      have hbase : r.base = r'.base := by
        have hfirst := heq e.key (Nat.le_refl _)
        rw [lookup, lookup, if_pos hlt, if_pos (hk ▸ hlt'), Run.value, Run.value, hk, Nat.sub_self] at hfirst
        simpa using hfirst
      have hvalue : ∀ v, r.value e.key v = r'.value e'.key v := fun v => by rw [Run.value, Run.value, hbase, hk]
      -- neither run stops before the other: the map goes on with the one and not with the other
      have hstop : r.stop = r'.stop := by
        rcases Nat.lt_trichotomy r.stop r'.stop with hstop | hstop | hstop
        · refine absurd ?_ (h.lookup_stop_ne hlast)
          rw [heq r.stop (Nat.le_of_lt hlt), lookup, if_pos hstop, hvalue]
        · exact hstop
        · refine absurd ?_ (h'.lookup_stop_ne hlast')
          rw [← heq r'.stop (by omega), lookup, if_pos hstop, hvalue]
      obtain rfl : r = r' := by
        obtain ⟨_, _⟩ := r
        obtain ⟨_, _⟩ := r'
        simp_all
      have htail : rs = rs' := by
        refine ih h.2 h'.2 (fun _ => hlast) (fun _ => hlast') rfl fun v hv => ?_
        have hv' : r.stop ≤ v := hv
        have hrest := heq v (by omega)
        rw [lookup, lookup, if_neg (by omega), if_neg (by omega)] at hrest
        exact hrest
      rw [htail]

/-- A partial map has one canonical list of runs. -/
theorem Tight.eq_of_lookup_eq {rs' : List Run} (h : Tight K V rs) (h' : Tight K V rs') (heq : lookup 0 rs = lookup 0 rs') :
    rs = rs' :=
  h.1.eq_of_lookup_eq h'.1 (fun _ => h.2) (fun _ => h'.2) rfl fun v _ => congrFun heq v

/-! ### Shifting runs -/

variable (a : ℕ)

/-- The runs `rs` moved up by `a` keys. -/
def shift (rs : List Run) : List Run := rs.map fun r => { r with stop := r.stop + a }

/-- An edge moved up by `a` keys. -/
def Edge.shift (e : Edge) : Edge := { e with key := e.key + a }

theorem Edge.next_shift (e : Edge) (r : Run) : (e.shift a).next { r with stop := r.stop + a } = (e.next r).shift a := by
  simp only [Edge.next, Edge.shift, Nat.add_sub_add_right]

theorem Edge.over_shift (e : Edge) (rs : List Run) : (e.shift a).over (Nt365.Library.shift a rs) = (e.over rs).shift a := by
  induction rs generalizing e with
  | nil => rfl
  | cons r rs ih =>
    rw [Nt365.Library.shift, map_cons, Edge.over_cons, Edge.next_shift]
    exact ih (e.next r)

/-- Runs moved up stay in canonical position, if there is room for them. -/
theorem Seg.shift (h : Seg K V e rs) {a : ℕ} (ha : ∀ r ∈ rs, r.stop + a ≤ K) : Seg K V (e.shift a) (Nt365.Library.shift a rs) := by
  induction rs generalizing e with
  | nil => trivial
  | cons r rs ih =>
    obtain ⟨⟨h₁, -, h₃⟩, hrs⟩ := h
    refine ⟨⟨Nat.add_lt_add_right h₁ a, ha r (mem_cons_self ..), ?_⟩, ?_⟩
    · simpa only [Edge.shift, Nat.add_sub_add_right] using h₃
    · rw [Edge.next_shift]
      exact ih hrs fun r hr => ha r (mem_cons_of_mem _ hr)

theorem lookup_shift {s a : ℕ} (rs : List Run) (hv : s + a ≤ v) : lookup (s + a) (shift a rs) v = lookup s rs (v - a) := by
  induction rs generalizing s with
  | nil => rfl
  | cons r rs ih =>
    rw [shift, map_cons, lookup, lookup]
    by_cases hr : v < r.stop + a
    · rw [if_pos hr, if_pos (by omega), Run.value, Run.value, Nat.sub_sub, Nat.add_comm a s]
    · rw [if_neg hr, if_neg (by omega)]
      exact ih (by omega)

/-- **Opening a gap**: a hole between a left and a right that moves up. -/
theorem Leads.gap {k a : ℕ} (hl : Leads K V f k xs none) (hr : Trails K V f k (fun _ => none) stop .hole ys) (ha : 1 ≤ a)
    (hstop : stop + a ≤ K) (hroom : ∀ r ∈ ys, r.stop + a ≤ K) :
    Tight K V (xs ++ ⟨stop + a, none⟩ :: shift a ys) ∧ lookup 0 (xs ++ ⟨stop + a, none⟩ :: shift a ys) = PMap.gap f k a := by
  have hle := hr.hi_le
  have hl' : Leads K V (PMap.gap f k a) k xs none :=
    ⟨hl.seg, hl.key_le, hl.fits, fun v hv => (hl.same v hv).trans (if_pos hv).symm⟩
  have hr' : Trails K V (PMap.gap f k a) (k + a) (fun _ => none) (stop + a) .hole (shift a ys) := by
    refine ⟨by omega, hstop, hr.seg.shift hroom, ?_, fun v hv => ?_⟩
    · exact (congrArg Edge.before (Edge.over_shift a ⟨stop, .hole⟩ ys)).trans_ne hr.last
    · have hgap : PMap.gap f k a v = f (v - a) := by rw [PMap.gap, if_neg (by omega), if_neg (by omega)]
      rw [hgap, ← hr.same (v - a) (by omega)]
      by_cases hlt : v < stop + a
      · rw [if_pos hlt, if_pos (by omega)]
      · rw [if_neg hlt, if_neg (by omega), lookup_shift _ (by omega)]
  obtain ⟨htight, hlookup⟩ := hl'.edit hr' (by omega) (by simp) rfl fun _ _ => rfl
  refine ⟨htight, hlookup.trans (funext fun v => ?_)⟩
  rw [PMap.on, PMap.gap]
  split_ifs <;> first | omega | rfl

end

end Nt365.Library
