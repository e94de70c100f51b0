import Nt365.Mm.AddrSupSearch
import Nt365.Mm.VadTree

/-!
# Picking a range for an allocation

`NtAllocateVirtualMemory` (`MM/ALLOCVM.C`) with a `NULL` base address picks a range itself: from
the lowest address up, or with `MEM_TOP_DOWN` from the highest address down. The `ZeroBits` limit
the highest address.

## The model

A request ends with a range and the process after the search, or with what refused or stopped it.
Protection, quota and the descriptor that is built for the range are left out.

## The result

A search up always ends with a safe range or with `STATUS_NO_MEMORY`. A search down does so under
`TopDownSafe`, and only then: it follows a `NULL` node where the space below the lowest descriptor
is too small, and where the range does not fit below the limit it returns an address below the lowest
user address or one that has wrapped around.
-/

namespace Nt365.Mm

open Nt365.Library Nt365.Library.LinkedTree List Option

def pageSize : ℕ := 0x1000

/-- `ROUND_TO_PAGES`. -/
def roundToPages (size : ℕ) : ℕ := miRoundToSize size pageSize

/-- `TopAddress`. -/
def topAddress (zeroBits : ℕ) : ℕ := if 2 ≤ zeroBits then 0xFFFFFFFF >>> zeroBits else mmHighestVadAddress

/-- `EndingAddress`. -/
def endingAddress (startingAddress regionSize : ℕ) : ℕ := sub32 (add32 startingAddress regionSize) 1 ||| (pageSize - 1)

/-- Why a request ends without a range. -/
inductive Refusal where
  /-- `STATUS_INVALID_PARAMETER_3`. -/
  | invalidParameter3
  /-- `STATUS_INVALID_PARAMETER_4`. -/
  | invalidParameter4
  /-- The search stopped. -/
  | stop (s : Stop)
deriving DecidableEq

section Model

variable {P : Type} [DecidableEq P]

/-- The search for the range, which is `MiFindEmptyAddressRangeDown` with `MEM_TOP_DOWN`. -/
def findStartingAddress (fuel zeroBits regionSize : ℕ) (topDown : Bool) (p : Process P) : Except Stop (ℕ × Process P) :=
  if topDown then do
    let startingAddress ← miFindEmptyAddressRangeDownTree fuel regionSize (topAddress zeroBits) x64k p.vads
    return (startingAddress, p)
  else miFindEmptyAddressRange fuel regionSize x64k zeroBits p

/-- "Calculate the ending address based on the top address." -/
def honorZeroBits (zeroBits regionSize : ℕ) : Except Stop (ℕ × Process P) → Except Refusal (ℕ × ℕ × Process P)
  | .error s => .error (.stop s)
  | .ok (startingAddress, p) =>
    if topAddress zeroBits < endingAddress startingAddress regionSize then .error (.stop .noMemory)
    else .ok (startingAddress, endingAddress startingAddress regionSize, p)

/-- `NtAllocateVirtualMemory` with a `NULL` base address, up to the range that it reserves. -/
def ntAllocateVirtualMemory (fuel zeroBits regionSize : ℕ) (topDown : Bool) (p : Process P) : Except Refusal (ℕ × ℕ × Process P) :=
  if 21 < zeroBits then .error .invalidParameter3
  else if mmHighestVadAddress + 1 < regionSize then .error .invalidParameter4
  else if regionSize = 0 then .error .invalidParameter4
  else
    honorZeroBits zeroBits (roundToPages regionSize) (findStartingAddress fuel zeroBits (roundToPages regionSize) topDown p)

end Model

variable {P : Type}

/-! ### Safety -/

/-- The descriptors have ranges of whole pages inside user space, apart from each other. -/
structure AddressTree.UserSpace (t : AddressTree P) (L : List P) : Prop where
  ordered : t.Ordered L
  lowest : ∀ x ∈ L, mmLowestUserAddress ≤ t.startingVa x
  highest : ∀ x ∈ L, t.endingVa x ≤ mmHighestUserAddress
  startPage : ∀ x ∈ L, t.startingVa x % pageSize = 0
  endPage : ∀ x ∈ L, t.endingVa x % pageSize = pageSize - 1

/-- A range that is safe to reserve. -/
structure SafeRange (t : AddressTree P) (L : List P) (zeroBits regionSize startingAddress endingAddress : ℕ) : Prop where
  aligned : startingAddress % x64k = 0
  lowest : mmLowestUserAddress ≤ startingAddress
  ordered : startingAddress ≤ endingAddress
  highest : endingAddress ≤ min (topAddress zeroBits) mmHighestVadAddress
  covers : roundToPages regionSize ≤ endingAddress - startingAddress + 1
  apart : ∀ x ∈ L, ¬t.Meets startingAddress endingAddress x

variable (t : AddressTree P)

/-- What a request may end with: a safe range, or `STATUS_NO_MEMORY`. -/
def Safe (L : List P) (zeroBits regionSize : ℕ) : Except Refusal (ℕ × ℕ × Process P) → Prop
  | .error refusal => refusal = .stop .noMemory
  | .ok (startingAddress, endingAddress, _) => SafeRange t L zeroBits regionSize startingAddress endingAddress

@[simp] theorem safe_error {t : AddressTree P} {L : List P} {zeroBits regionSize : ℕ} (size : ℕ) (s : Stop) :
    Safe t L zeroBits regionSize (honorZeroBits zeroBits size (.error s)) ↔ s = .noMemory := by
  simp [honorZeroBits, Safe]

theorem safe_ok {t : AddressTree P} {L : List P} {zeroBits regionSize : ℕ} (size a : ℕ) (p : Process P) :
    Safe t L zeroBits regionSize (honorZeroBits zeroBits size (.ok (a, p))) ↔
      (endingAddress a size ≤ topAddress zeroBits → SafeRange t L zeroBits regionSize a (endingAddress a size)) := by
  rw [honorZeroBits]
  by_cases h : topAddress zeroBits < endingAddress a size
  · rw [if_pos h]
    exact iff_of_true rfl (fun hle => absurd hle (by omega))
  · rw [if_neg h]
    exact ⟨fun hsafe _ => hsafe, fun hsafe => hsafe (by omega)⟩

/-- A search down for `size` bytes up to `top` stops between a descriptor that ends at `rounded`,
in units of 64K, and one that starts at `start`. The second case is that of a size beyond `top`. -/
def StopsBetween (size top rounded start : ℕ) : Prop :=
  if size ≤ top + 1 then rounded + size ≤ top + 1 ∧ rounded + size < start
  else top < start ∧ (start < rounded ∨ rounded + size < start)

/-- A search down stops between two descriptors that follow one another. -/
def StopsInside (L : List P) (size top : ℕ) : Prop :=
  ∃ p n, [p, n] <:+: L ∧ StopsBetween size top (miRoundToSize (t.endingVa p) x64k) (t.startingVa n)

/-- The highest aligned start of `size` bytes up to `top` is below the lowest user address or has
wrapped around, while the end that is computed from it is not above `top`. -/
def StartsOutside (size top : ℕ) : Prop := top + 1 < size + x64k ∧ sub32 (top + 1) size % x64k ≤ top

instance (size top : ℕ) : Decidable (StartsOutside size top) := inferInstanceAs (Decidable (_ ∧ _))

/-- When a search down is safe. If the start would be outside, then the search must run out of
descriptors. Otherwise it must not end in the space below the lowest descriptor, unless there is
none or enough of it. -/
def TopDownSafe (L : List P) (size top : ℕ) : Prop :=
  if StartsOutside size top then
    (∃ first, L.head? = some first ∧ t.startingVa first = mmLowestUserAddress) ∧ ¬StopsInside t L size top
  else
    L = [] ∨ StopsInside t L size top ∨
      (∃ first, L.head? = some first ∧
        (t.startingVa first = mmLowestUserAddress ∨ mmLowestUserAddress + size < t.startingVa first)) ∨
      ∃ last, L.getLast? = some last ∧ miRoundToSize (t.endingVa last) x64k + size < top

/-! ### Arithmetic -/

theorem topAddress_le (zeroBits : ℕ) : topAddress zeroBits ≤ mmHighestVadAddress := by
  unfold topAddress
  split
  · rename_i h
    calc 0xFFFFFFFF >>> zeroBits = 0xFFFFFFFF / 2 ^ zeroBits := Nat.shiftRight_eq_div_pow ..
      _ ≤ 0xFFFFFFFF / 2 ^ 2 := Nat.div_le_div_left (Nat.pow_le_pow_right (by decide) h) (by decide)
      _ ≤ mmHighestVadAddress := by decide
  · exact Nat.le_refl _

/-- A size that a request may have, in whole pages. -/
structure PageCount (size : ℕ) : Prop where
  pages : size % pageSize = 0
  pos : 0 < size
  le : size ≤ mmHighestVadAddress + 1

theorem pageCount_roundToPages {regionSize : ℕ} (hpos : 1 ≤ regionSize) (hle : regionSize ≤ mmHighestVadAddress + 1) :
    PageCount (roundToPages regionSize) := by
  simp only [mmHighestVadAddress, mmHighestUserAddress, x64k] at hle
  constructor <;>
    simp only [roundToPages, miRoundToSize, miAlignToSize, pageSize, add32, sub32, mmHighestVadAddress, mmHighestUserAddress,
      x64k] <;>
    omega

/-- A request for `size` bytes, in whole pages, up to the address `top`. -/
structure Request (zeroBits regionSize size top : ℕ) : Prop where
  pages : PageCount size
  size_eq : roundToPages regionSize = size
  top_eq : topAddress zeroBits = top

theorem Request.top_le {zeroBits regionSize size top : ℕ} (hq : Request zeroBits regionSize size top) :
    top ≤ mmHighestVadAddress :=
  hq.top_eq ▸ topAddress_le zeroBits

theorem or_page_mask {a : ℕ} (h : a % pageSize = pageSize - 1) : a ||| (pageSize - 1) = a := by
  have hsplit : a = ((a / 2 ^ 12) <<< 12) ||| (pageSize - 1) := by
    rw [← Nat.shiftLeft_add_eq_or_of_lt (show pageSize - 1 < 2 ^ 12 by decide), Nat.shiftLeft_eq]
    simp only [pageSize] at h ⊢
    omega
  conv_lhs => rw [hsplit]
  rw [Nat.or_assoc, Nat.or_self, ← hsplit]

theorem endingAddress_eq {startingAddress size : ℕ} (hstart : startingAddress % x64k = 0) (hsize : PageCount size) :
    endingAddress startingAddress size = sub32 (add32 startingAddress size) 1 := by
  have hpages := hsize.pages
  apply or_page_mask
  simp only [pageSize, x64k, add32, sub32] at *
  omega

/-- An end of whole pages, rounded up to 64K. -/
theorem miRoundToSize_bounds {e : ℕ} (hpage : e % pageSize = pageSize - 1) (hle : e ≤ mmHighestUserAddress) :
    miRoundToSize e x64k % x64k = 0 ∧ e < miRoundToSize e x64k ∧ miRoundToSize e x64k < e + x64k := by
  simp only [mmHighestUserAddress, pageSize, x64k, miRoundToSize, miAlignToSize, add32, sub32] at *
  omega

/-! ### Empty ranges -/

/-- An aligned range in user space that no descriptor meets. -/
structure EmptyRange (t : AddressTree P) (L : List P) (size a : ℕ) : Prop where
  aligned : a % x64k = 0
  lowest : mmLowestUserAddress ≤ a
  noWrap : a + size ≤ 4294967296
  apart : ∀ x ∈ L, t.endingVa x < a ∨ a + size ≤ t.startingVa x

section Empty

attribute [local irreducible] add32 sub32

variable {t : AddressTree P} {L l r : List P} {size top a zeroBits regionSize : ℕ}

theorem AddressTree.Ordered.ending_le {v : P} (ho : t.Ordered L) (hl : l <+: L) (hv : l.getLast? = some v) {x : P}
    (hx : x ∈ l) : t.endingVa x ≤ t.endingVa v := by
  obtain ⟨l, rfl⟩ := getLast?_eq_some_iff.mp hv
  obtain ⟨r, rfl⟩ := hl
  rcases mem_append.mp hx with hx | hx
  · have hlt := (pairwise_append.mp (pairwise_append.mp ho.apart).1).2.2 x hx v (mem_singleton_self v)
    have hwide := ho.wide v (by simp)
    omega
  · exact Nat.le_of_eq (by rw [mem_singleton.mp hx])

theorem AddressTree.Ordered.le_starting {v : P} (ho : t.Ordered L) (hr : r <:+ L) (hv : r.head? = some v) {x : P}
    (hx : x ∈ r) : t.startingVa v ≤ t.startingVa x := by
  obtain ⟨r, rfl⟩ := head?_eq_some_iff.mp hv
  obtain ⟨l, rfl⟩ := hr
  rcases mem_cons.mp hx with rfl | hx
  · exact Nat.le_refl _
  · have hlt := (pairwise_cons.mp (pairwise_append.mp ho.apart).2.1).1 x hx
    have hwide := ho.wide v (by simp)
    omega

/-- A range is empty if it starts after the descriptors below it and ends before those above it. -/
theorem EmptyRange.of_split (ho : t.Ordered (l ++ r)) (ha : a % x64k = 0) (hlow : mmLowestUserAddress ≤ a)
    (hroom : a + size ≤ 4294967296) (hl : ∀ p, l.getLast? = some p → t.endingVa p < a)
    (hr : ∀ n, r.head? = some n → a + size ≤ t.startingVa n) : EmptyRange t (l ++ r) size a where
  aligned := ha
  lowest := hlow
  noWrap := hroom
  apart := by
    intro x hx
    rcases mem_append.mp hx with hx | hx
    · have hp := getLast?_eq_some_getLast (ne_nil_of_mem hx)
      exact .inl (Nat.lt_of_le_of_lt (ho.ending_le (prefix_append l r) hp hx) (hl _ hp))
    · have hn := head?_eq_some_head (ne_nil_of_mem hx)
      exact .inr (Nat.le_trans (hr _ hn) (ho.le_starting (suffix_append l r) hn hx))

/-- An empty range is reserved, unless it does not honor the zero bits. -/
theorem EmptyRange.safe (h : EmptyRange t L size a) (hq : Request zeroBits regionSize size top) (p : Process P) :
    Safe t L zeroBits regionSize (honorZeroBits zeroBits size (.ok (a, p))) := by
  have hend := endingAddress_eq h.aligned hq.pages
  obtain ⟨⟨-, hpos, -⟩, rfl, -⟩ := hq
  obtain ⟨ha, hlow, hroom, hapart⟩ := h
  have hend' : endingAddress a (roundToPages regionSize) = a + roundToPages regionSize - 1 := by
    rw [hend]
    simp only [add32, sub32]
    omega
  have htop := topAddress_le zeroBits
  rw [safe_ok, hend']
  intro hle
  refine ⟨ha, hlow, by omega, by omega, by omega, ?_⟩
  rintro x hx ⟨h₁, h₂⟩
  rcases hapart x hx with h | h <;> omega

theorem AddressTree.UserSpace.rounded (hu : t.UserSpace L) {x : P} (hx : x ∈ L) :
    miRoundToSize (t.endingVa x) x64k % x64k = 0 ∧ t.endingVa x < miRoundToSize (t.endingVa x) x64k ∧
      miRoundToSize (t.endingVa x) x64k < t.endingVa x + x64k := miRoundToSize_bounds (hu.endPage x hx) (hu.highest x hx)

theorem AddressTree.UserSpace.bounds (hu : t.UserSpace L) {x : P} (hx : x ∈ L) :
    mmLowestUserAddress ≤ t.startingVa x ∧ t.startingVa x ≤ t.endingVa x ∧ t.endingVa x ≤ mmHighestUserAddress :=
  ⟨hu.lowest x hx, hu.ordered.wide x hx, hu.highest x hx⟩

/-! ### The search up -/

/-- The space after a descriptor is empty as far as the next one. -/
theorem EmptyRange.after {v : P} (hu : t.UserSpace (l ++ v :: r)) (hsize : PageCount size)
    (hr : ∀ n, r.head? = some n → size < sub32 (t.startingVa n) (miRoundToSize (t.endingVa v) x64k) ∧
      miRoundToSize (t.endingVa v) x64k < t.startingVa n) :
    EmptyRange t (l ++ v :: r) size (miRoundToSize (t.endingVa v) x64k) := by
  have hv : v ∈ l ++ v :: r := by simp
  obtain ⟨hmod, hlt, hle⟩ := hu.rounded hv
  obtain ⟨hlow, hwide, hhigh⟩ := hu.bounds hv
  have hsz := hsize.le
  rw [append_cons] at hu ⊢
  refine .of_split hu.ordered hmod (by omega) ?_ ?_ ?_
  · simp only [mmHighestVadAddress, mmHighestUserAddress, x64k] at *
    omega
  · intro p hp
    rw [getLast?_concat] at hp
    exact some_inj.mp hp ▸ hlt
  · intro n hn
    obtain ⟨hgap, hbelow⟩ := hr n hn
    obtain ⟨-, hwide', hhigh'⟩ := hu.bounds (mem_append_right _ (mem_of_head? hn))
    rw [sub32_of_le (by simp only [mmHighestUserAddress] at hhigh'; omega) (by omega)] at hgap
    omega

/-- A search that finds an empty range or runs out of memory. -/
def FindsEmpty {β : Type} (t : AddressTree P) (L : List P) (size : ℕ) : Except Stop (ℕ × β) → Prop
  | .error s => s = .noMemory
  | .ok (a, _) => EmptyRange t L size a

theorem searchFromLowest_finds (hu : t.UserSpace L) (hsize : PageCount size) (previousVad : Option P) :
    FindsEmpty t L size (searchFromLowest size x64k t previousVad L) := by
  have hle := hsize.le
  cases L with
  | nil =>
    refine EmptyRange.of_split (l := []) (r := []) hu.ordered (by decide) (Nat.le_refl _) ?_ (by simp) (by simp)
    simp only [mmHighestVadAddress, mmHighestUserAddress, mmLowestUserAddress, x64k] at *
    omega
  | cons node nodes =>
    rw [searchFromLowest]
    by_cases h : mmLowestUserAddress < t.startingVa node ∧ size < sub32 (t.startingVa node) mmLowestUserAddress
    · rw [if_pos h]
      refine EmptyRange.of_split (l := []) (r := node :: nodes) hu.ordered (by decide) (Nat.le_refl _) ?_ (by simp) ?_
      · simp only [mmHighestVadAddress, mmHighestUserAddress, mmLowestUserAddress, x64k] at *
        omega
      · rintro n ⟨⟩
        obtain ⟨-, hwide, hhigh⟩ := hu.bounds (mem_cons_self (a := node))
        rw [sub32_of_le (by simp only [mmHighestUserAddress] at hhigh; omega) (by omega)] at h
        omega
    · rw [if_neg h]
      obtain hup | ⟨l, n, r, hsplit, hup, hgap⟩ := searchUp_cases size x64k t node nodes
      · rw [hup]
        rfl
      · rw [hup]
        rw [hsplit] at hu ⊢
        exact .after hu hsize hgap

/-! ### The search down -/

section Down

/-- The test of a gap, without the words that it is computed in. -/
theorem takesGap_iff (hu : t.UserSpace L) (hsize : PageCount size) (htop : top ≤ mmHighestVadAddress) {p n : P}
    (hpn : [p, n] <:+: L) :
    takesGap size top x64k (optimalStartFor size top x64k) t p n ↔
      StopsBetween size top (miRoundToSize (t.endingVa p) x64k) (t.startingVa n) := by
  have hp : p ∈ L := hpn.subset (by simp)
  have hn : n ∈ L := hpn.subset (by simp)
  have hlt : t.endingVa p < t.startingVa n := by
    have hpair := hu.ordered.apart.sublist hpn.sublist
    simpa using hpair
  obtain ⟨hmod, hend, hround⟩ := hu.rounded hp
  obtain ⟨hlow, hwide, -⟩ := hu.bounds hp
  obtain ⟨-, hwide', hhigh⟩ := hu.bounds hn
  obtain ⟨hpages, hpos, hle⟩ := hsize
  unfold takesGap StopsBetween
  generalize miRoundToSize (t.endingVa p) x64k = rounded at *
  simp only [optimalStartFor, miAlignToSize, add32, sub32, mmHighestVadAddress, mmHighestUserAddress, mmLowestUserAddress,
    x64k, pageSize] at *
  split <;> omega

theorem optimalStartFor_aligned (size top : ℕ) : optimalStartFor size top x64k % x64k = 0 := by
  simp only [optimalStartFor, miAlignToSize, x64k]
  omega

variable (hq : Request zeroBits regionSize size top)
include hq

/-- Where the highest aligned start is outside, it is reserved all the same. -/
theorem not_safe_optimalStart (hout : StartsOutside size top) (p : Process P) :
    ¬Safe t L zeroBits regionSize (honorZeroBits zeroBits size
      (.ok (optimalStartFor size top x64k, p))) := by
  have htop := hq.top_le
  rw [safe_ok, endingAddress_eq (optimalStartFor_aligned ..) hq.pages, hq.top_eq]
  obtain ⟨-, hpos, hle⟩ := hq.pages
  obtain ⟨hshort, hmod⟩ := hout
  intro h
  have hsafe := h (by
    simp only [optimalStartFor, miAlignToSize, add32, sub32, mmHighestVadAddress, mmHighestUserAddress, x64k] at *
    omega)
  have hlow := hsafe.lowest
  have hord := hsafe.ordered
  clear hsafe h
  simp only [optimalStartFor, miAlignToSize, add32, sub32, mmHighestVadAddress, mmHighestUserAddress, mmLowestUserAddress,
    x64k] at *
  omega

/-- Where the highest aligned start is not outside, it is safe between descriptors that leave it room. -/
theorem safe_optimalStart (ho : t.Ordered (l ++ r))
    (hout : ¬StartsOutside size top)
    (hl : ∀ p, l.getLast? = some p →
      t.endingVa p < optimalStartFor size top x64k)
    (hr : ∀ n, r.head? = some n → top < t.startingVa n) (p : Process P) :
    Safe t (l ++ r) zeroBits regionSize (honorZeroBits zeroBits size
      (.ok (optimalStartFor size top x64k, p))) := by
  have htop := hq.top_le
  have haligned := optimalStartFor_aligned size top
  have hle := hq.pages.le
  rcases Nat.lt_or_ge (top + 1) (size + x64k) with hshort | hfits
  · have hmod : ¬sub32 (top + 1) size % x64k ≤ top :=
      fun h => hout ⟨hshort, h⟩
    rw [safe_ok, endingAddress_eq haligned hq.pages, hq.top_eq]
    intro h
    exfalso
    simp only [optimalStartFor, miAlignToSize, add32, sub32, mmHighestVadAddress, mmHighestUserAddress, x64k] at *
    omega
  · have hroom : mmLowestUserAddress ≤ optimalStartFor size top x64k ∧
        optimalStartFor size top x64k + size ≤
          top + 1 := by
      simp only [optimalStartFor, miAlignToSize, add32, sub32, mmHighestVadAddress, mmHighestUserAddress,
        mmLowestUserAddress, x64k] at *
      omega
    simp only [mmHighestVadAddress, mmHighestUserAddress, x64k] at htop
    refine EmptyRange.safe (.of_split ho haligned hroom.1 (by omega) hl fun n hn => ?_) hq p
    have := hr n hn
    omega

/-- The address that the search returns above `base`, below the descriptor `n`. -/
theorem safe_startBelow_iff {n : P} {base : ℕ} (hu : t.UserSpace (l ++ n :: r))
    (hbase : base % x64k = 0) (hlow : mmLowestUserAddress ≤ base)
    (hgap : size < sub32 (t.startingVa n) base)
    (hstart : top < t.startingVa n ∨ base < t.startingVa n)
    (hl : ∀ p, l.getLast? = some p → t.endingVa p < base)
    (hopt : ∀ p, l.getLast? = some p → t.endingVa p < optimalStartFor size top x64k)
    (p : Process P) :
    Safe t (l ++ n :: r) zeroBits regionSize (honorZeroBits zeroBits size
      (.ok (startBelow size top x64k
        (optimalStartFor size top x64k) t n, p))) ↔
      ¬StartsOutside size top := by
  have htop := hq.top_le
  rw [startBelow]
  by_cases h : top < t.startingVa n
  · rw [if_pos h]
    refine ⟨fun hsafe hout => not_safe_optimalStart hq hout p hsafe, fun hout => ?_⟩
    refine safe_optimalStart hq hu.ordered hout hopt (fun n' hn' => ?_) p
    exact some_inj.mp hn' ▸ h
  · rw [if_neg h]
    have hlt := hstart.resolve_left h
    simp only [mmHighestVadAddress, mmHighestUserAddress, mmLowestUserAddress, x64k] at *
    rw [sub32_of_le (by omega) (by omega)] at hgap
    refine iff_of_true (EmptyRange.safe (.of_split hu.ordered ?_ ?_ ?_ ?_ ?_) hq p) ?_
    all_goals simp only [miAlignToSize, StartsOutside, mmLowestUserAddress, x64k]
    all_goals rw [sub32_of_le (by omega) (by omega)]
    · omega
    · omega
    · omega
    · intro p hp
      have := hl p hp
      omega
    · rintro n' ⟨⟩
      omega
    · omega

theorem safe_above {last : P} (hu : t.UserSpace (l ++ [last]))
    (hfits : miRoundToSize (t.endingVa last) x64k + size < top) (p : Process P) :
    Safe t (l ++ [last]) zeroBits regionSize (honorZeroBits zeroBits size
      (.ok (miAlignToSize (sub32 top size) x64k, p))) := by
  have htop := hq.top_le
  obtain ⟨hmod, hend, hround⟩ := hu.rounded (x := last) (by simp)
  obtain ⟨hlow, hwide, -⟩ := hu.bounds (x := last) (by simp)
  rw [← append_nil (l ++ [last])] at hu ⊢
  refine EmptyRange.safe (.of_split hu.ordered ?_ ?_ ?_ ?_ (by simp)) hq p
  all_goals simp only [miAlignToSize, mmHighestVadAddress, mmHighestUserAddress, mmLowestUserAddress, x64k] at *
  all_goals rw [sub32_of_le (by omega) (by omega)]
  · omega
  · omega
  · omega
  · intro p hp
    rw [getLast?_concat] at hp
    obtain rfl := some_inj.mp hp
    omega

theorem safe_searchDown_first {first : P} (hu : t.UserSpace (first :: r))
    (p : Process P) :
    Safe t (first :: r) zeroBits regionSize (honorZeroBits zeroBits size
      ((searchDown size top x64k
        (optimalStartFor size top x64k) t first []).map (·, p))) ↔
      t.startingVa first = mmLowestUserAddress ∨
        mmLowestUserAddress + size < t.startingVa first ∧
          ¬StartsOutside size top := by
  obtain ⟨hlow, hwide, hhigh⟩ := hu.bounds (x := first) (by simp)
  have hbound : t.startingVa first < 4294967296 := by
    simp only [mmHighestUserAddress] at hhigh
    omega
  have hsub := sub32_of_le hbound hlow
  rw [searchDown]
  by_cases habove : mmLowestUserAddress < t.startingVa first
  · rw [if_pos habove]
    by_cases hgap : size < sub32 (t.startingVa first) mmLowestUserAddress
    · rw [if_pos hgap]
      refine (safe_startBelow_iff hq (l := []) hu (by decide) (Nat.le_refl _) hgap (.inr habove) (by simp) (by simp) p).trans ?_
      exact ⟨fun h => .inr ⟨by omega, h⟩, fun h => (h.resolve_left (by omega)).2⟩
    · rw [if_neg hgap]
      refine iff_of_false (fun h => ?_) (by omega)
      exact absurd ((safe_error ..).mp h) (by decide)
  · rw [if_neg habove]
    exact iff_of_true ((safe_error ..).mpr rfl) (.inl (by omega))

omit hq in
theorem topDownSafe_iff_of_stopsInside (h : StopsInside t L size top) : TopDownSafe t L size top ↔ ¬StartsOutside size top := by
  by_cases hout : StartsOutside size top
  · rw [TopDownSafe, if_pos hout]
    exact iff_of_false (fun hsafe => hsafe.2 h) (not_not_intro hout)
  · rw [TopDownSafe, if_neg hout]
    exact iff_of_true (.inr (.inl h)) hout

omit hq in
theorem topDownSafe_iff_of_not_stopsInside {first last : P} (h : ¬StopsInside t L size top) (hfirst : L.head? = some first)
    (hlast : L.getLast? = some last) (hfull : ¬miRoundToSize (t.endingVa last) x64k + size < top) :
    TopDownSafe t L size top ↔
      t.startingVa first = mmLowestUserAddress ∨
        mmLowestUserAddress + size < t.startingVa first ∧ ¬StartsOutside size top := by
  have hne : L ≠ [] := by
    rintro rfl
    cases hfirst
  by_cases hout : StartsOutside size top
  · simp [TopDownSafe, hout, h, hfirst]
  · simp [TopDownSafe, hout, h, hne, hfirst, hlast, hfull]

/-- The search down from the highest descriptor, when there is no space above it. -/
theorem safe_searchDown_iff {last : P} (hu : t.UserSpace (l ++ [last]))
    (hfull : ¬miRoundToSize (t.endingVa last) x64k + size < top) (p : Process P) :
    Safe t (l ++ [last]) zeroBits regionSize (honorZeroBits zeroBits size
      ((searchDown size top x64k
        (optimalStartFor size top x64k) t last l.reverse).map (·, p))) ↔
      TopDownSafe t (l ++ [last]) size top := by
  have htop := hq.top_le
  have hrev : (last :: l.reverse).reverse = l ++ [last] := by simp
  rcases searchDown_cases size top x64k
    (optimalStartFor size top x64k) t last l.reverse with
    ⟨n, q, hin, htakes, heq⟩ | ⟨hnone, first, hfirst, heq⟩
  · have hin' : [q, n] <:+: l ++ [last] := hrev ▸ reverse_infix.mpr hin
    rw [topDownSafe_iff_of_stopsInside ⟨q, n, hin', (takesGap_iff hu hq.pages htop hin').mp htakes⟩, heq]
    obtain ⟨hopt, hgap, hstart⟩ := htakes
    obtain ⟨before, after, hL⟩ := hin'
    replace hL : l ++ [last] = (before ++ [q]) ++ n :: after := by simp [← hL]
    rw [hL] at hu ⊢
    obtain ⟨hmod, hend, -⟩ := hu.rounded (x := q) (by simp)
    obtain ⟨hlow, hwide, -⟩ := hu.bounds (x := q) (by simp)
    refine safe_startBelow_iff hq hu hmod (by omega) hgap hstart ?_ ?_ p
    · intro q' hq'
      rw [getLast?_concat] at hq'
      exact some_inj.mp hq' ▸ hend
    · intro q' hq'
      rw [getLast?_concat] at hq'
      exact some_inj.mp hq' ▸ hopt
  · have hinside : ¬StopsInside t (l ++ [last]) size top := by
      rintro ⟨q, n, hin, hstops⟩
      refine hnone n q ?_ ((takesGap_iff hu hq.pages htop hin).mpr hstops)
      rw [← hrev] at hin
      exact reverse_infix.mp hin
    have hhead : (l ++ [last]).head? = some first := by rw [← hrev, head?_reverse, hfirst]
    rw [topDownSafe_iff_of_not_stopsInside hinside hhead getLast?_concat hfull, heq]
    obtain ⟨r, hr⟩ := head?_eq_some_iff.mp hhead
    rw [hr] at hu ⊢
    exact safe_searchDown_first hq hu p

/-- The search down is safe under `TopDownSafe`, and only then. -/
theorem safe_searchFromHighest_iff (hu : t.UserSpace L) (p : Process P) :
    Safe t L zeroBits regionSize (honorZeroBits zeroBits size
      ((searchFromHighest size top x64k t L.reverse).map (·, p))) ↔
      TopDownSafe t L size top := by
  have htop := hq.top_le
  rcases eq_nil_or_concat L with rfl | ⟨l, last, rfl⟩
  · by_cases hout : StartsOutside size top
    · rw [TopDownSafe, if_pos hout]
      exact iff_of_false (not_safe_optimalStart hq hout p) (by simp)
    · rw [TopDownSafe, if_neg hout]
      exact iff_of_true (safe_optimalStart hq (l := []) (r := []) hu.ordered hout (by simp) (by simp) p) (.inl rfl)
  rw [concat_eq_append] at hu ⊢
  rw [reverse_append, reverse_singleton, singleton_append, searchFromHighest]
  obtain ⟨hmod, hend, hround⟩ := hu.rounded (x := last) (by simp)
  obtain ⟨-, -, hhigh⟩ := hu.bounds (x := last) (by simp)
  have hiff : (miRoundToSize (t.endingVa last) x64k < top ∧
      size < sub32 top (miRoundToSize (t.endingVa last) x64k)) ↔
      miRoundToSize (t.endingVa last) x64k + size < top := by
    simp only [mmHighestVadAddress, mmHighestUserAddress, x64k, sub32] at *
    omega
  by_cases hfits : miRoundToSize (t.endingVa last) x64k + size < top
  · have hout : ¬StartsOutside size top := by
      rintro ⟨hshort, -⟩
      simp only [x64k] at *
      omega
    rw [if_pos (hiff.mpr hfits), TopDownSafe, if_neg hout]
    exact iff_of_true (safe_above hq hu hfits p) (.inr (.inr (.inr ⟨last, getLast?_concat, hfits⟩)))
  · rw [if_neg (mt hiff.mp hfits)]
    exact safe_searchDown_iff hq hu hfits p

end Down

variable [DecidableEq P] {c : BinaryTree P} {fuel : ℕ} {p : Process P}

theorem roomAfterHint_finds (ht : p.vads.Holds c) (hu : p.vads.UserSpace (inorder c)) (hsize : PageCount size) {hint : P}
    (hhint : hint ∈ inorder c) (hfuel : (inorder c).length < fuel) :
    ∃ room, roomAfterHint fuel size x64k p hint = .ok room ∧ ∀ a, room = some a → EmptyRange p.vads (inorder c) size a := by
  obtain ⟨l, r, hc⟩ := append_of_mem hhint
  have hnext : miGetNextNode fuel p.vads (some hint) = .ok r.head? := neighbour_spec ht hc hfuel
  simp only [roomAfterHint, hnext, bind, Except.bind, pure, Except.pure]
  rw [hc] at hu ⊢
  cases r with
  | nil =>
    refine ⟨_, rfl, fun a ha => ?_⟩
    obtain ⟨-, rfl⟩ := ite_some_none_eq_some.mp ha
    exact .after hu hsize (by simp)
  | cons nextVad r =>
    refine ⟨_, rfl, fun a ha => ?_⟩
    obtain ⟨h, rfl⟩ := ite_some_none_eq_some.mp ha
    apply EmptyRange.after hu hsize
    rintro n ⟨⟩
    exact h

theorem findFromLowest_finds (ht : p.vads.Holds c) (hu : p.vads.UserSpace (inorder c)) (hsize : PageCount size)
    (hfuel : (inorder c).length < fuel) : FindsEmpty p.vads (inorder c) size (findFromLowest fuel size x64k p) := by
  have hfinds := searchFromLowest_finds hu hsize p.vadFreeHint
  rw [← miFindEmptyAddressRangeInTree_eq ht hfuel] at hfinds
  cases hfind : miFindEmptyAddressRangeInTree fuel size x64k p.vads p.vadFreeHint with
  | error s =>
    rw [hfind] at hfinds
    rw [findFromLowest, hfind]
    exact hfinds
  | ok r =>
    rw [hfind] at hfinds
    rw [findFromLowest, hfind]
    exact hfinds

/-- The search up of a process finds an empty range or runs out of memory. -/
theorem miFindEmptyAddressRange_finds (ht : p.vads.Holds c) (hu : p.vads.UserSpace (inorder c)) (hsize : PageCount size)
    (hhint : ∀ hint, p.vadFreeHint = some hint → hint ∈ inorder c) (hfuel : (inorder c).length < fuel) (quickCheck : ℕ) :
    FindsEmpty p.vads (inorder c) size (miFindEmptyAddressRange fuel size x64k quickCheck p) := by
  have hlowest := findFromLowest_finds ht hu hsize hfuel
  unfold miFindEmptyAddressRange
  cases hfree : p.vadFreeHint with
  | none => exact hlowest
  | some hint =>
    obtain ⟨room, hroom, hempty⟩ := roomAfterHint_finds ht hu hsize (hhint hint hfree) hfuel
    dsimp only
    split
    · rw [hroom]
      cases room with
      | none => exact hlowest
      | some a => exact hempty a rfl
    · exact hlowest

theorem findStartingAddress_topDown (fuel zeroBits size : ℕ) (p : Process P) :
    findStartingAddress fuel zeroBits size true p =
      (miFindEmptyAddressRangeDownTree fuel size (topAddress zeroBits) x64k p.vads).map (·, p) := by
  rw [findStartingAddress, if_pos rfl]
  cases miFindEmptyAddressRangeDownTree fuel size (topAddress zeroBits) x64k p.vads <;> rfl

theorem safe_findStartingAddress_iff (ht : p.vads.Holds c) (hu : p.vads.UserSpace (inorder c))
    (hsize : PageCount (roundToPages regionSize)) (hhint : ∀ hint, p.vadFreeHint = some hint → hint ∈ inorder c)
    (hfuel : (inorder c).length < fuel) (topDown : Bool) :
    Safe p.vads (inorder c) zeroBits regionSize (honorZeroBits zeroBits (roundToPages regionSize)
      (findStartingAddress fuel zeroBits (roundToPages regionSize) topDown p)) ↔
      (topDown = true → TopDownSafe p.vads (inorder c) (roundToPages regionSize) (topAddress zeroBits)) := by
  cases topDown with
  | false =>
    have hfinds := miFindEmptyAddressRange_finds ht hu hsize hhint hfuel zeroBits
    refine iff_of_true ?_ (by simp)
    show Safe _ _ _ _ (honorZeroBits _ _ (miFindEmptyAddressRange fuel (roundToPages regionSize) x64k zeroBits p))
    cases hfind : miFindEmptyAddressRange fuel (roundToPages regionSize) x64k zeroBits p with
    | error s => exact (safe_error ..).mpr (by rw [hfind] at hfinds; exact hfinds)
    | ok r =>
      rw [hfind] at hfinds
      exact EmptyRange.safe hfinds ⟨hsize, rfl, rfl⟩ r.2
  | true =>
    rw [findStartingAddress_topDown, miFindEmptyAddressRangeDownTree_eq ht hfuel]
    exact (safe_searchFromHighest_iff ⟨hsize, rfl, rfl⟩ hu p).trans ⟨fun h _ => h, fun h => h rfl⟩

end Empty

/-- **A request that passes the entry checks** ends with a safe range or with `STATUS_NO_MEMORY`, in a
search up always, and in a search down exactly under `TopDownSafe`. -/
theorem ntAllocateVirtualMemory_safe_iff [DecidableEq P] {p : Process P} {c : BinaryTree P}
    {fuel zeroBits regionSize : ℕ} (ht : p.vads.Holds c) (hu : p.vads.UserSpace (inorder c))
    (hhint : ∀ hint, p.vadFreeHint = some hint → hint ∈ inorder c) (hzero : zeroBits ≤ 21) (hpos : 1 ≤ regionSize)
    (hle : regionSize ≤ mmHighestVadAddress + 1) (hfuel : (inorder c).length < fuel) (topDown : Bool) :
    Safe p.vads (inorder c) zeroBits regionSize (ntAllocateVirtualMemory fuel zeroBits regionSize topDown p) ↔
      (topDown = true → TopDownSafe p.vads (inorder c) (roundToPages regionSize) (topAddress zeroBits)) := by
  rw [ntAllocateVirtualMemory, if_neg (by omega), if_neg (by omega), if_neg (by omega)]
  exact safe_findStartingAddress_iff ht hu (pageCount_roundToPages hpos hle) hhint hfuel topDown

/-- A process with one descriptor, from the second 64K of user space to its end. -/
def crowded : Process Unit :=
  ⟨⟨⟨fun _ => none, fun _ _ => none⟩, some (), fun _ => 0x20000, fun _ => mmHighestUserAddress⟩, some (), none⟩

/-- A process without descriptors. -/
def vacant : Process Unit := ⟨⟨⟨fun _ => none, fun _ _ => none⟩, none, fun _ => 0, fun _ => 0⟩, none, none⟩

theorem holds_crowded : crowded.vads.Holds (.node () .nil .nil) where
  linked := ⟨rfl, rfl, rfl, trivial, trivial⟩
  root := rfl
  nodup := nodup_singleton ()

theorem userSpace_crowded : crowded.vads.UserSpace [()] where
  ordered := ⟨by decide, pairwise_singleton ..⟩
  lowest := by decide
  highest := by decide
  startPage := by decide
  endPage := by decide

theorem ntAllocateVirtualMemory_crowded : Safe crowded.vads [()] 0 0xF000 (ntAllocateVirtualMemory 2 0 0xF000 true crowded) :=
  (ntAllocateVirtualMemory_safe_iff holds_crowded userSpace_crowded (by simp [crowded]) (by decide) (by decide) (by decide)
    (by decide) true).mpr fun _ => by
      rw [TopDownSafe, if_neg (by decide)]
      exact .inr (.inr (.inl ⟨(), rfl, .inr (by decide)⟩))

/-- A search down for more than the 64K below the only descriptor follows a `NULL` node. In a
process without descriptors, 1G below 1G starts at `NULL`. -/
theorem ntAllocateVirtualMemory_not_safe :
    (crowded.vads.Holds (.node () .nil .nil) ∧ crowded.vads.UserSpace [()] ∧
      ntAllocateVirtualMemory 2 0 0x20000 true crowded = .error (.stop .nullNode)) ∧
    vacant.vads.Holds .nil ∧ vacant.vads.UserSpace [] ∧
      ntAllocateVirtualMemory 1 2 0x40000000 true vacant = .ok (0, 0x3FFFFFFF, vacant) := by
  refine ⟨⟨holds_crowded, userSpace_crowded, rfl⟩, ⟨trivial, rfl, nodup_nil⟩, ?_, rfl⟩
  exact ⟨⟨by simp, .nil⟩, by simp, by simp, by simp, by simp⟩

end Nt365.Mm
