import Nt365.Library.Loop
import Nt365.Rtl.Time
import Mathlib.Tactic.IntervalCases
import Mathlib.Tactic.Linarith
import Mathlib.Tactic.LinearCombination

/-!
# Time conversion is exact

`RtlTimeToTimeFields` gives the date of the Gregorian calendar, the weekday and the time of day of a time,
and `RtlTimeFieldsToTime` takes them back to the time. The multiplications by rounded reciprocals are
divisions (`div_of_reciprocal`), and the year is found by its blocks of 400, 100 and 4 years.
-/

namespace Nt365.Rtl

open Nt365.Library Nt365.Library.Calendar

/-! ### Division by multiplication -/

variable {n : ℤ} {year month years : ℕ} {f : TimeFields}

/-- **A reciprocal that is rounded up** divides, as long as the error stays below one step. -/
theorem div_of_reciprocal {m d N e : ℤ} (hd : 0 < d) (hN : 0 < N) (hm : m * d = N + e) (he : 0 ≤ e) (hn : 0 ≤ n)
    (hlt : n * e < N) : n * m / N = n / d := by
  have hdiv : d * (n / d) + n % d = n := Int.mul_ediv_add_emod n d
  have hq : 0 ≤ n / d := Int.ediv_nonneg hn hd.le
  have hr : 0 ≤ n % d := Int.emod_nonneg n hd.ne'
  have hr' : n % d < d := Int.emod_lt_of_pos n hd
  generalize n / d = q at hdiv hq ⊢
  generalize n % d = r at hdiv hr hr'
  have hm₀ : 0 ≤ m := by
    by_contra hneg
    nlinarith
  have hsplit : n * m = q * N + (q * e + r * m) := by
    rw [← hdiv]
    linear_combination q * hm
  have hsmall : q * e + r * m < N := by
    -- times `d`, this is `n * e + r * N`
    have hmul : d * (q * e + r * m) = n * e + r * N := by
      rw [← hdiv]
      linear_combination r * hm
    nlinarith
  rw [hsplit, Int.add_ediv_of_dvd_left (Dvd.intro_left q rfl), Int.mul_ediv_cancel q hN.ne',
    Int.ediv_eq_zero_of_lt (by positivity) hsmall, add_zero]

theorem div_10000 (hn : 0 ≤ n) (hlt : n < 9223372036854775808) : n * magic10000 / 2 ^ (64 + shift10000) = n / 10000 := by
  refine div_of_reciprocal (e := 1728) (by decide) (by decide) (by decide) (by decide) hn ?_
  rw [shift10000]
  omega

theorem div_86400000 (hn : 0 ≤ n) (hlt : n < 922337203685478) : n * magic86400000 / 2 ^ (64 + shift86400000) = n / 86400000 := by
  refine div_of_reciprocal (e := 76875776) (by decide) (by decide) (by decide) (by decide) hn ?_
  rw [shift86400000]
  omega

/-! ### Words -/

theorem lowPart_of_lt {n : ℕ} (h : n < 4294967296) : lowPart n = n := by
  unfold lowPart
  omega

theorem convertDaysToMilliseconds_of_lt {days : ℕ} (h : days < 11000000) : convertDaysToMilliseconds days = days * 86400000 := by
  have hlong : long days = days := by
    unfold long
    rw [Int.bmod_eq_of_le] <;> omega
  rw [convertDaysToMilliseconds, hlong, wrap64_of_lt] <;> omega

/-! ### Years -/

theorem isLeapYear_iff (years : ℕ) : isLeapYear years = true ↔ IsLeap years := by
  simp only [isLeapYear, IsLeap, decide_eq_true_eq]
  omega

theorem daysBeforeYear_eq (k : ℕ) : daysBeforeYear 1601 (1601 + k) = 365 * k + k / 4 - k / 100 + k / 400 := by
  induction k with
  | zero => rfl
  | succ k ih =>
    rw [← Nat.add_assoc, daysBeforeYear_succ (by omega), ih]
    by_cases hleap : IsLeap (1601 + k)
    · rw [yearLength, if_pos hleap]
      unfold IsLeap at hleap
      omega
    · rw [yearLength, if_neg hleap]
      unfold IsLeap at hleap
      omega

theorem daysBeforeYear_bounds (h : 1601 ≤ year) :
    365 * (year - 1601) ≤ daysBeforeYear 1601 year ∧ daysBeforeYear 1601 year ≤ 366 * (year - 1601) := by
  obtain ⟨k, rfl⟩ := Nat.exists_eq_add_of_le h
  rw [daysBeforeYear_eq]
  omega

theorem elapsedYearsToDays_eq (h₀ : 1601 ≤ year) (h : year < 34000) :
    elapsedYearsToDays (year - 1601) = daysBeforeYear 1601 year := by
  obtain ⟨k, rfl⟩ := Nat.exists_eq_add_of_le h₀
  rw [Nat.add_sub_cancel_left]
  have hleap : numberOfLeapYears k = k / 4 - k / 100 + k / 400 := by
    rw [numberOfLeapYears, sub32_of_le (by omega) (by omega), add32_of_lt (by omega)]
  rw [daysBeforeYear_eq, elapsedYearsToDays, hleap, mul32_of_lt (by omega), add32_of_lt (by omega)]
  omega

section Blocks

variable {q c f y : ℕ} (hc : c ≤ 3) (hf : f ≤ 24) (hy : y ≤ 3)

include hc hf hy

/-- The days of `q` blocks of 400 years, `c` of 100, `f` of 4, and `y` years. -/
theorem daysBeforeYear_blocks :
    daysBeforeYear 1601 (1601 + (400 * q + 100 * c + 4 * f + y)) = 146097 * q + 36524 * c + 1461 * f + 365 * y := by
  rw [daysBeforeYear_eq, show (400 * q + 100 * c + 4 * f + y) / 4 = 100 * q + 25 * c + f by omega,
    show (400 * q + 100 * c + 4 * f + y) / 100 = 4 * q + c by omega, show (400 * q + 100 * c + 4 * f + y) / 400 = q by omega]
  omega

/-- The last year of a block of four is a leap year, unless it is that of a century other than the fourth. -/
theorem yearLength_blocks :
    yearLength (1601 + (400 * q + 100 * c + 4 * f + y)) = if y = 3 ∧ (f < 24 ∨ c = 3) then 366 else 365 := by
  unfold yearLength
  refine if_congr ?_ rfl rfl
  unfold IsLeap
  omega

end Blocks

/-- `ElapsedDaysToYears` counts whole blocks and years. -/
theorem elapsedDaysToYears_blocks {d : ℕ} (h : d < 11000000) :
    ∃ q c f y, elapsedDaysToYears d = 400 * q + 100 * c + 4 * f + y ∧ c ≤ 3 ∧ f ≤ 24 ∧ y ≤ 3 ∧
      146097 * q + 36524 * c + 1461 * f + 365 * y ≤ d ∧
      d < 146097 * q + 36524 * c + 1461 * f + 365 * y + if y = 3 ∧ (f < 24 ∨ c = 3) then 366 else 365 := by
  obtain ⟨q, hq⟩ : ∃ q, q = d / 146097 := ⟨_, rfl⟩
  obtain ⟨r, hr⟩ : ∃ r, r = d - q * 146097 := ⟨_, rfl⟩
  obtain ⟨c, hc⟩ : ∃ c, c = (r * 100 + 75) / 3652425 := ⟨_, rfl⟩
  obtain ⟨r₁, hr₁⟩ : ∃ r₁, r₁ = r - c * 36524 := ⟨_, rfl⟩
  obtain ⟨f, hf⟩ : ∃ f, f = r₁ / 1461 := ⟨_, rfl⟩
  obtain ⟨r₂, hr₂⟩ : ∃ r₂, r₂ = r₁ - f * 1461 := ⟨_, rfl⟩
  obtain ⟨y, hy⟩ : ∃ y, y = (r₂ * 100 + 75) / 36525 := ⟨_, rfl⟩
  have h₄₀₀ : sub32 d (mul32 q 146097) = r := by
    rw [mul32_of_lt (by omega), sub32_of_le (by omega) (by omega), hr]
  have h₁₀₀ : add32 (mul32 r 100) 75 / 3652425 = c := by
    rw [mul32_of_lt (by omega), add32_of_lt (by omega), hc]
  have h₁₀₀' : sub32 r (mul32 c 36524) = r₁ := by
    rw [mul32_of_lt (by omega), sub32_of_le (by omega) (by omega), hr₁]
  have h₄ : sub32 r₁ (mul32 f 1461) = r₂ := by
    rw [mul32_of_lt (by omega), sub32_of_le (by omega) (by omega), hr₂]
  have h₁ : add32 (mul32 r₂ 100) 75 / 36525 = y := by
    rw [mul32_of_lt (by omega), add32_of_lt (by omega), hy]
  refine ⟨q, c, f, y, ?_, by omega, by omega, by omega, by omega, ?_⟩
  · simp only [elapsedDaysToYears, ← hq, h₄₀₀, h₁₀₀, h₁₀₀', ← hf, h₄, h₁]
    simp only [add32, mul32]
    omega
  · clear h₄₀₀ h₁₀₀ h₁₀₀' h₄ h₁
    split <;> omega

/-- **The year of a day.** -/
theorem elapsedDaysToYears_spec {d : ℕ} (h : d < 11000000) :
    elapsedDaysToYears d < 31000 ∧ daysBeforeYear 1601 (1601 + elapsedDaysToYears d) ≤ d ∧
      d < daysBeforeYear 1601 (1601 + elapsedDaysToYears d) + yearLength (1601 + elapsedDaysToYears d) := by
  obtain ⟨q, c, f, y, heq, hc, hf, hy, hle, hlt⟩ := elapsedDaysToYears_blocks h
  rw [heq, daysBeforeYear_blocks hc hf hy, yearLength_blocks hc hf hy]
  exact ⟨by omega, hle, hlt⟩

/-! ### Months -/

/-- The length of February. -/
def february (year : ℕ) : ℕ := if IsLeap year then 29 else 28

theorem yearLength_eq (year : ℕ) : yearLength year = 337 + february year := by
  unfold yearLength february
  split <;> rfl

theorem yearLength_le (year : ℕ) : yearLength year ≤ 366 := by
  unfold yearLength
  split <;> decide

theorem daysPrecedingMonth_at (year : ℕ) (h : month ≤ 12) :
    (daysPrecedingMonth (february year))[month]? = some (daysBeforeMonth year (month + 1)) := by
  have hsum : daysBeforeMonth year (month + 1) = ∑ m ∈ Finset.Ico 1 (month + 1), monthLength year m := rfl
  rw [hsum]
  interval_cases month <;> simp only [Finset.sum_Ico_succ_top, Nat.one_le_ofNat, monthLength] <;> rfl

theorem readTable_daysPrecedingMonth (year : ℕ) (h : month ≤ 12) :
    readTable (daysPrecedingMonth (february year)) month = .ok (daysBeforeMonth year (month + 1)) := by
  rw [readTable, daysPrecedingMonth_at year h]

/-- Every month of the table has begun on its day and has not ended. -/
theorem dayToMonth_at (year : ℕ) : ∀ p ∈ (dayToMonth (february year)).zipIdx, p.1 < 12 ∧
    (daysPrecedingMonth (february year)).getD p.1 0 ≤ p.2 ∧ p.2 < (daysPrecedingMonth (february year)).getD (p.1 + 1) 0 := by
  unfold february
  split <;> decide +kernel

theorem length_dayToMonth (f : ℕ) : (dayToMonth f).length = 337 + f := by
  simp only [dayToMonth, List.length_append, List.length_replicate]
  omega

/-- **The month of a day of the year.** -/
theorem readTable_dayToMonth (year : ℕ) {r : ℕ} (h : r < yearLength year) :
    ∃ m < 12, readTable (dayToMonth (february year)) r = .ok m ∧ daysBeforeMonth year (m + 1) ≤ r ∧
      r < daysBeforeMonth year (m + 1) + monthLength year (m + 1) := by
  obtain ⟨m, hat⟩ : ∃ m, (dayToMonth (february year))[r]? = some m :=
    ⟨_, List.getElem?_eq_getElem (by rwa [length_dayToMonth, ← yearLength_eq])⟩
  obtain ⟨hm, hle, hlt⟩ := dayToMonth_at year (m, r) (List.mk_mem_zipIdx_iff_getElem?.mpr hat)
  simp only at hm hle hlt
  rw [List.getD_eq_getElem?_getD, daysPrecedingMonth_at year (by omega), Option.getD_some] at hle hlt
  rw [daysBeforeMonth_succ year (by omega)] at hlt
  exact ⟨m, hm, by rw [readTable, hat], hle, hlt⟩

theorem table_of_leap (h : IsLeap years ↔ IsLeap year) (table : ℕ → List ℕ) :
    (if isLeapYear years then table 29 else table 28) = table (february year) := by
  unfold february
  by_cases hleap : IsLeap year
  · rw [if_pos hleap, if_pos ((isLeapYear_iff years).mpr (h.mpr hleap))]
  · rw [if_neg hleap, if_neg (fun hl => hleap (h.mp ((isLeapYear_iff years).mp hl)))]

theorem dayToMonth_of_leap (h : IsLeap years ↔ IsLeap year) :
    (if isLeapYear years then leapYearDayToMonth else normalYearDayToMonth) = dayToMonth (february year) :=
  table_of_leap h dayToMonth

theorem daysPrecedingMonth_of_leap (h : IsLeap years ↔ IsLeap year) :
    (if isLeapYear years then leapYearDaysPrecedingMonth else normalYearDaysPrecedingMonth) = daysPrecedingMonth (february year) :=
  table_of_leap h daysPrecedingMonth

theorem maxDaysInMonth_eq (year : ℕ) (h : month < 12) : maxDaysInMonth year month = .ok (monthLength year (month + 1)) := by
  simp only [maxDaysInMonth, leapYearDaysPrecedingMonth, normalYearDaysPrecedingMonth, table_of_leap Iff.rfl,
    readTable_daysPrecedingMonth year h, readTable_daysPrecedingMonth year h.le,
      daysBeforeMonth_succ year (show 1 ≤ month + 1 by omega),
    bind, Except.bind, pure, Except.pure]
  congr 1
  omega

theorem isLeap_1600 (h : 1600 ≤ year) : IsLeap (year - 1600) ↔ IsLeap year := by
  unfold IsLeap
  omega

/-! ### What the fields say -/

/-- The 100ns steps of a day. -/
def ticksPerDay : ℤ := 864000000000

/-- **The fields of a time**: the date and the weekday so many days after Monday, January 1st, 1601, and the
time of day in milliseconds. -/
structure TimeFields.Describes (f : TimeFields) (time : ℤ) : Prop where
  year : f.year = (dateAfter 1601 (time / ticksPerDay).toNat).year
  month : f.month = (dateAfter 1601 (time / ticksPerDay).toNat).month
  day : f.day = (dateAfter 1601 (time / ticksPerDay).toNat).day
  weekday : f.weekday = weekdayAfter 1 (time / ticksPerDay).toNat
  hour : 0 ≤ f.hour ∧ f.hour < 24
  minute : 0 ≤ f.minute ∧ f.minute < 60
  second : 0 ≤ f.second ∧ f.second < 60
  milliseconds : 0 ≤ f.milliseconds ∧ f.milliseconds < 1000
  timeOfDay : ((f.hour * 60 + f.minute) * 60 + f.second) * 1000 + f.milliseconds = time % ticksPerDay / 10000

/-- The date in the fields. -/
def TimeFields.date (f : TimeFields) : Date := ⟨f.year.toNat, f.month.toNat, f.day.toNat⟩

/-- Fields that say a date from 1601 on with its weekday, and a time of day. -/
structure TimeFields.WellFormed (f : TimeFields) : Prop where
  year : 1601 ≤ f.year
  month : 1 ≤ f.month ∧ f.month ≤ 12
  day : 1 ≤ f.day ∧ f.day ≤ monthLength f.year.toNat f.month.toNat
  hour : 0 ≤ f.hour ∧ f.hour < 24
  minute : 0 ≤ f.minute ∧ f.minute < 60
  second : 0 ≤ f.second ∧ f.second < 60
  milliseconds : 0 ≤ f.milliseconds ∧ f.milliseconds < 1000
  weekday : f.weekday = weekdayAfter 1 (f.date.number 1601)

/-- The time that the fields say. -/
def TimeFields.time (f : TimeFields) : ℤ :=
  f.date.number 1601 * ticksPerDay + (((f.hour * 60 + f.minute) * 60 + f.second) * 1000 + f.milliseconds) * 10000

theorem TimeFields.Describes.unique {f' : TimeFields} {time : ℤ} (h : f.Describes time) (h' : f'.Describes time) : f = f' := by
  obtain ⟨year, month, day, hour, minute, second, milliseconds, weekday⟩ := f
  obtain ⟨year', month', day', hour', minute', second', milliseconds', weekday'⟩ := f'
  obtain ⟨hy, hm, hd, hw, -, hn, hs, hl, ht⟩ := h
  obtain ⟨hy', hm', hd', hw', -, hn', hs', hl', ht'⟩ := h'
  simp only at *
  rw [TimeFields.mk.injEq]
  refine ⟨by omega, by omega, by omega, ?_, ?_, ?_, ?_, by omega⟩
  all_goals omega

theorem TimeFields.WellFormed.valid (h : f.WellFormed) : f.date.Valid ∧ 1601 ≤ f.date.year := by
  have hy := h.year
  have hm := h.month
  have hd := h.day
  refine ⟨⟨?_, ?_, ?_, ?_⟩, ?_⟩ <;> simp only [TimeFields.date] <;> omega

theorem TimeFields.WellFormed.time_nonneg (h : f.WellFormed) : 0 ≤ f.time := by
  have hh := h.hour
  have hn := h.minute
  have hs := h.second
  have hl := h.milliseconds
  unfold TimeFields.time ticksPerDay
  omega

theorem TimeFields.WellFormed.describes (h : f.WellFormed) : f.Describes f.time := by
  obtain ⟨hvalid, hbase⟩ := h.valid
  have hh := h.hour
  have hn := h.minute
  have hs := h.second
  have hl := h.milliseconds
  have hdays : f.time / ticksPerDay = f.date.number 1601 := by
    unfold TimeFields.time ticksPerDay
    omega
  have hrest : f.time % ticksPerDay / 10000 = ((f.hour * 60 + f.minute) * 60 + f.second) * 1000 + f.milliseconds := by
    unfold TimeFields.time ticksPerDay
    omega
  have hy := h.year
  have hm := h.month
  have hd := h.day
  refine ⟨?_, ?_, ?_, by rw [hdays]; exact h.weekday, hh, hn, hs, hl, hrest.symm⟩
  all_goals rw [hdays, Int.toNat_natCast, ← hvalid.eq_dateAfter hbase, TimeFields.date, Int.toNat_of_nonneg (by omega)]

/-- The fields of a time are well formed and say the time in whole milliseconds. -/
theorem TimeFields.Describes.wellFormed {time : ℤ} (h : f.Describes time) (h₀ : 0 ≤ time) :
    f.WellFormed ∧ f.time = time - time % 10000 := by
  obtain ⟨n, hn⟩ : ∃ n : ℕ, time / ticksPerDay = n := ⟨(time / ticksPerDay).toNat, by
    rw [Int.toNat_of_nonneg (Int.ediv_nonneg h₀ (by decide))]⟩
  obtain ⟨hy, hm, hd, hw, hh, hmin, hs, hl, ht⟩ := h
  rw [hn, Int.toNat_natCast] at hy hm hd hw
  have hdate : f.date = dateAfter 1601 n := by
    rw [TimeFields.date, hy, hm, hd]
    rfl
  obtain ⟨hvalid, hbase⟩ := dateAfter_valid 1601 n
  have hnumber : f.date.number 1601 = n := by rw [hdate, number_dateAfter]
  have h₁ := hvalid.month_pos
  have h₂ := hvalid.month_le
  have h₃ := hvalid.day_pos
  have h₄ := hvalid.day_le
  refine ⟨⟨by omega, by omega, ⟨by omega, ?_⟩, hh, hmin, hs, hl, by rw [hnumber, hw]⟩, ?_⟩
  · rw [hy, hm, hd, Int.toNat_natCast, Int.toNat_natCast]
    exact_mod_cast h₄
  · rw [TimeFields.time, hnumber]
    unfold ticksPerDay at hn ht ⊢
    omega

/-! ### Conversion -/

/-- What `RtlExtendedMagicDivide` computes. -/
def MagicDivides (magicDivide : ℤ → ℕ → ℕ → ℤ) : Prop :=
  ∀ (n : ℤ) (m s : ℕ), 0 ≤ n → n < 9223372036854775808 → m < 2 ^ 64 → s < 64 → magicDivide n m s = n * m / 2 ^ (64 + s)

theorem shiftRight_eq (n cl : ℕ) : shiftRight n cl = n / 2 ^ cl := by
  fun_induction shiftRight n cl with
  | case1 => rfl
  | case2 n cl h ih => rw [ih, Nat.div_div_eq_div_mul, ← pow_add, Nat.add_sub_cancel' (by omega)]

/-- The carry of column 1 and columns 2 and 3 are the upper half of a product. -/
theorem columns_eq (a b c d : ℕ) : d + c / 4294967296 + b / 4294967296 + ((c % 4294967296 + a / 4294967296) / 4294967296 +
    ((c % 4294967296 + a / 4294967296) % 4294967296 + b % 4294967296) / 4294967296) =
      (d * 2 ^ 64 + (b + c) * 4294967296 + a) / 2 ^ 64 := by
  omega

theorem rtlExtendedMagicDivide_divides : MagicDivides rtlExtendedMagicDivide := by
  intro n m s h₀ h hm hs
  lift n to ℕ using h₀
  have hsplit : m / 4294967296 * (n / 4294967296) * 2 ^ 64 + (m % 4294967296 * (n / 4294967296) +
      m / 4294967296 * (n % 4294967296)) * 4294967296 + m % 4294967296 * (n % 4294967296) = n * m := by
    nth_rewrite 5 [← Nat.div_add_mod n 4294967296]
    nth_rewrite 5 [← Nat.div_add_mod m 4294967296]
    ring
  have hhigh : n * m / 2 ^ 64 < 2 ^ 63 :=
    Nat.div_lt_of_lt_mul ((Nat.mul_lt_mul'' (show n < 2 ^ 63 by omega) hm).trans_eq (Nat.mul_comm _ _))
  have hresult := (Nat.div_le_self (n * m / 2 ^ 64) (2 ^ s)).trans_lt hhigh
  simp only [rtlExtendedMagicDivide, Int.natAbs_natCast, u32_of_lt (show n / 4294967296 < 4294967296 by omega),
    u32_of_lt (show m / 4294967296 < 4294967296 by omega)]
  rw [if_neg (by omega), shiftRight_eq, Nat.mod_eq_of_lt (show s < 256 by omega)]
  simp only [u32, add32]
  rw [columns_eq, hsplit, Nat.mod_eq_of_lt (by omega), wrap64_of_lt (by linarith) (by exact_mod_cast hresult),
    Nat.div_div_eq_div_mul, ← pow_add]
  push_cast
  rfl

section Convert

variable {magicDivide : ℤ → ℕ → ℕ → ℤ} (hmagic : MagicDivides magicDivide)

include hmagic

theorem timeToDaysAndFraction_eq {time : ℤ} (h₀ : 0 ≤ time) (h : time < 9223372036854775808) :
    timeToDaysAndFraction magicDivide time = ((time / ticksPerDay).toNat, (time % ticksPerDay / 10000).toNat) := by
  have hms : magicDivide time magic10000 shift10000 = time / 10000 := by
    rw [hmagic _ _ _ h₀ h (by decide) (by decide), div_10000 h₀ h]
  have hdays : magicDivide (time / 10000) magic86400000 shift86400000 = time / ticksPerDay := by
    rw [hmagic _ _ _ (by omega) (by omega) (by decide) (by decide), div_86400000 (by omega) (by omega)]
    unfold ticksPerDay
    omega
  have hlow : lowPart (time / ticksPerDay) = (time / ticksPerDay).toNat := by
    unfold lowPart ticksPerDay
    omega
  rw [timeToDaysAndFraction]
  simp only [hms, hdays, hlow]
  rw [convertDaysToMilliseconds_of_lt (by unfold ticksPerDay; omega), wrap64_of_lt]
  · rw [Prod.mk.injEq]
    refine ⟨rfl, ?_⟩
    unfold lowPart ticksPerDay
    omega
  · unfold ticksPerDay
    omega
  · unfold ticksPerDay
    omega

omit hmagic in
theorem dateAfter_parts {d : ℕ} (h : d < 11000000) :
    ∃ year m r, elapsedDaysToYears d = year - 1601 ∧ 1601 ≤ year ∧ year < 32601 ∧ d = daysBeforeYear 1601 year + r ∧
      readTable (dayToMonth (february year)) r = .ok m ∧ m < 12 ∧ daysBeforeMonth year (m + 1) ≤ r ∧ r < 366 ∧
      dateAfter 1601 d = ⟨year, m + 1, r - daysBeforeMonth year (m + 1) + 1⟩ := by
  obtain ⟨hyears, hle, hlt⟩ := elapsedDaysToYears_spec h
  obtain ⟨year, hyear⟩ : ∃ year, year = 1601 + elapsedDaysToYears d := ⟨_, rfl⟩
  rw [← hyear] at hle hlt
  obtain ⟨r, rfl⟩ := Nat.exists_eq_add_of_le hle
  obtain ⟨m, hm, hmonth, hmle, hmlt⟩ := readTable_dayToMonth year (show r < yearLength year by omega)
  have hlength := yearLength_le year
  have hvalid : Date.Valid ⟨year, m + 1, r - daysBeforeMonth year (m + 1) + 1⟩ := by
    refine ⟨?_, ?_, ?_, ?_⟩ <;> simp only <;> omega
  have hnumber : Date.number 1601 ⟨year, m + 1, r - daysBeforeMonth year (m + 1) + 1⟩ = daysBeforeYear 1601 year + r := by
    simp only [Date.number]
    omega
  refine ⟨year, m, r, by omega, by omega, by omega, rfl, hmonth, hm, hmle, by omega, ?_⟩
  rw [← hnumber]
  exact (hvalid.eq_dateAfter (show 1601 ≤ year by omega)).symm

/-- The fields of a date, a weekday and a time of day. -/
def fieldsOf (date : Date) (weekday ms : ℕ) : TimeFields :=
  ⟨date.year, date.month, date.day, ms / 3600000, ms / 60000 % 60, ms / 1000 % 60, ms % 1000, weekday⟩

theorem rtlTimeToTimeFields_eq {time : ℤ} (h₀ : 0 ≤ time) (h : time < 9223372036854775808) :
    rtlTimeToTimeFields magicDivide time = .ok (fieldsOf (dateAfter 1601 (time / ticksPerDay).toNat)
      (weekdayAfter 1 (time / ticksPerDay).toNat) (time % ticksPerDay / 10000).toNat) := by
  rw [rtlTimeToTimeFields, timeToDaysAndFraction_eq hmagic h₀ h]
  have hd : (time / ticksPerDay).toNat < 11000000 := by
    unfold ticksPerDay
    omega
  have hms : (time % ticksPerDay / 10000).toNat < 86400000 := by
    unfold ticksPerDay
    omega
  generalize (time / ticksPerDay).toNat = d at hd
  generalize (time % ticksPerDay / 10000).toNat = ms at hms
  obtain ⟨year, m, r, hyears, hbase, hyear, hr, hmonth, hm, hmle, hday, hdate⟩ := dateAfter_parts hd
  have hweek : add32 d weekdayOf1601 % 7 = weekdayAfter 1 d := by
    rw [weekdayAfter_eq (by decide), weekdayOf1601, add32_of_lt (by omega)]
  have h1600 : 1600 ≤ year := by omega
  have h34000 : year < 34000 := by omega
  have hleap : add32 (year - 1601) 1 = year - 1600 := by
    rw [add32_of_lt (by omega)]
    omega
  have hyear' : add32 (year - 1601) 1601 = year := by
    rw [add32_of_lt (by omega)]
    omega
  have hdays : sub32 d (daysBeforeYear 1601 year) = r := by
    rw [sub32_of_le (by omega) (by omega)]
    omega
  simp only [hyears, hweek, elapsedYearsToDays_eq hbase h34000, hdays, hleap, hyear', dayToMonth_of_leap (isLeap_1600 h1600),
    daysPrecedingMonth_of_leap (isLeap_1600 h1600), hmonth, readTable_daysPrecedingMonth year hm.le, ok_bind, pure, Except.pure]
  rw [sub32_of_le (by omega) hmle, add32_of_lt (by omega), add32_of_lt (by omega), hdate, fieldsOf]
  simp only [Except.ok.injEq, TimeFields.mk.injEq]
  refine ⟨?_, ?_, ?_, ?_, ?_, ?_, ?_, ?_⟩
  all_goals rw [cshort_of_lt (by omega)]
  all_goals omega

theorem rtlTimeToTimeFields_describes {time : ℤ} (h₀ : 0 ≤ time) (h : time < 9223372036854775808) :
    ∃ f, rtlTimeToTimeFields magicDivide time = .ok f ∧ f.Describes time := by
  refine ⟨_, rtlTimeToTimeFields_eq hmagic h₀ h, rfl, rfl, rfl, rfl, ?_, ?_, ?_, ?_, ?_⟩
  all_goals simp only [fieldsOf]
  all_goals unfold ticksPerDay
  all_goals omega

omit hmagic in
theorem daysAndFractionToTime_eq {days ms : ℕ} (hms : ms < 86400000)
    (h : days * ticksPerDay + ms * 10000 < 9223372036854775808) :
    daysAndFractionToTime days ms = days * ticksPerDay + ms * 10000 := by
  unfold ticksPerDay at h ⊢
  have hsum : wrap64 ((days : ℤ) * 86400000 + ms) = days * 86400000 + ms := wrap64_of_lt (by omega) (by omega)
  rw [daysAndFractionToTime, convertDaysToMilliseconds_of_lt (by omega), hsum, wrap64_of_lt (by omega) (by omega)]
  omega

omit hmagic in
theorem rtlTimeFieldsToTime_of_valid {year month day hour minute second ms : ℕ} (hvalid : Date.Valid ⟨year, month, day⟩)
    (hbase : 1601 ≤ year) (hyear : year < 34000) (hh : hour < 24) (hn : minute < 60) (hs : second < 60) (hms : ms < 1000)
    (weekday : ℤ) :
    rtlTimeFieldsToTime ⟨year, month, day, hour, minute, second, ms, weekday⟩ =
      .ok (some (daysAndFractionToTime (Date.number 1601 ⟨year, month, day⟩)
        (((hour * 60 + minute) * 60 + second) * 1000 + ms))) := by
  obtain ⟨m, rfl⟩ : ∃ m, month = m + 1 := Nat.exists_eq_add_of_le' hvalid.month_pos
  obtain ⟨d, rfl⟩ : ∃ d, day = d + 1 := Nat.exists_eq_add_of_le' hvalid.day_pos
  have hm : m + 1 ≤ 12 := hvalid.month_le
  have hd : d + 1 ≤ monthLength year (m + 1) := hvalid.day_le
  have hlength := monthLength_le year (m + 1)
  have hdays : daysBeforeMonth year (m + 1) ≤ 366 := hvalid.le_yearLength.trans (yearLength_le _)
  have hyears := daysBeforeYear_bounds hbase
  have h1600 : 1600 ≤ year := by omega
  have hleap : sub32 year 1600 = year - 1600 := sub32_of_le (by omega) (by omega)
  have hyear' : sub32 year 1601 = year - 1601 := sub32_of_le (by omega) hbase
  have hms' : add32 (mul32 (add32 (mul32 (add32 (mul32 hour 60) minute) 60) second) 1000) ms =
      ((hour * 60 + minute) * 60 + second) * 1000 + ms := by
    simp only [add32, mul32]
    omega
  have hdays' : add32 (add32 (daysBeforeYear 1601 year) (daysBeforeMonth year (m + 1))) d =
    Date.number 1601 ⟨year, m + 1, d + 1⟩ := by
    simp only [add32, Date.number]
    omega
  have hmonth : lowPart (((m + 1 : ℕ) : ℤ) - 1) = m := by
    unfold lowPart
    omega
  have hday : lowPart (((d + 1 : ℕ) : ℤ) - 1) = d := by
    unfold lowPart
    omega
  simp only [rtlTimeFieldsToTime, hmonth, hday, lowPart_of_lt (show year < 4294967296 by omega),
    lowPart_of_lt (show hour < 4294967296 by omega), lowPart_of_lt (show minute < 4294967296 by omega),
    lowPart_of_lt (show second < 4294967296 by omega), lowPart_of_lt (show ms < 4294967296 by omega)]
  rw [if_neg (by omega), maxDaysInMonth_eq _ (by omega)]
  rw [ok_bind]
  rw [cshort_of_lt (by omega), if_neg (by omega)]
  simp only [hleap, daysPrecedingMonth_of_leap (isLeap_1600 h1600),
    readTable_daysPrecedingMonth year (show m ≤ 12 by omega), hyear', elapsedYearsToDays_eq hbase hyear, hdays',
    hms', ok_bind, pure, Except.pure]

omit hmagic in
theorem rtlTimeFieldsToTime_eq {f : TimeFields} (hf : f.WellFormed) (h : f.time < 9223372036854775808) :
    rtlTimeFieldsToTime f = .ok (some f.time) := by
  obtain ⟨hvalid, hbase⟩ := hf.valid
  obtain ⟨hy, hm, hd, hh, hn, hs, hl, -⟩ := hf
  obtain ⟨year, month, day, hour, minute, second, milliseconds, weekday⟩ := f
  simp only [TimeFields.date] at hy hm hd hh hn hs hl hvalid hbase
  lift year to ℕ using by omega
  lift month to ℕ using by omega
  lift day to ℕ using by omega
  lift hour to ℕ using hh.1
  lift minute to ℕ using hn.1
  lift second to ℕ using hs.1
  lift milliseconds to ℕ using hl.1
  simp only [TimeFields.time, TimeFields.date, Int.toNat_natCast] at hvalid hbase h ⊢
  have hyear : year < 34000 := by
    have hnumber : daysBeforeYear 1601 year ≤ Date.number 1601 ⟨year, month, day⟩ := by
      simp only [Date.number]
      omega
    have hyears := daysBeforeYear_bounds hbase
    unfold ticksPerDay at h
    omega
  rw [rtlTimeFieldsToTime_of_valid hvalid hbase hyear (by omega) (by omega) (by omega) (by omega),
    daysAndFractionToTime_eq (by omega) (by push_cast; exact h)]
  push_cast
  rfl

/-- **Time conversion is exact.** The fields of a time describe it and are taken back to it, in whole milliseconds;
and well-formed fields of a time in range are taken to a time with the same fields. -/
theorem timeConversion_exact :
    (∀ time, 0 ≤ time → time < 9223372036854775808 → ∃ f, rtlTimeToTimeFields magicDivide time = .ok f ∧ f.Describes time ∧
      rtlTimeFieldsToTime f = .ok (some (time - time % 10000))) ∧
    ∀ f : TimeFields, f.WellFormed → f.time < 9223372036854775808 →
      ∃ time, rtlTimeFieldsToTime f = .ok (some time) ∧ rtlTimeToTimeFields magicDivide time = .ok f := by
  constructor
  · intro time h₀ h
    obtain ⟨f, hfields, hdesc⟩ := rtlTimeToTimeFields_describes hmagic h₀ h
    obtain ⟨hwf, htime⟩ := hdesc.wellFormed h₀
    refine ⟨f, hfields, hdesc, ?_⟩
    rw [rtlTimeFieldsToTime_eq hwf (by omega), htime]
  · intro f hwf h
    obtain ⟨f', hfields, hdesc⟩ := rtlTimeToTimeFields_describes hmagic hwf.time_nonneg h
    refine ⟨f.time, rtlTimeFieldsToTime_eq hwf h, ?_⟩
    rw [hfields, hdesc.unique hwf.describes]

omit hmagic in
/-- The last millisecond of Sunday, February 29th, 1604, and the time it is. -/
theorem timeConversion_exact_1604 :
    (TimeFields.mk 1604 2 29 23 59 59 999 0).WellFormed ∧
    ∃ time, rtlTimeFieldsToTime ⟨1604, 2, 29, 23, 59, 59, 999, 0⟩ = .ok (some time) ∧
      rtlTimeToTimeFields rtlExtendedMagicDivide time = .ok ⟨1604, 2, 29, 23, 59, 59, 999, 0⟩ := by
  have hwf : (TimeFields.mk 1604 2 29 23 59 59 999 0).WellFormed := by
    refine ⟨?_, ?_, ?_, ?_, ?_, ?_, ?_, ?_⟩ <;> decide +kernel
  exact ⟨hwf, (timeConversion_exact rtlExtendedMagicDivide_divides).2 _ hwf (by decide +kernel)⟩

end Convert

end Nt365.Rtl
