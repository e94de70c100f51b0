import Mathlib.Algebra.BigOperators.Intervals
import Mathlib.Algebra.Order.BigOperators.Group.Finset
import Mathlib.Data.Nat.Cast.Order.Basic

/-!
# The Gregorian calendar

Dates of the Gregorian calendar, carried on to all years. A date is followed by the next one
(`Date.next`), and so are weekdays. `Date.number` counts the days before a date from the start of a
base year, year by year and month by month; it is the number of steps to the date
(`number_dateAfter`, `Date.Valid.eq_dateAfter`).
-/

namespace Nt365.Library.Calendar

variable (year : ℕ)

def IsLeap : Prop := year % 4 = 0 ∧ (year % 100 ≠ 0 ∨ year % 400 = 0)

instance : DecidablePred IsLeap := fun year => inferInstanceAs (Decidable (year % 4 = 0 ∧ (year % 100 ≠ 0 ∨ year % 400 = 0)))

def monthLength : ℕ → ℕ
  | 2 => if IsLeap year then 29 else 28
  | 4 | 6 | 9 | 11 => 30
  | _ => 31

def yearLength : ℕ := if IsLeap year then 366 else 365

/-- A date; months and days are counted from `1`. -/
structure Date where
  year : ℕ
  month : ℕ
  day : ℕ
deriving DecidableEq

structure Date.Valid (d : Date) : Prop where
  month_pos : 1 ≤ d.month
  month_le : d.month ≤ 12
  day_pos : 1 ≤ d.day
  day_le : d.day ≤ monthLength d.year d.month

/-- The following date. -/
def Date.next (d : Date) : Date :=
  if d.day < monthLength d.year d.month then ⟨d.year, d.month, d.day + 1⟩
  else if d.month < 12 then ⟨d.year, d.month + 1, 1⟩
  else ⟨d.year + 1, 1, 1⟩

variable (base n : ℕ)

/-- The date so many days after the start of a year. -/
def dateAfter : Date := Date.next^[n] ⟨base, 1, 1⟩

/-- The weekday so many days after another. -/
def weekdayAfter (first n : ℕ) : ℕ := (fun w => (w + 1) % 7)^[n] first

theorem weekdayAfter_eq {first : ℕ} (h : first < 7) (n : ℕ) : weekdayAfter first n = (n + first) % 7 := by
  induction n with
  | zero => exact (Nat.mod_eq_of_lt (by omega)).symm ▸ by simp [weekdayAfter]
  | succ n ih =>
    rw [weekdayAfter, Function.iterate_succ_apply', ← weekdayAfter, ih]
    omega

/-! ### Counting days -/

def daysBeforeYear (base year : ℕ) : ℕ := ∑ y ∈ Finset.Ico base year, yearLength y

def daysBeforeMonth (year month : ℕ) : ℕ := ∑ m ∈ Finset.Ico 1 month, monthLength year m

/-- The days before a date, from the start of the base year. -/
def Date.number (base : ℕ) (d : Date) : ℕ := daysBeforeYear base d.year + daysBeforeMonth d.year d.month + (d.day - 1)

theorem daysBeforeYear_succ {base year : ℕ} (h : base ≤ year) :
    daysBeforeYear base (year + 1) = daysBeforeYear base year + yearLength year := Finset.sum_Ico_succ_top h _

theorem daysBeforeYear_mono {base y y' : ℕ} (h : y ≤ y') : daysBeforeYear base y ≤ daysBeforeYear base y' :=
  Finset.sum_le_sum_of_subset (Finset.Ico_subset_Ico_right h)

theorem daysBeforeMonth_succ {month : ℕ} (h : 1 ≤ month) :
    daysBeforeMonth year (month + 1) = daysBeforeMonth year month + monthLength year month := Finset.sum_Ico_succ_top h _

theorem daysBeforeMonth_mono {m m' : ℕ} (h : m ≤ m') : daysBeforeMonth year m ≤ daysBeforeMonth year m' :=
  Finset.sum_le_sum_of_subset (Finset.Ico_subset_Ico_right h)

theorem monthLength_le (year month : ℕ) : monthLength year month ≤ 31 := by
  unfold monthLength
  split <;> (try split) <;> decide

theorem monthLength_pos (year month : ℕ) : 0 < monthLength year month := by
  unfold monthLength
  split
  · split <;> omega
  all_goals omega

theorem daysBeforeMonth_thirteen : daysBeforeMonth year 13 = yearLength year := by
  simp only [daysBeforeMonth, Finset.sum_Ico_succ_top, Nat.one_le_ofNat, monthLength, yearLength]
  split <;> rfl

theorem Date.Valid.lt_yearLength {d : Date} (h : d.Valid) : daysBeforeMonth d.year d.month + (d.day - 1) < yearLength d.year := by
  have hsucc := daysBeforeMonth_succ d.year h.month_pos
  have hmono := daysBeforeMonth_mono d.year (show d.month + 1 ≤ 13 from Nat.succ_le_succ h.month_le)
  rw [daysBeforeMonth_thirteen] at hmono
  have hpos := h.day_pos
  have hle := h.day_le
  omega

theorem Date.Valid.le_yearLength {d : Date} (h : d.Valid) : daysBeforeMonth d.year d.month ≤ yearLength d.year :=
  (Nat.le_add_right _ _).trans h.lt_yearLength.le

theorem Date.Valid.next {d : Date} (h : d.Valid) : d.next.Valid := by
  unfold Date.next
  split
  · exact ⟨h.month_pos, h.month_le, Nat.le_add_left 1 _, ‹_›⟩
  · split
    · exact ⟨Nat.le_add_left 1 _, ‹_›, le_rfl, monthLength_pos _ _⟩
    · exact ⟨le_rfl, Nat.one_le_ofNat, le_rfl, monthLength_pos _ _⟩

/-- **The next date is one day later.** -/
theorem Date.Valid.number_next {d : Date} (h : d.Valid) {base : ℕ} (hbase : base ≤ d.year) :
    d.next.number base = d.number base + 1 := by
  have hpos := h.day_pos
  have hle := h.day_le
  have hmonth := daysBeforeMonth_succ d.year h.month_pos
  unfold Date.next
  split
  · simp only [Date.number]
    omega
  · split
    · simp only [Date.number, hmonth]
      omega
    · have hlast : d.month = 12 := by
        have := h.month_le
        omega
      rw [hlast, daysBeforeMonth_thirteen] at hmonth
      simp only [Date.number, daysBeforeYear_succ hbase, hlast]
      rw [show daysBeforeMonth (d.year + 1) 1 = 0 from rfl]
      rw [hlast] at hle
      have hday : d.day = monthLength d.year 12 := by
        rename_i hlt _
        rw [hlast] at hlt
        omega
      omega

theorem Date.year_le_next (d : Date) : d.year ≤ d.next.year := by
  unfold Date.next
  split
  · exact le_rfl
  · split
    · exact le_rfl
    · exact Nat.le_succ _

theorem dateAfter_succ : dateAfter base (n + 1) = (dateAfter base n).next := Function.iterate_succ_apply' ..

theorem dateAfter_valid : (dateAfter base n).Valid ∧ base ≤ (dateAfter base n).year := by
  induction n with
  | zero => exact ⟨⟨le_rfl, Nat.one_le_ofNat, le_rfl, monthLength_pos _ _⟩, le_rfl⟩
  | succ n ih =>
    rw [dateAfter_succ]
    exact ⟨ih.1.next, ih.2.trans (Date.year_le_next _)⟩

/-- So many days after the start is what the days before the date count. -/
theorem number_dateAfter : (dateAfter base n).number base = n := by
  induction n with
  | zero => simp [dateAfter, Date.number, daysBeforeYear, daysBeforeMonth]
  | succ n ih =>
    obtain ⟨hvalid, hbase⟩ := dateAfter_valid base n
    rw [dateAfter_succ, hvalid.number_next hbase, ih]

/-- A date is before another: in year, then month, then day. -/
def Date.Before (d d' : Date) :
    Prop := d.year < d'.year ∨ d.year = d'.year ∧ (d.month < d'.month ∨ d.month = d'.month ∧ d.day < d'.day)

/-- **The numbers grow** with the dates. -/
theorem Date.Valid.number_lt {d d' : Date} (h : d.Valid) (h' : d'.Valid) {base : ℕ} (hb : base ≤ d.year) (hbefore : d.Before d') :
    d.number base < d'.number base := by
  obtain ⟨year, month, day⟩ := d
  obtain ⟨year', month', day'⟩ := d'
  have hlt := h.lt_yearLength
  have hs := daysBeforeYear_succ hb
  have hm := daysBeforeMonth_succ year h.month_pos
  have hday := h.day_pos
  have hle := h.day_le
  simp only [Date.number, Date.Before] at hlt hs hm hday hle hbefore ⊢
  rcases hbefore with hyear | ⟨rfl, hmonth | ⟨rfl, hlater⟩⟩
  · have hmono : daysBeforeYear base (year + 1) ≤ daysBeforeYear base year' := daysBeforeYear_mono hyear
    omega
  · have hmono : daysBeforeMonth year (month + 1) ≤ daysBeforeMonth year month' := daysBeforeMonth_mono year hmonth
    omega
  · omega

/-- **Days have different numbers.** -/
theorem Date.Valid.eq_of_number {d d' : Date} (h : d.Valid) (h' : d'.Valid) {base : ℕ} (hb : base ≤ d.year) (hb' : base ≤ d'.year)
    (heq : d.number base = d'.number base) : d = d' := by
  have hlt : ¬d.Before d' := fun hbefore => (h.number_lt h' hb hbefore).ne heq
  have hgt : ¬d'.Before d := fun hbefore => (h'.number_lt h hb' hbefore).ne' heq
  obtain ⟨year, month, day⟩ := d
  obtain ⟨year', month', day'⟩ := d'
  simp only [Date.Before, Date.mk.injEq] at hlt hgt ⊢
  omega

/-- A date is as many days after the start of the base year as it counts. -/
theorem Date.Valid.eq_dateAfter {d : Date} (h : d.Valid) {base : ℕ} (hb : base ≤ d.year) : d = dateAfter base (d.number base) := by
  obtain ⟨hvalid, hbase⟩ := dateAfter_valid base (d.number base)
  exact h.eq_of_number hvalid hb hbase (number_dateAfter base _).symm

end Nt365.Library.Calendar
