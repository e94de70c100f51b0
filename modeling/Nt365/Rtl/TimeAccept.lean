import Nt365.Rtl.TimeExact
import Mathlib.Data.List.Lex

/-!
# The fields that are taken

`RtlTimeFieldsToTime` (`RTL/TIME.C`) casts the year to `ULONG` before it is compared with 1601, and does not check that the
time fits. So it takes every record whose other fields are in range, unless the year is one of 0 to 1600: a negative year
passes for a large one, and from the year 30828 on the product wraps. It takes exactly the dates from 1601 on whose time
fits if and only if the record has neither (`rtlTimeFieldsToTime_accepts_iff`), and then the times are in the order of the
fields.
-/

namespace Nt365.Rtl

open Nt365.Library Nt365.Library.Calendar

namespace TimeFields

/-- The members are signed 16-bit numbers. -/
structure Short (f : TimeFields) : Prop where
  year : -32768 ≤ f.year ∧ f.year ≤ 32767
  month : -32768 ≤ f.month ∧ f.month ≤ 32767
  day : -32768 ≤ f.day ∧ f.day ≤ 32767
  hour : -32768 ≤ f.hour ∧ f.hour ≤ 32767
  minute : -32768 ≤ f.minute ∧ f.minute ≤ 32767
  second : -32768 ≤ f.second ∧ f.second ≤ 32767
  milliseconds : -32768 ≤ f.milliseconds ∧ f.milliseconds ≤ 32767

/-- The fields but the year are in range, in a year of the calendar. -/
structure InRange (f : TimeFields) (year : ℕ) : Prop where
  month : 1 ≤ f.month ∧ f.month ≤ 12
  day : 1 ≤ f.day ∧ f.day ≤ monthLength year f.month.toNat
  hour : 0 ≤ f.hour ∧ f.hour < 24
  minute : 0 ≤ f.minute ∧ f.minute < 60
  second : 0 ≤ f.second ∧ f.second < 60
  milliseconds : 0 ≤ f.milliseconds ∧ f.milliseconds < 1000

/-- The fields say a date from 1601 on, and a time of day; the weekday is not looked at. -/
def Proper (f : TimeFields) : Prop := 1601 ≤ f.year ∧ f.InRange f.year.toNat

/-- The fields in their order. -/
def key (f : TimeFields) : List ℤ := [f.year, f.month, f.day, f.hour, f.minute, f.second, f.milliseconds]

variable {f g : TimeFields} {time time' : ℤ}

theorem Proper.wellFormed (h : f.Proper) : ({ f with weekday := weekdayAfter 1 (f.date.number 1601) } : TimeFields).WellFormed :=
  ⟨h.1, h.2.month, h.2.day, h.2.hour, h.2.minute, h.2.second, h.2.milliseconds, rfl⟩

/-- The weekday is ignored. -/
theorem Proper.rtlTimeFieldsToTime_eq (h : f.Proper) (hlt : f.time < 9223372036854775808) :
    rtlTimeFieldsToTime f = .ok (some f.time) :=
  show rtlTimeFieldsToTime { f with weekday := weekdayAfter 1 (f.date.number 1601) } =
    _ from Rtl.rtlTimeFieldsToTime_eq h.wellFormed hlt

theorem Proper.time_nonneg (h : f.Proper) : 0 ≤ f.time := h.wellFormed.time_nonneg

/-- **The times are in the order of the fields.** -/
theorem Proper.time_lt (hf : f.Proper) (hg : g.Proper) (hkey : f.key < g.key) : f.time < g.time := by
  obtain ⟨hvalid, hbase⟩ := hf.wellFormed.valid
  obtain ⟨hvalid', -⟩ := hg.wellFormed.valid
  have hy := hf.1
  have hm := hf.2.month
  have hd := hf.2.day
  have hh := hf.2.hour
  have hn := hf.2.minute
  have hs := hf.2.second
  have hl := hf.2.milliseconds
  have hy' := hg.1
  have hm' := hg.2.month
  have hd' := hg.2.day
  have hh' := hg.2.hour
  have hn' := hg.2.minute
  have hs' := hg.2.second
  have hl' := hg.2.milliseconds
  simp only [key, List.cons_lt_cons_iff, List.not_lt_nil, and_false, or_false] at hkey
  have horder : f.date.Before g.date ∨ f.date = g.date ∧
      ((f.hour * 60 + f.minute) * 60 + f.second) * 1000 + f.milliseconds <
        ((g.hour * 60 + g.minute) * 60 + g.second) * 1000 + g.milliseconds := by
    simp only [Date.Before, date, Date.mk.injEq]
    omega
  unfold time ticksPerDay
  rcases horder with hbefore | ⟨hdate, hlt⟩
  · have hnumber := hvalid.number_lt hvalid' hbase hbefore
    change f.date.number 1601 < g.date.number 1601 at hnumber
    omega
  · rw [hdate]
    omega

end TimeFields

/-- **The fields that are taken**: those in range of a year that is not one of 0 to 1600, as a number of 32 bits. -/
theorem rtlTimeFieldsToTime_spec {f : TimeFields} (hf : f.Short) :
    ∃ r, rtlTimeFieldsToTime f = .ok r ∧ (r.isSome ↔ f.InRange (lowPart f.year) ∧ (f.year < 0 ∨ 1601 ≤ f.year)) := by
  have hy := hf.year
  have hm := hf.month
  have hd := hf.day
  have hh := hf.hour
  have hn := hf.minute
  have hs := hf.second
  have hl := hf.milliseconds
  unfold rtlTimeFieldsToTime
  dsimp only
  by_cases hfirst : f.month < 1 ∨ f.day < 1 ∨ lowPart f.year < 1601 ∨ lowPart (f.month - 1) > 11
  · rw [if_pos hfirst]
    refine ⟨none, rfl, iff_of_false Bool.false_ne_true ?_⟩
    rintro ⟨hrange, hyear⟩
    have hmonth := hrange.month
    have hday := hrange.day
    unfold lowPart at hfirst
    omega
  · have hmonth : lowPart (f.month - 1) < 12 := by omega
    have hnext : lowPart (f.month - 1) + 1 = f.month.toNat := by
      unfold lowPart at hfirst ⊢
      omega
    have hday : lowPart (f.day - 1) < 32768 := by
      unfold lowPart
      omega
    rw [if_neg hfirst, maxDaysInMonth_eq _ hmonth, ok_bind, hnext, cshort_of_lt hday]
    by_cases hsecond : (lowPart (f.day - 1) : ℤ) ≥ monthLength (lowPart f.year) f.month.toNat ∨ lowPart f.hour > 23 ∨
        lowPart f.minute > 59 ∨ lowPart f.second > 59 ∨ lowPart f.milliseconds > 999
    · rw [if_pos hsecond]
      refine ⟨none, rfl, iff_of_false Bool.false_ne_true ?_⟩
      rintro ⟨hrange, -⟩
      have hday := hrange.day
      have hhour := hrange.hour
      have hminute := hrange.minute
      have hsecond' := hrange.second
      have hmilli := hrange.milliseconds
      generalize monthLength (lowPart f.year) f.month.toNat = length at hsecond hday
      unfold lowPart at hsecond
      omega
    · have hread : readTable (if isLeapYear (sub32 (lowPart f.year) 1600) then leapYearDaysPrecedingMonth
        else normalYearDaysPrecedingMonth)
          (lowPart (f.month - 1)) = .ok (daysBeforeMonth (sub32 (lowPart f.year) 1600) (lowPart (f.month - 1) + 1)) := by
        rw [daysPrecedingMonth_of_leap Iff.rfl, readTable_daysPrecedingMonth _ hmonth.le]
      rw [if_neg hsecond, hread, ok_bind]
      refine ⟨_, rfl, iff_of_true rfl ⟨?_, ?_⟩⟩
      · have hlast : f.day ≤ monthLength (lowPart f.year) f.month.toNat := by
          generalize monthLength (lowPart f.year) f.month.toNat = length at hsecond ⊢
          unfold lowPart at hsecond
          omega
        have hclock : 0 ≤ f.hour ∧ f.hour < 24 ∧ 0 ≤ f.minute ∧ f.minute < 60 ∧ 0 ≤ f.second ∧ f.second < 60 ∧
            0 ≤ f.milliseconds ∧ f.milliseconds < 1000 := by
          generalize monthLength (lowPart f.year) f.month.toNat = length at hsecond
          unfold lowPart at hsecond
          omega
        exact ⟨by omega, ⟨by omega, hlast⟩, by omega, by omega, by omega, by omega⟩
      · unfold lowPart at hfirst
        omega

theorem rtlTimeFieldsToTime_isSome_iff {f : TimeFields} (hf : f.Short) :
    (∃ time, rtlTimeFieldsToTime f = .ok (some time)) ↔ f.InRange (lowPart f.year) ∧ (f.year < 0 ∨ 1601 ≤ f.year) := by
  obtain ⟨r, hrun, hsome⟩ := rtlTimeFieldsToTime_spec hf
  rw [hrun, ← hsome, Option.isSome_iff_exists]
  simp only [Except.ok.injEq]

/-- **The fields are taken exactly** if and only if the record has no negative year and no year past the times of 64 bits,
among fields that are in range. The times are in the order of the fields. -/
theorem rtlTimeFieldsToTime_accepts_iff (f : TimeFields) (hf : f.Short) :
    (((∃ time, rtlTimeFieldsToTime f = .ok (some time)) ↔ f.Proper ∧ f.time < 9223372036854775808) ↔
      (f.InRange (lowPart f.year) → 0 ≤ f.year ∧ (1601 ≤ f.year → f.time < 9223372036854775808))) ∧
    ∀ g : TimeFields, f.Proper → g.Proper → f.time < 9223372036854775808 → g.time < 9223372036854775808 →
      ∃ time time', rtlTimeFieldsToTime f = .ok (some time) ∧ rtlTimeFieldsToTime g = .ok (some time') ∧ 0 ≤ time ∧
        (f.key < g.key → time < time') := by
  constructor
  · have hy := hf.year
    rw [rtlTimeFieldsToTime_isSome_iff hf]
    have hlow : 0 ≤ f.year → lowPart f.year = f.year.toNat := by
      intro hnonneg
      unfold lowPart
      omega
    constructor
    · intro hexact hrange
      have hnonneg : 0 ≤ f.year := by
        by_contra hneg
        have := (hexact.mp ⟨hrange, .inl (by omega)⟩).1.1
        omega
      exact ⟨hnonneg, fun hyear => (hexact.mp ⟨hrange, .inr hyear⟩).2⟩
    · intro hholds
      constructor
      · rintro ⟨hrange, hyear⟩
        obtain ⟨hnonneg, hfits⟩ := hholds hrange
        have hyear : 1601 ≤ f.year := by omega
        exact ⟨⟨hyear, hlow hnonneg ▸ hrange⟩, hfits hyear⟩
      · rintro ⟨⟨hyear, hrange⟩, -⟩
        exact ⟨(hlow (by omega)).symm ▸ hrange, .inr hyear⟩
  · intro g hf hg hlt hlt'
    exact ⟨f.time, g.time, hf.rtlTimeFieldsToTime_eq hlt, hg.rtlTimeFieldsToTime_eq hlt', hf.time_nonneg, hf.time_lt hg⟩

/-- February 29th, 1604 is taken. -/
theorem rtlTimeFieldsToTime_accepts_1604 :
    (TimeFields.mk 1604 2 29 23 59 59 999 0).Short ∧
      ((∃ time, rtlTimeFieldsToTime ⟨1604, 2, 29, 23, 59, 59, 999, 0⟩ = .ok (some time)) ↔
        (TimeFields.mk 1604 2 29 23 59 59 999 0).Proper ∧
          (TimeFields.mk 1604 2 29 23 59 59 999 0).time < 9223372036854775808) := by
  have hshort : (TimeFields.mk 1604 2 29 23 59 59 999 0).Short := by constructor <;> decide
  exact ⟨hshort, (rtlTimeFieldsToTime_accepts_iff _ hshort).1.mpr fun _ => ⟨by decide, fun _ => by decide +kernel⟩⟩

/-- The first day of the year -1 is taken, and so is that of the year 32767, which is taken to a negative time. -/
theorem rtlTimeFieldsToTime_negative :
    (TimeFields.mk (-1) 1 1 0 0 0 0 0).Short ∧ ¬(TimeFields.mk (-1) 1 1 0 0 0 0 0).Proper ∧
      (∃ time, rtlTimeFieldsToTime ⟨-1, 1, 1, 0, 0, 0, 0, 0⟩ = .ok (some time)) ∧
      ∃ time, rtlTimeFieldsToTime ⟨32767, 1, 1, 0, 0, 0, 0, 0⟩ = .ok (some time) ∧ time < 0 := by
  refine ⟨by constructor <;> decide, fun hproper => absurd hproper.1 (by decide), ?_, ?_⟩
  · exact ⟨_, by rfl⟩
  · exact ⟨_, by rfl, by decide⟩

end Nt365.Rtl
