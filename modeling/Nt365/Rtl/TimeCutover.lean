import Nt365.Rtl.TimeAccept
import Mathlib.Data.Int.CardIntervalMod

/-!
# Cutover times

`RtlCutoverTimeToSystemTime` (`RTL/TIME.C`) finds the time at which the clock is changed. A cutover record without a year
names a weekday of a month, by its number or as the last one, and recurs every year. The code finds the first such weekday
of the month from the weekday of its first day and goes on week by week, as long as `RtlTimeFieldsToTime` takes the day.

The result is the first occurrence from the current time on, or the one in the year of the current time
(`rtlCutoverTimeToSystemTime_exact`).
-/

namespace Nt365.Rtl

open Nt365.Library Nt365.Library.Calendar

/-! ### The model -/

/-- A number assigned to a `CSHORT`. -/
def toCshort (n : ℤ) : ℤ := n.bmod 65536

theorem toCshort_of_lt {n : ℤ} (h₀ : 0 ≤ n) (h : n < 32768) : toCshort n = n := by
  unfold toCshort
  rw [Int.bmod_eq_of_le] <;> omega

section Cutover

variable (magicDivide : ℤ → ℕ → ℕ → ℤ)

/-- "Keep going one week at a time": the last day that was taken. -/
def nextWeeks (working : TimeFields) (bestWeekdayDate : ℤ) : ℕ → Except Fault ℤ
  | 0 => .ok bestWeekdayDate
  | weeks + 1 => do
    let working := { working with day := toCshort (working.day + 7) }
    match ← rtlTimeFieldsToTime working with
    | none => return bestWeekdayDate
    | some scratchTime =>
      let scratch ← rtlTimeToTimeFields magicDivide scratchTime
      nextWeeks working scratch.day weeks

/-- The code from `try_next_year` on: the working fields and the time, or nothing if it returns `FALSE`. -/
def tryYear (cutover : TimeFields) (targetYear : ℤ) : Except Fault (Option (TimeFields × ℤ)) := do
  let working := { cutover with year := targetYear, day := 1, weekday := 0 }
  match ← rtlTimeFieldsToTime working with
  | none => return none
  | some scratchTime =>
    let scratch ← rtlTimeToTimeFields magicDivide scratchTime
    let day :=
      if scratch.weekday > cutover.weekday then toCshort (working.day + (7 - (scratch.weekday - cutover.weekday)))
      else if scratch.weekday < cutover.weekday then toCshort (working.day + (cutover.weekday - scratch.weekday))
      else working.day
    let best ← nextWeeks magicDivide { working with day := day } day (cutover.day - 1).toNat
    let working := { working with day := best }
    match ← rtlTimeFieldsToTime working with
    | none => return none
    | some scratchTime => return some (working, scratchTime)

/-- `RtlCutoverTimeToSystemTime`: the time, or nothing if it returns `FALSE`. -/
def rtlCutoverTimeToSystemTime (cutover : TimeFields) (current : ℤ) (thisYear : Bool) : Except Fault (Option ℤ) := do
  let now ← rtlTimeToTimeFields magicDivide current
  if cutover.year ≠ 0 then
    match ← rtlTimeFieldsToTime cutover with
    | none => return none
    | some time => if time < current then return none else return some time
  else if cutover.day > 5 ∨ cutover.day = 0 then return none
  else
    let targetYear := if thisYear = false ∧ cutover.month < now.month then toCshort (now.year + 1) else now.year
    match ← tryYear magicDivide cutover targetYear with
    | none => return none
    | some (working, scratchTime) =>
      -- `MonthMatches` is only set if `ThisYear` is not, and the second try does not look at the current time again
      if thisYear = false ∧ cutover.month = now.month ∧
          (working.day < now.day ∨ working.day = now.day ∧ scratchTime < current) then
        match ← tryYear magicDivide cutover (toCshort (targetYear + 1)) with
        | none => return none
        | some (_, scratchTime) => return some scratchTime
      else return some scratchTime

end Cutover

/-! ### The occurrences of a record -/

/-- The weekday of a date. -/
def weekdayOf (d : Date) : ℕ := weekdayAfter 1 (d.number 1601)

/-- A date is the `n`-th of its weekday in the month, or the last one if `n` is 5. -/
def IsNth (d : Date) (n : ℕ) : Prop :=
  if n = 5 then ∀ day, d.day < day → day ≤ monthLength d.year d.month → weekdayOf ⟨d.year, d.month, day⟩ ≠ weekdayOf d
  else Nat.count (fun i => weekdayOf ⟨d.year, d.month, i + 1⟩ = weekdayOf d) d.day = n

/-- A record without a year, with a weekday of a month and a time of day. -/
structure TimeFields.Recurring (c : TimeFields) : Prop where
  year : c.year = 0
  month : 1 ≤ c.month ∧ c.month ≤ 12
  day : 1 ≤ c.day ∧ c.day ≤ 5
  hour : 0 ≤ c.hour ∧ c.hour < 24
  minute : 0 ≤ c.minute ∧ c.minute < 60
  second : 0 ≤ c.second ∧ c.second < 60
  milliseconds : 0 ≤ c.milliseconds ∧ c.milliseconds < 1000
  weekday : 0 ≤ c.weekday ∧ c.weekday ≤ 6

/-- The time of a record on a date. -/
def TimeFields.on (c : TimeFields) (d : Date) : ℤ :=
  d.number 1601 * ticksPerDay + (((c.hour * 60 + c.minute) * 60 + c.second) * 1000 + c.milliseconds) * 10000

/-- The time at which a record occurs in a year. -/
def TimeFields.OccursIn (c : TimeFields) (year : ℕ) (time : ℤ) : Prop :=
  ∃ day, Date.Valid ⟨year, c.month.toNat, day⟩ ∧ weekdayOf ⟨year, c.month.toNat, day⟩ = c.weekday ∧
    IsNth ⟨year, c.month.toNat, day⟩ c.day.toNat ∧ time = c.on ⟨year, c.month.toNat, day⟩

/-! ### Weekdays of a month -/

section Month

variable {year month w n day : ℕ}

/-- The first day of a weekday in a month. -/
def firstDay (year month w : ℕ) : ℕ := 1 + (w + 7 - weekdayOf ⟨year, month, 1⟩) % 7

/-- The day that the code finds. -/
def nthDay (year month w n : ℕ) : ℕ :=
  firstDay year month w + 7 * min (n - 1) ((monthLength year month - firstDay year month w) / 7)

theorem weekdayOf_eq (d : Date) : weekdayOf d = (d.number 1601 + 1) % 7 := weekdayAfter_eq (by decide) _

theorem weekdayOf_lt (d : Date) : weekdayOf d < 7 := by
  rw [weekdayOf_eq]
  omega

theorem weekdayOf_day (year month day : ℕ) : weekdayOf ⟨year, month, day⟩ = (weekdayOf ⟨year, month, 1⟩ + (day - 1)) % 7 := by
  rw [weekdayOf_eq, weekdayOf_eq]
  simp only [Date.number]
  omega

theorem firstDay_le (year month w : ℕ) : 1 ≤ firstDay year month w ∧ firstDay year month w ≤ 7 := by
  unfold firstDay
  omega

theorem monthLength_ge (year month : ℕ) : 28 ≤ monthLength year month := by
  unfold monthLength
  split <;> (try split) <;> decide

/-- The days of a weekday are whole weeks after the first one. -/
theorem weekdayOf_iff (year month : ℕ) (hw : w < 7) (hday : 1 ≤ day) :
    weekdayOf ⟨year, month, day⟩ = w ↔ ∃ k, day = firstDay year month w + 7 * k := by
  have hlt := weekdayOf_lt ⟨year, month, 1⟩
  rw [weekdayOf_day]
  unfold firstDay
  constructor
  · intro h
    exact ⟨(day - (1 + (w + 7 - weekdayOf ⟨year, month, 1⟩) % 7)) / 7, by omega⟩
  · rintro ⟨k, hk⟩
    omega

/-- The number of a weekday among those of the month. -/
theorem count_weekday (hw : w < 7) (k : ℕ) :
    Nat.count (fun i => weekdayOf ⟨year, month, i + 1⟩ = w) (firstDay year month w + 7 * k) = k + 1 := by
  have hfirst := firstDay_le year month w
  have hmod : ∀ i, weekdayOf ⟨year, month, i + 1⟩ = w ↔ i ≡ firstDay year month w - 1 [MOD 7] := by
    intro i
    have hlt := weekdayOf_lt ⟨year, month, 1⟩
    rw [weekdayOf_day, Nat.ModEq]
    unfold firstDay
    omega
  simp only [hmod, Nat.count_modEq_card _ (show 0 < 7 by decide)]
  split <;> omega

/-- **The day that the code finds** is the one that the record names. -/
theorem isNth_iff (year month day : ℕ) (hw : w < 7) (hn : 1 ≤ n) (hn5 : n ≤ 5) :
    Date.Valid ⟨year, month, day⟩ ∧ weekdayOf ⟨year, month, day⟩ = w ∧ IsNth ⟨year, month, day⟩ n ↔
      (1 ≤ month ∧ month ≤ 12) ∧ day = nthDay year month w n := by
  have hfirst := firstDay_le year month w
  have hlength := monthLength_ge year month
  have hlength' := monthLength_le year month
  unfold IsNth nthDay
  constructor
  · rintro ⟨hvalid, hweek, hnth⟩
    have hpos := hvalid.day_pos
    have hle := hvalid.day_le
    refine ⟨⟨hvalid.month_pos, hvalid.month_le⟩, ?_⟩
    obtain ⟨k, rfl⟩ := (weekdayOf_iff year month hw hpos).mp hweek
    simp only [hweek] at hnth hle
    split_ifs at hnth with hlast
    · -- a week later the month is over
      have hover : ¬firstDay year month w + 7 * k + 7 ≤ monthLength year month := fun hin =>
        hnth _ (by omega) hin ((weekdayOf_iff year month hw (by omega)).mpr ⟨k + 1, by omega⟩)
      omega
    · rw [count_weekday hw] at hnth
      omega
  · rintro ⟨⟨hmonth, hmonth'⟩, rfl⟩
    have hweek := (weekdayOf_iff year month hw (by omega)).mpr
      ⟨min (n - 1) ((monthLength year month - firstDay year month w) / 7), rfl⟩
    refine ⟨⟨hmonth, hmonth', ?_, ?_⟩, hweek, ?_⟩
    · dsimp only
      omega
    · dsimp only
      omega
    · simp only [hweek]
      split_ifs with hlast
      · intro day hlt hle hday
        obtain ⟨k, rfl⟩ := (weekdayOf_iff year month hw (by omega)).mp hday
        omega
      · rw [count_weekday hw]
        omega

end Month

/-! ### The code finds the day -/

section Find

variable {magicDivide : ℤ → ℕ → ℕ → ℤ} (hmagic : MagicDivides magicDivide) {f c : TimeFields} {year day : ℕ}

/-- A record with a year and a day. -/
def TimeFields.at (c : TimeFields) (year day : ℕ) : TimeFields := { c with year := year, day := day, weekday := 0 }

theorem TimeFields.time_at : (c.at year day).time = c.on ⟨year, c.month.toNat, day⟩ := rfl

theorem TimeFields.Recurring.proper (hc : c.Recurring) (hyear : 1601 ≤ year) (hday : 1 ≤ day)
    (hle : day ≤ monthLength year c.month.toNat) : (c.at year day).Proper :=
  ⟨Int.ofNat_le.mpr hyear, hc.month, ⟨Int.ofNat_le.mpr hday, Int.ofNat_le.mpr hle⟩, hc.hour, hc.minute, hc.second, hc.milliseconds⟩

theorem TimeFields.Recurring.timeOfDay (hc : c.Recurring) :
    0 ≤ (((c.hour * 60 + c.minute) * 60 + c.second) * 1000 + c.milliseconds) * 10000 ∧
      (((c.hour * 60 + c.minute) * 60 + c.second) * 1000 + c.milliseconds) * 10000 < ticksPerDay := by
  have hh := hc.hour
  have hn := hc.minute
  have hs := hc.second
  have hl := hc.milliseconds
  unfold ticksPerDay
  omega

theorem TimeFields.Recurring.time_lt (hc : c.Recurring) (hyear : 1601 ≤ year) (hlt : year ≤ 30001) (hday : 1 ≤ day)
    (hle : day ≤ monthLength year c.month.toNat) : (c.at year day).time < 9223372036854775808 := by
  have hin := (hc.proper hyear hday hle).wellFormed.valid.1.lt_yearLength
  have hlength := yearLength_le year
  have hyears := daysBeforeYear_bounds hyear
  have hclock := hc.timeOfDay
  rw [time_at]
  unfold TimeFields.on
  unfold ticksPerDay at hclock ⊢
  simp only [Date.number, TimeFields.date, TimeFields.at, Int.toNat_natCast] at hin ⊢
  omega

theorem TimeFields.Recurring.not_taken (hc : c.Recurring) (hyear : 1601 ≤ year) (hlt : year ≤ 30001) (hday : day ≤ 40)
    (hgt : monthLength year c.month.toNat < day) : rtlTimeFieldsToTime (c.at year day) = .ok none := by
  have hm := hc.month
  have hh := hc.hour
  have hn := hc.minute
  have hs := hc.second
  have hl := hc.milliseconds
  have hshort : (c.at year day).Short := by
    constructor <;> simp only [TimeFields.at] <;> omega
  obtain ⟨r, hrun, hsome⟩ := rtlTimeFieldsToTime_spec hshort
  have hlow : lowPart (c.at year day).year = year := lowPart_of_lt (by omega)
  rw [hlow] at hsome
  have hnone : r = none := by
    refine Option.not_isSome_iff_eq_none.mp fun h => ?_
    have hle := ((hsome.mp h).1).day.2
    simp only [TimeFields.at] at hle
    omega
  rw [hrun, hnone]

include hmagic

/-- A time is taken back to its fields, with their weekday. -/
theorem TimeFields.Proper.rtlTimeToTimeFields_eq (hf : f.Proper) (hlt : f.time < 9223372036854775808) :
    rtlTimeToTimeFields magicDivide f.time = .ok { f with weekday := weekdayOf f.date } := by
  obtain ⟨g, hfields, hdesc⟩ := rtlTimeToTimeFields_describes hmagic hf.time_nonneg hlt
  rw [hfields, hdesc.unique hf.wellFormed.describes]
  rfl

/-- **The weeks**: the days that are taken are those of the month. -/
theorem nextWeeks_eq (hc : c.Recurring) (hyear : 1601 ≤ year) (hlt : year ≤ 30001) (hday : 1 ≤ day)
    (hle : day ≤ monthLength year c.month.toNat)
    (weeks : ℕ) : nextWeeks magicDivide (c.at year day) day weeks =
      .ok (day + 7 * min weeks ((monthLength year c.month.toNat - day) / 7) : ℕ) := by
  induction weeks generalizing day with
  | zero => rw [nextWeeks, Nat.zero_min, Nat.mul_zero, Nat.add_zero]
  | succ weeks ih =>
    have hlength := monthLength_le year c.month.toNat
    have hworking : { c.at year day with day := toCshort ((c.at year day).day + 7) } = c.at year (day + 7) := by
      have hshort : toCshort ((day : ℤ) + 7) = ((day + 7 : ℕ) : ℤ) := by
        rw [toCshort_of_lt (by omega) (by omega)]
        rfl
      unfold TimeFields.at
      rw [hshort]
    rw [nextWeeks, hworking]
    by_cases hnext : day + 7 ≤ monthLength year c.month.toNat
    · have hproper := hc.proper hyear (Nat.le_add_left_of_le (by decide) : 1 ≤ day + 7) hnext
      have hfits := hc.time_lt hyear hlt (Nat.le_add_left_of_le (by decide) : 1 ≤ day + 7) hnext
      rw [hproper.rtlTimeFieldsToTime_eq hfits, ok_bind]
      dsimp only
      rw [hproper.rtlTimeToTimeFields_eq hmagic hfits, ok_bind]
      refine (ih (by omega) hnext).trans ?_
      congr 2
      omega
    · rw [hc.not_taken hyear hlt (by omega) (by omega), ok_bind]
      have hzero : (monthLength year c.month.toNat - day) / 7 = 0 := by omega
      rw [hzero, Nat.min_zero]
      rfl

/-- **The code finds the day** in a year. -/
theorem tryYear_eq (hc : c.Recurring) (hyear : 1601 ≤ year) (hlt : year ≤ 30001) :
    tryYear magicDivide c year = .ok (some (c.at year (nthDay year c.month.toNat c.weekday.toNat c.day.toNat),
      c.on ⟨year, c.month.toNat, nthDay year c.month.toNat c.weekday.toNat c.day.toNat⟩)) := by
  have hlength := monthLength_ge year c.month.toNat
  have hfirst := firstDay_le year c.month.toNat c.weekday.toNat
  have hweekday := hc.weekday
  have hday := hc.day
  have hproper := hc.proper hyear le_rfl (show 1 ≤ monthLength year c.month.toNat by omega)
  have hfits := hc.time_lt hyear hlt le_rfl (show 1 ≤ monthLength year c.month.toNat by omega)
  have hworking : { c with year := (year : ℤ), day := 1, weekday := 0 } = c.at year 1 := rfl
  have hbias : (if (weekdayOf (c.at year 1).date : ℤ) > c.weekday then
        toCshort ((c.at year 1).day + (7 - ((weekdayOf (c.at year 1).date : ℤ) - c.weekday)))
      else if (weekdayOf (c.at year 1).date : ℤ) < c.weekday then
        toCshort ((c.at year 1).day + (c.weekday - (weekdayOf (c.at year 1).date : ℤ)))
      else (c.at year 1).day) = (firstDay year c.month.toNat c.weekday.toNat : ℤ) := by
    have hdate : (c.at year 1).date = ⟨year, c.month.toNat, 1⟩ := rfl
    have hone : (c.at year 1).day = 1 := rfl
    have hlt := weekdayOf_lt ⟨year, c.month.toNat, 1⟩
    rw [hdate, hone]
    unfold firstDay
    split_ifs
    · rw [toCshort_of_lt (by omega) (by omega)]
      omega
    · rw [toCshort_of_lt (by omega) (by omega)]
      omega
    · omega
  have hnth : firstDay year c.month.toNat c.weekday.toNat + 7 * min (c.day - 1).toNat
      ((monthLength year c.month.toNat - firstDay year c.month.toNat c.weekday.toNat) / 7) =
      nthDay year c.month.toNat c.weekday.toNat c.day.toNat := by
    unfold nthDay
    rw [show (c.day - 1).toNat = c.day.toNat - 1 by omega]
  have hin : 1 ≤ nthDay year c.month.toNat c.weekday.toNat c.day.toNat ∧
      nthDay year c.month.toNat c.weekday.toNat c.day.toNat ≤ monthLength year c.month.toNat := by
    rw [← hnth]
    omega
  rw [tryYear, hworking, hproper.rtlTimeFieldsToTime_eq hfits, ok_bind]
  dsimp only
  rw [hproper.rtlTimeToTimeFields_eq hmagic hfits, ok_bind]
  have hweeks := nextWeeks_eq hmagic hc hyear hlt hfirst.1 (by omega) (c.day - 1).toNat
  rw [hnth] at hweeks
  dsimp only
  rw [hbias]
  change (nextWeeks magicDivide (c.at year (firstDay year c.month.toNat c.weekday.toNat)) _ _ >>= _) = _
  rw [hweeks, ok_bind]
  change (rtlTimeFieldsToTime (c.at year (nthDay year c.month.toNat c.weekday.toNat c.day.toNat)) >>= _) = _
  rw [(hc.proper hyear hin.1 hin.2).rtlTimeFieldsToTime_eq (hc.time_lt hyear hlt hin.1 hin.2), ok_bind]
  rfl

end Find

/-! ### The first occurrence -/

section First

variable {c : TimeFields} {year : ℕ} {current time : ℤ}

/-- The time at which a record occurs in a year. -/
def TimeFields.occurrence (c : TimeFields) (year : ℕ) : ℤ :=
  c.on ⟨year, c.month.toNat, nthDay year c.month.toNat c.weekday.toNat c.day.toNat⟩

section

variable (hc : c.Recurring)

include hc

theorem TimeFields.Recurring.valid_nthDay (year : ℕ) :
    Date.Valid ⟨year, c.month.toNat, nthDay year c.month.toNat c.weekday.toNat c.day.toNat⟩ := by
  have hm := hc.month
  have hd := hc.day
  have hw := hc.weekday
  exact ((isNth_iff year c.month.toNat _ (show c.weekday.toNat < 7 by omega) (show 1 ≤ c.day.toNat by omega) (by omega)).mpr
    ⟨by omega, rfl⟩).1

theorem TimeFields.Recurring.occursIn_iff : c.OccursIn year time ↔ time = c.occurrence year := by
  have hm := hc.month
  have hd := hc.day
  have hw := hc.weekday
  have hnth := fun day => isNth_iff year c.month.toNat day (show c.weekday.toNat < 7 by omega) (show 1 ≤ c.day.toNat by omega)
    (by omega)
  unfold TimeFields.OccursIn
  constructor
  · rintro ⟨day, hvalid, hweek, hday, rfl⟩
    rw [((hnth day).mp ⟨hvalid, by omega, hday⟩).2]
    rfl
  · rintro rfl
    obtain ⟨hvalid, hweek, hday⟩ := (hnth _).mpr ⟨by omega, rfl⟩
    exact ⟨_, hvalid, by omega, hday, rfl⟩

theorem TimeFields.Recurring.on_lt {d : Date} (hd : d.Valid) (hbase : 1601 ≤ d.year)
    (hbefore : d.Before (dateAfter 1601 (current / ticksPerDay).toNat)) : c.on d < current := by
  have hnumber := hd.number_lt (dateAfter_valid 1601 _).1 hbase hbefore
  have hday := hc.timeOfDay
  rw [number_dateAfter] at hnumber
  unfold TimeFields.on
  unfold ticksPerDay at hnumber hday ⊢
  omega

theorem TimeFields.Recurring.lt_on {d : Date} (hd : d.Valid)
    (hbefore : (dateAfter 1601 (current / ticksPerDay).toNat).Before d) : current < c.on d := by
  obtain ⟨hvalid, hbase⟩ := dateAfter_valid 1601 (current / ticksPerDay).toNat
  have hnumber := hvalid.number_lt hd hbase hbefore
  have hday := hc.timeOfDay
  rw [number_dateAfter] at hnumber
  unfold TimeFields.on
  unfold ticksPerDay at hnumber hday ⊢
  omega

theorem TimeFields.Recurring.occurrence_mono {y y' : ℕ} (hbase : 1601 ≤ y) (hle : y ≤ y') : c.occurrence y ≤ c.occurrence y' := by
  rcases Nat.lt_or_eq_of_le hle with hlt | rfl
  · have hnumber := (hc.valid_nthDay y).number_lt (hc.valid_nthDay y') hbase (.inl hlt)
    unfold TimeFields.occurrence TimeFields.on ticksPerDay
    omega
  · exact le_rfl

/-- The first year in which the record occurs from the current time on gives the first occurrence. -/
theorem TimeFields.Recurring.isLeast (hyear : 1601 ≤ year) (hle : current ≤ c.occurrence year)
    (hbefore : ∀ y, 1601 ≤ y → y < year → c.occurrence y < current) :
    IsLeast {t | current ≤ t ∧ ∃ y, 1601 ≤ y ∧ c.OccursIn y t} (c.occurrence year) := by
  refine ⟨⟨hle, year, hyear, hc.occursIn_iff.mpr rfl⟩, ?_⟩
  rintro t ⟨hcurrent, y, hy, hoccurs⟩
  rw [hc.occursIn_iff.mp hoccurs] at hcurrent ⊢
  refine hc.occurrence_mono hyear (Nat.le_of_not_lt fun hlt => ?_)
  have := hbefore y hy hlt
  omega

end

theorem lt_of_year_lt (h : (dateAfter 1601 (current / ticksPerDay).toNat).year < 30000) : current < 9223372036854775808 := by
  obtain ⟨hvalid, hbase⟩ := dateAfter_valid 1601 (current / ticksPerDay).toNat
  have hnumber := number_dateAfter 1601 (current / ticksPerDay).toNat
  have hin := hvalid.lt_yearLength
  generalize dateAfter 1601 (current / ticksPerDay).toNat = d at *
  have hlength := yearLength_le d.year
  have hyears := daysBeforeYear_bounds hbase
  rw [Date.number] at hnumber
  unfold ticksPerDay at hnumber
  omega

variable {magicDivide : ℤ → ℕ → ℕ → ℤ}

/-- The record has occurred this year, as the code sees it: by its month, its day or its time. -/
def TimeFields.Past (c now : TimeFields) (current : ℤ) : Prop :=
  c.month < now.month ∨ c.month = now.month ∧
    ((nthDay now.year.toNat c.month.toNat c.weekday.toNat c.day.toNat : ℤ) < now.day ∨
      (nthDay now.year.toNat c.month.toNat c.weekday.toNat c.day.toNat : ℤ) = now.day ∧ c.occurrence now.year.toNat < current)

/-- **The year that the code chooses.** -/
theorem rtlCutoverTimeToSystemTime_eq (hmagic : MagicDivides magicDivide) (hc : c.Recurring) {now : TimeFields}
    (hnow : rtlTimeToTimeFields magicDivide current = .ok now) (hbase : 1601 ≤ now.year) (hyear : now.year < 30000)
    (thisYear : Bool) : (thisYear = false ∧ c.Past now current →
      rtlCutoverTimeToSystemTime magicDivide c current thisYear = .ok (some (c.occurrence (now.year.toNat + 1)))) ∧
    (¬(thisYear = false ∧ c.Past now current) →
      rtlCutoverTimeToSystemTime magicDivide c current thisYear = .ok (some (c.occurrence now.year.toNat))) := by
  have hday := hc.day
  have htry := tryYear_eq hmagic hc (show 1601 ≤ now.year.toNat by omega) (by omega)
  have htry' := tryYear_eq hmagic hc (show 1601 ≤ now.year.toNat + 1 by omega) (by omega)
  have hnext : toCshort (now.year + 1) = ((now.year.toNat + 1 : ℕ) : ℤ) := by
    rw [toCshort_of_lt (by omega) (by omega)]
    omega
  rw [Int.toNat_of_nonneg (show 0 ≤ now.year by omega)] at htry
  rw [rtlCutoverTimeToSystemTime, hnow, ok_bind, if_neg (not_not.mpr hc.year), if_neg (by omega)]
  dsimp only
  unfold TimeFields.Past
  by_cases hfirst : thisYear = false ∧ c.month < now.month
  · rw [if_pos hfirst, hnext, htry', ok_bind]
    dsimp only
    rw [if_neg fun h => absurd h.2.1 (by omega)]
    exact ⟨fun _ => rfl, fun hnot => absurd ⟨hfirst.1, .inl hfirst.2⟩ hnot⟩
  · rw [if_neg hfirst, htry, ok_bind]
    dsimp only
    split_ifs with hagain
    · rw [hnext, htry', ok_bind]
      exact ⟨fun _ => rfl, fun hnot => absurd ⟨hagain.1, .inr hagain.2⟩ hnot⟩
    · refine ⟨fun hpast => ?_, fun _ => rfl⟩
      rcases hpast.2 with hlt | hsame
      · exact absurd ⟨hpast.1, hlt⟩ hfirst
      · exact absurd ⟨hpast.1, hsame⟩ hagain

/-- **Cutover times are exact**: the first occurrence from the current time on, or that of the current year. -/
theorem rtlCutoverTimeToSystemTime_exact (hmagic : MagicDivides magicDivide) (hc : c.Recurring) (h₀ : 0 ≤ current)
    (hyear : (dateAfter 1601 (current / ticksPerDay).toNat).year < 30000) :
    (∃ time, rtlCutoverTimeToSystemTime magicDivide c current false = .ok (some time) ∧
      IsLeast {t | current ≤ t ∧ ∃ y, 1601 ≤ y ∧ c.OccursIn y t} time) ∧
    ∃ time, rtlCutoverTimeToSystemTime magicDivide c current true = .ok (some time) ∧
      c.OccursIn (dateAfter 1601 (current / ticksPerDay).toNat).year time := by
  obtain ⟨now, hnow, hdesc⟩ := rtlTimeToTimeFields_describes hmagic h₀ (lt_of_year_lt hyear)
  obtain ⟨-, hbase⟩ := dateAfter_valid 1601 (current / ticksPerDay).toNat
  have hnowYear := hdesc.year
  have hnowMonth := hdesc.month
  have hnowDay := hdesc.day
  have hmonth := hc.month
  have hlt : ∀ y, 1601 ≤ y → Date.Before ⟨y, c.month.toNat, nthDay y c.month.toNat c.weekday.toNat c.day.toNat⟩
      (dateAfter 1601 (current / ticksPerDay).toNat) → c.occurrence y < current := fun y hy => hc.on_lt (hc.valid_nthDay y) hy
  have hgt : ∀ y, (dateAfter 1601 (current / ticksPerDay).toNat).Before
      ⟨y, c.month.toNat, nthDay y c.month.toNat c.weekday.toNat c.day.toNat⟩ → current < c.occurrence y :=
        fun y => hc.lt_on (hc.valid_nthDay y)
  generalize dateAfter 1601 (current / ticksPerDay).toNat = d at *
  have hchoice := rtlCutoverTimeToSystemTime_eq hmagic hc hnow (by omega) (by omega)
  have hyears : now.year.toNat = d.year := by omega
  rw [hyears] at hchoice
  have hearlier : ∀ y, 1601 ≤ y → y < d.year → c.occurrence y < current := fun y hy hbefore => hlt y hy (.inl hbefore)
  constructor
  · by_cases hpast : c.Past now current
    · refine ⟨_, (hchoice false).1 ⟨rfl, hpast⟩, hc.isLeast (by omega)
        (hgt _ (.inl (Nat.lt_succ_self _))).le fun y hy hbefore => ?_⟩
      rcases Nat.lt_or_eq_of_le (Nat.le_of_lt_succ hbefore) with hbefore | rfl
      · exact hearlier y hy hbefore
      · -- the record has occurred in the current year
        unfold TimeFields.Past at hpast
        rw [hyears, hnowMonth, hnowDay] at hpast
        rcases hpast with hmonth' | ⟨hmonth', hday' | ⟨-, hbefore⟩⟩
        · exact hlt _ hy (.inr ⟨rfl, .inl (by dsimp only; omega)⟩)
        · exact hlt _ hy (.inr ⟨rfl, .inr ⟨by dsimp only; omega, by dsimp only; omega⟩⟩)
        · exact hbefore
    · refine ⟨_, (hchoice false).2 fun h => hpast h.2, hc.isLeast hbase ?_ hearlier⟩
      unfold TimeFields.Past at hpast
      rw [hyears, hnowMonth, hnowDay] at hpast
      rcases Int.lt_trichotomy c.month d.month with hmonth' | hmonth' | hmonth'
      · exact absurd (.inl hmonth') hpast
      · by_cases hday' : (d.day : ℤ) < nthDay d.year c.month.toNat c.weekday.toNat c.day.toNat
        · exact (hgt d.year (.inr ⟨rfl, .inr ⟨by dsimp only; omega, by dsimp only; omega⟩⟩)).le
        · by_contra hbefore
          exact hpast (.inr ⟨hmonth', by omega⟩)
      · exact (hgt d.year (.inr ⟨rfl, .inl (by dsimp only; omega)⟩)).le
  · exact ⟨_, (hchoice true).2 fun h => absurd h.1 (by decide), hc.occursIn_iff.mpr rfl⟩

/-- The last Sunday of October at three, from the start of 1601 on. -/
theorem rtlCutoverTimeToSystemTime_exact_october :
    (TimeFields.mk 0 10 5 3 0 0 0 0).Recurring ∧
    (∃ time, rtlCutoverTimeToSystemTime rtlExtendedMagicDivide ⟨0, 10, 5, 3, 0, 0, 0, 0⟩ 0 false = .ok (some time) ∧
      IsLeast {t | 0 ≤ t ∧ ∃ y, 1601 ≤ y ∧ (TimeFields.mk 0 10 5 3 0 0 0 0).OccursIn y t} time) ∧
    ∃ time, rtlCutoverTimeToSystemTime rtlExtendedMagicDivide ⟨0, 10, 5, 3, 0, 0, 0, 0⟩ 0 true = .ok (some time) ∧
      (TimeFields.mk 0 10 5 3 0 0 0 0).OccursIn 1601 time := by
  have hc : (TimeFields.mk 0 10 5 3 0 0 0 0).Recurring := by constructor <;> decide
  exact ⟨hc, rtlCutoverTimeToSystemTime_exact rtlExtendedMagicDivide_divides hc le_rfl (by decide)⟩

end First

end Nt365.Rtl
