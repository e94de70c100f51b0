import Nt365.Library.Buffer
import Nt365.Library.Calendar

/-!
# Time and time fields

`RTL/TIME.C` converts between a time, the number of 100ns steps since the start of 1601, and its
year, month, day, time of day and weekday.

## The model

`ULONG` variables are numbers below `2 ^ 32` and wrap, a time is a signed 64-bit number, and the fields
are signed 16-bit numbers. The conversions take `RtlExtendedMagicDivide`, which is written in assembly, as a
parameter. A read outside a table is a fault.
-/

namespace Nt365.Rtl

open Nt365.Library Nt365.Library.Calendar

/-- A read outside a table. -/
inductive Fault where
  | outsideTable
deriving DecidableEq

/-- `TIME_FIELDS`. -/
structure TimeFields where
  year : ℤ
  month : ℤ
  day : ℤ
  hour : ℤ
  minute : ℤ
  second : ℤ
  milliseconds : ℤ
  weekday : ℤ
deriving DecidableEq

/-- A number cast to `CSHORT`. -/
def cshort (n : ℕ) : ℤ := (n : ℤ).bmod 65536

theorem cshort_of_lt {n : ℕ} (h : n < 32768) : cshort n = n := by
  unfold cshort
  rw [Int.bmod_eq_of_le] <;> omega

/-- A signed number cast to `ULONG`, or the low part of a large integer. -/
def lowPart (n : ℤ) : ℕ := (n % 4294967296).toNat

/-- A `ULONG` cast to `LONG`. -/
def long (n : ℕ) : ℤ := (n : ℤ).bmod 4294967296

def readTable (table : List ℕ) (i : ℕ) : Except Fault ℕ :=
  match table[i]? with
  | some n => .ok n
  | none => .error .outsideTable

/-! ### Tables and constants -/

/-- A day of the year to its month, from the lengths of the months. -/
def dayToMonth (february : ℕ) : List ℕ :=
  List.replicate 31 0 ++ List.replicate february 1 ++ List.replicate 31 2 ++ List.replicate 30 3 ++ List.replicate 31 4 ++
    List.replicate 30 5 ++ List.replicate 31 6 ++ List.replicate 31 7 ++ List.replicate 30 8 ++ List.replicate 31 9 ++
    List.replicate 30 10 ++ List.replicate 31 11

def leapYearDayToMonth : List ℕ := dayToMonth 29

def normalYearDayToMonth : List ℕ := dayToMonth 28

def daysPrecedingMonth (february : ℕ) : List ℕ :=
  [0, 31, 31 + february, 31 + february + 31, 31 + february + 31 + 30, 31 + february + 31 + 30 + 31,
    31 + february + 31 + 30 + 31 + 30,
    31 + february + 31 + 30 + 31 + 30 + 31, 31 + february + 31 + 30 + 31 + 30 + 31 + 31,
      31 + february + 31 + 30 + 31 + 30 + 31 + 31 + 30,
    31 + february + 31 + 30 + 31 + 30 + 31 + 31 + 30 + 31, 31 + february + 31 + 30 + 31 + 30 + 31 + 31 + 30 + 31 + 30,
    31 + february + 31 + 30 + 31 + 30 + 31 + 31 + 30 + 31 + 30 + 31]

def leapYearDaysPrecedingMonth : List ℕ := daysPrecedingMonth 29

def normalYearDaysPrecedingMonth : List ℕ := daysPrecedingMonth 28

/-- January 1st, 1601 was a Monday. -/
def weekdayOf1601 : ℕ := 1

def magic10000 : ℕ := 0xd1b71758e219652c

def shift10000 : ℕ := 13

def magic86400000 : ℕ := 0xc6d750ebfa67b90e

def shift86400000 : ℕ := 26

/-! ### Years -/

/-- `ElapsedDaysToYears`. -/
def elapsedDaysToYears (elapsedDays : ℕ) : ℕ :=
  let numberOf400s := elapsedDays / 146097
  let elapsedDays := sub32 elapsedDays (mul32 numberOf400s 146097)
  let numberOf100s := add32 (mul32 elapsedDays 100) 75 / 3652425
  let elapsedDays := sub32 elapsedDays (mul32 numberOf100s 36524)
  let numberOf4s := elapsedDays / 1461
  let elapsedDays := sub32 elapsedDays (mul32 numberOf4s 1461)
  add32 (add32 (add32 (mul32 numberOf400s 400) (mul32 numberOf100s 100)) (mul32 numberOf4s 4))
    (add32 (mul32 elapsedDays 100) 75 / 36525)

def numberOfLeapYears (years : ℕ) : ℕ := add32 (sub32 (years / 4) (years / 100)) (years / 400)

def elapsedYearsToDays (years : ℕ) : ℕ := add32 (mul32 years 365) (numberOfLeapYears years)

def isLeapYear (years : ℕ) : Bool := years % 400 = 0 ∨ years % 100 ≠ 0 ∧ years % 4 = 0

def maxDaysInMonth (year month : ℕ) : Except Fault ℤ := do
  let table := if isLeapYear year then leapYearDaysPrecedingMonth else normalYearDaysPrecedingMonth
  let next ← readTable table (month + 1)
  let this ← readTable table month
  return (next : ℤ) - this

/-! ### Conversion -/

/-- The loop at `remd20`: a shift by at most 31 bits at a time. -/
def shiftRight (n cl : ℕ) : ℕ := if cl ≤ 31 then n / 2 ^ cl else shiftRight (n / 2 ^ 31) (cl - 31)

/-- `RtlExtendedMagicDivide` of `LARGEINT.ASM`, with the sums of its columns of 32-bit words. -/
def rtlExtendedMagicDivide (dividend : ℤ) (magicDivisor shiftCount : ℕ) : ℤ :=
  let divLo := u32 dividend.natAbs
  let divHi := u32 (dividend.natAbs / 4294967296)
  let recLo := u32 magicDivisor
  let recHi := u32 (magicDivisor / 4294967296)
  let tmp1 := recLo * divLo / 4294967296
  let eax := u32 (recHi * divLo)
  -- "Only want carry from Col 1".
  let ecx := (eax + tmp1) / 4294967296 + (add32 eax tmp1 + u32 (recLo * divHi)) / 4294967296
  let high := (recHi * divHi + recHi * divLo / 4294967296 + recLo * divHi / 4294967296 + ecx) % 2 ^ 64
  let result := shiftRight high (shiftCount % 256)
  wrap64 (if dividend < 0 then -result else result)

section Convert

variable (magicDivide : ℤ → ℕ → ℕ → ℤ)

/-- `Int32x32To64` with the milliseconds of a day. -/
def convertDaysToMilliseconds (days : ℕ) : ℤ := wrap64 (long days * 86400000)

/-- `TimeToDaysAndFraction`: the days and the milliseconds. -/
def timeToDaysAndFraction (time : ℤ) : ℕ × ℕ :=
  let totalMilliseconds := magicDivide time magic10000 shift10000
  let elapsedDays := lowPart (magicDivide totalMilliseconds magic86400000 shift86400000)
  (elapsedDays, lowPart (wrap64 (totalMilliseconds - convertDaysToMilliseconds elapsedDays)))

/-- `DaysAndFractionToTime`. -/
def daysAndFractionToTime (elapsedDays milliseconds : ℕ) : ℤ :=
  wrap64 (wrap64 (convertDaysToMilliseconds elapsedDays + milliseconds) * 10000)

/-- `RtlTimeToTimeFields`. -/
def rtlTimeToTimeFields (time : ℤ) : Except Fault TimeFields := do
  let (days, milliseconds) := timeToDaysAndFraction magicDivide time
  let weekday := add32 days weekdayOf1601 % 7
  let years := elapsedDaysToYears days
  let days := sub32 days (elapsedYearsToDays years)
  let leap := isLeapYear (add32 years 1)
  let month ← readTable (if leap then leapYearDayToMonth else normalYearDayToMonth) days
  let preceding ← readTable (if leap then leapYearDaysPrecedingMonth else normalYearDaysPrecedingMonth) month
  let days := sub32 days preceding
  let seconds := milliseconds / 1000
  let minutes := seconds / 60
  return {
    year := cshort (add32 years 1601)
    month := cshort (add32 month 1)
    day := cshort (add32 days 1)
    hour := cshort (minutes / 60)
    minute := cshort (minutes % 60)
    second := cshort (seconds % 60)
    milliseconds := cshort (milliseconds % 1000)
    weekday := cshort weekday }

/-- `RtlTimeFieldsToTime`: the time, or nothing if it returns `FALSE`. -/
def rtlTimeFieldsToTime (f : TimeFields) : Except Fault (Option ℤ) := do
  let year := lowPart f.year
  let month := lowPart (f.month - 1)
  let day := lowPart (f.day - 1)
  let hour := lowPart f.hour
  let minute := lowPart f.minute
  let second := lowPart f.second
  let milliseconds := lowPart f.milliseconds
  if f.month < 1 ∨ f.day < 1 ∨ year < 1601 ∨ month > 11 then return none
  else
    let maxDays ← maxDaysInMonth year month
    if cshort day ≥ maxDays ∨ hour > 23 ∨ minute > 59 ∨ second > 59 ∨ milliseconds > 999 then return none
    else
      let preceding ← readTable
        (if isLeapYear (sub32 year 1600) then leapYearDaysPrecedingMonth else normalYearDaysPrecedingMonth) month
      let elapsedDays := add32 (add32 (elapsedYearsToDays (sub32 year 1601)) preceding) day
      let elapsedMilliseconds :=
        add32 (mul32 (add32 (mul32 (add32 (mul32 hour 60) minute) 60) second) 1000) milliseconds
      return some (daysAndFractionToTime elapsedDays elapsedMilliseconds)

end Convert

end Nt365.Rtl
