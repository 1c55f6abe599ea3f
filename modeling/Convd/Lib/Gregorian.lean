/-
# `Convd.Lib.Gregorian` — dates, and the numbers of their days

The calendar with a leap year every four years, but for the hundreds that are not four hundreds,
extended to all years.  The days are numbered through, and so are the seconds; the first of
January 1970 is day 0, and its first second is second 0.

    no two dates have the same number      `Date.dayNumber_injective`
    no two moments the same second         `Moment.seconds_injective`

Where a year begins is a closed formula (`yearStart`), where a month does is a sum.
-/
import Mathlib.Order.Monotone.Basic
import Mathlib.Order.Fin.Basic
import Mathlib.Data.Int.Order.Basic
import Mathlib.Algebra.GroupWithZero.Nat

namespace Gregorian

/-! ## Years -/

def isLeap (y : Int) : Bool := y % 4 = 0 ∧ (y % 100 ≠ 0 ∨ y % 400 = 0)

def yearLength (y : Int) : Int := if isLeap y then 366 else 365

/-- The days before the year, from the beginning of 1970. -/
def yearStart (y : Int) : Int :=
  365 * (y - 1970) + ((y - 1) / 4 - 492) - ((y - 1) / 100 - 19) + ((y - 1) / 400 - 4)

theorem yearStart_succ (y : Int) : yearStart (y + 1) = yearStart y + yearLength y := by
  simp only [yearStart, yearLength, isLeap, decide_eq_true_eq]
  split <;> omega

theorem yearLength_ge (y : Int) : 365 ≤ yearLength y := by
  rw [yearLength]
  split <;> omega

theorem yearStart_le {y y' : Int} (h : y ≤ y') : yearStart y ≤ yearStart y' := by
  refine monotone_int_of_le_succ (fun y => ?_) h
  have hlength := yearLength_ge y
  rw [yearStart_succ]
  omega

/-! ## Months -/

/-- The lengths of the months. -/
def monthLengths (leap : Bool) : List Nat :=
  [31, if leap then 29 else 28, 31, 30, 31, 30, 31, 31, 30, 31, 30, 31]

/-- The length of a month; the first has number 0. -/
def monthLength (leap : Bool) (m : Nat) : Nat := (monthLengths leap).getD m 0

/-- The days of the year before a month. -/
def monthStart (leap : Bool) (m : Nat) : Nat := ((monthLengths leap).take m).sum

theorem monthStart_succ : ∀ (leap : Bool) (m : Fin 12),
    monthStart leap (m + 1) = monthStart leap m + monthLength leap m := by
  decide

theorem monthStart_all (y : Int) : (monthStart (isLeap y) 12 : Int) = yearLength y := by
  rw [yearLength]
  cases isLeap y <;> rfl

theorem monthStart_lt (leap : Bool) : ∀ a b : Fin 12, a < b →
    monthStart leap a + monthLength leap a ≤ monthStart leap b := by
  cases leap <;> decide

/-! ## Dates -/

/-- Intervals in order lie apart. -/
theorem eq_of_mem_both {ι : Type} [LinearOrder ι] {start length : ι → Int}
    (hord : ∀ a b, a < b → start a + length a ≤ start b) {a b : ι} {n : Int} (ha : start a ≤ n)
    (ha' : n < start a + length a) (hb : start b ≤ n) (hb' : n < start b + length b) : a = b := by
  rcases lt_trichotomy a b with hlt | heq | hlt
  · have := hord a b hlt
    omega
  · exact heq
  · have := hord b a hlt
    omega

/-- A date.  Days are counted from 1, months from 0. -/
@[ext] structure Date where
  year : Int
  month : Fin 12
  day : Nat
  day_pos : 0 < day
  day_le : day ≤ monthLength (isLeap year) month

namespace Date

/-- The days of the year before it. -/
def dayOfYear (d : Date) : Int := monthStart (isLeap d.year) d.month + (d.day - 1)

def dayNumber (d : Date) : Int := yearStart d.year + d.dayOfYear

theorem dayOfYear_nonneg (d : Date) : 0 ≤ d.dayOfYear := by
  have hpos := d.day_pos
  rw [dayOfYear]
  omega

theorem dayOfYear_lt (d : Date) : d.dayOfYear < yearLength d.year := by
  have hle := d.day_le
  have hsucc := monthStart_succ (isLeap d.year) d.month
  have hall := monthStart_all d.year
  have hmono : monthStart (isLeap d.year) (d.month + 1) ≤ monthStart (isLeap d.year) 12 := by
    have hmonths : ∀ leap, ∀ m : Fin 12, monthStart leap (m + 1) ≤ monthStart leap 12 := by
      decide
    exact hmonths _ _
  rw [dayOfYear]
  omega

theorem dayNumber_injective : Function.Injective dayNumber := by
  intro d d' h
  have hyear : d.year = d'.year := by
    have hord : ∀ a b : Int, a < b → yearStart a + yearLength a ≤ yearStart b := by
      intro a b hab
      rw [← yearStart_succ]
      exact yearStart_le hab
    have hd := d.dayOfYear_nonneg
    have hd' := d'.dayOfYear_nonneg
    have hlt := d.dayOfYear_lt
    have hlt' := d'.dayOfYear_lt
    rw [dayNumber, dayNumber] at h
    exact @eq_of_mem_both _ _ _ _ hord _ _ (yearStart d.year + d.dayOfYear) (by omega) (by omega)
      (by omega) (by omega)
  have hdays : d.dayOfYear = d'.dayOfYear := by
    rw [dayNumber, dayNumber, hyear] at h
    omega
  have hmonth : d.month = d'.month := by
    have hle := d.day_le
    have hle' := d'.day_le
    have hpos := d.day_pos
    have hpos' := d'.day_pos
    rw [hyear] at hle
    have hord : ∀ a b : Fin 12, a < b → (monthStart (isLeap d'.year) a : Int) +
        monthLength (isLeap d'.year) a ≤ monthStart (isLeap d'.year) b := by
      intro a b hab
      exact_mod_cast monthStart_lt (isLeap d'.year) a b hab
    rw [dayOfYear, dayOfYear, hyear] at hdays
    exact @eq_of_mem_both _ _ _ _ hord _ _ (monthStart (isLeap d'.year) d.month + (d.day - 1))
      (by omega) (by omega) (by omega) (by omega)
  have hday : d.day = d'.day := by
    have hpos := d.day_pos
    have hpos' := d'.day_pos
    rw [dayOfYear, dayOfYear, hyear, hmonth] at hdays
    omega
  exact Date.ext hyear hmonth hday

end Date

/-! ## Seconds -/

/-- A second of a day. -/
@[ext] structure Moment where
  date : Date
  hour : Fin 24
  minute : Fin 60
  second : Fin 60

namespace Moment

/-- The seconds of the day before it. -/
def secondOfDay (m : Moment) : Nat := m.hour * 3600 + m.minute * 60 + m.second

def seconds (m : Moment) : Int := m.date.dayNumber * 86400 + m.secondOfDay

theorem secondOfDay_lt (m : Moment) : m.secondOfDay < 86400 := by
  have hhour := m.hour.isLt
  have hminute := m.minute.isLt
  have hsecond := m.second.isLt
  rw [secondOfDay]
  omega

theorem seconds_injective : Function.Injective seconds := by
  intro m m' h
  have hlt := m.secondOfDay_lt
  have hlt' := m'.secondOfDay_lt
  rw [seconds, seconds] at h
  have hdate : m.date = m'.date := Date.dayNumber_injective (by omega)
  rw [hdate] at h
  have hclock : m.secondOfDay = m'.secondOfDay := by omega
  rw [secondOfDay, secondOfDay] at hclock
  have hminute := m.minute.isLt
  have hminute' := m'.minute.isLt
  have hsecond := m.second.isLt
  have hsecond' := m'.second.isLt
  exact Moment.ext hdate (Fin.ext (by omega)) (Fin.ext (by omega)) (Fin.ext (by omega))

end Moment

end Gregorian
