/-
# `Convd.LocalTime` — `getlocaltime_safe` and the calendar

`getlocaltime_safe` of `timeut.h` takes years off the days since 1970, one after the other, and
then months off the year that is left.  Divisions of C round toward zero:

    t' = t - tz + 3600 * dst      what it says
    from 0 on                     the date and the time of day that second `t'` has
    below 0                       none: a field is negative, or the day of the month is

`tm_year` is an `int` and wraps from about 2 ^ 31 years on, which is past second 2 ^ 55.  The
product of `dst` is one of `int`s as well, and is exact for flags below 596524 in size.
-/
import Convd.Datetime
import Convd.Lib.Gregorian
import Convd.Lib.Loop

namespace Convd

open Gregorian Loop

/-! ## The code -/

/-- `struct tm`, with what `getlocaltime_safe` sets besides. -/
structure LocalTm where
  tm : Tm
  tmWday : Int
  tmYday : Int
  tmIsdst : Int
  deriving DecidableEq, Repr

/-- `YEAR_IS_LEAPYEAR` -/
def yearIsLeapyear (year : Int) : Int :=
  if year % 4 ≠ 0 then 0 else if year % 100 ≠ 0 then 1 else if year % 400 ≠ 0 then 0 else 1

def meanMdays : List Int := [31, 28, 31, 30, 31, 30, 31, 31, 30, 31, 30, 31]

def leapMdays : List Int := [31, 29, 31, 30, 31, 30, 31, 31, 30, 31, 30, 31]

/-- The days that are left, and the year or month that is tried. -/
structure DaysLeft (ι : Type) where
  days : Int
  index : ι

/-- One turn of `while (1)`, over the years. -/
def yearTurn (s : DaysLeft Int) : Turn (DaysLeft Int) (DaysLeft Int) :=
  let daysThisYear := 365 + yearIsLeapyear s.index
  if daysThisYear > s.days then .leave s
  else .again ⟨s.days - daysThisYear, Int.bmod (s.index + 1) (2 ^ 32)⟩

/-- One turn of `while (days >= mdays[loc->tm_mon])`; out with none past the end of the array. -/
def monthTurn (mdays : List Int) (s : DaysLeft Nat) :
    Turn (DaysLeft Nat) (Option (DaysLeft Nat)) :=
  match mdays[s.index]? with
  | none => .leave none
  | some n => if s.days ≥ n then .again ⟨s.days - n, s.index + 1⟩ else .leave (some s)

/-- `t`, adjusted for the zone and for daylight saving; `3600 * dst` is a product of `int`s. -/
def localSeconds (t tz dst : Int) : Int :=
  toSb8 (toSb8 (t - tz) + Int.bmod (3600 * dst) (2 ^ 32))

/-- `getlocaltime_safe`; none when the loop over the years has not ended on this fuel, or an
array was read past its end. -/
def getlocaltimeSafe (fuel : Nat) (t tz dst : Int) : Option LocalTm :=
  let t := localSeconds t tz dst
  let days := t.tdiv 86400
  let seconds := t.tmod 86400
  match run yearTurn fuel ⟨days, 1970⟩ with
  | none => none
  | some y =>
      let mdays := if yearIsLeapyear y.index ≠ 0 then leapMdays else meanMdays
      match run (monthTurn mdays) 13 ⟨y.days, 0⟩ with
      | some (some m) =>
          some ⟨⟨y.index - 1900, m.index, m.days + 1, seconds.tdiv 3600,
            (seconds.tmod 3600).tdiv 60, (seconds.tmod 3600).tmod 60⟩,
            (days + 4).tmod 7, y.days, dst⟩
      | some none => none
      | none => none

/-- Enough fuel: a turn for each day. -/
def localFuel (t tz dst : Int) : Nat := (localSeconds t tz dst / 86400).toNat + 1

/-- The call ends. -/
def GetlocaltimeReturns (t tz dst : Int) (loc : LocalTm) : Prop :=
  ∃ fuel, getlocaltimeSafe fuel t tz dst = some loc

/-- No sum or product of the adjustment leaves its type, and `tm_year` does not wrap. -/
structure LocalFits (t tz dst : Int) : Prop where
  flag_lt : dst.natAbs < 596524
  zone_ge : -2 ^ 63 ≤ t - tz
  second_ge : -2 ^ 63 ≤ t - tz + 3600 * dst
  second_lt : t - tz + 3600 * dst < 2 ^ 55

theorem LocalFits.localSeconds_eq {t tz dst : Int} (h : LocalFits t tz dst) :
    localSeconds t tz dst = t - tz + 3600 * dst := by
  obtain ⟨hflag, hzone, hge, hlt⟩ := h
  have hproduct : Int.bmod (3600 * dst) (2 ^ 32) = 3600 * dst :=
    Int.bmod_eq_of_le (by omega) (by omega)
  have hmoved : toSb8 (t - tz) = t - tz := Int.bmod_eq_of_le (by omega) (by omega)
  rw [localSeconds, hproduct, hmoved]
  exact Int.bmod_eq_of_le (by omega) (by omega)

/-! ## The years -/

theorem yearLength_eq (y : Int) : 365 + yearIsLeapyear y = yearLength y := by
  simp only [yearIsLeapyear, yearLength, isLeap, decide_eq_true_eq]
  split_ifs <;> omega

/-- The days are those of the year the first of them is in. -/
structure YearRest (days : Int) (s : DaysLeft Int) : Prop where
  eq : yearStart s.index + s.days = days
  days_nonneg : 0 ≤ s.days
  year_ge : 1970 ≤ s.index

theorem YearRest.year_lt {days : Int} {s : DaysLeft Int} (h : YearRest days s)
    (hdays : days < 2 ^ 39) : s.index < 2 ^ 31 - 1 := by
  have heq := h.eq
  have hnonneg := h.days_nonneg
  simp only [yearStart] at heq
  omega

/-- The loop over the years leaves the days of the year that are before the day. -/
theorem yearTurn_returns {days : Int} (h0 : 0 ≤ days) (h : days < 2 ^ 39) :
    ∃ s, run yearTurn (days.toNat + 1) ⟨days, 1970⟩ = some s ∧ YearRest days s ∧
      s.days < yearLength s.index := by
  have hagain : ∀ s s', YearRest days s → yearTurn s = .again s' →
      YearRest days s' ∧ s'.days.toNat < s.days.toNat := by
    intro s s' hs hturn
    rw [yearTurn, yearLength_eq] at hturn
    split at hturn
    · cases hturn
    · rename_i hle
      have hlt := hs.year_lt h
      have hge := hs.year_ge
      have hlength := yearLength_ge s.index
      have hwrap : Int.bmod (s.index + 1) (2 ^ 32) = s.index + 1 :=
        Int.bmod_eq_of_le (by omega) (by omega)
      obtain rfl := Turn.again.inj hturn
      rw [hwrap]
      refine ⟨⟨?_, by dsimp only; omega, by dsimp only; omega⟩, by dsimp only; omega⟩
      show yearStart (s.index + 1) + (s.days - yearLength s.index) = days
      rw [yearStart_succ, ← hs.eq]
      omega
  have hstart : YearRest days ⟨days, 1970⟩ := by
    refine ⟨?_, h0, Int.le_refl _⟩
    have hzero : yearStart 1970 = 0 := by decide
    rw [hzero, Int.zero_add]
  obtain ⟨s, hn⟩ := run_of_measure (fun s : DaysLeft Int => s.days.toNat) hagain hstart
    (Nat.lt_succ_self days.toNat)
  refine ⟨s, hn, run_invariant (P := YearRest days)
    (Q := fun s => YearRest days s ∧ s.days < yearLength s.index)
    (fun s s' hs hturn => (hagain s s' hs hturn).1) ?_ hstart hn⟩
  intro s r hs hturn
  rw [yearTurn, yearLength_eq] at hturn
  split at hturn
  · rename_i hlt
    obtain rfl := Turn.leave.inj hturn
    exact ⟨hs, hlt⟩
  · cases hturn

/-! ## The months -/

/-- The table of the code is that of the calendar. -/
theorem mdays_eq (y : Int) : (if yearIsLeapyear y ≠ 0 then leapMdays else meanMdays)
    = (monthLengths (isLeap y)).map Int.ofNat := by
  have hleap : yearIsLeapyear y ≠ 0 ↔ isLeap y = true := by
    simp only [yearIsLeapyear, isLeap, decide_eq_true_eq]
    split_ifs <;> omega
  by_cases h : isLeap y = true
  · rw [if_pos (hleap.mpr h), h]
    rfl
  · rw [if_neg (hleap.not.mpr h), (Bool.not_eq_true _).mp h]
    rfl

theorem mdays_getElem? (leap : Bool) (m : Fin 12) :
    ((monthLengths leap).map Int.ofNat)[(m : Nat)]? = some (monthLength leap m : Int) := by
  revert leap m
  decide

/-- One turn, in a month of the year. -/
theorem monthTurn_cases (leap : Bool) {m : Nat} (hm : m < 12) (left : Int) :
    (left < monthLength leap m ∧ monthTurn ((monthLengths leap).map Int.ofNat) ⟨left, m⟩
        = .leave (some ⟨left, m⟩)) ∨
      monthLength leap m ≤ left ∧ monthTurn ((monthLengths leap).map Int.ofNat) ⟨left, m⟩
        = .again ⟨left - monthLength leap m, m + 1⟩ := by
  have hget : _ = some (monthLength leap m : Int) := mdays_getElem? leap ⟨m, hm⟩
  simp only [monthTurn, hget]
  by_cases hle : left ≥ monthLength leap m
  · exact .inr ⟨hle, if_pos hle⟩
  · exact .inl ⟨by omega, if_neg hle⟩

/-- The loop over the months leaves in the month of the day, with the days of it before the day. -/
theorem monthTurn_returns (leap : Bool) {days : Int} (h : days < monthStart leap 12) (k : Nat) :
    ∀ {m : Nat} {left : Int}, m + k = 11 → 0 ≤ left → monthStart leap m + left = days →
    ∃ (m' : Fin 12) (left' : Int),
      run (monthTurn ((monthLengths leap).map Int.ofNat)) (k + 2) ⟨left, m⟩
        = some (some ⟨left', m'⟩) ∧
      0 ≤ left' ∧ left' < monthLength leap m' ∧ monthStart leap m' + left' = days := by
  induction k with
  | zero =>
      intro m left hm h0 hdays
      obtain rfl : m = 11 := hm
      rcases monthTurn_cases leap (show 11 < 12 by decide) left with ⟨hlt, hturn⟩ | ⟨hle, -⟩
      · exact ⟨11, left, run_succ_leave hturn, h0, hlt, hdays⟩
      · have hsucc : monthStart leap 12 = monthStart leap 11 + monthLength leap 11 :=
          monthStart_succ leap 11
        omega
  | succ k ih =>
      intro m left hm h0 hdays
      have hlt12 : m < 12 := by omega
      rcases monthTurn_cases leap hlt12 left with ⟨hlt, hturn⟩ | ⟨hle, hturn⟩
      · exact ⟨⟨m, hlt12⟩, left, run_succ_leave hturn, h0, hlt, hdays⟩
      · have hsucc : monthStart leap (m + 1) = monthStart leap m + monthLength leap m :=
          monthStart_succ leap ⟨m, hlt12⟩
        rw [run_succ_again hturn]
        exact ih (by omega) (by omega) (by omega)

/-! ## The fields -/

/-- The fields are those of the moment. -/
structure IsMoment (tm : Tm) (m : Moment) : Prop where
  year_eq : tm.tmYear = m.date.year - 1900
  month_eq : tm.tmMon = (m.date.month : Nat)
  day_eq : tm.tmMday = m.date.day
  hour_eq : tm.tmHour = (m.hour : Nat)
  minute_eq : tm.tmMin = (m.minute : Nat)
  second_eq : tm.tmSec = (m.second : Nat)

/-- The time of day that the code takes out of the seconds of a day. -/
theorem exists_clock {secs : Int} (h0 : 0 ≤ secs) (h : secs < 86400) :
    ∃ (hour : Fin 24) (minute second : Fin 60), secs.tdiv 3600 = (hour : Nat) ∧
      (secs.tmod 3600).tdiv 60 = (minute : Nat) ∧ (secs.tmod 3600).tmod 60 = (second : Nat) ∧
      ((hour * 3600 + minute * 60 + second : Nat) : Int) = secs := by
  have hhour : secs.tdiv 3600 = secs / 3600 := Int.tdiv_eq_ediv_of_nonneg h0
  have hmod : secs.tmod 3600 = secs % 3600 := Int.tmod_eq_emod_of_nonneg h0
  have hmin : (secs % 3600).tdiv 60 = secs % 3600 / 60 :=
    Int.tdiv_eq_ediv_of_nonneg (Int.emod_nonneg _ (by decide))
  have hsec : (secs % 3600).tmod 60 = secs % 3600 % 60 :=
    Int.tmod_eq_emod_of_nonneg (Int.emod_nonneg _ (by decide))
  refine ⟨⟨(secs / 3600).toNat, by omega⟩, ⟨(secs % 3600 / 60).toNat, by omega⟩,
    ⟨(secs % 3600 % 60).toNat, by omega⟩, ?_, ?_, ?_, ?_⟩
  · rw [hhour]
    exact (Int.toNat_of_nonneg (by omega)).symm
  · rw [hmod, hmin]
    exact (Int.toNat_of_nonneg (by omega)).symm
  · rw [hmod, hsec]
    exact (Int.toNat_of_nonneg (by omega)).symm
  · dsimp only
    omega

theorem IsMoment.unique {tm : Tm} {m m' : Moment} (h : IsMoment tm m) (h' : IsMoment tm m') :
    m = m' := by
  have hyear := h.year_eq.symm.trans h'.year_eq
  have hmonth := h.month_eq.symm.trans h'.month_eq
  have hday := h.day_eq.symm.trans h'.day_eq
  have hhour := h.hour_eq.symm.trans h'.hour_eq
  have hminute := h.minute_eq.symm.trans h'.minute_eq
  have hsecond := h.second_eq.symm.trans h'.second_eq
  exact Moment.ext (Date.ext (by omega) (Fin.ext (by omega)) (by omega)) (Fin.ext (by omega))
    (Fin.ext (by omega)) (Fin.ext (by omega))

/-- From 0 on: the moment of the second, its day of the week and its day of the year. -/
theorem getlocaltime_of_nonneg {t tz dst : Int} (h0 : 0 ≤ localSeconds t tz dst)
    (h : localSeconds t tz dst < 2 ^ 55) :
    ∃ loc m, getlocaltimeSafe (localFuel t tz dst) t tz dst = some loc ∧
      m.seconds = localSeconds t tz dst ∧ IsMoment loc.tm m ∧
      loc.tmWday = (m.date.dayNumber + 4) % 7 ∧ loc.tmYday = m.date.dayOfYear ∧
      loc.tmIsdst = dst := by
  rw [localFuel]
  generalize hT : localSeconds t tz dst = T at h0 h ⊢
  have hdays : T.tdiv 86400 = T / 86400 := Int.tdiv_eq_ediv_of_nonneg h0
  have hseconds : T.tmod 86400 = T % 86400 := Int.tmod_eq_emod_of_nonneg h0
  obtain ⟨y, hy, hrest, hylt⟩ := @yearTurn_returns (T / 86400) (by omega) (by omega)
  rw [← monthStart_all] at hylt
  obtain ⟨mon, left, hm, hleft0, hleftlt, hleft⟩ :=
    @monthTurn_returns (isLeap y.index) y.days hylt 11 0 y.days rfl hrest.days_nonneg (by
      have hzero : monthStart (isLeap y.index) 0 = 0 := rfl
      rw [hzero]
      omega)
  obtain ⟨hour, minute, second, hhour, hminute, hsecond, hclock⟩ :=
    @exists_clock (T % 86400) (by omega) (by omega)
  have hday : ((left.toNat + 1 : Nat) : Int) = left + 1 := by omega
  let date : Date := ⟨y.index, mon, left.toNat + 1, Nat.succ_pos _, by omega⟩
  have hofYear : date.dayOfYear = y.days := by
    show (monthStart (isLeap y.index) mon : Int) + (((left.toNat + 1 : Nat) : Int) - 1) = y.days
    omega
  have hnumber : date.dayNumber = T / 86400 := by
    rw [Date.dayNumber, hofYear]
    exact hrest.eq
  have hwday : (T / 86400 + 4).tmod 7 = (T / 86400 + 4) % 7 :=
    Int.tmod_eq_emod_of_nonneg (by omega)
  refine ⟨⟨⟨y.index - 1900, (mon : Nat), left + 1, (T % 86400).tdiv 3600,
    ((T % 86400).tmod 3600).tdiv 60, ((T % 86400).tmod 3600).tmod 60⟩,
    (T / 86400 + 4).tmod 7, y.days, dst⟩, ⟨date, hour, minute, second⟩, ?_, ?_,
    ⟨rfl, rfl, hday.symm, hhour, hminute, hsecond⟩, ?_, hofYear.symm, rfl⟩
  · simp only [getlocaltimeSafe, hT, hdays, hseconds, hy, mdays_eq, hm]
  · rw [Moment.seconds, hnumber, Moment.secondOfDay, hclock]
    omega
  · rw [hnumber, hwday]

theorem tdiv_tmod_nonpos {n : Int} (hn : 0 ≤ n) {i : Int} (hi : i ≤ 0) :
    i.tdiv n ≤ 0 ∧ i.tmod n ≤ 0 := by
  have hdiv := Int.tdiv_nonneg (Int.neg_nonneg.mpr hi) hn
  have hmod := Int.tmod_nonneg n (Int.neg_nonneg.mpr hi)
  rw [Int.neg_tdiv] at hdiv
  rw [Int.neg_tmod] at hmod
  exact ⟨Int.neg_nonneg.mp hdiv, Int.neg_nonneg.mp hmod⟩

/-- On day 0 or before, the loops do nothing. -/
theorem getlocaltime_of_days {t tz dst : Int} (h : (localSeconds t tz dst).tdiv 86400 ≤ 0) :
    ∃ loc, GetlocaltimeReturns t tz dst loc ∧ loc.tmIsdst = dst ∧
      loc.tm.tmMday = (localSeconds t tz dst).tdiv 86400 + 1 ∧
      loc.tm.tmHour = ((localSeconds t tz dst).tmod 86400).tdiv 3600 ∧
      loc.tm.tmMin = (((localSeconds t tz dst).tmod 86400).tmod 3600).tdiv 60 ∧
      loc.tm.tmSec = (((localSeconds t tz dst).tmod 86400).tmod 3600).tmod 60 := by
  generalize hdays : (localSeconds t tz dst).tdiv 86400 = days at h
  have hyear : yearTurn ⟨days, 1970⟩ = .leave ⟨days, 1970⟩ := by
    rw [yearTurn, yearLength_eq]
    have hlength := yearLength_ge 1970
    exact if_pos (by dsimp only; omega)
  rcases monthTurn_cases (isLeap 1970) (show 0 < 12 by decide) days with ⟨-, hmonth⟩ | ⟨hle, -⟩
  · generalize hsecs : (localSeconds t tz dst).tmod 86400 = secs
    have hcall : getlocaltimeSafe 1 t tz dst = some ⟨⟨1970 - 1900, (0 : Nat), days + 1,
        secs.tdiv 3600, (secs.tmod 3600).tdiv 60, (secs.tmod 3600).tmod 60⟩,
        (days + 4).tmod 7, days, dst⟩ := by
      simp only [getlocaltimeSafe, hdays, hsecs, run_succ_leave hyear, mdays_eq,
        run_succ_leave hmonth]
    exact ⟨_, ⟨1, hcall⟩, rfl, rfl, rfl, rfl, rfl⟩
  · have hlong : monthLength (isLeap 1970) 0 = 31 := by decide
    omega

/-- Below 0 there is a field that no moment has. -/
theorem getlocaltime_of_neg {t tz dst : Int} (hneg : localSeconds t tz dst < 0) :
    ∃ loc, GetlocaltimeReturns t tz dst loc ∧ loc.tmIsdst = dst ∧
      ¬ ∃ m, IsMoment loc.tm m := by
  obtain ⟨hdays, hsecs⟩ := tdiv_tmod_nonpos (show (0 : Int) ≤ 86400 by decide) hneg.le
  obtain ⟨loc, hloc, hdst, hday, hhour, hmin, hsec⟩ := getlocaltime_of_days hdays
  refine ⟨loc, hloc, hdst, fun ⟨m, hm⟩ => ?_⟩
  have hparts := Int.mul_tdiv_add_tmod (localSeconds t tz dst) 86400
  generalize (localSeconds t tz dst).tmod 86400 = secs at *
  have hhours := Int.mul_tdiv_add_tmod secs 3600
  have hminutes := Int.mul_tdiv_add_tmod (secs.tmod 3600) 60
  have hday' := hm.day_eq
  have hhour' := hm.hour_eq
  have hmin' := hm.minute_eq
  have hsec' := hm.second_eq
  have hpos := m.date.day_pos
  -- the time of day is not negative, and so it is 0, and the day is
  omega

/-! ## The whole call -/

end Convd
