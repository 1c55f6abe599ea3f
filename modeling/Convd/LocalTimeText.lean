/-
# `Convd.LocalTimeText` — time stamps as text, by the calendar

The texts of time stamps go through `localtime_r` and `mktime` of the C library.  In a zone of a
fixed offset the first is what `getlocaltime_safe` computes, and the second the formula that
POSIX gives for the seconds since the epoch, moved by the offset.  Then

    milliseconds  →  text of the moment  →  the same number  (`cstrTimestampToDatetime_round`)
    clock         →  text of the moment, " UTC" behind it    (`formatNowtimeofday_text`)

for every moment of the years 1970 to 9999.  The second text is one that `cstr_parse_timestamp`
reads up to the zone, and does not read with it.
-/
import Convd.LocalTime
import Convd.TimeUt
import Convd.TimestampText
import Mathlib.Data.Fintype.Basic
import Mathlib.Tactic.FinCases

namespace Convd

open CString Block Decimal Gregorian

/-! ## A zone -/

/-- The seconds since the epoch of the fields of a `struct tm`. -/
def epochSeconds (t : Tm) : Int :=
  (yearStart (t.tmYear + 1900) + monthStart (isLeap (t.tmYear + 1900)) t.tmMon.toNat
    + (t.tmMday - 1)) * 86400 + (t.tmHour * 3600 + t.tmMin * 60 + t.tmSec)

/-- The second that ends the year 9999. -/
def year10000 : Int := yearStart 10000 * 86400

/-- `localtime_r` and `mktime`, `tz` seconds west of Greenwich, in the years 1970 to 9999. -/
structure CivilZone (tz : Int) (localtime : Int64 → Option Tm) (mktime : Tm → Int64) : Prop where
  localtime_eq : ∀ s : Int64, 0 ≤ s.toInt - tz → s.toInt - tz < year10000 →
    ∃ t m, localtime s = some t ∧ IsMoment t m ∧ m.seconds = s.toInt - tz
  mktime_eq : ∀ t m, IsMoment t m → 0 ≤ m.seconds → m.seconds < year10000 →
    mktime t = Int64.ofInt (epochSeconds t + tz)

section Zone

variable {tm : Tm} {m : Moment} {tz : Int}

theorem IsMoment.epochSeconds_eq (h : IsMoment tm m) : epochSeconds tm = m.seconds := by
  obtain ⟨hyear, hmonth, hday, hhour, hminute, hsecond⟩ := h
  have hback : tm.tmYear + 1900 = m.date.year := by omega
  rw [epochSeconds, hback, hmonth, hday, hhour, hminute, hsecond, Moment.seconds, Date.dayNumber,
    Date.dayOfYear, Moment.secondOfDay, Int.toNat_natCast]
  omega

/-- A moment from 1970 to 9999 has a year of four digits. -/
theorem year_bounds_of_seconds (h0 : 0 ≤ m.seconds) (h : m.seconds < year10000) :
    1970 ≤ m.date.year ∧ m.date.year ≤ 9999 := by
  have hday := m.secondOfDay_lt
  have hof := m.date.dayOfYear_nonneg
  have hlt := m.date.dayOfYear_lt
  rw [Moment.seconds, Date.dayNumber] at h0 h
  rw [year10000] at h
  constructor
  · by_contra hnot
    have hzero : yearStart 1970 = 0 := by decide
    have hmono : yearStart (m.date.year + 1) ≤ yearStart 1970 :=
      yearStart_le (by omega)
    rw [yearStart_succ, hzero] at hmono
    omega
  · by_contra hnot
    have hmono : yearStart 10000 ≤ yearStart m.date.year :=
      yearStart_le (by omega)
    omega

theorem monthLength_le (leap : Bool) (mon : Fin 12) : monthLength leap mon ≤ 31 := by
  revert leap mon
  decide

/-- `time_is_valid` accepts the dates of these years. -/
theorem timeIsValid_of_date {y hour min sec : Int} {mon : Fin 12} {day : Nat}
    (hy : 1900 ≤ y ∧ y ≤ 9999) (hpos : 0 < day) (hle : day ≤ monthLength (isLeap y) mon)
    (hh : 0 ≤ hour ∧ hour ≤ 24) (hmi : 0 ≤ min ∧ min ≤ 59) (hs : 0 ≤ sec ∧ sec ≤ 60) :
    timeIsValid y ((mon : Nat) + 1) day hour min sec = true := by
  have hle31 := monthLength_le (isLeap y) mon
  have hmon := mon.isLt
  have hleap : tmYearIsLeap y = isLeap y := by
    rw [Bool.eq_iff_iff, tmYearIsLeap, isLeap, decide_eq_true_eq]
    split_ifs <;> simp <;> omega
  have hfirst : ¬ (y < 1900 ∨ y > 9999 ∨ ((mon : Nat) : Int) + 1 ≤ 0 ∨
      ((mon : Nat) : Int) + 1 > 12 ∨ (day : Int) ≤ 0 ∨ (day : Int) > 31 ∨ hour < 0 ∨ hour > 24 ∨
      min < 0 ∨ min > 59 ∨ sec < 0 ∨ sec > 60) := by omega
  rw [timeIsValid, if_neg hfirst, hleap]
  clear hleap hle31 hfirst
  generalize isLeap y = leap at hle
  cases leap <;> fin_cases mon <;> simp [monthLength, monthLengths] at hle ⊢ <;> omega

/-- So it accepts the moments. -/
theorem IsMoment.valid (h : IsMoment tm m) (hyear : 1970 ≤ m.date.year ∧ m.date.year ≤ 9999) :
    tm.Valid := by
  have hh := m.hour.isLt
  have hmi := m.minute.isLt
  have hs := m.second.isLt
  have hback : tm.tmYear + 1900 = m.date.year := by
    rw [h.year_eq]
    omega
  rw [Tm.Valid, hback, h.month_eq, h.day_eq, h.hour_eq, h.minute_eq, h.second_eq]
  exact timeIsValid_of_date (by omega) m.date.day_pos m.date.day_le (by omega) (by omega) (by omega)

variable {localtime : Int64 → Option Tm} {mktime : Tm → Int64}

/-- `mktime` gives the second that `localtime_r` was asked for. -/
theorem CivilZone.inverse (hzone : CivilZone tz localtime mktime) {s : Int64}
    (h0 : 0 ≤ s.toInt - tz) (h : s.toInt - tz < year10000) :
    ∃ t m, localtime s = some t ∧ IsMoment t m ∧ m.seconds = s.toInt - tz ∧ t.Valid ∧
      mktime t = s := by
  obtain ⟨t, m, hlocal, hm, hseconds⟩ := hzone.localtime_eq s h0 h
  rw [← hseconds] at h0 h
  refine ⟨t, m, hlocal, hm, hseconds, hm.valid (year_bounds_of_seconds h0 h), ?_⟩
  rw [hzone.mktime_eq t m hm h0 h, hm.epochSeconds_eq, hseconds, Int.sub_add_cancel,
    Int64.ofInt_toInt]

theorem localSeconds_of_small {t : Int} (h0 : 0 ≤ t - tz) (h : t - tz < 2 ^ 55) :
    localSeconds t tz 0 = t - tz := by
  have hfits : LocalFits t tz 0 := ⟨by decide, by omega, by omega, by omega⟩
  rw [hfits.localSeconds_eq, Int.mul_zero, Int.add_zero]

theorem year10000_lt : year10000 < 2 ^ 38 := by decide

/-- `localtime_r`, as `getlocaltime_safe` computes it. -/
def safeLocaltime (tz : Int) (s : Int64) : Option Tm :=
  if 0 ≤ s.toInt - tz ∧ s.toInt - tz < year10000 then
    (getlocaltimeSafe (localFuel s.toInt tz 0) s.toInt tz 0).map LocalTm.tm
  else none

/-- It is one of a zone of a fixed offset. -/
theorem civilZone_safe (tz : Int) :
    CivilZone tz (safeLocaltime tz) fun t => Int64.ofInt (epochSeconds t + tz) where
  localtime_eq := by
    intro s h0 h
    have hlt := year10000_lt
    have hlocal := @localSeconds_of_small tz s.toInt h0 (by omega)
    obtain ⟨loc, m, hloc, hseconds, hm, -⟩ := @getlocaltime_of_nonneg s.toInt tz 0
      (hlocal ▸ h0) (by rw [hlocal]; omega)
    rw [hlocal] at hseconds
    refine ⟨loc.tm, m, ?_, hm, hseconds⟩
    rw [safeLocaltime, if_pos ⟨h0, h⟩, hloc]
    rfl
  mktime_eq := fun t m _ _ _ => rfl

end Zone

/-! ## Numbers of milliseconds -/

section Number

variable {n : Nat}

/-- `%d` of a number prints its digits. -/
theorem fmtInt_one (n : Nat) : fmtInt 1 n = padded (Nat.log 10 n + 1) n := by
  rw [fmtInt_nat, Nat.max_eq_right (Nat.succ_pos _)]

theorem value_fmtInt_one (n : Nat) : value (fmtInt 1 n) = n := by
  rw [fmtInt_one]
  exact value_padded_of_lt (Nat.lt_pow_succ_log_self (by decide) n)

theorem isdigit_of_mem_fmtInt_one {c : UInt8} (h : c ∈ fmtInt 1 n) : isdigit c = true := by
  rw [fmtInt_one] at h
  exact isdigit_of_mem_padded h

theorem length_fmtInt_one (h : n < 2 ^ 64) :
    0 < (fmtInt 1 n).length ∧ (fmtInt 1 n).length ≤ 20 := by
  have hlog : Nat.log 10 n < 20 := by
    rcases Nat.eq_zero_or_pos n with rfl | hpos
    · rw [Nat.log_zero_right]
      decide
    · exact Nat.log_lt_of_lt_pow (Nat.ne_of_gt hpos) (by omega)
  rw [fmtInt_one, length_padded]
  omega

/-- The decimal text of a number is read as the number. -/
theorem readStamp_fmtInt {b : Block} {p : Nat} {m : UInt64} (h : StrAt b p (fmtInt 1 m.toNat)) :
    readStamp b p (-1) = some (1, m) := by
  obtain ⟨hpos, hle⟩ := length_fmtInt_one m.toNat_lt
  have hlen : stampLen (fmtInt 1 m.toNat) (-1) = (fmtInt 1 m.toNat).length := by
    rw [stampLen, if_pos rfl]
    omega
  have hdigits : numeral (fmtInt 1 m.toNat) = (false, fmtInt 1 m.toNat) :=
    numeral_of_isdigit fun c hc => isdigit_of_mem_fmtInt_one hc
  have hempty : (fmtInt 1 m.toNat).isEmpty = false :=
    List.isEmpty_eq_false_iff.mpr (List.ne_nil_of_length_pos hpos)
  have hread : strtoull (fmtInt 1 m.toNat) = ⟨m, false, false⟩ := by
    rw [strtoull, hdigits]
    dsimp only
    rw [value_fmtInt_one, if_pos m.toNat_lt, hempty, UInt64.ofNat_toNat]
    rfl
  rw [readStamp_eq h (.inl rfl), hlen, ub8Of, List.take_length, if_neg (Nat.ne_of_gt hpos), hread]
  rfl

end Number

/-! ## There and back -/

/-- The text of a moment, with the milliseconds that are over. -/
def momentText (m : Moment) (msec : Nat) : List UInt8 :=
  dateText m.date.year ((m.date.month : Nat) + 1) m.date.day ++
    32 :: clockText (m.hour : Nat) (m.minute : Nat) (m.second : Nat) ++
    if msec = 0 then [] else msecText msec

theorem IsMoment.coreText_eq {t : Tm} {mom : Moment} (h : IsMoment t mom) (hvalid : t.Valid)
    (m : UInt64) : coreText (stampDatetime t m) = momentText mom (m.toNat % 1000) := by
  obtain ⟨hyear, hmonth, hday, hhour, hminute, hsecond⟩ := h
  have hmod : (m % 1000).toNat = m.toNat % 1000 := UInt64.toNat_mod m 1000
  have hback : t.tmYear + 1900 = mom.date.year := by omega
  rw [coreText_stampDatetime hvalid, momentText, hmod, hback, hmonth, hday, hhour, hminute, hsecond]
  by_cases hzero : m.toNat % 1000 = 0
  · rw [if_pos hzero, if_neg (by omega)]
  · rw [if_neg hzero, if_pos (by omega)]

/-- The seconds of a number of milliseconds are no negative ones. -/
theorem toInt_seconds (m : UInt64) : (m / 1000).toInt64.toInt = (m.toNat / 1000 : Nat) := by
  have hdiv : (m / 1000).toNat = m.toNat / 1000 := UInt64.toNat_div m 1000
  have hlt := m.toNat_lt
  have hsmall : 2 * (m / 1000).toBitVec.toNat < 2 ^ 64 := by
    rw [UInt64.toNat_toBitVec, hdiv]
    omega
  show (m / 1000).toBitVec.toInt = _
  rw [BitVec.toInt_eq_toNat_of_lt hsmall, UInt64.toNat_toBitVec, hdiv]

/-- The fields of a time stamp are read back as it. -/
theorem cstrParseTimestamp_stampDatetime {out : Block} {p : Nat} {t : Tm} {m : UInt64}
    {mktime : Tm → Int64} (hvalid : t.Valid) (hmktime : mktime t = (m / 1000).toInt64)
    (hstr : StrAt out p (coreText (stampDatetime t m))) (dt₀ : CstrDatetime) :
    cstrParseTimestamp mktime out p (some dt₀) = some (m, some (stampDatetime t m)) := by
  have hne : mktime (stampDatetime t m).tm ≠ -1 := by
    rw [stampDatetime_tm hvalid, hmktime]
    intro hneg
    have hminus : ((m.toNat / 1000 : Nat) : Int) = -1 :=
      (toInt_seconds m).symm.trans (congrArg _ hneg)
    omega
  have haccepted : Accepted mktime (coreText (stampDatetime t m)) (stampDatetime t m) :=
    ⟨List.append_nil (coreText _) ▸ denotes_text (printable_stampDatetime hvalid m),
      (printable_stampDatetime hvalid m).valid, hne⟩
  rw [cstrParseTimestamp_of_accepted hstr haccepted, stampDatetime_stamp hvalid hmktime,
    if_neg fun hnull => nomatch hnull.2]
  rfl

/-- A number of milliseconds is printed as the date and the time of its moment, and read back as
it was.  `localtime_r` and `mktime` are those of a zone of a fixed offset. -/
theorem cstrTimestampToDatetime_round {tz : Int} {localtime : Int64 → Option Tm}
    {mktime : Tm → Int64} (hzone : CivilZone tz localtime mktime) {b timestr : Block} {p : Nat}
    {m : UInt64} (h : StrAt b p (fmtInt 1 m.toNat)) (hlen : timestr.length = 24)
    (h0 : 0 ≤ (m.toNat / 1000 : Nat) - tz) (hlt : (m.toNat / 1000 : Nat) - tz < year10000) :
    ∃ mom out, mom.seconds = (m.toNat / 1000 : Nat) - tz ∧
      cstrTimestampToDatetime localtime b p (-1) timestr = some (some out) ∧
      StrAt out 0 (momentText mom (m.toNat % 1000)) ∧
      ∀ dt₀, ∃ dt, cstrParseTimestamp mktime out 0 (some dt₀) = some (m, some dt) := by
  have hsecond := toInt_seconds m
  rw [← hsecond] at h0 hlt
  obtain ⟨t, mom, hlocal, hm, hseconds, hvalid, hmktime⟩ := hzone.inverse h0 hlt
  have hcases : (cstrTimestampToDatetime localtime b p (-1) timestr = some none ∧ _) ∨ _ :=
    cstrTimestampToDatetime_cases (readStamp_fmtInt h) (by decide) hlen
  rcases hcases with ⟨-, hinvalid⟩ | ⟨t', out, hlocal', -, hsome, hstr⟩
  · exact absurd hvalid (hinvalid t hlocal)
  · obtain rfl := Option.some.inj (hlocal.symm.trans hlocal')
    exact ⟨mom, out, hsecond ▸ hseconds, hsome, hm.coreText_eq hvalid m ▸ hstr,
      fun dt₀ => ⟨_, cstrParseTimestamp_stampDatetime hvalid hmktime hstr dt₀⟩⟩

theorem cstrTimestampToDatetime_round_east :
    ∃ mom out, mom.seconds = (((1577018219065 : UInt64).toNat / 1000 : Nat) : Int) - -28800 ∧
      cstrTimestampToDatetime (safeLocaltime (-28800)) (ascii "1577018219065" ++ [0]) 0 (-1)
        (List.replicate 24 255) = some (some out) ∧
      StrAt out 0 (momentText mom ((1577018219065 : UInt64).toNat % 1000)) ∧
      ∀ dt₀, ∃ dt, cstrParseTimestamp (fun t => Int64.ofInt (epochSeconds t + -28800)) out 0
        (some dt₀) = some (1577018219065, some dt) := by
  have hstr : StrAt (ascii "1577018219065" ++ [0]) 0 (fmtInt 1 (1577018219065 : UInt64).toNat) :=
    ⟨by decide +kernel, [], by decide +kernel⟩
  exact cstrTimestampToDatetime_round (civilZone_safe (-28800)) hstr rfl (by decide) (by decide)

/-! ## The clock -/

/-- `format_nowtimeofday`, when the clock is at second `tvSec`. -/
def formatNowtimeofday (fuel : Nat) (tvSec : Int) (datefmt : Block) : Option Block := do
  let loc ← getlocaltimeSafe fuel tvSec 0 0
  let (_, datefmt) ← snprintfChkdV1At datefmt 0 24
    (dateText (loc.tm.tmYear + 1900) (loc.tm.tmMon + 1) loc.tm.tmMday ++
      32 :: clockText loc.tm.tmHour loc.tm.tmMin loc.tm.tmSec ++ ascii " UTC")
  put datefmt 23 0

/-- A character that is in no part of a time stamp. -/
structure Foreign (c : UInt8) : Prop where
  isdigit_eq : isdigit c = false
  isspace_eq : isspace c = false
  notMem : c ∉ [43, 45, 46, 58, 69, 87]

theorem Foreign.ne_blank {c : UInt8} (hc : Foreign c) : c ≠ 32 := by
  rintro rfl
  exact absurd hc.isspace_eq (by decide)

section Refused

variable {text z : List UInt8} {c : UInt8}

/-- Where all the tests are passed, each character passes one. -/
theorem exists_of_allOf {fs : List (UInt8 → Bool)} (h : allOf z fs = true)
    (hlen : z.length ≤ fs.length) (hc : c ∈ z) : ∃ f ∈ fs, f c = true := by
  induction z generalizing fs with
  | nil => cases hc
  | cons a z ih =>
      cases fs with
      | nil => cases hlen
      | cons f fs =>
          rw [allOf, Bool.and_eq_true] at h
          rcases List.mem_cons.mp hc with rfl | hc
          · exact ⟨f, List.mem_cons_self, h.1⟩
          · obtain ⟨g, hg, hgc⟩ := ih h.2 (Nat.le_of_succ_le_succ hlen) hc
            exact ⟨g, List.mem_cons_of_mem f hg, hgc⟩

theorem Foreign.notMem_zone (hc : Foreign c) (hnul : 0 ∉ z) (hz : zoneValue z ≠ -1) : c ∉ z := by
  obtain ⟨hdigit, -, hsep⟩ := hc
  simp only [List.mem_cons, List.not_mem_nil, or_false, not_or] at hsep
  cases z with
  | nil => exact List.not_mem_nil
  | cons a z =>
      obtain ⟨hsign, htests, -⟩ := not_not.mp fun hnot => hz (if_neg hnot)
      have hnul' : 0 ∉ z := fun hmem => hnul (List.mem_cons_of_mem a hmem)
      rw [List.mem_cons, not_or]
      constructor
      · rintro rfl
        simp [hsep] at hsign
      · intro hmem
        have hlen : z.length ≤ zoneTests.length := by
          rw [length_of_zoneTests hnul' htests]
          decide
        obtain ⟨f, hf, hpass⟩ := exists_of_allOf htests hlen hmem
        have hne : c ≠ 0 := fun hzero => hnul' (hzero ▸ hmem)
        simp only [zoneTests, List.mem_cons, List.not_mem_nil, or_false] at hf
        rcases hf with rfl | rfl | rfl | rfl | rfl | rfl <;>
          simp [hdigit, isColon, hsep, hne] at hpass

/-- Where there is one, outside quotes, the text is no time stamp. -/
theorem Foreign.not_denotes (hc : Foreign c) (hmem : c ∈ text) (hnul : 0 ∉ text)
    (hquote : 39 ∉ text) (hlen : text.length < 2 ^ 31) (dt : CstrDatetime) :
    ¬ Denotes text dt := by
  rintro ⟨hdigital, body, quoted, r, hzone, hunquoted, -, hr⟩
  have hsep := hc.notMem
  simp only [List.mem_cons, List.not_mem_nil, or_false, not_or] at hsep
  -- it is no part of the zone
  have hbody : c ∈ body ∧ body ⊆ text ∧ body.length ≤ text.length := by
    rw [zoneOf] at hzone
    split at hzone
    · obtain rfl := (Prod.mk.inj (Option.some.inj hzone)).1
      exact ⟨hmem, List.Subset.refl _, Nat.le_refl _⟩
    · rename_i i hi
      split at hzone
      · cases hzone
      · rename_i hvalue
        obtain rfl := (Prod.mk.inj (Option.some.inj hzone)).1
        have hnot := hc.notMem_zone (fun h => hnul (List.drop_subset i text h)) hvalue
        rw [← List.take_append_drop i text, List.mem_append] at hmem
        exact ⟨hmem.resolve_right hnot, List.take_subset i text, List.length_take_le' i text⟩
  obtain ⟨hmem, hsubset, hle⟩ := hbody
  rw [lrTrimmed_of_lt (by omega)] at hunquoted
  -- nor is it trimmed
  have hstrip : c ∈ List.strip isspace body := by
    obtain ⟨w, w', hsplit, hw, hw'⟩ := @List.strip_split _ isspace body
    rw [hsplit, List.mem_append, List.mem_append] at hmem
    have hnot : ¬ isspace c = true := by simp [hc.isspace_eq]
    exact (hmem.resolve_right fun h => hnot (hw' c h)).resolve_left fun h => hnot (hw c h)
  have hplain : 39 ∉ List.strip isspace body :=
    fun h => hquote (hsubset (List.strip_subset body h))
  generalize List.strip isspace body = s at hunquoted hstrip hplain
  generalize hm : coreText dt ++ r = m at hunquoted
  cases hunquoted with
  | plain _ =>
      obtain rfl : r = [] := hr
      rw [← hm, List.append_nil] at hstrip
      exact notMem_coreText hdigital hc.isdigit_eq (by simp [hsep, hc.ne_blank]) hstrip
  | quoted _ _ => simp at hplain

end Refused

section Clock

variable {mom : Moment} {t : Tm}

/-- 19 characters: digits and separators. -/
theorem length_momentText (h : IsMoment t mom) (hvalid : t.Valid) :
    (momentText mom 0).length = 19 := by
  have hdigital := (printable_stampDatetime hvalid 0).digital
  have hhour : 0 ≤ t.tmHour ∧ t.tmHour < 10 ^ 2 := by
    have := (timeIsValid_bounds hvalid).2.2.2.1
    omega
  have hdate := length_dateText hdigital
  have hclock := length_clockText hdigital hhour
  have hcore : coreText (stampDatetime t 0) = momentText mom 0 := h.coreText_eq hvalid 0
  rw [← hcore, coreText_stampDatetime hvalid, if_neg (by decide), List.append_nil,
    List.length_append, List.length_cons]
  dsimp only [stampDatetime] at hdate hclock
  omega

theorem notMem_momentText (h : IsMoment t mom) (hvalid : t.Valid) {c : UInt8}
    (hc : isdigit c = false) (hsep : c ∉ [45, 32, 58, 46]) : c ∉ momentText mom 0 := by
  have hcore : coreText (stampDatetime t 0) = momentText mom 0 := h.coreText_eq hvalid 0
  exact hcore ▸ notMem_coreText (printable_stampDatetime hvalid 0).digital hc hsep

/-- What is written: the date and the time of the second, and " UTC". -/
theorem formatNowtimeofday_eq {tvSec : Int} (h0 : 0 ≤ tvSec) (hlt : tvSec < year10000)
    {datefmt : Block} (hlen : 24 ≤ datefmt.length) :
    ∃ t mom out, IsMoment t mom ∧ t.Valid ∧ mom.seconds = tvSec ∧
      formatNowtimeofday (localFuel tvSec 0 0) tvSec datefmt = some out ∧
      StrAt out 0 (momentText mom 0 ++ ascii " UTC") := by
  have hsmall := year10000_lt
  have hlocal : localSeconds tvSec 0 0 = tvSec :=
    (localSeconds_of_small (by omega) (by omega)).trans (Int.sub_zero tvSec)
  obtain ⟨loc, mom, hloc, hseconds, hm, -⟩ := @getlocaltime_of_nonneg tvSec 0 0
    (hlocal.symm ▸ h0) (by omega)
  rw [hlocal] at hseconds
  have hvalid := hm.valid (year_bounds_of_seconds (hseconds.symm ▸ h0) (hseconds.symm ▸ hlt))
  have hcore : coreText (stampDatetime loc.tm 0) = momentText mom 0 := hm.coreText_eq hvalid 0
  rw [coreText_stampDatetime hvalid, if_neg (by decide), List.append_nil] at hcore
  have hnul : 0 ∉ momentText mom 0 ++ ascii " UTC" := by
    rw [List.mem_append, not_or]
    exact ⟨notMem_momentText hm hvalid (by decide) (by decide), by decide⟩
  have hsize : (momentText mom 0 ++ ascii " UTC").length = 23 := by
    rw [List.length_append, length_momentText hm hvalid]
    rfl
  obtain ⟨out, hprint, hstr⟩ := snprintfChkdV1At_whole (n := 24) (by omega) hlen hnul
  obtain ⟨hput, hstr'⟩ := hstr.put_end
  rw [hsize] at hput hstr'
  refine ⟨loc.tm, mom, out.set 23 0, hm, hvalid, hseconds, ?_, hstr'⟩
  rw [formatNowtimeofday, hloc, Option.bind_eq_bind, Option.bind_some, hcore, hprint,
    Option.bind_eq_bind, Option.bind_some]
  exact hput

/-- The clock is printed as the date and the time of its second, and " UTC".  Without that it is
read back; with it the text is refused. -/
theorem formatNowtimeofday_text {tvSec : Int} (h0 : 0 ≤ tvSec) (hlt : tvSec < year10000)
    {datefmt : Block} (hlen : 24 ≤ datefmt.length) :
    ∃ mom out, mom.seconds = tvSec ∧ (∃ fuel, formatNowtimeofday fuel tvSec datefmt = some out) ∧
      StrAt out 0 (momentText mom 0 ++ ascii " UTC") ∧
      (∀ mktime outdt, cstrParseTimestamp mktime out 0 outdt = some (-1, outdt)) ∧
      ∀ localtime mktime, CivilZone 0 localtime mktime → ∀ dt₀, ∃ dt,
        cstrParseTimestamp mktime (out.set 19 0) 0 (some dt₀)
          = some (UInt64.ofNat (tvSec.toNat * 1000), some dt) := by
  obtain ⟨t, mom, out, hm, hvalid, hseconds, hformat, hstr⟩ := formatNowtimeofday_eq h0 hlt hlen
  have hlength := length_momentText hm hvalid
  refine ⟨mom, out, hseconds, ⟨_, hformat⟩, hstr, fun mktime outdt => ?_, ?_⟩
  · -- the U is in no time stamp
    have hforeign : Foreign 85 := ⟨by decide, by decide, by decide⟩
    have hquote : 39 ∉ momentText mom 0 ++ ascii " UTC" := by
      rw [List.mem_append, not_or]
      exact ⟨notMem_momentText hm hvalid (by decide) (by decide), by decide⟩
    have hmem : 85 ∈ momentText mom 0 ++ ascii " UTC" := List.mem_append_right _ (by decide)
    have hsize : (momentText mom 0 ++ ascii " UTC").length < 2 ^ 31 := by
      rw [List.length_append, hlength]
      decide
    exact cstrParseTimestamp_of_not hstr
      (fun dt hdt => hforeign.not_denotes hmem hstr.1 hquote hsize dt hdt.denotes) outdt
  · intro localtime mktime hzone dt₀
    have hcut := hstr.cut_left
    rw [hlength, Nat.zero_add] at hcut
    have hsmall := year10000_lt
    generalize hM : UInt64.ofNat (tvSec.toNat * 1000) = m
    have hnat : m.toNat = tvSec.toNat * 1000 := by
      rw [← hM, UInt64.toNat_ofNat', Nat.mod_eq_of_lt (by omega)]
    have hmktime : mktime t = (m / 1000).toInt64 := by
      have hsecond := toInt_seconds m
      rw [hzone.mktime_eq t mom hm (hseconds.symm ▸ h0) (hseconds.symm ▸ hlt), Int.add_zero,
        hm.epochSeconds_eq, hseconds, ← Int64.ofInt_toInt (m / 1000).toInt64, hsecond]
      congr 1
      omega
    have hcore := hm.coreText_eq hvalid m
    rw [hnat, Nat.mul_mod_left] at hcore
    exact ⟨_, cstrParseTimestamp_stampDatetime hvalid hmktime (hcore.symm ▸ hcut) dt₀⟩

end Clock

theorem formatNowtimeofday_text_leap :
    ∃ mom out, mom.seconds = 1582934400 ∧
      (∃ fuel, formatNowtimeofday fuel 1582934400 (List.replicate 24 255) = some out) ∧
      StrAt out 0 (momentText mom 0 ++ ascii " UTC") ∧
      (∀ mktime outdt, cstrParseTimestamp mktime out 0 outdt = some (-1, outdt)) ∧
      ∀ localtime mktime, CivilZone 0 localtime mktime → ∀ dt₀, ∃ dt,
        cstrParseTimestamp mktime (out.set 19 0) 0 (some dt₀)
          = some (UInt64.ofNat ((1582934400 : Int).toNat * 1000), some dt) :=
  formatNowtimeofday_text (by decide) (by decide) (by decide)

end Convd
