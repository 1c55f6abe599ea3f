/-
# `Convd.ParseTimestamp` — what texts are time stamps

`Denotes text dt` says that a text is the date and time `dt`: behind its zone is cut off, it is
trimmed, and what is left, or what is between its quotes, is `coreText dt`.  The parser refuses
every other text (`parseFields_cases`) and reads these as they are meant (`parseFields_eq`).

    layout                     length      what may not come again
    2019-12-22                 10          -
    2019-12-22 12:36:59        19          :
    2019-12-22 12:36:59.065    23          :

Between quotes the length is stored in an `int`, so that characters behind the layout go
unnoticed if there are a multiple of 2 ^ 32 of them.
-/
import Convd.ParseParts

namespace Convd

open CString Block Decimal

/-! ## Texts -/

/-- The hour, as it is given to `mktime`. -/
def CstrDatetime.hourOrZero (dt : CstrDatetime) : Int := if dt.hour = -1 then 0 else dt.hour

def CstrDatetime.msecOrZero (dt : CstrDatetime) : Int :=
  if dt.millisecond = -1 then 0 else dt.millisecond

/-- A date and a time without their zone. -/
def coreText (dt : CstrDatetime) : List UInt8 :=
  dateText dt.year dt.month dt.day ++
    ((if dt.hour = -1 then [] else 32 :: clockText dt.hour dt.minute dt.second) ++
      if dt.millisecond = -1 then [] else msecText dt.millisecond)

/-- Fields that are written with as many digits as they have places, in one of the layouts. -/
structure Digital (dt : CstrDatetime) : Prop where
  year : 0 ≤ dt.year ∧ dt.year < 10 ^ 4
  month : 0 ≤ dt.month ∧ dt.month < 10 ^ 2
  day : 0 ≤ dt.day ∧ dt.day < 10 ^ 2
  minute : 0 ≤ dt.minute ∧ dt.minute < 10 ^ 2
  second : 0 ≤ dt.second ∧ dt.second < 10 ^ 2
  clock : dt.hour = -1 ∧ dt.minute = 0 ∧ dt.second = 0 ∧ dt.millisecond = -1 ∨
    0 ≤ dt.hour ∧ dt.hour < 10 ^ 2
  msec : dt.millisecond = -1 ∨ 0 ≤ dt.millisecond ∧ dt.millisecond < 10 ^ 3

/-- What goes unnoticed behind a layout. -/
def Unnoticed (quoted : Bool) (dt : CstrDatetime) (r : List UInt8) : Prop :=
  (if dt.hour = -1 then 45 ∉ r else 58 ∉ r) ∧ if quoted then r.length % 2 ^ 32 = 0 else r = []

/-- The text is the date and the time `dt`, with its zone. -/
def Denotes (text : List UInt8) (dt : CstrDatetime) : Prop :=
  Digital dt ∧ ∃ body quoted r, zoneOf text = some (body, dt.timezone) ∧
    Unquoted (lrTrimmed body) quoted (coreText dt ++ r) ∧ Unnoticed quoted dt r

/-- The arrays that are filled from it. -/
def CstrDatetime.fields (dt : CstrDatetime) : TimeFields where
  year := fmtInt 4 dt.year ++ [0]
  mon := fmtInt 2 dt.month ++ [0]
  day := fmtInt 2 dt.day ++ [0]
  hour := fmtInt 2 dt.hourOrZero ++ [0]
  min := fmtInt 2 dt.minute ++ [0]
  sec := fmtInt 2 dt.second ++ [0]
  msec := fmtInt 3 dt.msecOrZero ++ [0]
  hms := dt.hour != -1
  mmm := dt.millisecond != -1

/-! ## The printed parts -/

section Printed

variable {year mon day : Int}

/-- A field of digits. -/
structure Field (w : Nat) (f : List UInt8) : Prop where
  length : f.length = w
  digits : ∀ c ∈ f, isdigit c = true

theorem field_fmtInt {w : Nat} {n : Int} (hw : 0 < w) (h : 0 ≤ n ∧ n < 10 ^ w) :
    Field w (fmtInt w n) :=
  ⟨(fmtInt_digits hw h.1 h.2).1, (fmtInt_digits hw h.1 h.2).2.1⟩

theorem Field.notMem {w : Nat} {f : List UInt8} (h : Field w f) {c : UInt8}
    (hc : isdigit c = false) : c ∉ f := by
  intro hmem
  rw [h.digits c hmem] at hc
  cases hc

/-- A printed date has the form of one, whatever follows that has no `-`. -/
theorem parts_dateText (hy : 0 ≤ year ∧ year < 10 ^ 4) (hm : 0 ≤ mon ∧ mon < 10 ^ 2)
    (hd : 0 ≤ day ∧ day < 10 ^ 2) {r : List UInt8} (hr : 45 ∉ r) :
    Parts 45 4 (dateText year mon day ++ r) (fmtInt 4 year) (fmtInt 2 mon) (fmtInt 2 day) r := by
  have hy := field_fmtInt (by decide) hy
  have hm := field_fmtInt (by decide) hm
  have hd := field_fmtInt (by decide) hd
  refine ⟨?_, hy.length, hm.length, hd.length, hy.notMem (by decide), ?_⟩
  · simp [dateText]
  · exact fun h => (List.mem_append.mp h).elim (hd.notMem (by decide)) hr

theorem parts_clockText (hh : 0 ≤ year ∧ year < 10 ^ 2) (hm : 0 ≤ mon ∧ mon < 10 ^ 2)
    (hs : 0 ≤ day ∧ day < 10 ^ 2) {r : List UInt8} (hr : 58 ∉ r) :
    Parts 58 2 (clockText year mon day ++ r) (fmtInt 2 year) (fmtInt 2 mon) (fmtInt 2 day) r := by
  have hh := field_fmtInt (by decide) hh
  have hm := field_fmtInt (by decide) hm
  have hs := field_fmtInt (by decide) hs
  refine ⟨?_, hh.length, hm.length, hs.length, hh.notMem (by decide), ?_⟩
  · simp [clockText]
  · exact fun h => (List.mem_append.mp h).elim (hs.notMem (by decide)) hr

end Printed

/-! ## The layouts -/

section Layout

variable {b : Block} {p : Nat} {dt : CstrDatetime} {r : List UInt8}

theorem length_dateText (h : Digital dt) : (dateText dt.year dt.month dt.day).length = 10 := by
  have hy := (field_fmtInt (by decide) h.year).length
  have hm := (field_fmtInt (by decide) h.month).length
  have hd := (field_fmtInt (by decide) h.day).length
  simp [dateText, hy, hm, hd]

theorem length_clockText (h : Digital dt) (hh : 0 ≤ dt.hour ∧ dt.hour < 10 ^ 2) :
    (clockText dt.hour dt.minute dt.second).length = 8 := by
  have hh := (field_fmtInt (by decide) hh).length
  have hm := (field_fmtInt (by decide) h.minute).length
  have hs := (field_fmtInt (by decide) h.second).length
  simp [clockText, hh, hm, hs]

theorem blank_notMem_dateText (h : Digital dt) : 32 ∉ dateText dt.year dt.month dt.day := by
  have hy := (field_fmtInt (by decide) h.year).notMem (c := 32) (by decide)
  have hm := (field_fmtInt (by decide) h.month).notMem (c := 32) (by decide)
  have hd := (field_fmtInt (by decide) h.day).notMem (c := 32) (by decide)
  simp [dateText, hy, hm, hd]

/-- The layouts by what is given. -/
theorem Digital.cases (h : Digital dt) :
    (dt.hour = -1 ∧ dt.minute = 0 ∧ dt.second = 0 ∧ dt.millisecond = -1) ∨
      ((0 ≤ dt.hour ∧ dt.hour < 10 ^ 2) ∧ dt.hour ≠ -1 ∧
        (dt.millisecond = -1 ∨
          ((0 ≤ dt.millisecond ∧ dt.millisecond < 10 ^ 3) ∧ dt.millisecond ≠ -1))) := by
  refine h.clock.imp_right fun hh => ⟨hh, by omega, ?_⟩
  exact h.msec.imp_right fun hm => ⟨hm, by omega⟩

theorem zeros_eq (w : Nat) (hw : 0 < w) : zeros w = fmtInt w 0 ++ [0] := by
  have hprint : fmtInt w 0 = padded w 0 := fmtInt_of_lt (n := 0) hw (Nat.pow_pos (by decide))
  have hzeros : ∀ w, padded w 0 = List.replicate w 48 := by
    intro w
    induction w with
    | zero => rfl
    | succ w ih => rw [padded, Nat.zero_div, ih, List.replicate_succ']; rfl
  rw [zeros, hprint, hzeros]

/-- The date in front of a time is cut off, and what is behind the blank stays. -/
theorem cutDate_eq {v : List UInt8} (h : Digital dt)
    (hstr : StrAt b p (dateText dt.year dt.month dt.day ++ 32 :: v)) :
    ∃ hms b₁ b₂, cutBlank b p = .ok (hms, b₁) ∧ parseDate b₁ p
        = .ok ((fmtInt 4 dt.year ++ [0], fmtInt 2 dt.month ++ [0], fmtInt 2 dt.day ++ [0]), b₂) ∧
      StrAt b₂ hms v := by
  have hparts := parts_dateText h.year h.month h.day List.not_mem_nil
  rw [List.append_nil] at hparts
  obtain ⟨b₁, hcut, hfront, hbehind⟩ :=
    cutBlank_eq hstr (blank_notMem_dateText h) (length_dateText h)
  obtain ⟨b₂, hparse, hkeep⟩ := parseDate_eq hfront hparts
  exact ⟨_, b₁, b₂, hcut, hparse, hkeep (Nat.lt_succ_self _) hbehind⟩

theorem parseLayout_eq_date (h : Digital dt) (hhour : dt.hour = -1) (hmin : dt.minute = 0)
    (hsec : dt.second = 0) (hmsec : dt.millisecond = -1) (hstr : StrAt b p (coreText dt ++ r))
    (hr : 45 ∉ r) : parseLayout b p (coreText dt).length = .ok dt.fields := by
  have hcore : coreText dt = dateText dt.year dt.month dt.day := by simp [coreText, hhour, hmsec]
  rw [hcore] at hstr ⊢
  obtain ⟨b', hparse, -⟩ := parseDate_eq hstr (parts_dateText h.year h.month h.day hr)
  rw [length_dateText h, Int.cast_ofNat_Int, parseLayout, if_pos rfl, hparse, run_ok_bind]
  simp [CstrDatetime.fields, CstrDatetime.hourOrZero, CstrDatetime.msecOrZero, hhour, hmin, hsec,
    hmsec, zeros_eq]

theorem parseLayout_eq_clock (h : Digital dt) (hh : 0 ≤ dt.hour ∧ dt.hour < 10 ^ 2)
    (hmsec : dt.millisecond = -1) (hstr : StrAt b p (coreText dt ++ r)) (hr : 58 ∉ r) :
    parseLayout b p (coreText dt).length = .ok dt.fields := by
  have hhour : dt.hour ≠ -1 := by omega
  have hcore : coreText dt
      = dateText dt.year dt.month dt.day ++ 32 :: clockText dt.hour dt.minute dt.second := by
    simp [coreText, hhour, hmsec]
  have hlen : (coreText dt).length = 19 := by
    rw [hcore, List.length_append, List.length_cons, length_dateText h, length_clockText h hh]
  rw [hcore, List.append_assoc, List.cons_append] at hstr
  obtain ⟨hms, b₁, b₂, hcut, hparse, hbehind⟩ := cutDate_eq h hstr
  have htime := parseClock_eq hbehind (parts_clockText hh h.minute h.second hr)
  rw [hlen, Int.cast_ofNat_Int, parseLayout, if_neg (by decide), if_pos rfl, hcut, run_ok_bind]
  dsimp only
  rw [hparse, run_ok_bind]
  dsimp only
  rw [htime, run_ok_bind]
  simp [CstrDatetime.fields, CstrDatetime.hourOrZero, CstrDatetime.msecOrZero, hhour, hmsec,
    zeros_eq]

theorem parseLayout_eq_msec (h : Digital dt) (hh : 0 ≤ dt.hour ∧ dt.hour < 10 ^ 2)
    (hm : 0 ≤ dt.millisecond ∧ dt.millisecond < 10 ^ 3) (hstr : StrAt b p (coreText dt ++ r))
    (hr : 58 ∉ r) : parseLayout b p (coreText dt).length = .ok dt.fields := by
  have hhour : dt.hour ≠ -1 := by omega
  have hmsec : dt.millisecond ≠ -1 := by omega
  have hmf := field_fmtInt (by decide) hm
  have hsf := field_fmtInt (by decide) h.second
  have hcore : coreText dt = dateText dt.year dt.month dt.day ++
      32 :: (clockText dt.hour dt.minute dt.second ++ 46 :: fmtInt 3 dt.millisecond) := by
    simp [coreText, hhour, hmsec, msecText]
  have hlen : (coreText dt).length = 23 := by
    rw [hcore, List.length_append, List.length_cons, List.length_append, List.length_cons,
      length_dateText h, length_clockText h hh, hmf.length]
  rw [hcore, List.append_assoc, List.cons_append, List.append_assoc, List.cons_append] at hstr
  obtain ⟨hms, b₁, b₂, hcut, hparse, hbehind⟩ := cutDate_eq h hstr
  have htail : 58 ∉ 46 :: (fmtInt 3 dt.millisecond ++ r) := by
    simp [hmf.notMem (c := 58) (by decide), hr]
  have htime := parseClockMsec_eq hbehind (parts_clockText hh h.minute h.second htail)
    (hsf.notMem (by decide)) hmf.length
  rw [hlen, Int.cast_ofNat_Int, parseLayout, if_neg (by decide), if_neg (by decide), if_pos rfl,
    hcut, run_ok_bind]
  dsimp only
  rw [hparse, run_ok_bind]
  dsimp only
  rw [htime, run_ok_bind]
  simp [CstrDatetime.fields, CstrDatetime.hourOrZero, CstrDatetime.msecOrZero, hhour, hmsec]

/-- The layout is told by the length alone. -/
theorem parseLayout_eq (h : Digital dt) (hstr : StrAt b p (coreText dt ++ r))
    (hr : if dt.hour = -1 then 45 ∉ r else 58 ∉ r) :
    parseLayout b p (coreText dt).length = .ok dt.fields := by
  rcases h.cases with ⟨hhour, hmin, hsec, hmsec⟩ | ⟨hh, hhour, hmsec⟩
  · rw [if_pos hhour] at hr
    exact parseLayout_eq_date h hhour hmin hsec hmsec hstr hr
  · rw [if_neg hhour] at hr
    rcases hmsec with hmsec | ⟨hm, -⟩
    · exact parseLayout_eq_clock h hh hmsec hstr hr
    · exact parseLayout_eq_msec h hh hm hstr hr

end Layout

/-! ## Digits -/

theorem cstrIsdigit_eq {str : Block} {n : Nat} (h : n ≤ str.length) :
    cstrIsdigit str n = some ((str.take n).all isdigit) := by
  induction n with
  | zero => rfl
  | succ n ih =>
      rw [cstrIsdigit, List.getElem?_eq_getElem h, Option.bind_eq_bind, Option.bind_some,
        ih (Nat.le_of_succ_le h), List.take_succ_eq_append_getElem h, List.all_append]
      cases hc : isdigit str[n] <;> simp [hc]

/-- The arrays as they are filled: characters, and a NUL behind them. -/
theorem allDigits_eq {l : List (List UInt8 × Nat)} (h : ∀ x ∈ l, x.1.length = x.2) :
    allDigits (l.map fun x => (x.1 ++ [0], x.2)) = some (l.all fun x => x.1.all isdigit) := by
  induction l with
  | nil => rfl
  | cons x l ih =>
      obtain ⟨hx, hl⟩ := List.forall_mem_cons.mp h
      rw [List.map_cons, allDigits, cstrIsdigit_eq (by simp [hx]), List.take_left' hx, ih hl]
      cases hd : x.1.all isdigit <;> simp [hd]

theorem Field.fmtInt_eq {w : Nat} {f : List UInt8} (h : Field w f) (hw : 0 < w) :
    fmtInt w (value f) = f := by
  obtain ⟨rfl, hdigits⟩ := h
  exact fmtInt_value (List.ne_nil_of_length_pos hw) hdigits

theorem Field.value_lt {w : Nat} {f : List UInt8} (h : Field w f) :
    0 ≤ (value f : Int) ∧ (value f : Int) < 10 ^ w := by
  obtain ⟨rfl, hdigits⟩ := h
  exact ⟨Int.natCast_nonneg _, by exact_mod_cast Decimal.value_lt hdigits⟩

theorem Field.ne_neg_one {w : Nat} {f : List UInt8} (h : Field w f) : (value f : Int) ≠ -1 := by
  have := h.value_lt.1
  omega

/-- The arrays of characters that need not be digits. -/
def rawFields (year mon day hour min sec msec : List UInt8) (hms mmm : Bool) : TimeFields :=
  ⟨year ++ [0], mon ++ [0], day ++ [0], hour ++ [0], min ++ [0], sec ++ [0], msec ++ [0], hms, mmm⟩

/-- What is asked for digits. -/
def TimeFields.checks (f : TimeFields) : List (Block × Nat) :=
  [(f.year, 4), (f.mon, 2), (f.day, 2), (f.hour, 2), (f.min, 2), (f.sec, 2), (f.msec, 3)]

section Raw

variable {year mon day hour min sec msec : List UInt8} {hms mmm : Bool}

/-- Characters of the right number: either they are digits, or the check fails. -/
theorem rawFields_cases (hyear : year.length = 4) (hmon : mon.length = 2) (hday : day.length = 2)
    (hhour : hour.length = 2) (hmin : min.length = 2) (hsec : sec.length = 2)
    (hmsec : msec.length = 3) :
    allDigits (rawFields year mon day hour min sec msec hms mmm).checks = some false ∨
      Field 4 year ∧ Field 2 mon ∧ Field 2 day ∧ Field 2 hour ∧ Field 2 min ∧ Field 2 sec ∧
        Field 3 msec := by
  have hall := @allDigits_eq
    [(year, 4), (mon, 2), (day, 2), (hour, 2), (min, 2), (sec, 2), (msec, 3)]
    (by simp [hyear, hmon, hday, hhour, hmin, hsec, hmsec])
  rw [rawFields, TimeFields.checks]
  rw [List.map_cons, List.map_cons, List.map_cons, List.map_cons, List.map_cons, List.map_cons,
    List.map_cons, List.map_nil] at hall
  rw [hall, Option.some.injEq]
  by_cases hd : ([(year, 4), (mon, 2), (day, 2), (hour, 2), (min, 2), (sec, 2), (msec, 3)].all
      fun x => x.1.all isdigit) = true
  · refine .inr ?_
    simp only [List.all_cons, List.all_nil, Bool.and_true, Bool.and_eq_true,
      List.all_eq_true] at hd
    obtain ⟨h₁, h₂, h₃, h₄, h₅, h₆, h₇⟩ := hd
    exact ⟨⟨hyear, h₁⟩, ⟨hmon, h₂⟩, ⟨hday, h₃⟩, ⟨hhour, h₄⟩, ⟨hmin, h₅⟩, ⟨hsec, h₆⟩, ⟨hmsec, h₇⟩⟩
  · exact .inl (Bool.not_eq_true _ ▸ hd)

end Raw

/-! ## The length -/

theorem readLen_eq {quoted : Bool} {n k : Nat} (hn : n < 30)
    (hk : if quoted then k % 2 ^ 32 = 0 else k = 0) : readLen quoted (n + k) = n := by
  cases quoted with
  | false =>
      obtain rfl : k = 0 := hk
      rw [readLen, if_neg Bool.false_ne_true, Nat.add_zero, Nat.min_eq_left (Nat.le_of_lt hn)]
  | true =>
      obtain ⟨j, rfl⟩ := Nat.dvd_of_mod_eq_zero hk
      have hsum : ((n + 2 ^ 32 * j : Nat) : Int) - 1
          = ((n : Int) - 1) + ((2 ^ 32 : Nat) : Int) * j := by omega
      rw [readLen, if_pos rfl, hsum, Int.add_mul_bmod_self_left, Int.bmod_eq_of_le (by omega)
        (by omega), Int.sub_add_cancel]

theorem of_readLen {quoted : Bool} {n m : Nat} (hn : 0 < n) (hn' : n < 30)
    (h : readLen quoted m = n) :
    ∃ k, m = n + k ∧ if quoted then k % 2 ^ 32 = 0 else k = 0 := by
  cases quoted with
  | false =>
      rw [readLen, if_neg Bool.false_ne_true] at h
      exact ⟨0, by omega, rfl⟩
  | true =>
      rw [readLen, if_pos rfl] at h
      have hmod := @Int.bmod_emod ((m : Int) - 1) (2 ^ 32)
      refine ⟨m - n, ?_, ?_⟩
      · omega
      · rw [if_pos rfl]
        omega

/-! ## Texts that are refused -/

section Cases

variable {b : Block} {p : Nat} {m : List UInt8}

/-- What a layout comes to: it is refused, for its form or its digits, or it is a date and a
time. -/
def LayoutOutcome (quoted : Bool) (timezone : Int) (m : List UInt8) (res : Run TimeFields) : Prop :=
  res = .error .reject ∨ (∃ f, res = .ok f ∧ allDigits f.checks = some false) ∨
    ∃ dt r, dt.timezone = timezone ∧ Digital dt ∧ m = coreText dt ++ r ∧ Unnoticed quoted dt r

theorem leftover {quoted : Bool} {k : Nat} {r : List UInt8} (hr : r.length = k)
    (hk : if quoted then k % 2 ^ 32 = 0 else k = 0) :
    if quoted then r.length % 2 ^ 32 = 0 else r = [] := by
  subst hr
  cases quoted with
  | true => exact hk
  | false => exact List.eq_nil_of_length_eq_zero hk

theorem Parts.length {sep : UInt8} {n : Nat} {s x y w r : List UInt8} (h : Parts sep n s x y w r) :
    s.length = n + 6 + r.length := by
  rw [h.text]
  simp only [List.length_append, List.length_cons, h.first, h.second, h.third]
  omega

theorem dateText_value {x y w : List UInt8} (hx : Field 4 x) (hy : Field 2 y) (hw : Field 2 w) :
    dateText (value x) (value y) (value w) = x ++ 45 :: (y ++ 45 :: w) := by
  rw [dateText, hx.fmtInt_eq (by decide), hy.fmtInt_eq (by decide), hw.fmtInt_eq (by decide)]

theorem clockText_value {x y w : List UInt8} (hx : Field 2 x) (hy : Field 2 y) (hw : Field 2 w) :
    clockText (value x) (value y) (value w) = x ++ 58 :: (y ++ 58 :: w) := by
  rw [clockText, hx.fmtInt_eq (by decide), hy.fmtInt_eq (by decide), hw.fmtInt_eq (by decide)]

variable {quoted : Bool} {k : Nat}

theorem parseLayout_cases_date (h : StrAt b p m) (hlen : m.length = 10 + k)
    (hk : if quoted then k % 2 ^ 32 = 0 else k = 0) (timezone : Int) :
    LayoutOutcome quoted timezone m (parseLayout b p 10) := by
  rw [parseLayout, if_pos rfl]
  rcases parseDate_cases h (by omega) with hreject | ⟨x, y, w, r, hparts⟩
  · exact .inl (by rw [hreject, run_error_bind])
  · obtain ⟨b', hparse, -⟩ := parseDate_eq h hparts
    have hr : r.length = k := by
      have := hparts.length
      omega
    refine .inr ?_
    rw [hparse, run_ok_bind]
    refine (@rawFields_cases x y w [48, 48] [48, 48] [48, 48] [48, 48, 48] false false
      hparts.first hparts.second hparts.third rfl rfl rfl rfl).imp
      (fun hfalse => ⟨_, rfl, hfalse⟩) ?_
    rintro ⟨hx, hy, hw, -⟩
    have hzero : (0 : Int) ≤ 0 ∧ (0 : Int) < 10 ^ 2 := by decide
    refine ⟨⟨value x, value y, value w, -1, 0, 0, -1, timezone⟩, r, rfl, ?_, ?_, ?_, ?_⟩
    · exact ⟨hx.value_lt, hy.value_lt, hw.value_lt, hzero, hzero, .inl ⟨rfl, rfl, rfl, rfl⟩,
        .inl rfl⟩
    · rw [hparts.text]
      simp [coreText, dateText_value hx hy hw]
    · rw [if_pos rfl]
      exact fun hmem => hparts.tail (List.mem_append_right _ hmem)
    · exact leftover hr hk

/-- The other layouts are refused for their date, or come to what `f` makes of their clock. -/
theorem LayoutOutcome.of_date {timezone : Int} (h : StrAt b p m)
    (f : Nat → Block × Block × Block → Block → Run TimeFields)
    (hf : ∀ x y w v hms b₂, m = x ++ 45 :: (y ++ 45 :: w) ++ 32 :: v → x.length = 4 →
      y.length = 2 → w.length = 2 → StrAt b₂ hms v →
        LayoutOutcome quoted timezone m (f hms (x ++ [0], y ++ [0], w ++ [0]) b₂)) :
    LayoutOutcome quoted timezone m (do
      let (hms, b) ← cutBlank b p
      let (date, b) ← parseDate b p
      f hms date b) := by
  rcases cutBlank_cases h with hreject | ⟨u, v, rfl, hu, hulen⟩
  · exact .inl (by rw [hreject, run_error_bind])
  · obtain ⟨b₁, hcut, hfront, hbehind⟩ := cutBlank_eq h hu hulen
    rw [hcut, run_ok_bind]
    dsimp only
    rcases parseDate_cases hfront (Nat.le_of_eq hulen.symm) with hreject | ⟨x, y, w, r, hparts⟩
    · exact .inl (by rw [hreject, run_error_bind])
    · obtain ⟨b₂, hparse, hkeep⟩ := parseDate_eq hfront hparts
      have hnil : r = [] := by
        have := hparts.length
        exact List.eq_nil_of_length_eq_zero (by omega)
      have hu := hparts.text
      rw [hnil, List.append_nil] at hu
      rw [hparse, run_ok_bind]
      exact hf x y w v _ b₂ (by rw [hu]) hparts.first hparts.second hparts.third
        (hkeep (Nat.lt_succ_self _) hbehind)

theorem parseLayout_cases_clock (h : StrAt b p m) (hlen : m.length = 19 + k)
    (hk : if quoted then k % 2 ^ 32 = 0 else k = 0) (timezone : Int) :
    LayoutOutcome quoted timezone m (parseLayout b p 19) := by
  rw [parseLayout, if_neg (by decide), if_pos rfl]
  refine LayoutOutcome.of_date h (fun hms date b => parseClock b hms >>= fun clock =>
    .ok ⟨date.1, date.2.1, date.2.2, clock.1, clock.2.1, clock.2.2, zeros 3, true, false⟩) ?_
  rintro x y w v hms b₂ rfl hx hy hw hv
  have hvlen : v.length = 8 + k := by
    simp only [List.length_append, List.length_cons, hx, hy, hw] at hlen
    omega
  dsimp only
  rcases parseClock_cases hv (by omega) with hreject | ⟨x', y', w', r, hparts⟩
  · exact .inl (by rw [hreject, run_error_bind])
  · have hr : r.length = k := by
      have := hparts.length
      omega
    refine .inr ?_
    rw [parseClock_eq hv hparts, run_ok_bind]
    refine (@rawFields_cases x y w x' y' w' [48, 48, 48] true false hx hy hw hparts.first
      hparts.second hparts.third rfl).imp (fun hfalse => ⟨_, rfl, hfalse⟩) ?_
    rintro ⟨hx, hy, hw, hx', hy', hw', -⟩
    have hhour := hx'.ne_neg_one
    refine ⟨⟨value x, value y, value w, value x', value y', value w', -1, timezone⟩, r, rfl, ?_,
      ?_, ?_, ?_⟩
    · exact ⟨hx.value_lt, hy.value_lt, hw.value_lt, hy'.value_lt, hw'.value_lt,
        .inr hx'.value_lt, .inl rfl⟩
    · rw [hparts.text]
      simp [coreText, hhour, dateText_value hx hy hw, clockText_value hx' hy' hw']
    · rw [if_neg hhour]
      exact fun hmem => hparts.tail (List.mem_append_right _ hmem)
    · exact leftover hr hk

theorem parseLayout_cases_msec (h : StrAt b p m) (hlen : m.length = 23 + k)
    (hk : if quoted then k % 2 ^ 32 = 0 else k = 0) (timezone : Int) :
    LayoutOutcome quoted timezone m (parseLayout b p 23) := by
  rw [parseLayout, if_neg (by decide), if_neg (by decide), if_pos rfl]
  refine LayoutOutcome.of_date h (fun hms date b => parseClockMsec b hms >>= fun time =>
    .ok ⟨date.1, date.2.1, date.2.2, time.1.1, time.1.2.1, time.1.2.2, time.2, true, true⟩) ?_
  rintro x y w v hms b₂ rfl hx hy hw hv
  have hvlen : v.length = 12 + k := by
    simp only [List.length_append, List.length_cons, hx, hy, hw] at hlen
    omega
  dsimp only
  rcases parseClockMsec_cases hv (by omega) with hreject | ⟨x', y', w', ms, r, hparts, hdot, hms⟩
  · exact .inl (by rw [hreject, run_error_bind])
  · have hr : r.length = k := by
      have := hparts.length
      rw [List.length_cons, List.length_append, hms] at this
      omega
    refine .inr ?_
    rw [parseClockMsec_eq hv hparts hdot hms, run_ok_bind]
    refine (@rawFields_cases x y w x' y' w' ms true true hx hy hw hparts.first
      hparts.second hparts.third hms).imp (fun hfalse => ⟨_, rfl, hfalse⟩) ?_
    rintro ⟨hx, hy, hw, hx', hy', hw', hms⟩
    have hhour := hx'.ne_neg_one
    have hmsec := hms.ne_neg_one
    refine ⟨⟨value x, value y, value w, value x', value y', value w', value ms, timezone⟩, r, rfl,
      ?_, ?_, ?_, ?_⟩
    · exact ⟨hx.value_lt, hy.value_lt, hw.value_lt, hy'.value_lt, hw'.value_lt,
        .inr hx'.value_lt, .inr hms.value_lt⟩
    · rw [hparts.text]
      simp [coreText, msecText, hhour, hmsec, dateText_value hx hy hw,
        clockText_value hx' hy' hw', hms.fmtInt_eq]
    · rw [if_neg hhour]
      exact fun hmem => hparts.tail (List.mem_append_right _
        (List.mem_cons_of_mem _ (List.mem_append_right _ hmem)))
    · exact leftover hr hk

theorem parseLayout_cases (h : StrAt b p m) (quoted : Bool) (timezone : Int) :
    LayoutOutcome quoted timezone m (parseLayout b p (readLen quoted m.length)) := by
  by_cases hdate : readLen quoted m.length = 10
  · obtain ⟨k, hlen, hk⟩ := @of_readLen quoted 10 _ (by decide) (by decide) hdate
    rw [hdate]
    exact parseLayout_cases_date h hlen hk timezone
  · by_cases hclock : readLen quoted m.length = 19
    · obtain ⟨k, hlen, hk⟩ := @of_readLen quoted 19 _ (by decide) (by decide) hclock
      rw [hclock]
      exact parseLayout_cases_clock h hlen hk timezone
    · by_cases hmsec : readLen quoted m.length = 23
      · obtain ⟨k, hlen, hk⟩ := @of_readLen quoted 23 _ (by decide) (by decide) hmsec
        rw [hmsec]
        exact parseLayout_cases_msec h hlen hk timezone
      · exact .inl (by rw [parseLayout, if_neg hdate, if_neg hclock, if_neg hmsec])

end Cases

/-! ## The whole text -/

section Whole

variable {b : Block} {p : Nat} {text : List UInt8} {dt : CstrDatetime}

theorem length_coreText_le (h : Digital dt) : (coreText dt).length ≤ 23 := by
  have hdate := length_dateText h
  rcases h.cases with ⟨hhour, -, -, hmsec⟩ | ⟨hh, hhour, hmsec⟩
  · simp [coreText, hdate, hhour, hmsec]
  · have hclock := length_clockText h hh
    rcases hmsec with hmsec | ⟨hm, hmsec⟩
    · simp [coreText, hdate, hhour, hclock, hmsec]
    · have hmf := (field_fmtInt (by decide) hm).length
      simp [coreText, hdate, hhour, hclock, hmsec, msecText, hmf]

/-- A text that is a date and a time is read. -/
theorem parseFields_eq (h : StrAt b p text) (hdt : Denotes text dt) :
    parseFields b p = .ok (dt.timezone, dt.fields) := by
  obtain ⟨hdigital, body, quoted, r, hzone, hquoted, hr, hlen⟩ := hdt
  rcases cutZone_eq h with ⟨hnone, -⟩ | ⟨body', tz, b₁, hzone', hcut, hbody⟩
  · rw [hzone] at hnone
    cases hnone
  · obtain ⟨rfl, rfl⟩ := Prod.mk.inj (Option.some.inj (hzone.symm.trans hzone'))
    obtain ⟨q, b₂, htrim, hstr⟩ := cstrLRtrimWhitespace_eq hbody
    obtain ⟨str, b₃, hunquote, hcore⟩ := unquote_eq hstr hquoted
    have hleft : if quoted then r.length % 2 ^ 32 = 0 else r.length = 0 := by
      cases quoted with
      | true => exact hlen
      | false => exact List.length_eq_zero_iff.mpr hlen
    have hcorelen := Nat.lt_of_le_of_lt (length_coreText_le hdigital) (by decide : 23 < 30)
    rw [List.length_append, readLen_eq hcorelen hleft] at hunquote
    rw [parseFields, hcut, run_ok_bind]
    dsimp only
    rw [htrim, orFault_some, run_ok_bind]
    dsimp only
    rw [hunquote, run_ok_bind]
    dsimp only
    rw [parseLayout_eq hdigital hcore hr, run_ok_bind]

/-- Any other text is refused, for its form or for characters that should be digits. -/
theorem parseFields_cases (h : StrAt b p text) :
    parseFields b p = .error .reject ∨
      (∃ tz f, parseFields b p = .ok (tz, f) ∧ allDigits f.checks = some false) ∨
      ∃ dt, Denotes text dt := by
  rcases cutZone_eq h with ⟨-, hreject⟩ | ⟨body, tz, b₁, hzone, hcut, hbody⟩
  · exact .inl (by rw [parseFields, hreject, run_error_bind])
  · obtain ⟨q, b₂, htrim, hstr⟩ := cstrLRtrimWhitespace_eq hbody
    rw [parseFields, hcut, run_ok_bind]
    dsimp only
    rw [htrim, orFault_some, run_ok_bind]
    dsimp only
    rcases unquote_cases hstr with ⟨quoted, m, hquoted⟩ | ⟨str, b₃, hunquote⟩
    · obtain ⟨str, b₃, hunquote, hm⟩ := unquote_eq hstr hquoted
      rw [hunquote, run_ok_bind]
      dsimp only
      rcases parseLayout_cases hm quoted tz with hreject | ⟨f, hf, hfalse⟩ |
        ⟨dt, r, rfl, hdigital, rfl, hr⟩
      · exact .inl (by rw [hreject, run_error_bind])
      · exact .inr (.inl ⟨tz, f, by rw [hf, run_ok_bind], hfalse⟩)
      · exact .inr (.inr ⟨dt, hdigital, body, quoted, r, hzone, hquoted, hr⟩)
    · refine .inl ?_
      rw [hunquote, run_ok_bind]
      rfl

/-- What is given to `mktime`. -/
def CstrDatetime.tm (dt : CstrDatetime) : Tm :=
  ⟨dt.year - 1900, dt.month - 1, dt.day, dt.hourOrZero, dt.minute, dt.second⟩

/-- The time stamp, in milliseconds. -/
def CstrDatetime.stamp (mktime : Tm → Int64) (dt : CstrDatetime) : UInt64 :=
  (mktime dt.tm).toUInt64 * 1000 + UInt64.ofInt dt.msecOrZero

/-- `time_is_valid` of the fields. -/
def CstrDatetime.Valid (dt : CstrDatetime) : Prop :=
  timeIsValid dt.year dt.month dt.day dt.hourOrZero dt.minute dt.second = true

/-- A text that is a date and a time, valid and such that `mktime` does not fail. -/
structure Accepted (mktime : Tm → Int64) (text : List UInt8) (dt : CstrDatetime) : Prop where
  denotes : Denotes text dt
  valid : dt.Valid
  mktime_ne : mktime dt.tm ≠ -1

theorem Digital.hourOrZero (h : Digital dt) : 0 ≤ dt.hourOrZero ∧ dt.hourOrZero < 10 ^ 2 := by
  rw [CstrDatetime.hourOrZero]
  split
  · decide
  · exact h.clock.resolve_left fun hnone => absurd hnone.1 ‹_›

theorem Digital.msecOrZero (h : Digital dt) : 0 ≤ dt.msecOrZero ∧ dt.msecOrZero < 10 ^ 3 := by
  rw [CstrDatetime.msecOrZero]
  split
  · decide
  · exact h.msec.resolve_left ‹_›

theorem atoiOf_field {w : Nat} {n : Int} (hw : 0 < w) (h : 0 ≤ n ∧ n < 10 ^ w) :
    atoiOf (fmtInt w n ++ [0]) = some n := by
  obtain ⟨-, hdigits, hvalue⟩ := fmtInt_digits hw h.1 h.2
  have hnul : 0 ∉ fmtInt w n := fun hmem => absurd (hdigits 0 hmem) (by simp [isdigit_zero])
  have hstr : StrAt (fmtInt w n ++ [0]) 0 (fmtInt w n) := ⟨hnul, [], rfl⟩
  rw [atoiOf, hstr.cstrAt_eq, Option.map_some, atoi_of_isdigit hdigits, hvalue]

theorem allDigits_fields (h : Digital dt) : allDigits dt.fields.checks = some true := by
  have hy := field_fmtInt (w := 4) (by decide) h.year
  have hmo := field_fmtInt (w := 2) (by decide) h.month
  have hd := field_fmtInt (w := 2) (by decide) h.day
  have hh := field_fmtInt (w := 2) (by decide) h.hourOrZero
  have hmi := field_fmtInt (w := 2) (by decide) h.minute
  have hs := field_fmtInt (w := 2) (by decide) h.second
  have hms := field_fmtInt (w := 3) (by decide) h.msecOrZero
  have hall := @allDigits_eq [(fmtInt 4 dt.year, 4), (fmtInt 2 dt.month, 2), (fmtInt 2 dt.day, 2),
    (fmtInt 2 dt.hourOrZero, 2), (fmtInt 2 dt.minute, 2), (fmtInt 2 dt.second, 2),
    (fmtInt 3 dt.msecOrZero, 3)]
    (by simp [hy.length, hmo.length, hd.length, hh.length, hmi.length, hs.length, hms.length])
  rw [List.map_cons, List.map_cons, List.map_cons, List.map_cons, List.map_cons, List.map_cons,
    List.map_cons, List.map_nil] at hall
  rw [CstrDatetime.fields, TimeFields.checks, hall, Option.some.injEq]
  simp only [List.all_cons, List.all_nil, Bool.and_true, Bool.and_eq_true, List.all_eq_true]
  exact ⟨hy.digits, hmo.digits, hd.digits, hh.digits, hmi.digits, hs.digits, hms.digits⟩

variable {mktime : Tm → Int64}

/-- A text that is a date and a time: what is left to do. -/
theorem cstrParseTimestamp_of_denotes (h : StrAt b p text) (hdt : Denotes text dt)
    (outdt : Option CstrDatetime) : cstrParseTimestamp mktime b p outdt
      = storeStamp mktime dt.timezone (dt.hour != -1) (dt.millisecond != -1) dt.year dt.month dt.day
          dt.hourOrZero dt.minute dt.second dt.msecOrZero outdt := by
  have hdigital := hdt.1
  have hdigits := allDigits_fields hdigital
  rw [TimeFields.checks] at hdigits
  rw [cstrParseTimestamp, parseFields_eq h hdt]
  dsimp only
  rw [hdigits, Option.bind_eq_bind, Option.bind_some, if_pos rfl, CstrDatetime.fields]
  dsimp only
  rw [atoiOf_field (by decide) hdigital.year, atoiOf_field (by decide) hdigital.month,
    atoiOf_field (by decide) hdigital.day, atoiOf_field (by decide) hdigital.hourOrZero,
    atoiOf_field (by decide) hdigital.minute, atoiOf_field (by decide) hdigital.second,
    atoiOf_field (by decide) hdigital.msecOrZero]
  rfl

theorem toUInt64_eq_neg_one {x : Int64} : x.toUInt64 = -1 ↔ x = -1 := by
  constructor
  · intro h
    rw [← Int64.toInt64_toUInt64 x, h]
    rfl
  · rintro rfl
    rfl

/-- The fields are written back as they were, through a pointer that is dereferenced if there
are no milliseconds. -/
theorem storeStamp_eq (h : Digital dt) (hvalid : dt.Valid) (hmktime : mktime dt.tm ≠ -1)
    (outdt : Option CstrDatetime) :
    storeStamp mktime dt.timezone (dt.hour != -1) (dt.millisecond != -1) dt.year dt.month dt.day
        dt.hourOrZero dt.minute dt.second dt.msecOrZero outdt
      = if dt.millisecond = -1 ∧ outdt = none then none
        else some (dt.stamp mktime, outdt.map fun _ => dt) := by
  rw [CstrDatetime.Valid] at hvalid
  have htsec : ¬ (mktime ⟨dt.year - 1900, dt.month - 1, dt.day, dt.hourOrZero, dt.minute,
      dt.second⟩).toUInt64 = -1 := toUInt64_eq_neg_one.not.mpr hmktime
  rw [storeStamp, hvalid, Bool.not_true, if_neg Bool.false_ne_true]
  dsimp only
  rw [if_neg htsec]
  obtain ⟨year, month, day, hour, minute, second, millisecond, timezone⟩ := dt
  rcases h.cases with ⟨hhour, hmin, hsec, hmsec⟩ | ⟨hh, hhour, hmsec | ⟨hm, hmsec⟩⟩
  · obtain rfl : hour = -1 := hhour
    obtain rfl : minute = 0 := hmin
    obtain rfl : second = 0 := hsec
    obtain rfl : millisecond = -1 := hmsec
    cases outdt <;> rfl
  · obtain rfl : millisecond = -1 := hmsec
    have hgiven : hour ≠ -1 := hhour
    have hsame : CstrDatetime.hourOrZero ⟨year, month, day, hour, minute, second, -1, timezone⟩
      = hour := if_neg hgiven
    have hhms : (hour != -1) = true := by simpa using hgiven
    rw [hsame]
    dsimp only
    rw [hhms, CstrDatetime.stamp, CstrDatetime.tm, hsame]
    cases outdt <;> rfl
  · have hgiven : hour ≠ -1 := hhour
    have hgiven' : millisecond ≠ -1 := hmsec
    have hsame : CstrDatetime.hourOrZero
      ⟨year, month, day, hour, minute, second, millisecond, timezone⟩ = hour := if_neg hgiven
    have hsame' : CstrDatetime.msecOrZero
      ⟨year, month, day, hour, minute, second, millisecond, timezone⟩ = millisecond :=
        if_neg hgiven'
    have hhms : (hour != -1) = true := by simpa using hgiven
    have hmmm : (millisecond != -1) = true := by simpa using hgiven'
    have hnull : ¬ (millisecond = -1 ∧ outdt = none) := fun hnull => hgiven' hnull.1
    rw [hsame, hsame']
    dsimp only
    rw [hhms, hmmm, CstrDatetime.stamp, CstrDatetime.tm, hsame, hsame', if_neg hnull]
    cases outdt <;> rfl

theorem storeStamp_refused (hrefused : dt.Valid → mktime dt.tm = -1)
    (outdt : Option CstrDatetime) :
    storeStamp mktime dt.timezone (dt.hour != -1) (dt.millisecond != -1) dt.year dt.month dt.day
        dt.hourOrZero dt.minute dt.second dt.msecOrZero outdt = some (-1, outdt) := by
  rw [storeStamp]
  by_cases hvalid : timeIsValid dt.year dt.month dt.day dt.hourOrZero dt.minute dt.second = true
  · have htsec := toUInt64_eq_neg_one.mpr (hrefused hvalid)
    rw [hvalid, Bool.not_true, if_neg Bool.false_ne_true]
    exact if_pos htsec
  · rw [Bool.not_eq_true] at hvalid
    rw [hvalid]
    rfl

/-- What comes of an accepted text. -/
theorem cstrParseTimestamp_of_accepted (h : StrAt b p text) (hdt : Accepted mktime text dt)
    (outdt : Option CstrDatetime) : cstrParseTimestamp mktime b p outdt
      = if dt.millisecond = -1 ∧ outdt = none then none
        else some (dt.stamp mktime, outdt.map fun _ => dt) := by
  rw [cstrParseTimestamp_of_denotes h hdt.denotes,
    storeStamp_eq hdt.denotes.1 hdt.valid hdt.mktime_ne]

/-- Every other text is refused, and `*outdt` is left. -/
theorem cstrParseTimestamp_of_not (h : StrAt b p text) (hno : ∀ dt, ¬ Accepted mktime text dt)
    (outdt : Option CstrDatetime) : cstrParseTimestamp mktime b p outdt = some (-1, outdt) := by
  rcases parseFields_cases h with hreject | ⟨tz, f, hf, hfalse⟩ | ⟨dt, hdt⟩
  · rw [cstrParseTimestamp, hreject]
  · rw [TimeFields.checks] at hfalse
    rw [cstrParseTimestamp, hf]
    dsimp only
    rw [hfalse]
    rfl
  · rw [cstrParseTimestamp_of_denotes h hdt, storeStamp_refused]
    intro hvalid
    by_contra hmktime
    exact hno dt ⟨hdt, hvalid, hmktime⟩

end Whole

/-! ## Without a place for the fields -/

/-- A null `outdt` makes no difference: nothing is read or written through it, and the result is
the same. -/
def NullAgrees (mktime : Tm → Int64) (b : Block) (p : Nat) : Prop :=
  ∃ ret, cstrParseTimestamp mktime b p none = some (ret, none) ∧
    ∀ dt, ∃ dt', cstrParseTimestamp mktime b p (some dt) = some (ret, some dt')

/-- A null `outdt` is dereferenced exactly for the texts that are accepted and have no
milliseconds. -/
theorem cstrParseTimestamp_null_iff {b : Block} {p : Nat} {text : List UInt8}
    (h : StrAt b p text) (mktime : Tm → Int64) : NullAgrees mktime b p ↔
      ¬ ∃ dt, Accepted mktime text dt ∧ dt.millisecond = -1 := by
  constructor
  · rintro ⟨ret, hnull, -⟩ ⟨dt, hdt, hmsec⟩
    rw [cstrParseTimestamp_of_accepted h hdt, if_pos ⟨hmsec, rfl⟩] at hnull
    cases hnull
  · intro hno
    by_cases hdt : ∃ dt, Accepted mktime text dt
    · obtain ⟨dt, hdt⟩ := hdt
      have hmsec : dt.millisecond ≠ -1 := fun hmsec => hno ⟨dt, hdt, hmsec⟩
      refine ⟨dt.stamp mktime, ?_, fun dt₀ => ⟨dt, ?_⟩⟩
      · rw [cstrParseTimestamp_of_accepted h hdt, if_neg fun hnull => hmsec hnull.1]
        rfl
      · rw [cstrParseTimestamp_of_accepted h hdt, if_neg fun hnull => hmsec hnull.1]
        rfl
    · have hnone := fun dt hacc => hdt ⟨dt, hacc⟩
      exact ⟨-1, cstrParseTimestamp_of_not h hnone none,
        fun dt => ⟨dt, cstrParseTimestamp_of_not h hnone (some dt)⟩⟩

theorem cstrParseTimestamp_null_iff_date :
    NullAgrees (fun _ => 1576972800) (ascii "2019-12-22" ++ [0]) 0 ↔
      ¬ ∃ dt, Accepted (fun _ => 1576972800) (ascii "2019-12-22") dt ∧ dt.millisecond = -1 :=
  cstrParseTimestamp_null_iff ⟨by decide, [], rfl⟩ _

theorem cstrParseTimestamp_null_date :
    ¬ NullAgrees (fun _ => 1576972800) (ascii "2019-12-22" ++ [0]) 0 := by
  rintro ⟨ret, hnull, -⟩
  have hfault : cstrParseTimestamp (fun _ => 1576972800) (ascii "2019-12-22" ++ [0]) 0 none
      = none := by decide +kernel
  rw [hfault] at hnull
  cases hnull

end Convd
