/-
# `Convd.TimeZone` — the offset of a zone, and its text

`timezone_compute` takes a moment apart as UTC and puts it together as local time; what that
differs by is the offset, in seconds west of Greenwich.  `timezone_format` writes it as a sign, two
digits of hours and two of minutes, and cuts off what is longer:

    written       `+hhmm`, `-hhmm`, always five characters
    worth it      whole minutes, below 100 hours, and no other     (`zoneSeconds_iff`)
    read back     never: `cstr_parse_timestamp` wants a colon      (`not_denotes_zone`)
-/
import Convd.LocalTimeText

namespace Convd

open CString Block Decimal

/-! ## The code -/

/-- `timezone_format` -/
def timezoneFormat (tz : Int) (tzfmt : Block) : Option Block := do
  let hours := Int.bmod (tz.tdiv 3600) (2 ^ 32)
  let minutes := Int.bmod ((tz.tmod 3600).tdiv 60) (2 ^ 32)
  let tzfmt ←
    if tz < 0 then
      (snprintfChkdV1At tzfmt 0 (5 + 1) (43 :: (fmtInt 2 (-hours) ++ fmtInt 2 (-minutes)))).map
        Prod.snd
    else if tz > 0 then
      (snprintfChkdV1At tzfmt 0 (5 + 1) (45 :: (fmtInt 2 hours ++ fmtInt 2 minutes))).map Prod.snd
    else putAll tzfmt 0 (ascii "+0000")
  put tzfmt 5 0

/-- `timezone_compute`, of seconds that a `double` holds. -/
def timezoneCompute (gmtime : Int64 → Option Tm) (mktime : Tm → Int64) (ts : Int64)
    (tzfmt : Option Block) : Option (Int × Option Block) :=
  match gmtime ts with
  | none => some (-1, tzfmt)
  | some t =>
      let tz := (mktime t).toInt - ts.toInt
      match tzfmt with
      | none => some (tz, none)
      | some tzfmt => (timezoneFormat tz tzfmt).map fun out => (tz, some out)

/-! ## The text -/

/-- The digits of an offset, as many as there is room for. -/
def zoneDigits (tz : Int) : List UInt8 :=
  (fmtInt 2 (tz.natAbs / 3600 : Nat) ++ fmtInt 2 (tz.natAbs % 3600 / 60 : Nat)).take 4

/-- What `timezone_format` writes. -/
def timezoneText (tz : Int) : List UInt8 := (if 0 < tz then 45 else 43) :: zoneDigits tz

/-- What such a text is worth, in seconds west of Greenwich. -/
def zoneSeconds : List UInt8 → Int
  | [] => 0
  | c :: ds =>
      (if c = 45 then 1 else -1) * ((value (ds.take 2) : Int) * 3600 + value (ds.drop 2) * 60)

theorem field_zoneDigits (tz : Int) : Field 4 (zoneDigits tz) := by
  rw [zoneDigits, fmtInt_nat, fmtInt_nat]
  refine ⟨?_, fun c hc => ?_⟩
  · rw [List.length_take, List.length_append, length_padded, length_padded]
    omega
  · rcases List.mem_append.mp (List.take_subset 4 _ hc) with hc | hc
    · exact isdigit_of_mem_padded hc
    · exact isdigit_of_mem_padded hc

theorem length_timezoneText (tz : Int) : (timezoneText tz).length = 5 := by
  rw [timezoneText, List.length_cons, (field_zoneDigits tz).length]

/-- The two numbers that are read are below 100. -/
theorem zoneDigits_worth_le (tz : Int) :
    value ((zoneDigits tz).take 2) ≤ 99 ∧ value ((zoneDigits tz).drop 2) ≤ 99 := by
  have hfield := field_zoneDigits tz
  constructor
  · have hlt := Decimal.value_lt fun c hc => hfield.digits c (List.take_subset 2 _ hc)
    rw [List.length_take, hfield.length] at hlt
    exact Nat.le_of_lt_succ hlt
  · have hlt := Decimal.value_lt fun c hc => hfield.digits c (List.drop_subset 2 _ hc)
    rw [List.length_drop, hfield.length] at hlt
    omega

/-- Below 100 hours they are the hours and the minutes. -/
theorem zoneDigits_worth {tz : Int} (h : tz.natAbs < 360000) :
    value ((zoneDigits tz).take 2) = tz.natAbs / 3600 ∧
      value ((zoneDigits tz).drop 2) = tz.natAbs % 3600 / 60 := by
  have hhours : tz.natAbs / 3600 < 10 ^ 2 := by omega
  have hminutes : tz.natAbs % 3600 / 60 < 10 ^ 2 := by omega
  have hwhole : zoneDigits tz
      = padded 2 (tz.natAbs / 3600) ++ padded 2 (tz.natAbs % 3600 / 60) := by
    rw [zoneDigits, fmtInt_of_lt (by decide) hhours, fmtInt_of_lt (by decide) hminutes]
    exact List.take_of_length_le (by simp)
  rw [hwhole, List.take_left' (length_padded 2 _), List.drop_left' (length_padded 2 _),
    value_padded_of_lt hhours, value_padded_of_lt hminutes]
  exact ⟨rfl, rfl⟩

/-- From 100 hours on they are less than the offset. -/
theorem zoneDigits_worth_lt {tz : Int} (h : 360000 ≤ tz.natAbs) :
    value ((zoneDigits tz).take 2) * 3600 + value ((zoneDigits tz).drop 2) * 60 < tz.natAbs := by
  obtain ⟨hfirst, hsecond⟩ := zoneDigits_worth_le tz
  by_cases hhours : tz.natAbs / 3600 = 100
  · -- "100" and the minutes, read as 10 hours
    have hten : (zoneDigits tz).take 2 = [49, 48] := by
      have hundred : fmtInt 2 (100 : Nat) = [49, 48, 48] := by decide +kernel
      rw [zoneDigits, hhours, hundred]
      rfl
    have hvalue : value [49, 48] = 10 := rfl
    rw [hten, hvalue]
    omega
  · omega

/-- The text is worth the offset for whole minutes below 100 hours, and for no other offset. -/
theorem zoneSeconds_iff (tz : Int) :
    zoneSeconds (timezoneText tz) = tz ↔ 60 ∣ tz ∧ tz.natAbs < 360000 := by
  have hsign : zoneSeconds (timezoneText tz) = (if 0 < tz then 1 else -1) *
      ((value ((zoneDigits tz).take 2) : Int) * 3600 + value ((zoneDigits tz).drop 2) * 60) := by
    rw [timezoneText, zoneSeconds]
    by_cases hpos : 0 < tz
    · rw [if_pos hpos, if_pos rfl, if_pos hpos]
    · rw [if_neg hpos, if_neg (by decide), if_neg hpos]
  rw [hsign]
  by_cases hsmall : tz.natAbs < 360000
  · obtain ⟨hfirst, hsecond⟩ := zoneDigits_worth hsmall
    rw [hfirst, hsecond]
    split <;> omega
  · have hlt := zoneDigits_worth_lt (Nat.le_of_not_lt hsmall)
    split <;> omega

/-! ## Writing it -/

variable {b : Block} {p : Nat} {dt dt' : CstrDatetime}

/-- What does not fit is cut off. -/
theorem snprintfChkdV1At_take (b : Block) (p n : Nat) (text : List UInt8) :
    (snprintfChkdV1At b p n text).map Prod.snd
      = (snprintfChkdV1At b p n (text.take (n - 1))).map Prod.snd := by
  rw [snprintfChkdV1At, snprintfChkdV1At]
  split
  · rfl
  · simp [List.take_take, Function.comp_def]

theorem snprintfChkdV1At_cut {n : Nat} {text : List UInt8} (hpos : 0 < n) (hn : n ≤ b.length)
    (hnul : 0 ∉ text) :
    ∃ out, (snprintfChkdV1At b 0 n text).map Prod.snd = some out ∧
      StrAt out 0 (text.take (n - 1)) := by
  have hshort : (text.take (n - 1)).length < n := by
    rw [List.length_take]
    omega
  obtain ⟨out, hprint, hstr⟩ := snprintfChkdV1At_whole hshort hn
    fun hmem => hnul (List.take_subset _ _ hmem)
  exact ⟨out, by rw [snprintfChkdV1At_take, hprint]; rfl, hstr⟩

/-- A cast to `int` of what one holds. -/
theorem bmod_of_natAbs_lt {z : Int} (h : z.natAbs < 2 ^ 31) : Int.bmod z (2 ^ 32) = z :=
  Int.bmod_eq_of_le (by omega) (by omega)

/-- The hours and the minutes of an offset fit an `int`. -/
theorem zoneParts_eq {tz : Int} (htz : tz.natAbs < 2 ^ 31 * 3600) :
    Int.bmod (tz.tdiv 3600) (2 ^ 32) = tz.tdiv 3600 ∧
      Int.bmod ((tz.tmod 3600).tdiv 60) (2 ^ 32) = (tz.tmod 3600).tdiv 60 := by
  constructor
  · apply bmod_of_natAbs_lt
    rw [Int.natAbs_tdiv]
    exact Nat.div_lt_of_lt_mul (Nat.mul_comm _ _ ▸ htz)
  · apply bmod_of_natAbs_lt
    rw [Int.natAbs_tdiv, Int.natAbs_tmod]
    show tz.natAbs % 3600 / 60 < 2 ^ 31
    omega

/-- Both signs are written the same way. -/
theorem zoneText_written {tz : Int} {tzfmt : Block} (hlen : 6 ≤ tzfmt.length) {sign : UInt8}
    (hsign : sign ≠ 0) (htext : timezoneText tz = sign :: zoneDigits tz) :
    ∃ out, ((snprintfChkdV1At tzfmt 0 (5 + 1) (sign :: (fmtInt 2 (tz.natAbs / 3600 : Nat) ++
      fmtInt 2 (tz.natAbs % 3600 / 60 : Nat)))).map Prod.snd).bind (put · 5 0) = some out ∧
        StrAt out 0 (timezoneText tz) := by
  have hnul : 0 ∉ sign :: (fmtInt 2 (tz.natAbs / 3600 : Nat) ++
      fmtInt 2 (tz.natAbs % 3600 / 60 : Nat)) := by
    rw [fmtInt_nat, fmtInt_nat, List.mem_cons, List.mem_append]
    rintro (hmem | hmem | hmem)
    · exact hsign hmem.symm
    · exact absurd (isdigit_of_mem_padded hmem) (by decide)
    · exact absurd (isdigit_of_mem_padded hmem) (by decide)
  obtain ⟨out, hprint, hstr⟩ := snprintfChkdV1At_cut (Nat.succ_pos 5) hlen hnul
  have hstr' : StrAt out 0 (timezoneText tz) := htext ▸ hstr
  obtain ⟨hput, hend⟩ := hstr'.put_end
  rw [length_timezoneText] at hput hend
  exact ⟨_, by rw [hprint]; exact hput, hend⟩

/-- No offset is copied, not printed. -/
theorem timezoneFormat_zero {tzfmt : Block} (hlen : 6 ≤ tzfmt.length) :
    ∃ out, timezoneFormat 0 tzfmt = some out ∧ StrAt out 0 (timezoneText 0) := by
  obtain ⟨c, rest, hrest⟩ : ∃ c rest, tzfmt.drop 5 = c :: rest :=
    List.exists_cons_of_length_pos (by rw [List.length_drop]; omega)
  have hcopy : putAll tzfmt 0 (ascii "+0000") = some (ascii "+0000" ++ c :: rest) := by
    have hfits : 0 + (ascii "+0000").length ≤ tzfmt.length := Nat.le_of_succ_le hlen
    rw [putAll, if_pos hfits, ← hrest]
    rfl
  have hput : put (ascii "+0000" ++ c :: rest) 5 0 = some (ascii "+0000" ++ 0 :: rest) :=
    put_append 0
  have htext : timezoneText 0 = ascii "+0000" := by decide +kernel
  refine ⟨ascii "+0000" ++ 0 :: rest, ?_, by decide +kernel, rest, ?_⟩
  · rw [timezoneFormat, if_neg (by decide), if_neg (by decide), hcopy]
    exact hput
  · rw [htext]
    rfl

/-- An offset, written where there is room for it. -/
theorem timezoneFormat_eq {tz : Int} (htz : tz.natAbs < 2 ^ 31 * 3600) {tzfmt : Block}
    (hlen : 6 ≤ tzfmt.length) :
    ∃ out, timezoneFormat tz tzfmt = some out ∧ StrAt out 0 (timezoneText tz) := by
  obtain ⟨hhours, hminutes⟩ := zoneParts_eq htz
  rcases Int.lt_trichotomy tz 0 with hneg | rfl | hpos
  · obtain ⟨n, rfl⟩ : ∃ n : Nat, tz = -n := ⟨tz.natAbs, by omega⟩
    have hout := @zoneText_written (-n) _ hlen 43 (by decide)
      (by rw [timezoneText, if_neg (by omega)])
    rw [Int.natAbs_neg, Int.natAbs_natCast] at hout
    rw [timezoneFormat, hhours, hminutes, if_pos hneg, Int.neg_tdiv, Int.neg_tmod, Int.neg_tdiv,
      Int.neg_neg, Int.neg_neg]
    exact hout
  · exact timezoneFormat_zero hlen
  · obtain ⟨n, rfl⟩ := Int.eq_ofNat_of_zero_le (Int.le_of_lt hpos)
    have hout := @zoneText_written n _ hlen 45 (by decide) (by rw [timezoneText, if_pos hpos])
    rw [timezoneFormat, hhours, hminutes, if_neg (by omega), if_pos hpos]
    exact hout

/-! ## Reading it -/

theorem length_coreText (h : Digital dt) :
    (coreText dt).length = 10 ∨ (coreText dt).length = 19 ∨ (coreText dt).length = 23 := by
  have hdate := length_dateText h
  rcases h.cases with ⟨hhour, -, -, hmsec⟩ | ⟨hh, hhour, hmsec⟩
  · simp [coreText, hdate, hhour, hmsec]
  · have hclock := length_clockText h hh
    rcases hmsec with hmsec | ⟨hm, hmsec⟩
    · simp [coreText, hdate, hhour, hclock, hmsec]
    · have hmf := (field_fmtInt (by decide) hm).length
      simp [coreText, hdate, hhour, hclock, hmsec, msecText, hmf]

theorem isColon_of_isdigit {c : UInt8} (h : isdigit c = true) : isColon c = false := by
  rw [isColon, Bool.or_eq_false_iff, beq_eq_false_iff_ne, beq_eq_false_iff_ne]
  constructor
  · rintro rfl
    cases h
  · rintro rfl
    cases h

section Refused

variable {ds : List UInt8}

/-- The third of the digits is no colon. -/
theorem Field.not_colon (hds : Field 4 ds) :
    ∃ a b c d, ds = [a, b, c, d] ∧ isColon c = false := by
  obtain ⟨a, b, c, d, rfl⟩ := List.length_eq_four.mp hds.length
  exact ⟨a, b, c, d, rfl, isColon_of_isdigit (hds.digits c (by simp))⟩

/-- Behind a plus an offset is found, and refused. -/
theorem zoneOf_plus (h : Digital dt) (hds : Field 4 ds) :
    zoneOf (coreText dt ++ 43 :: ds) = none := by
  have hidx := zoneIdx_sign h (.inl rfl) (hds.notMem (c := 69) (by decide))
    (hds.notMem (c := 43) (by decide))
  obtain ⟨a, b, c, d, rfl, hcolon⟩ := hds.not_colon
  have hvalue : zoneValue [43, a, b, c, d] = -1 := by
    simp [zoneValue, allOf, zoneTests, hcolon]
  rw [zoneOf, hidx]
  dsimp only
  rw [List.drop_left, hvalue, if_pos rfl]

/-- Behind a minus none is found. -/
theorem zoneOf_minus (h : Digital dt) (hds : Field 4 ds) :
    zoneOf (coreText dt ++ 45 :: ds) = some (coreText dt ++ 45 :: ds, -1) := by
  have hno : ∀ c : UInt8, isdigit c = false → c ∉ [45, 32, 58, 46] →
      (coreText dt ++ 45 :: ds).idxOf? c = none := by
    intro c hc hsep
    have hcore := notMem_coreText h hc hsep
    have hne : c ≠ 45 := fun heq => hsep (heq ▸ List.mem_cons_self)
    rw [List.idxOf?_eq_none_iff, List.mem_append, List.mem_cons, not_or, not_or]
    exact ⟨hcore, hne, hds.notMem hc⟩
  have htests : allOf ds [(· != 0), (· != 0), isColon] = false := by
    obtain ⟨a, b, c, d, rfl, hcolon⟩ := hds.not_colon
    simp [allOf, hcolon]
  have hidx : zoneIdx (coreText dt ++ 45 :: ds) = none := by
    rw [zoneIdx, hno 43 (by decide) (by decide), hno 69 (by decide) (by decide),
      hno 87 (by decide) (by decide), lastIdx_of_notMem (hds.notMem (by decide)),
      Option.filter_some, List.append_cons, List.drop_left' (by simp), htests,
      if_neg Bool.false_ne_true]
    rfl
  rw [zoneOf, hidx]

/-- A date, with or without a time, is no date with an offset behind it. -/
theorem not_denotes_zone (h : Digital dt) (tz : Int) :
    ¬ Denotes (coreText dt ++ timezoneText tz) dt' := by
  rintro ⟨h', body, quoted, r, hzone, hunquoted, -, hr⟩
  have hds := field_zoneDigits tz
  rw [timezoneText] at hzone
  split at hzone
  · rw [zoneOf_minus h hds] at hzone
    obtain rfl := (Prod.mk.inj (Option.some.inj hzone)).1
    -- nothing is trimmed, and no layout is as long as that
    have hlen := length_coreText h
    have hlen' := length_coreText h'
    have hy := field_fmtInt (w := 4) (by decide) h.year
    obtain ⟨u, hfirst⟩ : ∃ u, coreText dt = fmtInt 4 dt.year ++ u := by
      rw [coreText, dateText, List.append_assoc]
      exact ⟨_, rfl⟩
    have htrim : lrTrimmed (coreText dt ++ 45 :: zoneDigits tz)
        = coreText dt ++ 45 :: zoneDigits tz := by
      rw [lrTrimmed_of_lt (by rw [List.length_append, List.length_cons, hds.length]; omega),
        hfirst, List.append_assoc]
      exact strip_of_fields (v := fmtInt 4 dt.year ++ u ++ [45]) hy hds (by decide) (by decide)
        (by simp)
    have hquote : 39 ∉ coreText dt ++ 45 :: zoneDigits tz := by
      rw [List.mem_append, List.mem_cons, not_or, not_or]
      exact ⟨notMem_coreText h (by decide) (by decide), by decide, hds.notMem (by decide)⟩
    have hsize : (coreText dt ++ 45 :: zoneDigits tz).length = (coreText dt).length + 5 := by
      rw [List.length_append, List.length_cons, hds.length]
    rw [htrim] at hunquoted
    generalize coreText dt ++ 45 :: zoneDigits tz = s at hunquoted hquote hsize
    generalize hm : coreText dt' ++ r = m at hunquoted
    cases hunquoted with
    | plain _ =>
        obtain rfl : r = [] := hr
        rw [← hm, List.append_nil] at hsize
        omega
    | quoted _ _ => simp at hquote
  · rw [zoneOf_plus h hds] at hzone
    cases hzone

end Refused

/-! ## The offset of a zone -/

/-- In a zone of a fixed offset this is what is found, and what is written is worth it as far as
whole minutes can be.  Behind a date no text of it is ever read. -/
theorem timezoneCompute_text {tz : Int} {localtime gmtime : Int64 → Option Tm}
    {mktime timegm : Tm → Int64} (hzone : CivilZone tz localtime mktime)
    (hutc : CivilZone 0 gmtime timegm) (htz : tz.natAbs < 2 ^ 31 * 3600) {ts : Int64}
    (h0 : 0 ≤ ts.toInt) (hlt : ts.toInt < year10000) {tzfmt : Block} (hlen : 6 ≤ tzfmt.length) :
    ∃ out text, timezoneCompute gmtime mktime ts (some tzfmt) = some (tz, some out) ∧
      StrAt out 0 text ∧ text.length = 5 ∧
      (zoneSeconds text = tz ↔ 60 ∣ tz ∧ tz.natAbs < 360000) ∧
      ∀ dt, Digital dt → ∀ b p mktime outdt, StrAt b p (coreText dt ++ text) →
        cstrParseTimestamp mktime b p outdt = some (-1, outdt) := by
  obtain ⟨out, hformat, hstr⟩ := timezoneFormat_eq htz hlen
  obtain ⟨t, m, hgmtime, hm, hseconds⟩ := hutc.localtime_eq ts (by omega) (by omega)
  have hoffset : (mktime t).toInt - ts.toInt = tz := by
    have hsmall := year10000_lt
    rw [hzone.mktime_eq t m hm (by omega) (by omega), hm.epochSeconds_eq, hseconds, Int.sub_zero,
      Int64.toInt_ofInt_of_le (by omega) (by omega)]
    omega
  refine ⟨out, timezoneText tz, ?_, hstr, length_timezoneText tz, zoneSeconds_iff tz, ?_⟩
  · simp only [timezoneCompute, hgmtime, hoffset, hformat]
    rfl
  · intro dt hdt b p mktime outdt h
    exact cstrParseTimestamp_of_not h (fun dt' hdt' => not_denotes_zone hdt tz hdt'.denotes) outdt

/-- Five and a half hours east of Greenwich, an offset of whole minutes. -/
theorem timezoneCompute_text_east :
    ∃ out text, timezoneCompute (safeLocaltime 0) (fun t => Int64.ofInt (epochSeconds t + -19800))
        1582934400 (some [0, 0, 0, 0, 0, 0]) = some (-19800, some out) ∧
      StrAt out 0 text ∧ zoneSeconds text = -19800 := by
  obtain ⟨out, text, hcompute, hstr, -, hiff, -⟩ :=
    @timezoneCompute_text (-19800) _ _ _ _ (civilZone_safe (-19800)) (civilZone_safe 0) (by decide)
      1582934400 (by decide) (by decide) [0, 0, 0, 0, 0, 0] (by decide)
  exact ⟨out, text, hcompute, hstr, hiff.mpr (by decide)⟩

end Convd
