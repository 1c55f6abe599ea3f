/-
# `Convd.TimestampText` — a time stamp as a date and a time

`cstr_timestamp_to_datetime` reads a number of milliseconds, has `localtime_r` take it apart, and
prints the parts.  In a zone of a fixed offset, parsing what is printed gives the number back.

    stamp                       returned
    1577018219065               2019-12-22 12:36:59.065
    1577018219000               2019-12-22 12:36:59
    abc                         1970-01-01 00:00:00

The last is no number: `cstr_to_ub8` returns -1 for it, which is not 0.
-/
import Convd.DatetimeRound

namespace Convd

open CString Block Decimal

/-! ## What is read -/

section Read

variable {b : Block} {p n : Nat} {text : List UInt8} {mslen : Int}

/-- What comes of the first `n` characters of a string. -/
def ub8Of (text : List UInt8) (n : Nat) : Int × UInt64 :=
  let r := strtoull (text.take n)
  if n = 0 then (0, 0) else if r.atStart ∨ r.errno then (-1, r.val) else (1, r.val)

/-- How many characters are read. -/
def stampLen (text : List UInt8) (mslen : Int) : Nat :=
  if mslen = -1 then min text.length 20 else mslen.toNat

/-- The character behind those that are read is still in the object. -/
def Readable (b : Block) (p : Nat) (mslen : Int) : Prop :=
  mslen = -1 ∨ 0 ≤ mslen ∧ mslen < 2 ^ 31 ∧ p + mslen.toNat < b.length

theorem strtoull_atStart_iff {s : List UInt8} : (strtoull s).atStart ↔ (numeral s).2 = [] := by
  rw [strtoull]
  dsimp only
  split <;> exact List.isEmpty_iff

/-- Without digits the number is 0. -/
theorem strtoull_of_nil {s : List UInt8} (h : (numeral s).2 = []) : (strtoull s).val = 0 := by
  have hlt : value [] < 2 ^ 64 := by decide
  rw [strtoull]
  dsimp only
  rw [h, if_pos hlt]
  split <;> rfl

theorem strtoull_errno {s : List UInt8} (h : (strtoull s).errno) : (strtoull s).val = -1 := by
  rw [strtoull] at h ⊢
  dsimp only at h ⊢
  split
  · rename_i hlt
    rw [if_pos hlt] at h
    cases h
  · rfl

theorem cstr_take {s rest : List UInt8} (hs : 0 ∉ s) (n : Nat) :
    cstr ((s ++ 0 :: rest).take n) = s.take n := by
  have hne : ∀ c ∈ s, c ≠ 0 := by
    rintro c hc rfl
    exact hs hc
  rcases Nat.le_total n s.length with hn | hn
  · rw [List.take_append_of_le_length hn]
    exact cstr_eq_self fun c hc => hne c (List.mem_of_mem_take hc)
  · rw [List.take_append, List.take_of_length_le hn]
    cases n - s.length with
    | zero => rw [List.take_zero, List.append_nil, cstr_eq_self hne]
    | succ k => rw [List.take_succ_cons, cstr_append_zero hne]

/-- Whether the string is read where it stands or from a copy makes no difference. -/
theorem numberText_eq (h : StrAt b p text) (hn : n < 2 ^ 31) (hlt : p + n < b.length) :
    numberText b p n = some (text.take n) := by
  have hmax : n ≠ toSizeT (-1) := by
    have : toSizeT (-1) = 2 ^ 64 - 1 := rfl
    omega
  rw [numberText, if_neg hmax, List.getElem?_eq_getElem hlt, Option.map_some, Option.bind_eq_bind,
    Option.bind_some]
  dsimp only
  split
  · rename_i hnul
    have hlen : text.length ≤ n := by
      by_contra hlen
      have hget := h.getElem? (Nat.le_of_not_le hlen)
      rw [List.getElem?_eq_getElem hlt, List.getElem?_eq_getElem (Nat.lt_of_not_le hlen),
        Option.getD_some, Option.some.injEq, eq_of_beq hnul] at hget
      exact h.1 (hget ▸ List.getElem_mem _)
    rw [h.cstrAt_eq, List.take_of_length_le hlen]
  · obtain ⟨hs, rest, hdrop⟩ := h
    rw [if_pos (Nat.le_of_lt hlt), hdrop, cstr_take hs]

theorem cstrToUb8_eq (h : StrAt b p text) (hn : n < 2 ^ 31) (hlt : p + n < b.length) :
    cstrToUb8 b p n = some (ub8Of text n) := by
  rw [cstrToUb8, ub8Of]
  by_cases hzero : n = 0
  · rw [if_pos hzero, if_pos hzero]
  · rw [if_neg hzero, if_neg hzero, numberText_eq h hn hlt, Option.bind_eq_bind, Option.bind_some]
    by_cases hstart : (strtoull (text.take n)).atStart
    · have hval := strtoull_of_nil (strtoull_atStart_iff.mp hstart)
      rw [if_pos ⟨hval, hstart⟩, if_pos (.inl hstart)]
    · rw [if_neg fun hboth => hstart hboth.2]
      by_cases herr : (strtoull (text.take n)).errno
      · rw [if_pos herr, if_pos (.inr herr)]
      · rw [if_neg herr, if_neg (not_or.mpr ⟨hstart, herr⟩)]

theorem readStamp_eq (h : StrAt b p text) (hread : Readable b p mslen) :
    readStamp b p mslen = some (ub8Of text (stampLen text mslen)) := by
  have hlt := h.lt_length
  rw [readStamp, stampLen]
  by_cases hall : mslen = -1
  · have hsize : toSizeT 20 = 20 := rfl
    have hmin : min text.length 20 < 2 ^ 31 := by omega
    have hlen : cstrLengthAt b p 20 = some ((min text.length 20 : Nat) : Int) := by
      rw [cstrLengthAt, if_neg (by decide), hsize, h.strnlen_eq, Option.map_some, toInt_of_lt hmin]
    have hcast : toSizeT ((min text.length 20 : Nat) : Int) = min text.length 20 := by
      rw [toSizeT]
      omega
    rw [if_pos hall, if_pos hall, hlen, Option.bind_eq_bind, Option.bind_some]
    dsimp only
    rw [hcast]
    exact cstrToUb8_eq h hmin (by omega)
  · obtain ⟨h0, hmax, hroom⟩ := hread.resolve_left hall
    have hcast : toSizeT mslen = mslen.toNat := by
      rw [toSizeT]
      omega
    rw [if_neg hall, if_neg hall, Option.bind_eq_bind, Option.bind_some]
    dsimp only
    rw [hcast]
    exact cstrToUb8_eq h (by omega) hroom

end Read

/-! ## What is written -/

/-- The fields that are printed. -/
def stampDatetime (t : Tm) (m : UInt64) : CstrDatetime where
  year := t.tmYear + 1900
  month := t.tmMon + 1
  day := t.tmMday
  hour := t.tmHour
  minute := t.tmMin
  second := t.tmSec
  millisecond := if ((m % 1000).toNat : Int) = 0 then -1 else (m % 1000).toNat
  timezone := -1

section Write

variable {b timestr : Block} {p : Nat} {text : List UInt8} {mslen ret : Int} {t : Tm} {m : UInt64}
  {localtime : Int64 → Option Tm} {mktime : Tm → Int64}

theorem Tm.Valid.hour_ne (h : t.Valid) : t.tmHour ≠ -1 := by
  have := (timeIsValid_bounds h).2.2.2.1
  omega

theorem stampDatetime_hour (h : t.Valid) : (stampDatetime t m).hourOrZero = t.tmHour :=
  if_neg h.hour_ne

theorem stampDatetime_msec (t : Tm) (m : UInt64) :
    (stampDatetime t m).msecOrZero = (m % 1000).toNat := by
  rw [CstrDatetime.msecOrZero, stampDatetime]
  dsimp only
  by_cases hzero : ((m % 1000).toNat : Int) = 0
  · rw [if_pos hzero, if_pos rfl, hzero]
  · rw [if_neg hzero, if_neg (by omega)]

theorem printable_stampDatetime (h : t.Valid) (m : UInt64) : Printable (stampDatetime t m) := by
  have hlt : (m % 1000).toNat < 1000 := Nat.mod_lt _ (by decide)
  refine ⟨?_, fun hnone => absurd hnone h.hour_ne, ?_, .inl rfl⟩
  · rw [CstrDatetime.Valid, stampDatetime_hour h]
    exact h
  · rw [stampDatetime]
    dsimp only
    split
    · exact .inl rfl
    · exact .inr (by omega)

theorem stampDatetime_tm (h : t.Valid) (m : UInt64) : (stampDatetime t m).tm = t := by
  rw [CstrDatetime.tm, stampDatetime_hour h, stampDatetime]
  dsimp only
  rw [Int.add_sub_cancel, Int.add_sub_cancel]

/-- The seconds and the milliseconds make up the number. -/
theorem stampDatetime_stamp (h : t.Valid) (hmktime : mktime t = (m / 1000).toInt64) :
    (stampDatetime t m).stamp mktime = m := by
  have hmsec : UInt64.ofInt ((m % 1000).toNat : Int) = m % 1000 := by
    rw [← UInt64.toNat_inj, UInt64.ofInt, UInt64.toNat_ofNat']
    have := (m % 1000).toNat_lt
    omega
  rw [CstrDatetime.stamp, stampDatetime_tm h, hmktime, stampDatetime_msec, hmsec,
    UInt64.toUInt64_toInt64, ← UInt64.toNat_inj, UInt64.toNat_add, UInt64.toNat_mul,
    UInt64.toNat_div, UInt64.toNat_mod]
  have hthousand : (1000 : UInt64).toNat = 1000 := rfl
  have := m.toNat_lt
  rw [hthousand]
  omega

/-- Both formats print the fields. -/
theorem coreText_stampDatetime (h : t.Valid) (m : UInt64) : coreText (stampDatetime t m)
    = dateText (t.tmYear + 1900) (t.tmMon + 1) t.tmMday ++
        32 :: clockText t.tmHour t.tmMin t.tmSec ++
      if ((m % 1000).toNat : Int) ≠ 0 then msecText (m % 1000).toNat else [] := by
  have hhour := h.hour_ne
  rw [coreText, stampDatetime]
  dsimp only
  rw [if_neg hhour]
  by_cases hzero : ((m % 1000).toNat : Int) = 0
  · rw [if_pos hzero, if_pos rfl, if_neg (not_not.mpr hzero), List.append_assoc]
  · rw [if_neg hzero, if_neg (by omega), if_pos hzero, List.append_assoc]

theorem snprintfChkdV1At_whole {n : Nat} (htext : text.length < n) (hn : n ≤ b.length)
    (hnul : 0 ∉ text) :
    ∃ out, snprintfChkdV1At b 0 n text = some ((text.length : Int), out) ∧ StrAt out 0 text := by
  have hroom : ([] : Block).length + n ≤ b.length := by rwa [List.length_nil, Nat.zero_add]
  obtain ⟨out, hprint, hpre, -⟩ := snprintfChkdV1At_eq b.nil_prefix htext hroom
  exact ⟨out, hprint, strAt_of_prefix hpre hnul⟩

/-- Each of the formats fits the size it is given. -/
theorem print_stampDatetime (h : t.Valid) (m : UInt64) (hlen : timestr.length = 24) :
    ∃ r out, (if ((m % 1000).toNat : Int) ≠ 0 then
        snprintfChkdV1At timestr 0 24 (dateText (t.tmYear + 1900) (t.tmMon + 1) t.tmMday ++
          32 :: clockText t.tmHour t.tmMin t.tmSec ++ msecText (m % 1000).toNat)
      else snprintfChkdV1At timestr 0 20 (dateText (t.tmYear + 1900) (t.tmMon + 1) t.tmMday ++
          32 :: clockText t.tmHour t.tmMin t.tmSec)) = some (r, out) ∧
      StrAt out 0 (coreText (stampDatetime t m)) := by
  have hdigital := (printable_stampDatetime h m).digital
  have hnul := notMem_coreText hdigital (c := 0) isdigit_zero (by decide)
  have hcore := coreText_stampDatetime h m
  by_cases hmsec : ((m % 1000).toNat : Int) ≠ 0
  · rw [if_pos hmsec] at hcore ⊢
    rw [← hcore]
    have hle := length_coreText_le hdigital
    obtain ⟨out, hprint, hstr⟩ := snprintfChkdV1At_whole (b := timestr) (n := 24)
      (Nat.lt_succ_of_le hle) (Nat.le_of_eq hlen.symm) hnul
    exact ⟨_, out, hprint, hstr⟩
  · rw [if_neg hmsec, List.append_nil] at hcore
    rw [if_neg hmsec, ← hcore]
    have hhour : 0 ≤ t.tmHour ∧ t.tmHour < 10 ^ 2 := by
      have := (timeIsValid_bounds h).2.2.2.1
      omega
    have hdate := length_dateText hdigital
    have hclock := length_clockText hdigital hhour
    dsimp only [stampDatetime] at hdate hclock
    have hlt : (coreText (stampDatetime t m)).length < 20 := by
      rw [hcore, List.length_append, List.length_cons, hdate, hclock]
      decide
    obtain ⟨out, hprint, hstr⟩ :=
      snprintfChkdV1At_whole (b := timestr) (n := 20) hlt (by omega) hnul
    exact ⟨_, out, hprint, hstr⟩

/-- Null is returned, or the fields of a valid time. -/
theorem cstrTimestampToDatetime_cases (hread : readStamp b p mslen = some (ret, m)) (hret : ret ≠ 0)
    (hlen : timestr.length = 24) :
    (cstrTimestampToDatetime localtime b p mslen timestr = some none ∧
      ∀ t, localtime (m / 1000).toInt64 = some t → ¬ t.Valid) ∨
    ∃ t out, localtime (m / 1000).toInt64 = some t ∧ t.Valid ∧
      cstrTimestampToDatetime localtime b p mslen timestr = some (some out) ∧
      StrAt out 0 (coreText (stampDatetime t m)) := by
  rw [cstrTimestampToDatetime, hread, Option.bind_eq_bind, Option.bind_some]
  dsimp only
  rw [if_neg hret]
  cases hlocal : localtime (m / 1000).toInt64 with
  | none => exact .inl ⟨rfl, fun t ht => nomatch ht⟩
  | some t =>
      dsimp only
      by_cases hvalid : t.Valid
      · obtain ⟨r, out, hprint, hstr⟩ := print_stampDatetime hvalid m hlen
        refine .inr ⟨t, out, rfl, hvalid, ?_, hstr⟩
        rw [Tm.Valid] at hvalid
        rw [hvalid, Bool.not_true, if_neg Bool.false_ne_true]
        by_cases hmsec : ((m % 1000).toNat : Int) ≠ 0
        · rw [if_pos hmsec] at hprint ⊢
          rw [hprint]
          rfl
        · rw [if_neg hmsec] at hprint ⊢
          rw [hprint]
          rfl
      · refine .inl ⟨?_, fun t' ht => Option.some.inj ht ▸ hvalid⟩
        rw [Tm.Valid, Bool.not_eq_true] at hvalid
        rw [hvalid]
        rfl

/-! ## There and back -/

/-- `localtime_r` and `mktime` in a zone of a fixed offset. -/
structure FixedZone (localtime : Int64 → Option Tm) (mktime : Tm → Int64) : Prop where
  inverse : ∀ s t, localtime s = some t → mktime t = s
  near : Near mktime
  epoch : ∃ t, localtime 0 = some t ∧ t.Valid

/-- Either null is returned, or the text was read as a number, and parsing what is returned gives
that number. -/
def ReadsBack (localtime : Int64 → Option Tm) (mktime : Tm → Int64) (b : Block) (p : Nat)
    (mslen : Int) (timestr : Block) : Prop :=
  ∃ ret m res, readStamp b p mslen = some (ret, m) ∧
    cstrTimestampToDatetime localtime b p mslen timestr = some res ∧
    (∀ out, res = some out → ret = 1 ∧
      ∀ dt₀, ∃ dt, cstrParseTimestamp mktime out 0 (some dt₀) = some (m, some dt)) ∧
    (ret ≠ 1 → res = none)

theorem readsBack_of_null (hread : readStamp b p mslen = some (ret, m))
    (hnull : cstrTimestampToDatetime localtime b p mslen timestr = some none) :
    ReadsBack localtime mktime b p mslen timestr :=
  ⟨ret, m, none, hread, hnull, fun _ hout => (nomatch hout), fun _ => rfl⟩

/-- A number that is read is given back. -/
theorem readsBack_of_number (hzone : FixedZone localtime mktime)
    (hread : readStamp b p mslen = some (1, m)) (hlen : timestr.length = 24) :
    ReadsBack localtime mktime b p mslen timestr := by
  rcases cstrTimestampToDatetime_cases hread (by decide) hlen with
    ⟨hnull, -⟩ | ⟨t, out, hlocal, hvalid, hsome, hstr⟩
  · exact readsBack_of_null hread hnull
  · have hmktime := hzone.inverse _ t hlocal
    have hdenotes := denotes_text (printable_stampDatetime hvalid m)
    have hne : mktime (stampDatetime t m).tm ≠ -1 := by
      rw [stampDatetime_tm hvalid, hmktime]
      intro hneg
      have hmax : (m / 1000).toNat = 2 ^ 64 - 1 := congrArg (fun x => x.toUInt64.toNat) hneg
      have hthousand : (1000 : UInt64).toNat = 1000 := rfl
      have hlt := m.toNat_lt
      rw [UInt64.toNat_div, hthousand] at hmax
      omega
    have haccepted : Accepted mktime (coreText (stampDatetime t m)) (stampDatetime t m) :=
      ⟨List.append_nil (coreText _) ▸ hdenotes, (printable_stampDatetime hvalid m).valid, hne⟩
    refine ⟨1, m, some out, hread, hsome, ?_, fun hret => absurd rfl hret⟩
    rintro out' hout'
    obtain rfl := Option.some.inj hout'
    refine ⟨rfl, fun dt₀ => ⟨stampDatetime t m, ?_⟩⟩
    have hstamp := stampDatetime_stamp hvalid hmktime
    rw [cstrParseTimestamp_of_accepted hstr haccepted, hstamp, if_neg fun hnull => nomatch hnull.2]
    rfl

/-- A number out of range is taken for one that no valid time has. -/
theorem readsBack_of_errno (hzone : FixedZone localtime mktime)
    (hread : readStamp b p mslen = some (-1, -1)) (hlen : timestr.length = 24) :
    ReadsBack localtime mktime b p mslen timestr := by
  rcases cstrTimestampToDatetime_cases hread (by decide) hlen with
    ⟨hnull, -⟩ | ⟨t, out, hlocal, hvalid, -, -⟩
  · exact readsBack_of_null hread hnull
  · have hfar := hzone.near t hvalid
    rw [hzone.inverse _ t hlocal] at hfar
    exact absurd hfar (by decide)

/-- What is read back is what has digits, and the empty text. -/
theorem cstrTimestampToDatetime_reads_iff (hzone : FixedZone localtime mktime)
    (h : StrAt b p text) (hreadable : Readable b p mslen) (hlen : timestr.length = 24) :
    ReadsBack localtime mktime b p mslen timestr ↔
      stampLen text mslen = 0 ∨ (numeral (text.take (stampLen text mslen))).2 ≠ [] := by
  have hread := readStamp_eq h hreadable
  generalize stampLen text mslen = n at hread ⊢
  rw [ub8Of] at hread
  by_cases hzero : n = 0
  · rw [if_pos hzero] at hread
    refine iff_of_true (readsBack_of_null hread ?_) (.inl hzero)
    rw [cstrTimestampToDatetime, hread]
    rfl
  · rw [if_neg hzero] at hread
    by_cases hdigits : (numeral (text.take n)).2 = []
    · -- -1 is not 0, and so the time 0 is printed
      rw [if_pos (.inl (strtoull_atStart_iff.mpr hdigits)), strtoull_of_nil hdigits] at hread
      refine iff_of_false ?_ (not_or.mpr ⟨hzero, not_not.mpr hdigits⟩)
      rintro ⟨ret, m, res, hread', hres, -, hnull⟩
      obtain ⟨rfl, rfl⟩ := Prod.mk.inj (Option.some.inj (hread.symm.trans hread'))
      rw [hnull (by decide)] at hres
      obtain ⟨t, hlocal, hvalid⟩ := hzone.epoch
      rcases cstrTimestampToDatetime_cases hread (by decide) hlen with
        ⟨-, hinvalid⟩ | ⟨t, out, -, -, hsome, -⟩
      · exact hinvalid t hlocal hvalid
      · rw [hres] at hsome
        cases hsome
    · refine iff_of_true ?_ (.inr hdigits)
      by_cases herr : (strtoull (text.take n)).errno
      · rw [if_pos (.inr herr), strtoull_errno herr] at hread
        exact readsBack_of_errno hzone hread hlen
      · rw [if_neg (not_or.mpr ⟨strtoull_atStart_iff.not.mpr hdigits, herr⟩)] at hread
        exact readsBack_of_number hzone hread hlen

end Write

/-- UTC, as far as two of its times go. -/
def utcLocaltime (s : Int64) : Option Tm :=
  if s = 0 then some ⟨70, 0, 1, 0, 0, 0⟩
  else if s = 1577018219 then some ⟨119, 11, 22, 12, 36, 59⟩
  else none

def utcMktime (t : Tm) : Int64 :=
  if t = ⟨70, 0, 1, 0, 0, 0⟩ then 0 else if t = ⟨119, 11, 22, 12, 36, 59⟩ then 1577018219 else -1

theorem fixedZone_utc : FixedZone utcLocaltime utcMktime where
  inverse := by
    intro s t h
    rw [utcLocaltime] at h
    split at h
    · obtain rfl := Option.some.inj h
      rename_i hs
      rw [hs]
      rfl
    · split at h
      · obtain rfl := Option.some.inj h
        rename_i hs
        rw [hs]
        rfl
      · cases h
  near := by
    intro t _
    rw [utcMktime]
    split
    · decide
    · split <;> decide
  epoch := ⟨⟨70, 0, 1, 0, 0, 0⟩, rfl, rfl⟩

theorem cstrTimestampToDatetime_reads_iff_number :
    ReadsBack utcLocaltime utcMktime (ascii "1577018219065" ++ [0]) 0 (-1)
      (List.replicate 24 255) :=
  (cstrTimestampToDatetime_reads_iff fixedZone_utc
    (⟨by decide, [], rfl⟩ : StrAt _ 0 (ascii "1577018219065")) (.inl rfl) rfl).mpr
    (.inr (by decide +kernel))

theorem cstrTimestampToDatetime_letters :
    ¬ ReadsBack utcLocaltime utcMktime (ascii "abc" ++ [0]) 0 (-1) (List.replicate 24 255) := by
  rintro ⟨ret, m, res, hread, hres, -, hnull⟩
  have hfailed : readStamp (ascii "abc" ++ [0]) 0 (-1) = some (-1, 0) := by decide +kernel
  have hsome : cstrTimestampToDatetime utcLocaltime (ascii "abc" ++ [0]) 0 (-1)
      (List.replicate 24 255) ≠ some none := by decide +kernel
  obtain ⟨rfl, rfl⟩ := Prod.mk.inj (Option.some.inj (hfailed.symm.trans hread))
  rw [hnull (by decide)] at hres
  exact hsome hres

end Convd
