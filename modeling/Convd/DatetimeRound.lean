/-
# `Convd.DatetimeRound` — printing and parsing a date and time

What `cstr_datetime_print` prints is the text `coreText dt` and the zone, in an array of 30
bytes, and that text denotes `dt`; so parsing it gives the same fields.
-/
import Convd.ParseTimestamp

namespace Convd

open CString Block Decimal

/-! ## What is printed -/

/-- The time zone, if there is one. -/
def givenZone (timezone : Int) : List UInt8 := if timezone = -1 then [] else zoneText timezone

/-- No zone, or one of up to 23:59, east or west. -/
def IsZone (timezone : Int) : Prop := timezone = -1 ∨ ∃ h m : Int, 0 ≤ h ∧ h ≤ 23 ∧ 0 ≤ m ∧ m ≤ 59 ∧
  (timezone = h * 100 + m ∨ timezone = -(h * 100 + m))

/-- A date, with a time of day or none, that `time_is_valid` accepts. -/
structure Printable (dt : CstrDatetime) : Prop where
  valid : dt.Valid
  clock : dt.hour = -1 → dt.minute = 0 ∧ dt.second = 0 ∧ dt.millisecond = -1
  msec : dt.millisecond = -1 ∨ 0 ≤ dt.millisecond ∧ dt.millisecond ≤ 999
  zone : IsZone dt.timezone

theorem timeIsValid_bounds {year mon day hour min sec : Int}
    (h : timeIsValid year mon day hour min sec = true) :
    (1900 ≤ year ∧ year ≤ 9999) ∧ (0 < mon ∧ mon ≤ 12) ∧ (0 < day ∧ day ≤ 31) ∧
      (0 ≤ hour ∧ hour ≤ 24) ∧ (0 ≤ min ∧ min ≤ 59) ∧ (0 ≤ sec ∧ sec ≤ 60) := by
  rw [timeIsValid] at h
  split at h
  · cases h
  · omega

section Print

variable {dt : CstrDatetime}

theorem Printable.digital (h : Printable dt) : Digital dt := by
  obtain ⟨hy, hmo, hd, hh, hmi, hs⟩ := timeIsValid_bounds h.valid
  refine ⟨by omega, by omega, by omega, by omega, by omega, ?_, ?_⟩
  · by_cases hhour : dt.hour = -1
    · exact .inl ⟨hhour, h.clock hhour⟩
    · rw [CstrDatetime.hourOrZero, if_neg hhour] at hh
      exact .inr (by omega)
  · exact h.msec.imp_right fun hm => by omega

/-! ## The array -/

/-- A text that fits is printed behind what is there. -/
theorem snprintfChkdV1At_eq {s t : List UInt8} {out : Block} {n : Nat} (h : s <+: out)
    (ht : t.length < n) (hroom : s.length + n ≤ out.length) :
    ∃ out', snprintfChkdV1At out s.length n t = some ((t.length : Int), out') ∧
      s ++ t ++ [0] <+: out' ∧ out'.length = out.length := by
  have hfits : t.length ≤ n - 1 := by omega
  have hsize : s.length + (t ++ [0]).length ≤ out.length := by
    rw [List.length_append, List.length_singleton]
    omega
  obtain ⟨out', hput, hpre, hlen⟩ := putAll_of_prefix h hsize
  refine ⟨out', ?_, by rwa [List.append_assoc], hlen⟩
  rw [snprintfChkdV1At, if_neg (by omega), List.take_of_length_le hfits, hput,
    Nat.min_eq_left hfits, Option.map_some]

/-- A field that is given is printed, one that is not leaves the NUL where it is. -/
theorem printField_eq {s t : List UInt8} {out : Block} {given : Bool}
    (h : s ++ (if given then [] else [0]) <+: out) (hout : out.length = 30)
    (hlen : s.length + (if given then t else []).length < 30) :
    ∃ out', printField given out s.length t
        = some (((if given then t else []).length : Int), out') ∧
      s ++ (if given then t else []) ++ [0] <+: out' ∧ out'.length = 30 := by
  cases given with
  | false => exact ⟨out, rfl, by simpa using h, hout⟩
  | true =>
      rw [if_pos rfl, List.append_nil] at h
      rw [if_pos rfl] at hlen ⊢
      obtain ⟨out', hprint, hpre, hsize⟩ := snprintfChkdV1At_eq (t := t) (n := 30 - s.length) h
        (by omega) (by omega)
      have hroom : ((cstrDatetimeSizeMax : Int) - s.length).toNat = 30 - s.length := by
        rw [cstrDatetimeSizeMax]
        omega
      refine ⟨out', ?_, hpre, hsize.trans hout⟩
      rw [printField, if_pos rfl, hroom, Int.toNat_natCast, hprint]

/-- The texts between which the NUL is moved. -/
theorem prefix_of_append {s out : List UInt8} (h : s ++ [0] <+: out) (given : Bool) :
    s ++ (if given then [] else [0]) <+: out := by
  cases given with
  | false => exact h
  | true => exact (List.append_nil s).symm ▸ (List.prefix_append s [0]).trans h

/-- A zone that is given is a sign, two digits, a colon and two digits. -/
theorem IsZone.cases {tz : Int} (h : IsZone tz) :
    tz = -1 ∨ tz ≠ -1 ∧ ∃ (c : UInt8) (sign h m : Int),
      (c = 43 ∧ sign = 1 ∨ c = 87 ∧ sign = -1) ∧ (0 ≤ h ∧ h ≤ 23) ∧ (0 ≤ m ∧ m ≤ 59) ∧
        tz = (h * 100 + m) * sign ∧ zoneText tz = c :: (fmtInt 2 h ++ 58 :: fmtInt 2 m) ∧
        Field 2 (fmtInt 2 h) ∧ Field 2 (fmtInt 2 m) := by
  by_cases hnone : tz = -1
  · exact .inl hnone
  · obtain ⟨h, m, hh, hh', hm, hm', htz⟩ := h.resolve_left hnone
    have hhf := field_fmtInt (w := 2) (by decide) (by omega : 0 ≤ h ∧ h < 10 ^ 2)
    have hmf := field_fmtInt (w := 2) (by decide) (by omega : 0 ≤ m ∧ m < 10 ^ 2)
    refine .inr ⟨hnone, ?_⟩
    by_cases hneg : tz < 0
    · have hdiv : -tz / 100 = h := by omega
      have hmod : -tz % 100 = m := by omega
      refine ⟨87, -1, h, m, .inr ⟨rfl, rfl⟩, ⟨hh, hh'⟩, ⟨hm, hm'⟩, by omega, ?_, hhf, hmf⟩
      rw [zoneText, if_pos hneg, hdiv, hmod]
    · have hdiv : tz / 100 = h := by omega
      have hmod : tz % 100 = m := by omega
      refine ⟨43, 1, h, m, .inl ⟨rfl, rfl⟩, ⟨hh, hh'⟩, ⟨hm, hm'⟩, by omega, ?_, hhf, hmf⟩
      rw [zoneText, if_neg hneg, hdiv, hmod]

theorem length_zoneText {tz : Int} (h : IsZone tz) :
    (if tz != -1 then zoneText tz else []).length ≤ 6 := by
  rcases h.cases with rfl | ⟨-, c, sign, h, m, -, -, -, -, htext, hhf, hmf⟩
  · exact Nat.zero_le 6
  · split
    · rw [htext]
      simp [hhf.length, hmf.length]
    · exact Nat.zero_le 6

/-- The text, field by field as it is printed. -/
theorem coreText_eq (dt : CstrDatetime) : coreText dt = dateText dt.year dt.month dt.day ++
    (if dt.hour = -1 then [] else [32]) ++
    (if dt.hour != -1 then clockText dt.hour dt.minute dt.second else []) ++
    (if dt.millisecond != -1 then msecText dt.millisecond else []) := by
  by_cases hhour : dt.hour = -1 <;> by_cases hmsec : dt.millisecond = -1 <;>
    simp [coreText, hhour, hmsec]

/-- The blank is written over the NUL of the date, if there is a time. -/
theorem printBlank_eq {s : List UInt8} {out : Block} (h : s ++ [0] <+: out)
    (hout : out.length = 30) (hpos : 0 < s.length) (hlen : s.length < 30) (hour : Int) :
    ∃ out', printBlank hour out s.length
        = some (((s ++ if hour = -1 then [] else [32]).length : Int), out') ∧
      s ++ (if hour = -1 then [] else [32]) ++ (if hour != -1 then [] else [0]) <+: out' ∧
      out'.length = 30 := by
  by_cases hhour : hour = -1
  · subst hhour
    exact ⟨out, by simp [printBlank], by simpa using h, hout⟩
  · obtain ⟨out', hput, hpre, hsize⟩ :=
      put_of_prefix ((List.prefix_append s [0]).trans h) (by omega) 32
    have hne : (s.length : Int) ≠ 0 := by omega
    refine ⟨out', ?_, by simpa [hhour] using hpre, hsize.trans hout⟩
    rw [printBlank, if_pos ⟨hhour, hne⟩, Int.toNat_natCast, hput, if_neg hhour, List.length_append]
    rfl

/-- The text fits the array. -/
theorem cstrDatetimePrint_eq (h : Printable dt) {outfmt : Block} (hout : outfmt.length = 30) :
    ∃ out, cstrDatetimePrint dt outfmt = some out ∧ out.length = 30 ∧
      coreText dt ++ givenZone dt.timezone ++ [0] <+: out := by
  have hdigital := h.digital
  have hdate := length_dateText hdigital
  have hcore := coreText_eq dt
  have hfits := length_coreText_le hdigital
  have hzone := length_zoneText h.zone
  have hyear : (dt.year != -1) = true := by
    have := hdigital.year
    simp
    omega
  rw [hcore, List.length_append, List.length_append] at hfits
  obtain ⟨out₀, hput, hpre₀, hlen₀⟩ := put_of_prefix outfmt.nil_prefix (by simp [hout]) 0
  obtain ⟨out₁, hprint₁, hpre₁, hlen₁⟩ := @printField_eq [] (dateText dt.year dt.month dt.day) out₀
    true out₀.nil_prefix (hlen₀.trans hout) (by simp [hdate])
  rw [if_pos rfl, List.nil_append] at hpre₁
  obtain ⟨out₂, hblank, hpre₂, hlen₂⟩ := printBlank_eq hpre₁ hlen₁ (by simp [hdate])
    (by simp [hdate]) dt.hour
  generalize dateText dt.year dt.month dt.day ++ (if dt.hour = -1 then [] else [32]) = d at *
  obtain ⟨out₃, hprint₃, hpre₃, hlen₃⟩ := @printField_eq d
    (clockText dt.hour dt.minute dt.second) out₂ (dt.hour != -1) hpre₂ hlen₂ (by omega)
  have hpre₃ := prefix_of_append hpre₃ (dt.millisecond != -1)
  obtain ⟨out₄, hprint₄, hpre₄, hlen₄⟩ := @printField_eq _ (msecText dt.millisecond) out₃
    (dt.millisecond != -1) hpre₃ hlen₃ (by rw [List.length_append]; omega)
  rw [← hcore] at hpre₄
  have hpre₄ := prefix_of_append hpre₄ (dt.timezone != -1)
  obtain ⟨out₅, hprint₅, hpre₅, hlen₅⟩ := @printField_eq (coreText dt) (zoneText dt.timezone) out₄
    (dt.timezone != -1) hpre₄ hlen₄ (by have := length_coreText_le hdigital; omega)
  refine ⟨out₅, ?_, hlen₅, ?_⟩
  · rw [List.length_nil] at hput
    rw [if_pos rfl, List.length_nil, Int.natCast_zero] at hprint₁
    rw [cstrDatetimePrint, hput, Option.bind_eq_bind, Option.bind_some, hyear, hprint₁]
    simp only [Option.bind_eq_bind, Option.bind_some, hblank, hprint₃, ← Int.natCast_add,
      ← List.length_append, hprint₄, ← hcore, hprint₅]
  · rw [givenZone]
    by_cases htz : dt.timezone = -1
    · simpa [htz] using hpre₅
    · simpa [htz] using hpre₅

/-! ## What it denotes -/

/-- A date, and what is behind it, in which there is no `-`. -/
theorem coreText_cases (h : Digital dt) : ∃ rest, (rest = [] ∨ ∃ v, rest = 32 :: v) ∧
    45 ∉ rest ∧ coreText dt = dateText dt.year dt.month dt.day ++ rest := by
  have hs := field_fmtInt (w := 2) (by decide) h.second
  have hmi := field_fmtInt (w := 2) (by decide) h.minute
  rcases h.cases with ⟨hhour, -, -, hmsec⟩ | ⟨hh, hhour, hmsec⟩
  · exact ⟨[], .inl rfl, List.not_mem_nil, by simp [coreText, hhour, hmsec]⟩
  · have hhf := field_fmtInt (w := 2) (by decide) hh
    have hclock : 45 ∉ 32 :: clockText dt.hour dt.minute dt.second := by
      simp [clockText, hhf.notMem (c := 45) (by decide), hmi.notMem (c := 45) (by decide),
        hs.notMem (c := 45) (by decide)]
    rcases hmsec with hmsec | ⟨hm, hmsec⟩
    · exact ⟨32 :: clockText dt.hour dt.minute dt.second, .inr ⟨_, rfl⟩, hclock,
        by simp [coreText, hhour, hmsec]⟩
    · have hmf := field_fmtInt (w := 3) (by decide) hm
      refine ⟨32 :: clockText dt.hour dt.minute dt.second ++ msecText dt.millisecond,
        .inr ⟨_, rfl⟩, fun hmem => ?_, by simp [coreText, hhour, hmsec]⟩
      refine (List.mem_append.mp hmem).elim hclock ?_
      simp [msecText, hmf.notMem (c := 45) (by decide)]

/-- Only digits and four separators are printed. -/
theorem notMem_coreText (h : Digital dt) {c : UInt8} (hc : isdigit c = false)
    (hsep : c ∉ [45, 32, 58, 46]) : c ∉ coreText dt := by
  have hy := (field_fmtInt (w := 4) (by decide) h.year).notMem hc
  have hmo := (field_fmtInt (w := 2) (by decide) h.month).notMem hc
  have hd := (field_fmtInt (w := 2) (by decide) h.day).notMem hc
  have hmi := (field_fmtInt (w := 2) (by decide) h.minute).notMem hc
  have hs := (field_fmtInt (w := 2) (by decide) h.second).notMem hc
  have hdate : c ∉ dateText dt.year dt.month dt.day := by
    simp_all [dateText]
  simp only [List.mem_cons, List.not_mem_nil, or_false, not_or] at hsep
  rcases h.cases with ⟨hhour, -, -, hmsec⟩ | ⟨hh, hhour, hmsec⟩
  · simpa [coreText, hhour, hmsec] using hdate
  · have hhf := (field_fmtInt (w := 2) (by decide) hh).notMem hc
    rcases hmsec with hmsec | ⟨hm, hmsec⟩
    · simp [coreText, clockText, hhour, hmsec, hdate, hhf, hmi, hs, hsep]
    · have hmf := (field_fmtInt (w := 3) (by decide) hm).notMem hc
      simp [coreText, clockText, msecText, hhour, hmsec, hdate, hhf, hmi, hs, hmf, hsep]

/-- A text between digits is not trimmed. -/
theorem strip_of_fields {w w' : Nat} {f g u v : List UInt8} (hf : Field w f) (hg : Field w' g)
    (hw : 0 < w) (hw' : 0 < w') (h : f ++ u = v ++ g) : List.strip isspace (f ++ u) = f ++ u := by
  have hf0 : f ≠ [] := List.ne_nil_of_length_pos (hf.length ▸ hw)
  have hg0 : g ≠ [] := List.ne_nil_of_length_pos (hg.length ▸ hw')
  apply List.strip_eq_self
  · intro c hc
    rw [List.head?_append_of_ne_nil _ hf0] at hc
    exact isspace_of_isdigit (hf.digits c (List.mem_of_mem_head? hc))
  · intro c hc
    rw [h, List.getLast?_append_of_ne_nil _ hg0] at hc
    exact isspace_of_isdigit (hg.digits c (List.mem_of_mem_getLast? hc))

/-- The last field that is printed. -/
theorem coreText_last (h : Digital dt) :
    ∃ v g w, 0 < w ∧ Field w g ∧ coreText dt = v ++ g := by
  have hd := field_fmtInt (w := 2) (by decide) h.day
  have hs := field_fmtInt (w := 2) (by decide) h.second
  rcases h.cases with ⟨hhour, -, -, hmsec⟩ | ⟨-, hhour, hmsec | ⟨hm, hmsec⟩⟩
  · exact ⟨fmtInt 4 dt.year ++ 45 :: (fmtInt 2 dt.month ++ [45]), fmtInt 2 dt.day, 2, by decide, hd,
      by simp [coreText, dateText, hhour, hmsec]⟩
  · exact ⟨dateText dt.year dt.month dt.day ++ 32 ::
      (fmtInt 2 dt.hour ++ 58 :: (fmtInt 2 dt.minute ++ [58])), fmtInt 2 dt.second, 2, by decide,
      hs, by simp [coreText, clockText, hhour, hmsec]⟩
  · exact ⟨dateText dt.year dt.month dt.day ++
      (32 :: clockText dt.hour dt.minute dt.second ++ [46]), fmtInt 3 dt.millisecond, 3, by decide,
      field_fmtInt (by decide) hm, by simp [coreText, msecText, hhour, hmsec]⟩

theorem lrTrimmed_coreText (h : Digital dt) : lrTrimmed (coreText dt) = coreText dt := by
  have hlen := length_coreText_le h
  have hy := field_fmtInt (w := 4) (by decide) h.year
  obtain ⟨v, g, w, hw, hg, hlast⟩ := coreText_last h
  obtain ⟨u, hfirst⟩ : ∃ u, coreText dt = fmtInt 4 dt.year ++ u := by
    rw [coreText, dateText, List.append_assoc]
    exact ⟨_, rfl⟩
  rw [lrTrimmed_of_lt (by omega), hfirst]
  exact strip_of_fields hy hg (by decide) hw (hfirst.symm.trans hlast)

/-- Without a zone the last `-` is that of the date. -/
theorem zoneOf_coreText (h : Digital dt) : zoneOf (coreText dt) = some (coreText dt, -1) := by
  have hplus := notMem_coreText h (c := 43) (by decide) (by decide)
  have heast := notMem_coreText h (c := 69) (by decide) (by decide)
  have hwest := notMem_coreText h (c := 87) (by decide) (by decide)
  obtain ⟨rest, hrest, hminus, hcore⟩ := coreText_cases h
  have hd := field_fmtInt (w := 2) (by decide) h.day
  obtain ⟨u, hlast⟩ : ∃ u, coreText dt = u ++ 45 :: (fmtInt 2 dt.day ++ rest) := by
    refine ⟨fmtInt 4 dt.year ++ 45 :: fmtInt 2 dt.month, ?_⟩
    rw [hcore]
    simp [dateText]
  have hnone : 45 ∉ fmtInt 2 dt.day ++ rest := by
    simp [hd.notMem (c := 45) (by decide), hminus]
  -- behind it there are two digits, and a blank or nothing
  have htests : allOf (fmtInt 2 dt.day ++ rest) [(· != 0), (· != 0), isColon] = false := by
    obtain ⟨a, c, hday⟩ := List.length_eq_two.mp hd.length
    rcases hrest with rfl | ⟨v, rfl⟩ <;> simp [hday, allOf, isColon]
  have hfilter : ((lastIdx 45 (coreText dt)).filter fun i =>
      allOf ((coreText dt).drop (i + 1)) [(· != 0), (· != 0), isColon]) = none := by
    rw [hlast, lastIdx_of_notMem hnone, List.append_cons, Option.filter_some,
      List.drop_left' (by simp), htests, if_neg Bool.false_ne_true]
  have hidx : zoneIdx (coreText dt) = none := by
    rw [zoneIdx, List.idxOf?_eq_none_iff.mpr hplus, List.idxOf?_eq_none_iff.mpr heast,
      List.idxOf?_eq_none_iff.mpr hwest, hfilter]
    rfl
  rw [zoneOf, hidx]

/-- A zone that is printed is read as it was. -/
theorem zoneValue_eq {c : UInt8} {sign h m : Int} (hc : c = 43 ∧ sign = 1 ∨ c = 87 ∧ sign = -1)
    (hh : 0 ≤ h ∧ h ≤ 23) (hm : 0 ≤ m ∧ m ≤ 59) :
    zoneValue (c :: (fmtInt 2 h ++ 58 :: fmtInt 2 m)) = (h * 100 + m) * sign := by
  obtain ⟨hlen, hdigits, hvalue⟩ := fmtInt_digits (w := 2) (by decide) hh.1 (by omega)
  obtain ⟨hlen', hdigits', hvalue'⟩ := fmtInt_digits (w := 2) (by decide) hm.1 (by omega)
  have htests : allOf (fmtInt 2 h ++ 58 :: fmtInt 2 m) zoneTests = true := by
    obtain ⟨a, b, hab⟩ := List.length_eq_two.mp hlen
    obtain ⟨d, e, hde⟩ := List.length_eq_two.mp hlen'
    rw [hab] at hdigits ⊢
    rw [hde] at hdigits' ⊢
    simp [allOf, zoneTests, isColon, hdigits a, hdigits b, hdigits' d, hdigits' e]
  have htake : (fmtInt 2 h ++ 58 :: fmtInt 2 m).take 2 = fmtInt 2 h := List.take_left' hlen
  have hdrop : ((fmtInt 2 h ++ 58 :: fmtInt 2 m).drop 3).take 2 = fmtInt 2 m := by
    rw [List.append_cons, List.drop_left' (by simp [hlen])]
    exact List.take_of_length_le (Nat.le_of_eq hlen')
  rw [zoneValue, htake, hdrop, atoi_of_isdigit hdigits, atoi_of_isdigit hdigits', hvalue, hvalue']
  rcases hc with ⟨rfl, rfl⟩ | ⟨rfl, rfl⟩
  · exact if_pos ⟨by decide, htests, hh.2, hm.2⟩
  · exact if_pos ⟨by decide, htests, hh.2, hm.2⟩

/-- The sign of a zone is found, for there is none in front of it. -/
theorem zoneIdx_sign (hdigital : Digital dt) {c : UInt8} (hc : c = 43 ∨ c = 87) {z : List UInt8}
    (heast : 69 ∉ z) (hplus : 43 ∉ z) :
    zoneIdx (coreText dt ++ c :: z) = some (coreText dt).length := by
  have hyes := fun hmem => @idxOf?_of_notMem (coreText dt) z c hmem
  rcases hc with rfl | rfl
  · rw [zoneIdx, hyes (notMem_coreText hdigital (by decide) (by decide))]
    rfl
  · have hno : ∀ {a : UInt8}, a ∉ coreText dt → a ≠ 87 → a ∉ z →
        (coreText dt ++ 87 :: z).idxOf? a = none := by
      intro a hcore hne hz
      rw [List.idxOf?_eq_none_iff]
      simp [hcore, hne, hz]
    rw [zoneIdx, hno (notMem_coreText hdigital (by decide) (by decide)) (by decide) hplus,
      hno (notMem_coreText hdigital (by decide) (by decide)) (by decide) heast,
      hyes (notMem_coreText hdigital (by decide) (by decide))]
    rfl

theorem zoneOf_text (h : Printable dt) :
    zoneOf (coreText dt ++ givenZone dt.timezone) = some (coreText dt, dt.timezone) := by
  have hdigital := h.digital
  rw [givenZone]
  rcases h.zone.cases with htz | ⟨htz, c, sign, hh, m, hc, hhb, hmb, hvalue, htext, hhf, hmf⟩
  · rw [if_pos htz, List.append_nil, htz]
    exact zoneOf_coreText hdigital
  · have hzone := zoneValue_eq hc hhb hmb
    have hno : ∀ a : UInt8, isdigit a = false → a ≠ 58 → a ∉ fmtInt 2 hh ++ 58 :: fmtInt 2 m := by
      intro a ha hne
      simp [hhf.notMem ha, hmf.notMem ha, hne]
    have hidx := zoneIdx_sign hdigital (hc.imp And.left And.left)
      (hno 69 (by decide) (by decide)) (hno 43 (by decide) (by decide))
    rw [if_neg htz, htext, zoneOf, hidx]
    dsimp only
    rw [List.drop_left, List.take_left, hzone, ← hvalue, if_neg htz]

theorem denotes_text (h : Printable dt) :
    Denotes (coreText dt ++ givenZone dt.timezone) dt := by
  have hdigital := h.digital
  refine ⟨hdigital, coreText dt, false, [], zoneOf_text h, ?_, ?_, rfl⟩
  · rw [lrTrimmed_coreText hdigital, List.append_nil]
    exact .plain (notMem_coreText hdigital (by decide) (by decide))
  · split <;> exact List.not_mem_nil

theorem nul_notMem_text (h : Printable dt) : 0 ∉ coreText dt ++ givenZone dt.timezone := by
  have hcore := notMem_coreText h.digital (c := 0) isdigit_zero (by decide)
  rw [givenZone, List.mem_append, not_or]
  refine ⟨hcore, ?_⟩
  rcases h.zone.cases with htz | ⟨htz, c, sign, hh, m, hc, -, -, -, htext, hhf, hmf⟩
  · rw [if_pos htz]
    exact List.not_mem_nil
  · have hsign : 0 ≠ c := by rcases hc with ⟨rfl, -⟩ | ⟨rfl, -⟩ <;> decide
    rw [if_neg htz, htext]
    simp [hsign, hhf.notMem isdigit_zero, hmf.notMem isdigit_zero]

end Print

/-! ## There and back -/

/-- What `time_is_valid` is asked of a `struct tm`. -/
def Tm.Valid (t : Tm) : Prop :=
  timeIsValid (t.tmYear + 1900) (t.tmMon + 1) t.tmMday t.tmHour t.tmMin t.tmSec = true

/-- The times of valid years are so small that their milliseconds can be stored. -/
def Near (mktime : Tm → Int64) : Prop := ∀ t : Tm, t.Valid → (mktime t).toInt.natAbs < 2 ^ 53

section Round

variable {dt : CstrDatetime} {mktime : Tm → Int64}

theorem CstrDatetime.Valid.tm (h : dt.Valid) : dt.tm.Valid := by
  rw [CstrDatetime.Valid] at h
  rw [Tm.Valid, CstrDatetime.tm]
  simpa only [Int.sub_add_cancel] using h

theorem toInt_cases (x : Int64) :
    x.toInt = x.toUInt64.toNat ∨ x.toInt = (x.toUInt64.toNat : Int) - 2 ^ 64 := by
  have h : x.toInt = Int.bmod x.toUInt64.toNat (2 ^ 64) := BitVec.toInt_eq_toNat_bmod x.toBitVec
  have hlt := x.toUInt64.toNat_lt
  rw [h, Int.bmod_def]
  split <;> omega

/-- Seconds that are not -1 do not come to -1 as milliseconds. -/
theorem milliseconds_ne {x : Int64} {ms : Int} (hx : x ≠ -1) (hsmall : x.toInt.natAbs < 2 ^ 53)
    (h0 : 0 ≤ ms) (h : ms < 10 ^ 3) : x.toUInt64 * 1000 + UInt64.ofInt ms ≠ -1 := by
  obtain ⟨k, rfl⟩ := Int.eq_ofNat_of_zero_le h0
  intro heq
  have hnat := congrArg UInt64.toNat heq
  have hk : (UInt64.ofInt (k : Int)).toNat = k := by
    rw [UInt64.ofInt, UInt64.toNat_ofNat']
    omega
  have hthousand : (1000 : UInt64).toNat = 1000 := rfl
  have hmax : (-1 : UInt64).toNat = 2 ^ 64 - 1 := rfl
  rw [UInt64.toNat_add, UInt64.toNat_mul, hk, hthousand, hmax, Nat.mod_add_mod] at hnat
  have hlt := x.toUInt64.toNat_lt
  have hne : x.toUInt64.toNat ≠ 2 ^ 64 - 1 := by
    intro hn
    exact hx (toUInt64_eq_neg_one.mp (UInt64.toNat_inj.mp (hn.trans hmax.symm)))
  rcases toInt_cases x with ht | ht
  · rw [Nat.mod_eq_of_lt (by omega)] at hnat
    omega
  · -- below zero the product wraps 999 times
    have hsum : x.toUInt64.toNat * 1000 + k
        = 2 ^ 64 * 999 + (2 ^ 64 + k - 1000 * (2 ^ 64 - x.toUInt64.toNat)) := by omega
    rw [hsum, Nat.mul_add_mod, Nat.mod_eq_of_lt (by omega)] at hnat
    omega

/-- A time stamp is not mistaken for a failure. -/
theorem stamp_ne (hnear : Near mktime) (h : Printable dt) (hmktime : mktime dt.tm ≠ -1) :
    dt.stamp mktime ≠ -1 :=
  milliseconds_ne hmktime (hnear dt.tm h.valid.tm) h.digital.msecOrZero.1 h.digital.msecOrZero.2

/-- What is printed is read as it was. -/
theorem cstrDatetimePrint_parses (h : Printable dt) (hmktime : mktime dt.tm ≠ -1)
    {outfmt : Block} (hout : outfmt.length = 30) :
    ∃ out, cstrDatetimePrint dt outfmt = some out ∧ out.length = 30 ∧
      StrAt out 0 (coreText dt ++ givenZone dt.timezone) ∧
      (∀ dt₀, cstrParseTimestamp mktime out 0 (some dt₀) = some (dt.stamp mktime, some dt)) ∧
      (Near mktime → dt.stamp mktime ≠ -1) := by
  obtain ⟨out, hprint, hlen, hpre⟩ := cstrDatetimePrint_eq h hout
  have hstr := strAt_of_prefix hpre (nul_notMem_text h)
  have haccepted : Accepted mktime (coreText dt ++ givenZone dt.timezone) dt :=
    ⟨denotes_text h, h.valid, hmktime⟩
  refine ⟨out, hprint, hlen, hstr, fun dt₀ => ?_, fun hnear => stamp_ne hnear h hmktime⟩
  rw [cstrParseTimestamp_of_accepted hstr haccepted, if_neg fun hnull => nomatch hnull.2]
  rfl

theorem cstrDatetimePrint_parses_west :
    ∃ out, cstrDatetimePrint ⟨2019, 12, 22, 12, 36, 59, 65, -830⟩ (List.replicate 30 255)
        = some out ∧
      ∀ dt₀, cstrParseTimestamp (fun _ => 1577018219) out 0 (some dt₀)
        = some (1577018219065, some ⟨2019, 12, 22, 12, 36, 59, 65, -830⟩) := by
  have h : Printable ⟨2019, 12, 22, 12, 36, 59, 65, -830⟩ :=
    ⟨rfl, by decide, .inr (by decide), .inr ⟨8, 30, by decide⟩⟩
  obtain ⟨out, hprint, -, -, hparse, -⟩ := @cstrDatetimePrint_parses _ (fun _ => 1577018219) h
    (by decide) (List.replicate 30 255) rfl
  exact ⟨out, hprint, hparse⟩

end Round

end Convd
