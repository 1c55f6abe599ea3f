/-
# `Convd.XmlHeadWrites` — what formatting a head touches

`conv_xmlhead_format` asks for the room it needs in three ways, and is right in each case from
some size of the output on:

    no mark        `cstr_safecopy`, which puts a NUL at      1 ≤ blen
                   `bufp[blen - 1]` when there is no room
    UTF-8 mark     the mark is written, then                 3 ≤ blen
                   `cstr_safecopy` behind it
    UCS marks      `(int) blen > headlen * w + w`            always in bounds

In UCS a character is made a word as a signed `char`, and the words are put in order for a
little-endian host.  So what is written, when something is, is the text in that encoding if
and only if the host is one and the characters are below 128 (`unitBytes_eq_iff`).
-/
import Convd.XmlMarkup
import Convd.XmlText

namespace Convd

open CString Loop

/-! ## Units -/

theorem bom_of_isText {bom : UcsBom} (hbom : isText bom = true) :
    bom = .noneBom ∨ bom = .utf8Bom ∨ bom = .utf8BomAsk := by
  cases bom <;> simp_all [isText]

theorem bom_of_units {bom : UcsBom} (hbom : isText bom = false) :
    bom = .ucs2beBom ∨ bom = .ucs2leBom ∨ bom = .ucs4beBom ∨ bom = .ucs4leBom := by
  cases bom <;> simp_all [isText]

/-- A mark of units is one unit. -/
theorem bomLength_eq_unitWidth {bom : UcsBom} (hbom : isText bom = false) :
    bomLength bom = unitWidth bom := by
  rcases bom_of_units hbom with rfl | rfl | rfl | rfl <;> rfl

/-- The sign shows in the image of a word of two bytes or more. -/
theorem image_signExtend_iff (e : Endian) {w : Nat} (hw : 2 ≤ w) (c : UInt8) :
    e.image w (signExtend w c) = e.image w c.toNat ↔ c.toNat < 128 := by
  have hpow : 256 ^ 2 ≤ 256 ^ w := Nat.pow_le_pow_right (by decide) hw
  have hc : c.toNat < 256 := c.toNat_lt
  constructor
  · intro himage
    by_contra hsign
    have hvalue := congrArg e.value himage
    have hlt : 256 ^ w - 256 + c.toNat < 256 ^ w := by omega
    have hlt' : c.toNat < 256 ^ w := by omega
    rw [Endian.value_image, Endian.value_image, signExtend, if_neg hsign, Nat.mod_eq_of_lt hlt,
      Nat.mod_eq_of_lt hlt'] at hvalue
    omega
  · intro hlow
    rw [signExtend, if_pos hlow]

/-- On a little-endian host the bytes are in the order the mark announces. -/
theorem unitBytes_little {bom : UcsBom} (hbom : isText bom = false) (c : UInt8) :
    unitBytes .little bom c
      = (bomOrder bom).image (unitWidth bom) (signExtend (unitWidth bom) c) := by
  rcases bom_of_units hbom with rfl | rfl | rfl | rfl
  · exact image_boHtobe .little 2 _
  · exact image_boHtole .little 2 _
  · exact image_boHtobe .little 4 _
  · exact image_boHtole .little 4 _

/-- On a big-endian host they are not: the first character of a head shows it. -/
theorem unitBytes_big_ne {bom : UcsBom} (hbom : isText bom = false) :
    unitBytes .big bom 60 ≠ encodeUnit bom 60 := by
  rcases bom_of_units hbom with rfl | rfl | rfl | rfl <;> decide

theorem unitBytes_eq_iff {bom : UcsBom} (hbom : isText bom = false) (host : Endian)
    {t : List UInt8} (ht : t.head? = some 60) :
    (∀ c ∈ t, unitBytes host bom c = encodeUnit bom c) ↔
      host = .little ∧ ∀ c ∈ t, c.toNat < 128 := by
  cases host with
  | little =>
      simp only [unitBytes_little hbom, encodeUnit,
        image_signExtend_iff _ (two_le_unitWidth hbom), true_and]
  | big =>
      constructor
      · intro hunits
        exact absurd (hunits 60 (List.mem_of_head? ht)) (unitBytes_big_ne hbom)
      · rintro ⟨hhost, -⟩
        cases hhost

/-- Without units a character is itself. -/
theorem unitBytes_text {bom : UcsBom} (hbom : isText bom = true) (host : Endian) (c : UInt8) :
    unitBytes host bom c = encodeUnit bom c := by
  have himage : ∀ e : Endian, e.image 1 c.toNat = [c] := by
    intro e
    cases e <;> simp [Endian.image, Endian.lowDigits]
  rcases bom_of_isText hbom with rfl | rfl | rfl
  · exact (himage _).symm
  · exact (himage _).symm
  · exact (himage _).symm

/-! ## Accesses -/

/-- The unit writers stay before the end of what they write. -/
theorem writeUnits_inBounds {unit : UInt8 → List UInt8} {w blen : Nat} :
    ∀ (cs : List UInt8) {off : Nat} (m : Mem UInt8), off + cs.length * w ≤ blen →
      ∀ a ∈ (writeUnits unit w cs off m).2, a.InBounds blen
  | [], _, _, _ => by
      intro a ha
      cases ha
  | c :: cs, off, m, hroom => by
      rw [List.length_cons, Nat.succ_mul] at hroom
      intro a ha
      rcases List.mem_cons.mp ha with rfl | ha
      · show off + w ≤ blen
        omega
      · exact writeUnits_inBounds cs _ (by omega) a ha

theorem formatUnits_inBounds (host : Endian) (bom : UcsBom) (text : List UInt8)
    (output : ConvBuf) : ∀ a ∈ (formatUnits host bom text output).log, a.InBounds output.blen := by
  have hle := toInt_le output.blen
  intro a ha
  simp only [formatUnits] at ha
  split_ifs at ha with hroom
  · have hend : ((text.length * unitWidth bom + unitWidth bom : Nat) : Int)
        < toInt output.blen := by
      exact_mod_cast hroom
    rcases List.mem_cons.mp ha with rfl | ha
    · show 0 + unitWidth bom ≤ output.blen
      omega
    · exact writeUnits_inBounds text _ (by omega) a ha
  · cases ha

/-- A safe copy stays inside any buffer but an empty one, of which it takes `bufp[SIZE_MAX]`
for the last byte. -/
theorem cstrSafecopy_within_iff (dst : Mem UInt8) {size : Nat} (hsize : size < 2 ^ 64) (off : Nat)
    (source : List UInt8) :
    (∀ a ∈ (cstrSafecopy dst size off source).2.2, a.Within size) ↔ 0 < size := by
  rcases Nat.eq_zero_or_pos size with rfl | hpos
  · have hlast : (⟨toSizeT ((0 : Nat) - 1), 1⟩ : Span) ∈ (cstrSafecopy dst 0 off source).2.2 := by
      rw [cstrSafecopy, if_neg (Nat.not_lt_zero _)]
      exact List.mem_append_right _ (List.mem_singleton_self _)
    refine iff_of_false (fun hall => ?_) (Nat.lt_irrefl 0)
    exact absurd (hall _ hlast) (by decide)
  · refine iff_of_true ?_ hpos
    have hlast : toSizeT (size - 1) = size - 1 := by
      have hcast : (size : Int) - 1 = (size - 1 : Nat) := by omega
      rw [hcast]
      exact toSizeT_of_lt (by omega)
    simp only [cstrSafecopy, hlast, Span.Within]
    split_ifs <;> simp <;> omega

/-! ## The result -/

section Format

variable {host : Endian} {h : ConvXmlhead} {output : ConvBuf}

/-- The size of the output as it is compared: the unit writers make it an `int` first. -/
def formatSize (bom : UcsBom) (blen : Nat) : Int := if isText bom then blen else toInt blen

theorem formatSize_le (bom : UcsBom) (blen : Nat) : formatSize bom blen ≤ blen := by
  rw [formatSize]
  split
  · exact Int.le_refl _
  · exact toInt_le blen

/-- There is room for the text and a byte more. -/
def FormatRoom (h : ConvXmlhead) (blen : Nat) : Prop :=
  (declEnd h.bom h.text : Int) < formatSize h.bom blen

instance (h : ConvXmlhead) (blen : Nat) : Decidable (FormatRoom h blen) :=
  inferInstanceAs (Decidable (_ < _))

theorem FormatRoom.lt (hroom : FormatRoom h output.blen) :
    declEnd h.bom h.text < output.blen := by
  have hle := formatSize_le h.bom output.blen
  rw [FormatRoom] at hroom
  omega

theorem formatUnits_ret {bom : UcsBom} (hbom : bomLength bom = unitWidth bom)
    (text : List UInt8) : (formatUnits host bom text output).ret
      = if (declEnd bom text : Int) < toInt output.blen then (declEnd bom text : Int) else 0 := by
  have hend : (declEnd bom text : Int) = text.length * unitWidth bom + unitWidth bom := by
    rw [declEnd, hbom]
    push_cast
    exact Int.add_comm _ _
  simp only [formatUnits, hend, gt_iff_lt]
  split <;> rfl

theorem declEnd_utf8Bom (head : List UInt8) : declEnd .utf8Bom head = 3 + head.length := by
  rw [declEnd]
  exact congrArg (3 + ·) (Nat.mul_one _)

theorem formatRoom_of_text (hbom : isText h.bom = true) (blen : Nat) :
    FormatRoom h blen ↔ declEnd h.bom h.text < blen := by
  rw [FormatRoom, formatSize, if_pos hbom]
  exact Int.ofNat_lt

theorem formatRoom_of_units (hbom : isText h.bom = false) (blen : Nat) :
    FormatRoom h blen ↔ (declEnd h.bom h.text : Int) < toInt blen := by
  rw [FormatRoom, formatSize, if_neg (by rw [hbom]; exact Bool.false_ne_true)]

theorem convXmlheadFormat_utf8Bom (hbom : h.bom = .utf8Bom) :
    (convXmlheadFormat host h output).ret
      = if 3 + h.text.length < output.blen then (h.text.length : Int) + 3 else 0 := by
  rw [convXmlheadFormat]
  simp only [hbom, cstrSafecopy_fst, decide_eq_true_eq]
  rfl

theorem convXmlheadFormat_units (hbom : isText h.bom = false) :
    convXmlheadFormat host h output = formatUnits host h.bom h.text output := by
  rw [convXmlheadFormat]
  rcases bom_of_units hbom with hb | hb | hb | hb <;> rw [hb] <;> rfl

/-- The formatter answers the size of the mark and the text, or 0. -/
theorem convXmlheadFormat_ret (hbom : h.bom ∈ marks) : (convXmlheadFormat host h output).ret
    = if FormatRoom h output.blen then (declEnd h.bom h.text : Int) else 0 := by
  cases htext : isText h.bom with
  | false =>
      simp only [convXmlheadFormat_units htext, formatUnits_ret (bomLength_eq_unitWidth htext),
        formatRoom_of_units htext]
  | true =>
      simp only [formatRoom_of_text htext]
      rcases bom_of_isText htext with hb | hb | hb
      · rw [convXmlheadFormat_noneBom hb, hb, declEnd_noneBom]
      · rw [convXmlheadFormat_utf8Bom hb, hb, declEnd_utf8Bom, Int.natCast_add, Int.add_comm]
        rfl
      · rw [hb] at hbom
        exact absurd hbom (by decide)

/-- What the formatter touches lies in the output, if that is not too small. -/
theorem convXmlheadFormat_inBounds_iff (hbom : h.bom ∈ marks) (hblen : output.blen < 2 ^ 64) :
    (∀ a ∈ (convXmlheadFormat host h output).log, a.InBounds output.blen) ↔
      (h.bom = .noneBom → 1 ≤ output.blen) ∧ (h.bom = .utf8Bom → 3 ≤ output.blen) := by
  cases htext : isText h.bom with
  | false =>
      rw [convXmlheadFormat_units htext]
      refine iff_of_true (formatUnits_inBounds host h.bom h.text output) ⟨?_, ?_⟩
      · intro hb
        rw [hb] at htext
        cases htext
      · intro hb
        rw [hb] at htext
        cases htext
  | true =>
      rw [convXmlheadFormat]
      rcases bom_of_isText htext with hb | hb | hb
      · simp only [hb, List.forall_mem_map]
        refine (cstrSafecopy_within_iff output.bufp hblen 0 h.text).trans ?_
        simp [Nat.succ_le_iff]
      · have hcopy := cstrSafecopy_within_iff (output.bufp.store 0 (bomBytes .utf8Bom)) hblen 3
          h.text
        simp only [hb, List.forall_mem_map, List.forall_mem_cons]
        constructor
        · rintro ⟨hmark, -⟩
          exact ⟨UcsBom.noConfusion, fun _ => hmark⟩
        · rintro ⟨-, hsize⟩
          have hthree := hsize trivial
          exact ⟨hthree, hcopy.mpr (Nat.lt_of_lt_of_le (by decide) hthree)⟩
      · rw [hb] at hbom
        exact absurd hbom (by decide)

/-- With a NUL in either field the text is not cut. -/
theorem ConvXmlhead.text_eq (hversion : 0 ∈ h.fields.load 0 versionSize)
    (hencoding : 0 ∈ h.fields.load versionSize cvdEncodingLenMax) :
    h.text = headText h.version h.encoding := by
  have hv := h.version_lt_iff.mpr hversion
  have he : h.encoding.length < cvdEncodingLenMax := by
    have hlt := length_cstr_lt hencoding
    rwa [Mem.length_load] at hlt
  have hsizes : versionSize = 16 ∧ cvdEncodingLenMax = 64 ∧ headbufSize = 128 := ⟨rfl, rfl, rfl⟩
  have hlen := length_headText h.version h.encoding
  exact List.take_of_length_le (by omega)

/-- What the formatter is asked for: the head behind its mark, in the encoding of the mark. -/
def ConvXmlhead.encoded (h : ConvXmlhead) : List UInt8 :=
  encodeText h.bom (headText h.version h.encoding)

/-- Nothing outside the output is touched, and what does not fit is refused; the result counts
what was written, and that is the head. -/
structure FormatsRight (host : Endian) (h : ConvXmlhead) (output : ConvBuf) : Prop where
  inBounds : ∀ a ∈ (convXmlheadFormat host h output).log, a.InBounds output.blen
  refuses : output.blen < h.encoded.length → (convXmlheadFormat host h output).ret = 0
  ret_le : 0 < (convXmlheadFormat host h output).ret →
    (convXmlheadFormat host h output).ret ≤ output.blen
  writes : 0 < (convXmlheadFormat host h output).ret →
    (convXmlheadFormat host h output).bufp.load 0 (convXmlheadFormat host h output).ret.toNat
      = h.encoded

/-- The output has the bytes that are written unasked, and units are only written on a
little-endian host and of characters below 128. -/
structure FormatFits (host : Endian) (h : ConvXmlhead) (output : ConvBuf) : Prop where
  noneBom : h.bom = .noneBom → 1 ≤ output.blen
  utf8Bom : h.bom = .utf8Bom → 3 ≤ output.blen
  units : isText h.bom = false → h.encoded.length < toInt output.blen →
    host = .little ∧ ∀ c ∈ h.version ++ h.encoding, c.toNat < 128

/-- The characters around the fields are below 128. -/
theorem forall_mem_headText_iff (v e : List UInt8) :
    (∀ c ∈ headText v e, c.toNat < 128) ↔ ∀ c ∈ v ++ e, c.toNat < 128 := by
  have hfront : ∀ c ∈ ascii "<?xml version=\"", c.toNat < 128 := by decide +kernel
  have hmid : ∀ c ∈ ascii "\" encoding=\"", c.toNat < 128 := by decide +kernel
  have hback : ∀ c ∈ ascii "\"?>", c.toNat < 128 := by decide +kernel
  simp only [headText, List.forall_mem_append]
  constructor
  · rintro ⟨⟨⟨⟨-, hv⟩, -⟩, he⟩, -⟩
    exact ⟨hv, he⟩
  · rintro ⟨hv, he⟩
    exact ⟨⟨⟨⟨hfront, hv⟩, hmid⟩, he⟩, hback⟩

theorem declEnd_text_pos (h : ConvXmlhead) : 0 < declEnd h.bom h.text :=
  declEnd_pos _ (List.ne_nil_of_length_pos h.text_ne_nil.1)

theorem head?_text (h : ConvXmlhead) : h.text.head? = some 60 := rfl

/-- Where there is room the text is written as units, and those are the encoded text or not. -/
theorem convXmlheadFormat_writes_iff (hbom : h.bom ∈ marks) (hroom : FormatRoom h output.blen) :
    (convXmlheadFormat host h output).bufp.load 0 (convXmlheadFormat host h output).ret.toNat
        = encodeText h.bom h.text ↔
      (isText h.bom = false → host = .little ∧ ∀ c ∈ h.text, c.toNat < 128) := by
  have hret := @convXmlheadFormat_ret host h output hbom
  rw [if_pos hroom] at hret
  have hload := (convXmlheadFormat_pos (hret ▸ Int.natCast_pos.mpr (declEnd_text_pos h))).2
  rw [hret, Int.toNat_natCast, declEnd, hload, encodeText, List.append_cancel_left_eq,
    List.flatMap_eq_flatMap_iff (length_unitBytes host h.bom) (length_encodeUnit h.bom)]
  cases htext : isText h.bom with
  | false =>
      rw [unitBytes_eq_iff htext host (head?_text h)]
      exact ⟨fun hunits _ => hunits, fun hunits => hunits rfl⟩
  | true =>
      refine iff_of_true (fun c _ => unitBytes_text htext host c) ?_
      intro hfalse
      cases hfalse

/-- The formatter is right about every output that is not too small, if no unit goes wrong. -/
theorem convXmlheadFormat_right_iff (hbom : h.bom ∈ marks)
    (hversion : 0 ∈ h.fields.load 0 versionSize)
    (hencoding : 0 ∈ h.fields.load versionSize cvdEncodingLenMax)
    (hblen : output.blen < 2 ^ 64) :
    FormatsRight host h output ↔ FormatFits host h output := by
  have hret := @convXmlheadFormat_ret host h output hbom
  have hbounds := @convXmlheadFormat_inBounds_iff host h output hbom hblen
  have htext := ConvXmlhead.text_eq hversion hencoding
  have henc : h.encoded = encodeText h.bom h.text := by rw [ConvXmlhead.encoded, htext]
  have hlen : h.encoded.length = declEnd h.bom h.text := by rw [henc, length_encodeText]
  have hchars := forall_mem_headText_iff h.version h.encoding
  rw [← htext] at hchars
  have hpos := declEnd_text_pos h
  by_cases hroom : FormatRoom h output.blen
  · rw [if_pos hroom] at hret
    have hlt := hroom.lt
    have hwrites := @convXmlheadFormat_writes_iff host h output hbom hroom
    rw [← henc, hchars] at hwrites
    constructor
    · intro hright
      obtain ⟨hnone, hutf8⟩ := hbounds.mp hright.inBounds
      exact ⟨hnone, hutf8, fun hunits _ => hwrites.mp (hright.writes (by omega)) hunits⟩
    · intro hfits
      refine ⟨hbounds.mpr ⟨hfits.noneBom, hfits.utf8Bom⟩, ?_, ?_, ?_⟩
      · intro hsmall
        omega
      · intro _
        omega
      · intro _
        refine hwrites.mpr fun hunits => hfits.units hunits ?_
        rw [hlen]
        exact (formatRoom_of_units hunits _).mp hroom
  · rw [if_neg hroom] at hret
    constructor
    · intro hright
      obtain ⟨hnone, hutf8⟩ := hbounds.mp hright.inBounds
      refine ⟨hnone, hutf8, fun hunits hsmall => absurd ?_ hroom⟩
      rw [hlen] at hsmall
      exact (formatRoom_of_units hunits _).mpr hsmall
    · intro hfits
      refine ⟨hbounds.mpr ⟨hfits.noneBom, hfits.utf8Bom⟩, fun _ => hret, ?_, ?_⟩
      · intro hgt
        omega
      · intro hgt
        omega

end Format

/-- `version` and `encoding` as they are after `XML_text_parse_head`. -/
def plainHead (bom : UcsBom) : ConvXmlhead :=
  ⟨bom, ((Mem.ofList 0 []).store 0 (ascii "1.0")).store versionSize (ascii "GBK")⟩

theorem convXmlheadFormat_right_iff_plain :
    FormatsRight .little (plainHead .ucs4beBom) (ConvBuf.ofList (List.replicate 200 0)) ↔
      FormatFits .little (plainHead .ucs4beBom) (ConvBuf.ofList (List.replicate 200 0)) :=
  convXmlheadFormat_right_iff (by decide) (by decide +kernel) (by decide +kernel)
    (by decide +kernel)

/-- Of a buffer without a byte the formatter writes `bufp[SIZE_MAX]`. -/
theorem convXmlheadFormat_not_right :
    ¬ ∀ (host : Endian) (h : ConvXmlhead) (output : ConvBuf), h.bom ∈ marks →
      0 ∈ h.fields.load 0 versionSize → 0 ∈ h.fields.load versionSize cvdEncodingLenMax →
      output.blen < 2 ^ 64 → FormatsRight host h output := by
  intro hformats
  have hright := hformats .little (plainHead .noneBom) (ConvBuf.ofList []) (by decide)
    (by decide +kernel) (by decide +kernel) (by decide)
  have hlast : (⟨.output, ⟨2 ^ 64 - 1, 1⟩⟩ : Access)
      ∈ (convXmlheadFormat .little (plainHead .noneBom) (ConvBuf.ofList [])).log := by
    decide +kernel
  exact absurd (hright.inBounds _ hlast) (by decide)

end Convd
