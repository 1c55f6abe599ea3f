/-
# `Convd.XmlUnits` — what a unit is taken for

The scan makes one `char` of each unit before it looks at it.  On a little-endian host that
is the low byte (`unitChar_little`); on a big-endian one, which the code takes for a
little-endian one, it is the high byte (`unitChar_big`).

    an ASCII text, in six encodings        the same characters, so the same declaration, and the
                                           same result where `(int) blen` cuts none of them off
                                           (`xmlTextParseHead_agree_iff`)
-/
import Convd.ConvFileUnits
import Convd.XmlDecl

namespace Convd

open CString Loop

/-! ## Units and characters -/

/-- A character as a unit, in the byte order the mark announces. -/
def encodeUnit (bom : UcsBom) (c : UInt8) : List UInt8 :=
  (bomOrder bom).image (unitWidth bom) c.toNat

/-- A text behind a mark, in the encoding it announces. -/
def encodeText (bom : UcsBom) (t : List UInt8) : List UInt8 :=
  bomBytes bom ++ t.flatMap (encodeUnit bom)

theorem length_encodeUnit (bom : UcsBom) (c : UInt8) : (encodeUnit bom c).length = unitWidth bom :=
  Endian.length_image _ _ _

theorem length_encodeText (bom : UcsBom) (t : List UInt8) :
    (encodeText bom t).length = declEnd bom t := by
  rw [encodeText, List.length_append, length_bomBytes, declEnd, List.length_flatMap]
  congr 1
  induction t with
  | nil => simp
  | cons c t ih =>
      rw [List.map_cons, List.sum_cons, ih, length_encodeUnit, List.length_cons, Nat.succ_mul,
        Nat.add_comm]

/-- The code makes a unit the character of its low byte. -/
theorem unitChar_little {bom : UcsBom} {u : List UInt8} (hu : u.length = unitWidth bom) :
    unitChar .little bom u = UInt8.ofNat ((bomOrder bom).value u) := by
  have hbe := boReadBetoh_eq .little u
  have hle := boReadLetoh_eq .little u.length u
  rw [hu] at hbe hle
  cases bom with
  | ucs2beBom => exact congrArg UInt8.ofNat hbe
  | ucs2leBom => exact congrArg UInt8.ofNat hle
  | ucs4beBom => exact congrArg UInt8.ofNat hbe
  | ucs4leBom => exact congrArg UInt8.ofNat hle
  | noneBom => exact (Endian.ofNat_digits u).symm
  | utf8Bom => exact (Endian.ofNat_digits u).symm
  | utf8BomAsk => exact (Endian.ofNat_digits u).symm

/-- On a big-endian host it reads the unit in the wrong order. -/
theorem unitChar_big {bom : UcsBom} (hbom : isText bom = false) {u : List UInt8}
    (hu : u.length = unitWidth bom) :
    unitChar .big bom u = UInt8.ofNat ((bomOrder bom).flip.value u) := by
  have hbe := boReadBetoh_eq .big u
  have hle := boReadLetoh_eq .big u.length u
  rw [hu] at hbe hle
  cases bom with
  | ucs2beBom => exact congrArg UInt8.ofNat hbe
  | ucs2leBom => exact congrArg UInt8.ofNat hle
  | ucs4beBom => exact congrArg UInt8.ofNat hbe
  | ucs4leBom => exact congrArg UInt8.ofNat hle
  | noneBom => cases hbom
  | utf8Bom => cases hbom
  | utf8BomAsk => cases hbom

theorem unitChar_encodeUnit (bom : UcsBom) (c : UInt8) :
    unitChar .little bom (encodeUnit bom c) = c := by
  rw [unitChar_little (length_encodeUnit bom c), encodeUnit,
    Endian.ofNat_value _ (unitWidth_pos bom)]
  exact UInt8.ofNat_toNat

/-! ## One text in six encodings -/

/-- What a text can start with, no mark included. -/
def marks : List UcsBom := [.noneBom, .utf8Bom, .ucs2beBom, .ucs2leBom, .ucs4beBom, .ucs4leBom]

/-- The characters 1 to 127. -/
def Ascii (t : List UInt8) : Prop := ∀ c ∈ t, c ≠ 0 ∧ c < 128

/-- All of the declaration lies before `(int) blen`, in the encoding `bom`. -/
def SeesDecl (bom : UcsBom) (t head : List UInt8) : Prop :=
  declEnd bom head ≤ (toInt (declEnd bom t)).toNat

instance (bom : UcsBom) (t head : List UInt8) : Decidable (SeesDecl bom t head) :=
  inferInstanceAs (Decidable (_ ≤ _))

/-- An encoded text shows its mark and no other. -/
theorem startsWithBom_encodeText {bom : UcsBom} (hbom : bom ∈ marks) {t : List UInt8}
    (hne : t ≠ []) (ht : Ascii t) : StartsWithBom (encodeText bom t) bom := by
  obtain ⟨c, t, rfl⟩ := List.exists_cons_of_ne_nil hne
  obtain ⟨hc0, hc⟩ := ht c List.mem_cons_self
  have hlow : UInt8.ofNat c.toNat = c := UInt8.ofNat_toNat
  have hmark : bomBytes bom <+: encodeText bom (c :: t) := List.prefix_append _ _
  cases bom with
  | noneBom =>
      have hmarks : c ≠ 0xEF ∧ c ≠ 0xFE ∧ c ≠ 0xFF := by
        refine ⟨?_, ?_, ?_⟩ <;> rintro rfl <;> exact absurd hc (by decide)
      simp [StartsWithBom, bomBytes, encodeText, encodeUnit, bomOrder, unitWidth, Endian.image,
        Endian.lowDigits, hlow, hmarks, Ne.symm hc0, Ne.symm hmarks.1, Ne.symm hmarks.2.1,
        Ne.symm hmarks.2.2]
  | ucs2leBom =>
      refine ⟨hmark, ?_⟩
      simp [bomBytes, encodeText, encodeUnit, bomOrder, unitWidth, Endian.image,
        Endian.lowDigits, hlow, Ne.symm hc0]
  | utf8Bom => exact hmark
  | ucs2beBom => exact hmark
  | ucs4beBom => exact hmark
  | ucs4leBom => exact hmark
  | utf8BomAsk => exact absurd hbom (by decide)

section Encoded

variable {bom : UcsBom} {t : List UInt8} {x : ConvBuf}

theorem detect_encodeText (hbom : bom ∈ marks) (hne : t ≠ []) (ht : Ascii t)
    (hx : x.bytes = encodeText bom t) : ucsTextDetectBom x = bom :=
  ucsTextDetectBom_eq x.shows_bytes (hx ▸ startsWithBom_encodeText hbom hne ht)

/-- The code reads an encoded text back. -/
theorem textUnits_encodeText (hdetect : ucsTextDetectBom x = bom)
    (hx : x.bytes = encodeText bom t) : textUnits .little x = t := by
  have hid : (fun c => unitChar .little bom (encodeUnit bom c)) = id := by
    funext c
    exact unitChar_encodeUnit bom c
  rw [textUnits, hdetect, hx, encodeText, List.drop_left' (length_bomBytes bom),
    List.units_flatMap (unitWidth_pos bom) (length_encodeUnit bom), hid, List.map_id]

/-- The result on an encoded text. -/
theorem result_encodeText (hbom : bom ∈ marks) (hne : t ≠ []) (ht : Ascii t)
    (hx : x.bytes = encodeText bom t) {r : HeadResult}
    (h : XmlTextParseHeadReturns .little x r) :
    (r.ret, r.xmlhead)
      = declResult bom ((declaration t).filter fun head => SeesDecl bom t head) := by
  have hdetect := detect_encodeText hbom hne ht hx
  have hlen : x.blen = declEnd bom t := by
    rw [← length_encodeText, ← hx, ConvBuf.bytes, Mem.length_load]
  rw [h.eq, declaration_headUnits, xmlDecl, textUnits_encodeText hdetect hx, hdetect, hlen]
  rfl

/-- Two results say the same: of the fields, whether there is a head, and its characters. -/
structure HeadsAgree (bom bom' : UcsBom) (r r' : HeadResult) : Prop where
  version_eq : r.xmlhead.version = r'.xmlhead.version
  encoding_eq : r.xmlhead.encoding = r'.xmlhead.encoding
  zero_iff : r.ret = 0 ↔ r'.ret = 0
  count_eq : r.ret ≠ 0 → (r.ret - bomLength bom) / unitWidth bom
    = (r'.ret - bomLength bom') / unitWidth bom'

/-- The result in both cases. -/
theorem result_cases (hbom : bom ∈ marks) (hne : t ≠ []) (ht : Ascii t)
    (hx : x.bytes = encodeText bom t) {r : HeadResult}
    (h : XmlTextParseHeadReturns .little x r) :
    (∃ head, declaration t = some head ∧ SeesDecl bom t head ∧ r.ret = declEnd bom head ∧
      r.xmlhead = ⟨bom, declFields (some head)⟩) ∨
    ((∀ head ∈ declaration t, ¬ SeesDecl bom t head) ∧ r.ret = 0 ∧
      r.xmlhead = ⟨bom, declFields none⟩) := by
  rcases declResult_filter_cases (result_encodeText hbom hne ht hx h) with
    ⟨head, hdecl, hsees, hfields⟩ | ⟨hblind, hfields⟩
  · exact .inl ⟨head, hdecl, of_decide_eq_true hsees, hfields⟩
  · exact .inr ⟨fun head hhead hsees => hblind head hhead (decide_eq_true hsees), hfields⟩

theorem length_div_unitWidth (bom : UcsBom) (head : List UInt8) :
    ((declEnd bom head : Int) - bomLength bom) / unitWidth bom = head.length := by
  have hw := unitWidth_pos bom
  have hcount : (declEnd bom head : Int) - bomLength bom = head.length * unitWidth bom := by
    rw [declEnd, Int.natCast_add, Int.natCast_mul, Int.add_comm, Int.add_sub_cancel]
  rw [hcount]
  exact Int.mul_ediv_cancel _ (by omega)

variable {bom' : UcsBom} {x' : ConvBuf}

theorem headsAgree_iff (hbom : bom ∈ marks) (hbom' : bom' ∈ marks) (hne : t ≠ []) (ht : Ascii t)
    (hx : x.bytes = encodeText bom t) (hx' : x'.bytes = encodeText bom' t) {r r' : HeadResult}
    (h : XmlTextParseHeadReturns .little x r) (h' : XmlTextParseHeadReturns .little x' r') :
    HeadsAgree bom bom' r r' ↔
      ∀ head ∈ declaration t, (SeesDecl bom t head ↔ SeesDecl bom' t head) := by
  rcases result_cases hbom hne ht hx h with ⟨head, hdecl, hsees, hret, hhead⟩ |
    ⟨hblind, hret, hhead⟩ <;>
  rcases result_cases hbom' hne ht hx' h' with ⟨head', hdecl', hsees', hret', hhead'⟩ |
    ⟨hblind', hret', hhead'⟩
  · obtain rfl : head = head' := Option.some.inj (hdecl.symm.trans hdecl')
    constructor
    · intro _ head' hhead'
      obtain rfl := Option.some.inj (hdecl.symm.trans hhead')
      exact iff_of_true hsees hsees'
    · intro _
      have hpos := declEnd_pos bom (declaration_eq_some_iff.mp hdecl).ne_nil
      have hpos' := declEnd_pos bom' (declaration_eq_some_iff.mp hdecl).ne_nil
      refine ⟨by rw [hhead, hhead']; rfl, by rw [hhead, hhead']; rfl, ?_, fun _ => ?_⟩
      · rw [hret, hret']
        exact iff_of_false (by omega) (by omega)
      · rw [hret, hret', length_div_unitWidth, length_div_unitWidth]
  · have hpos := declEnd_pos bom (declaration_eq_some_iff.mp hdecl).ne_nil
    constructor
    · intro hagree
      have := hagree.zero_iff.mpr hret'
      omega
    · intro hboth
      exact absurd ((hboth head hdecl).mp hsees) (hblind' head hdecl)
  · have hpos := declEnd_pos bom' (declaration_eq_some_iff.mp hdecl').ne_nil
    constructor
    · intro hagree
      have := hagree.zero_iff.mp hret
      omega
    · intro hboth
      exact absurd ((hboth head' hdecl').mpr hsees') (hblind head' hdecl')
  · constructor
    · intro _ head hhead
      exact iff_of_false (hblind head hhead) (hblind' head hhead)
    · intro _
      refine ⟨by rw [hhead, hhead']; rfl, by rw [hhead, hhead']; rfl, ?_, fun hpos => ?_⟩
      · rw [hret, hret']
      · exact absurd hret hpos

theorem returns_encodeText (hbom : bom ∈ marks) (hne : t ≠ []) (ht : Ascii t)
    (hx : x.bytes = encodeText bom t)
    (hscan : t.length ≤ headbufSize - 1 ∨ gt ∈ t.take (headbufSize - 1)) :
    ∃ r, XmlTextParseHeadReturns .little x r := by
  apply xmlTextParseHead_returns_of_text
  rwa [textUnits_encodeText (detect_encodeText hbom hne ht hx) hx]

end Encoded

/-- On every encoding of a text the call returns, and the results agree if and only if the text has
no declaration, or one that lies before `(int) blen` in all encodings or in none. -/
theorem xmlTextParseHead_agree_iff {t : List UInt8} {texts : UcsBom → ConvBuf} (hne : t ≠ [])
    (ht : Ascii t) (hscan : t.length ≤ headbufSize - 1 ∨ gt ∈ t.take (headbufSize - 1))
    (htexts : ∀ bom ∈ marks, (texts bom).bytes = encodeText bom t) :
    (∀ bom ∈ marks, ∀ bom' ∈ marks, ∃ r r', XmlTextParseHeadReturns .little (texts bom) r ∧
        XmlTextParseHeadReturns .little (texts bom') r' ∧ HeadsAgree bom bom' r r') ↔
      ∀ head ∈ declaration t, ∀ bom ∈ marks, ∀ bom' ∈ marks,
        (SeesDecl bom t head ↔ SeesDecl bom' t head) := by
  constructor
  · intro hagree head hhead bom hbom bom' hbom'
    obtain ⟨r, r', hr, hr', hheads⟩ := hagree bom hbom bom' hbom'
    exact (headsAgree_iff hbom hbom' hne ht (htexts bom hbom) (htexts bom' hbom') hr hr').mp
      hheads head hhead
  · intro hsees bom hbom bom' hbom'
    obtain ⟨r, hr⟩ := returns_encodeText hbom hne ht (htexts bom hbom) hscan
    obtain ⟨r', hr'⟩ := returns_encodeText hbom' hne ht (htexts bom' hbom') hscan
    refine ⟨r, r', hr, hr', ?_⟩
    rw [headsAgree_iff hbom hbom' hne ht (htexts bom hbom) (htexts bom' hbom') hr hr']
    exact fun head hhead => hsees head hhead bom hbom bom' hbom'

/-- A declaration and nothing else. -/
def plainDecl : List UInt8 := ascii "<?xml version=\"1.0\"?>"

theorem plainDecl_ascii : Ascii plainDecl := by
  show ∀ c ∈ plainDecl, _
  decide +kernel

/-- All of a text of less than half a gigabyte is seen, in every encoding. -/
theorem seesDecl_of_lt {t head : List UInt8} (ht : t.length < 2 ^ 29 - 1)
    (hhead : head ∈ declaration t) (bom : UcsBom) : SeesDecl bom t head := by
  have hle := (declaration_eq_some_iff.mp hhead).prefix_units.length_le
  have hw := unitWidth_le bom
  have hbl := bomLength_le bom
  have hmul := Nat.mul_le_mul_right (unitWidth bom) hle
  have hmul' := Nat.mul_le_mul_left t.length hw
  have hsmall : declEnd bom t < 2 ^ 31 := by
    rw [declEnd]
    omega
  rw [SeesDecl, toInt_of_lt hsmall, Int.toNat_natCast, declEnd, declEnd]
  omega

theorem xmlTextParseHead_agree_iff_plain :
    declaration plainDecl = some plainDecl ∧ ∀ bom ∈ marks, ∀ bom' ∈ marks, ∃ r r',
      XmlTextParseHeadReturns .little (ConvBuf.ofList (encodeText bom plainDecl)) r ∧
      XmlTextParseHeadReturns .little (ConvBuf.ofList (encodeText bom' plainDecl)) r' ∧
      HeadsAgree bom bom' r r' := by
  refine ⟨by decide +kernel, ?_⟩
  rw [@xmlTextParseHead_agree_iff plainDecl (fun bom => ConvBuf.ofList (encodeText bom plainDecl))
    (by decide) plainDecl_ascii (.inl (by decide)) fun bom _ => ConvBuf.bytes_ofList _]
  intro head hhead bom _ bom' _
  exact iff_of_true (seesDecl_of_lt (by decide) hhead bom) (seesDecl_of_lt (by decide) hhead bom')

/-- The declaration with half a gigabyte of letters behind it: in UCS-4 the size is a negative
`int`, and there is no head. -/
theorem xmlTextParseHead_disagrees :
    ¬ ∀ (t : List UInt8) (texts : UcsBom → ConvBuf), t ≠ [] → Ascii t →
      (t.length ≤ headbufSize - 1 ∨ gt ∈ t.take (headbufSize - 1)) →
      (∀ head ∈ declaration t, ∀ s v, attrValue versionAttr (cstr head) = some (s, v) →
        v.length < versionSize) →
      (∀ bom ∈ marks, (texts bom).bytes = encodeText bom t) →
      ∀ bom ∈ marks, ∀ bom' ∈ marks, ∃ r r', XmlTextParseHeadReturns .little (texts bom) r ∧
        XmlTextParseHeadReturns .little (texts bom') r' ∧ HeadsAgree bom bom' r r' := by
  intro hagrees
  have hsplit : plainDecl = plainDecl.dropLast ++ [gt] := by decide
  have hpre : gt ∉ plainDecl.dropLast := by decide
  obtain ⟨t, ht⟩ : ∃ t, t = plainDecl ++ List.replicate (2 ^ 29) (97 : UInt8) := ⟨_, rfl⟩
  have hlen : t.length = 21 + 2 ^ 29 := by
    rw [ht, List.length_append, List.length_replicate]
    rfl
  have hcons : t = plainDecl.dropLast ++ gt :: List.replicate (2 ^ 29) (97 : UInt8) := by
    rw [ht]
    conv_lhs => rw [hsplit, List.append_assoc]
    rfl
  have hdecl : declaration t = some plainDecl := by
    rw [hcons, declaration_of_gt hpre, ← hsplit]
    decide +kernel
  have hne : t ≠ [] := by
    rintro rfl
    cases hlen
  have hascii : Ascii t := by
    intro c hc
    rw [ht, List.mem_append] at hc
    rcases hc with hc | hc
    · exact plainDecl_ascii c hc
    · rw [List.eq_of_mem_replicate hc]
      decide
  have hgt : gt ∈ t.take (headbufSize - 1) := by
    have hshort : plainDecl.length ≤ headbufSize - 1 := by decide
    rw [ht, List.take_append, List.take_of_length_le hshort]
    exact List.mem_append_left _ (by decide)
  have htexts : ∀ bom ∈ marks, (ConvBuf.ofList (encodeText bom t)).bytes = encodeText bom t :=
    fun bom _ => ConvBuf.bytes_ofList _
  have hversion : ∀ head ∈ declaration t, ∀ s v,
      attrValue versionAttr (cstr head) = some (s, v) → v.length < versionSize := by
    intro head hhead s v hval
    rw [hdecl] at hhead
    obtain rfl := Option.some.inj hhead
    have hone : attrValue versionAttr (cstr plainDecl) = some (15, ascii "1.0") := by
      decide +kernel
    rw [hone] at hval
    cases hval
    decide
  obtain ⟨r, r', hr, hr', hagree⟩ := hagrees t _ hne hascii (.inr hgt) hversion htexts
    .noneBom (by decide) .ucs4leBom (by decide)
  have hsees := (headsAgree_iff (by decide) (by decide) hne hascii (htexts _ (by decide))
    (htexts _ (by decide)) hr hr').mp hagree plainDecl hdecl
  have hfull : SeesDecl .noneBom t plainDecl := by
    have hsmall : declEnd .noneBom t < 2 ^ 31 := by
      show 0 + t.length * 1 < _
      omega
    rw [SeesDecl, toInt_of_lt hsmall, Int.toNat_natCast]
    show 0 + 21 * 1 ≤ 0 + t.length * 1
    omega
  have hblind : ¬ SeesDecl .ucs4leBom t plainDecl := by
    have hbig : declEnd .ucs4leBom t = 2 ^ 31 + 88 := by
      show 4 + t.length * 4 = _
      omega
    rw [SeesDecl, hbig, toNat_toInt (by omega), if_neg (by omega)]
    decide
  exact hblind (hsees.mp hfull)

end Convd
