/-
# `Convd.XmlTextRound` — a document there and back

What one call of `convd_conv_xmltext` writes is read by the next: the head that was formatted is
found, its version is handed on and its encoding is the code of the second descriptor.  A version
that was parsed has what this needs, the `=` apart: no quote, no `>`, and never a single
character, because those are not copied.

The second call sees the head if that ends before `(int) blen`, and refuses the document
otherwise (`convdConvXmltext_round_iff`).
-/
import Convd.XmlTextHead

namespace Convd

open CString Loop

variable {σ τ : Type}

/-! ## Values of attributes -/

/-- No value of a declaration has its `>`. -/
theorem gt_notMem_attrValue {name pre v : List UInt8} {s : Nat} (hpre : gt ∉ pre)
    (h : attrValue name (cstr (pre ++ [gt])) = some (s, v)) : gt ∉ v := by
  obtain ⟨-, rest, hdrop⟩ := attrValue_split h
  have hsplit := List.take_append_drop s (cstr (pre ++ [gt]))
  rw [hdrop, cstr_append] at hsplit
  intro hmem
  apply hpre
  split at hsplit
  · apply (List.takeWhile_sublist _).subset
    rw [← cstr, ← hsplit]
    exact List.mem_append_right _ (List.mem_append_left _ hmem)
  · have hone : cstr [gt] = [gt] := rfl
    have hcut := congrArg List.dropLast hsplit
    rw [hone, List.dropLast_concat, List.dropLast_append_of_ne_nil (by simp),
      List.dropLast_append_of_ne_nil (by simp)] at hcut
    rw [← hcut]
    exact List.mem_append_right _ (List.mem_append_left _ hmem)

/-! ## Codes that are handed on -/

theorem toupper_toupper (c : UInt8) : toupper (toupper c) = toupper c := by
  rw [toupper, toupper]
  split
  · rename_i h
    rw [if_neg]
    rintro ⟨h97, -⟩
    have hlow := UInt8.le_iff_toNat_le.mp h.1
    have hhigh := UInt8.le_iff_toNat_le.mp h.2
    have hsub := UInt8.le_iff_toNat_le.mp h97
    rw [UInt8.toNat_sub_of_le _ _ (UInt8.le_trans (by decide) h.1)] at hsub
    simp only [UInt8.reduceToNat] at hlow hhigh hsub
    omega
  · rfl

theorem cstrToupper_cstrToupper (s : List UInt8) :
    cstrToupper (cstrToupper s) = cstrToupper s := by
  rw [cstrToupper, cstrToupper, List.map_map]
  apply List.map_congr_left
  intro c _
  exact toupper_toupper c

/-- A character that is no capital letter is the upper case of no other. -/
theorem toupper_eq_self {c d : UInt8} (hd : ¬ (65 ≤ d ∧ d ≤ 90)) (h : toupper c = d) : c = d := by
  rw [toupper] at h
  split at h
  · rename_i hc
    have hlow := UInt8.le_iff_toNat_le.mp hc.1
    have hhigh := UInt8.le_iff_toNat_le.mp hc.2
    have hsub := UInt8.toNat_sub_of_le c 32 (UInt8.le_trans (by decide) hc.1)
    rw [UInt8.le_iff_toNat_le, UInt8.le_iff_toNat_le, ← h, hsub] at hd
    simp only [UInt8.reduceToNat] at hlow hhigh hd
    omega
  · exact h

/-- A code of a descriptor is handed on. -/
theorem plainCode_cstrToupper {code : List UInt8} (hpos : 0 < code.length)
    (hlt : code.length < cvdEncodingLenMax) (hchars : ∀ c ∈ code, c ≠ 0 ∧ c ≠ 34 ∧ c ≠ gt) :
    PlainCode (cstrToupper code) where
  length_pos := (length_cstrToupper code).symm ▸ hpos
  length_lt := (length_cstrToupper code).symm ▸ hlt
  chars := by
    intro c hc
    obtain ⟨d, hd, rfl⟩ := List.mem_map.mp hc
    obtain ⟨hzero, hquote, hgt⟩ := hchars d hd
    exact ⟨toupper_ne_zero hzero, fun h => hquote (toupper_eq_self (by decide) h),
      fun h => hgt (toupper_eq_self (by decide) h)⟩
  upper := cstrToupper_cstrToupper code

/-! ## The fields that are parsed -/

/-- A value has no NUL, because what it is looked up in is a string. -/
theorem attrValue_ne_zero {name head v : List UInt8} {s : Nat}
    (h : attrValue name (cstr head) = some (s, v)) : ∀ c ∈ v, c ≠ 0 := by
  obtain ⟨-, rest, hdrop⟩ := attrValue_split h
  intro c hc
  apply ne_zero_of_mem_cstr (l := head)
  apply List.mem_of_mem_drop (i := s)
  rw [hdrop]
  exact List.mem_append_left _ hc

/-- What is in the version field, if it ends there: nothing, or the value that was copied. -/
theorem copyVersion_cases {headbuf : List UInt8} {bom : UcsBom}
    (hnul : ∀ s v, attrValue versionAttr headbuf = some (s, v) → ∀ c ∈ v, c ≠ 0)
    (hzero : 0 ∈ (copyVersion headbuf ⟨bom, fun _ => 0⟩).1.fields.load 0 versionSize) :
    cstr ((copyVersion headbuf ⟨bom, fun _ => 0⟩).1.fields.load 0 versionSize) = [] ∨
      ∃ s v, attrValue versionAttr headbuf = some (s, v) ∧ 1 < v.length ∧
        v.length < versionSize ∧
        cstr ((copyVersion headbuf ⟨bom, fun _ => 0⟩).1.fields.load 0 versionSize) = v := by
  have hempty : cstr (Mem.load (fun _ => (0 : UInt8)) 0 versionSize) = [] := rfl
  rcases hval : attrValue versionAttr headbuf with _ | ⟨s, v⟩
  · simp only [copyVersion, hval]
    exact .inl hempty
  · have hv := hnul s v hval
    by_cases hlong : v.length > 1
    · rcases Nat.lt_or_ge v.length versionSize with hfits | hover
      · exact .inr ⟨s, v, rfl, hlong, hfits, cstr_copyVersion hval hv hlong hfits⟩
      · -- all of the field is taken by the value
        rw [← Mem.take_load _ _ hover, load_copyVersion hval hlong] at hzero
        exact absurd rfl (hv 0 (List.mem_of_mem_take hzero))
    · simp only [copyVersion, hval, if_neg hlong]
      exact .inl hempty

/-- The version of a declaration is handed on, if it lies in its field and has no `=`. -/
theorem plainVersion_declFields {bom : UcsBom} {units head : List UInt8}
    (hdecl : Declares units head)
    (hlt : (⟨bom, declFields (some head)⟩ : ConvXmlhead).version.length < versionSize)
    (hequals : 61 ∉ (⟨bom, declFields (some head)⟩ : ConvXmlhead).version) :
    PlainVersion (⟨bom, declFields (some head)⟩ : ConvXmlhead).version := by
  obtain ⟨pre, post, -, hpre, rfl⟩ := hdecl.split
  have hzero := (ConvXmlhead.version_lt_iff _).mp hlt
  have hversion := ConvXmlhead.version_eq ⟨bom, declFields (some (pre ++ [gt]))⟩
  rw [if_pos hzero] at hversion
  have hload : (⟨bom, declFields (some (pre ++ [gt]))⟩ : ConvXmlhead).fields.load 0 versionSize
      = (copyVersion (cstr (pre ++ [gt])) ⟨.noneBom, fun _ => 0⟩).1.fields.load 0 versionSize :=
    load_copyEncoding _ _
  rw [hload] at hversion hzero
  rcases copyVersion_cases (fun s v => attrValue_ne_zero) hzero with
    hnil | ⟨s, v, hval, hlong, hfits, hv⟩
  · rw [hversion, hnil]
    exact ⟨by decide, by decide, fun c hc => nomatch hc⟩
  · rw [hversion, hv] at hequals ⊢
    refine ⟨hfits, by omega, fun c hc => ⟨attrValue_ne_zero hval c hc, ?_, ?_, ?_⟩⟩
    · rintro rfl
      exact (attrValue_split hval).1 hc
    · rintro rfl
      exact gt_notMem_attrValue hpre hval hc
    · rintro rfl
      exact hequals hc

/-! ## A head that is parsed back -/

section Back

variable {v e : List UInt8}

theorem declaration_headText (hv : PlainVersion v) (he : PlainCode e) (rest : List UInt8) :
    declaration (headText v e ++ rest) = some (headText v e) := by
  have hsizes : versionSize = 16 ∧ cvdEncodingLenMax = 64 ∧ headbufSize = 128 := ⟨rfl, rfl, rfl⟩
  have hvlen := hv.length_lt
  have helen := he.length_lt
  have hlen := length_headText v e
  rw [declaration_eq_some_iff]
  refine ⟨⟨headFront v e, rest, ?_, ?_, headText_eq_front v e⟩, by omega,
    looksLikeHead_headText v e, strstr_versionAttr hv he⟩
  · rw [headText_eq_front, List.append_assoc]
    rfl
  · exact gt_notMem_headFront (fun hmem => (hv.chars _ hmem).2.2.1 rfl)
      fun hmem => (he.chars _ hmem).2.2 rfl

variable {host : Endian} {x : ConvBuf} {rest : List UInt8}

theorem detect_headText (hx : x.bytes = headText v e ++ rest) :
    ucsTextDetectBom x = .noneBom := by
  have hone : (headText v e).flatMap (unitBytes .little .noneBom) = headText v e :=
    List.flatMap_singleton' _
  refine ucsTextDetectBom_eq x.shows_bytes ?_
  have hmark := @startsWithBom_append .little .noneBom (headText v e) rest (by decide) rfl
  rw [hone] at hmark
  rw [hx]
  exact hmark

/-- The declaration of a text that starts with a formatted head is that head. -/
theorem xmlDecl_headText (hv : PlainVersion v) (he : PlainCode e)
    (hx : x.bytes = headText v e ++ rest) : xmlDecl host x = some (headText v e) := by
  rw [xmlDecl, textUnits_noneBom (detect_headText hx), hx, declaration_headText hv he]

/-- A text that starts with a formatted head is parsed: the head is found, if it ends before
`(int) blen`. -/
theorem xmlTextParseHead_headText (host : Endian) (hv : PlainVersion v) (he : PlainCode e)
    (hx : x.bytes = headText v e ++ rest) :
    ∃ r, XmlTextParseHeadReturns host x r ∧
      ((headText v e).length ≤ (toInt x.blen).toNat →
        r.ret = (headText v e).length ∧ r.xmlhead.version = v ∧ r.xmlhead.encoding = e) ∧
      (¬ (headText v e).length ≤ (toInt x.blen).toNat → r.xmlhead.encoding = []) := by
  have hdetect := detect_headText hx
  have hdecl : xmlDecl host x = some (headText v e) := xmlDecl_headText hv he hx
  obtain ⟨r, hr⟩ : ∃ r, XmlTextParseHeadReturns host x r := by
    apply xmlTextParseHead_returns_of_text
    right
    have hlen := (declaration_eq_some_iff.mp hdecl).length_le
    rw [textUnits_noneBom hdetect, hx, List.take_append, List.take_of_length_le hlen,
      headText_eq_front]
    exact List.mem_append_left _ (List.mem_append_right _ List.mem_cons_self)
  have heq := hr.eq
  rw [declaration_headUnits, hdecl, hdetect] at heq
  obtain ⟨size, hsize⟩ : ∃ size, size = (toInt x.blen).toNat := ⟨_, rfl⟩
  rw [← hsize] at heq ⊢
  refine ⟨r, hr, ?_⟩
  rcases declResult_filter_cases heq with ⟨head, hhead, hin, hret, hfields⟩ | ⟨hcut, -, hfields⟩
  · obtain rfl := Option.some.inj hhead
    obtain ⟨hversion, hencoding⟩ := declFields_headText hv he .noneBom
    rw [declEnd_noneBom] at hin hret
    refine ⟨fun _ => ⟨hret, ?_, ?_⟩, fun hout => absurd (of_decide_eq_true hin) hout⟩
    · exact (congrArg ConvXmlhead.version hfields).trans hversion
    · exact (congrArg ConvXmlhead.encoding hfields).trans hencoding
  · have hout := hcut _ rfl
    rw [declEnd_noneBom, decide_eq_true_eq] at hout
    exact ⟨fun hin => absurd hin hout, fun _ => congrArg ConvXmlhead.encoding hfields⟩

end Back

/-! ## There and back -/

/-- A code that goes into a head and is found there again. -/
structure CodeText (code : List UInt8) : Prop where
  length_lt : code.length < cvdEncodingLenMax
  chars : ∀ c ∈ code, c ≠ 0 ∧ c ≠ 34 ∧ c ≠ gt

section Call

variable {host : Endian} {ic : Iconv σ} {conv : List UInt8 → Option (List UInt8)}
  {cvd : ConvDescriptor σ} {head : HeadResult} {input output : ConvBuf} {s : Sys}

/-- Where an encoding was parsed there is a declaration, and its version is handed on. -/
theorem plainVersion_of_returns (hhead : XmlTextParseHeadReturns host input head)
    (hencoding : head.xmlhead.encoding ≠ []) (hlt : head.xmlhead.version.length < versionSize)
    (hequals : 61 ∉ head.xmlhead.version) : PlainVersion head.xmlhead.version := by
  obtain ⟨-, hxmlhead⟩ := Prod.mk.inj hhead.eq
  rcases hdecl : declaration (headUnits host input) with _ | hd
  · rw [hdecl] at hxmlhead
    rw [hxmlhead] at hencoding
    exact absurd rfl hencoding
  · rw [hdecl] at hxmlhead
    rw [hxmlhead] at hlt hequals ⊢
    exact plainVersion_declFields (declaration_eq_some_iff.mp hdecl) hlt hequals

/-- A code is not the empty encoding. -/
theorem strcmpCaseign_nil_ne {fromcode tocode : List UInt8} (hcvd : Created cvd fromcode tocode) :
    strcmpCaseign (convdFromcode cvd) [] ≠ 0 := by
  apply strcasecmp_nil_ne
  · intro hnil
    have hpos := hcvd.fromcode_pos
    rw [hcvd.fromcode_eq] at hnil
    rw [← length_cstrToupper, hnil] at hpos
    exact Nat.lt_irrefl _ hpos
  · exact fun c hc => ne_zero_of_mem_cstr hc

/-- A version in its field and a code of less than 64 characters make a head that fits. -/
theorem headFits_of_lt {h : ConvXmlhead} {tocode : List UInt8} {size : Nat}
    (hversion : h.version.length < versionSize) (htocode : tocode.length < cvdEncodingLenMax)
    (hsize : (headText h.version tocode).length < size) : HeadFits h tocode size where
  tocode_lt := htocode
  version_or := .inl hversion
  headbuf_lt := by
    have hsizes : versionSize = 16 ∧ cvdEncodingLenMax = 64 ∧ headbufSize = 128 :=
      ⟨rfl, rfl, rfl⟩
    rw [length_headText]
    omega
  output_lt := hsize

/-- Where the codes agree and there is room, the call leaves the new head and the body. -/
theorem convXmltext_returns (hwrites : writesHead (convdTocode cvd) = true)
    (hle : (convdTocode cvd).length ≤ cvdEncodingLenMax) (hic : Implements ic conv)
    (hhead : XmlTextParseHeadReturns host input head)
    (hcode : strcmpCaseign (convdFromcode cvd) head.xmlhead.encoding = 0)
    (hfits : HeadFits head.xmlhead (convdTocode cvd) output.blen) {text : List UInt8}
    (hconv : conv (xmlBody head input) = some text)
    (hroom : (headText head.xmlhead.version (convdTocode cvd)).length + text.length
      ≤ output.blen) :
    ∃ r n, ConvXmltextReturns host ic cvd input output s r ∧ r.ret = some n ∧
      n = text.length + (headText head.xmlhead.version (convdTocode cvd)).length ∧
      r.bufp.load 0 n = headText head.xmlhead.version (convdTocode cvd) ++ text := by
  have hput := (newHead_eq_iff (convdTocode_ne_zero cvd) hle).mpr hfits
  obtain ⟨hret, hload⟩ := (@xmltextRest_of_conv σ host ic cvd head input output s conv hic
    hwrites hcode hhead.ret_le _ hput).1 text hconv hroom
  exact ⟨_, _, convXmltextReturns_iff.mpr ⟨head, hhead, rfl⟩, hret, rfl, hload⟩

end Call

section Round

variable {host : Endian} {icAB : Iconv σ} {icBA : Iconv τ}
  {convAB convBA : List UInt8 → Option (List UInt8)} {codeA codeB : List UInt8}
  {cAB : ConvDescriptor σ} {cBA : ConvDescriptor τ} {head : HeadResult}
  {input output back output' : ConvBuf} {s s' : Sys} {r : XmltextResult σ} {n : Nat}

/-- What the first call leaves: the head with the second code, and the body. -/
theorem convXmltext_there (hAB : Created cAB codeA codeB) (hB : CodeText codeB)
    (hwrites : writesHead (convdTocode cAB) = true) (hic : Implements icAB convAB)
    (hhead : XmlTextParseHeadReturns host input head)
    (h : ConvXmltextReturns host icAB cAB input output s r) (hret : r.ret = some n)
    (hput : (headText head.xmlhead.version (convdTocode cAB)).length < output.blen)
    (hlt : head.xmlhead.version.length < versionSize) (hequals : 61 ∉ head.xmlhead.version) :
    PlainVersion head.xmlhead.version ∧ ∃ text, convAB (xmlBody head input) = some text ∧
      r.bufp.load 0 n = headText head.xmlhead.version (cstrToupper codeB) ++ text := by
  have htocode : (convdTocode cAB).length < cvdEncodingLenMax := by
    rw [hAB.tocode_eq, length_cstrToupper]
    exact hB.length_lt
  have hnew := (newHead_eq_iff (convdTocode_ne_zero cAB) (Nat.le_of_lt htocode)).mpr
    (headFits_of_lt hlt htocode hput)
  obtain ⟨hcode, text, htext, -, hload⟩ := convXmltextReturns_some hwrites hic hhead h hret
  refine ⟨plainVersion_of_returns hhead ?_ hlt hequals, text, htext, ?_⟩
  · intro hnil
    rw [hnil] at hcode
    exact strcmpCaseign_nil_ne hAB hcode
  · rw [hload, hnew, hAB.tocode_eq]

/-- The second call refuses a head it does not see. -/
theorem convXmltext_refused {version : List UInt8} {text : List UInt8}
    (hBA : Created cBA codeB codeA) (hv : PlainVersion version)
    (he : PlainCode (cstrToupper codeB))
    (hback : back.bytes = headText version (cstrToupper codeB) ++ text)
    (hcut : ¬ (headText version (cstrToupper codeB)).length ≤ (toInt back.blen).toNat)
    {r' : XmltextResult τ} (h : ConvXmltextReturns host icBA cBA back output' s' r') :
    r'.ret = none := by
  obtain ⟨head', hhead', -, hnone⟩ := xmlTextParseHead_headText host hv he hback
  obtain ⟨head'', hhead'', rfl⟩ := convXmltextReturns_iff.mp h
  obtain rfl := hhead'.unique hhead''
  apply xmltextRest_refused
  rw [hnone hcut]
  exact strcmpCaseign_nil_ne hBA

/-- A document is restored up to its head if and only if the head that was written ends before
`(int)` of the length of the text in between. -/
theorem convdConvXmltext_round_iff {openAB : List UInt8 → List UInt8 → Option σ}
    {openBA : List UInt8 → List UInt8 → Option τ} {suffixAB suffixBA : Int}
    (hA : CodeText codeA) (hB : CodeText codeB)
    (hcAB : (convdCreate openAB (some codeA) (some codeB) suffixAB).outcvd = some cAB)
    (hcBA : (convdCreate openBA (some codeB) (some codeA) suffixBA).outcvd = some cBA)
    (hwritesAB : writesHead (convdTocode cAB) = true)
    (hwritesBA : writesHead (convdTocode cBA) = true)
    (hicAB : Implements icAB convAB) (hicBA : Implements icBA convBA)
    (hhead : XmlTextParseHeadReturns host input head)
    (hundo : ∀ text, convAB (xmlBody head input) = some text →
      convBA text = some (xmlBody head input))
    (h : ConvXmltextReturns host icAB cAB input output s r) (hret : r.ret = some n)
    (hput : (headText head.xmlhead.version (convdTocode cAB)).length < output.blen)
    (hlt : head.xmlhead.version.length < versionSize) (hequals : 61 ∉ head.xmlhead.version)
    (hback : back.bytes = r.bufp.load 0 n)
    (hroom : (headText head.xmlhead.version (convdTocode cBA)).length
      + (xmlBody head input).length < output'.blen) :
    (∃ r' n', ConvXmltextReturns host icBA cBA back output' s' r' ∧ r'.ret = some n' ∧
        r'.bufp.load 0 n' = headText head.xmlhead.version (cstrToupper codeA)
          ++ xmlBody head input) ↔
      (headText head.xmlhead.version (cstrToupper codeB)).length ≤ (toInt back.blen).toNat := by
  have hAB := created_of_outcvd (fun c hc => (hA.chars c hc).1) (fun c hc => (hB.chars c hc).1) hcAB
  have hBA := created_of_outcvd (fun c hc => (hB.chars c hc).1) (fun c hc => (hA.chars c hc).1) hcBA
  have he := plainCode_cstrToupper hBA.fromcode_pos hB.length_lt hB.chars
  obtain ⟨hv, text, htext, hload⟩ :=
    convXmltext_there hAB hB hwritesAB hicAB hhead h hret hput hlt hequals
  rw [hload] at hback
  constructor
  · rintro ⟨r', n', hr', hret', -⟩
    by_contra hcut
    rw [convXmltext_refused hBA hv he hback hcut hr'] at hret'
    cases hret'
  · intro hseen
    obtain ⟨head', hhead', hfields, -⟩ := xmlTextParseHead_headText host hv he hback
    obtain ⟨hcount, hversion, hencoding⟩ := hfields hseen
    have htocode : (convdTocode cBA).length < cvdEncodingLenMax := by
      rw [hBA.tocode_eq, length_cstrToupper]
      exact hA.length_lt
    have hbody : xmlBody head' back = text := by
      rw [xmlBody, hcount, hback, Int.toNat_natCast, List.drop_left]
    have hcode : strcmpCaseign (convdFromcode cBA) head'.xmlhead.encoding = 0 := by
      rw [hBA.fromcode_eq, hencoding]
      exact strcasecmp_self _
    have hfits : HeadFits head'.xmlhead (convdTocode cBA) output'.blen := by
      apply headFits_of_lt (hversion ▸ hlt) htocode
      rw [hversion]
      omega
    obtain ⟨r', n', hr', hret', -, hload'⟩ := @convXmltext_returns τ host icBA convBA cBA head' back
      output' s' hwritesBA (Nat.le_of_lt htocode) hicBA hhead' hcode hfits _
      (hbody ▸ hundo text htext) (by rw [hversion]; omega)
    rw [hversion, hBA.tocode_eq] at hload'
    exact ⟨r', n', hr', hret', hload'⟩

end Round

/-- The way back of `gbkToUtf8`. -/
def utf8ToGbk : CreateResult Unit :=
  convdCreate (fun _ _ => some ()) (some (ascii "utf-8")) (some (ascii "gbk")) cvdSuffixNone

theorem codeText_gbk : CodeText (ascii "gbk") := ⟨by decide, by decide +kernel⟩

theorem codeText_utf8 : CodeText (ascii "utf-8") := ⟨by decide, by decide +kernel⟩

theorem utf8ToGbk_outcvd : ∃ cvd, utf8ToGbk.outcvd = some cvd ∧
    writesHead (convdTocode cvd) = true ∧ Created cvd (ascii "utf-8") (ascii "gbk") := by
  obtain ⟨cvd, hcvd⟩ := Option.isSome_iff_exists.mp
    (by decide +kernel : utf8ToGbk.outcvd.isSome = true)
  have hcodes := created_of_outcvd utf8_ne_zero gbk_ne_zero hcvd
  refine ⟨cvd, hcvd, ?_, hcodes⟩
  rw [hcodes.tocode_eq]
  decide

theorem convdConvXmltext_round_iff_letters :
    ∃ cAB cBA head r, gbkToUtf8.outcvd = some cAB ∧ utf8ToGbk.outcvd = some cBA ∧
      ConvXmltextReturns .little (.ofFun some) cAB twoLetters ⟨64, fun _ => 0⟩ Sys.init r ∧
      r.ret = some 40 ∧
      ((∃ r' n', ConvXmltextReturns .little (.ofFun some) cBA (ConvBuf.ofList (r.bufp.load 0 40))
          ⟨64, fun _ => 0⟩ Sys.init r' ∧ r'.ret = some n' ∧ r'.bufp.load 0 n'
            = headText head.xmlhead.version (cstrToupper (ascii "gbk"))
              ++ xmlBody head twoLetters) ↔
        (headText head.xmlhead.version (cstrToupper (ascii "utf-8"))).length
          ≤ (toInt (ConvBuf.ofList (r.bufp.load 0 40)).blen).toNat) := by
  obtain ⟨cAB, head, r, hcAB, hwAB, hhead, hr, hret⟩ :=
    convTwoLetters_returns 64 40 (by decide +kernel)
  obtain ⟨cBA, hcBA, hwBA, hBA⟩ := utf8ToGbk_outcvd
  obtain ⟨-, hAB⟩ := gbkToUtf8_codes hcAB
  obtain ⟨head', hhead', hfields⟩ := (Option.any_eq_true _ _).mp
    (by decide +kernel : (xmlTextParseHead .little 64 twoLetters).any (fun h =>
      h.xmlhead.version == ascii "1.0" && h.ret == 36) = true)
  obtain rfl := hhead.unique ⟨64, hhead'⟩
  rw [Bool.and_eq_true, beq_iff_eq, beq_iff_eq] at hfields
  obtain ⟨hversion, hcount⟩ := hfields
  have hbody : xmlBody head twoLetters = ascii "ab" := by
    rw [xmlBody, hcount, twoLetters, ConvBuf.bytes_ofList]
    decide
  refine ⟨cAB, cBA, head, r, hcAB, hcBA, hr, hret, convdConvXmltext_round_iff codeText_gbk
    codeText_utf8 hcAB hcBA hwAB hwBA (Iconv.implements_ofFun some) (Iconv.implements_ofFun some)
    hhead (fun _ heq => heq.symm) hr hret ?_ ?_ ?_ (ConvBuf.bytes_ofList _) ?_⟩
  · rw [hversion, hAB.tocode_eq]
    decide
  · rw [hversion]
    decide
  · rw [hversion]
    decide
  · rw [hversion, hBA.tocode_eq, hbody]
    decide

/-- A document of `N` letters in GBK. -/
def gbkLetters (N : Nat) : ConvBuf :=
  ConvBuf.ofList (headText (ascii "1.0") (ascii "GBK") ++ List.replicate N 97)

theorem blen_gbkLetters (N : Nat) : (gbkLetters N).blen = 36 + N := by
  rw [gbkLetters, ConvBuf.blen_ofList, List.length_append, List.length_replicate, length_headText]
  rfl

/-- The head of the document, if it is of less than 2 GiB. -/
theorem gbkLetters_returns {N : Nat} (hN : 36 + N < 2 ^ 31) :
    ∃ head, XmlTextParseHeadReturns .little (gbkLetters N) head ∧
      head.xmlhead.version = ascii "1.0" ∧ head.xmlhead.encoding = ascii "GBK" ∧
      xmlBody head (gbkLetters N) = List.replicate N 97 := by
  have hx : (gbkLetters N).bytes = headText (ascii "1.0") (ascii "GBK") ++ List.replicate N 97 :=
    ConvBuf.bytes_ofList _
  have hlen : (headText (ascii "1.0") (ascii "GBK")).length = 36 := length_headText _ _
  obtain ⟨head, hhead, hfields, -⟩ := xmlTextParseHead_headText .little
    ⟨by decide, by decide, by decide +kernel⟩
    ⟨by decide, by decide, by decide +kernel, by decide⟩ hx
  have hseen : (headText (ascii "1.0") (ascii "GBK")).length
      ≤ (toInt (gbkLetters N).blen).toNat := by
    rw [blen_gbkLetters, toInt_of_lt hN, Int.toNat_natCast, hlen]
    exact Nat.le_add_right 36 N
  obtain ⟨hcount, hversion, hencoding⟩ := hfields hseen
  refine ⟨head, hhead, hversion, hencoding, ?_⟩
  rw [xmlBody, hcount, hx, Int.toNat_natCast, List.drop_left]

/-- Into UTF-8 the document gets a head of two characters more. -/
theorem gbkLetters_there {N : Nat} {cvd : ConvDescriptor Unit}
    (hcvd : Created cvd (ascii "gbk") (ascii "utf-8")) {head : HeadResult}
    (hhead : XmlTextParseHeadReturns .little (gbkLetters N) head)
    (hversion : head.xmlhead.version = ascii "1.0")
    (hencoding : head.xmlhead.encoding = ascii "GBK")
    (hbody : xmlBody head (gbkLetters N) = List.replicate N 97) :
    ∃ r, ConvXmltextReturns .little (.ofFun some) cvd (gbkLetters N)
      ⟨N + 39, fun _ => 0⟩ Sys.init r ∧ r.ret = some (N + 38) := by
  have htocode : convdTocode cvd = ascii "UTF-8" := hcvd.tocode_eq.trans (by decide)
  have hlen : (headText head.xmlhead.version (convdTocode cvd)).length = 38 := by
    rw [hversion, htocode]
    exact length_headText _ _
  have hfits : HeadFits head.xmlhead (convdTocode cvd) (N + 39) := by
    refine headFits_of_lt ?_ ?_ (by omega)
    · rw [hversion]
      decide
    · rw [htocode]
      decide
  obtain ⟨r, n, hr, hret, hn, -⟩ := @convXmltext_returns Unit .little (.ofFun some) some cvd head
    (gbkLetters N) ⟨N + 39, fun _ => 0⟩ Sys.init (by rw [htocode]; decide)
    (by rw [htocode]; decide) (Iconv.implements_ofFun some) hhead
    (by rw [hcvd.fromcode_eq, hencoding]; decide) hfits _ (congrArg some hbody)
    (by rw [hlen, List.length_replicate]; show 38 + N ≤ N + 39; omega)
  rw [List.length_replicate, hlen] at hn
  exact ⟨r, hr, hn ▸ hret⟩

/-- A document of 2 GiB less two bytes is one of 2 GiB in UTF-8, and then refused. -/
theorem convdConvXmltext_not_back :
    ¬ ∀ {host : Endian} {icAB icBA : Iconv Unit} {convAB convBA : List UInt8 → Option (List UInt8)}
      {codeA codeB : List UInt8} {cAB cBA : ConvDescriptor Unit} {head : HeadResult}
      {input output back output' : ConvBuf} {s t : Sys} {r : XmltextResult Unit} {n : Nat}
      {openAB openBA : List UInt8 → List UInt8 → Option Unit} {suffixAB suffixBA : Int},
      CodeText codeA → CodeText codeB →
      (convdCreate openAB (some codeA) (some codeB) suffixAB).outcvd = some cAB →
      (convdCreate openBA (some codeB) (some codeA) suffixBA).outcvd = some cBA →
      writesHead (convdTocode cAB) = true → writesHead (convdTocode cBA) = true →
      Implements icAB convAB → Implements icBA convBA →
      XmlTextParseHeadReturns host input head →
      (∀ text, convAB (xmlBody head input) = some text →
        convBA text = some (xmlBody head input)) →
      ConvXmltextReturns host icAB cAB input output s r → r.ret = some n →
      (headText head.xmlhead.version (convdTocode cAB)).length < output.blen →
      head.xmlhead.version.length < versionSize → 61 ∉ head.xmlhead.version →
      back.bytes = r.bufp.load 0 n →
      (headText head.xmlhead.version (convdTocode cBA)).length
        + (xmlBody head input).length < output'.blen →
      ∃ r' n', ConvXmltextReturns host icBA cBA back output' t r' ∧ r'.ret = some n' ∧
        r'.bufp.load 0 n' = headText head.xmlhead.version (cstrToupper codeA)
          ++ xmlBody head input := by
  intro hround
  obtain ⟨N, hN⟩ : ∃ N : Nat, 38 + N = 2 ^ 31 := ⟨2 ^ 31 - 38, by omega⟩
  obtain ⟨cAB, hcAB⟩ := gbkToUtf8_outcvd
  obtain ⟨hwAB, hAB⟩ := gbkToUtf8_codes hcAB
  obtain ⟨cBA, hcBA, hwBA, hBA⟩ := utf8ToGbk_outcvd
  obtain ⟨head, hhead, hversion, hencoding, hbody⟩ := gbkLetters_returns (N := N) (by omega)
  obtain ⟨r, hr, hret⟩ := gbkLetters_there hAB hhead hversion hencoding hbody
  have hput : (headText head.xmlhead.version (convdTocode cAB)).length < N + 39 := by
    rw [hversion, hAB.tocode_eq, length_headText]
    show 30 + 3 + 5 < N + 39
    omega
  have hback : (ConvBuf.ofList (r.bufp.load 0 (N + 38))).bytes = r.bufp.load 0 (N + 38) :=
    ConvBuf.bytes_ofList _
  have hlt : head.xmlhead.version.length < versionSize := by
    rw [hversion]
    decide
  have hequals : 61 ∉ head.xmlhead.version := by
    rw [hversion]
    decide
  obtain ⟨wide, hwide⟩ : ∃ wide : ConvBuf,
      (headText head.xmlhead.version (convdTocode cBA)).length
        + (xmlBody head (gbkLetters N)).length < wide.blen :=
    ⟨⟨_, fun _ => 0⟩, Nat.lt_succ_self _⟩
  obtain ⟨r', n', hr', hret', -⟩ := hround codeText_gbk codeText_utf8 hcAB hcBA hwAB hwBA
    (Iconv.implements_ofFun some) (Iconv.implements_ofFun some) hhead (fun _ heq => heq.symm) hr
    hret (t := Sys.init) hput hlt hequals hback hwide
  obtain ⟨hv, text, -, hload⟩ := convXmltext_there hAB codeText_utf8 hwAB
    (Iconv.implements_ofFun some) hhead hr hret hput hlt hequals
  have hcut : ¬ (headText head.xmlhead.version (cstrToupper (ascii "utf-8"))).length
      ≤ (toInt (ConvBuf.ofList (r.bufp.load 0 (N + 38))).blen).toNat := by
    rw [ConvBuf.blen_ofList, Mem.length_load, toInt_of_ge (by omega) (by omega), length_headText]
    omega
  rw [convXmltext_refused hBA hv (plainCode_cstrToupper hBA.fromcode_pos
    codeText_utf8.length_lt codeText_utf8.chars) (hback.trans hload) hcut hr'] at hret'
  cases hret'

end Convd
