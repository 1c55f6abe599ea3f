/-
# `Convd.XmlText` — `convd_conv_xmltext`

The head of the input is parsed and its encoding compared with the `fromcode`; a new head is
formatted into the output, and what follows the old one is converted behind it.  The function
does not look at whether the head was formatted: `conv_xmlhead_format` answers 0 when it does
not fit, and then the body goes to the start of the output.

    offslen     what is in the output on success
    |head|      the head, cut to 127 characters, and the body
    0           the body

(`xmltextRest_some_iff`).
-/
import Convd.Descriptor
import Convd.XmlDecl
import Convd.XmlFile
import Convd.XmlHeadRound

namespace Convd

open CString Loop

variable {σ : Type}

/-! ## The code -/

/-- `strcmp_caseign` -/
def strcmpCaseign (a b : List UInt8) : Int := strcasecmp a b

/-- What `convd_conv_xmltext` returns and leaves in the output; none for `CONVD_ERR_ICONV`. -/
structure XmltextResult (σ : Type) where
  ret : Option Nat
  bufp : Mem UInt8
  cd : σ
  sys : Sys

/-- `convd_conv_xmltext` once the head has been parsed.  The value returned by the parser is at
least 0 and at most `blen`, and so is that of the formatter. -/
def xmltextRest (host : Endian) (ic : Iconv σ) (cvd : ConvDescriptor σ) (head : HeadResult)
    (input output : ConvBuf) (s : Sys) : XmltextResult σ :=
  let xmlheadlen := head.ret.toNat
  if strcmpCaseign (convdFromcode cvd) head.xmlhead.encoding ≠ 0 then
    ⟨none, output.bufp, cvd.cd, s⟩
  else
    let (offslen, bufp) :=
      if writesHead (convdTocode cvd) then
        -- `cstr_length(convd_tocode(cvd, 0), sizeof(xmlhead.encoding) - 1)`
        let tocode := (convdTocode cvd).take (cvdEncodingLenMax - 1)
        let outbuf := convXmlheadFormat host
          { head.xmlhead.withEncoding tocode with bom := .noneBom } output
        (outbuf.ret.toNat, outbuf.bufp)
      else (0, output.bufp)
    let inbuf := input.bufp.load xmlheadlen (input.blen - xmlheadlen)
    let room := output.blen - offslen
    let (text, cd, s) := convdConvText ic cvd.cd inbuf room s
    ⟨text.map fun text => text.length + offslen,
      bufp.store offslen (convdConvTextWritten ic cvd.cd inbuf room), cd, s⟩

/-- `convd_conv_xmltext`; none when the scan has not ended on this fuel. -/
def convdConvXmltext (host : Endian) (ic : Iconv σ) (fuel : Nat) (cvd : ConvDescriptor σ)
    (input output : ConvBuf) (s : Sys) : Option (XmltextResult σ) :=
  (xmlTextParseHead host fuel input).map fun head => xmltextRest host ic cvd head input output s

/-- The call returns. -/
def ConvXmltextReturns (host : Endian) (ic : Iconv σ) (cvd : ConvDescriptor σ)
    (input output : ConvBuf) (s : Sys) (r : XmltextResult σ) : Prop :=
  ∃ fuel, convdConvXmltext host ic fuel cvd input output s = some r

theorem convXmltextReturns_iff {host : Endian} {ic : Iconv σ} {cvd : ConvDescriptor σ}
    {input output : ConvBuf} {s : Sys} {r : XmltextResult σ} :
    ConvXmltextReturns host ic cvd input output s r ↔
      ∃ head, XmlTextParseHeadReturns host input head ∧
        xmltextRest host ic cvd head input output s = r := by
  constructor
  · rintro ⟨fuel, hfuel⟩
    obtain ⟨head, hhead, rfl⟩ := Option.map_eq_some_iff.mp hfuel
    exact ⟨head, ⟨fuel, hhead⟩, rfl⟩
  · rintro ⟨head, ⟨fuel, hfuel⟩, rfl⟩
    exact ⟨fuel, Option.map_eq_some_iff.mpr ⟨head, hfuel, rfl⟩⟩

theorem ConvXmltextReturns.unique {host : Endian} {ic : Iconv σ} {cvd : ConvDescriptor σ}
    {input output : ConvBuf} {s : Sys} {r r' : XmltextResult σ}
    (h : ConvXmltextReturns host ic cvd input output s r)
    (h' : ConvXmltextReturns host ic cvd input output s r') : r = r' := by
  obtain ⟨head, hhead, rfl⟩ := convXmltextReturns_iff.mp h
  obtain ⟨head', hhead', rfl⟩ := convXmltextReturns_iff.mp h'
  rw [hhead.unique hhead']

/-! ## The fields of the new head -/

section Fields

variable {h : ConvXmlhead} {tocode : List UInt8}

/-- The version lies in its field. -/
theorem ConvXmlhead.version_lt_iff (h : ConvXmlhead) :
    h.version.length < versionSize ↔ 0 ∈ h.fields.load 0 versionSize := by
  rw [h.version_eq]
  split
  · rename_i hnul
    have hlt := length_cstr_lt hnul
    rw [Mem.length_load] at hlt
    exact iff_of_true hlt hnul
  · rename_i hnul
    rw [List.length_append, Mem.length_load]
    exact iff_of_false (by omega) hnul

/-- A safe copy says whether there was room, and then has copied all. -/
theorem cstrSafecopy_fst (dst : Mem UInt8) (size off : Nat) (source : List UInt8) :
    (cstrSafecopy dst size off source).1 = decide (off + source.length < size) := by
  rw [cstrSafecopy]
  by_cases hfits : off + source.length < size
  · rw [if_pos hfits, decide_eq_true hfits]
  · rw [if_neg hfits, decide_eq_false hfits]

theorem cstrSafecopy_fits (dst : Mem UInt8) {size off : Nat} {source : List UInt8}
    (hfits : off + source.length < size) : (cstrSafecopy dst size off source).2.1
      = (dst.store off source).store (off + source.length) [0] := by
  rw [cstrSafecopy, if_pos hfits]

theorem withEncoding_fields (hlen : tocode.length < cvdEncodingLenMax) (i : Nat) :
    (h.withEncoding tocode).fields i = if i < versionSize then h.fields i
      else ((Mem.store (fun i => h.fields (versionSize + i)) 0 tocode).store tocode.length [0])
        (i - versionSize) := by
  have hfits : 0 + tocode.length < cvdEncodingLenMax := by omega
  simp only [ConvXmlhead.withEncoding, cstrSafecopy_fits _ hfits, Nat.zero_add]

/-- The encoding is replaced. -/
theorem withEncoding_encoding (hlen : tocode.length < cvdEncodingLenMax)
    (hcode : ∀ c ∈ tocode, c ≠ 0) : (h.withEncoding tocode).encoding = tocode := by
  have hload : ∀ off n, (h.withEncoding tocode).fields.load (versionSize + off) n
      = Mem.load ((Mem.store (fun i => h.fields (versionSize + i)) 0 tocode).store tocode.length
          [0]) off n := by
    intro off n
    apply Mem.load_congr
    intro i _
    rw [withEncoding_fields hlen, if_neg (by omega)]
    congr 1
    omega
  refine cstr_load hcode ?_ ?_ hlen
  · have hself := hload 0 tocode.length
    rw [Nat.add_zero] at hself
    rw [hself, Mem.load_store_of_disjoint _ (.inl (by omega)), Mem.load_store_self]
  · rw [hload]
    exact Mem.load_store_self _ _ [0]

/-- The version field is not touched; what is read of it may be. -/
theorem withEncoding_version (hlen : tocode.length < cvdEncodingLenMax)
    (hcode : ∀ c ∈ tocode, c ≠ 0) :
    (h.withEncoding tocode).version = if h.version.length < versionSize then h.version
      else h.version.take versionSize ++ tocode := by
  have hload : (h.withEncoding tocode).fields.load 0 versionSize = h.fields.load 0 versionSize := by
    apply Mem.load_congr
    intro i hi
    rw [withEncoding_fields hlen, if_pos (by omega)]
  rw [ConvXmlhead.version_eq, hload, withEncoding_encoding hlen hcode]
  by_cases hnul : 0 ∈ h.fields.load 0 versionSize
  · rw [if_pos hnul, if_pos (h.version_lt_iff.mpr hnul), h.version_eq, if_pos hnul]
  · rw [if_neg hnul, if_neg (fun hlt => hnul (h.version_lt_iff.mp hlt)), h.version_eq,
      if_neg hnul, List.take_left' (Mem.length_load _ _ _)]

/-- A version that is read on ends with the encoding. -/
theorem ConvXmlhead.encoding_eq_drop (hlong : versionSize ≤ h.version.length) :
    h.encoding = h.version.drop versionSize := by
  have hnul : 0 ∉ h.fields.load 0 versionSize :=
    fun hnul => absurd (h.version_lt_iff.mpr hnul) (Nat.not_lt.mpr hlong)
  rw [h.version_eq, if_neg hnul, List.drop_left' (Mem.length_load _ _ _)]

theorem length_headText (v e : List UInt8) : (headText v e).length = 30 + v.length + e.length := by
  rw [headText_eq_front, List.length_append, length_headFront, List.length_singleton]
  omega

theorem ConvXmlhead.text_ne_nil (h : ConvXmlhead) : 0 < h.text.length ∧ h.text.length < 128 := by
  have hlen := length_headText h.version h.encoding
  have hsize : headbufSize = 128 := rfl
  rw [ConvXmlhead.text, snprintfChkdV1, List.length_take]
  omega

end Fields

/-! ## The result -/

section Result

variable {host : Endian} {ic : Iconv σ} {cvd : ConvDescriptor σ} {head : HeadResult}
  {input output : ConvBuf} {s : Sys}

theorem convdConvText_fst (ic : Iconv σ) (cd : σ) (input : List UInt8) (room : Nat) (s : Sys) :
    (convdConvText ic cd input room s).1 = ic.text cd input room := by
  rcases convdConvText_cases ic cd input room s with
    ⟨out, cd', t, htext, hconv⟩ | ⟨cd', t, evs, htext, -, hconv⟩
  · rw [hconv, htext]
  · rw [hconv, htext]

/-- Without a mark the formatter answers the length of the text, if that is less than the size
of the output. -/
theorem convXmlheadFormat_noneBom {h : ConvXmlhead} (hbom : h.bom = .noneBom) :
    (convXmlheadFormat host h output).ret
      = if h.text.length < output.blen then (h.text.length : Int) else 0 := by
  rw [convXmlheadFormat]
  simp only [hbom, cstrSafecopy_fst, Nat.zero_add, decide_eq_true_eq]
  rfl

theorem load_convXmlheadFormat_noneBom {h : ConvXmlhead} (hbom : h.bom = .noneBom)
    (hfits : h.text.length < output.blen) :
    (convXmlheadFormat host h output).bufp.load 0 h.text.length = h.text := by
  have hret := @convXmlheadFormat_noneBom host output h hbom
  rw [if_pos hfits] at hret
  have hload := (convXmlheadFormat_pos (hret ▸ Int.natCast_pos.mpr h.text_ne_nil.1)).2
  have hone : h.text.flatMap (unitBytes host .noneBom) = h.text := List.flatMap_singleton' _
  rw [hbom] at hload
  simpa only [bomLength, unitWidth, bomBytes, Nat.zero_add, Nat.mul_one, List.nil_append, hone]
    using hload

/-- What is in the output before the body: the new head, if there is room for it. -/
def newHead (xmlhead : ConvXmlhead) (tocode : List UInt8) (size : Nat) : List UInt8 :=
  let head := (xmlhead.withEncoding (tocode.take (cvdEncodingLenMax - 1))).text
  if head.length < size then head else []

/-- What follows the head of the input. -/
def xmlBody (head : HeadResult) (input : ConvBuf) : List UInt8 := input.bytes.drop head.ret.toNat

theorem xmltextRest_refused (hcode : strcmpCaseign (convdFromcode cvd) head.xmlhead.encoding ≠ 0) :
    (xmltextRest host ic cvd head input output s).ret = none := by
  rw [xmltextRest, if_pos hcode]

/-- The call answers as the converter does, in the room behind the new head, and leaves
both. -/
theorem xmltextRest_eq (hwrites : writesHead (convdTocode cvd) = true)
    (hcode : strcmpCaseign (convdFromcode cvd) head.xmlhead.encoding = 0)
    (hhead : head.ret.toNat ≤ input.blen) {put : List UInt8}
    (hput : newHead head.xmlhead (convdTocode cvd) output.blen = put) :
    (xmltextRest host ic cvd head input output s).ret
        = (ic.text cvd.cd (xmlBody head input) (output.blen - put.length)).map
            (·.length + put.length) ∧
      ∀ text, ic.text cvd.cd (xmlBody head input) (output.blen - put.length) = some text →
        (xmltextRest host ic cvd head input output s).bufp.load 0 (text.length + put.length)
          = put ++ text := by
  have hbody : input.bufp.load head.ret.toNat (input.blen - head.ret.toNat)
      = xmlBody head input := by
    rw [xmlBody, ConvBuf.bytes, Mem.drop_load _ _ hhead, Nat.zero_add]
  obtain ⟨h, hh⟩ : ∃ h : ConvXmlhead, h = { head.xmlhead.withEncoding
    ((convdTocode cvd).take (cvdEncodingLenMax - 1)) with bom := .noneBom } := ⟨_, rfl⟩
  have hret := @convXmlheadFormat_noneBom host output h (hh ▸ rfl)
  have hput : (if h.text.length < output.blen then h.text else []) = put := by
    rw [← hput, hh]
    rfl
  have hlen : (convXmlheadFormat host h output).ret.toNat = put.length := by
    rw [hret, ← hput]
    split <;> rfl
  have hload : (convXmlheadFormat host h output).bufp.load 0 put.length = put := by
    rw [← hput]
    split
    · rename_i hfits
      exact load_convXmlheadFormat_noneBom (hh ▸ rfl) hfits
    · rfl
  have hfst := convdConvText_fst ic cvd.cd (xmlBody head input) (output.blen - put.length) s
  rw [xmltextRest, if_neg (not_not.mpr hcode)]
  simp only [hwrites, if_true, hbody, ← hh, hlen]
  refine ⟨by rw [hfst], fun text htext => ?_⟩
  rw [convdConvTextWritten_of_text htext, Nat.add_comm text.length, Mem.load_add,
    Mem.load_store_of_disjoint _ (.inl (by omega)), hload, Nat.zero_add, Mem.load_store_self]

/-- With a converter that is a function the call succeeds where that does and there is room,
and refuses what that refuses. -/
theorem xmltextRest_of_conv {conv : List UInt8 → Option (List UInt8)} (hic : Implements ic conv)
    (hwrites : writesHead (convdTocode cvd) = true)
    (hcode : strcmpCaseign (convdFromcode cvd) head.xmlhead.encoding = 0)
    (hhead : head.ret.toNat ≤ input.blen) {put : List UInt8}
    (hput : newHead head.xmlhead (convdTocode cvd) output.blen = put) :
    (∀ text, conv (xmlBody head input) = some text → put.length + text.length ≤ output.blen →
      (xmltextRest host ic cvd head input output s).ret = some (text.length + put.length) ∧
      (xmltextRest host ic cvd head input output s).bufp.load 0 (text.length + put.length)
        = put ++ text) ∧
    (conv (xmlBody head input) = none →
      (xmltextRest host ic cvd head input output s).ret = none) := by
  obtain ⟨heq, hload⟩ := @xmltextRest_eq σ host ic cvd head input output s hwrites hcode hhead _
    hput
  rw [hic] at heq hload
  constructor
  · intro text htext hroom
    have hfits : (conv (xmlBody head input)).filter (·.length ≤ output.blen - put.length)
        = some text := by
      rw [htext, Option.filter_some, if_pos (decide_eq_true (by omega))]
    rw [hfits] at heq
    exact ⟨heq, hload text hfits⟩
  · intro hnone
    rw [heq, hnone]
    rfl

end Result

end Convd
