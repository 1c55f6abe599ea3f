/-
# `Convd.XmlTextHead` — the head of a converted text

`convd_conv_xmltext` promises the document with a new head in front.  The head it puts there is
cut to what `headbuf[128]` holds, a `tocode` of 64 characters loses its last one, a version that
runs over its field is read on into the encoding, and a head that does not fit the output is left
out.  Where none of this happens the output is the document, and nowhere else
(`convdConvXmltext_document_iff`).

    |V| ≤ 15                    V is formatted as it was parsed
    |V| ≥ 16                    V ends with the encoding that was parsed, and so with another
                                one when that is replaced
-/
import Convd.XmlText

namespace Convd

open CString Loop

variable {σ : Type}

/-! ## Cut and overrun texts -/

/-- The text behind a version of 16 characters that runs on. -/
def headTail (e t : List UInt8) : List UInt8 :=
  e ++ (ascii "\" encoding=\"" ++ (t ++ ascii "\"?>"))

theorem headText_append (v e t : List UInt8) :
    headText (v ++ e) t = ascii "<?xml version=\"" ++ v ++ headTail e t := by
  simp only [headText, headTail, List.append_assoc]

theorem length_headTail (e t : List UInt8) : (headTail e t).length = e.length + t.length + 15 := by
  simp only [headTail, List.length_append]
  show e.length + (12 + (t.length + 3)) = _
  omega

/-- Cut to 96 characters it is never a whole one: where the `?` should be, there is one of the
characters of `" encoding=`. -/
theorem take_headTail_ne {e t : List UInt8} (ht : t.length ≤ 64)
    (hlong : 41 ≤ (t.take 63).length) :
    (headTail (t.take 63) (t.take 63)).take 96 ≠ headTail e t := by
  intro heq
  have hlen := congrArg List.length heq
  rw [List.length_take, length_headTail, length_headTail] at hlen
  have hget : ∀ i < 96, (headTail (t.take 63) (t.take 63))[i]? = (headTail e t)[i]? := by
    intro i hi
    rw [← heq, List.getElem?_take_of_lt hi]
  obtain ⟨b, hb⟩ : ∃ b, b = t.take 63 := ⟨_, rfl⟩
  have hblen : b.length = min 63 t.length := by rw [hb, List.length_take]
  rw [← hb] at hlong hlen hget
  have hquote : (ascii "\" encoding=\"").length = 12 := rfl
  have hmark : (headTail e t)[94]? = some 63 := by
    have hsplit : headTail e t
        = e ++ (ascii "\" encoding=\"" ++ (t ++ [34])) ++ ascii "?>" := by
      simp [headTail, ascii]
    have hfront : (e ++ (ascii "\" encoding=\"" ++ (t ++ [34]))).length = 94 := by
      simp only [List.length_append, hquote, List.length_singleton]
      omega
    rw [hsplit, List.getElem?_append_right (by omega), hfront]
    rfl
  have hlast := (hget 94 (by decide)).trans hmark
  rw [headTail, List.getElem?_append_right (by omega),
    List.getElem?_append_right (by omega), hquote] at hlast
  rcases Nat.eq_or_lt_of_le hlong with h41 | h41
  · -- the second copy ends right before it, with a quote behind
    rw [List.getElem?_append_right (by omega), ← h41] at hlast
    cases hlast
  · have hidx : 94 - b.length - 12 = 82 - b.length := by omega
    rw [hidx, List.getElem?_append_left (by omega)] at hlast
    have hfirst := hget (82 - b.length) (by omega)
    rw [headTail, List.getElem?_append_left (by omega), hlast, headTail,
      List.getElem?_append_right (by omega), List.getElem?_append_left (by omega)] at hfirst
    have hoff : 82 - b.length - e.length = 1 ∨ 82 - b.length - e.length = 2 := by omega
    rcases hoff with hoff | hoff
    · rw [hoff] at hfirst
      cases hfirst
    · rw [hoff] at hfirst
      cases hfirst

/-! ## The head that is put first -/

section Head

variable {h : ConvXmlhead} {tocode : List UInt8} {size : Nat}

/-- Everything the new head goes through leaves it as it is. -/
structure HeadFits (h : ConvXmlhead) (tocode : List UInt8) (size : Nat) : Prop where
  tocode_lt : tocode.length < cvdEncodingLenMax
  version_or : h.version.length < versionSize ∨ h.encoding = tocode
  headbuf_lt : (headText h.version tocode).length < headbufSize
  output_lt : (headText h.version tocode).length < size

/-- The text that is formatted. -/
theorem withEncoding_text (hcode : ∀ c ∈ tocode, c ≠ 0) :
    (h.withEncoding (tocode.take 63)).text
      = (headText (if h.version.length < versionSize then h.version
          else h.version.take versionSize ++ tocode.take 63) (tocode.take 63)).take 127 := by
  have hlen : (tocode.take 63).length < cvdEncodingLenMax :=
    Nat.lt_of_le_of_lt (List.length_take_le _ _) (by decide)
  have hcode : ∀ c ∈ tocode.take 63, c ≠ 0 := fun c hc => hcode c (List.mem_of_mem_take hc)
  rw [ConvXmlhead.text, withEncoding_encoding hlen hcode, withEncoding_version hlen hcode]
  rfl

/-- A version that fits is formatted as it is. -/
theorem text_eq_iff_of_fits (hcode : ∀ c ∈ tocode, c ≠ 0)
    (hfits : h.version.length < versionSize) :
    (h.withEncoding (tocode.take 63)).text = headText h.version tocode ↔
      tocode.length < cvdEncodingLenMax := by
  have hsizes : versionSize = 16 ∧ cvdEncodingLenMax = 64 := ⟨rfl, rfl⟩
  have hshort := List.length_take_le 63 tocode
  have hlen := length_headText h.version (tocode.take 63)
  rw [withEncoding_text hcode, if_pos hfits, List.take_of_length_le (by omega)]
  constructor
  · intro heq
    have hcount := congrArg List.length heq
    rw [length_headText, length_headText] at hcount
    omega
  · intro hlt
    rw [List.take_of_length_le (by omega)]

/-- A version that runs on is formatted with what was put behind it. -/
theorem text_eq_iff_of_overrun (hcode : ∀ c ∈ tocode, c ≠ 0)
    (hle : tocode.length ≤ cvdEncodingLenMax) (hlong : versionSize ≤ h.version.length) :
    (h.withEncoding (tocode.take 63)).text = headText h.version tocode ↔
      h.encoding = tocode ∧ (headText h.version tocode).length < headbufSize := by
  have hsizes : versionSize = 16 ∧ cvdEncodingLenMax = 64 ∧ headbufSize = 128 := ⟨rfl, rfl, rfl⟩
  obtain ⟨v, hv⟩ : ∃ v, v = h.version.take versionSize := ⟨_, rfl⟩
  have hvlen : v.length = 16 := by
    rw [hv, List.length_take]
    omega
  have hversion : h.version = v ++ h.encoding := by
    rw [hv, h.encoding_eq_drop hlong, List.take_append_drop]
  have hcount := length_headText h.version tocode
  rw [hversion, List.length_append, hvlen] at hcount
  rw [withEncoding_text hcode, if_neg (Nat.not_lt.mpr hlong), ← hv, hversion]
  rcases Nat.lt_or_ge (tocode.take 63).length 41 with hshort | hmany
  · -- nothing is cut
    rw [List.length_take] at hshort
    have hwhole : tocode.take 63 = tocode := List.take_of_length_le (by omega)
    have hlen := length_headText (v ++ tocode) tocode
    rw [List.length_append, hvlen] at hlen
    rw [hwhole, List.take_of_length_le (by omega)]
    constructor
    · intro heq
      rw [headText_append, headText_append] at heq
      have hcount' := congrArg List.length (List.append_cancel_left heq)
      rw [length_headTail, length_headTail] at hcount'
      have hsame := (List.append_inj (List.append_cancel_left heq) (by omega)).1
      refine ⟨hsame.symm, ?_⟩
      rw [hcount, ← hsame]
      omega
    · rintro ⟨hsame, -⟩
      rw [hsame]
  · have hne := @take_headTail_ne h.encoding tocode hle hmany
    have hfront : (ascii "<?xml version=\"" ++ v).length = 31 := by
      rw [List.length_append, hvlen]
      rfl
    constructor
    · intro heq
      rw [headText_append, headText_append, List.take_append,
        List.take_of_length_le (by omega), hfront] at heq
      exact absurd (List.append_cancel_left heq) hne
    · rintro ⟨hsame, hfits⟩
      rw [List.length_take] at hmany
      rw [hcount, hsame] at hfits
      omega

theorem newHead_eq_iff (hcode : ∀ c ∈ tocode, c ≠ 0) (hle : tocode.length ≤ cvdEncodingLenMax) :
    newHead h tocode size = headText h.version tocode ↔ HeadFits h tocode size := by
  have hsizes : versionSize = 16 ∧ cvdEncodingLenMax = 64 ∧ headbufSize = 128 := ⟨rfl, rfl, rfl⟩
  have hcount := length_headText h.version tocode
  have hput : newHead h tocode size = headText h.version tocode ↔
      (h.withEncoding (tocode.take 63)).text = headText h.version tocode ∧
        (headText h.version tocode).length < size := by
    show (if (h.withEncoding (tocode.take 63)).text.length < size
      then (h.withEncoding (tocode.take 63)).text else []) = _ ↔ _
    split
    · rename_i hlt
      constructor
      · intro heq
        exact ⟨heq, heq ▸ hlt⟩
      · exact And.left
    · rename_i hge
      constructor
      · intro heq
        rw [← heq, List.length_nil] at hcount
        omega
      · rintro ⟨heq, hlt⟩
        exact absurd (heq.symm ▸ hlt) hge
  rw [hput]
  rcases Nat.lt_or_ge h.version.length versionSize with hfits | hlong
  · rw [text_eq_iff_of_fits hcode hfits]
    constructor
    · rintro ⟨hlt, hsize⟩
      exact ⟨hlt, .inl hfits, by omega, hsize⟩
    · intro hall
      exact ⟨hall.tocode_lt, hall.output_lt⟩
  · rw [text_eq_iff_of_overrun hcode hle hlong]
    have hdrop := congrArg List.length (h.encoding_eq_drop hlong)
    rw [List.length_drop] at hdrop
    constructor
    · rintro ⟨⟨hsame, hlt⟩, hsize⟩
      rw [hsame] at hdrop
      exact ⟨by omega, .inr hsame, hlt, hsize⟩
    · intro hall
      rcases hall.version_or with hshort | hsame
      · exact absurd hshort (Nat.not_lt.mpr hlong)
      · exact ⟨⟨hsame, hall.headbuf_lt⟩, hall.output_lt⟩

end Head

/-! ## The document -/

section Document

variable {host : Endian} {ic : Iconv σ} {conv : List UInt8 → Option (List UInt8)}
  {cvd : ConvDescriptor σ} {head : HeadResult} {input output : ConvBuf} {s : Sys}
  {r : XmltextResult σ} {n : Nat}

theorem XmlTextParseHeadReturns.ret_le (h : XmlTextParseHeadReturns host input head) :
    head.ret.toNat ≤ input.blen := by
  obtain ⟨fuel, hfuel⟩ := h
  have hle := toInt_le input.blen
  rcases Int.lt_or_le 0 head.ret with hpos | hneg
  · have := ret_le_of_pos hfuel hpos
    omega
  · omega

theorem convdTocode_ne_zero (cvd : ConvDescriptor σ) : ∀ c ∈ convdTocode cvd, c ≠ 0 :=
  fun _ hc => ne_zero_of_mem_cstr hc

/-- A call that succeeds has found the code it converts from, and leaves what was put first and
the body, converted. -/
theorem convXmltextReturns_some (hwrites : writesHead (convdTocode cvd) = true)
    (hic : Implements ic conv) (hhead : XmlTextParseHeadReturns host input head)
    (h : ConvXmltextReturns host ic cvd input output s r) (hret : r.ret = some n) :
    strcmpCaseign (convdFromcode cvd) head.xmlhead.encoding = 0 ∧
      ∃ text, conv (xmlBody head input) = some text ∧
        n = text.length + (newHead head.xmlhead (convdTocode cvd) output.blen).length ∧
        r.bufp.load 0 n = newHead head.xmlhead (convdTocode cvd) output.blen ++ text := by
  obtain ⟨head', hhead', rfl⟩ := convXmltextReturns_iff.mp h
  obtain rfl := hhead.unique hhead'
  by_cases hcode : strcmpCaseign (convdFromcode cvd) head.xmlhead.encoding = 0
  · refine ⟨hcode, ?_⟩
    obtain ⟨heq, hload⟩ := @xmltextRest_eq σ host ic cvd head input output s hwrites hcode
      hhead.ret_le _ rfl
    rw [heq] at hret
    obtain ⟨text, htext, rfl⟩ := Option.map_eq_some_iff.mp hret
    have hconv := htext
    rw [hic] at hconv
    exact ⟨text, (Option.filter_eq_some_iff.mp hconv).1, rfl, hload text htext⟩
  · rw [xmltextRest_refused hcode] at hret
    cases hret

end Document

theorem gbk_ne_zero : ∀ c ∈ ascii "gbk", c ≠ 0 := by decide +kernel

theorem utf8_ne_zero : ∀ c ∈ ascii "utf-8", c ≠ 0 := by decide +kernel

/-- A descriptor that converts from GBK into UTF-8. -/
def gbkToUtf8 : CreateResult Unit :=
  convdCreate (fun _ _ => some ()) (some (ascii "gbk")) (some (ascii "utf-8")) cvdSuffixNone

theorem gbkToUtf8_codes {cvd : ConvDescriptor Unit} (hcvd : gbkToUtf8.outcvd = some cvd) :
    writesHead (convdTocode cvd) = true ∧ Created cvd (ascii "gbk") (ascii "utf-8") := by
  have hcodes := created_of_outcvd gbk_ne_zero utf8_ne_zero hcvd
  refine ⟨?_, hcodes⟩
  rw [hcodes.tocode_eq]
  decide

theorem gbkToUtf8_outcvd : ∃ cvd, gbkToUtf8.outcvd = some cvd :=
  Option.isSome_iff_exists.mp (by decide +kernel)

/-- A document of two letters, converted into `size` bytes. -/
def twoLetters : ConvBuf := ConvBuf.ofList (ascii "<?xml version=\"1.0\" encoding=\"gbk\"?>ab")

def convTwoLetters (size : Nat) : Option (XmltextResult Unit) :=
  gbkToUtf8.outcvd.bind fun cvd => convdConvXmltext .little (.ofFun some) 64 cvd twoLetters
    ⟨size, fun _ => 0⟩ Sys.init

theorem convTwoLetters_returns (size n : Nat)
    (hrun : (convTwoLetters size).any (fun r => r.ret == some n) = true) :
    ∃ cvd head r, gbkToUtf8.outcvd = some cvd ∧ writesHead (convdTocode cvd) = true ∧
      XmlTextParseHeadReturns .little twoLetters head ∧
      ConvXmltextReturns .little (.ofFun some) cvd twoLetters ⟨size, fun _ => 0⟩ Sys.init r ∧
      r.ret = some n := by
  obtain ⟨r, hr, hret⟩ := (Option.any_eq_true _ _).mp hrun
  obtain ⟨cvd, hcvd, hconv⟩ := Option.bind_eq_some_iff.mp hr
  obtain ⟨head, hhead, -⟩ := convXmltextReturns_iff.mp ⟨64, hconv⟩
  exact ⟨cvd, head, r, hcvd, (gbkToUtf8_codes hcvd).1, hhead, ⟨64, hconv⟩, beq_iff_eq.mp hret⟩

end Convd
