/-
# `Convd.XmlFileText` — a document in a file and in memory

`convd_conv_xmlfile` and `convd_conv_xmltext` parse the same head, write the same new one and
convert the same body, run by run in the one and at once in the other.  They differ in what they
ask of the head:

    convd_conv_xmlfile     that it lies in the first 112 bytes
    convd_conv_xmltext     that it ends before `(int) blen`, and names the `fromcode`

So on a document whose head names another encoding the first succeeds and the second refuses
(`convdConvXmlfile_agrees_iff`).
-/
import Convd.ConvFileText
import Convd.XmlFileHead
import Convd.XmlTextRound

namespace Convd

open CString Loop

variable {σ : Type}

/-! ## The head -/

/-- The encoding that a declaration names, as it is parsed. -/
def declEncoding (head : List UInt8) : List UInt8 :=
  (⟨.noneBom, declFields (some head)⟩ : ConvXmlhead).encoding

/-- What follows the head of a text without a mark. -/
def docBody (host : Endian) (x : ConvBuf) : List UInt8 :=
  x.bytes.drop ((xmlDecl host x).elim 0 List.length)

/-- A declaration ends with the first `>`. -/
theorem declaration_length_le {units head : List UInt8} {m : Nat} (hgt : gt ∈ units.take m)
    (h : declaration units = some head) : head.length ≤ m := by
  obtain ⟨pre, post, rfl, hpre, rfl⟩ := (declaration_eq_some_iff.mp h).split
  by_contra hlong
  rw [List.length_append, List.length_singleton] at hlong
  rw [List.take_append_of_le_length (by omega)] at hgt
  exact hpre (List.mem_of_mem_take hgt)

section Head

variable {host : Endian} {e : Env} {x : ConvBuf}

/-- A file whose first `>` is among its first 112 bytes is parsed as its content is. -/
theorem xmlFileParseHead_of_gt (host : Endian) (hfiles : e.Faultless) (hx : x.bytes = e.file)
    (hbom : ucsTextDetectBom x = .noneBom) (hgt : gt ∈ x.bytes.take xmlFileHeadbufSize) :
    ∃ s n, ∀ m, n ≤ m → xmlFileParseHead host e m ⟨.noneBom, e.heap⟩ Sys.init
      = some ((declResult .noneBom (xmlDecl host x)).1, (declResult .noneBom (xmlDecl host x)).2,
        s) := by
  obtain ⟨x', s, hbytes, hsize, hcall⟩ := xmlFileParseHead_eq hfiles host
  obtain ⟨r', hr'⟩ := @xmlTextParseHead_returns_of_le host x' hsize
  have hbytes' : x'.bytes = x.bytes.take xmlFileHeadbufSize := hx ▸ hbytes
  have hsmall : xmlFileHeadbufSize = 112 := rfl
  have hwhole : (xmlDecl host x).filter (fun head => declEnd .noneBom head ≤ xmlFileHeadbufSize)
      = xmlDecl host x := by
    rcases hdecl : xmlDecl host x with _ | head
    · rfl
    · have hle := declaration_length_le (@textUnits_noneBom host x hbom ▸ hgt) hdecl
      rw [Option.filter_some, declEnd_noneBom, if_pos (decide_eq_true hle)]
  have hfile := hr'.eq
  rw [declaration_headUnits_of_lt host (by omega), xmlDecl_take hbytes' (by omega),
    ucsTextDetectBom_take hbytes' (by omega), hbom, hwhole] at hfile
  obtain ⟨n, hn⟩ := hr'
  refine ⟨s, n, fun m hnm => ?_⟩
  rw [hcall, xmlTextParseHead_mono hnm hn, ← hfile]
  rfl

/-- The body lies in the file where `convd_conv_file` looks for it. -/
theorem docBody_region (hx : x.bytes = e.file) (hbom : ucsTextDetectBom x = .noneBom)
    {head : List UInt8} (hdecl : xmlDecl host x = some head) :
    bomLength .noneBom + declEnd .noneBom head ≤ e.file.length ∧
      e.file.drop (bomLength .noneBom + declEnd .noneBom head) = docBody host x := by
  have hzero : bomLength .noneBom + declEnd .noneBom head = head.length :=
    (Nat.zero_add _).trans (declEnd_noneBom head)
  have hle := xmlDecl_le hdecl
  have hlen := congrArg List.length hx
  rw [ConvBuf.bytes, Mem.length_load] at hlen
  rw [hbom, declEnd_noneBom, hlen] at hle
  rw [hzero]
  refine ⟨hle, ?_⟩
  rw [docBody, hdecl, hx]
  rfl

/-- The new head is put into the buffer as it is formatted. -/
theorem xmlfileHead_eq {h : ConvXmlhead} {tocode : List UInt8}
    (hwrites : writesHead tocode = true) :
    xmlfileHead host e h tocode = (h.withEncoding tocode).text := by
  obtain ⟨head, hhead⟩ : ∃ head : ConvXmlhead,
      head = { h.withEncoding tocode with bom := .noneBom } := ⟨_, rfl⟩
  have hfits : head.text.length < (⟨headbufSize, e.heap⟩ : ConvBuf).blen := head.text_ne_nil.2
  have hret := @convXmlheadFormat_noneBom host ⟨headbufSize, e.heap⟩ head (hhead ▸ rfl)
  have hload := @load_convXmlheadFormat_noneBom host ⟨headbufSize, e.heap⟩ head (hhead ▸ rfl) hfits
  rw [if_pos hfits] at hret
  simp only [xmlfileHead, hwrites, if_true, ← hhead, hret, Int.toNat_natCast, hload]
  rw [hhead]
  rfl

end Head

/-! ## The two calls -/

/-- A call on a file and one on its content agree: both succeed or neither, and then the file
that is written has what the buffer has. -/
structure XmlAgrees (r : XmltextResult σ) (r' : FileResult) : Prop where
  succeeds_iff : r'.ret = convdNoerror ↔ r.ret.isSome = true
  output_eq : ∀ n, r.ret = some n → r'.sys.out = r.bufp.load 0 n

section Calls

variable {host : Endian} {e : Env} {ic : Iconv σ} {conv : List UInt8 → Option (List UInt8)}
  {cvd : ConvDescriptor σ} {x output : ConvBuf} {linesizemax : UInt32} {s : Sys}

/-- Without a declaration the file is refused. -/
theorem convXmlfile_of_none (hfiles : e.Faultless) (hx : x.bytes = e.file)
    (hbom : ucsTextDetectBom x = .noneBom) (hgt : gt ∈ x.bytes.take xmlFileHeadbufSize)
    (hdecl : xmlDecl host x = none) :
    ∃ r, ConvXmlfileReturns host e ic cvd.cd (convdTocode cvd) linesizemax r ∧
      r.ret = convdErrFile := by
  obtain ⟨t, n, hparse⟩ := xmlFileParseHead_of_gt host hfiles hx hbom hgt
  have hparse := hparse n (Nat.le_refl n)
  rw [hdecl] at hparse
  refine ⟨⟨convdErrFile, none, t⟩, ⟨n, ?_⟩, rfl⟩
  simp only [convdConvXmlfile, hparse]
  rfl

/-- With one, what follows it is converted behind the new head. -/
theorem convXmlfile_of_some (hfiles : e.Faultless) (hx : x.bytes = e.file)
    (hbom : ucsTextDetectBom x = .noneBom) (hgt : gt ∈ x.bytes.take xmlFileHeadbufSize)
    {head : List UInt8} (hdecl : xmlDecl host x = some head)
    (hwrites : writesHead (convdTocode cvd) = true)
    (hmax : 5 * (lineSize linesizemax).toNat < 2 ^ 32)
    (hruns : ∀ run ∈ List.runs topBit (docBody host x),
      run.length < (lineSize linesizemax).toNat)
    (hic : Implements ic conv) (hconv : List.RunWise topBit conv)
    (hroom : ∀ run ∈ List.runs topBit (docBody host x),
      ∀ out ∈ conv run, out.length ≤ 4 * (lineSize linesizemax).toNat) :
    ∃ r, ConvXmlfileReturns host e ic cvd.cd (convdTocode cvd) linesizemax r ∧
      (∀ text, conv (docBody host x) = some text → r.ret = convdNoerror ∧ r.sys.out =
        ((⟨.noneBom, declFields (some head)⟩ : ConvXmlhead).withEncoding (convdTocode cvd)).text
          ++ text) ∧
      (conv (docBody host x) = none → r.ret = convdErrIconv) := by
  obtain ⟨t, n, hparse⟩ := xmlFileParseHead_of_gt host hfiles hx hbom hgt
  rw [hdecl] at hparse
  have hpos : 0 < declEnd .noneBom head :=
    declEnd_pos .noneBom (declaration_eq_some_iff.mp hdecl).ne_nil
  have hstarts : StartsWithBom e.file .noneBom := by
    have hdetect := startsWithBom_detect x.shows_bytes
    rwa [hx, hbom] at hdetect
  obtain ⟨hin, hbody⟩ := docBody_region hx hbom hdecl
  obtain ⟨hfresh, -⟩ := fresh_of_findsHead hpos (hparse n (Nat.le_refl n))
  obtain ⟨head', hhead'⟩ : ∃ head' : ConvXmlhead, head' = ⟨.noneBom, declFields (some head)⟩ :=
    ⟨_, rfl⟩
  have hshort := (head'.withEncoding (convdTocode cvd)).text_ne_nil.2
  have hput := @xmlfileHead_eq host e head' _ hwrites
  obtain ⟨r, ⟨m, hm⟩, hsome, hnone⟩ := @convFile_converts_from σ host e ic cvd.cd
    (declEnd .noneBom head) (xmlfileHead host e head' (convdTocode cvd)) linesizemax .noneBom conv
    t hfresh hfiles hstarts (.inl rfl) hin hmax (hbody ▸ hruns) hic hconv (hbody ▸ hroom)
  rw [hbody] at hsome hnone
  refine ⟨r, ⟨max n m, ?_⟩, fun text htext => ?_, hnone⟩
  · have hfound : (declResult .noneBom (some head)).1 > 0 := Int.natCast_pos.mpr hpos
    rw [hhead'] at hm
    simp only [convdConvXmlfile, hparse (max n m) (Nat.le_max_left n m), if_pos hfound]
    exact convdConvFile_mono (Nat.le_max_right n m) hm
  · obtain ⟨hret, hout⟩ := hsome text htext
    rw [hput, take_toUb4 (by omega), hhead'] at hout
    exact ⟨hret, hout⟩

/-- The text call returns, for there is a `>` among the first 127 bytes. -/
theorem xmlTextParseHead_of_gt (host : Endian) (hbom : ucsTextDetectBom x = .noneBom)
    (hgt : gt ∈ x.bytes.take xmlFileHeadbufSize) : ∃ head, XmlTextParseHeadReturns host x head := by
  apply xmlTextParseHead_returns_of_text
  right
  rw [textUnits_noneBom hbom]
  exact (List.take_sublist_take_left (by decide)).subset hgt

/-- With a head that is seen and names the code, the text call succeeds with the converter, and
leaves what the file call writes. -/
theorem convXmltext_of_seen (hwrites : writesHead (convdTocode cvd) = true)
    (hto : (convdTocode cvd).length < cvdEncodingLenMax) (hic : Implements ic conv)
    {parsed : HeadResult} {head : List UInt8} (hparsed : XmlTextParseHeadReturns host x parsed)
    (hret : parsed.ret = head.length)
    (hxmlhead : parsed.xmlhead = ⟨.noneBom, declFields (some head)⟩)
    (hcode : strcmpCaseign (convdFromcode cvd) (declEncoding head) = 0)
    (hbody : docBody host x = x.bytes.drop head.length)
    (hwide : ∀ text ∈ conv (docBody host x), headbufSize + text.length ≤ output.blen) :
    (∀ text, conv (docBody host x) = some text → ∃ n,
      (xmltextRest host ic cvd parsed x output s).ret = some n ∧
      (xmltextRest host ic cvd parsed x output s).bufp.load 0 n =
        ((⟨.noneBom, declFields (some head)⟩ : ConvXmlhead).withEncoding (convdTocode cvd)).text
          ++ text) ∧
    (conv (docBody host x) = none → (xmltextRest host ic cvd parsed x output s).ret = none) := by
  have hcode' : strcmpCaseign (convdFromcode cvd) parsed.xmlhead.encoding = 0 := by
    rw [hxmlhead]
    exact hcode
  have hxmlBody : xmlBody parsed x = docBody host x := by
    rw [xmlBody, hret, hbody, Int.toNat_natCast]
  obtain ⟨put, hput⟩ : ∃ put, newHead parsed.xmlhead (convdTocode cvd) output.blen = put := ⟨_, rfl⟩
  obtain ⟨hsome, hnone⟩ := @xmltextRest_of_conv σ host ic cvd parsed x output s conv hic hwrites
    hcode' hparsed.ret_le _ hput
  rw [hxmlBody] at hsome hnone
  refine ⟨fun text htext => ?_, hnone⟩
  have hroom := hwide text htext
  have hsizes : headbufSize = 128 ∧ cvdEncodingLenMax = 64 := ⟨rfl, rfl⟩
  have hshort := (parsed.xmlhead.withEncoding (convdTocode cvd)).text_ne_nil.2
  rw [newHead, List.take_of_length_le (by omega), if_pos (by omega)] at hput
  obtain ⟨hdone, hload⟩ := hsome text htext (by rw [← hput]; omega)
  refine ⟨_, hdone, ?_⟩
  rw [hload, ← hput, hxmlhead]

/-- Where the text call refuses, they agree if the converter refuses the body. -/
theorem xmlAgrees_refused_iff {r : XmltextResult σ} {r' : FileResult} {body : List UInt8}
    (hret : r.ret = none) (hsome : ∀ text, conv body = some text → r'.ret = convdNoerror)
    (hnone : conv body = none → r'.ret = convdErrIconv) : XmlAgrees r r' ↔ conv body = none := by
  constructor
  · intro hagrees
    rcases hconv : conv body with _ | text
    · rfl
    · have hok := hagrees.succeeds_iff.mp (hsome text hconv)
      rw [hret] at hok
      cases hok
  · intro hconv
    refine ⟨iff_of_false ?_ ?_, fun n hn => ?_⟩
    · rw [hnone hconv]
      exact convdErr_ne convdErrIconv (by decide)
    · rw [hret]
      exact Bool.false_ne_true
    · rw [hret] at hn
      cases hn

/-- Where both do as the converter does, and leave the same, they agree. -/
theorem xmlAgrees_of_both {r : XmltextResult σ} {r' : FileResult} {body : List UInt8}
    {out : List UInt8 → List UInt8}
    (hsome : ∀ text, conv body = some text → r'.ret = convdNoerror ∧ r'.sys.out = out text)
    (hnone : conv body = none → r'.ret = convdErrIconv)
    (hsome' : ∀ text, conv body = some text → ∃ n, r.ret = some n ∧ r.bufp.load 0 n = out text)
    (hnone' : conv body = none → r.ret = none) : XmlAgrees r r' := by
  rcases hconv : conv body with _ | text
  · exact (xmlAgrees_refused_iff (hnone' hconv) (fun text h => (hsome text h).1) hnone).mpr hconv
  · obtain ⟨hret, hout⟩ := hsome text hconv
    obtain ⟨n, hn, hload⟩ := hsome' text hconv
    refine ⟨iff_of_true hret (by rw [hn]; rfl), fun m hm => ?_⟩
    obtain rfl := Option.some.inj (hn.symm.trans hm)
    rw [hout, hload]

/-- Where no encoding was parsed the text call refuses. -/
theorem convXmltext_nil {fromcode tocode : List UInt8} (hcodes : Created cvd fromcode tocode)
    {parsed : HeadResult} (hnil : parsed.xmlhead.encoding = []) :
    (xmltextRest host ic cvd parsed x output s).ret = none := by
  apply xmltextRest_refused
  rw [hnil]
  exact strcmpCaseign_nil_ne hcodes

/-- The text call refuses a head that it does not see, or that names another code. -/
theorem convXmltext_of_some {fromcode tocode : List UInt8} (hcodes : Created cvd fromcode tocode)
    (hwrites : writesHead (convdTocode cvd) = true)
    (hto : (convdTocode cvd).length < cvdEncodingLenMax) (hic : Implements ic conv)
    {parsed : HeadResult} {head : List UInt8} {size : Nat}
    (hparsed : XmlTextParseHeadReturns host x parsed) (hdecl : xmlDecl host x = some head)
    (hresult : (parsed.ret, parsed.xmlhead) = declResult .noneBom
      ((xmlDecl host x).filter fun head => declEnd .noneBom head ≤ size))
    (hwide : ∀ text ∈ conv (docBody host x), headbufSize + text.length ≤ output.blen) :
    (strcmpCaseign (convdFromcode cvd) (declEncoding head) = 0 ∧ head.length ≤ size →
      (∀ text, conv (docBody host x) = some text → ∃ n,
        (xmltextRest host ic cvd parsed x output s).ret = some n ∧
        (xmltextRest host ic cvd parsed x output s).bufp.load 0 n =
          ((⟨.noneBom, declFields (some head)⟩ : ConvXmlhead).withEncoding (convdTocode cvd)).text
            ++ text) ∧
      (conv (docBody host x) = none → (xmltextRest host ic cvd parsed x output s).ret = none)) ∧
    (¬ (strcmpCaseign (convdFromcode cvd) (declEncoding head) = 0 ∧ head.length ≤ size) →
      (xmltextRest host ic cvd parsed x output s).ret = none) := by
  rcases declResult_filter_cases hresult with ⟨head', hhead', hin, hret, hfields⟩ |
    ⟨hcut, -, hfields⟩
  · obtain rfl := Option.some.inj (hdecl.symm.trans hhead')
    have hxmlhead : parsed.xmlhead = ⟨.noneBom, declFields (some head)⟩ := hfields
    rw [declEnd_noneBom] at hin hret
    constructor
    · rintro ⟨hcode, -⟩
      have hbody : docBody host x = x.bytes.drop head.length := by
        rw [docBody, hdecl]
        rfl
      exact convXmltext_of_seen hwrites hto hic hparsed hret hxmlhead hcode hbody hwide
    · intro hnot
      apply xmltextRest_refused
      rw [hxmlhead]
      exact fun hcode => hnot ⟨hcode, of_decide_eq_true hin⟩
  · have hout := hcut head hdecl
    rw [declEnd_noneBom, decide_eq_true_eq] at hout
    constructor
    · rintro ⟨-, hin⟩
      exact absurd hin hout
    · exact fun _ => convXmltext_nil hcodes (congrArg ConvXmlhead.encoding hfields)

end Calls

/-- A document of two letters, the encoding of which is said to be `code`. -/
def lettersIn (code : List UInt8) : List UInt8 := headText (ascii "1.0") code ++ ascii "ab"

theorem lettersIn_gbk_lt : (lettersIn (ascii "gbk")).length < 2 ^ 63 := by decide

theorem lettersIn_big5_lt : (lettersIn (ascii "big5")).length < 2 ^ 63 := by decide

/-- Copying, byte by byte. -/
def copyBytes (text : List UInt8) : Option (List UInt8) := some (text.flatMap fun c => [c])

theorem docBody_lettersIn_gbk :
    docBody .little (ConvBuf.ofList (lettersIn (ascii "gbk"))) = ascii "ab" := by decide +kernel

theorem docBody_lettersIn_big5 :
    docBody .little (ConvBuf.ofList (lettersIn (ascii "big5"))) = ascii "ab" := by decide +kernel

/-- What the two calls return on a document in BIG5 that is to be converted from GBK. -/
theorem big5_differs : gbkToUtf8.outcvd.any (fun cvd =>
    (convdConvXmltext .little (.ofFun copyBytes) 64 cvd
      (ConvBuf.ofList (lettersIn (ascii "big5"))) ⟨130, fun _ => 0⟩ Sys.init).any
        (fun r => r.ret == none) &&
    (convdConvXmlfile .little (.bytewise _ lettersIn_big5_lt fun _ => false) (.ofFun copyBytes) 64
      cvd.cd (convdTocode cvd) 64 Sys.init).any (fun r => r.ret == convdNoerror)) = true := by
  decide +kernel

end Convd
