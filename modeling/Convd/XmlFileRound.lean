/-
# `Convd.XmlFileRound` — an XML file converted, and converted back

`convd_conv_xmlfile` puts a head of its own in front of what it converts.  With a version that fits
its field and a code that a head can name

    the new file      is a document again: its head has the version of the old one, names the
                      `tocode`, and ends where the converted body begins
    converted back    it has the old body, and a head that names the code it had at first

The head of the first file names any code at all, or none: what the bytes are read as is in the
descriptor.
-/
import Convd.Transcode
import Convd.XmlFileText

namespace Convd

open Code CString List

variable {α σ τ : Type}

section Round

variable {host : Endian} {e e' : Env} {ic : Iconv σ} {ic' : Iconv τ} {cvd : ConvDescriptor σ}
  {cvd' : ConvDescriptor τ} {enc enc' : Encoding} {A B : Code α UInt8}
  {conv back : List UInt8 → Option (List UInt8)} {fromcode tocode head text : List UInt8}
  {linesizemax : UInt32}

/-- The version that is parsed from a declaration. -/
def declVersion (head : List UInt8) : List UInt8 :=
  (⟨.noneBom, declFields (some head)⟩ : ConvXmlhead).version

/-- The head in front of what is converted. -/
theorem newHead_text (hcvd : Created cvd fromcode tocode) (hto : CodeText tocode)
    (hversion : (declVersion head).length < versionSize) :
    ((⟨.noneBom, declFields (some head)⟩ : ConvXmlhead).withEncoding (convdTocode cvd)).text
      = headText (declVersion head) (cstrToupper tocode) := by
  have hlen : (cstrToupper tocode).length < cvdEncodingLenMax := by
    rw [length_cstrToupper]
    exact hto.length_lt
  have htake : (cstrToupper tocode).take 63 = cstrToupper tocode :=
    take_of_length_le (Nat.le_of_lt_succ hlen)
  have hput := (text_eq_iff_of_fits (convdTocode_ne_zero cvd) hversion).mpr
    (hcvd.tocode_eq ▸ hlen)
  rw [hcvd.tocode_eq, htake] at hput
  rw [hcvd.tocode_eq]
  exact hput

/-- One call on a document whose body is a text in `A`. -/
theorem convXmlfile_transcodes (hA : enc.Writes A) (hunmixed : enc.isUnmixed = true)
    (hB : enc'.Writes B) (hic : Implements ic conv) (hconv : Transcodes A B conv)
    (hcvd : Created cvd fromcode tocode) (hto : CodeText tocode)
    (hwrites : writesHead (convdTocode cvd) = true) (hfiles : e.Faultless)
    (hbom : StartsWithBom e.file .noneBom) (hgt : gt ∈ e.file.take xmlFileHeadbufSize)
    (hdecl : xmlDecl host (.ofList e.file) = some head)
    (hversion : (declVersion head).length < versionSize)
    (hmax : 5 * (lineSize linesizemax).toNat < 2 ^ 32)
    (hruns : ∀ run ∈ runs topBit (docBody host (.ofList e.file)),
      run.length < (lineSize linesizemax).toNat) :
    ∃ r, ConvXmlfileReturns host e ic cvd.cd (convdTocode cvd) linesizemax r ∧
      (∀ text, conv (docBody host (.ofList e.file)) = some text → r.ret = convdNoerror ∧
        r.sys.out = headText (declVersion head) (cstrToupper tocode) ++ text) ∧
      (conv (docBody host (.ofList e.file)) = none → r.ret = convdErrIconv) := by
  have hx : (ConvBuf.ofList e.file).bytes = e.file := ConvBuf.bytes_ofList _
  have hdetect : ucsTextDetectBom (.ofList e.file) = .noneBom :=
    ucsTextDetectBom_eq (ConvBuf.shows_bytes _) (hx.symm ▸ hbom)
  have hcall := convXmlfile_of_some hfiles hx hdetect (hx.symm ▸ hgt) hdecl hwrites
    hmax hruns hic (hconv.runWise (hA.uniform hunmixed)) fun run hrun => hA.room hB hconv
      (hruns run hrun)
  rwa [newHead_text hcvd hto hversion] at hcall

/-- A formatted head lies in the first 112 bytes. -/
theorem gt_mem_take_headText {v code : List UInt8} (hv : PlainVersion v) (hcode : PlainCode code)
    (rest : List UInt8) : gt ∈ (headText v code ++ rest).take xmlFileHeadbufSize := by
  have hsizes : versionSize = 16 ∧ cvdEncodingLenMax = 64 ∧ xmlFileHeadbufSize = 112 :=
    ⟨rfl, rfl, rfl⟩
  have hvlen := hv.length_lt
  have helen := hcode.length_lt
  have hlen := length_headText v code
  rw [take_append, take_of_length_le (by omega), headText_eq_front]
  exact mem_append_left _ (mem_append_right _ mem_cons_self)

/-- What a file is that starts with a formatted head. -/
theorem headText_file (host : Endian) {v code : List UInt8} (hv : PlainVersion v)
    (hcode : PlainCode code) (hfile : e.file = headText v code ++ text) :
    StartsWithBom e.file .noneBom ∧ gt ∈ e.file.take xmlFileHeadbufSize ∧
      xmlDecl host (.ofList e.file) = some (headText v code) ∧
      docBody host (.ofList e.file) = text := by
  have hx : (ConvBuf.ofList e.file).bytes = headText v code ++ text :=
    (ConvBuf.bytes_ofList _).trans hfile
  have hdecl : xmlDecl host (.ofList e.file) = some (headText v code) :=
    xmlDecl_headText hv hcode hx
  refine ⟨?_, hfile ▸ gt_mem_take_headText hv hcode text, hdecl, ?_⟩
  · have hmark := startsWithBom_detect (ConvBuf.shows_bytes (.ofList e.file))
    rwa [detect_headText hx, hx, ← hfile] at hmark
  · rw [docBody, hdecl, hx]
    exact drop_left

/-- What `XML_file_parse_head` returns for it. -/
theorem xmlFileParseHead_headText {v code : List UInt8} (hv : PlainVersion v)
    (hcode : PlainCode code) (hfiles : e.Faultless) (hfile : e.file = headText v code ++ text) :
    ∃ fuel h s, xmlFileParseHead host e fuel ⟨.noneBom, e.heap⟩ Sys.init
        = some (((headText v code).length : Int), h, s) ∧
      h.version = v ∧ h.encoding = code := by
  have hx : (ConvBuf.ofList e.file).bytes = e.file := ConvBuf.bytes_ofList _
  obtain ⟨hbom, hgt, hdecl, -⟩ := headText_file host hv hcode hfile
  obtain ⟨s, n, hparse⟩ := xmlFileParseHead_of_gt host hfiles hx
    (ucsTextDetectBom_eq (ConvBuf.shows_bytes _) (hx.symm ▸ hbom)) (hx.symm ▸ hgt)
  have hn := hparse n (Nat.le_refl n)
  rw [hdecl] at hn
  obtain ⟨hversion, hencoding⟩ := declFields_headText hv hcode .noneBom
  refine ⟨n, _, s, ?_, hversion, hencoding⟩
  rw [hn, ← declEnd_noneBom]
  rfl

/-- A document in UTF-8 or GB2312 without a mark is converted to the other (or the same) encoding
and back: the file in between is a document with the same version that names the `tocode`, and
the last one has the body of the first. -/
theorem convdConvXmlfile_round {openAB : List UInt8 → List UInt8 → Option σ}
    {openBA : List UInt8 → List UInt8 → Option τ} {suffixAB suffixBA : Int}
    {codeA codeB : List UInt8} (hA : enc.Writes A) (hB : enc'.Writes B)
    (hunmixed : enc.isUnmixed = true) (hunmixed' : enc'.isUnmixed = true)
    (hic : Implements ic conv) (hconv : Transcodes A B conv) (hic' : Implements ic' back)
    (hback : Transcodes B A back) (hcodeA : CodeText codeA) (hcodeB : CodeText codeB)
    (hcvd : (convdCreate openAB (some codeA) (some codeB) suffixAB).outcvd = some cvd)
    (hcvd' : (convdCreate openBA (some codeB) (some codeA) suffixBA).outcvd = some cvd')
    (hwrites : writesHead (convdTocode cvd) = true)
    (hwrites' : writesHead (convdTocode cvd') = true)
    (hfiles : e.Faultless) (hfiles' : e'.Faultless) (hbom : StartsWithBom e.file .noneBom)
    (hgt : gt ∈ e.file.take xmlFileHeadbufSize)
    (hdecl : xmlDecl host (.ofList e.file) = some head)
    (hversion : (declVersion head).length < versionSize) (hequals : 61 ∉ declVersion head)
    (hmax : 5 * (lineSize linesizemax).toNat < 2 ^ 32)
    (hruns : ∀ run ∈ runs topBit (docBody host (.ofList e.file)),
      run.length < (lineSize linesizemax).toNat)
    (htext : conv (docBody host (.ofList e.file)) = some text)
    (hruns' : ∀ run ∈ runs topBit text, run.length < (lineSize linesizemax).toNat)
    (hfile' : e'.file = headText (declVersion head) (cstrToupper codeB) ++ text) :
    (∃ r, ConvXmlfileReturns host e ic cvd.cd (convdTocode cvd) linesizemax r ∧
      r.ret = convdNoerror ∧ r.sys.out = e'.file) ∧
    (∃ fuel h s, xmlFileParseHead host e' fuel ⟨.noneBom, e'.heap⟩ Sys.init
        = some (((headText (declVersion head) (cstrToupper codeB)).length : Int), h, s) ∧
      h.version = declVersion head ∧ h.encoding = cstrToupper codeB) ∧
    ∃ r, ConvXmlfileReturns host e' ic' cvd'.cd (convdTocode cvd') linesizemax r ∧
      r.ret = convdNoerror ∧ r.sys.out = headText (declVersion head) (cstrToupper codeA)
        ++ docBody host (.ofList e.file) := by
  have hAB := created_of_outcvd (fun c hc => (hcodeA.chars c hc).1)
    (fun c hc => (hcodeB.chars c hc).1) hcvd
  have hBA := created_of_outcvd (fun c hc => (hcodeB.chars c hc).1)
    (fun c hc => (hcodeA.chars c hc).1) hcvd'
  have hcode := plainCode_cstrToupper hAB.tocode_pos hcodeB.length_lt hcodeB.chars
  have hv : PlainVersion (declVersion head) :=
    plainVersion_declFields (declaration_eq_some_iff.mp hdecl) hversion hequals
  obtain ⟨hbom', hgt', hdecl', hbody'⟩ := headText_file host hv hcode hfile'
  have hversion' : declVersion (headText (declVersion head) (cstrToupper codeB))
      = declVersion head := (declFields_headText hv hcode .noneBom).1
  refine ⟨?_, xmlFileParseHead_headText hv hcode hfiles' hfile', ?_⟩
  · obtain ⟨r, hr, hsome, -⟩ := convXmlfile_transcodes hA hunmixed hB hic hconv hAB hcodeB hwrites
      hfiles hbom hgt hdecl hversion hmax hruns
    exact ⟨r, hr, hfile' ▸ hsome text htext⟩
  · have hlt : (declVersion (headText (declVersion head) (cstrToupper codeB))).length
        < versionSize := by
      rw [hversion']
      exact hversion
    have htext' := hconv.round hback htext
    rw [← hbody'] at htext' hruns'
    obtain ⟨r, hr, hsome, -⟩ := convXmlfile_transcodes hB hunmixed' hA hic' hback hBA hcodeA
      hwrites' hfiles' hbom' hgt' hdecl' hlt hmax hruns'
    exact ⟨r, hr, hversion' ▸ hsome _ htext'⟩

end Round

/-- To GB2312. -/
def utf8ToGb2312 : CreateResult Unit :=
  convdCreate (fun _ _ => some ()) (some (ascii "utf-8")) (some (ascii "gb2312")) cvdSuffixNone

/-- And back. -/
def gb2312ToUtf8 : CreateResult Unit :=
  convdCreate (fun _ _ => some ()) (some (ascii "gb2312")) (some (ascii "utf-8")) cvdSuffixNone

theorem codeText_gb2312 : CodeText (ascii "gb2312") := ⟨by decide, by decide +kernel⟩

/-- The word aé behind a head, in UTF-8 and in GB2312. -/
def eacuteUtf8 : List UInt8 := headText (ascii "1.0") (ascii "utf-8") ++ [0x61, 0xC3, 0xA9]
def eacuteGb2312 : List UInt8 := headText (ascii "1.0") (ascii "GB2312") ++ [0x61, 0xA8, 0xA6]

theorem eacuteUtf8_lt : eacuteUtf8.length < 2 ^ 63 := by decide

theorem eacuteGb2312_lt : eacuteGb2312.length < 2 ^ 63 := by decide

theorem xmlDecl_eacuteUtf8 : xmlDecl .little (.ofList eacuteUtf8)
    = some (headText (ascii "1.0") (ascii "utf-8")) := by decide +kernel

theorem docBody_eacuteUtf8 : docBody .little (.ofList eacuteUtf8) = [0x61, 0xC3, 0xA9] := by
  decide +kernel

theorem declVersion_eacuteUtf8 :
    declVersion (headText (ascii "1.0") (ascii "utf-8")) = ascii "1.0" := by decide +kernel

theorem convdConvXmlfile_round_eacute : ∃ cvd cvd' : ConvDescriptor Unit,
    (∃ r, ConvXmlfileReturns .little (.bytewise eacuteUtf8 eacuteUtf8_lt fun _ => false)
        (.ofFun (eacuteConv 0xC3 0xA9 0xA8 0xA6)) cvd.cd (convdTocode cvd) 64 r ∧
      r.ret = convdNoerror ∧ r.sys.out = eacuteGb2312) ∧
    (∃ fuel h s, xmlFileParseHead .little (.bytewise eacuteGb2312 eacuteGb2312_lt fun _ => false)
        fuel ⟨.noneBom, fun _ => 0⟩ Sys.init
        = some (((headText (ascii "1.0") (ascii "GB2312")).length : Int), h, s) ∧
      h.version = ascii "1.0" ∧ h.encoding = ascii "GB2312") ∧
    ∃ r, ConvXmlfileReturns .little (.bytewise eacuteGb2312 eacuteGb2312_lt fun _ => false)
        (.ofFun (eacuteConv 0xA8 0xA6 0xC3 0xA9)) cvd'.cd (convdTocode cvd') 64 r ∧
      r.ret = convdNoerror ∧
      r.sys.out = headText (ascii "1.0") (ascii "UTF-8") ++ [0x61, 0xC3, 0xA9] := by
  obtain ⟨cvd, hcvd⟩ : ∃ cvd, utf8ToGb2312.outcvd = some cvd := ⟨_, rfl⟩
  obtain ⟨cvd', hcvd'⟩ : ∃ cvd, gb2312ToUtf8.outcvd = some cvd := ⟨_, rfl⟩
  have hcodes := created_of_outcvd (fun c hc => (codeText_utf8.chars c hc).1)
    (fun c hc => (codeText_gb2312.chars c hc).1) hcvd
  have hcodes' := created_of_outcvd (fun c hc => (codeText_gb2312.chars c hc).1)
    (fun c hc => (codeText_utf8.chars c hc).1) hcvd'
  have hwrites : writesHead (convdTocode cvd) = true := by
    rw [hcodes.tocode_eq]
    decide
  have hwrites' : writesHead (convdTocode cvd') = true := by
    rw [hcodes'.tocode_eq]
    decide
  have hbody : docBody .little
      (.ofList (Env.bytewise eacuteUtf8 eacuteUtf8_lt fun _ => false).file) = [0x61, 0xC3, 0xA9] :=
    docBody_eacuteUtf8
  have hround := @convdConvXmlfile_round _ _ _ .little
    (.bytewise eacuteUtf8 eacuteUtf8_lt fun _ => false)
    (.bytewise eacuteGb2312 eacuteGb2312_lt fun _ => false) _ _ cvd cvd' .utf8 .gb2312 _ _ _ _ _
    [0x61, 0xA8, 0xA6] 64 _ _ _ _ _ _ utf8_writes_eacute gb2312_writes_eacute rfl rfl
    (Iconv.implements_ofFun _) (eacuteConv_transcodes (by decide)) (Iconv.implements_ofFun _)
    (eacuteConv_transcodes (by decide)) codeText_utf8 codeText_gb2312 hcvd hcvd' hwrites hwrites'
    (fun _ => rfl) (fun _ => rfl) (by decide) (by decide) xmlDecl_eacuteUtf8
    (by rw [declVersion_eacuteUtf8]; decide) (by rw [declVersion_eacuteUtf8]; decide) (by decide)
    (by rw [hbody]; decide) (by rw [hbody]; decide) (by decide)
    (by rw [declVersion_eacuteUtf8]; rfl)
  rw [declVersion_eacuteUtf8, hbody] at hround
  exact ⟨cvd, cvd', hround⟩

end Convd
