/-
# `Convd.XmlFileHead` — the head of a file and the head of its content

`XML_file_parse_head` reads 112 bytes and hands them to `XML_text_parse_head`, whose buffer
takes 127 characters.  112 bytes are 112 characters, 109 behind the mark of UTF-8, 55 in
UCS-2 and 27 in UCS-4, and the shortest declaration has 21.  So the two agree on a content
that has no declaration or one that ends within the 112 bytes, with the reservation that
the text variant looks no further than `(int) blen` (`xmlFileParseHead_agrees_iff`).
-/
import Convd.XmlFile
import Convd.XmlUnits

namespace Convd

open CString Loop

section Agreement

variable {host : Endian} {e : Env} {x : ConvBuf} {r : HeadResult}

/-- `XML_file_parse_head` on the file returns what `r` has, the same value and the same fields. -/
def FileHeadReturns (host : Endian) (e : Env) (r : HeadResult) : Prop :=
  ∃ fuel xmlhead s, xmlFileParseHead host e fuel ⟨.noneBom, e.heap⟩ Sys.init
      = some (r.ret, xmlhead, s) ∧
    xmlhead.bom = r.xmlhead.bom ∧ xmlhead.version = r.xmlhead.version ∧
    xmlhead.encoding = r.xmlhead.encoding

/-- A file that can be read is parsed from a buffer that holds its first bytes. -/
theorem xmlFileParseHead_eq (hfiles : e.Faultless) (host : Endian) :
    ∃ x' s, x'.bytes = e.file.take xmlFileHeadbufSize ∧ x'.blen ≤ xmlFileHeadbufSize ∧
      ∀ fuel h, xmlFileParseHead host e fuel h Sys.init
        = (xmlTextParseHead host fuel x').map fun r => (r.ret, r.xmlhead, s) := by
  have hopen : fileOpenRead e Sys.init
      = (true, { Sys.init.did .openText true with pos := 0 }) := by
    rw [fileOpenRead, hfiles]
    rfl
  rcases fileReadbytes_cases e .headbuf xmlFileHeadbufSize
      { Sys.init.did .openText true with pos := 0 } (List.drop_zero (l := e.file)) with
    ⟨t, evs, -, hread⟩ | ⟨k, t, evs, -, hfault, -⟩
  · have hle : (e.file.take xmlFileHeadbufSize).length ≤ xmlFileHeadbufSize :=
      List.length_take_le _ _
    have hsize : toSizeT (toInt (e.file.take xmlFileHeadbufSize).length)
        = (e.file.take xmlFileHeadbufSize).length := by
      have hsmall : xmlFileHeadbufSize = 112 := rfl
      rw [toInt_of_lt (by omega), toSizeT_of_lt (by omega)]
    let x' : ConvBuf := ⟨(e.file.take xmlFileHeadbufSize).length,
      Mem.store e.heap 0 (e.file.take xmlFileHeadbufSize)⟩
    have hbytes : x'.bytes = e.file.take xmlFileHeadbufSize :=
      Mem.load_store_self e.heap 0 (e.file.take xmlFileHeadbufSize)
    refine ⟨x', fileClose .closeText (fileReadbytes e .headbuf xmlFileHeadbufSize
      { Sys.init.did .openText true with pos := 0 }).2.2, hbytes, hle, fun fuel h => ?_⟩
    simp only [xmlFileParseHead, hopen, hread, hsize]
    rfl
  · exact absurd hfault hfiles.no_fault

/-- The 112 bytes are no more units than `headbuf` takes: the call returns. -/
theorem xmlTextParseHead_returns_of_le {x' : ConvBuf} (h : x'.blen ≤ xmlFileHeadbufSize) :
    ∃ r', XmlTextParseHeadReturns host x' r' := by
  apply xmlTextParseHead_returns_of_text
  left
  rw [textUnits, List.length_units, List.length_drop, ConvBuf.bytes, Mem.length_load]
  exact Nat.le_trans (Nat.div_le_self _ _)
    (Nat.le_trans (Nat.sub_le _ _) (Nat.le_trans h (by decide)))

/-- On a content on which the text variant returns, the file variant returns the same value,
mark, version and encoding if and only if the content has no declaration, or one that
ends before byte 112 and before `(int) blen`, or before neither. -/
theorem xmlFileParseHead_agrees_iff (hfiles : e.Faultless) (hx : x.bytes = e.file)
    (h : XmlTextParseHeadReturns host x r) :
    FileHeadReturns host e r ↔ ∀ head ∈ xmlDecl host x,
      (declEnd (ucsTextDetectBom x) head ≤ xmlFileHeadbufSize ↔
        declEnd (ucsTextDetectBom x) head ≤ (toInt x.blen).toNat) := by
  obtain ⟨x', s, hbytes, hsize, hcall⟩ := xmlFileParseHead_eq hfiles host
  obtain ⟨r', hr'⟩ := @xmlTextParseHead_returns_of_le host x' hsize
  have hbytes' : x'.bytes = x.bytes.take xmlFileHeadbufSize := hx ▸ hbytes
  have hsmall : xmlFileHeadbufSize = 112 := rfl
  have hfile := hr'.eq
  rw [declaration_headUnits_of_lt host (by omega), xmlDecl_take hbytes' (by omega),
    ucsTextDetectBom_take hbytes' (by omega)] at hfile
  have htext := h.eq
  rw [declaration_headUnits] at htext
  have hreturns : FileHeadReturns host e r ↔ r'.ret = r.ret ∧
      r'.xmlhead.bom = r.xmlhead.bom ∧ r'.xmlhead.version = r.xmlhead.version ∧
      r'.xmlhead.encoding = r.xmlhead.encoding := by
    constructor
    · rintro ⟨fuel, xmlhead, s', hparse, hfields⟩
      rw [hcall] at hparse
      obtain ⟨r'', hr'', heq⟩ := Option.map_eq_some_iff.mp hparse
      obtain rfl := hr'.unique ⟨fuel, hr''⟩
      obtain ⟨hret, heq⟩ := Prod.mk.inj heq
      obtain ⟨hhead, -⟩ := Prod.mk.inj heq
      exact ⟨hret, hhead ▸ hfields⟩
    · rintro ⟨hret, hfields⟩
      obtain ⟨fuel, hfuel⟩ := hr'
      refine ⟨fuel, r'.xmlhead, s, ?_, hfields⟩
      rw [hcall, hfuel, ← hret]
      rfl
  rw [hreturns]
  constructor
  · rintro ⟨hret, -⟩
    apply declResult_agree_iff.mp
    exact (congrArg Prod.fst hfile).symm.trans (hret.trans (congrArg Prod.fst htext))
  · intro hboth
    have hsame : (r'.ret, r'.xmlhead) = (r.ret, r.xmlhead) := by
      rw [hfile, htext]
      exact congrArg _ (declResult_eq_of_agree hboth)
    obtain ⟨hret, hhead⟩ := Prod.mk.inj hsame
    exact ⟨hret, by rw [hhead], by rw [hhead], by rw [hhead]⟩

end Agreement

/-- A declaration that names its encoding, in UCS-4. -/
def ucs4Head : List UInt8 :=
  encodeText .ucs4leBom (ascii "<?xml version=\"1.0\" encoding=\"UCS-4\"?>")

theorem ucs4Head_lt : ucs4Head.length < 2 ^ 63 := by decide +kernel

/-- The plain one, which has 21 characters. -/
def ucs4Plain : List UInt8 := encodeText .ucs4leBom plainDecl

theorem xmlFileParseHead_agrees_iff_plain :
    ∃ r, XmlTextParseHeadReturns .little (ConvBuf.ofList ucs4Plain) r ∧
      (FileHeadReturns .little (.bytewise ucs4Plain (by decide) fun _ => false) r ↔
        ∀ head ∈ xmlDecl .little (ConvBuf.ofList ucs4Plain),
          (declEnd (ucsTextDetectBom (ConvBuf.ofList ucs4Plain)) head ≤ xmlFileHeadbufSize ↔
            declEnd (ucsTextDetectBom (ConvBuf.ofList ucs4Plain)) head
              ≤ (toInt (ConvBuf.ofList ucs4Plain).blen).toNat)) := by
  have hsome : (xmlTextParseHead .little 64 (ConvBuf.ofList ucs4Plain)).isSome = true := by
    decide +kernel
  obtain ⟨r, hr⟩ := Option.isSome_iff_exists.mp hsome
  have hfiles : (Env.bytewise ucs4Plain (by decide) fun _ => false).Faultless := fun _ => rfl
  exact ⟨r, ⟨64, hr⟩, xmlFileParseHead_agrees_iff hfiles (ConvBuf.bytes_ofList _) ⟨64, hr⟩⟩

/-- In UCS-4 a declaration with an encoding is longer than what is read of the file. -/
theorem xmlFileParseHead_misses_ucs4 :
    ¬ ∀ (host : Endian) (e : Env) (x : ConvBuf) (r : HeadResult), e.Faultless →
      x.bytes = e.file → XmlTextParseHeadReturns host x r → FileHeadReturns host e r := by
  intro hsame
  have htext : (xmlTextParseHead .little 64 (ConvBuf.ofList ucs4Head)).any
      (fun r => r.ret == 156) = true := by decide +kernel
  obtain ⟨r, hr, hret⟩ := (Option.any_eq_true _ _).mp htext
  have hret : r.ret = 156 := beq_iff_eq.mp hret
  obtain ⟨fuel, xmlhead, s, hfile, -⟩ := hsame .little
    (.bytewise ucs4Head ucs4Head_lt fun _ => false) _ r (fun _ => rfl) (ConvBuf.bytes_ofList _)
    ⟨64, hr⟩
  have hzero : (xmlFileParseHead .little (.bytewise ucs4Head ucs4Head_lt fun _ => false) 64
      ⟨.noneBom, fun _ => 0⟩ Sys.init).any (fun p => p.1 == 0) = true := by decide +kernel
  obtain ⟨p, hp, hp0⟩ := (Option.any_eq_true _ _).mp hzero
  obtain rfl := xmlFileParseHead_unique hfile hp
  have hzero : r.ret = 0 := beq_iff_eq.mp hp0
  rw [hret] at hzero
  cases hzero

end Convd
