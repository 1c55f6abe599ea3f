/-
# `Convd.XmlFile` — `convd_conv_xmlfile`

The head of the file is parsed from its first 112 bytes, a new head is formatted, and
`convd_conv_file` converts what follows: its `inoffset` is what the parser returned.
That counts from the start of the file, mark included, and `convd_conv_file` counts
from behind the mark.  So the mark is skipped twice, and as many bytes of the body are
lost as it has (`convdConvXmlfile_handsOver_iff`).
-/
import Convd.ConvStart
import Convd.XmlHeadScan

namespace Convd

open CString Loop

variable {σ : Type}

/-! ## The code -/

/-- `sizeof(headbuf)` in `XML_file_parse_head` -/
def xmlFileHeadbufSize : Nat := cvdEncodingLenMax + 16 + 32

/-- `XML_file_parse_head`: what it returns, `*xmlhead` and the system; none when the scan has
not ended on this fuel. -/
def xmlFileParseHead (host : Endian) (e : Env) (fuel : Nat) (xmlhead : ConvXmlhead) (s : Sys) :
    Option (Int × ConvXmlhead × Sys) :=
  match fileOpenRead e s with
  | (false, s) => some (convdErrFile, xmlhead, s)
  | (true, s) =>
      let (headlen, bytes, s) := fileReadbytes e .headbuf xmlFileHeadbufSize s
      let s := fileClose .closeText s
      -- the result of the read is taken for a size, -1 too
      let input : ConvBuf := ⟨toSizeT headlen, Mem.store e.heap 0 bytes⟩
      (xmlTextParseHead host fuel input).map fun r => (r.ret, r.xmlhead, s)

/-- The codes a head can be written in. -/
def headCodes : List (List UInt8) :=
  [ascii "UTF-8", ascii "GB2312", ascii "BIG5", ascii "GBK", ascii "GB18030"]

/-- One of the comparisons `! memcmp(convd_tocode(cvd, 0), code, length)` holds. -/
def writesHead (tocode : List UInt8) : Bool :=
  headCodes.any fun code => tocode.take code.length == code

/-- `cstr_safecopy(xmlhead.encoding, sizeof(xmlhead.encoding), 0, tocode, tocodelen)` -/
def ConvXmlhead.withEncoding (h : ConvXmlhead) (tocode : List UInt8) : ConvXmlhead :=
  let encoding : Mem UInt8 := fun i => h.fields (versionSize + i)
  let (_, encoding, _) := cstrSafecopy encoding cvdEncodingLenMax 0 tocode
  { h with fields := fun i => if i < versionSize then h.fields i else encoding (i - versionSize) }

/-- What `convd_conv_xmlfile` puts into `xmlheadbuf[128]`, up to `xmlheadlen`. -/
def xmlfileHead (host : Endian) (e : Env) (xmlhead : ConvXmlhead) (tocode : List UInt8) :
    List UInt8 :=
  if writesHead tocode then
    let output := convXmlheadFormat host { xmlhead.withEncoding tocode with bom := .noneBom }
      ⟨headbufSize, e.heap⟩
    output.bufp.load 0 output.ret.toNat
  else []

/-- `convd_conv_xmlfile`; `tocode` is `convd_tocode(cvd, 0)`, and `addbom` is never looked at. -/
def convdConvXmlfile (host : Endian) (e : Env) (ic : Iconv σ) (fuel : Nat) (cd : σ)
    (tocode : List UInt8) (linesizemax : UInt32) (s : Sys) : Option FileResult :=
  -- `xmlhead` is not initialised
  match xmlFileParseHead host e fuel ⟨.noneBom, e.heap⟩ s with
  | none => none
  | some (headofflen, xmlhead, s) =>
      if headofflen > 0 then
        convdConvFile host e ic fuel cd headofflen.toNat (xmlfileHead host e xmlhead tocode)
          linesizemax s
      else some ⟨convdErrFile, none, s⟩

/-- A call from scratch returns `r`. -/
def ConvXmlfileReturns (host : Endian) (e : Env) (ic : Iconv σ) (cd : σ) (tocode : List UInt8)
    (linesizemax : UInt32) (r : FileResult) : Prop :=
  ∃ fuel, convdConvXmlfile host e ic fuel cd tocode linesizemax Sys.init = some r

/-- `XML_file_parse_head` finds a head of `n` bytes, the mark included. -/
def FindsHead (host : Endian) (e : Env) (n : Nat) : Prop :=
  0 < n ∧ ∃ fuel xmlhead s,
    xmlFileParseHead host e fuel ⟨.noneBom, e.heap⟩ Sys.init = some ((n : Int), xmlhead, s)

/-! ## The head of a file -/

/-- What is returned is where the scan that found a head stopped, or 0. -/
theorem ret_headAttributes (bom : UcsBom) (r : ScanResult) :
    (headAttributes bom r).ret = 0 ∨ r.found = true ∧ (headAttributes bom r).ret = r.offset := by
  simp only [headAttributes]
  split_ifs with haccepts
  · exact .inr ⟨((Bool.and_eq_true _ _).mp haccepts).1, rfl⟩
  · exact .inl rfl
  · exact .inl rfl

/-- A head that is found lies in the buffer. -/
theorem ret_le_of_pos {host : Endian} {x : ConvBuf} {h : HeadResult} {fuel : Nat}
    (hret : xmlTextParseHead host fuel x = some h) (hpos : 0 < h.ret) : h.ret ≤ toInt x.blen := by
  obtain ⟨r, hr, rfl⟩ := Option.map_eq_some_iff.mp hret
  have hw := unitWidth_pos (ucsTextDetectBom x)
  have hoffset : r.found = true → (r.offset : Int) ≤ toInt x.blen := by
    refine run_invariant (P := fun _ => True) (Q := fun r : ScanResult => r.found = true →
      (r.offset : Int) ≤ toInt x.blen) (fun _ _ _ _ => trivial) ?_ trivial hr
    intro s r _ hleave hfound
    simp only [scanTurn] at hleave
    split_ifs at hleave with hlt hroom hgt
    · cases hleave
      show ((s.offset + unitWidth (ucsTextDetectBom x) : Nat) : Int) ≤ _
      omega
    · cases hleave
      cases hfound
  rcases ret_headAttributes (ucsTextDetectBom x) r with hzero | ⟨hfound, heq⟩
  · rw [hzero] at hpos
    cases hpos
  · rw [heq]
    exact hoffset hfound

theorem toInt_toSizeT_neg_one : toInt (toSizeT (-1)) = -1 := by decide

/-- A head that was found was read without a failure. -/
theorem fresh_of_findsHead {host : Endian} {e : Env} {fuel n : Nat} {h h' : ConvXmlhead} {s : Sys}
    (hpos : 0 < n)
    (hret : xmlFileParseHead host e fuel h Sys.init = some ((n : Int), h', s)) :
    s.Fresh ∧ n < 2 ^ 31 := by
  rcases hfail : e.fails Sys.init.tick with _ | _
  · have hopen : fileOpenRead e Sys.init
        = (true, { Sys.init.did .openText true with pos := 0 }) := by
      rw [fileOpenRead, hfail]
      rfl
    rcases fileReadbytes_cases e .headbuf xmlFileHeadbufSize
        { Sys.init.did .openText true with pos := 0 } rfl with
      ⟨t, evs, hevs, hread⟩ | ⟨k, t, evs, -, -, hread⟩
    · simp only [xmlFileParseHead, hopen, hread] at hret
      obtain ⟨r, hr, heq⟩ := Option.map_eq_some_iff.mp hret
      obtain ⟨hn, heq'⟩ := Prod.mk.inj heq
      obtain ⟨-, hs⟩ := Prod.mk.inj heq'
      have hlt := Int.lt_of_le_of_lt (ret_le_of_pos hr (by omega)) (toInt_lt _)
      refine ⟨⟨?_, ?_⟩, by omega⟩
      · rw [← hs]
        simp [fileClose, Sys.did, Sys.init, Event.ok, hevs.allOk]
      · rw [← hs]
        simp [fileClose, Sys.did, Sys.init, hevs.handed]
    · simp only [xmlFileParseHead, hopen, hread] at hret
      obtain ⟨r, hr, heq⟩ := Option.map_eq_some_iff.mp hret
      have hn : r.ret = n := (Prod.mk.inj heq).1
      have hle := ret_le_of_pos hr (by omega)
      rw [toInt_toSizeT_neg_one] at hle
      omega
  · have hopen : fileOpenRead e Sys.init = (false, Sys.init.did .openText false) := by
      rw [fileOpenRead, if_pos hfail]
    simp only [xmlFileParseHead, hopen] at hret
    have hn : convdErrFile = n := (Prod.mk.inj (Option.some.inj hret)).1
    rw [convdErrFile] at hn
    omega

theorem xmlFileParseHead_mono {host : Endian} {e : Env} {h : ConvXmlhead} {s : Sys}
    {r : Int × ConvXmlhead × Sys} {n m : Nat} (hnm : n ≤ m)
    (hr : xmlFileParseHead host e n h s = some r) : xmlFileParseHead host e m h s = some r := by
  simp only [xmlFileParseHead] at hr ⊢
  split at hr
  · exact hr
  · obtain ⟨t, ht, rfl⟩ := Option.map_eq_some_iff.mp hr
    exact Option.map_eq_some_iff.mpr ⟨t, xmlTextParseHead_mono hnm ht, rfl⟩

theorem xmlFileParseHead_unique {host : Endian} {e : Env} {fuel fuel' : Nat} {h : ConvXmlhead}
    {s : Sys} {r r' : Int × ConvXmlhead × Sys} (hr : xmlFileParseHead host e fuel h s = some r)
    (hr' : xmlFileParseHead host e fuel' h s = some r') : r = r' :=
  unique_of_mono xmlFileParseHead_mono ⟨fuel, hr⟩ ⟨fuel', hr'⟩

theorem convdConvXmlfile_mono {host : Endian} {e : Env} {ic : Iconv σ} {cd : σ}
    {tocode : List UInt8} {linesizemax : UInt32} {s : Sys} {r : FileResult} {n m : Nat}
    (hnm : n ≤ m) (h : convdConvXmlfile host e ic n cd tocode linesizemax s = some r) :
    convdConvXmlfile host e ic m cd tocode linesizemax s = some r := by
  rw [convdConvXmlfile] at h ⊢
  rcases hparse : xmlFileParseHead host e n ⟨.noneBom, e.heap⟩ s with _ | ⟨ret, xmlhead, t⟩
  · rw [hparse] at h
    cases h
  · rw [hparse] at h
    rw [xmlFileParseHead_mono hnm hparse]
    dsimp only at h ⊢
    split_ifs at h ⊢
    · exact convdConvFile_mono hnm h
    · exact h

theorem ConvXmlfileReturns.unique {host : Endian} {e : Env} {ic : Iconv σ} {cd : σ}
    {tocode : List UInt8} {linesizemax : UInt32} {r r' : FileResult}
    (h : ConvXmlfileReturns host e ic cd tocode linesizemax r)
    (h' : ConvXmlfileReturns host e ic cd tocode linesizemax r') : r = r' :=
  unique_of_mono convdConvXmlfile_mono h h'

/-- A call on a file with a head is a call of `convd_conv_file`, which skips what the
parser returned. -/
theorem ConvXmlfileReturns.convFile {host : Endian} {e : Env} {ic : Iconv σ} {cd : σ}
    {tocode : List UInt8} {linesizemax : UInt32} {r : FileResult} {n : Nat}
    (h : ConvXmlfileReturns host e ic cd tocode linesizemax r) (hhead : FindsHead host e n) :
    n < 2 ^ 31 ∧ ∃ s outhead, s.Fresh ∧
      ConvFileReturnsFrom host e ic cd n outhead linesizemax s r := by
  obtain ⟨fuel, hfuel⟩ := h
  obtain ⟨hpos, fuel', xmlhead, s, hparse⟩ := hhead
  obtain ⟨hfresh, hlt⟩ := fresh_of_findsHead hpos hparse
  rw [convdConvXmlfile] at hfuel
  rcases hparse' : xmlFileParseHead host e fuel ⟨.noneBom, e.heap⟩ Sys.init with _ | r'
  · rw [hparse'] at hfuel
    cases hfuel
  · obtain rfl := xmlFileParseHead_unique hparse' hparse
    rw [hparse'] at hfuel
    simp only [if_pos (Int.natCast_pos.mpr hpos), Int.toNat_natCast] at hfuel
    exact ⟨hlt, s, _, hfresh, fuel, hfuel⟩

/-! ## The body -/

/-- The body was handed over: it is whole units, and exactly these. -/
def HandsOver (host : Endian) (bom : UcsBom) (body : List UInt8) (log : List Event) : Prop :=
  unitWidth bom ∣ body.length ∧ (handed log).flatten
    = convertUnits (lineConvert host bom) (unitWidth bom) (body.length / unitWidth bom) body

theorem HandsOver.length_eq {host : Endian} {bom : UcsBom} {body : List UInt8} {log : List Event}
    (h : HandsOver host bom body log) : (handed log).flatten.length = body.length := by
  rw [h.2, length_convertUnits (length_lineConvert host bom) _ _ (Nat.div_mul_le_self _ _),
    Nat.div_mul_cancel h.1]

/-- Without a mark the body is handed over as it is. -/
theorem handsOver_noneBom_iff {host : Endian} {body : List UInt8} {log : List Event} :
    HandsOver host .noneBom body log ↔ (handed log).flatten = body := by
  have hself : ∀ u, lineConvert host .noneBom u = u := boBytesLetoh_eq host
  have hone : unitWidth .noneBom = 1 := rfl
  rw [HandsOver, convertUnits_self hself, hone, Nat.div_one, Nat.mul_one, List.take_length]
  exact and_iff_right (Nat.one_dvd _)

section Call

variable {host : Endian} {e : Env} {ic : Iconv σ} {cd : σ} {tocode : List UInt8}
  {linesizemax : UInt32} {bom : UcsBom} {r : FileResult}

/-- Whatever is handed over comes from behind the mark and the head. -/
theorem handed_of_noerror {inoffset : Nat} {outhead : List UInt8} {s : Sys} (h₀ : s.Fresh)
    (h : ConvFileReturnsFrom host e ic cd inoffset outhead linesizemax s r)
    (hbom : StartsWithBom e.file bom) (hin : bomLength bom + inoffset < 2 ^ 63)
    (hdropped : DroppedOk r.sys.log) (hret : r.ret = convdNoerror)
    (hruns : isText bom = true → ∀ run ∈ List.runs topBit (e.file.drop (bomLength bom + inoffset)),
      run.length < (lineSize linesizemax).toNat) :
    bom ≠ .utf8BomAsk ∧
      (handed r.sys.log).flatten.length ≤ (e.file.drop (bomLength bom + inoffset)).length ∧
      (isText bom = true →
        (handed r.sys.log).flatten = e.file.drop (bomLength bom + inoffset)) := by
  have hlines : ∃ lines left, Lines host bom (lineSize linesizemax).toNat
      (e.file.drop (bomLength bom + inoffset)) lines left ∧
      lines.flatten.length ≤ (e.file.drop (bomLength bom + inoffset)).length ∧
      (isText bom = true → lines.flatten = e.file.drop (bomLength bom + inoffset)) := by
    rcases htext : isText bom with _ | _
    · obtain ⟨k, lines, hk, hlines, hflat, -⟩ := @lines_units host bom _ htext
        (lineSize linesizemax).toNat_lt (e.file.drop (bomLength bom + inoffset))
      refine ⟨lines, _, hlines, ?_, fun h => nomatch h⟩
      rw [hflat, length_convertUnits (length_lineConvert host bom) _ _ hk]
      exact hk
    · obtain ⟨lines, hlines, hflat⟩ := lines_text_flatten htext _ (hruns htext)
      exact ⟨lines, [], hlines, Nat.le_of_eq (congrArg List.length hflat), fun _ => hflat⟩
  obtain ⟨lines, left, hlines, hlen, htext⟩ := hlines
  rcases h.runs h₀ hbom hdropped hin hlines with
    ⟨-, ⟨herr, -⟩ | ⟨herr, -⟩⟩ | ⟨pos, st, hst, hrun⟩
  · exact absurd (herr.symm.trans hret) (convdErr_ne convdErrFile (by decide))
  · exact absurd (herr.symm.trans hret) (convdErr_ne convdErrEncoding (by decide))
  · cases hrun with
    | done outs s' evs _ hlog _ hhanded _ =>
        rw [hlog, handed_append, hst.handed_eq, hhanded, List.nil_append]
        exact ⟨hst.bom_ne, hlen, htext⟩
    | refused => exact absurd hret (convdErr_ne convdErrIconv (by decide))
    | fileFails => exact absurd hret (convdErr_ne convdErrFile (by decide))

/-- A call that ended in success, with lines that are long enough, has handed over the body
and nothing else if and only if the file has no mark, or there is no body. -/
theorem convdConvXmlfile_handsOver_iff {n : Nat} (hbom : StartsWithBom e.file bom)
    (hhead : FindsHead host e n)
    (h : ConvXmlfileReturns host e ic cd tocode linesizemax r) (hret : r.ret = convdNoerror)
    (hdropped : DroppedOk r.sys.log)
    (hruns : isText bom = true → ∀ run ∈ List.runs topBit (e.file.drop n),
      run.length < (lineSize linesizemax).toNat) :
    HandsOver host bom (e.file.drop n) r.sys.log ↔ bom = .noneBom ∨ e.file.drop n = [] := by
  obtain ⟨hn, s, outhead, hfresh, hcall⟩ := h.convFile hhead
  have hbl := bomLength_le bom
  have hdrop : e.file.drop (bomLength bom + n) = (e.file.drop n).drop (bomLength bom) := by
    rw [List.drop_drop, Nat.add_comm]
  obtain ⟨hask, hlen, htext⟩ := handed_of_noerror hfresh hcall hbom (by omega) hdropped hret
    fun ht => hdrop ▸ List.length_lt_of_mem_runs_drop topBit _ (hruns ht)
  rw [hdrop] at hlen htext
  rw [List.length_drop] at hlen
  constructor
  · intro hhands
    have heq := hhands.length_eq
    by_cases hnone : bom = .noneBom
    · exact .inl hnone
    · -- the mark is skipped once more, and the body would have to be as short
      have hpos : 0 < bomLength bom := by
        cases bom <;> first | exact absurd rfl hnone | exact absurd rfl hask | decide
      exact .inr (List.length_eq_zero_iff.mp (by omega))
  · rintro (rfl | hnil)
    · exact handsOver_noneBom_iff.mpr (htext rfl)
    · rw [hnil] at hlen ⊢
      rw [List.length_nil, Nat.zero_sub, Nat.le_zero, List.length_eq_zero_iff] at hlen
      refine ⟨Nat.dvd_zero _, ?_⟩
      rw [hlen, List.length_nil, Nat.zero_div]
      rfl

end Call

/-- A document of one line, its mark first. -/
def xmlDocument (bom : UcsBom) : List UInt8 :=
  bomBytes bom ++ ascii "<?xml version=\"1.0\"?>abcd"

/-- A file with that document. -/
def xmlEnv (bom : UcsBom) (h : (xmlDocument bom).length < 2 ^ 63) : Env :=
  .bytewise (xmlDocument bom) h fun _ => false

/-- Converting the document into UTF-8. -/
def xmlCall (bom : UcsBom) (h : (xmlDocument bom).length < 2 ^ 63) : Option FileResult :=
  convdConvXmlfile .little (xmlEnv bom h) (.ofFun fun _ => some []) 32 () (ascii "UTF-8") 64
    Sys.init

theorem findsHead_of_any {host : Endian} {e : Env} {n : Nat} (fuel : Nat) (hpos : 0 < n)
    (h : (xmlFileParseHead host e fuel ⟨.noneBom, e.heap⟩ Sys.init).any (·.1 == (n : Int)) = true) :
    FindsHead host e n := by
  obtain ⟨⟨ret, xmlhead, s⟩, hr, hn⟩ := (Option.any_eq_true _ _).mp h
  obtain rfl : ret = n := beq_iff_eq.mp hn
  exact ⟨hpos, fuel, xmlhead, s, hr⟩

theorem convdConvXmlfile_handsOver_iff_document :
    ∃ r, xmlCall .noneBom (by decide) = some r ∧
      (HandsOver .little .noneBom ((xmlDocument .noneBom).drop 21) r.sys.log ↔
        UcsBom.noneBom = .noneBom ∨ (xmlDocument .noneBom).drop 21 = []) := by
  have hcall : (xmlCall .noneBom (by decide)).any (fun r => r.ret == convdNoerror &&
      decide (DroppedOk r.sys.log)) = true := by decide +kernel
  obtain ⟨r, hr, hand⟩ := (Option.any_eq_true _ _).mp hcall
  obtain ⟨hret, hdropped⟩ := (Bool.and_eq_true _ _).mp hand
  exact ⟨r, hr, @convdConvXmlfile_handsOver_iff Unit .little (xmlEnv .noneBom (by decide))
    (.ofFun fun _ => some []) () (ascii "UTF-8") 64 .noneBom r 21 (by decide)
    (findsHead_of_any 32 (by decide) (by decide +kernel)) ⟨32, hr⟩
    (beq_iff_eq.mp hret) (of_decide_eq_true hdropped) (fun _ => by decide)⟩

/-- Behind a UTF-8 mark three letters of the body are lost, and the result is success. -/
theorem convdConvXmlfile_loses_body :
    ¬ ∀ (host : Endian) (e : Env) (ic : Iconv Unit) (tocode : List UInt8) (linesizemax : UInt32)
      (bom : UcsBom) (n : Nat) (r : FileResult), StartsWithBom e.file bom → FindsHead host e n →
      ConvXmlfileReturns host e ic () tocode linesizemax r → r.ret = convdNoerror →
      AllOk r.sys.log →
      (isText bom = true → ∀ run ∈ List.runs topBit (e.file.drop n),
        run.length < (lineSize linesizemax).toNat) →
      HandsOver host bom (e.file.drop n) r.sys.log := by
  intro hhandsOver
  have hcall : (xmlCall .utf8Bom (by decide)).any (fun r => r.ret == convdNoerror &&
      decide (AllOk r.sys.log) && (handed r.sys.log).flatten == ascii "d") = true := by
    decide +kernel
  obtain ⟨r, hr, hand⟩ := (Option.any_eq_true _ _).mp hcall
  obtain ⟨hand', hhanded⟩ := (Bool.and_eq_true _ _).mp hand
  obtain ⟨hret, hok⟩ := (Bool.and_eq_true _ _).mp hand'
  have hhands := hhandsOver .little (xmlEnv .utf8Bom (by decide)) (.ofFun fun _ => some [])
    (ascii "UTF-8") 64 .utf8Bom 24 r (by decide)
    (findsHead_of_any 32 (by decide) (by decide +kernel)) ⟨32, hr⟩
    (beq_iff_eq.mp hret) (of_decide_eq_true hok) (fun _ => by decide)
  have hlen := hhands.length_eq
  rw [beq_iff_eq.mp hhanded] at hlen
  exact absurd hlen (by decide)

end Convd
