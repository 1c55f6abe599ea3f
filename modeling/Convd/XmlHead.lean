/-
# `Convd.XmlHead` — formatting and parsing the XML declaration

`conv_xmlhead_format` writes `<?xml version="V" encoding="E"?>` behind a mark, one
character a unit; `XML_text_parse_head` reads units up to the first `>` into
`headbuf[128]` and looks the two attributes up there.

The source writes the scan out five times and the UCS writers four times.  The
copies differ in the width of a unit and in how a unit is made a `char`, so each
is one definition with these as parameters.

What the two functions touch is part of their result: every access to the caller's
buffer, to `headbuf` and to `*xmlhead` is listed, in order (`Access`), and memory
past an object's end keeps what is written there, so that a copy that runs over
`version` is still found where it went.
-/
import Convd.Bom
import Convd.ByteOrder
import Convd.Lib.Loop

namespace Convd

open CString

/-! ## Accesses -/

/-- The objects the functions of this module touch. -/
inductive Obj where
  | input
  | output
  | headbuf
  | version
  | encoding
  deriving DecidableEq, Repr

/-- One access: `span.len` bytes of `obj` from `span.off` on. -/
structure Access where
  obj : Obj
  span : Span
  deriving DecidableEq, Repr

/-- `sizeof(headbuf)` -/
def headbufSize : Nat := 128

/-- The size of an object; that of the caller's buffers is the caller's. -/
def Obj.size (blen : Nat) : Obj → Nat
  | .input | .output => blen
  | .headbuf => headbufSize
  | .version => versionSize
  | .encoding => cvdEncodingLenMax

/-- The access stays inside its object. -/
def Access.InBounds (blen : Nat) (a : Access) : Prop := a.span.Within (a.obj.size blen)

instance (blen : Nat) (a : Access) : Decidable (a.InBounds blen) :=
  inferInstanceAs (Decidable (a.span.Within _))

/-! ## Helpers of `cstrbuf.h` and `unitypes.h` -/

/-- `cstr_startwith(str, count, start, startlen)` on two different pointers. -/
def cstrStartwith (str start : List UInt8) : Bool :=
  decide (start.length ≤ str.length) && str.take start.length == start

/-- `cstr_toupper` on a string. -/
def cstrToupper (s : List UInt8) : List UInt8 := s.map toupper

/-- `snprintf_chkd_V1` of a text: what lands in the buffer before its NUL.  The
length returned is the length of this. -/
def snprintfChkdV1 (bufsize : Nat) (text : List UInt8) : List UInt8 := text.take (bufsize - 1)

/-- `cstr_safecopy`: whether all was copied, the buffer after, and the writes. -/
def cstrSafecopy (dstbuf : Mem UInt8) (dstbufsize dstoffset : Nat) (source : List UInt8) :
    Bool × Mem UInt8 × List Span :=
  if dstoffset + source.length < dstbufsize then
    (true, (dstbuf.store dstoffset source).store (dstoffset + source.length) [0],
      [⟨dstoffset, source.length⟩, ⟨dstoffset + source.length, 1⟩])
  else
    let (dst, writes) :=
      if dstoffset < dstbufsize then
        let cplen := dstbufsize - dstoffset
        let dst := dstbuf.store dstoffset (source.take cplen)
        if dstbufsize > 3 then
          (dst.store (dstbufsize - 4) [46, 46, 46], [⟨dstoffset, cplen⟩, ⟨dstbufsize - 4, 3⟩])
        else (dst, [⟨dstoffset, cplen⟩])
      else (dstbuf, [])
    -- `dstbufsize - 1` is a `size_t`: of an empty buffer it is the largest one
    let last := toSizeT (dstbufsize - 1)
    (false, dst.store last [0], writes ++ [⟨last, 1⟩])

/-! ## `conv_xmlhead_format` -/

/-- What `conv_xmlhead_format` returns and leaves behind. -/
structure FormatResult where
  ret : Int
  bufp : Mem UInt8
  log : List Access

/-- The `char` promoted to a signed word of `w` bytes. -/
def signExtend (w : Nat) (c : UInt8) : Nat :=
  if c.toNat < 128 then c.toNat else 256 ^ w - 256 + c.toNat

/-- A character as the unit written for it, e.g. `be2 = (ub2) BO_i16_htobe(headbuf[i])`. -/
def unitBytes (host : Endian) (bom : UcsBom) (c : UInt8) : List UInt8 :=
  match bom with
  | .ucs2beBom => host.image 2 (boI16Htobe host (signExtend 2 c))
  | .ucs2leBom => host.image 2 (boI16Htole host (signExtend 2 c))
  | .ucs4beBom => host.image 4 (boI32Htobe host (signExtend 4 c))
  | .ucs4leBom => host.image 4 (boI32Htole host (signExtend 4 c))
  | .noneBom | .utf8Bom | .utf8BomAsk => [c]

/-- The loop of the UCS writers: unit `i` goes to `w * i + bomlen`. -/
def writeUnits (unit : UInt8 → List UInt8) (w : Nat) :
    List UInt8 → Nat → Mem UInt8 → Mem UInt8 × List Access
  | [], _, m => (m, [])
  | c :: cs, off, m =>
      let (m', log) := writeUnits unit w cs (off + w) (m.store off (unit c))
      (m', ⟨.output, ⟨off, w⟩⟩ :: log)

/-- The body of the four UCS cases. -/
def formatUnits (host : Endian) (bom : UcsBom) (headbuf : List UInt8) (output : ConvBuf) :
    FormatResult :=
  let w := unitWidth bom
  if toInt output.blen > headbuf.length * w + w then
    let (m, log) := writeUnits (unitBytes host bom) w headbuf w (output.bufp.store 0 (bomBytes bom))
    ⟨headbuf.length * w + w, m, ⟨.output, ⟨0, w⟩⟩ :: log⟩
  else ⟨0, output.bufp, []⟩

/-- The text of the declaration, before it is cut to the buffer. -/
def headText (version encoding : List UInt8) : List UInt8 :=
  ascii "<?xml version=\"" ++ version ++ ascii "\" encoding=\"" ++ encoding ++ ascii "\"?>"

/-- `conv_xmlhead_format` -/
def convXmlheadFormat (host : Endian) (xmlhead : ConvXmlhead) (output : ConvBuf) : FormatResult :=
  let headbuf := snprintfChkdV1 headbufSize (headText xmlhead.version xmlhead.encoding)
  let writes (l : List Span) : List Access := l.map (⟨.output, ·⟩)
  match xmlhead.bom with
  | .noneBom =>
      let (ok, m, log) := cstrSafecopy output.bufp output.blen 0 headbuf
      ⟨if ok then headbuf.length else 0, m, writes log⟩
  | .utf8Bom =>
      -- the mark is written before the size is looked at
      let m := output.bufp.store 0 (bomBytes .utf8Bom)
      let (ok, m, log) := cstrSafecopy m output.blen 3 headbuf
      ⟨if ok then headbuf.length + 3 else 0, m, writes (⟨0, 3⟩ :: log)⟩
  | .ucs2beBom => formatUnits host .ucs2beBom headbuf output
  | .ucs2leBom => formatUnits host .ucs2leBom headbuf output
  | .ucs4beBom => formatUnits host .ucs4beBom headbuf output
  | .ucs4leBom => formatUnits host .ucs4leBom headbuf output
  | .utf8BomAsk => ⟨-1, output.bufp, []⟩

/-! ## `XML_text_parse_head`: the scan -/

/-- The unit at `offset` as a `char`, e.g. `(char) BO_bytes_betoh_i16(&bufp[offset])`. -/
def unitChar (host : Endian) (bom : UcsBom) (b : List UInt8) : UInt8 :=
  match bom with
  | .ucs2beBom => UInt8.ofNat (boBytesBetohI16 host b)
  | .ucs2leBom => UInt8.ofNat (boBytesLetohI16 host b)
  | .ucs4beBom => UInt8.ofNat (boBytesBetohI32 host b)
  | .ucs4leBom => UInt8.ofNat (boBytesLetohI32 host b)
  | .noneBom | .utf8Bom | .utf8BomAsk => b.headD 0

/-- Where the scan stands: `head` is `headbuf[0..headlen)`. -/
structure ScanState where
  offset : Nat
  head : List UInt8
  log : List Access

/-- How the scan ends. -/
structure ScanResult where
  found : Bool
  offset : Nat
  head : List UInt8
  log : List Access

/-- `'>'` -/
def gt : UInt8 := 62

/-- One turn of `while (offset + w - 1 < (int) blen)`.  With 127 characters in
`headbuf` the body does nothing, the offset included. -/
def scanTurn (x : ConvBuf) (w : Nat) (char : List UInt8 → UInt8) (s : ScanState) :
    Loop.Turn ScanState ScanResult :=
  if ((s.offset + (w - 1) : Nat) : Int) < toInt x.blen then
    if s.head.length < headbufSize - 1 then
      let c := char (x.bufp.load s.offset w)
      let headlen := s.head.length
      let log := s.log ++ [⟨.input, ⟨s.offset, w⟩⟩, ⟨.headbuf, ⟨headlen, 1⟩⟩]
      if c = gt then
        .leave ⟨true, s.offset + w, s.head ++ [c], log ++ [⟨.headbuf, ⟨headlen + 1, 1⟩⟩]⟩
      else .again ⟨s.offset + w, s.head ++ [c], log⟩
    else .again s
  else .leave ⟨false, s.offset, s.head, s.log⟩

/-! ## `XML_text_parse_head`: the attributes -/

/-- What `XML_text_parse_head` returns and leaves in `*xmlhead`. -/
structure HeadResult where
  ret : Int
  xmlhead : ConvXmlhead
  log : List Access

/-- `"version=\""` -/
def versionAttr : List UInt8 := ascii "version=\""

/-- `"encoding=\""` -/
def encodingAttr : List UInt8 := ascii "encoding=\""

/-- The attribute `name` of the head: where its value starts and the value, up to
the next quote.  None when the name is absent or no quote follows. -/
def attrValue (name headbuf : List UInt8) : Option (Nat × List UInt8) :=
  match strstr name headbuf with
  | none => none
  | some start =>
      let s := start + name.length
      (strstr [34] (headbuf.drop s)).map fun n => (s, (headbuf.drop s).take n)

theorem attrValue_eq_none {name headbuf : List UInt8} (h : strstr name headbuf = none) :
    attrValue name headbuf = none := by
  rw [attrValue, h]

theorem strstr_isSome_of_attrValue {name headbuf v : List UInt8} {s : Nat}
    (h : attrValue name headbuf = some (s, v)) : (strstr name headbuf).isSome = true := by
  by_contra hnone
  rw [attrValue_eq_none (Option.not_isSome_iff_eq_none.mp hnone)] at h
  cases h

/-- What is behind the start of a value: the value and its quote. -/
theorem attrValue_split {name headbuf v : List UInt8} {s : Nat}
    (h : attrValue name headbuf = some (s, v)) :
    34 ∉ v ∧ ∃ rest, headbuf.drop s = v ++ 34 :: rest := by
  rw [attrValue] at h
  split at h
  · cases h
  · obtain ⟨n, hn, heq⟩ := Option.map_eq_some_iff.mp h
    obtain ⟨hle, ⟨rest, hrest⟩, hfirst⟩ := strstr_eq_some_iff.mp hn
    cases heq
    refine ⟨fun hmem => ?_, rest, ?_⟩
    · obtain ⟨i, hi⟩ := List.mem_iff_getElem?.mp hmem
      have hlt : i < n := by
        have := (List.getElem?_eq_some_iff.mp hi).1
        rw [List.length_take] at this
        omega
      rw [List.getElem?_take_of_lt hlt] at hi
      apply hfirst i hlt
      obtain ⟨hi', hget⟩ := List.getElem?_eq_some_iff.mp hi
      rw [List.drop_eq_getElem_cons hi', hget]
      exact List.prefix_append [34] _
    · rw [← List.singleton_append, hrest, List.take_append_drop]

/-- The tests on `headbuf`, without `found`. -/
def looksLikeHead (headbuf : List UInt8) : Bool :=
  let headlen := headbuf.length
  decide (headlen > 20) && cstrStartwith headbuf (ascii "<?xml ") &&
    headbuf[headlen - 2]? == some 63 && headbuf[headlen - 1]? == some gt

/-- The head is taken for a declaration. -/
def acceptsHead (r : ScanResult) : Bool := r.found && looksLikeHead r.head

/-- What deciding that reads of `headbuf`, as far as the tests get. -/
def acceptsHeadReads (r : ScanResult) : List Access :=
  let headlen := r.head.length
  if r.found && decide (headlen > 20) then
    ⟨.headbuf, ⟨0, 6⟩⟩ ::
      if cstrStartwith r.head (ascii "<?xml ") then
        ⟨.headbuf, ⟨headlen - 2, 1⟩⟩ ::
          if r.head[headlen - 2]? == some 63 then [⟨.headbuf, ⟨headlen - 1, 1⟩⟩] else []
      else []
  else []

/-- `memcpy(xmlhead->version, s, end - s)` and the NUL behind it.  Only a value of
more than one byte is copied; nothing is asked of its length otherwise. -/
def copyVersion (headbuf : List UInt8) (h : ConvXmlhead) : ConvXmlhead × List Access :=
  match attrValue versionAttr headbuf with
  | some (s, v) =>
      if v.length > 1 then
        ({ h with fields := (h.fields.store 0 v).store v.length [0] },
          [⟨.headbuf, ⟨s, v.length⟩⟩, ⟨.version, ⟨0, v.length⟩⟩, ⟨.version, ⟨v.length, 1⟩⟩])
      else (h, [])
  | none => (h, [])

/-- `memcpy(xmlhead->encoding, s, end - s)`, its NUL, and `cstr_toupper` in place. -/
def copyEncoding (headbuf : List UInt8) (h : ConvXmlhead) : ConvXmlhead × List Access :=
  match attrValue encodingAttr headbuf with
  | some (s, v) =>
      if v.length > 0 ∧ v.length < cvdEncodingLenMax then
        let fields := (h.fields.store versionSize v).store (versionSize + v.length) [0]
        ({ h with fields := fields.store versionSize (cstrToupper v) },
          [⟨.headbuf, ⟨s, v.length⟩⟩, ⟨.encoding, ⟨0, v.length⟩⟩, ⟨.encoding, ⟨v.length, 1⟩⟩,
            ⟨.encoding, ⟨0, v.length⟩⟩])
      else (h, [])
  | none => (h, [])

/-- The part after the `switch`. -/
def headAttributes (bom : UcsBom) (r : ScanResult) : HeadResult :=
  let xmlhead : ConvXmlhead := ⟨bom, fun _ => 0⟩
  let log := r.log ++ acceptsHeadReads r
  if acceptsHead r then
    let headbuf := cstr r.head
    -- a search reads to the NUL
    let log := log ++ [⟨.headbuf, ⟨0, headbuf.length + 1⟩⟩]
    if (strstr versionAttr headbuf).isSome then
      let (xmlhead, log1) := copyVersion headbuf xmlhead
      let (xmlhead, log2) := copyEncoding headbuf xmlhead
      ⟨r.offset, xmlhead, log ++ log1 ++ log2⟩
    else ⟨0, xmlhead, log⟩
  else ⟨0, xmlhead, log⟩

/-- `XML_text_parse_head`; none when the scan has not ended on this fuel. -/
def xmlTextParseHead (host : Endian) (fuel : Nat) (xmltext : ConvBuf) : Option HeadResult :=
  let bom := ucsTextDetectBom xmltext
  let start : ScanState := ⟨bomLength bom, [], (ucsTextDetectBomReads xmltext).map (⟨.input, ·⟩)⟩
  (Loop.run (scanTurn xmltext (unitWidth bom) (unitChar host bom)) fuel start).map
    (headAttributes bom)

end Convd
