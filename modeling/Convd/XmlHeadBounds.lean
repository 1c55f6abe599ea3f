/-
# `Convd.XmlHeadBounds` — what parsing a head touches

Every access of `XML_text_parse_head` stays inside its object but one kind: the
copy of the version.  `encoding` is copied under a test of its length, `version`
is not, and `headbuf` has room for a value much longer than `version[16]`.  What
does not fit runs on into `encoding`, the next field.

    the mark, the scan, the tests on `headbuf`     always in bounds
    `copyEncoding`                                 always in bounds
    `copyVersion`                                  in bounds iff the value has ≤ 15 bytes
-/
import Convd.XmlHeadScan

namespace Convd

open CString Loop

/-! ## The scan -/

theorem ucsTextDetectBomReads_within (x : ConvBuf) :
    ∀ a ∈ ucsTextDetectBomReads x, a.Within x.blen := by
  intro a ha
  rw [ucsTextDetectBomReads] at ha
  split_ifs at ha <;>
    simp only [List.mem_cons, List.not_mem_nil, or_false] at ha
  · rcases ha with rfl | rfl
    · show 2 ≤ x.blen
      assumption
    · show 4 ≤ x.blen
      assumption
  · rw [ha]
    assumption
  · rw [ha]
    assumption
  · rcases ha with rfl | rfl
    · show 2 ≤ x.blen
      assumption
    · show 3 ≤ x.blen
      omega
  · rw [ha]
    assumption

/-- What holds of the scan between two turns. -/
structure ScanSafe (x : ConvBuf) (s : ScanState) : Prop where
  head : s.head.length ≤ headbufSize - 1
  log : ∀ a ∈ s.log, a.InBounds x.blen

/-- What holds of the scan when it has ended. -/
structure ResultSafe (x : ConvBuf) (r : ScanResult) : Prop where
  head : r.head.length ≤ headbufSize - 1
  log : ∀ a ∈ r.log, a.InBounds x.blen

section Scan

variable {x : ConvBuf} {w : Nat} {char : List UInt8 → UInt8}

/-- Reading one unit and storing its character. -/
theorem turn_accesses_inBounds (hw : 0 < w) {s : ScanState}
    (hlt : ((s.offset + (w - 1) : Nat) : Int) < toInt x.blen)
    (hroom : s.head.length < headbufSize - 1) (hs : ScanSafe x s) :
    ∀ a ∈ s.log ++ [⟨.input, ⟨s.offset, w⟩⟩, ⟨.headbuf, ⟨s.head.length, 1⟩⟩],
      a.InBounds x.blen := by
  have hle := toInt_le x.blen
  intro a ha
  rcases List.mem_append.mp ha with ha | ha
  · exact hs.log a ha
  · simp only [List.mem_cons, List.not_mem_nil, or_false] at ha
    rcases ha with rfl | rfl
    · show s.offset + w ≤ x.blen
      omega
    · show s.head.length + 1 ≤ headbufSize
      omega

theorem ScanSafe.again (hw : 0 < w) {s s' : ScanState} (hs : ScanSafe x s)
    (h : scanTurn x w char s = .again s') : ScanSafe x s' := by
  simp only [scanTurn] at h
  split_ifs at h with hlt hroom
  · cases h
    refine ⟨?_, turn_accesses_inBounds hw hlt hroom hs⟩
    rw [List.length_append, List.length_singleton]
    exact hroom
  · cases h
    exact hs

theorem ScanSafe.leave (hw : 0 < w) {s : ScanState} {r : ScanResult} (hs : ScanSafe x s)
    (h : scanTurn x w char s = .leave r) : ResultSafe x r := by
  simp only [scanTurn] at h
  split_ifs at h with hlt hroom
  · cases h
    refine ⟨?_, ?_⟩
    · rw [List.length_append, List.length_singleton]
      exact hroom
    · intro a ha
      rcases List.mem_append.mp ha with ha | ha
      · exact turn_accesses_inBounds hw hlt hroom hs a ha
      · rw [List.mem_singleton.mp ha]
        show s.head.length + 1 + 1 ≤ headbufSize
        omega
  · cases h
    exact ⟨hs.head, hs.log⟩

end Scan

theorem scan_safe {host : Endian} {x : ConvBuf} {r : ScanResult}
    (h : Returns (scanOf host x) (scanStart x) r) : ResultSafe x r := by
  have hw := unitWidth_pos (ucsTextDetectBom x)
  have hstart : ScanSafe x (scanStart x) := by
    refine ⟨Nat.zero_le _, fun a ha => ?_⟩
    obtain ⟨b, hb, rfl⟩ := List.mem_map.mp ha
    exact ucsTextDetectBomReads_within x b hb
  obtain ⟨n, hn⟩ := h
  exact run_invariant (P := ScanSafe x) (Q := ResultSafe x) (fun _ _ hs ht => hs.again hw ht)
    (fun _ _ hs ht => hs.leave hw ht) hstart hn

/-! ## The attributes -/

/-- A value is followed by its quote. -/
theorem attrValue_lt {name headbuf v : List UInt8} {s : Nat}
    (h : attrValue name headbuf = some (s, v)) : s + v.length < headbuf.length := by
  obtain ⟨-, rest, hdrop⟩ := attrValue_split h
  have hlen := congrArg List.length hdrop
  rw [List.length_drop, List.length_append, List.length_cons] at hlen
  omega

/-- Each test looks at a byte below `headlen`, which is above 20 when it is made. -/
theorem acceptsHeadReads_inBounds {x : ConvBuf} {r : ScanResult} (h : ResultSafe x r) :
    ∀ a ∈ acceptsHeadReads r, a.InBounds x.blen := by
  have hlen := h.head
  have hin : ∀ off len, off + len ≤ r.head.length →
      (⟨.headbuf, ⟨off, len⟩⟩ : Access).InBounds x.blen := by
    intro off len hle
    show off + len ≤ headbufSize
    omega
  simp only [acceptsHeadReads]
  split_ifs with htest hstart hmark
  all_goals
    simp only [List.forall_mem_cons, List.not_mem_nil, false_imp_iff, implies_true, and_true]
  all_goals
    rw [Bool.and_eq_true, decide_eq_true_iff] at htest
  · exact ⟨hin 0 6 (by omega), hin _ 1 (by omega), hin _ 1 (by omega)⟩
  · exact ⟨hin 0 6 (by omega), hin _ 1 (by omega)⟩
  · exact hin 0 6 (by omega)

theorem copyVersion_inBounds_iff {headbuf : List UInt8} (hlen : headbuf.length < headbufSize)
    (h : ConvXmlhead) (blen : Nat) :
    (∀ a ∈ (copyVersion headbuf h).2, a.InBounds blen) ↔
      ∀ s v, attrValue versionAttr headbuf = some (s, v) → v.length < versionSize := by
  cases hv : attrValue versionAttr headbuf with
  | none => simp [copyVersion, hv]
  | some p =>
      obtain ⟨s, v⟩ := p
      have hsv := attrValue_lt hv
      by_cases hlong : v.length > 1
      · simp [copyVersion, hv, hlong, Access.InBounds, Span.Within, Obj.size]
        omega
      · simp [copyVersion, hv, hlong, versionSize]
        omega

theorem copyEncoding_inBounds {headbuf : List UInt8} (hlen : headbuf.length < headbufSize)
    (h : ConvXmlhead) (blen : Nat) : ∀ a ∈ (copyEncoding headbuf h).2, a.InBounds blen := by
  cases hv : attrValue encodingAttr headbuf with
  | none => simp [copyEncoding, hv]
  | some p =>
      obtain ⟨s, v⟩ := p
      have hsv := attrValue_lt hv
      by_cases hfits : v.length > 0 ∧ v.length < cvdEncodingLenMax
      · simp [copyEncoding, hv, hfits, Access.InBounds, Span.Within, Obj.size]
        omega
      · simp [copyEncoding, hv, hfits]

/-- A version that fits leaves `encoding` as the `memset` made it. -/
theorem encoding_copyVersion {headbuf : List UInt8} {bom : UcsBom}
    (hfits : ∀ s v, attrValue versionAttr headbuf = some (s, v) → v.length < versionSize) :
    (copyVersion headbuf ⟨bom, fun _ => 0⟩).1.encoding = [] := by
  have hzero : cstr (Mem.load (fun _ => (0 : UInt8)) versionSize cvdEncodingLenMax) = [] := rfl
  cases hv : attrValue versionAttr headbuf with
  | none => simp [copyVersion, hv, ConvXmlhead.encoding, hzero]
  | some p =>
      obtain ⟨s, v⟩ := p
      have hlen := hfits s v hv
      by_cases hlong : v.length > 1
      · simp only [copyVersion, hv, if_pos hlong, ConvXmlhead.encoding]
        have hcopy : 0 + v.length ≤ versionSize := by omega
        rw [Mem.load_store_of_disjoint _ (.inr hlen), Mem.load_store_of_disjoint _ (.inr hcopy),
          hzero]
      · simp only [copyVersion, hv, if_neg hlong, ConvXmlhead.encoding, hzero]

/-- Without an encoding attribute the field stays empty, if the version fits. -/
theorem encoding_headAttributes {bom : UcsBom} {r : ScanResult}
    (hfits : acceptsHead r →
      ∀ s v, attrValue versionAttr (cstr r.head) = some (s, v) → v.length < versionSize)
    (henc : acceptsHead r → strstr encodingAttr (cstr r.head) = none) :
    (headAttributes bom r).xmlhead.encoding = [] := by
  have hzero : (⟨bom, fun _ => 0⟩ : ConvXmlhead).encoding = [] := rfl
  simp only [headAttributes]
  split_ifs with haccept hversion
  · have hnone := attrValue_eq_none (henc haccept)
    simp only [copyEncoding, hnone]
    exact encoding_copyVersion (hfits haccept)
  · exact hzero
  · exact hzero

theorem headAttributes_inBounds_iff {x : ConvBuf} {r : ScanResult} (bom : UcsBom)
    (hr : ResultSafe x r) :
    (∀ a ∈ (headAttributes bom r).log, a.InBounds x.blen) ↔ (acceptsHead r →
      ∀ s v, attrValue versionAttr (cstr r.head) = some (s, v) → v.length < versionSize) := by
  have hlen : (cstr r.head).length < headbufSize := by
    have := cstr_length_le r.head
    have := hr.head
    simp only [headbufSize] at *
    omega
  have hreads := acceptsHeadReads_inBounds hr
  have hsearch : (⟨.headbuf, ⟨0, (cstr r.head).length + 1⟩⟩ : Access).InBounds x.blen := by
    show 0 + ((cstr r.head).length + 1) ≤ headbufSize
    omega
  have hcopy := copyVersion_inBounds_iff hlen ⟨bom, fun _ => 0⟩ x.blen
  simp only [headAttributes]
  split_ifs with haccept hversion
  · simp only [List.forall_mem_append, List.forall_mem_singleton]
    constructor
    · rintro ⟨⟨-, h⟩, -⟩ -
      exact hcopy.mp h
    · intro h
      exact ⟨⟨⟨⟨hr.log, hreads⟩, hsearch⟩, hcopy.mpr (h haccept)⟩,
        copyEncoding_inBounds hlen _ _⟩
  · have hnone : attrValue versionAttr (cstr r.head) = none :=
      attrValue_eq_none (Option.not_isSome_iff_eq_none.mp hversion)
    simp only [List.forall_mem_append, List.forall_mem_singleton, hnone]
    constructor
    · intro _ _ s v h
      cases h
    · intro _
      exact ⟨⟨hr.log, hreads⟩, hsearch⟩
  · simp only [List.forall_mem_append]
    constructor
    · intro _ h
      exact absurd h haccept
    · intro _
      exact ⟨hr.log, hreads⟩

/-! ## The whole call -/

/-- The declaration at the start of `x`, as the string the attributes are looked
up in: the units through the first `>`, if that is among the first 127 and the
tests on them succeed. -/
def xmlHead (host : Endian) (x : ConvBuf) : Option (List UInt8) :=
  let units := (headUnits host x).take (headbufSize - 1)
  let headbuf := units.takeWhile (· ≠ gt) ++ [gt]
  if gt ∈ units ∧ looksLikeHead headbuf then some (cstr headbuf) else none

theorem takeWhile_ne_gt {pre post : List UInt8} (h : gt ∉ pre) :
    (pre ++ gt :: post).takeWhile (· ≠ gt) = pre := by
  rw [List.takeWhile_append_of_pos, List.takeWhile_cons_of_neg, List.append_nil]
  · simp
  · intro c hc
    have hne : c ≠ gt := fun heq => h (heq ▸ hc)
    simpa using hne

theorem xmlHead_of_reads {host : Endian} {x : ConvBuf} {r : ScanResult}
    (h : ScanReads (headUnits host x) r) :
    xmlHead host x = if acceptsHead r then some (cstr r.head) else none := by
  cases h with
  | found pre post hunits hpre hlen hfound hhead =>
      obtain ⟨k, hk⟩ := Nat.exists_eq_add_of_lt hlen
      have htake : (headUnits host x).take (headbufSize - 1) = pre ++ gt :: post.take k := by
        rw [hunits, List.take_append, List.take_of_length_le (Nat.le_of_lt hlen)]
        have : headbufSize - 1 - pre.length = k + 1 := by omega
        rw [this, List.take_succ_cons]
      have hmem : gt ∈ pre ++ gt :: post.take k :=
        List.mem_append_right _ List.mem_cons_self
      simp only [xmlHead, htake, takeWhile_ne_gt hpre, hmem, true_and, acceptsHead, hfound,
        hhead, Bool.true_and]
  | exhausted hgt hlen hfound hhead =>
      simp [xmlHead, List.take_of_length_le hlen, hgt, acceptsHead, hfound]

/-- The version of the declaration, if any, fits `version[16]` with its NUL. -/
def VersionFits (host : Endian) (x : ConvBuf) : Prop :=
  ∀ head ∈ xmlHead host x, ∀ s v, attrValue versionAttr head = some (s, v) →
    v.length < versionSize

/-- The declaration, if any, has no encoding attribute. -/
def NoEncoding (host : Endian) (x : ConvBuf) : Prop :=
  ∀ head ∈ xmlHead host x, strstr encodingAttr head = none

instance (host : Endian) (x : ConvBuf) : Decidable (NoEncoding host x) :=
  inferInstanceAs (Decidable (∀ head ∈ xmlHead host x, _))

/-- A call that returns stays inside every object, and leaves `encoding` empty
where there is none, exactly when the version has at most 15 bytes. -/
theorem xmlTextParseHead_inBounds_iff {host : Endian} {x : ConvBuf} {r : HeadResult}
    (h : XmlTextParseHeadReturns host x r) :
    ((∀ a ∈ r.log, a.InBounds x.blen) ∧ (NoEncoding host x → r.xmlhead.encoding = [])) ↔
      VersionFits host x := by
  obtain ⟨s, hs, rfl⟩ := xmlTextParseHead_returns_iff.mp h
  have hhead := xmlHead_of_reads (scan_reads hs)
  have hbounds := headAttributes_inBounds_iff (ucsTextDetectBom x) (scan_safe hs)
  have hfits : VersionFits host x ↔ (acceptsHead s → ∀ p v,
      attrValue versionAttr (cstr s.head) = some (p, v) → v.length < versionSize) := by
    rw [VersionFits, hhead]
    split_ifs with haccept <;> simp [haccept]
  rw [hfits, ← hbounds]
  constructor
  · exact And.left
  · intro hin
    refine ⟨hin, fun hno => ?_⟩
    apply encoding_headAttributes (hbounds.mp hin)
    intro haccept
    rw [NoEncoding, hhead, if_pos haccept] at hno
    exact hno _ rfl

/-- A head like any other. -/
theorem xmlTextParseHead_inBounds_iff_plain :
    ∃ r, XmlTextParseHeadReturns .little
        (ConvBuf.ofList (ascii "<?xml version=\"1.0\" encoding=\"gbk\"?>")) r ∧
      ((∀ a ∈ r.log, a.InBounds 36) ∧ (NoEncoding .little
          (ConvBuf.ofList (ascii "<?xml version=\"1.0\" encoding=\"gbk\"?>")) →
        r.xmlhead.encoding = []) ↔ VersionFits .little
          (ConvBuf.ofList (ascii "<?xml version=\"1.0\" encoding=\"gbk\"?>"))) := by
  have hsome : (xmlTextParseHead .little 64
      (ConvBuf.ofList (ascii "<?xml version=\"1.0\" encoding=\"gbk\"?>"))).isSome := by
    decide +kernel
  obtain ⟨r, hr⟩ := Option.isSome_iff_exists.mp hsome
  exact ⟨r, ⟨64, hr⟩, xmlTextParseHead_inBounds_iff ⟨64, hr⟩⟩

/-- Eighteen bytes of version and no encoding: two of them, and the NUL, land in
`encoding`. -/
theorem xmlTextParseHead_overruns_version :
    ∃ r, XmlTextParseHeadReturns .little
        (ConvBuf.ofList (ascii "<?xml version=\"0123456789abcdefgh\"?>")) r ∧
      (∃ a ∈ r.log, ¬ a.InBounds 36) ∧
      NoEncoding .little (ConvBuf.ofList (ascii "<?xml version=\"0123456789abcdefgh\"?>")) ∧
      r.xmlhead.encoding = ascii "gh" := by
  have hrun : (xmlTextParseHead .little 64
      (ConvBuf.ofList (ascii "<?xml version=\"0123456789abcdefgh\"?>"))).any (fun r =>
        decide ((∃ a ∈ r.log, ¬ a.InBounds 36) ∧ r.xmlhead.encoding = ascii "gh")) = true := by
    decide +kernel
  obtain ⟨r, hr, hbad⟩ := (Option.any_eq_true _ _).mp hrun
  have hbad := of_decide_eq_true hbad
  exact ⟨r, ⟨64, hr⟩, hbad.1, by decide +kernel, hbad.2⟩

end Convd
