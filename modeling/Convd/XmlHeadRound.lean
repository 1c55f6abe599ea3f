/-
# `Convd.XmlHeadRound` — what was formatted parses back

`conv_xmlhead_format` and `XML_text_parse_head` agree unit by unit: a character
made a unit and a unit made a character are inverse (`unitChar_unitBytes`), on any
host and for any mark.  So the parser finds in `headbuf` the text the formatter
had in its own, and what is left is about that text: that `>` first occurs at its
end, and `encoding="` only where it was put.

That search is where the conditions on the fields come from.  A match needs `="`;
with no `"` in the version and no `=` either, the first one after `version="` is
that of the encoding.
-/
import Convd.XmlDecl

namespace Convd

open CString Loop

/-! ## Units -/

theorem ofNat_signExtend {w : Nat} (hw : 0 < w) (c : UInt8) :
    UInt8.ofNat (signExtend w c) = c := by
  obtain ⟨k, rfl⟩ := Nat.exists_eq_add_of_lt hw
  have hpow : 256 ^ (0 + k + 1) = 256 * 256 ^ (0 + k) := Nat.pow_succ'
  have hpos : 0 < 256 ^ (0 + k) := Nat.pow_pos (by decide)
  have hc : c.toNat < 256 := c.toNat_lt
  apply UInt8.toNat_inj.mp
  rw [UInt8.toNat_ofNat', signExtend]
  split
  · exact Nat.mod_eq_of_lt hc
  · omega

theorem length_unitBytes (host : Endian) (bom : UcsBom) (c : UInt8) :
    (unitBytes host bom c).length = unitWidth bom := by
  cases bom <;> simp [unitBytes, unitWidth]

/-- A unit read as it was written, big-endian. -/
theorem ofNat_boReadBetoh (host : Endian) {w : Nat} (hw : 0 < w) (v : Nat) :
    UInt8.ofNat (boReadBetoh host w (host.image w (boHtobe host w v))) = UInt8.ofNat v := by
  have hread := boReadBetoh_eq host (host.image w (boHtobe host w v))
  rw [Endian.length_image] at hread
  rw [hread, image_boHtobe, Endian.ofNat_value _ hw]

theorem ofNat_boReadLetoh (host : Endian) {w : Nat} (hw : 0 < w) (v : Nat) :
    UInt8.ofNat (boReadLetoh host w (host.image w (boHtole host w v))) = UInt8.ofNat v := by
  rw [boReadLetoh_eq, image_boHtole, Endian.ofNat_value _ hw]

/-- A character survives being written as a unit and read back. -/
theorem unitChar_unitBytes (host : Endian) (bom : UcsBom) (c : UInt8) :
    unitChar host bom (unitBytes host bom c) = c := by
  cases bom with
  | ucs2beBom =>
      exact (ofNat_boReadBetoh host (w := 2) (by decide) _).trans
        (ofNat_signExtend (by decide) c)
  | ucs2leBom =>
      exact (ofNat_boReadLetoh host (w := 2) (by decide) _).trans
        (ofNat_signExtend (by decide) c)
  | ucs4beBom =>
      exact (ofNat_boReadBetoh host (w := 4) (by decide) _).trans
        (ofNat_signExtend (by decide) c)
  | ucs4leBom =>
      exact (ofNat_boReadLetoh host (w := 4) (by decide) _).trans
        (ofNat_signExtend (by decide) c)
  | noneBom => rfl
  | utf8Bom => rfl
  | utf8BomAsk => rfl

/-! ## What the formatter writes -/

/-- The writers go forward: what lies before stays. -/
theorem load_writeUnits_before {unit : UInt8 → List UInt8} {w o n : Nat} :
    ∀ (cs : List UInt8) {off : Nat} (m : Mem UInt8), o + n ≤ off →
      (writeUnits unit w cs off m).1.load o n = m.load o n
  | [], _, _, _ => rfl
  | c :: cs, off, m, h => by
      have hstep : o + n ≤ off + w := Nat.le_add_right_of_le h
      rw [writeUnits]
      exact (load_writeUnits_before cs (m.store off (unit c)) hstep).trans
        (Mem.load_store_of_disjoint m (.inl h))

theorem load_writeUnits {unit : UInt8 → List UInt8} {w : Nat} (hw : ∀ c, (unit c).length = w) :
    ∀ (cs : List UInt8) (off : Nat) (m : Mem UInt8),
      (writeUnits unit w cs off m).1.load off (cs.length * w) = cs.flatMap unit
  | [], _, _ => by simp
  | c :: cs, off, m => by
      have hlen : (c :: cs).length * w = w + cs.length * w := by
        rw [List.length_cons, Nat.succ_mul, Nat.add_comm]
      have hfirst : (writeUnits unit w cs (off + w) (m.store off (unit c))).1.load off w
          = unit c := by
        rw [load_writeUnits_before cs _ (Nat.le_refl _), ← hw c, Mem.load_store_self]
      rw [hlen, writeUnits, Mem.load_add, List.flatMap_cons]
      exact congrArg₂ (· ++ ·) hfirst (load_writeUnits hw cs (off + w) _)

/-- A safe copy that copied all of it. -/
theorem load_cstrSafecopy {dst : Mem UInt8} {size off : Nat} {source : List UInt8}
    (h : (cstrSafecopy dst size off source).1 = true) :
    (cstrSafecopy dst size off source).2.1.load 0 (off + source.length)
      = dst.load 0 off ++ source := by
  rw [cstrSafecopy] at h ⊢
  split_ifs at h ⊢ with hfits
  · show Mem.load _ 0 _ = _
    rw [Mem.load_store_before _ _ (Nat.le_refl _), Mem.load_store_append]

/-- The text before it is made units. -/
def ConvXmlhead.text (h : ConvXmlhead) : List UInt8 :=
  snprintfChkdV1 headbufSize (headText h.version h.encoding)

theorem formatUnits_pos {host : Endian} {bom : UcsBom} {text : List UInt8} {output : ConvBuf}
    (hbom : bomLength bom = unitWidth bom) (h : 0 < (formatUnits host bom text output).ret) :
    (formatUnits host bom text output).ret
        = (bomLength bom + text.length * unitWidth bom : Nat) ∧
      (formatUnits host bom text output).bufp.load 0 (bomLength bom + text.length * unitWidth bom)
        = bomBytes bom ++ text.flatMap (unitBytes host bom) := by
  simp only [formatUnits] at h ⊢
  split_ifs at h ⊢ with hfits
  · refine ⟨by push_cast; omega, ?_⟩
    have hmark : (output.bufp.store 0 (bomBytes bom)).load 0 (unitWidth bom) = bomBytes bom := by
      rw [← hbom, ← length_bomBytes, Mem.load_store_self]
    rw [Mem.load_add, hbom, Nat.zero_add]
    show Mem.load (writeUnits _ _ _ _ _).1 _ _ ++ Mem.load (writeUnits _ _ _ _ _).1 _ _ = _
    rw [load_writeUnits_before _ _ (Nat.le_of_eq (Nat.zero_add _)), hmark,
      load_writeUnits (length_unitBytes host bom)]
  · exact absurd h (Int.lt_irrefl 0)

/-- A positive result counts what was written: the mark and the text, as units. -/
theorem convXmlheadFormat_pos {host : Endian} {h : ConvXmlhead} {output : ConvBuf}
    (hret : 0 < (convXmlheadFormat host h output).ret) :
    (convXmlheadFormat host h output).ret
        = (bomLength h.bom + h.text.length * unitWidth h.bom : Nat) ∧
      (convXmlheadFormat host h output).bufp.load 0
          (bomLength h.bom + h.text.length * unitWidth h.bom)
        = bomBytes h.bom ++ h.text.flatMap (unitBytes host h.bom) := by
  have hone : h.text.flatMap (fun c => [c]) = h.text := List.flatMap_singleton' _
  rw [convXmlheadFormat] at hret ⊢
  cases hbom : h.bom <;> simp only [hbom] at hret ⊢
  case ucs2beBom => exact formatUnits_pos rfl hret
  case ucs2leBom => exact formatUnits_pos rfl hret
  case ucs4beBom => exact formatUnits_pos rfl hret
  case ucs4leBom => exact formatUnits_pos rfl hret
  case utf8BomAsk => exact absurd hret (by decide)
  case noneBom =>
    split_ifs at hret ⊢ with hok
    · have hload := load_cstrSafecopy hok
      rw [Nat.zero_add, Mem.load_zero, List.nil_append] at hload
      have hlen : bomLength .noneBom + h.text.length * unitWidth .noneBom = h.text.length := by
        simp [bomLength, unitWidth]
      rw [hlen]
      exact ⟨rfl, hload.trans hone.symm⟩
    · exact absurd hret (Int.lt_irrefl 0)
  case utf8Bom =>
    split_ifs at hret ⊢ with hok
    · have hload := load_cstrSafecopy hok
      have hmark : (output.bufp.store 0 (bomBytes .utf8Bom)).load 0 3 = bomBytes .utf8Bom :=
        Mem.load_store_self _ _ _
      have hlen : bomLength .utf8Bom + h.text.length * unitWidth .utf8Bom
          = 3 + h.text.length := by simp [bomLength, unitWidth]
      rw [hmark] at hload
      rw [hlen]
      refine ⟨?_, hload.trans (congrArg _ hone.symm)⟩
      show (h.text.length : Int) + 3 = _
      omega
    · exact absurd hret (Int.lt_irrefl 0)

/-! ## What the parser reads -/

/-- The units at `off`, when the bytes there are those of `text`. -/
theorem unitsFrom_of_units {host : Endian} {bom : UcsBom} {x : ConvBuf} (hx : x.blen < 2 ^ 31) :
    ∀ {text rest : List UInt8} {off : Nat}, off ≤ x.blen →
      x.bufp.load off (x.blen - off) = text.flatMap (unitBytes host bom) ++ rest →
      unitsFrom x (unitWidth bom) (unitChar host bom) off
        = text ++ unitsFrom x (unitWidth bom) (unitChar host bom)
            (off + text.length * unitWidth bom)
  | [], _, off, _, _ => by
      rw [List.length_nil, Nat.zero_mul, Nat.add_zero, List.nil_append]
  | c :: text, rest, off, hoff, hload => by
      have hw := unitWidth_pos bom
      have hc := length_unitBytes host bom c
      rw [List.flatMap_cons, List.append_assoc] at hload
      have hroom : off + unitWidth bom ≤ x.blen := by
        have := congrArg List.length hload
        rw [Mem.length_load, List.length_append, hc] at this
        omega
      have hunit : x.bufp.load off (unitWidth bom) = unitBytes host bom c := by
        have := congrArg (List.take (unitWidth bom)) hload
        rwa [Mem.take_load _ _ (by omega), List.take_left' hc] at this
      have hnext : x.bufp.load (off + unitWidth bom) (x.blen - (off + unitWidth bom))
          = text.flatMap (unitBytes host bom) ++ rest := by
        have := congrArg (List.drop (unitWidth bom)) hload
        rwa [Mem.drop_load _ _ (by omega), List.drop_left' hc, Nat.sub_sub] at this
      have hlt : ((off + (unitWidth bom - 1) : Nat) : Int) < toInt x.blen := by
        rw [toInt_of_lt hx]
        omega
      have hend : off + unitWidth bom + text.length * unitWidth bom
          = off + (c :: text).length * unitWidth bom := by
        rw [List.length_cons, Nat.succ_mul]
        omega
      rw [unitsFrom_of_lt hw hlt, hunit, unitChar_unitBytes, unitsFrom_of_units hx hroom hnext,
        hend, List.cons_append]

/-- A text in units behind a mark starts with that mark and no other, if its first
character is not a NUL and makes no mark by itself. -/
theorem startsWithBom_append {host : Endian} {bom : UcsBom} {text rest : List UInt8}
    (hbom : bom ≠ .utf8BomAsk) (htext : text.head? = some 60) :
    StartsWithBom (bomBytes bom ++ text.flatMap (unitBytes host bom) ++ rest) bom := by
  obtain ⟨t, rfl⟩ : ∃ t, text = 60 :: t := by
    cases text with
    | nil => cases htext
    | cons c t => exact ⟨t, by rw [List.head?_cons] at htext; cases htext; rfl⟩
  cases bom with
  | utf8BomAsk => exact absurd rfl hbom
  | noneBom => simp [StartsWithBom, bomBytes, unitBytes]
  | ucs2leBom =>
      refine ⟨by rw [List.append_assoc]; exact List.prefix_append _ _, ?_⟩
      cases host <;> simp [bomBytes, unitBytes, signExtend, boI16Htole, boHtole, Endian.image,
        Endian.lowDigits]
  | utf8Bom => exact List.append_assoc .. ▸ List.prefix_append _ _
  | ucs2beBom => exact List.append_assoc .. ▸ List.prefix_append _ _
  | ucs4beBom => exact List.append_assoc .. ▸ List.prefix_append _ _
  | ucs4leBom => exact List.append_assoc .. ▸ List.prefix_append _ _

/-! ## The attributes of a formatted text -/

theorem attrValue_of_append {name a v rest : List UInt8} (hv : 34 ∉ v)
    (hskip : ∀ q < a.length, ¬ name <+: (a ++ (name ++ (v ++ 34 :: rest))).drop q) :
    attrValue name (a ++ (name ++ (v ++ 34 :: rest))) = some (a.length + name.length, v) := by
  have hfind : strstr name (a ++ (name ++ (v ++ 34 :: rest))) = some a.length := by
    rw [strstr_append hskip, strstr_of_prefix (List.prefix_append _ _)]
    simp
  have hdrop : (a ++ (name ++ (v ++ 34 :: rest))).drop (a.length + name.length)
      = v ++ 34 :: rest := by
    rw [← List.append_assoc]
    exact List.drop_left' (List.length_append)
  simp only [attrValue, hfind, hdrop, strstr_singleton hv, Option.map_some, List.take_left]

/-- The text, cut where the version starts and ends. -/
theorem headText_eq_version (v e : List UInt8) : headText v e = ascii "<?xml " ++
    (versionAttr ++ (v ++ 34 :: (ascii " encoding=\"" ++ e ++ ascii "\"?>"))) := by
  simp [headText, versionAttr, ascii]

theorem headText_eq_encoding (v e : List UInt8) : headText v e
    = (ascii "<?xml version=\"" ++ (v ++ ascii "\" ")) ++
        (encodingAttr ++ (e ++ 34 :: ascii "?>")) := by
  simp [headText, encodingAttr, ascii]

theorem attrValue_version {v e : List UInt8} (hv : 34 ∉ v) :
    attrValue versionAttr (headText v e) = some (15, v) := by
  have hfirst : ∀ q < (ascii "<?xml ").length, (ascii "<?xml ")[q]? ≠ versionAttr[0]? := by
    decide
  rw [headText_eq_version]
  apply attrValue_of_append hv
  intro q hq hmatch
  have hget := getElem?_of_match hmatch (i := 0) (by decide)
  rw [Nat.add_zero, List.getElem?_append_left hq] at hget
  exact hfirst q hq hget

/-- A piece of text without an `=` does not end the name of an attribute. -/
theorem apart_of_no_equals {p : List UInt8} (hp : 61 ∉ p) :
    Apart 103 61 p ∧ p.head? ≠ some 61 :=
  ⟨apart_of_notMem hp, fun hhead => hp (List.mem_of_head? hhead)⟩

theorem attrValue_encoding {v e : List UInt8} (hv : 61 ∉ v) (he : 34 ∉ e) :
    attrValue encodingAttr (headText v e) = some (27 + v.length, e) := by
  have hlen : (ascii "<?xml version=\"" ++ (v ++ ascii "\" ")).length = 17 + v.length := by
    simp only [List.length_append]
    show 15 + (v.length + 2) = _
    omega
  have hval := @attrValue_of_append encodingAttr
    (ascii "<?xml version=\"" ++ (v ++ ascii "\" ")) e (ascii "?>") he
  rw [hlen, ← headText_eq_encoding] at hval
  have hnum : 17 + v.length + encodingAttr.length = 27 + v.length := by
    show 17 + v.length + 10 = _
    omega
  rw [hnum] at hval
  apply hval
  -- up to the end of the name `encoding` the one `=` is that of `version=`, behind an `n`
  have hapart : Apart 103 61 [ascii "<?xml version=\"", v, ascii "\" encoding"].flatten := by
    refine (Apart.flatten fun p hp => ?_).1
    simp only [List.mem_cons, List.not_mem_nil, or_false] at hp
    rcases hp with rfl | rfl | rfl
    · decide
    · exact apart_of_no_equals hv
    · decide
  have htext : headText v e = [ascii "<?xml version=\"", v, ascii "\" encoding"].flatten ++
      (ascii "=\"" ++ e ++ ascii "\"?>") := by
    simp [headText, ascii]
  have hfront : [ascii "<?xml version=\"", v, ascii "\" encoding"].flatten.length
      = 25 + v.length := by
    simp [ascii]
    omega
  intro q hq
  rw [htext]
  exact hapart.not_match (i := 7) (by decide) (by decide) (by omega) _

/-- The text without its `>`. -/
def headFront (v e : List UInt8) : List UInt8 :=
  ascii "<?xml version=\"" ++ v ++ ascii "\" encoding=\"" ++ e ++ ascii "\"?"

theorem headText_eq_front (v e : List UInt8) : headText v e = headFront v e ++ [gt] := by
  simp [headText, headFront, ascii, gt]

theorem length_headFront (v e : List UInt8) :
    (headFront v e).length = 29 + v.length + e.length := by
  simp only [headFront, List.length_append]
  show 15 + v.length + 12 + e.length + 2 = _
  omega

/-- A character of the text is one of the fixed ones or one of a field. -/
theorem mem_headFront {v e : List UInt8} {c : UInt8} (h : c ∈ headFront v e) :
    c ∈ ascii "<?xml version=\"" ++ ascii "\" encoding=\"" ++ ascii "\"?" ∨ c ∈ v ∨ c ∈ e := by
  simp only [headFront, List.mem_append] at h ⊢
  tauto

theorem gt_notMem_headFront {v e : List UInt8} (hv : gt ∉ v) (he : gt ∉ e) :
    gt ∉ headFront v e := by
  intro h
  rcases mem_headFront h with h | h | h
  · exact absurd h (by decide)
  · exact hv h
  · exact he h

theorem cstr_headText {v e : List UInt8} (hv : ∀ c ∈ v, c ≠ 0) (he : ∀ c ∈ e, c ≠ 0) :
    cstr (headText v e) = headText v e := by
  apply cstr_eq_self
  intro c hc
  rw [headText_eq_front, List.mem_append, List.mem_singleton] at hc
  rcases hc with hc | rfl
  · rcases mem_headFront hc with hc | hc | hc
    · rintro rfl
      exact absurd hc (by decide)
    · exact hv c hc
    · exact he c hc
  · decide

/-- What begins and ends like a declaration is taken for one, if it is long enough. -/
theorem looksLikeHead_of_split {head mid : List UInt8}
    (hhead : head = ascii "<?xml " ++ (mid ++ ascii "?>")) (hlen : 20 < head.length) :
    looksLikeHead head = true := by
  have hfront : head = (ascii "<?xml " ++ mid ++ [63]) ++ [gt] := by
    rw [hhead]
    simp [ascii, gt]
  have htotal : head.length = (ascii "<?xml " ++ mid).length + 2 := by
    rw [hfront, List.length_append, List.length_append]
    rfl
  have hstart : cstrStartwith head (ascii "<?xml ") = true := by
    have htake : head.take (ascii "<?xml ").length = ascii "<?xml " := by
      rw [hhead, List.take_left]
    rw [cstrStartwith, htake, Bool.and_eq_true, decide_eq_true_iff]
    refine ⟨?_, beq_self_eq_true _⟩
    show 6 ≤ _
    omega
  have hlast : head[head.length - 1]? = some gt := by
    rw [hfront, List.length_append, List.length_singleton, Nat.add_sub_cancel,
      List.getElem?_concat_length]
  have hmark : head[head.length - 2]? = some 63 := by
    rw [htotal, Nat.add_sub_cancel, hfront, List.getElem?_append_left (by simp),
      List.getElem?_concat_length]
  simp only [looksLikeHead, hlen, hstart, hmark, hlast, decide_true, beq_self_eq_true,
    Bool.and_self]

theorem looksLikeHead_headText (v e : List UInt8) : looksLikeHead (headText v e) = true := by
  have hlen := length_headFront v e
  apply @looksLikeHead_of_split _
    (ascii "version=\"" ++ v ++ ascii "\" encoding=\"" ++ e ++ [34])
  · simp [headText, ascii]
  · rw [headText_eq_front, List.length_append, List.length_singleton]
    omega

/-! ## The fields -/

/-- A string stored with its NUL, read back. -/
theorem cstr_load {m : Mem UInt8} {off size : Nat} {s : List UInt8} (hs : ∀ c ∈ s, c ≠ 0)
    (hload : m.load off s.length = s) (hnul : m.load (off + s.length) 1 = [0])
    (hsize : s.length < size) : cstr (m.load off size) = s := by
  obtain ⟨k, rfl⟩ := Nat.exists_eq_add_of_lt hsize
  rw [Nat.add_assoc, Nat.add_comm k, Mem.load_add, Mem.load_add, hload, hnul]
  exact cstr_append_zero hs _

/-- The version is read on into the encoding where `version[16]` has no NUL. -/
theorem ConvXmlhead.version_eq (h : ConvXmlhead) :
    h.version = if 0 ∈ h.fields.load 0 versionSize then cstr (h.fields.load 0 versionSize)
      else h.fields.load 0 versionSize ++ h.encoding := by
  rw [version, Mem.load_add, cstr_append, Nat.zero_add]
  rfl

/-- A version that is formatted and parsed back. -/
structure PlainVersion (v : List UInt8) : Prop where
  length_lt : v.length < versionSize
  length_ne : v.length ≠ 1
  chars : ∀ c ∈ v, c ≠ 0 ∧ c ≠ 34 ∧ c ≠ gt ∧ c ≠ 61

/-- A code that is formatted and parsed back. -/
structure PlainCode (e : List UInt8) : Prop where
  length_pos : 0 < e.length
  length_lt : e.length < cvdEncodingLenMax
  chars : ∀ c ∈ e, c ≠ 0 ∧ c ≠ 34 ∧ c ≠ gt
  upper : cstrToupper e = e

/-- A version of more than one character is copied. -/
theorem load_copyVersion {headbuf : List UInt8} {bom : UcsBom} {m : Mem UInt8} {s : Nat}
    {v : List UInt8} (hval : attrValue versionAttr headbuf = some (s, v)) (hlong : v.length > 1) :
    (copyVersion headbuf ⟨bom, m⟩).1.fields.load 0 v.length = v := by
  simp only [copyVersion, hval, if_pos hlong]
  rw [Mem.load_store_before _ _ (Nat.le_refl _), Mem.load_store_self]

theorem cstr_copyVersion {headbuf : List UInt8} {bom : UcsBom} {m : Mem UInt8} {s : Nat}
    {v : List UInt8} (hval : attrValue versionAttr headbuf = some (s, v)) (hv : ∀ c ∈ v, c ≠ 0)
    (hlong : v.length > 1) (hfits : v.length < versionSize) :
    cstr ((copyVersion headbuf ⟨bom, m⟩).1.fields.load 0 versionSize) = v := by
  refine cstr_load hv (load_copyVersion hval hlong) ?_ hfits
  simp only [copyVersion, hval, if_pos hlong, Nat.zero_add]
  exact Mem.load_store_self _ _ [0]

/-- Copying the encoding does not touch the version field. -/
theorem load_copyEncoding (headbuf : List UInt8) (h : ConvXmlhead) :
    (copyEncoding headbuf h).1.fields.load 0 versionSize = h.fields.load 0 versionSize := by
  have hin : versionSize ≤ versionSize := Nat.le_refl _
  rw [copyEncoding]
  split
  · split
    · rw [Mem.load_store_before _ _ hin,
        Mem.load_store_before _ _ (Nat.le_add_right_of_le hin),
        Mem.load_store_before _ _ hin]
    · rfl
  · rfl

/-- The version of a declaration is the value of its attribute, if that is copied and fits. -/
theorem version_declFields {bom : UcsBom} {head v : List UInt8} {s : Nat}
    (hval : attrValue versionAttr (cstr head) = some (s, v)) (hv : ∀ c ∈ v, c ≠ 0)
    (hlong : 1 < v.length) (hfits : v.length < versionSize) :
    (⟨bom, declFields (some head)⟩ : ConvXmlhead).version = v := by
  have hload : cstr ((⟨bom, declFields (some head)⟩ : ConvXmlhead).fields.load 0 versionSize)
      = v := by
    rw [← @cstr_copyVersion (cstr head) .noneBom (fun _ => 0) s v hval hv hlong hfits]
    exact congrArg cstr (load_copyEncoding _ _)
  rw [ConvXmlhead.version_eq, if_pos, hload]
  -- a field without a NUL would be all of the version
  by_contra hnul
  rw [cstr_eq_self fun c hc hzero => hnul (hzero ▸ hc)] at hload
  rw [← hload, Mem.length_load] at hfits
  exact Nat.lt_irrefl _ hfits

/-- The encoding of a declaration is the value of its attribute in upper case, if that fits. -/
theorem encoding_declFields {bom : UcsBom} {head e : List UInt8} {s : Nat}
    (hval : attrValue encodingAttr (cstr head) = some (s, e)) (he : ∀ c ∈ cstrToupper e, c ≠ 0)
    (hpos : 0 < e.length) (hfits : e.length < cvdEncodingLenMax) :
    (⟨bom, declFields (some head)⟩ : ConvXmlhead).encoding = cstrToupper e := by
  have hlen : (cstrToupper e).length = e.length := List.length_map _
  have hsize : e.length > 0 ∧ e.length < cvdEncodingLenMax := ⟨hpos, hfits⟩
  simp only [ConvXmlhead.encoding, declFields, copyEncoding, hval, if_pos hsize]
  refine cstr_load he (Mem.load_store_self _ _ _) ?_ (hlen ▸ hfits)
  rw [hlen, Mem.load_store_of_disjoint _ (.inr (Nat.le_of_eq (congrArg _ hlen)))]
  exact Mem.load_store_self _ _ [0]

theorem strstr_versionAttr {v e : List UInt8} (hv : PlainVersion v) (he : PlainCode e) :
    (strstr versionAttr (cstr (headText v e))).isSome = true := by
  rw [cstr_headText (fun c hc => (hv.chars c hc).1) fun c hc => (he.chars c hc).1]
  exact strstr_isSome_of_attrValue (attrValue_version fun hmem => (hv.chars _ hmem).2.1 rfl)

/-- The attributes of a formatted text are the fields it was made from. -/
theorem declFields_headText {v e : List UInt8} (hv : PlainVersion v) (he : PlainCode e)
    (bom : UcsBom) :
    (⟨bom, declFields (some (headText v e))⟩ : ConvXmlhead).version = v ∧
      (⟨bom, declFields (some (headText v e))⟩ : ConvXmlhead).encoding = e := by
  have hv0 : ∀ c ∈ v, c ≠ 0 := fun c hc => (hv.chars c hc).1
  have he0 : ∀ c ∈ e, c ≠ 0 := fun c hc => (he.chars c hc).1
  have hvval := @attrValue_version v e fun hmem => (hv.chars _ hmem).2.1 rfl
  have heval := @attrValue_encoding v e (fun hmem => (hv.chars _ hmem).2.2.2 rfl)
    fun hmem => (he.chars _ hmem).2.1 rfl
  rw [← cstr_headText hv0 he0] at hvval heval
  constructor
  · rcases Nat.lt_or_ge 1 v.length with hlong | hshort
    · exact version_declFields hvval hv0 hlong hv.length_lt
    · have hnil : v = [] := by
        have hne := hv.length_ne
        exact List.length_eq_zero_iff.mp (by omega)
      have hkeep : copyVersion (cstr (headText v e)) ⟨.noneBom, fun _ => 0⟩
          = (⟨.noneBom, fun _ => 0⟩, []) := by
        simp only [copyVersion, hvval, if_neg (Nat.not_lt.mpr hshort)]
      have hload : (⟨bom, declFields (some (headText v e))⟩ : ConvXmlhead).fields.load 0 versionSize
          = List.replicate versionSize 0 := by
        show (copyEncoding _ _).1.fields.load 0 versionSize = _
        rw [load_copyEncoding, hkeep]
        rfl
      rw [ConvXmlhead.version_eq, hload, hnil]
      rfl
  · have hencoding := @encoding_declFields bom (headText v e) e _ heval (he.upper.symm ▸ he0)
      he.length_pos he.length_lt
    rwa [he.upper] at hencoding

/-- What is in the fields of a head that formats to something that parses back. -/
structure ConvXmlhead.Plain (h : ConvXmlhead) : Prop where
  version_two : 2 ≤ h.version.length
  version_size : h.version.length < versionSize
  version_chars : ∀ c ∈ h.version, c ≠ 34 ∧ c ≠ gt ∧ c ≠ 61
  encoding_one : 1 ≤ h.encoding.length
  encoding_size : h.encoding.length < cvdEncodingLenMax
  encoding_chars : ∀ c ∈ h.encoding, c ≠ 34 ∧ c ≠ gt
  encoding_upper : cstrToupper h.encoding = h.encoding

theorem ConvXmlhead.Plain.plainVersion {h : ConvXmlhead} (hp : h.Plain) :
    PlainVersion h.version where
  length_lt := hp.version_size
  length_ne := Nat.ne_of_gt hp.version_two
  chars := fun c hc => ⟨ne_zero_of_mem_cstr hc, hp.version_chars c hc⟩

theorem ConvXmlhead.Plain.plainCode {h : ConvXmlhead} (hp : h.Plain) : PlainCode h.encoding where
  length_pos := hp.encoding_one
  length_lt := hp.encoding_size
  chars := fun c hc => ⟨ne_zero_of_mem_cstr hc, hp.encoding_chars c hc⟩
  upper := hp.encoding_upper

/-- The attributes of a scanned text that was formatted. -/
theorem headAttributes_headText {h : ConvXmlhead} (hp : h.Plain) (bom : UcsBom)
    {r : ScanResult} (hfound : r.found = true) (hhead : r.head = headText h.version h.encoding) :
    (headAttributes bom r).ret = r.offset ∧
      (headAttributes bom r).xmlhead.bom = bom ∧
      (headAttributes bom r).xmlhead.version = h.version ∧
      (headAttributes bom r).xmlhead.encoding = h.encoding := by
  have haccept : acceptsHead r = true := by
    rw [acceptsHead, hfound, hhead, looksLikeHead_headText]
    rfl
  have hversion : (strstr versionAttr (cstr r.head)).isSome = true := by
    rw [hhead]
    exact strstr_versionAttr hp.plainVersion hp.plainCode
  have heq := headAttributes_eq bom (s := r)
  rw [if_pos ⟨haccept, hversion⟩, hhead] at heq
  obtain ⟨hret, hxmlhead⟩ := Prod.mk.inj heq
  obtain ⟨hv, he⟩ := declFields_headText hp.plainVersion hp.plainCode bom
  rw [hxmlhead]
  exact ⟨hret, rfl, hv, he⟩

/-! ## The round trip -/

theorem ConvXmlhead.Plain.text_eq {h : ConvXmlhead} (hp : h.Plain) :
    h.text = headText h.version h.encoding := by
  have hv := hp.version_size
  have he := hp.encoding_size
  have hlen := length_headFront h.version h.encoding
  rw [ConvXmlhead.text, snprintfChkdV1, headText_eq_front]
  apply List.take_of_length_le
  rw [List.length_append, List.length_singleton]
  simp only [versionSize, cvdEncodingLenMax, headbufSize] at *
  omega

/-- Formatting a head and parsing what was written, whatever follows it, gives
the head back, and as many bytes are read as were written. -/
theorem xmlTextParseHead_convXmlheadFormat (host : Endian) {h : ConvXmlhead} (hp : h.Plain)
    (hbom : h.bom ≠ .utf8BomAsk) {output x : ConvBuf} {n : Nat} {rest : List UInt8}
    (hn : 0 < n) (hret : (convXmlheadFormat host h output).ret = n)
    (hx : x.bytes = (convXmlheadFormat host h output).bufp.load 0 n ++ rest)
    (hlen : x.blen < 2 ^ 31) :
    ∃ r, XmlTextParseHeadReturns host x r ∧ r.ret = n ∧ r.xmlhead.bom = h.bom ∧
      r.xmlhead.version = h.version ∧ r.xmlhead.encoding = h.encoding := by
  have hpos : 0 < (convXmlheadFormat host h output).ret := by omega
  obtain ⟨hcount, hload⟩ := convXmlheadFormat_pos hpos
  have hn' : n = bomLength h.bom + h.text.length * unitWidth h.bom := by omega
  rw [hn', hload] at hx
  have hdetect : ucsTextDetectBom x = h.bom := by
    apply ucsTextDetectBom_eq x.shows_bytes
    rw [hx]
    apply startsWithBom_append hbom
    rw [hp.text_eq]
    rfl
  have hoff : bomLength h.bom ≤ x.blen := by
    have := congrArg List.length hx
    rw [ConvBuf.bytes, Mem.length_load, List.append_assoc, List.length_append,
      length_bomBytes] at this
    omega
  have hbody : x.bufp.load (bomLength h.bom) (x.blen - bomLength h.bom)
      = h.text.flatMap (unitBytes host h.bom) ++ rest := by
    have := congrArg (List.drop (bomLength h.bom)) hx
    rwa [ConvBuf.bytes, Mem.drop_load _ _ hoff, Nat.zero_add, List.append_assoc,
      List.drop_left' (length_bomBytes h.bom)] at this
  have hgt : gt ∉ headFront h.version h.encoding :=
    gt_notMem_headFront (fun hmem => (hp.version_chars _ hmem).2.1 rfl)
      fun hmem => (hp.encoding_chars _ hmem).2 rfl
  have hfront := length_headFront h.version h.encoding
  have htext : h.text = headFront h.version h.encoding ++ [gt] :=
    hp.text_eq.trans (headText_eq_front _ _)
  have hroom : (headFront h.version h.encoding).length < headbufSize - 1 := by
    have hv := hp.version_size
    have he := hp.encoding_size
    simp only [versionSize, cvdEncodingLenMax, headbufSize] at *
    omega
  have hunits : headUnits host x = headFront h.version h.encoding ++
      gt :: unitsFrom x (unitWidth h.bom) (unitChar host h.bom)
        (bomLength h.bom + h.text.length * unitWidth h.bom) := by
    rw [headUnits, hdetect, unitsFrom_of_units hlen hoff hbody, htext, List.append_assoc,
      List.singleton_append]
  obtain ⟨s, hs, hfound, hsoff, hshead⟩ : ∃ s, Returns (scanOf host x) (scanStart x) s ∧
      s.found = true ∧ s.offset = n ∧ s.head = headText h.version h.encoding := by
    obtain ⟨log, hscan⟩ := scan_found (unitWidth_pos _) (s := scanStart x) hunits hgt
      ((Nat.zero_add (headFront h.version h.encoding).length).symm ▸ hroom)
    refine ⟨_, hscan, rfl, ?_, ?_⟩
    · show bomLength (ucsTextDetectBom x) + _ * unitWidth (ucsTextDetectBom x) = n
      rw [hdetect, hn', htext, List.length_append, List.length_singleton]
    · exact (List.nil_append _).trans (headText_eq_front _ _).symm
  obtain ⟨hr, hb, hv, he⟩ := headAttributes_headText hp (ucsTextDetectBom x) hfound hshead
  refine ⟨_, xmlTextParseHead_returns_iff.mpr ⟨s, hs, rfl⟩, ?_, hb.trans hdetect, hv, he⟩
  rw [hr, hsoff]

/-- Version 1.0 in GBK, to be written as UCS-2BE. -/
def gbkHead : ConvXmlhead :=
  ⟨.ucs2beBom, Mem.store (Mem.ofList 0 (ascii "1.0")) versionSize (ascii "GBK")⟩

theorem gbkHead_plain : gbkHead.Plain where
  version_two := by decide
  version_size := by decide
  version_chars := by decide +kernel
  encoding_one := by decide
  encoding_size := by decide
  encoding_chars := by decide +kernel
  encoding_upper := by decide

/-- That head, written to a buffer of 128 bytes and read with a letter behind it. -/
theorem xmlTextParseHead_convXmlheadFormat_gbk :
    ∃ r, XmlTextParseHeadReturns .little (ConvBuf.ofList
        ((convXmlheadFormat .little gbkHead ⟨128, fun _ => 0⟩).bufp.load 0 74 ++ [97])) r ∧
      r.ret = (74 : Nat) ∧ r.xmlhead.bom = gbkHead.bom ∧
      r.xmlhead.version = gbkHead.version ∧ r.xmlhead.encoding = gbkHead.encoding :=
  xmlTextParseHead_convXmlheadFormat .little gbkHead_plain (by decide) (n := 74) (by decide)
    (by decide +kernel) (ConvBuf.bytes_ofList _) (by simp)

end Convd
