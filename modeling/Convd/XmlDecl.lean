/-
# `Convd.XmlDecl` — the declaration of a text

What `XML_text_parse_head` returns, as a function of the units of the whole text.  The
declaration is the units through the first `>`, if there are at most 127 of them, the tests
on `headbuf` succeed and a version is named (`declaration`).  Units that are added behind it
change nothing, and taking units away loses it or changes nothing (`declaration_take`).

    bytes before `(int) blen`   the scan sees          result
    `declEnd` or more           all the declaration    `declEnd`, the attributes
    less                        not its `>`            0, no attribute

(`XmlTextParseHeadReturns.eq`, `declaration_headUnits`).
-/
import Convd.XmlHeadBounds
import Convd.Lib.Units

namespace Convd

open CString Loop

/-! ## Units that pass for a declaration -/

/-- The units through the first `>`, if they are taken for a declaration. -/
def declaration (units : List UInt8) : Option (List UInt8) :=
  let head := units.takeWhile (· ≠ gt) ++ [gt]
  if head.length ≤ units.length ∧ head.length ≤ headbufSize - 1 ∧ looksLikeHead head = true ∧
      (strstr versionAttr (cstr head)).isSome = true then some head
  else none

/-- The two fields, as the attributes of a declaration set them. -/
def declFields : Option (List UInt8) → Mem UInt8
  | none => fun _ => 0
  | some head =>
      (copyEncoding (cstr head) (copyVersion (cstr head) ⟨.noneBom, fun _ => 0⟩).1).1.fields

theorem takeWhile_ne_gt_self {units : List UInt8} (h : gt ∉ units) :
    units.takeWhile (· ≠ gt) = units := by
  rw [List.takeWhile_eq_self_iff]
  intro c hc
  have hne : c ≠ gt := fun heq => h (heq ▸ hc)
  simpa using hne

theorem declaration_eq_none {units : List UInt8} (h : gt ∉ units) : declaration units = none := by
  rw [declaration, takeWhile_ne_gt_self h]
  apply if_neg
  rintro ⟨hlen, -⟩
  rw [List.length_append, List.length_singleton] at hlen
  exact Nat.not_succ_le_self _ hlen

theorem declaration_of_gt {pre post : List UInt8} (h : gt ∉ pre) :
    declaration (pre ++ gt :: post) =
      if (pre ++ [gt]).length ≤ headbufSize - 1 ∧ looksLikeHead (pre ++ [gt]) = true ∧
        (strstr versionAttr (cstr (pre ++ [gt]))).isSome = true then some (pre ++ [gt])
      else none := by
  have hlen : (pre ++ [gt]).length ≤ (pre ++ gt :: post).length := by
    simp only [List.length_append, List.length_cons, List.length_nil]
    omega
  simp only [declaration, takeWhile_ne_gt h, hlen, true_and]

/-- What a declaration is. -/
structure Declares (units head : List UInt8) : Prop where
  split : ∃ pre post, units = pre ++ gt :: post ∧ gt ∉ pre ∧ head = pre ++ [gt]
  length_le : head.length ≤ headbufSize - 1
  looks : looksLikeHead head = true
  version : (strstr versionAttr (cstr head)).isSome = true

theorem declaration_eq_some_iff {units head : List UInt8} :
    declaration units = some head ↔ Declares units head := by
  constructor
  · intro h
    by_cases hgt : gt ∈ units
    · obtain ⟨pre, post, rfl, hpre⟩ := List.eq_append_cons_of_mem hgt
      rw [declaration_of_gt hpre] at h
      split at h
      · rename_i hcond
        cases h
        exact ⟨⟨pre, post, rfl, hpre, rfl⟩, hcond.1, hcond.2.1, hcond.2.2⟩
      · cases h
    · rw [declaration_eq_none hgt] at h
      cases h
  · rintro ⟨⟨pre, post, rfl, hpre, rfl⟩, hlen, hlooks, hversion⟩
    rw [declaration_of_gt hpre, if_pos ⟨hlen, hlooks, hversion⟩]

theorem Declares.prefix_units {units head : List UInt8} (h : Declares units head) :
    head <+: units := by
  obtain ⟨pre, post, rfl, -, rfl⟩ := h.split
  exact ⟨post, by rw [List.append_assoc]; rfl⟩

/-- Of the first `m` units the declaration is the same, or cut off and none. -/
theorem declaration_take (units : List UInt8) (m : Nat) :
    declaration (units.take m) = (declaration units).filter (·.length ≤ m) := by
  by_cases hgt : gt ∈ units.take m
  · -- the first `>` of the beginning is the first of all
    obtain ⟨pre, post, htake, hpre⟩ := List.eq_append_cons_of_mem hgt
    have hunits : units = pre ++ gt :: (post ++ units.drop m) := by
      rw [← List.cons_append, ← List.append_assoc, ← htake, List.take_append_drop]
    have hlen : (pre ++ [gt]).length ≤ m := by
      have hle := congrArg List.length htake
      rw [List.length_take, List.length_append, List.length_cons] at hle
      rw [List.length_append, List.length_singleton]
      omega
    rw [htake, declaration_of_gt hpre]
    conv_rhs => rw [hunits, declaration_of_gt hpre]
    split
    · rw [Option.filter_some, if_pos (decide_eq_true hlen)]
    · rfl
  · rw [declaration_eq_none hgt]
    symm
    rw [Option.filter_eq_none_iff]
    intro head hhead hle
    obtain ⟨pre, post, rfl, -, rfl⟩ := (declaration_eq_some_iff.mp hhead).split
    have hle := of_decide_eq_true hle
    apply hgt
    have hsplit : pre ++ gt :: post = (pre ++ [gt]) ++ post := by rw [List.append_assoc]; rfl
    rw [hsplit, List.take_append, List.take_of_length_le hle]
    exact List.mem_append_left _ (List.mem_append_right _ List.mem_cons_self)

/-! ## The units of a text -/

/-- The characters of all whole units of a text, its mark left out. -/
def textUnits (host : Endian) (x : ConvBuf) : List UInt8 :=
  let bom := ucsTextDetectBom x
  (x.bytes.drop (bomLength bom)).units (unitWidth bom) (unitChar host bom)

/-- Where a declaration of a text ends. -/
def declEnd (bom : UcsBom) (head : List UInt8) : Nat := bomLength bom + head.length * unitWidth bom

/-- The value and the head that are returned for a declaration. -/
def declResult (bom : UcsBom) (decl : Option (List UInt8)) : Int × ConvXmlhead :=
  ((decl.elim 0 (declEnd bom) : Nat), ⟨bom, declFields decl⟩)

theorem declResult_filter_some {bom : UcsBom} {head : List UInt8} {p : List UInt8 → Bool} :
    declResult bom ((some head).filter p) = if p head then declResult bom (some head)
      else declResult bom none := by
  rw [Option.filter_some]
  split <;> rfl

/-- What is returned for a declaration of which not all may be seen. -/
theorem declResult_filter_cases {bom : UcsBom} {decl : Option (List UInt8)} {p : List UInt8 → Bool}
    {r : Int × ConvXmlhead} (h : r = declResult bom (decl.filter p)) :
    (∃ head, decl = some head ∧ p head = true ∧ r.1 = declEnd bom head ∧
      r.2 = ⟨bom, declFields (some head)⟩) ∨
    ((∀ head ∈ decl, ¬ p head = true) ∧ r.1 = 0 ∧ r.2 = ⟨bom, declFields none⟩) := by
  rcases decl with _ | head
  · rw [h]
    exact .inr ⟨(fun _ hhead => nomatch hhead), rfl, rfl⟩
  · rw [declResult_filter_some] at h
    by_cases hp : p head = true
    · rw [h, if_pos hp]
      exact .inl ⟨head, rfl, hp, rfl, rfl⟩
    · rw [h, if_neg hp]
      exact .inr ⟨fun head' hhead => Option.some.inj hhead ▸ hp, rfl, rfl⟩

theorem declEnd_noneBom (head : List UInt8) : declEnd .noneBom head = head.length := by
  rw [declEnd]
  show 0 + head.length * 1 = _
  omega

/-- The declaration of a text. -/
def xmlDecl (host : Endian) (x : ConvBuf) : Option (List UInt8) := declaration (textUnits host x)

/-- How many units lie before `(int) blen`. -/
def unitsSeen (x : ConvBuf) : Nat :=
  let bom := ucsTextDetectBom x
  (toInt x.blen - bomLength bom).toNat / unitWidth bom

section Text

variable {host : Endian} {x : ConvBuf}

/-- Without units of more than a byte the characters are the bytes behind the mark. -/
theorem textUnits_of_bom {bom : UcsBom} (hdetect : ucsTextDetectBom x = bom)
    (hbom : bom = .noneBom ∨ bom = .utf8Bom) :
    textUnits host x = x.bytes.drop (bomLength bom) := by
  obtain ⟨text, htext⟩ : ∃ text, text = x.bytes.drop (bomLength bom) := ⟨_, rfl⟩
  have hone : text = text.flatMap fun c => [c] := (List.flatMap_singleton' _).symm
  have hunits := List.units_flatMap (w := 1) (f := fun b => b.headD (0 : UInt8))
    (g := fun c => [c]) (by decide) (fun _ => rfl) text
  rw [← hone] at hunits
  rw [textUnits, hdetect, ← htext]
  rcases hbom with rfl | rfl
  · exact hunits.trans (List.map_id _)
  · exact hunits.trans (List.map_id _)

theorem textUnits_noneBom (hbom : ucsTextDetectBom x = .noneBom) : textUnits host x = x.bytes :=
  textUnits_of_bom hbom (.inl rfl)

/-- The scan sees the first units of the text. -/
theorem headUnits_eq_take (host : Endian) (x : ConvBuf) :
    headUnits host x = (textUnits host x).take (unitsSeen x) := by
  have hw := unitWidth_pos (ucsTextDetectBom x)
  have hle := toInt_le x.blen
  simp only [headUnits, textUnits, unitsSeen, unitsFrom]
  generalize ucsTextDetectBom x = bom at hw ⊢
  generalize toInt x.blen = size at hle ⊢
  generalize hk : (size - bomLength bom).toNat = k
  rcases Nat.eq_zero_or_pos k with rfl | hpos
  · rw [Nat.zero_div, List.take_zero]
    rfl
  · have htake : (x.bytes.drop (bomLength bom)).take k = x.bufp.load (bomLength bom) k := by
      rw [ConvBuf.bytes, Mem.drop_load _ _ (by omega), Nat.zero_add, Mem.take_load _ _ (by omega)]
    rw [← List.units_take hw, htake, List.units, Mem.length_load]
    apply List.map_congr_left
    intro i hi
    have hroom := Nat.mul_le_mul_right (unitWidth bom) (Nat.succ_le_of_lt (List.mem_range.mp hi))
    have hdiv := Nat.div_mul_le_self k (unitWidth bom)
    rw [Nat.succ_mul] at hroom
    rw [Mem.drop_load _ _ (by omega), Mem.take_load _ _ (by omega)]

theorem declEnd_pos (bom : UcsBom) {head : List UInt8} (hne : head ≠ []) : 0 < declEnd bom head :=
  Nat.add_pos_right _ (Nat.mul_pos (List.length_pos_iff.mpr hne) (unitWidth_pos bom))

theorem declEnd_le_iff (bom : UcsBom) {head : List UInt8} {n : Nat} (hne : head ≠ []) :
    head.length ≤ (n - bomLength bom) / unitWidth bom ↔ declEnd bom head ≤ n := by
  have hw := unitWidth_pos bom
  have hpos := Nat.mul_pos (List.length_pos_iff.mpr hne) hw
  rw [Nat.le_div_iff_mul_le hw, declEnd]
  omega

theorem Declares.ne_nil {units head : List UInt8} (h : Declares units head) : head ≠ [] := by
  obtain ⟨pre, post, -, -, rfl⟩ := h.split
  exact List.append_ne_nil_of_right_ne_nil _ (List.cons_ne_nil _ _)

/-- A declaration of the units of `n` bytes ends within these. -/
theorem declaration_take_div (bom : UcsBom) (units : List UInt8) (n : Nat) :
    declaration (units.take ((n - bomLength bom) / unitWidth bom))
      = (declaration units).filter fun head => declEnd bom head ≤ n := by
  rw [declaration_take]
  rcases hdecl : declaration units with _ | head
  · rw [Option.filter_none, Option.filter_none]
  · have hiff := declEnd_le_iff bom (n := n) (declaration_eq_some_iff.mp hdecl).ne_nil
    rw [Option.filter_some, Option.filter_some, decide_eq_decide.mpr hiff]

/-- What the scan sees of the declaration is all of it, if that ends before `(int) blen`. -/
theorem declaration_headUnits (host : Endian) (x : ConvBuf) :
    declaration (headUnits host x) = (xmlDecl host x).filter fun head =>
      declEnd (ucsTextDetectBom x) head ≤ (toInt x.blen).toNat := by
  have hsub : ∀ (size : Int) (n : Nat), (size - n).toNat = size.toNat - n := by omega
  rw [headUnits_eq_take, unitsSeen, hsub, declaration_take_div, xmlDecl]

theorem xmlDecl_le {head : List UInt8} (h : xmlDecl host x = some head) :
    declEnd (ucsTextDetectBom x) head ≤ x.blen := by
  have hdecl := declaration_eq_some_iff.mp h
  rw [← declEnd_le_iff _ hdecl.ne_nil]
  refine Nat.le_trans hdecl.prefix_units.length_le (Nat.le_of_eq ?_)
  rw [textUnits, List.length_units, List.length_drop, ConvBuf.bytes, Mem.length_load]

/-- The scan sees all of a text of less than 2 GiB. -/
theorem declaration_headUnits_of_lt (host : Endian) {x : ConvBuf} (hx : x.blen < 2 ^ 31) :
    declaration (headUnits host x) = xmlDecl host x := by
  rw [declaration_headUnits, toInt_of_lt hx, Int.toNat_natCast]
  rcases hdecl : xmlDecl host x with _ | head
  · rw [Option.filter_none]
  · rw [Option.filter_some, if_pos (decide_eq_true (xmlDecl_le hdecl))]

/-- The first bytes of a text show the same mark. -/
theorem ucsTextDetectBom_take {x' : ConvBuf} {n : Nat} (hbytes : x'.bytes = x.bytes.take n)
    (hn : 4 ≤ n) : ucsTextDetectBom x' = ucsTextDetectBom x := by
  refine ucsTextDetectBom_eq ⟨?_, ?_⟩ (startsWithBom_detect x.shows_bytes)
  · have hlen : x'.blen = min n x.bytes.length := by
      rw [← List.length_take, ← hbytes, ConvBuf.bytes, Mem.length_load]
    omega
  · intro i hi c hc
    apply x'.shows_bytes.bytes i hi c
    rw [hbytes, List.getElem?_take_of_lt (by omega), hc]

/-- Of the first `n` bytes the declaration is the same, or cut off and none. -/
theorem xmlDecl_take {x' : ConvBuf} {n : Nat} (hbytes : x'.bytes = x.bytes.take n) (hn : 4 ≤ n) :
    xmlDecl host x' = (xmlDecl host x).filter fun head =>
      declEnd (ucsTextDetectBom x) head ≤ n := by
  rw [xmlDecl, textUnits, ucsTextDetectBom_take hbytes hn, hbytes, List.drop_take,
    List.units_take (unitWidth_pos _), declaration_take_div]
  rfl

/-- The scan ends where the text has a `>` among its first 127 units, or no more units. -/
theorem xmlTextParseHead_returns_of_text
    (h : (textUnits host x).length ≤ headbufSize - 1 ∨
      gt ∈ (textUnits host x).take (headbufSize - 1)) :
    ∃ r, XmlTextParseHeadReturns host x r := by
  apply xmlTextParseHead_returns_of_ends
  rw [headUnits_eq_take, List.take_take]
  rcases Nat.le_total (unitsSeen x) (headbufSize - 1) with hseen | hseen
  · exact .inl (Nat.le_trans (List.length_take_le _ _) hseen)
  · rw [Nat.min_eq_left hseen]
    rcases h with h | h
    · exact .inl (Nat.le_trans (List.length_take_le' _ _) h)
    · exact .inr h

/-- A scan that found a `>` has stopped behind it. -/
theorem scan_offset {s : ScanResult} {pre post : List UInt8}
    (hunits : headUnits host x = pre ++ gt :: post) (hpre : gt ∉ pre)
    (hlen : pre.length < headbufSize - 1) (h : Returns (scanOf host x) (scanStart x) s) :
    s.offset = declEnd (ucsTextDetectBom x) (pre ++ [gt]) := by
  obtain ⟨log, hscan⟩ := scan_found (unitWidth_pos _) (s := scanStart x) hunits hpre
    ((Nat.zero_add pre.length).symm ▸ hlen)
  rw [h.unique hscan, declEnd, List.length_append, List.length_singleton]
  rfl

theorem copyVersion_fst (headbuf : List UInt8) (bom : UcsBom) (m : Mem UInt8) :
    (copyVersion headbuf ⟨bom, m⟩).1 = ⟨bom, (copyVersion headbuf ⟨.noneBom, m⟩).1.fields⟩ := by
  simp only [copyVersion]
  split
  · split <;> rfl
  · rfl

theorem copyEncoding_fst (headbuf : List UInt8) (bom : UcsBom) (m : Mem UInt8) :
    (copyEncoding headbuf ⟨bom, m⟩).1 = ⟨bom, (copyEncoding headbuf ⟨.noneBom, m⟩).1.fields⟩ := by
  simp only [copyEncoding]
  split
  · split <;> rfl
  · rfl

/-- What is made of a scan that ended: the fields are those of the text up to `>`. -/
theorem headAttributes_eq (bom : UcsBom) {s : ScanResult} :
    ((headAttributes bom s).ret, (headAttributes bom s).xmlhead) =
      if acceptsHead s = true ∧ (strstr versionAttr (cstr s.head)).isSome = true then
        ((s.offset : Int), ⟨bom, declFields (some s.head)⟩)
      else declResult bom none := by
  simp only [headAttributes]
  by_cases haccept : acceptsHead s = true
  · by_cases hversion : (strstr versionAttr (cstr s.head)).isSome = true
    · simp only [haccept, hversion, and_self, if_true]
      rw [copyVersion_fst, copyEncoding_fst, ← copyVersion_fst]
      rfl
    · simp only [haccept, hversion, if_true]
      rfl
  · simp only [haccept]
    rfl

/-- Looking at the first `n` bytes and at the first `m` comes to the same if and only if the
declaration ends in both or in neither. -/
theorem declResult_agree_iff {bom : UcsBom} {units : List UInt8} {n m : Nat} :
    (declResult bom ((declaration units).filter fun head => declEnd bom head ≤ n)).1
        = (declResult bom ((declaration units).filter fun head => declEnd bom head ≤ m)).1 ↔
      ∀ head ∈ declaration units, (declEnd bom head ≤ n ↔ declEnd bom head ≤ m) := by
  rcases hdecl : declaration units with _ | head
  · simp
  · have hpos := declEnd_pos bom (declaration_eq_some_iff.mp hdecl).ne_nil
    rw [declResult_filter_some, declResult_filter_some]
    by_cases hn : declEnd bom head ≤ n <;> by_cases hm : declEnd bom head ≤ m <;>
      simp [hn, hm, declResult] <;> omega

theorem declResult_eq_of_agree {bom : UcsBom} {units : List UInt8} {n m : Nat}
    (h : ∀ head ∈ declaration units, (declEnd bom head ≤ n ↔ declEnd bom head ≤ m)) :
    (declaration units).filter (fun head => declEnd bom head ≤ n)
      = (declaration units).filter fun head => declEnd bom head ≤ m := by
  rcases hdecl : declaration units with _ | head
  · rfl
  · rw [Option.filter_some, Option.filter_some, decide_eq_decide.mpr (h head hdecl)]

/-- What the call returns is settled by the declaration. -/
theorem XmlTextParseHeadReturns.eq {r : HeadResult} (h : XmlTextParseHeadReturns host x r) :
    (r.ret, r.xmlhead) = declResult (ucsTextDetectBom x) (declaration (headUnits host x)) := by
  obtain ⟨s, hs, rfl⟩ := xmlTextParseHead_returns_iff.mp h
  rw [headAttributes_eq]
  cases scan_reads hs with
  | found pre post hunits hpre hlen hfound hhead =>
      have hoffset := scan_offset hunits hpre hlen hs
      have hroom : (pre ++ [gt]).length ≤ headbufSize - 1 := by
        rw [List.length_append, List.length_singleton]
        exact hlen
      rw [hunits, declaration_of_gt hpre, hhead, hoffset]
      simp only [acceptsHead, hfound, hhead, Bool.true_and, hroom, true_and]
      split <;> rfl
  | exhausted hgt _ hfound _ =>
      have hreject : acceptsHead s = false := by rw [acceptsHead, hfound, Bool.false_and]
      rw [hreject, declaration_eq_none hgt, if_neg (fun h => Bool.false_ne_true h.1)]

end Text

end Convd
