/-
# `Convd.XmlMarkup` — units that are taken for markup

The scan makes one `char` of each unit before it looks at it, so in UCS-2 and UCS-4 what it
finds are low bytes.  U+013E and U+673E are `>` to it, and a declaration may be made of such
characters throughout.  A result is one of markup exactly when the host is little-endian, as the
code believes every host is, and each unit that stands at a place of markup is below 256
(`xmlTextParseHead_markup_iff`).
-/
import Convd.XmlUnits

namespace Convd

open CString Loop

/-! ## Places of markup -/

/-- Where the name of an attribute stands, and the quote behind its value. -/
def attrPlaces (name headbuf : List UInt8) : List Nat :=
  ((strstr name headbuf).elim [] fun start => List.range' start name.length) ++
    (attrValue name headbuf).elim [] fun p => [p.1 + p.2.length]

/-- Where characters of the head were compared with markup, and equal to it. -/
def markupPlaces (head : List UInt8) : List Nat :=
  List.range 6 ++ attrPlaces versionAttr (cstr head) ++ attrPlaces encodingAttr (cstr head) ++
    [head.length - 2, head.length - 1]

/-- The units of a text at full width, its mark left out. -/
def wideUnits (x : ConvBuf) : List Nat :=
  let bom := ucsTextDetectBom x
  (x.bytes.drop (bomLength bom)).units (unitWidth bom) (bomOrder bom).value

/-- The first `k` units, themselves, are a declaration. -/
structure ReadsMarkup (units : List Nat) (places : List Nat) (k : Nat) : Prop where
  start : units.take 6 = (ascii "<?xml ").map UInt8.toNat
  last : units[k - 1]? = some 0x3E
  mark : units[k - 2]? = some 0x3F
  first : 0x3E ∉ units.take (k - 1)
  ascii : ∀ i ∈ places, ∀ u ∈ units[i]?, u < 0x80

/-- How many units lie before the byte `n`. -/
def unitsBefore (bom : UcsBom) (n : Nat) : Nat := (n - bomLength bom) / unitWidth bom

/-! ## Markup is ASCII -/

theorem getElem?_mono {l l' : List UInt8} (h : l <+: l') {i : Nat} {c : UInt8}
    (hi : l[i]? = some c) : l'[i]? = some c := by
  obtain ⟨t, rfl⟩ := h
  rw [List.getElem?_append_left (List.getElem?_eq_some_iff.mp hi).1, hi]

/-- The quote behind a value. -/
theorem getElem?_attrValue {name headbuf v : List UInt8} {s : Nat}
    (h : attrValue name headbuf = some (s, v)) : headbuf[s + v.length]? = some 34 := by
  obtain ⟨-, rest, hdrop⟩ := attrValue_split h
  rw [← List.getElem?_drop, hdrop, List.getElem?_append_right (Nat.le_refl _), Nat.sub_self]
  rfl

theorem ascii_of_attrPlaces {name headbuf : List UInt8} (hname : ∀ c ∈ name, c < 128) {i : Nat}
    (hi : i ∈ attrPlaces name headbuf) : ∃ c, headbuf[i]? = some c ∧ c < 128 := by
  rw [attrPlaces, List.mem_append] at hi
  rcases hi with hi | hi
  · rcases hstart : strstr name headbuf with _ | start
    · rw [hstart] at hi
      cases hi
    · rw [hstart, Option.elim_some, List.mem_range'_1] at hi
      obtain ⟨j, rfl⟩ := Nat.exists_eq_add_of_le hi.1
      have hj : j < name.length := by omega
      have hmatch := getElem?_of_match (strstr_eq_some_iff.mp hstart).2.1 hj
      rw [List.getElem?_eq_getElem hj] at hmatch
      exact ⟨_, hmatch, hname _ (List.getElem_mem hj)⟩
  · rcases hval : attrValue name headbuf with _ | ⟨s, v⟩
    · rw [hval] at hi
      cases hi
    · rw [hval, Option.elim_some, List.mem_singleton] at hi
      exact ⟨34, hi ▸ getElem?_attrValue hval, by decide⟩

/-- The head starts with `<?xml ` and ends with `?>`. -/
theorem looksLikeHead_iff {head : List UInt8} : looksLikeHead head = true ↔
    20 < head.length ∧ head.take 6 = ascii "<?xml " ∧ head[head.length - 2]? = some 63 ∧
      head[head.length - 1]? = some gt := by
  have hsix : (ascii "<?xml ").length = 6 := rfl
  simp only [looksLikeHead, cstrStartwith, hsix, Bool.and_eq_true, decide_eq_true_eq, beq_iff_eq]
  constructor
  · rintro ⟨⟨⟨hlen, -, hstart⟩, hmark⟩, hlast⟩
    exact ⟨hlen, hstart, hmark, hlast⟩
  · rintro ⟨hlen, hstart, hmark, hlast⟩
    exact ⟨⟨⟨hlen, by omega, hstart⟩, hmark⟩, hlast⟩

theorem ascii_of_markupPlaces {head : List UInt8} (hlooks : looksLikeHead head = true) {i : Nat}
    (hi : i ∈ markupPlaces head) : ∃ c, head[i]? = some c ∧ c < 128 := by
  obtain ⟨hlen, hstart, hmark, hlast⟩ := looksLikeHead_iff.mp hlooks
  have hcstr : cstr head <+: head := List.takeWhile_prefix _
  simp only [markupPlaces, List.mem_append, List.mem_cons, List.not_mem_nil, or_false] at hi
  rcases hi with ((hi | hi) | hi) | rfl | rfl
  · have hsix : ∀ i < 6, ∃ c, (ascii "<?xml ")[i]? = some c ∧ c < 128 := by decide
    obtain ⟨c, hc, hlt⟩ := hsix i (List.mem_range.mp hi)
    rw [← hstart, List.getElem?_take_of_lt (List.mem_range.mp hi)] at hc
    exact ⟨c, hc, hlt⟩
  · obtain ⟨c, hc, hlt⟩ := ascii_of_attrPlaces (by decide +kernel) hi
    exact ⟨c, getElem?_mono hcstr hc, hlt⟩
  · obtain ⟨c, hc, hlt⟩ := ascii_of_attrPlaces (by decide +kernel) hi
    exact ⟨c, getElem?_mono hcstr hc, hlt⟩
  · exact ⟨63, hmark, by decide⟩
  · exact ⟨gt, hlast, by decide⟩

/-! ## Units and the characters made of them -/

section Units

variable {host : Endian} {x : ConvBuf}

theorem two_le_unitWidth {bom : UcsBom} (hbom : isText bom = false) : 2 ≤ unitWidth bom := by
  cases bom <;> first | exact absurd hbom (by decide) | decide

/-- A character that the scan sees, and its unit. -/
theorem exists_unit_of_headUnits {i : Nat} {c : UInt8} (hi : (headUnits host x)[i]? = some c) :
    ∃ u : List UInt8, u.length = unitWidth (ucsTextDetectBom x) ∧
      (wideUnits x)[i]? = some ((bomOrder (ucsTextDetectBom x)).value u) ∧
      unitChar host (ucsTextDetectBom x) u = c := by
  have hw := unitWidth_pos (ucsTextDetectBom x)
  rw [headUnits_eq_take] at hi
  have htake : (textUnits host x).take (unitsSeen x) <+: textUnits host x := List.take_prefix _ _
  have hi := getElem?_mono htake hi
  rw [textUnits] at hi
  rw [wideUnits]
  generalize x.bytes.drop (bomLength (ucsTextDetectBom x)) = bytes at hi ⊢
  have hroom : i * unitWidth (ucsTextDetectBom x) + unitWidth (ucsTextDetectBom x)
      ≤ bytes.length := by
    by_contra hend
    rw [List.getElem?_units_eq_none hw (Nat.lt_of_not_le hend)] at hi
    cases hi
  rw [List.getElem?_units hw hroom] at hi
  refine ⟨_, ?_, List.getElem?_units hw hroom, Option.some.inj hi⟩
  rw [List.length_take, List.length_drop]
  omega

/-- On a little-endian host a unit below 256 is its character. -/
theorem unit_eq_of_lt {i u : Nat} {c : UInt8} (hi : (headUnits .little x)[i]? = some c)
    (hu : (wideUnits x)[i]? = some u) (hlt : u < 256) : u = c.toNat := by
  obtain ⟨b, hb, hwide, hchar⟩ := exists_unit_of_headUnits hi
  rw [unitChar_little hb, Option.some.inj (hwide.symm.trans hu)] at hchar
  rw [← hchar, UInt8.toNat_ofNat', Nat.mod_eq_of_lt hlt]

/-- On a big-endian host it is a NUL. -/
theorem char_eq_zero_of_lt (hucs : isText (ucsTextDetectBom x) = false) {i u : Nat} {c : UInt8}
    (hi : (headUnits .big x)[i]? = some c) (hu : (wideUnits x)[i]? = some u) (hlt : u < 256) :
    c = 0 := by
  obtain ⟨b, hb, hwide, hchar⟩ := exists_unit_of_headUnits hi
  have hvalue := Option.some.inj (hwide.symm.trans hu)
  rw [← hchar, unitChar_big hucs hb]
  exact Endian.ofNat_flip_value _ (hb ▸ two_le_unitWidth hucs) (hvalue ▸ hlt)

/-! ## What is found -/

variable {head : List UInt8}

/-- Before the `>` that is found there is none, at full width either. -/
theorem gt_notMem_wideUnits (hdecl : Declares (headUnits .little x) head) :
    0x3E ∉ (wideUnits x).take (head.length - 1) := by
  obtain ⟨pre, post, hunits, hpre, rfl⟩ := hdecl.split
  intro hmem
  obtain ⟨i, hi⟩ := List.getElem?_of_mem hmem
  rw [List.length_append, List.length_singleton, Nat.add_sub_cancel, List.getElem?_take] at hi
  split at hi
  · rename_i hlt
    have hc : (headUnits .little x)[i]? = some pre[i] := by
      rw [hunits, List.getElem?_append_left hlt, List.getElem?_eq_getElem hlt]
    have hchar := unit_eq_of_lt hc hi (by decide)
    have hgt : pre[i] = gt := UInt8.toNat_inj.mp hchar.symm
    exact hpre (hgt ▸ List.getElem_mem hlt)
  · cases hi

/-- A declaration whose units, at the places of markup, are characters. -/
theorem readsMarkup_of_lt (hdecl : Declares (headUnits .little x) head)
    (hlt : ∀ i ∈ markupPlaces head, ∀ u ∈ (wideUnits x)[i]?, u < 256) :
    ReadsMarkup (wideUnits x) (markupPlaces head) head.length := by
  obtain ⟨hlen, hstart, hmark, hlast⟩ := looksLikeHead_iff.mp hdecl.looks
  -- a unit that is read has a character, and the other way round
  have hunit : ∀ i ∈ markupPlaces head, ∀ c, head[i]? = some c →
      (wideUnits x)[i]? = some c.toNat := by
    intro i hi c hc
    have hseen := getElem?_mono hdecl.prefix_units hc
    obtain ⟨b, -, hwide, -⟩ := exists_unit_of_headUnits hseen
    rw [hwide, unit_eq_of_lt hseen hwide (hlt i hi _ hwide)]
  have hplace : ∀ {i}, i ∈ List.range 6 ∨ i = head.length - 2 ∨ i = head.length - 1 →
      i ∈ markupPlaces head := by
    intro i hi
    simp only [markupPlaces, List.mem_append, List.mem_cons, List.not_mem_nil, or_false]
    tauto
  refine ⟨?_, ?_, ?_, ?_, ?_⟩
  · rw [← hstart]
    apply List.ext_getElem?
    intro i
    rw [List.getElem?_map, List.getElem?_take, List.getElem?_take]
    split
    · rename_i hi
      have hc := List.getElem?_eq_getElem (show i < head.length by omega)
      rw [hunit i (hplace (.inl (List.mem_range.mpr hi))) _ hc, hc]
      rfl
    · rfl
  · exact hunit _ (hplace (.inr (.inr rfl))) _ hlast
  · exact hunit _ (hplace (.inr (.inl rfl))) _ hmark
  · exact gt_notMem_wideUnits hdecl
  · intro i hi u hu
    obtain ⟨c, hc, hascii⟩ := ascii_of_markupPlaces hdecl.looks hi
    rw [hunit i hi c hc] at hu
    obtain rfl := Option.some.inj hu
    exact hascii

/-- A big-endian host finds no declaration of markup. -/
theorem little_of_readsMarkup (hucs : isText (ucsTextDetectBom x) = false)
    (hdecl : Declares (headUnits host x) head) {places : List Nat} {k : Nat}
    (hread : ReadsMarkup (wideUnits x) places k) : host = .little := by
  cases host with
  | little => rfl
  | big =>
      have hwide := congrArg (·[0]?) hread.start
      rw [List.getElem?_take_of_lt (by decide)] at hwide
      have hchar := congrArg (·[0]?) (looksLikeHead_iff.mp hdecl.looks).2.1
      rw [List.getElem?_take_of_lt (by decide)] at hchar
      have hzero := char_eq_zero_of_lt hucs (getElem?_mono hdecl.prefix_units hchar) hwide
        (by decide)
      exact absurd hzero (by decide)

/-- Where a declaration ends, counted in units. -/
theorem unitsBefore_declEnd (bom : UcsBom) (head : List UInt8) :
    unitsBefore bom (declEnd bom head) = head.length := by
  rw [unitsBefore, declEnd, Nat.add_sub_cancel_left, Nat.mul_div_cancel _ (unitWidth_pos bom)]

/-- What is found in units of any value starts with `<?xml `, ends with `?>`, holds no other
`>` and takes no other unit for markup, at full width, if and only if the host is
little-endian and no unit at a place of markup is above 255. -/
theorem xmlTextParseHead_markup_iff {r : HeadResult} (hucs : isText (ucsTextDetectBom x) = false)
    (h : XmlTextParseHeadReturns host x r) :
    (0 < r.ret → ∀ k, unitsBefore (ucsTextDetectBom x) r.ret.toNat = k →
        ReadsMarkup (wideUnits x) (markupPlaces ((headUnits host x).take k)) k) ↔
      ∀ head ∈ declaration (headUnits host x),
        host = .little ∧ ∀ i ∈ markupPlaces head, ∀ u ∈ (wideUnits x)[i]?, u < 256 := by
  have hret := congrArg Prod.fst h.eq
  rcases hdecl : declaration (headUnits host x) with _ | head
  · rw [hdecl] at hret
    constructor
    · intro _ head hhead
      cases hhead
    · intro _ hpos
      exact absurd hret (Int.ne_of_gt hpos)
  · have hd := declaration_eq_some_iff.mp hdecl
    have hend : r.ret = declEnd (ucsTextDetectBom x) head := by
      rw [hdecl] at hret
      exact hret
    have htake : (headUnits host x).take head.length = head :=
      List.prefix_iff_eq_take.mp hd.prefix_units |>.symm
    have hpos := declEnd_pos (ucsTextDetectBom x) hd.ne_nil
    constructor
    · intro hreads head' hhead'
      obtain rfl := Option.some.inj hhead'
      have hread := hreads (by omega) head.length
        (by rw [hend, Int.toNat_natCast, unitsBefore_declEnd])
      rw [htake] at hread
      refine ⟨little_of_readsMarkup hucs hd hread, fun i hi u hu => ?_⟩
      exact Nat.lt_trans (hread.ascii i hi u hu) (by decide)
    · intro hplaces _ k hk
      obtain ⟨rfl, hlt⟩ := hplaces head rfl
      rw [hend, Int.toNat_natCast, unitsBefore_declEnd] at hk
      rw [← hk, htake]
      exact readsMarkup_of_lt hd hlt

end Units

/-- The plain declaration in UCS-2LE, with `u` as its last unit. -/
def declEndingWith (u : List UInt8) : ConvBuf :=
  ConvBuf.ofList (encodeText .ucs2leBom plainDecl.dropLast ++ u)

theorem xmlTextParseHead_markup_iff_plain :
    ∃ r, XmlTextParseHeadReturns .little (declEndingWith [0x3E, 0]) r ∧
      ((0 < r.ret → ∀ k, unitsBefore (ucsTextDetectBom (declEndingWith [0x3E, 0])) r.ret.toNat = k →
        ReadsMarkup (wideUnits (declEndingWith [0x3E, 0]))
          (markupPlaces ((headUnits .little (declEndingWith [0x3E, 0])).take k)) k) ↔
      ∀ head ∈ declaration (headUnits .little (declEndingWith [0x3E, 0])),
        Endian.little = .little ∧ ∀ i ∈ markupPlaces head,
          ∀ u ∈ (wideUnits (declEndingWith [0x3E, 0]))[i]?, u < 256) := by
  have hsome : (xmlTextParseHead .little 64 (declEndingWith [0x3E, 0])).isSome = true := by
    decide +kernel
  obtain ⟨r, hr⟩ := Option.isSome_iff_exists.mp hsome
  exact ⟨r, ⟨64, hr⟩, xmlTextParseHead_markup_iff (by decide +kernel) ⟨64, hr⟩⟩

/-- U+013E is taken for the `>` of a declaration. -/
theorem xmlTextParseHead_takes_u013E :
    ¬ ∀ (host : Endian) (x : ConvBuf) (r : HeadResult), isText (ucsTextDetectBom x) = false →
      XmlTextParseHeadReturns host x r → 0 < r.ret →
      ∀ k, unitsBefore (ucsTextDetectBom x) r.ret.toNat = k →
        ReadsMarkup (wideUnits x) (markupPlaces ((headUnits host x).take k)) k := by
  intro hmarkup
  have hrun : (xmlTextParseHead .little 64 (declEndingWith [0x3E, 0x01])).any
      (fun r => r.ret == 44) = true := by decide +kernel
  obtain ⟨r, hr, hret⟩ := (Option.any_eq_true _ _).mp hrun
  have hret : r.ret = 44 := beq_iff_eq.mp hret
  have hread := hmarkup .little (declEndingWith [0x3E, 0x01]) r (by decide +kernel) ⟨64, hr⟩
    (by omega) 21 (by rw [hret]; decide +kernel)
  have hunit : (wideUnits (declEndingWith [0x3E, 0x01]))[20]? = some 0x013E := by decide +kernel
  exact absurd (hread.last.symm.trans hunit) (by decide)

end Convd
