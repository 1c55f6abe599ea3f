/-
# `Convd.XmlGrammar` — every declaration is accepted

`XML_text_parse_head` has no grammar: it looks for the first `>`, at both ends of what lies
before it, and for two names anywhere in between.  The declarations here are those of XML 1.0
with the names and lengths the two fields have room for (`XmlDeclaration`); on each of them
the code finds what the grammar says.

    first `>`        the last character: no `>` in white space, a version or a code
    `version="`      behind the first white space: no `v` before it
    `encoding="`     where the grammar has it, or nowhere: it needs a `g` before an `=`, and the
                     other names end in `n` and `e` (`apart_front`, `apart_text`)
-/
import Convd.Descriptor
import Convd.XmlHeadRound

namespace Convd

open CString Loop

/-! ## The grammar -/

/-- White space: `isspace` in the "C" locale. -/
def IsSpace (c : UInt8) : Prop := c = 32 ∨ (9 ≤ c ∧ c ≤ 13)

def IsLetter (c : UInt8) : Prop := (65 ≤ c ∧ c ≤ 90) ∨ (97 ≤ c ∧ c ≤ 122)

def IsDigit (c : UInt8) : Prop := 48 ≤ c ∧ c ≤ 57

/-- `[A-Za-z0-9_.:-]` -/
def IsVersionChar (c : UInt8) : Prop := IsLetter c ∨ IsDigit c ∨ c ∈ ascii "_.:-"

/-- `[A-Za-z0-9._-]` -/
def IsCodeChar (c : UInt8) : Prop := IsLetter c ∨ IsDigit c ∨ c ∈ ascii "._-"

instance : DecidablePred IsSpace := fun _ => inferInstanceAs (Decidable (_ ∨ _))

instance : DecidablePred IsLetter := fun _ => inferInstanceAs (Decidable (_ ∨ _))

instance : DecidablePred IsDigit := fun _ => inferInstanceAs (Decidable (_ ∧ _))

instance : DecidablePred IsVersionChar := fun _ => inferInstanceAs (Decidable (_ ∨ _))

instance : DecidablePred IsCodeChar := fun _ => inferInstanceAs (Decidable (_ ∨ _))

/-- `standalone="` -/
def standaloneAttr : List UInt8 := ascii "standalone=\""

/-- The name of an encoding. -/
structure CodeName where
  first : UInt8
  rest : List UInt8
  letter : IsLetter first
  chars : ∀ c ∈ rest, IsCodeChar c
  length_le : rest.length ≤ 62

/-- White space. -/
structure Space where
  chars : List UInt8
  space : ∀ c ∈ chars, IsSpace c

/-- A declaration: `<?xml version="V"`, the encoding and `standalone` where they are, and `?>`,
with white space before each. -/
structure XmlDeclaration where
  space : Space
  version : List UInt8
  encoding : Option (Space × CodeName)
  standalone : Option (Space × Bool)
  last : Space
  version_chars : ∀ c ∈ version, IsVersionChar c
  version_length : 3 ≤ version.length ∧ version.length ≤ 15

def CodeName.name (e : CodeName) : List UInt8 := e.first :: e.rest

namespace XmlDeclaration

variable (d : XmlDeclaration)

/-- The encoding with its name and quotes. -/
def encodingPart : List (List UInt8) :=
  match d.encoding with
  | none => []
  | some (s, e) => [s.chars, encodingAttr, e.name, [34]]

def standalonePart : List (List UInt8) :=
  match d.standalone with
  | none => []
  | some (s, yes) => [s.chars, standaloneAttr, if yes then ascii "yes" else ascii "no", [34]]

/-- Through the version. -/
def versionPart : List (List UInt8) :=
  [ascii "<?xml ", d.space.chars, versionAttr, d.version, [34]]

/-- All but `?>`. -/
def front : List (List UInt8) :=
  d.versionPart ++ d.encodingPart ++ d.standalonePart ++ [d.last.chars]

/-- The declaration, written out. -/
def text : List UInt8 := d.front.flatten ++ ascii "?>"

/-- The encoding as it is stored; empty when there is none. -/
def code : List UInt8 := d.encoding.elim [] fun e => cstrToupper e.2.name

/-- `?>` and what is before it. -/
theorem text_eq : d.text = (d.front.flatten ++ [63]) ++ [gt] := by
  rw [text, List.append_assoc]
  rfl

/-! ## Characters -/

/-- What ends something: NUL, `"`, `=` and `>`. -/
def delims : List UInt8 := [0, 34, 61, gt]

/-- A piece with none of these in it. -/
def Clean (p : List UInt8) : Prop := ∀ c ∈ p, c ∉ delims

instance : DecidablePred Clean := fun _ => inferInstanceAs (Decidable (∀ c ∈ _, _))

theorem clean_of_chars {P : UInt8 → Prop} {p : List UInt8} (hp : ∀ c ∈ p, P c)
    (hdelims : ∀ c ∈ delims, ¬ P c) : Clean p := by
  intro c hc hdelim
  exact hdelims c hdelim (hp c hc)

theorem clean_space (s : Space) : Clean s.chars := clean_of_chars s.space (by decide +kernel)

theorem clean_version : Clean d.version := clean_of_chars d.version_chars (by decide +kernel)

theorem clean_name (e : CodeName) : Clean e.name := by
  apply clean_of_chars (P := IsCodeChar) _ (by decide +kernel)
  intro c hc
  rcases List.mem_cons.mp hc with rfl | hc
  · exact .inl e.letter
  · exact e.chars c hc

/-- The pieces of a declaration, but for the name `encoding`. -/
inductive Piece : List UInt8 → Prop
  | start : Piece (ascii "<?xml ")
  | version : Piece versionAttr
  | standalone : Piece standaloneAttr
  | quote : Piece [34]
  | clean {p : List UInt8} (hp : Clean p) : Piece p

theorem Piece.apart {p : List UInt8} (hp : Piece p) : Apart 103 61 p ∧ p.head? ≠ some 61 := by
  cases hp with
  | start => decide
  | version => decide
  | standalone => decide
  | quote => decide
  | clean hp => exact apart_of_no_equals fun hmem => hp 61 hmem (by decide)

theorem Piece.ne {p : List UInt8} (hp : Piece p) : ∀ c ∈ p, c ≠ 0 ∧ c ≠ gt := by
  cases hp with
  | start => decide +kernel
  | version => decide +kernel
  | standalone => decide +kernel
  | quote => decide +kernel
  | clean hp =>
      intro c hc
      constructor
      · rintro rfl
        exact hp 0 hc (by decide)
      · rintro rfl
        exact hp gt hc (by decide)

theorem piece_of_mem_versionPart : ∀ p ∈ d.versionPart, Piece p := by
  intro p hp
  simp only [versionPart, List.mem_cons, List.not_mem_nil, or_false] at hp
  rcases hp with rfl | rfl | rfl | rfl | rfl
  · exact .start
  · exact .clean (clean_space _)
  · exact .version
  · exact .clean d.clean_version
  · exact .quote

theorem piece_of_mem_standalonePart : ∀ p ∈ d.standalonePart, Piece p := by
  intro p hp
  rw [standalonePart] at hp
  split at hp
  · cases hp
  · rename_i s yes _
    simp only [List.mem_cons, List.not_mem_nil, or_false] at hp
    rcases hp with rfl | rfl | rfl | rfl
    · exact .clean (clean_space s)
    · exact .standalone
    · have hanswers : ∀ yes, Clean (if yes = true then ascii "yes" else ascii "no") := by
        decide +kernel
      exact .clean (hanswers yes)
    · exact .quote

theorem piece_of_mem_front (p : List UInt8) (hp : p ∈ d.front) :
    Piece p ∨ (p = encodingAttr ∧ d.encoding ≠ none) := by
  simp only [front, List.mem_append, List.mem_singleton] at hp
  rcases hp with ((hp | hp) | hp) | rfl
  · exact .inl (d.piece_of_mem_versionPart p hp)
  · rw [encodingPart] at hp
    split at hp
    · cases hp
    · rename_i s e henc
      simp only [List.mem_cons, List.not_mem_nil, or_false] at hp
      rcases hp with rfl | rfl | rfl | rfl
      · exact .inl (.clean (clean_space s))
      · exact .inr ⟨rfl, by rw [henc]; exact Option.some_ne_none _⟩
      · exact .inl (.clean (clean_name e))
      · exact .inl .quote
  · exact .inl (d.piece_of_mem_standalonePart p hp)
  · exact .inl (.clean (clean_space _))

theorem encodingAttr_ne : ∀ c ∈ encodingAttr, c ≠ 0 ∧ c ≠ gt := by decide +kernel

/-- Before `?>` there is no NUL and no `>`. -/
theorem ne_of_mem_front {c : UInt8} (hc : c ∈ d.front.flatten) : c ≠ 0 ∧ c ≠ gt := by
  obtain ⟨p, hp, hcp⟩ := List.mem_flatten.mp hc
  rcases d.piece_of_mem_front p hp with hpiece | ⟨rfl, -⟩
  · exact hpiece.ne c hcp
  · exact encodingAttr_ne c hcp

theorem gt_notMem : gt ∉ d.front.flatten ++ [63] := by
  intro hmem
  rcases List.mem_append.mp hmem with hmem | hmem
  · exact (d.ne_of_mem_front hmem).2 rfl
  · exact absurd hmem (by decide)

theorem cstr_text : cstr d.text = d.text := by
  have hend : ∀ c ∈ ascii "?>", c ≠ 0 := by decide +kernel
  apply cstr_eq_self
  intro c hc
  rcases List.mem_append.mp hc with hc | hc
  · exact (d.ne_of_mem_front hc).1
  · exact hend c hc

/-! ## Attributes -/

/-- Behind the version. -/
def tail : List UInt8 :=
  d.encodingPart.flatten ++ d.standalonePart.flatten ++ d.last.chars ++ ascii "?>"

theorem text_eq_version : d.text = (ascii "<?xml " ++ d.space.chars) ++
    (versionAttr ++ (d.version ++ 34 :: d.tail)) := by
  simp [text, front, versionPart, tail]

/-- Before the version there is no `v`. -/
theorem attrValue_version :
    ∃ s, attrValue versionAttr (cstr d.text) = some (s, d.version) := by
  have hquote : 34 ∉ d.version := fun hmem => d.clean_version 34 hmem (by decide)
  have hspace : ¬ IsSpace 118 := by decide
  have hstart : ∀ c ∈ ascii "<?xml ", c ≠ 118 := by decide +kernel
  rw [cstr_text, text_eq_version]
  refine ⟨_, attrValue_of_append hquote ?_⟩
  intro q hq hmatch
  have hget := getElem?_of_match hmatch (i := 0) (by decide)
  rw [Nat.add_zero, List.getElem?_append_left hq] at hget
  rcases List.mem_append.mp (List.mem_of_getElem? hget) with hmem | hmem
  · exact hstart _ hmem rfl
  · exact hspace (d.space.space _ hmem)

/-- The encoding is found where it is: up to its name no `=` has a `g` before it. -/
theorem attrValue_encoding_of_some {s : Space} {e : CodeName} (henc : d.encoding = some (s, e)) :
    ∃ i, attrValue encodingAttr (cstr d.text) = some (i, e.name) := by
  have hquote : 34 ∉ e.name := fun hmem => clean_name e 34 hmem (by decide)
  have hname : encodingAttr = ascii "encoding" ++ ascii "=\"" := by decide
  have hapart : Apart 103 61 (d.versionPart ++ [s.chars, ascii "encoding"]).flatten := by
    refine (Apart.flatten fun p hp => ?_).1
    simp only [List.mem_append, List.mem_cons, List.not_mem_nil, or_false] at hp
    rcases hp with hp | rfl | rfl
    · exact (d.piece_of_mem_versionPart p hp).apart
    · exact (Piece.clean (clean_space s)).apart
    · decide
  obtain ⟨rest, htext⟩ : ∃ rest, d.text = (d.versionPart.flatten ++ s.chars) ++
      (encodingAttr ++ (e.name ++ 34 :: rest)) := by
    refine ⟨d.standalonePart.flatten ++ d.last.chars ++ ascii "?>", ?_⟩
    simp [text, front, encodingPart, henc]
  rw [cstr_text, htext]
  refine ⟨_, attrValue_of_append hquote ?_⟩
  intro q hq
  have hsplit : (d.versionPart.flatten ++ s.chars) ++ (encodingAttr ++ (e.name ++ 34 :: rest))
      = (d.versionPart ++ [s.chars, ascii "encoding"]).flatten ++
          (ascii "=\"" ++ (e.name ++ 34 :: rest)) := by
    simp [hname]
  have hlen : (d.versionPart ++ [s.chars, ascii "encoding"]).flatten.length
      = (d.versionPart.flatten ++ s.chars).length + 8 := by
    simp [ascii]
    omega
  rw [hsplit]
  exact hapart.not_match (i := 7) (by decide) (by decide) (by omega) _

theorem attrValue_encoding_of_none (henc : d.encoding = none) :
    attrValue encodingAttr (cstr d.text) = none := by
  have hapart : Apart 103 61 (d.front ++ [ascii "?>"]).flatten := by
    refine (Apart.flatten fun p hp => ?_).1
    rcases List.mem_append.mp hp with hp | hp
    · rcases d.piece_of_mem_front p hp with hpiece | ⟨-, hsome⟩
      · exact hpiece.apart
      · exact absurd henc hsome
    · rw [List.mem_singleton.mp hp]
      decide
  have htext : d.text = (d.front ++ [ascii "?>"]).flatten := by simp [text]
  rw [cstr_text, htext]
  exact attrValue_eq_none (hapart.strstr_eq_none (i := 7) (by decide) (by decide))

/-! ## Acceptance -/

theorem head?_text : d.text.head? = some 60 := by
  rw [text_eq_version]
  rfl

theorem looksLikeHead_text : looksLikeHead d.text = true := by
  have hversion := d.version_length.1
  apply @looksLikeHead_of_split _ (d.space.chars ++ versionAttr ++ d.version ++
    (34 :: (d.encodingPart.flatten ++ d.standalonePart.flatten ++ d.last.chars)))
  · simp [text, front, versionPart]
  · simp [text, front, versionPart, ascii, versionAttr]
    omega

/-- Whatever stands behind it, a declaration is taken for one, through its `>`. -/
theorem declares (hlen : d.text.length ≤ 127) (rest : List UInt8) :
    Declares (d.text ++ rest) d.text where
  split := by
    refine ⟨d.front.flatten ++ [63], rest, ?_, d.gt_notMem, d.text_eq⟩
    rw [text_eq, List.append_assoc, List.singleton_append]
  length_le := hlen
  looks := d.looksLikeHead_text
  version := by
    obtain ⟨s, hval⟩ := d.attrValue_version
    exact strstr_isSome_of_attrValue hval

/-- What is stored of it is the version, and the code in upper case. -/
theorem declFields_text (bom : UcsBom) :
    (⟨bom, declFields (some d.text)⟩ : ConvXmlhead).version = d.version ∧
      (⟨bom, declFields (some d.text)⟩ : ConvXmlhead).encoding = d.code := by
  obtain ⟨hthree, hfifteen⟩ := d.version_length
  obtain ⟨s, hversion⟩ := d.attrValue_version
  have hfits : d.version.length < versionSize := Nat.lt_succ_of_le hfifteen
  constructor
  · refine version_declFields hversion (fun c hc => ?_) (by omega) hfits
    rintro rfl
    exact d.clean_version 0 hc (by decide)
  · cases henc : d.encoding with
    | none =>
        have hnone := d.attrValue_encoding_of_none henc
        rw [code, henc]
        simp only [ConvXmlhead.encoding, declFields, copyEncoding, hnone]
        refine encoding_copyVersion fun s' v hval => ?_
        rw [hversion] at hval
        cases hval
        exact hfits
    | some p =>
        obtain ⟨space, e⟩ := p
        obtain ⟨i, hval⟩ := d.attrValue_encoding_of_some henc
        rw [code, henc]
        refine encoding_declFields hval (cstrToupper_ne_zero fun c hc => ?_) (Nat.succ_pos _)
          (Nat.succ_lt_succ (Nat.lt_succ_of_le e.length_le))
        rintro rfl
        exact clean_name e 0 hc (by decide)

end XmlDeclaration

/-- Every declaration of the grammar that `headbuf` has room for is accepted, behind either mark
and whatever follows: the call returns where it ends, and what it names. -/
theorem xmlTextParseHead_accepts (host : Endian) (d : XmlDeclaration)
    (hlen : d.text.length ≤ 127) {bom : UcsBom} (hbom : bom = .noneBom ∨ bom = .utf8Bom)
    {x : ConvBuf} {rest : List UInt8} (hx : x.bytes = bomBytes bom ++ d.text ++ rest)
    (hblen : x.blen < 2 ^ 31) :
    ∃ r, XmlTextParseHeadReturns host x r ∧ r.ret = bomLength bom + d.text.length ∧
      r.xmlhead.version = d.version ∧ r.xmlhead.encoding = d.code := by
  have hbytes : d.text.flatMap (unitBytes host bom) = d.text := by
    rcases hbom with rfl | rfl
    · exact List.flatMap_singleton' _
    · exact List.flatMap_singleton' _
  have hdetect : ucsTextDetectBom x = bom := by
    apply ucsTextDetectBom_eq x.shows_bytes
    have hstarts := @startsWithBom_append host bom d.text rest
      (by rcases hbom with rfl | rfl <;> exact UcsBom.noConfusion) d.head?_text
    rwa [hbytes, ← hx] at hstarts
  have hunits : textUnits host x = d.text ++ rest := by
    rw [textUnits_of_bom hdetect hbom, hx, List.append_assoc, List.drop_left' (length_bomBytes _)]
  have hdecl : xmlDecl host x = some d.text := by
    rw [xmlDecl, hunits]
    exact declaration_eq_some_iff.mpr (d.declares hlen rest)
  obtain ⟨r, hr⟩ : ∃ r, XmlTextParseHeadReturns host x r := by
    apply xmlTextParseHead_returns_of_text
    right
    have hroom : d.text.length ≤ headbufSize - 1 := hlen
    rw [hunits, List.take_append, List.take_of_length_le hroom, d.text_eq]
    exact List.mem_append_left _ (List.mem_append_right _ List.mem_cons_self)
  have hresult := hr.eq
  rw [declaration_headUnits_of_lt host hblen, hdecl, hdetect] at hresult
  obtain ⟨hret, hhead⟩ := Prod.mk.inj hresult
  have hend : declEnd bom d.text = bomLength bom + d.text.length := by
    rcases hbom with rfl | rfl <;> exact congrArg _ (Nat.mul_one _)
  obtain ⟨hversion, hencoding⟩ := d.declFields_text bom
  refine ⟨r, hr, ?_, ?_, ?_⟩
  · rw [hret]
    exact_mod_cast hend
  · rw [hhead, hversion]
  · rw [hhead, hencoding]

/-- Version 1.1 in a code of Russia, with its white space. -/
def koiDecl : XmlDeclaration where
  space := ⟨[32], by decide +kernel⟩
  version := ascii "1.1"
  encoding := some (⟨[9, 32], by decide +kernel⟩,
    ⟨107, ascii "oi8-r", by decide +kernel, by decide +kernel, by decide⟩)
  standalone := some (⟨[10], by decide +kernel⟩, true)
  last := ⟨[], List.forall_mem_nil _⟩
  version_chars := by decide +kernel
  version_length := by decide

theorem xmlTextParseHead_accepts_koi :
    ∃ r, XmlTextParseHeadReturns .little
        (ConvBuf.ofList (bomBytes .utf8Bom ++ koiDecl.text ++ [60])) r ∧
      r.ret = bomLength .utf8Bom + koiDecl.text.length ∧ r.xmlhead.version = ascii "1.1" ∧
      r.xmlhead.encoding = ascii "KOI8-R" :=
  xmlTextParseHead_accepts .little koiDecl (by decide +kernel) (.inr rfl) (ConvBuf.bytes_ofList _)
    (by decide +kernel)

end Convd
