/-
# `Convd.Encodings` — the encodings of the input, by their bytes

A text in an encoding is a list of characters, and a character a list of bytes in the
ranges the encoding has for its first byte and for those that follow:

    UTF-8      00-7F, or a lead byte C2-F4 and one to three of 80-BF
    GB2312     00-7F, or A1-F7 A1-FE
    GBK        00-7F, or 81-FE 40-FE, the second not 7F
    BIG5       00-7F, or 81-FE 40-7E, or 81-FE A1-FE
    GB18030    as GBK, or 81-FE 30-39 81-FE 30-39
    UTF-16     a unit that is no surrogate, or a high and a low one

Whether such a pair of bytes stands for a character is a matter of tables, which the
cutting of lines does not look at; so texts here are at least those of the encoding.
-/
import Convd.LineCuts

namespace Convd

/-- The encodings the input may be in. -/
inductive Encoding where
  | utf8
  | gb2312
  | gbk
  | big5
  | gb18030
  | utf16 (order : Endian)

/-! ## Characters -/

/-- The byte `b` is one of `lo` to `hi`. -/
def within (lo hi : Nat) (b : UInt8) : Bool := decide (lo ≤ b.toNat) && decide (b.toNat ≤ hi)

/-- The least byte that follows a lead byte of UTF-8; below it are the overlong forms. -/
def utf8Least (lead : UInt8) : Nat :=
  if lead = 0xE0 then 0xA0 else if lead = 0xF0 then 0x90 else 0x80

/-- The greatest one; above it are the surrogates, and what is beyond U+10FFFF. -/
def utf8Greatest (lead : UInt8) : Nat :=
  if lead = 0xED then 0x9F else if lead = 0xF4 then 0x8F else 0xBF

def utf8Char : List UInt8 → Bool
  | [a] => within 0x00 0x7F a
  | [a, b] => within 0xC2 0xDF a && within 0x80 0xBF b
  | [a, b, c] =>
      within 0xE0 0xEF a && within (utf8Least a) (utf8Greatest a) b && within 0x80 0xBF c
  | [a, b, c, d] =>
      within 0xF0 0xF4 a && within (utf8Least a) (utf8Greatest a) b && within 0x80 0xBF c &&
        within 0x80 0xBF d
  | _ => false

def gb2312Char : List UInt8 → Bool
  | [a] => within 0x00 0x7F a
  | [a, b] => within 0xA1 0xF7 a && within 0xA1 0xFE b
  | _ => false

def gbkChar : List UInt8 → Bool
  | [a] => within 0x00 0x7F a
  | [a, b] => within 0x81 0xFE a && within 0x40 0xFE b && b != 0x7F
  | _ => false

def big5Char : List UInt8 → Bool
  | [a] => within 0x00 0x7F a
  | [a, b] => within 0x81 0xFE a && (within 0x40 0x7E b || within 0xA1 0xFE b)
  | _ => false

def gb18030Char : List UInt8 → Bool
  | [a, b, c, d] =>
      within 0x81 0xFE a && within 0x30 0x39 b && within 0x81 0xFE c && within 0x30 0x39 d
  | bytes => gbkChar bytes

/-- The unit is the first, or the second, of a pair. -/
def highSurrogate (u : Nat) : Bool := decide (0xD800 ≤ u) && decide (u ≤ 0xDBFF)
def lowSurrogate (u : Nat) : Bool := decide (0xDC00 ≤ u) && decide (u ≤ 0xDFFF)

def utf16Char (order : Endian) : List UInt8 → Bool
  | [a, b] => !highSurrogate (order.value [a, b]) && !lowSurrogate (order.value [a, b])
  | [a, b, c, d] => highSurrogate (order.value [a, b]) && lowSurrogate (order.value [c, d])
  | _ => false

/-- The bytes have the form of a character. -/
def Encoding.isChar : Encoding → List UInt8 → Bool
  | .utf8 => utf8Char
  | .gb2312 => gb2312Char
  | .gbk => gbkChar
  | .big5 => big5Char
  | .gb18030 => gb18030Char
  | .utf16 order => utf16Char order

/-- The file begins with the mark UTF-16 is read by; the others need none. -/
def Encoding.HasMark (file : List UInt8) : Encoding → Prop
  | .utf16 .big => bomBytes .ucs2beBom <+: file
  | .utf16 .little => bomBytes .ucs2leBom <+: file
  | _ => True

/-- A file of characters. -/
structure EncodedFile (enc : Encoding) where
  chars : List (List UInt8)
  valid : ∀ c ∈ chars, enc.isChar c = true
  marked : enc.HasMark chars.flatten
  length_lt : chars.flatten.length < 2 ^ 63

/-- The bytes of the file. -/
def EncodedFile.file {enc : Encoding} (t : EncodedFile enc) : List UInt8 := t.chars.flatten

/-! ## What the bytes of a character are -/

theorem within_iff {lo hi : Nat} {b : UInt8} :
    within lo hi b = true ↔ lo ≤ b.toNat ∧ b.toNat ≤ hi := by
  rw [within, Bool.and_eq_true, decide_eq_true_iff, decide_eq_true_iff]

theorem le_utf8Least (lead : UInt8) : 0x80 ≤ utf8Least lead := by
  rw [utf8Least]
  split
  · exact (by decide)
  · split <;> exact (by decide)

theorem utf8Greatest_le (lead : UInt8) : utf8Greatest lead ≤ 0xBF := by
  rw [utf8Greatest]
  split
  · exact (by decide)
  · split <;> exact (by decide)

/-- A character of UTF-8 is one byte below 80, or bytes from 80 on. -/
theorem utf8Char_bytes {c : List UInt8} (hc : utf8Char c = true) :
    (∃ a, c = [a] ∧ a.toNat < 0x80) ∨ ∀ b ∈ c, 0x80 ≤ b.toNat ∧ b.toNat < 0xFF := by
  rcases c with _ | ⟨a, _ | ⟨b, _ | ⟨c, _ | ⟨d, _ | ⟨e, cs⟩⟩⟩⟩⟩
  · exact .inr fun _ h => nomatch h
  · exact .inl ⟨a, rfl, Nat.lt_succ_of_le (within_iff.mp hc).2⟩
  · simp [utf8Char, within_iff] at hc ⊢
    omega
  · have hleast := le_utf8Least a
    have hgreatest := utf8Greatest_le a
    simp [utf8Char, within_iff] at hc ⊢
    omega
  · have hleast := le_utf8Least a
    have hgreatest := utf8Greatest_le a
    simp [utf8Char, within_iff] at hc ⊢
    omega
  · cases hc

theorem gb2312Char_bytes {c : List UInt8} (hc : gb2312Char c = true) :
    (∃ a, c = [a] ∧ a.toNat < 0x80) ∨ ∀ b ∈ c, 0x80 ≤ b.toNat ∧ b.toNat < 0xFF := by
  rcases c with _ | ⟨a, _ | ⟨b, _ | ⟨c, cs⟩⟩⟩
  · exact .inr fun _ h => nomatch h
  · exact .inl ⟨a, rfl, Nat.lt_succ_of_le (within_iff.mp hc).2⟩
  · simp [gb2312Char, within_iff] at hc ⊢
    omega
  · cases hc

theorem gbkChar_bytes {c : List UInt8} (hc : gbkChar c = true) : ∀ b ∈ c, b.toNat < 0xFF := by
  rcases c with _ | ⟨a, _ | ⟨b, _ | ⟨c, cs⟩⟩⟩ <;> simp [gbkChar, within_iff] at hc ⊢ <;> omega

theorem big5Char_bytes {c : List UInt8} (hc : big5Char c = true) : ∀ b ∈ c, b.toNat < 0xFF := by
  rcases c with _ | ⟨a, _ | ⟨b, _ | ⟨c, cs⟩⟩⟩ <;> simp [big5Char, within_iff] at hc ⊢ <;> omega

theorem gb18030Char_bytes {c : List UInt8} (hc : gb18030Char c = true) :
    ∀ b ∈ c, b.toNat < 0xFF := by
  unfold gb18030Char at hc
  split at hc
  · simp [within_iff] at hc ⊢
    omega
  · exact gbkChar_bytes hc

theorem utf16Char_length {order : Endian} {c : List UInt8} (hc : utf16Char order c = true) :
    c.length = 2 ∨ c.length = 4 := by
  rcases c with _ | ⟨a, _ | ⟨b, _ | ⟨c, _ | ⟨d, _ | ⟨e, cs⟩⟩⟩⟩⟩
  · cases hc
  · cases hc
  · exact .inl rfl
  · cases hc
  · exact .inr rfl
  · cases hc

/-- The encodings that are made of bytes. -/
def Encoding.isBytes : Encoding → Bool
  | .utf16 _ => false
  | _ => true

/-- Only UTF-16 has a byte FF. -/
theorem Encoding.toNat_lt {enc : Encoding} (hbytes : enc.isBytes = true) {c : List UInt8}
    (hc : enc.isChar c = true) : ∀ b ∈ c, b.toNat < 0xFF := by
  have hlow : (∃ a, c = [a] ∧ a.toNat < 0x80) ∨ (∀ b ∈ c, 0x80 ≤ b.toNat ∧ b.toNat < 0xFF) →
      ∀ b ∈ c, b.toNat < 0xFF := by
    rintro (⟨a, rfl, ha⟩ | hall) b hb
    · rw [List.mem_singleton.mp hb]
      omega
    · exact (hall b hb).2
  cases enc with
  | utf8 => exact hlow (utf8Char_bytes hc)
  | gb2312 => exact hlow (gb2312Char_bytes hc)
  | gbk => exact gbkChar_bytes hc
  | big5 => exact big5Char_bytes hc
  | gb18030 => exact gb18030Char_bytes hc
  | utf16 order => cases hbytes

/-! ## The mark of a file -/

section Mark

variable {enc : Encoding} {bom : UcsBom}

/-- A file without a byte FF is read as text. -/
theorem isText_of_toNat_lt {file : List UInt8} (hbom : StartsWithBom file bom)
    (hlt : ∀ b ∈ file, b.toNat < 0xFF) : isText bom = true := by
  have hno : ∀ mark : List UInt8, mark <+: file → (0xFF : UInt8) ∉ mark := by
    intro mark hmark hmem
    exact absurd (hlt _ (hmark.subset hmem)) (by decide)
  cases bom with
  | ucs2beBom => exact absurd (by decide) (hno _ hbom)
  | ucs2leBom => exact absurd (by decide) (hno _ hbom.1)
  | ucs4beBom => exact absurd (by decide) (hno _ hbom)
  | ucs4leBom => exact absurd (by decide) (hno _ hbom)
  | utf8Bom => rfl
  | noneBom => rfl
  | utf8BomAsk => rfl

theorem EncodedFile.isText (t : EncodedFile enc) (hbytes : enc.isBytes = true)
    (hbom : StartsWithBom t.file bom) : isText bom = true := by
  refine isText_of_toNat_lt hbom fun b hb => ?_
  obtain ⟨c, hc, hbc⟩ := List.mem_flatten.mp hb
  exact enc.toNat_lt hbytes (t.valid c hc) b hbc

/-- UTF-16 is read in units of two bytes, or of four when its first character is U+0000. -/
theorem EncodedFile.units {order : Endian} (t : EncodedFile (.utf16 order))
    (hbom : StartsWithBom t.file bom) : Convd.isText bom = false ∧ 2 ∣ unitWidth bom := by
  cases order with
  | big =>
      have hbig : StartsWithBom t.file .ucs2beBom := t.marked
      rw [hbom.unique hbig]
      exact ⟨rfl, Nat.dvd_refl 2⟩
  | little =>
      by_cases hlong : StartsWithBom t.file .ucs4leBom
      · rw [hbom.unique hlong]
        exact ⟨rfl, ⟨2, rfl⟩⟩
      · have hlittle : StartsWithBom t.file .ucs2leBom := ⟨t.marked, hlong⟩
        rw [hbom.unique hlittle]
        exact ⟨rfl, Nat.dvd_refl 2⟩

end Mark

end Convd
