/-
# `Convd.Bom` — detecting the byte order mark

`UCS_text_detect_bom` looks at up to four bytes, longer marks first where one
mark begins another: `FF FE` is UCS-2LE unless `00 00` follows, which makes it
UCS-4LE.  `StartsWithBom` says what it means for a text to start with a given
mark, and `ucsTextDetectBom_eq` that the function decides it.
-/
import Convd.Def

namespace Convd

/-- `UCS_text_detect_bom` -/
def ucsTextDetectBom (header : ConvBuf) : UcsBom :=
  let b := header.bufp
  if header.blen > 1 then
    if b 0 = 0xFE ∧ b 1 = 0xFF then .ucs2beBom
    else if b 0 = 0x00 ∧ b 1 = 0x00 ∧ header.blen > 3 ∧ b 2 = 0xFE ∧ b 3 = 0xFF then .ucs4beBom
    else if b 0 = 0xFF ∧ b 1 = 0xFE then
      if header.blen > 3 ∧ b 2 = 0x00 ∧ b 3 = 0x00 then .ucs4leBom else .ucs2leBom
    else if b 0 = 0xEF ∧ b 1 = 0xBB then
      -- one more byte is needed
      if header.blen = 2 then .utf8BomAsk
      else if b 2 = 0xBF then .utf8Bom
      else .noneBom
    else .noneBom
  else .noneBom

/-- The bytes `UCS_text_detect_bom` reads, branch by branch. -/
def ucsTextDetectBomReads (header : ConvBuf) : List Span :=
  let b := header.bufp
  if header.blen > 1 then
    ⟨0, 2⟩ ::
      if b 0 = 0x00 ∧ b 1 = 0x00 ∨ b 0 = 0xFF ∧ b 1 = 0xFE then
        if header.blen > 3 then [⟨2, 2⟩] else []
      else if b 0 = 0xEF ∧ b 1 = 0xBB then
        if header.blen = 2 then [] else [⟨2, 1⟩]
      else []
  else []

/-- The length of the mark, which is where the text starts. -/
def bomLength : UcsBom → Nat
  | .ucs2beBom | .ucs2leBom => 2
  | .ucs4beBom | .ucs4leBom => 4
  | .utf8Bom => 3
  | .noneBom | .utf8BomAsk => 0

/-- The bytes of the mark. -/
def bomBytes : UcsBom → List UInt8
  | .ucs2beBom => [0xFE, 0xFF]
  | .ucs2leBom => [0xFF, 0xFE]
  | .ucs4beBom => [0x00, 0x00, 0xFE, 0xFF]
  | .ucs4leBom => [0xFF, 0xFE, 0x00, 0x00]
  | .utf8Bom => [0xEF, 0xBB, 0xBF]
  | .noneBom | .utf8BomAsk => []

/-- How many bytes make a unit of the text. -/
def unitWidth : UcsBom → Nat
  | .ucs2beBom | .ucs2leBom => 2
  | .ucs4beBom | .ucs4leBom => 4
  | .utf8Bom | .noneBom | .utf8BomAsk => 1

theorem length_bomBytes (b : UcsBom) : (bomBytes b).length = bomLength b := by cases b <;> rfl

theorem unitWidth_pos (b : UcsBom) : 0 < unitWidth b := by cases b <;> decide

theorem unitWidth_le (b : UcsBom) : unitWidth b ≤ 4 := by cases b <;> decide

theorem bomLength_le (b : UcsBom) : bomLength b ≤ 4 := by cases b <;> decide

/-- The text starts with the mark `b`: with its bytes, and with no longer mark.
No mark is one of the cases, and so is the text that is a cut-off UTF-8 mark. -/
def StartsWithBom (text : List UInt8) : UcsBom → Prop
  | .ucs2leBom => bomBytes .ucs2leBom <+: text ∧ ¬ bomBytes .ucs4leBom <+: text
  | .utf8BomAsk => text = [0xEF, 0xBB]
  | .noneBom => text ≠ [0xEF, 0xBB] ∧ ¬ bomBytes .ucs2beBom <+: text ∧
      ¬ bomBytes .ucs2leBom <+: text ∧ ¬ bomBytes .ucs4beBom <+: text ∧
      ¬ bomBytes .utf8Bom <+: text
  | b => bomBytes b <+: text

instance (text : List UInt8) : (b : UcsBom) → Decidable (StartsWithBom text b)
  | .ucs2leBom => inferInstanceAs (Decidable (_ ∧ _))
  | .utf8BomAsk => inferInstanceAs (Decidable (_ = _))
  | .noneBom => inferInstanceAs (Decidable (_ ∧ _))
  | .utf8Bom => inferInstanceAs (Decidable (_ <+: _))
  | .ucs2beBom => inferInstanceAs (Decidable (_ <+: _))
  | .ucs4beBom => inferInstanceAs (Decidable (_ <+: _))
  | .ucs4leBom => inferInstanceAs (Decidable (_ <+: _))

/-- The buffer shows what detection needs of `text`: its first bytes, and
whether it is long enough for each mark. -/
structure ConvBuf.Shows (x : ConvBuf) (text : List UInt8) : Prop where
  blen : min x.blen 4 = min text.length 4
  bytes : ∀ i < 4, ∀ c, text[i]? = some c → x.bufp i = c

theorem ConvBuf.shows_bytes (x : ConvBuf) : x.Shows x.bytes := by
  refine ⟨by rw [ConvBuf.bytes, Mem.length_load], fun i _ c hc => ?_⟩
  rw [ConvBuf.bytes, Mem.getElem?_load] at hc
  split at hc
  · rw [Nat.zero_add] at hc
    exact Option.some.inj hc
  · cases hc

/-- The function finds a mark that the text starts with. -/
theorem startsWithBom_detect {x : ConvBuf} {text : List UInt8} (h : x.Shows text) :
    StartsWithBom text (ucsTextDetectBom x) := by
  obtain ⟨hlen, hb⟩ := h
  rcases text with _ | ⟨a, _ | ⟨b, _ | ⟨c, _ | ⟨d, rest⟩⟩⟩⟩
  · have : ¬ x.blen > 1 := by simp at hlen; omega
    simp [ucsTextDetectBom, this, StartsWithBom, bomBytes]
  · have : ¬ x.blen > 1 := by simp at hlen; omega
    simp [ucsTextDetectBom, this, StartsWithBom, bomBytes]
  · have hx : x.blen = 2 := by simp at hlen; omega
    have h0 := hb 0 (by decide) a rfl
    have h1 := hb 1 (by decide) b rfl
    clear hb hlen
    simp only [ucsTextDetectBom, hx, h0, h1]
    split_ifs <;> simp [StartsWithBom, bomBytes] <;> grind
  · have hx : x.blen = 3 := by simp at hlen; omega
    have h0 := hb 0 (by decide) a rfl
    have h1 := hb 1 (by decide) b rfl
    have h2 := hb 2 (by decide) c rfl
    clear hb hlen
    simp only [ucsTextDetectBom, hx, h0, h1, h2]
    split_ifs <;> simp [StartsWithBom, bomBytes] <;> grind
  · have hx : 3 < x.blen := by simp at hlen; omega
    have h0 := hb 0 (by decide) a rfl
    have h1 := hb 1 (by decide) b rfl
    have h2 := hb 2 (by decide) c rfl
    have h3 := hb 3 (by decide) d rfl
    clear hb hlen
    simp only [ucsTextDetectBom, h0, h1, h2, h3]
    split_ifs <;> simp [StartsWithBom, bomBytes] <;> grind

/-- A text starts with one mark. -/
theorem StartsWithBom.unique {text : List UInt8} {b b' : UcsBom} (h : StartsWithBom text b)
    (h' : StartsWithBom text b') : b = b' := by
  rcases text with _ | ⟨a, _ | ⟨c, _ | ⟨d, _ | ⟨e, rest⟩⟩⟩⟩ <;> cases b <;>
    simp only [StartsWithBom, bomBytes, List.cons_prefix_cons, List.nil_prefix] at h <;>
    cases b' <;>
    simp only [StartsWithBom, bomBytes, List.cons_prefix_cons, List.nil_prefix] at h' <;>
    grind

theorem ucsTextDetectBom_eq {x : ConvBuf} {text : List UInt8} {b : UcsBom} (h : x.Shows text)
    (hb : StartsWithBom text b) : ucsTextDetectBom x = b :=
  (startsWithBom_detect h).unique hb

end Convd
