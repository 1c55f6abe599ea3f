/-
# `Convd.Compare` — comparing two strings with lengths

`cstr_compare_len` of `cstrbuf.h` is documented to put null below everything, then a
shorter string below a longer one, then to go by the bytes.  Its exits:

    the same pointer           0, whatever the lengths
    a null                     below what is not
    both lengths 0             0
    both lengths negative      `strcmp`, which goes by the bytes alone
    else                       lengths, a negative one by `(int) strlen`, then `strncmp`

The strings lie in one memory, so that two pointers can be equal.
-/
import Convd.Def
import Mathlib.Data.List.Shortlex

namespace Convd

open CString

/-! ## The code -/

/-- `cstr_compare_len`, the null pointer being `none`. -/
def cstrCompareLen (mem : List UInt8) (astr : Option Nat) (alen : Int) (bstr : Option Nat)
    (blen : Int) (caseignore : Bool) : Int :=
  if astr = bstr then 0
  else
    match astr, bstr with
    | none, _ => -1
    | _, none => 1
    | some a, some b =>
        let a := mem.drop a
        let b := mem.drop b
        if alen = 0 ∧ blen = 0 then 0
        else if alen < 0 ∧ blen < 0 then
          if caseignore then strcasecmp (cstr a) (cstr b) else strcmp (cstr a) (cstr b)
        else
          let alen := if alen < 0 then toInt (cstr a).length else alen
          let blen := if blen < 0 then toInt (cstr b).length else blen
          if alen > blen then 1
          else if alen < blen then -1
          else if caseignore then strncasecmp a b alen.toNat
          else strncmp a b alen.toNat

/-! ## The documented order -/

/-- The string a pointer and a length stand for. -/
def textAt (mem : List UInt8) (len : Int) (p : Nat) : List UInt8 :=
  if len < 0 then cstr (mem.drop p) else (mem.drop p).take len.toNat

/-- A length that is passed is an `int`, and that many bytes are there and no NUL. -/
def ValidLen (mem : List UInt8) (p : Option Nat) (len : Int) : Prop :=
  len < 2 ^ 31 ∧ ∀ a ∈ p, len.toNat ≤ (cstr (mem.drop a)).length

/-- Null below what is not, the shorter below the longer, then the order of the bytes. -/
inductive Below : Option (List UInt8) → Option (List UInt8) → Prop where
  | null (t : List UInt8) : Below none (some t)
  | text {s t : List UInt8} : List.Shortlex (· < ·) s t → Below (some s) (some t)

/-- The sign of a comparison is the documented order of the strings. -/
def ComparesRight (mem : List UInt8) (astr : Option Nat) (alen : Int) (bstr : Option Nat)
    (blen : Int) : Prop :=
  SignOf (cstrCompareLen mem astr alen bstr blen false)
    (Below (astr.map (textAt mem alen)) (bstr.map (textAt mem blen)))
    (astr.map (textAt mem alen) = bstr.map (textAt mem blen))
    (Below (bstr.map (textAt mem blen)) (astr.map (textAt mem alen)))

/-! ## When it is right -/

/-- The string `s` measured by `strlen` against `t` of a known length: it is shorter than
2 ^ 31, or what its length wraps to puts it above `t` all the same. -/
def Measured (s t : List UInt8) : Prop :=
  s.length < 2 ^ 31 ∨ (t.length : Int) < toInt s.length ∨
    (toInt s.length = t.length ∧ t < s.take t.length)

/-- Two strings by `strcmp`: the shorter one is below the longer one by its bytes, too. -/
def ShorterBelow (s t : List UInt8) : Prop :=
  (s.length < t.length → s < t) ∧ (t.length < s.length → t < s)

/-- What it takes for two pointers. -/
def Comparable (mem : List UInt8) (a : Nat) (alen : Int) (b : Nat) (blen : Int) : Prop :=
  if a = b then (textAt mem alen a).length = (textAt mem blen b).length
  else if alen < 0 ∧ blen < 0 then ShorterBelow (textAt mem alen a) (textAt mem blen b)
  else if alen < 0 then Measured (textAt mem alen a) (textAt mem blen b)
  else if blen < 0 then Measured (textAt mem blen b) (textAt mem alen a)
  else True

/-! ## Two texts -/

section Texts

variable {mem : List UInt8} {a b : Nat} {alen blen : Int}

theorem ne_zero_of_mem_textAt (h : alen.toNat ≤ (cstr (mem.drop a)).length) :
    ∀ c ∈ textAt mem alen a, c ≠ 0 := by
  rw [textAt]
  split
  · exact fun c hc => ne_zero_of_mem_cstr hc
  · intro c hc
    have htake : (mem.drop a).take alen.toNat = (cstr (mem.drop a)).take alen.toNat := by
      conv_rhs => rw [cstr_eq_take, List.take_take, Nat.min_eq_left h]
    rw [htake] at hc
    exact ne_zero_of_mem_cstr (List.mem_of_mem_take hc)

/-- The memory begins with the text. -/
theorem take_textAt {n : Nat} (h : n ≤ (textAt mem alen a).length) :
    (mem.drop a).take n = (textAt mem alen a).take n := by
  rw [textAt] at h ⊢
  split
  · rename_i hneg
    rw [if_pos hneg] at h
    conv_rhs => rw [cstr_eq_take, List.take_take, Nat.min_eq_left h]
  · rename_i hpos
    rw [if_neg hpos, List.length_take] at h
    rw [List.take_take, Nat.min_eq_left (Nat.le_trans h (Nat.min_le_left _ _))]

theorem length_textAt (h : alen.toNat ≤ (cstr (mem.drop a)).length) (hpos : 0 ≤ alen) :
    ((textAt mem alen a).length : Int) = alen := by
  have hle := Nat.le_trans h (cstr_length_le (mem.drop a))
  rw [textAt, if_neg (Int.not_lt.mpr hpos), List.length_take_of_le hle, Int.toNat_of_nonneg hpos]

/-- The length the code goes by. -/
def measure (s : List UInt8) (len : Int) : Int := if len < 0 then toInt s.length else len

/-- Lengths, then bytes. -/
def lengthsThenBytes (s t : List UInt8) (la lb : Int) : Int :=
  if la > lb then 1 else if la < lb then -1 else strcmp (s.take la.toNat) (t.take la.toNat)

theorem lengthsThenBytes_signOf {s t : List UInt8} (hs : ∀ c ∈ s, c ≠ 0) (ht : ∀ c ∈ t, c ≠ 0)
    (la lb : Int) : SignOf (lengthsThenBytes s t la lb)
      (la < lb ∨ la = lb ∧ s.take la.toNat < t.take la.toNat)
      (la = lb ∧ s.take la.toNat = t.take la.toNat)
      (lb < la ∨ la = lb ∧ t.take la.toNat < s.take la.toNat) := by
  rw [lengthsThenBytes]
  split
  · rename_i hgt
    exact (signOf_iff_pos (by omega) (by omega) (.inl hgt)).mpr Int.zero_lt_one
  · split
    · rename_i hlt
      exact (signOf_iff_neg (.inl hlt) (by omega) (by omega)).mpr (by decide)
    · obtain rfl : la = lb := by omega
      have h := strcmp_signOf (fun c hc => hs c (List.mem_of_mem_take (i := la.toNat) hc))
        (fun c hc => ht c (List.mem_of_mem_take (i := la.toNat) hc))
      exact h.congr (by simp) (by simp) (by simp)

/-- The other way round the sign is the other one. -/
theorem lengthsThenBytes_swap {s t : List UInt8} (hs : ∀ c ∈ s, c ≠ 0) (ht : ∀ c ∈ t, c ≠ 0)
    (la lb : Int) {below above : Prop} :
    SignOf (lengthsThenBytes s t la lb) below (s = t) above ↔
      SignOf (lengthsThenBytes t s lb la) above (t = s) below := by
  have h := lengthsThenBytes_signOf hs ht la lb
  have h' := lengthsThenBytes_signOf ht hs lb la
  rw [@eq_comm _ t s]
  apply SignOf.swap_iff
  · rw [h.neg_iff, h'.pos_iff]
    exact or_congr_right ⟨fun ⟨heq, hlt⟩ => ⟨heq.symm, heq ▸ hlt⟩,
      fun ⟨heq, hlt⟩ => ⟨heq.symm, heq ▸ hlt⟩⟩
  · rw [h.zero_iff, h'.zero_iff]
    exact ⟨fun ⟨heq, hsame⟩ => ⟨heq.symm, heq ▸ hsame.symm⟩,
      fun ⟨heq, hsame⟩ => ⟨heq.symm, heq ▸ hsame.symm⟩⟩
  · rw [h.pos_iff, h'.neg_iff]
    exact or_congr_right ⟨fun ⟨heq, hlt⟩ => ⟨heq.symm, heq ▸ hlt⟩,
      fun ⟨heq, hlt⟩ => ⟨heq.symm, heq ▸ hlt⟩⟩

theorem toNat_measure_le (h : alen.toNat ≤ (cstr (mem.drop a)).length) :
    (measure (textAt mem alen a) alen).toNat ≤ (textAt mem alen a).length := by
  rw [measure]
  split
  · have := toInt_le (textAt mem alen a).length
    omega
  · have := length_textAt h (by omega)
    omega

theorem measure_textAt : measure (textAt mem alen a) alen
    = if alen < 0 then toInt (cstr (mem.drop a)).length else alen := by
  rw [measure]
  split
  · rename_i hneg
    rw [textAt, if_pos hneg]
  · rfl

/-- As far as both texts go `strncmp` does not meet a NUL. -/
theorem strncmp_textAt {n : Nat} (ha : alen.toNat ≤ (cstr (mem.drop a)).length)
    (hb : blen.toNat ≤ (cstr (mem.drop b)).length) (han : n ≤ (textAt mem alen a).length)
    (hbn : n ≤ (textAt mem blen b).length) : strncmp (mem.drop a) (mem.drop b) n
      = strcmp ((textAt mem alen a).take n) ((textAt mem blen b).take n) := by
  rw [strncmp, take_textAt han, take_textAt hbn,
    cstr_eq_self fun c hc => ne_zero_of_mem_textAt ha c (List.mem_of_mem_take hc),
    cstr_eq_self fun c hc => ne_zero_of_mem_textAt hb c (List.mem_of_mem_take hc)]

theorem measure_of_neg (s : List UInt8) (h : alen < 0) : measure s alen = toInt s.length := if_pos h

theorem measure_of_nonneg (h : alen.toNat ≤ (cstr (mem.drop a)).length) (hpos : 0 ≤ alen) :
    measure (textAt mem alen a) alen = (textAt mem alen a).length := by
  rw [measure, if_neg (Int.not_lt.mpr hpos), length_textAt h hpos]

/-- What is left of the function behind its early exits. -/
theorem cstrCompareLen_eq (hne : a ≠ b) (hlens : ¬ (alen < 0 ∧ blen < 0))
    (ha : alen.toNat ≤ (cstr (mem.drop a)).length)
    (hb : blen.toNat ≤ (cstr (mem.drop b)).length) :
    cstrCompareLen mem (some a) alen (some b) blen false
      = lengthsThenBytes (textAt mem alen a) (textAt mem blen b)
          (measure (textAt mem alen a) alen) (measure (textAt mem blen b) blen) := by
  have hptr : some a ≠ some b := fun h => hne (Option.some.inj h)
  have han := toNat_measure_le ha
  have hbn := toNat_measure_le hb
  simp only [cstrCompareLen, if_neg hptr, if_neg hlens, ← measure_textAt, Bool.false_eq_true,
    if_false, lengthsThenBytes]
  split
  · rename_i hzero
    obtain ⟨rfl, rfl⟩ := hzero
    rfl
  · split
    · rfl
    · split
      · rfl
      · have heq : measure (textAt mem alen a) alen = measure (textAt mem blen b) blen := by omega
        exact strncmp_textAt ha hb han (heq ▸ hbn)

/-- Two texts of the lengths that are gone by. -/
theorem shortlex_iff {s t : List UInt8} :
    ((s.length : Int) < t.length ∨ (s.length : Int) = t.length ∧
        s.take s.length < t.take s.length) ↔ List.Shortlex (· < ·) s t := by
  rw [List.shortlex_def, List.lex_lt, Int.ofNat_lt, Int.ofNat_inj, List.take_length]
  constructor
  · rintro (h | ⟨hlen, h⟩)
    · exact .inl h
    · rw [hlen, List.take_length] at h
      exact .inr ⟨hlen, h⟩
  · rintro (h | ⟨hlen, h⟩)
    · exact .inl h
    · refine .inr ⟨hlen, ?_⟩
      rwa [hlen, List.take_length]

/-- Gone by their true lengths, two texts are in the documented order. -/
theorem lengthsThenBytes_right {s t : List UInt8} (hs : ∀ c ∈ s, c ≠ 0) (ht : ∀ c ∈ t, c ≠ 0) :
    SignOf (lengthsThenBytes s t s.length t.length)
      (List.Shortlex (· < ·) s t) (s = t) (List.Shortlex (· < ·) t s) := by
  refine (lengthsThenBytes_signOf hs ht s.length t.length).congr ?_ ?_ ?_
  · rw [Int.toNat_natCast]
    exact shortlex_iff
  · rw [Int.toNat_natCast, List.take_length, Int.ofNat_inj]
    constructor
    · rintro ⟨hlen, heq⟩
      rwa [hlen, List.take_length] at heq
    · rintro rfl
      exact ⟨rfl, List.take_length.symm⟩
  · rw [← shortlex_iff, Int.toNat_natCast, Int.ofNat_inj]
    constructor
    · rintro (h | ⟨hlen, h⟩)
      · exact .inl h
      · exact .inr ⟨congrArg _ hlen.symm, hlen ▸ h⟩
    · rintro (h | ⟨hlen, h⟩)
      · exact .inl h
      · have hlen' := Int.ofNat_inj.mp hlen
        exact .inr ⟨hlen'.symm, hlen' ▸ h⟩

/-- A text of 2 ^ 31 bytes or more, measured by `strlen`. -/
theorem lengthsThenBytes_wrapped {s t : List UInt8} (hs : ∀ c ∈ s, c ≠ 0) (ht : ∀ c ∈ t, c ≠ 0)
    (hlt : t.length < s.length) :
    SignOf (lengthsThenBytes s t (toInt s.length) t.length)
        (List.Shortlex (· < ·) s t) (s = t) (List.Shortlex (· < ·) t s) ↔
      (t.length : Int) < toInt s.length ∨ (toInt s.length = t.length ∧ t < s.take t.length) := by
  have hnot : ¬ List.Shortlex (· < ·) s t := fun h => by
    rcases List.shortlex_def.mp h with h | h <;> omega
  have hne : s ≠ t := fun h => by
    rw [h] at hlt
    exact Nat.lt_irrefl _ hlt
  rw [signOf_iff_pos hnot hne (.of_length_lt hlt),
    (lengthsThenBytes_signOf hs ht (toInt s.length) t.length).pos_iff]
  refine or_congr_right (and_congr_right fun heq => ?_)
  rw [heq, Int.toNat_natCast, List.take_length]

theorem below_some_iff {s t : List UInt8} :
    Below (some s) (some t) ↔ List.Shortlex (· < ·) s t :=
  ⟨fun h => by cases h with | text h => exact h, .text⟩

/-- By `strcmp` alone. -/
theorem strcmp_right_iff {s t : List UInt8} (hs : ∀ c ∈ s, c ≠ 0) (ht : ∀ c ∈ t, c ≠ 0) :
    SignOf (strcmp s t) (List.Shortlex (· < ·) s t) (s = t) (List.Shortlex (· < ·) t s) ↔
      ShorterBelow s t := by
  have hbytes := strcmp_signOf hs ht
  rw [ShorterBelow]
  rcases Nat.lt_trichotomy s.length t.length with hlt | heq | hgt
  · have hnot : ¬ List.Shortlex (· < ·) t s := fun h => by
      rcases List.shortlex_def.mp h with h | h <;> omega
    have hne : s ≠ t := fun h => by
      rw [h] at hlt
      exact Nat.lt_irrefl _ hlt
    rw [signOf_iff_neg (.of_length_lt hlt) hne hnot, hbytes.neg_iff,
      and_iff_left fun h => absurd h (Nat.lt_asymm hlt)]
    exact ⟨fun h _ => h, fun h => h hlt⟩
  · refine iff_of_true (hbytes.congr ?_ Iff.rfl ?_) ⟨?_, ?_⟩
    · rw [List.shortlex_iff_lex heq, List.lex_lt]
    · rw [List.shortlex_iff_lex heq.symm, List.lex_lt]
    · exact fun h => absurd heq (Nat.ne_of_lt h)
    · exact fun h => absurd heq (Nat.ne_of_gt h)
  · have hnot : ¬ List.Shortlex (· < ·) s t := fun h => by
      rcases List.shortlex_def.mp h with h | h <;> omega
    have hne : s ≠ t := fun h => by
      rw [h] at hgt
      exact Nat.lt_irrefl _ hgt
    rw [signOf_iff_pos hnot hne (.of_length_lt hgt), hbytes.pos_iff,
      and_iff_right fun h => absurd h (Nat.lt_asymm hgt)]
    exact ⟨fun h _ => h, fun h => h hgt⟩

/-- A string of unknown length against one of a known length. -/
theorem measured_iff {s t : List UInt8} (hs : ∀ c ∈ s, c ≠ 0) (ht : ∀ c ∈ t, c ≠ 0)
    (htlt : t.length < 2 ^ 31) :
    SignOf (lengthsThenBytes s t (toInt s.length) t.length)
      (List.Shortlex (· < ·) s t) (s = t) (List.Shortlex (· < ·) t s) ↔ Measured s t := by
  rcases Nat.lt_or_ge s.length (2 ^ 31) with hlt | hge
  · rw [toInt_of_lt hlt]
    exact iff_of_true (lengthsThenBytes_right hs ht) (.inl hlt)
  · rw [lengthsThenBytes_wrapped hs ht (by omega), Measured, or_iff_right (Nat.not_lt.mpr hge)]

/-- Two texts that begin in one place. -/
theorem sign_of_same : SignOf 0
    (List.Shortlex (· < ·) (textAt mem alen a) (textAt mem blen a))
    (textAt mem alen a = textAt mem blen a)
    (List.Shortlex (· < ·) (textAt mem blen a) (textAt mem alen a)) ↔
    (textAt mem alen a).length = (textAt mem blen a).length := by
  constructor
  · intro h
    exact congrArg _ (h.zero_iff.mp rfl)
  · intro hlen
    have hsame : textAt mem alen a = textAt mem blen a := by
      have h1 := @take_textAt mem a alen _ (Nat.le_refl _)
      have h2 := @take_textAt mem a blen _ (Nat.le_refl _)
      rw [List.take_length] at h1 h2
      rw [← h1, ← h2, hlen]
    rw [hsame]
    have hnot : ¬ List.Shortlex (· < ·) (textAt mem blen a) (textAt mem blen a) := fun h => by
      rcases List.shortlex_def.mp h with h | ⟨-, h⟩
      · exact Nat.lt_irrefl _ h
      · exact List.lt_irrefl _ h
    exact (signOf_iff_zero hnot rfl hnot).mpr rfl

/-! ## The call -/

/-- Two pointers. -/
theorem cstrCompareLen_some_iff (ha : ValidLen mem (some a) alen)
    (hb : ValidLen mem (some b) blen) :
    ComparesRight mem (some a) alen (some b) blen ↔ Comparable mem a alen b blen := by
  obtain ⟨halt, ha⟩ := ha
  obtain ⟨hblt, hb⟩ := hb
  replace ha := ha a rfl
  replace hb := hb b rfl
  have hs := ne_zero_of_mem_textAt ha
  have ht := ne_zero_of_mem_textAt hb
  rw [ComparesRight, Comparable, Option.map_some, Option.map_some, below_some_iff, below_some_iff,
    Option.some_inj]
  split
  · rename_i heq
    subst heq
    rw [cstrCompareLen, if_pos rfl]
    exact sign_of_same
  · rename_i hne
    split
    · rename_i hlens
      have hptr : some a ≠ some b := fun h => hne (Option.some.inj h)
      have hnot : ¬ (alen = 0 ∧ blen = 0) := by omega
      have hcall : cstrCompareLen mem (some a) alen (some b) blen false
          = strcmp (textAt mem alen a) (textAt mem blen b) := by
        simp only [cstrCompareLen, if_neg hptr, if_neg hnot, if_pos hlens, textAt, if_pos hlens.1,
          if_pos hlens.2, Bool.false_eq_true, if_false]
      rw [hcall]
      exact strcmp_right_iff hs ht
    · rename_i hlens
      rw [cstrCompareLen_eq hne hlens ha hb]
      split
      · rename_i haneg
        have hlen := length_textAt hb (by omega)
        rw [measure_of_neg _ haneg, measure_of_nonneg hb (by omega)]
        exact measured_iff hs ht (by omega)
      · rename_i hapos
        have hlen := length_textAt ha (by omega)
        rw [measure_of_nonneg ha (by omega)]
        split
        · rename_i hbneg
          rw [measure_of_neg _ hbneg, lengthsThenBytes_swap hs ht]
          exact measured_iff ht hs (by omega)
        · rw [measure_of_nonneg hb (by omega)]
          exact iff_of_true (lengthsThenBytes_right hs ht) trivial

end Texts

/-- Whatever the pointers, with lengths that are valid. -/
theorem cstrCompareLen_right_iff {mem : List UInt8} {astr bstr : Option Nat} {alen blen : Int}
    (ha : ValidLen mem astr alen) (hb : ValidLen mem bstr blen) :
    ComparesRight mem astr alen bstr blen ↔
      ∀ a ∈ astr, ∀ b ∈ bstr, Comparable mem a alen b blen := by
  have hnone : ∀ x, ¬ Below x none := fun x h => nomatch h
  cases astr with
  | none =>
      refine iff_of_true ?_ nofun
      cases bstr with
      | none => exact (signOf_iff_zero (hnone _) rfl (hnone _)).mpr rfl
      | some b => exact (signOf_iff_neg (.null _) nofun (hnone _)).mpr (by decide : (-1 : Int) < 0)
  | some a =>
      cases bstr with
      | none =>
          refine iff_of_true ?_ nofun
          exact (signOf_iff_pos (hnone _) nofun (.null _)).mpr (by decide : (0 : Int) < 1)
      | some b =>
          rw [cstrCompareLen_some_iff ha hb]
          constructor
          · intro h a' ha' b' hb'
            obtain rfl := Option.some.inj ha'
            obtain rfl := Option.some.inj hb'
            exact h
          · exact fun h => h a rfl b rfl

/-- A string of one character and one of two, with their lengths. -/
theorem cstrCompareLen_right_iff_explicit :
    ComparesRight (ascii "b" ++ 0 :: ascii "aa" ++ [0]) (some 0) 1 (some 2) 2 ↔
      ∀ a ∈ some 0, ∀ b ∈ some 2, Comparable (ascii "b" ++ 0 :: ascii "aa" ++ [0]) a 1 b 2 :=
  cstrCompareLen_right_iff ⟨by decide, by decide⟩ ⟨by decide, by decide⟩

/-- The same two strings up to their NULs. -/
theorem cstrCompareLen_not_right :
    ¬ ComparesRight (ascii "b" ++ 0 :: ascii "aa" ++ [0]) (some 0) (-1) (some 2) (-1) := by
  intro h
  have hbelow := below_some_iff.mp (h.pos_iff.mp (by decide))
  rcases List.shortlex_def.mp hbelow with hlen | ⟨hlen, -⟩
  · exact absurd hlen (by decide)
  · exact absurd hlen (by decide)

end Convd
