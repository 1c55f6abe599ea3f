/-
# `Convd.Numeric` — whether a text is a number

`cstr_isnumeric` of `cstrbuf.h` trims the text, looks at its length, skips a sign, and then
accepts digits and one point:

    "   123.456"      accepted
    "-100  "          accepted
    "12.56.89"        refused, at the second point
    "+ 1234.556"      refused, at the blank

It does not ask for a digit, so that a sign, a point, or a sign and a point are accepted too.
-/
import Convd.Trim

namespace Convd

open CString Block
open List (strip)

/-! ## The code -/

/-- `for (; i < len; i++)`, with `n` characters to come. -/
def numericLoop (b : Block) (str : Nat) : Nat → Nat → Nat → Option Bool
  | 0, _, _ => some true
  | n + 1, i, dots => do
      let c ← b[str + i]?
      if ! isdigit c then
        if c = 46 then
          if dots + 1 > 1 then some false else numericLoop b str n (i + 1) (dots + 1)
        else some false
      else numericLoop b str n (i + 1) dots

/-- `cstr_isnumeric` -/
def cstrIsnumeric (b : Block) (numeric : Nat) (len : Int) : Option Bool := do
  let (str, b) ← cstrLRtrimWhitespace b numeric
  let len ← cstrLengthAt b str len
  if len < 1 ∨ len > 40 then some false
  else
    let c ← b[str]?
    let i := if c = 43 ∨ c = 45 then 1 else 0
    numericLoop b str (len.toNat - i) i 0

/-! ## What it should be -/

/-- Digits and points, of these at most one. -/
def DigitsAndPoint (t : List UInt8) : Prop := (∀ c ∈ t, isdigit c ∨ c = 46) ∧ t.count 46 ≤ 1

instance (t : List UInt8) : Decidable (DigitsAndPoint t) := inferInstanceAs (Decidable (_ ∧ _))

/-- A number of 1 to 40 characters: a sign or none, then digits and at most one point, at
least one digit among them. -/
def Numeric (t : List UInt8) : Prop :=
  1 ≤ t.length ∧ t.length ≤ 40 ∧ ∃ sign digits, t = sign ++ digits ∧
    sign ∈ [[], [43], [45]] ∧ DigitsAndPoint digits ∧ ∃ c ∈ digits, isdigit c

/-- The texts that pass for a number without a digit. -/
def digitless : List (List UInt8) :=
  [ascii "+", ascii "-", ascii ".", ascii "+.", ascii "-."]

/-! ## What it accepts -/

/-- A text behind its sign. -/
def withoutSign : List UInt8 → List UInt8
  | [] => []
  | c :: t => if c = 43 ∨ c = 45 then t else c :: t

section Loop

variable {b : Block} {p : Nat} {s t u : List UInt8}

theorem isdigit_point : isdigit 46 = false := by decide

/-- The loop looks at each character and counts the points. -/
theorem numericLoop_eq (h : StrAt b p (u ++ t)) {dots : Nat} (hdots : dots ≤ 1) :
    ∃ r, numericLoop b p t.length u.length dots = some r ∧
      (r = true ↔ (∀ c ∈ t, isdigit c ∨ c = 46) ∧ dots + t.count 46 ≤ 1) := by
  induction t generalizing u dots with
  | nil => exact ⟨true, rfl, by simpa using hdots⟩
  | cons c t ih =>
      have hget := h.getElem? (i := u.length) (by simp)
      rw [List.getElem?_append_right (Nat.le_refl _), Nat.sub_self, List.getElem?_cons_zero,
        Option.getD_some] at hget
      rw [List.append_cons] at h
      rw [List.length_cons, numericLoop, hget, List.forall_mem_cons, List.count_cons]
      simp only [Option.bind_eq_bind, Option.bind_some]
      by_cases hc : isdigit c
      · have hne : c ≠ 46 := by
          rintro rfl
          exact absurd hc (by simp [isdigit_point])
        obtain ⟨r, hr, hiff⟩ := ih h hdots
        rw [List.length_append, List.length_singleton] at hr
        exact ⟨r, by simp [hc, hr], by simp [hc, hne, hiff]⟩
      · by_cases hpoint : c = 46
        · by_cases hsecond : dots + 1 > 1
          · refine ⟨false, by simp [hpoint, hsecond, isdigit_point], ?_⟩
            simp [hpoint]
            omega
          · obtain ⟨r, hr, hiff⟩ := ih h (Nat.le_of_not_gt hsecond)
            rw [List.length_append, List.length_singleton] at hr
            refine ⟨r, by simp [hpoint, hsecond, isdigit_point, hr], ?_⟩
            simp [hpoint, hiff, Nat.add_assoc, Nat.add_comm 1]
        · exact ⟨false, by simp [hc, hpoint], by simp [hc, hpoint]⟩

/-- What is accepted: the length is right, and behind the sign are digits and a point. -/
theorem cstrIsnumeric_accepts (h : StrAt b p s) (hlen : s.length < 2 ^ 31) :
    ∃ r, cstrIsnumeric b p s.length = some r ∧
      (r = true ↔ 1 ≤ (strip isspace s).length ∧ (strip isspace s).length ≤ 40 ∧
        DigitsAndPoint (withoutSign (strip isspace s))) := by
  obtain ⟨q, b', htrim, hstr⟩ := cstrLRtrimWhitespace_eq h
  rw [lrTrimmed_of_lt hlen] at hstr
  have hle : (strip isspace s).length ≤ s.length := List.length_strip_le s
  generalize strip isspace s = t at hstr hle ⊢
  have hat : cstrLengthAt b' q s.length = some (t.length : Int) := by
    have hne : ((s.length : Nat) : Int) ≠ -1 := by omega
    rw [cstrLengthAt, if_neg hne, toSizeT_of_lt (by omega), hstr.strnlen_eq,
      Nat.min_eq_left hle, Option.map_some, toInt_of_lt (by omega)]
  rw [cstrIsnumeric, htrim, Option.bind_eq_bind, Option.bind_some]
  dsimp only
  rw [hat, Option.bind_eq_bind, Option.bind_some]
  by_cases hsize : (t.length : Int) < 1 ∨ (t.length : Int) > 40
  · rw [if_pos hsize]
    exact ⟨false, rfl, by simp; omega⟩
  · rw [if_neg hsize]
    obtain ⟨c, t, rfl⟩ := List.exists_cons_of_length_pos (by omega : 0 < t.length)
    have hget := hstr.getElem? (Nat.zero_le _)
    rw [Nat.add_zero, List.getElem?_cons_zero, Option.getD_some] at hget
    have hfits : 1 ≤ (c :: t).length ∧ (c :: t).length ≤ 40 := by omega
    rw [hget, Option.bind_eq_bind, Option.bind_some, Int.toNat_natCast, withoutSign]
    by_cases hsign : c = 43 ∨ c = 45
    · obtain ⟨r, hr, hiff⟩ := @numericLoop_eq _ _ t [c] hstr _ (Nat.zero_le 1)
      refine ⟨r, by simpa [hsign] using hr, ?_⟩
      rw [hiff, if_pos hsign, DigitsAndPoint, Nat.zero_add]
      simp only [hfits, true_and]
    · obtain ⟨r, hr, hiff⟩ := @numericLoop_eq _ _ (c :: t) [] hstr _ (Nat.zero_le 1)
      refine ⟨r, by simpa [hsign] using hr, ?_⟩
      rw [hiff, if_neg hsign, DigitsAndPoint, Nat.zero_add]
      simp only [hfits, true_and]

end Loop

/-! ## Against the grammar -/

section Grammar

variable {t u : List UInt8} {c : UInt8}

theorem withoutSign_append {sign : List UInt8} (hsign : sign ∈ [[], [43], [45]])
    (hu : ∀ c ∈ u, isdigit c ∨ c = 46) : withoutSign (sign ++ u) = u := by
  rcases List.mem_cons.mp hsign with rfl | hsign
  · cases u with
    | nil => rfl
    | cons c u =>
        have hc : ¬ (c = 43 ∨ c = 45) := by
          rintro (rfl | rfl)
          · exact absurd (hu 43 List.mem_cons_self) (by decide)
          · exact absurd (hu 45 List.mem_cons_self) (by decide)
        rw [List.nil_append, withoutSign, if_neg hc]
  · have hs : sign = [43] ∨ sign = [45] := by simpa using hsign
    rcases hs with rfl | rfl <;> rfl

theorem exists_sign (t : List UInt8) :
    ∃ sign, t = sign ++ withoutSign t ∧ sign ∈ [[], [43], [45]] := by
  cases t with
  | nil => exact ⟨[], rfl, by simp⟩
  | cons c t =>
      rw [withoutSign]
      split
      · rename_i hc
        refine ⟨[c], rfl, ?_⟩
        rcases hc with rfl | rfl <;> decide
      · exact ⟨[], rfl, by simp⟩

theorem numeric_iff : Numeric t ↔ 1 ≤ t.length ∧ t.length ≤ 40 ∧
    DigitsAndPoint (withoutSign t) ∧ ∃ c ∈ withoutSign t, isdigit c := by
  constructor
  · rintro ⟨hpos, hle, sign, u, rfl, hsign, hu, hdigit⟩
    rw [withoutSign_append hsign hu.1]
    exact ⟨hpos, hle, hu, hdigit⟩
  · rintro ⟨hpos, hle, hu, hdigit⟩
    obtain ⟨sign, ht, hsign⟩ := exists_sign t
    exact ⟨hpos, hle, sign, withoutSign t, ht, hsign, hu, hdigit⟩

instance (t : List UInt8) : Decidable (Numeric t) := decidable_of_iff _ numeric_iff.symm

/-- Without a digit there is no more than one point. -/
theorem digitsAndPoint_cases (h : DigitsAndPoint u) (hno : ∀ c ∈ u, ¬ isdigit c) :
    u = [] ∨ u = [46] := by
  have hpoints : ∀ c ∈ u, c = 46 := fun c hc => (h.1 c hc).resolve_left (hno c hc)
  have hrep : u = List.replicate u.length 46 := List.eq_replicate_of_mem hpoints
  have hcount := h.2
  rw [hrep, List.count_replicate_self] at hcount
  rcases Nat.le_one_iff_eq_zero_or_eq_one.mp hcount with hlen | hlen
  · exact .inl (List.eq_nil_of_length_eq_zero hlen)
  · rw [hlen] at hrep
    exact .inr hrep

/-- What is accepted without being a number. -/
theorem accepted_digitless_iff : (1 ≤ t.length ∧ t.length ≤ 40 ∧ DigitsAndPoint (withoutSign t) ∧
    ¬ ∃ c ∈ withoutSign t, isdigit c) ↔ t ∈ digitless := by
  constructor
  · rintro ⟨hpos, -, hu, hno⟩
    obtain ⟨sign, ht, hsign⟩ := exists_sign t
    have hcases := digitsAndPoint_cases hu fun c hc hd => hno ⟨c, hc, hd⟩
    have hs : sign = [] ∨ sign = [43] ∨ sign = [45] := by simpa using hsign
    rcases hcases with hu' | hu' <;> rw [hu'] at ht <;> subst ht
    · rcases hs with rfl | rfl | rfl
      · exact absurd hpos (by decide)
      · decide
      · decide
    · rcases hs with rfl | rfl | rfl <;> decide
  · have hall : ∀ t ∈ digitless, 1 ≤ t.length ∧ t.length ≤ 40 ∧ DigitsAndPoint (withoutSign t) ∧
        ¬ ∃ c ∈ withoutSign t, isdigit c := by decide +kernel
    exact hall t

end Grammar

/-- It is right of every text that does not pass without a digit.  The length is an `int`. -/
theorem cstrIsnumeric_right_iff {b : Block} {p : Nat} {s : List UInt8} (h : StrAt b p s)
    (hlen : s.length < 2 ^ 31) :
    ∃ r, cstrIsnumeric b p s.length = some r ∧
      ((r = true ↔ Numeric (strip isspace s)) ↔ strip isspace s ∉ digitless) := by
  obtain ⟨r, hr, hiff⟩ := cstrIsnumeric_accepts h hlen
  refine ⟨r, hr, ?_⟩
  rw [hiff, numeric_iff, ← accepted_digitless_iff]
  by_cases hdigit : ∃ c ∈ withoutSign (strip isspace s), isdigit c
  · simp [hdigit]
  · simp [hdigit]

theorem cstrIsnumeric_right_iff_spaced :
    ∃ r, cstrIsnumeric [32, 45, 49, 46, 10, 0] 0 (5 : Nat) = some r ∧
      ((r = true ↔ Numeric (strip isspace [32, 45, 49, 46, 10])) ↔
        strip isspace [32, 45, 49, 46, 10] ∉ digitless) :=
  @cstrIsnumeric_right_iff _ 0 [32, 45, 49, 46, 10] ⟨by decide, [], rfl⟩ (by decide)

/-- A sign alone passes for a number. -/
theorem cstrIsnumeric_not_right :
    cstrIsnumeric [43, 0] 0 1 = some true ∧ ¬ Numeric (strip isspace [43]) := by
  decide +kernel

end Convd
