/-
# `Convd.Lib.Decimal` — numbers as decimal digits

`padded w n` are the last `w` digits of `n`, and `value` reads digits; each undoes the other
(`value_padded`, `padded_value`).  `fmtInt` is the conversion `%0wd`, `atoi` and `strtoull`
are the readers of the C library, for base 10.
-/
import Convd.Lib.CString
import Mathlib.Algebra.Group.Int.Defs
import Mathlib.Algebra.Group.Nat.Defs
import Mathlib.Data.Nat.Log

namespace Decimal

open CString

/-- The last digit of `n`. -/
def digit (n : Nat) : UInt8 := UInt8.ofNat (48 + n % 10)

/-- The last `w` digits of `n`, zeros in front where there are fewer. -/
def padded : Nat → Nat → List UInt8
  | 0, _ => []
  | w + 1, n => padded w (n / 10) ++ [digit n]

def value (ds : List UInt8) : Nat := ds.foldl (fun v c => 10 * v + (c.toNat - 48)) 0

/-- `%0wd`: a sign if there is one, and zeros up to the width. -/
def fmtInt (w : Nat) (n : Int) : List UInt8 :=
  let sign : List UInt8 := if n < 0 then [45] else []
  sign ++ padded (max (w - sign.length) (Nat.log 10 n.natAbs + 1)) n.natAbs

/-- Whether there is a minus, and the digits, behind white space and a sign. -/
def numeral (s : List UInt8) : Bool × List UInt8 :=
  match s.dropWhile isspace with
  | [] => (false, [])
  | c :: t =>
      if c = 45 then (true, t.takeWhile isdigit)
      else if c = 43 then (false, t.takeWhile isdigit)
      else (false, (c :: t).takeWhile isdigit)

/-- `atoi`, of a number an `int` can hold. -/
def atoi (s : List UInt8) : Int :=
  let (minus, ds) := numeral s
  if minus then -(value ds : Int) else value ds

/-- What `strtoull` returns, whether `*endptr` is the string itself, and whether `errno` is set. -/
structure Strtoull where
  val : UInt64
  atStart : Bool
  errno : Bool
  deriving DecidableEq, Repr

/-- `strtoull(s, &endptr, 10)`: a number behind a minus is negated as what it is stored in. -/
def strtoull (s : List UInt8) : Strtoull :=
  let (minus, ds) := numeral s
  if value ds < 2 ^ 64 then
    ⟨if minus then -UInt64.ofNat (value ds) else UInt64.ofNat (value ds), ds.isEmpty, false⟩
  else ⟨-1, ds.isEmpty, true⟩

/-! ## Digits -/

variable {w n : Nat} {c : UInt8} {ds : List UInt8}

theorem isdigit_iff : isdigit c = true ↔ 48 ≤ c.toNat ∧ c.toNat ≤ 57 := by
  rw [isdigit, decide_eq_true_iff, UInt8.le_iff_toNat_le, UInt8.le_iff_toNat_le]
  rfl

theorem isdigit_zero : isdigit 0 = false := by decide

theorem toNat_digit (n : Nat) : (digit n).toNat = 48 + n % 10 := by
  have hlt := Nat.mod_lt n (by decide : 0 < 10)
  rw [digit, UInt8.toNat_ofNat', Nat.mod_eq_of_lt (by omega)]

theorem isdigit_digit (n : Nat) : isdigit (digit n) = true := by
  have hlt := Nat.mod_lt n (by decide : 0 < 10)
  rw [isdigit_iff, toNat_digit]
  omega

@[simp] theorem length_padded (w n : Nat) : (padded w n).length = w := by
  induction w generalizing n with
  | zero => rfl
  | succ w ih => rw [padded, List.length_append, ih, List.length_singleton]

theorem isdigit_of_mem_padded (h : c ∈ padded w n) : isdigit c = true := by
  induction w generalizing n with
  | zero => cases h
  | succ w ih =>
      rcases List.mem_append.mp h with h | h
      · exact ih h
      · rw [List.mem_singleton.mp h]
        exact isdigit_digit n

theorem value_concat (ds : List UInt8) (c : UInt8) :
    value (ds ++ [c]) = 10 * value ds + (c.toNat - 48) := List.foldl_concat _ _ _ _

theorem value_padded (w n : Nat) : value (padded w n) = n % 10 ^ w := by
  induction w generalizing n with
  | zero => exact (Nat.mod_one n).symm
  | succ w ih =>
      rw [padded, value_concat, ih, toNat_digit, Nat.pow_succ, Nat.mul_comm (10 ^ w),
        Nat.mod_mul, Nat.add_sub_cancel_left, Nat.add_comm]

theorem value_padded_of_lt (h : n < 10 ^ w) : value (padded w n) = n := by
  rw [value_padded, Nat.mod_eq_of_lt h]

/-- Digits are their number, padded to their length. -/
theorem padded_value (h : ∀ c ∈ ds, isdigit c = true) : padded ds.length (value ds) = ds := by
  induction ds using List.reverseRecOn with
  | nil => rfl
  | append_singleton ds c ih =>
      obtain ⟨hds, hc⟩ := List.forall_mem_append.mp h
      obtain ⟨hlow, hhigh⟩ := isdigit_iff.mp (hc c (List.mem_singleton_self c))
      have hdiv : value (ds ++ [c]) / 10 = value ds := by
        rw [value_concat]
        omega
      have hdigit : digit (value (ds ++ [c])) = c := by
        rw [← UInt8.toNat_inj, toNat_digit, value_concat]
        omega
      rw [List.length_append, List.length_singleton, padded, hdiv, hdigit, ih hds]

theorem value_lt (h : ∀ c ∈ ds, isdigit c = true) : value ds < 10 ^ ds.length := by
  rw [← padded_value h, value_padded, length_padded]
  exact Nat.mod_lt _ (Nat.pow_pos (by decide))

/-! ## Printing and reading -/

theorem fmtInt_nat (w n : Nat) : fmtInt w n = padded (max w (Nat.log 10 n + 1)) n := by
  have hnot : ¬ (n : Int) < 0 := by omega
  simp [fmtInt, if_neg hnot]

theorem fmtInt_of_lt (hw : 0 < w) (h : n < 10 ^ w) : fmtInt w n = padded w n := by
  have hlog : Nat.log 10 n + 1 ≤ w := by
    rcases Nat.eq_zero_or_pos n with rfl | hpos
    · rw [Nat.log_zero_right]
      exact hw
    · exact Nat.log_lt_of_lt_pow (Nat.ne_of_gt hpos) h
  have hsign : ¬ ((n : Int) < 0) := by omega
  simp only [fmtInt, if_neg hsign, List.length_nil, Nat.sub_zero, Int.natAbs_natCast,
    List.nil_append, Nat.max_eq_left hlog]

/-- A number that fits is printed as that many digits. -/
theorem fmtInt_digits {n : Int} (hw : 0 < w) (h0 : 0 ≤ n) (h : n < 10 ^ w) :
    (fmtInt w n).length = w ∧ (∀ c ∈ fmtInt w n, isdigit c = true) ∧
      (value (fmtInt w n) : Int) = n := by
  obtain ⟨k, rfl⟩ := Int.eq_ofNat_of_zero_le h0
  have hk : k < 10 ^ w := by exact_mod_cast h
  rw [fmtInt_of_lt hw hk, value_padded_of_lt hk]
  exact ⟨length_padded w k, fun c hc => isdigit_of_mem_padded hc, rfl⟩

/-- Digits are what is printed of their number. -/
theorem fmtInt_value (hne : ds ≠ []) (h : ∀ c ∈ ds, isdigit c = true) :
    fmtInt ds.length (value ds) = ds := by
  rw [fmtInt_of_lt (List.length_pos_of_ne_nil hne) (value_lt h), padded_value h]

theorem isspace_of_isdigit (h : isdigit c = true) : isspace c = false := by
  obtain ⟨hlow, -⟩ := isdigit_iff.mp h
  rw [isspace, Bool.or_eq_false_iff, beq_eq_false_iff_ne, decide_eq_false_iff_not]
  constructor
  · rintro rfl
    exact absurd hlow (by decide)
  · rintro ⟨-, hle⟩
    have := UInt8.le_iff_toNat_le.mp hle
    simp only [UInt8.reduceToNat] at this
    omega

/-- Digits alone. -/
theorem numeral_of_isdigit (h : ∀ c ∈ ds, isdigit c = true) : numeral ds = (false, ds) := by
  cases ds with
  | nil => rfl
  | cons c ds =>
      have hc := h c List.mem_cons_self
      have hspace : ¬ isspace c = true := by simp [isspace_of_isdigit hc]
      have hall : (c :: ds).takeWhile isdigit = c :: ds := List.takeWhile_eq_self_iff.mpr h
      obtain ⟨hlow, hhigh⟩ := isdigit_iff.mp hc
      rw [numeral, List.dropWhile_cons_of_neg hspace]
      simp only [hall]
      split
      · rename_i hminus
        exact absurd (hminus ▸ hlow) (by decide)
      · split
        · rename_i hplus
          exact absurd (hplus ▸ hlow) (by decide)
        · rfl

theorem atoi_of_isdigit (h : ∀ c ∈ ds, isdigit c = true) : atoi ds = value ds := by
  simp only [atoi, numeral_of_isdigit h, Bool.false_eq_true, if_false]

end Decimal
