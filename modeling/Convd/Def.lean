/-
# `Convd.Def` — the public types and codes of the library

`convd_def.h` and the constants of `convd_i.h`, with the few conversions C makes
silently: an `int` made from a `size_t`, a `size_t` made from an `int`, an `sb8`
made from either.  A `char` is kept as the byte it is stored in; where the source
lets it be negative (it is signed on the hosts the library is built for) the sign
extension is written out.
-/
import Convd.Lib.CString
import Convd.Lib.Mem
import Mathlib.Algebra.Group.Int.Defs
import Mathlib.Algebra.Group.Nat.Defs

namespace Convd

open CString

/-! ## Result codes -/

def convdNoerror : Int := 0
def convdErrFromcode : Int := 1
def convdErrTocode : Int := 2
def convdErrSuffix : Int := 3
def convdErrEncoding : Int := 4
def convdErrInsuff : Int := 5
def convdErrIconv : Int := -1
def convdErrFile : Int := -2

/-- What `ucs_file_read_next` returns at the end of the file. -/
def convFinished : Int := 0

/-- No error has the code of success. -/
theorem convdErr_ne (code : Int) (h : code ∈ [convdErrFromcode, convdErrTocode, convdErrSuffix,
    convdErrEncoding, convdErrInsuff, convdErrIconv, convdErrFile]) : code ≠ convdNoerror := by
  rintro rfl
  exact absurd h (by decide)

/-- `CONV_LINE_MAXSIZE` -/
def convLineMaxsize : UInt32 := 65536

/-- `CVD_ENCODING_LEN_MAX` -/
def cvdEncodingLenMax : Nat := 64

/-! ## Conversions -/

/-- `(int) n` of a `size_t`. -/
def toInt (n : Nat) : Int := Int.bmod n (2 ^ 32)

/-- `(sb8) n`, also the result of an `sb8` sum. -/
def toSb8 (n : Int) : Int := Int.bmod n (2 ^ 64)

/-- `(size_t) i` -/
def toSizeT (i : Int) : Nat := (i % 2 ^ 64).toNat

/-- `(ub4) n` -/
def toUb4 (n : Nat) : Nat := n % 2 ^ 32

/-- The bytes of a string literal. -/
def ascii (s : String) : List UInt8 := s.toList.map fun c => UInt8.ofNat c.toNat

theorem toInt_of_lt {n : Nat} (h : n < 2 ^ 31) : toInt n = n :=
  Int.bmod_eq_of_le (by omega) (by omega)

theorem bmod_le (n m : Nat) : Int.bmod n m ≤ n := by
  have hmod : (n : Int) % m ≤ n := Int.ofNat_le.mpr (Nat.mod_le n m)
  rw [Int.bmod_def]
  split
  · exact hmod
  · omega

theorem toInt_le (n : Nat) : toInt n ≤ n := bmod_le n _

theorem bmod_of_ge {n m : Nat} (h : (m + 1) / 2 ≤ n) (h' : n < m) : Int.bmod n m = n - m := by
  have hmod : (n : Int) % m = n := Int.emod_eq_of_lt (Int.natCast_nonneg n) (Int.ofNat_lt.mpr h')
  rw [Int.bmod_def, hmod, if_neg]
  omega

/-- A size of 2 GiB or more is a negative `int`. -/
theorem toInt_of_ge {n : Nat} (h : 2 ^ 31 ≤ n) (h' : n < 2 ^ 32) :
    toInt n = n - (2 ^ 32 : Nat) := by
  have hhalf : (2 ^ 32 + 1) / 2 ≤ n := by omega
  exact bmod_of_ge hhalf h'

theorem toInt_neg {n : Nat} (h : 2 ^ 31 ≤ n) (h' : n < 2 ^ 32) : toInt n < 0 :=
  toInt_of_ge h h' ▸ Int.sub_neg_of_lt (Int.ofNat_lt.mpr h')

/-- What is left of a size that was stored in an `int`, and never less than 0. -/
theorem toNat_toInt {n : Nat} (h : n < 2 ^ 32) :
    (toInt n).toNat = if n < 2 ^ 31 then n else 0 := by
  rcases Nat.lt_or_ge n (2 ^ 31) with hlt | hge
  · rw [toInt_of_lt hlt, if_pos hlt, Int.toNat_natCast]
  · rw [if_neg (Nat.not_lt.mpr hge), Int.toNat_of_nonpos (Int.le_of_lt (toInt_neg hge h))]

/-- Only the size 2 ^ 32 - 1 is taken for the error code -1. -/
theorem toInt_ne_neg_one {n : Nat} (h : n < 2 ^ 32 - 1) : toInt n ≠ -1 := by
  rcases Nat.lt_or_ge n (2 ^ 31) with hlt | hge
  · rw [toInt_of_lt hlt]
    omega
  · rw [toInt_of_ge hge (by omega)]
    omega

theorem toInt_eq_zero {n : Nat} (h : n < 2 ^ 32) : toInt n = 0 ↔ n = 0 := by
  rcases Nat.lt_or_ge n (2 ^ 31) with hlt | hge
  · rw [toInt_of_lt hlt]
    omega
  · have := toInt_neg hge h
    omega

theorem toInt_lt (n : Nat) : toInt n < 2 ^ 31 := Int.bmod_lt (by decide)

theorem toSb8_lt (n : Int) : toSb8 n < 2 ^ 63 := Int.bmod_lt (by decide)

theorem le_toSb8 (n : Int) : -2 ^ 63 ≤ toSb8 n := Int.le_bmod (by decide)

theorem toSb8_of_lt {n : Int} (h0 : 0 ≤ n) (h : n < 2 ^ 63) : toSb8 n = n :=
  Int.bmod_eq_of_le (by omega) (by omega)

theorem toUb4_of_lt {n : Nat} (h : n < 2 ^ 32) : toUb4 n = n := Nat.mod_eq_of_lt h

theorem toSizeT_of_lt {n : Nat} (h : n < 2 ^ 64) : toSizeT n = n := by
  have : (n : Int) % 2 ^ 64 = n := Int.emod_eq_of_lt (by omega) (by omega)
  rw [toSizeT, this, Int.toNat_natCast]

/-! ## Types -/

/-- `CONVD_UCS_BOM` -/
inductive UcsBom where
  | noneBom
  | utf8Bom
  | ucs2beBom
  | ucs2leBom
  | ucs4beBom
  | ucs4leBom
  | utf8BomAsk
  deriving DecidableEq, Repr

/-- `conv_buf_t`: a pointer and a size, which need not agree. -/
structure ConvBuf where
  blen : Nat
  bufp : Mem UInt8

/-- The buffer that holds exactly the bytes `bs`. -/
def ConvBuf.ofList (bs : List UInt8) : ConvBuf := ⟨bs.length, Mem.ofList 0 bs⟩

/-- The bytes of a buffer. -/
def ConvBuf.bytes (b : ConvBuf) : List UInt8 := b.bufp.load 0 b.blen

@[simp] theorem ConvBuf.blen_ofList (bs : List UInt8) : (ConvBuf.ofList bs).blen = bs.length := rfl

@[simp] theorem ConvBuf.bytes_ofList (bs : List UInt8) : (ConvBuf.ofList bs).bytes = bs :=
  Mem.load_ofList 0 bs

/-- `sizeof` of the field `version`. -/
def versionSize : Nat := 16

/-- `conv_xmlhead_t`.  The two arrays are adjacent, so they are kept as one
memory: `version[16]` from offset 0, `encoding[64]` from offset 16.  A copy that
runs over `version` is then found in `encoding`, as it is in C. -/
structure ConvXmlhead where
  bom : UcsBom
  fields : Mem UInt8

/-- `xmlhead->version`, read as a string: to the first NUL, which may lie in `encoding`. -/
def ConvXmlhead.version (h : ConvXmlhead) : List UInt8 :=
  cstr (h.fields.load 0 (versionSize + cvdEncodingLenMax))

/-- `xmlhead->encoding`, read as a string. -/
def ConvXmlhead.encoding (h : ConvXmlhead) : List UInt8 :=
  cstr (h.fields.load versionSize cvdEncodingLenMax)

end Convd
