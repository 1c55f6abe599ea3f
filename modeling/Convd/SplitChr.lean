/-
# `Convd.SplitChr` — splitting at a character

`cstr_slpit_chr` of `cstrbuf.h` counts the fields of a string in the string itself, up to the
length it is told, and takes them out of a copy, of `len + 1` bytes.  In the copy it cuts a
field off at its delimiter, trims it where it stands, and goes on behind it:

    a b , c, d          the copy, at the first field
    a b 0 c, d          cut
    a b00 c, d          trimmed
-/
import Convd.Trim

namespace Convd

open CString Block
open List (strip)

/-! ## The code -/

/-- `outstrs[i]` and `outstrslen[i]` -/
structure OutStr where
  str : List UInt8
  len : Int
  deriving DecidableEq, Repr

/-- The loop that counts `n`, to be left within so many turns.  The string is at offset 0. -/
def countFields (str : Block) (len : Nat) (delim : UInt8) : Nat → Nat → Int → Option Int
  | 0, _, _ => none
  | fuel + 1, s, n => do
      match ← strchr str s delim with
      | some p => if p < len then countFields str len delim fuel (p + 1) (n + 1) else some n
      | none => some n

/-- `mem_strdup(cstr_LRtrim_chr(sb, 32, &outlen))` -/
def dupField (b : Block) (sb : Nat) : Option (OutStr × Block) := do
  let (q, outlen, b) ← cstrLRtrimChr b sb 32
  let s ← cstrAt b q
  some (⟨s, outlen⟩, b)

/-- The loop over the copy, and the last field behind it: what is stored from `i` on. -/
def takeFields (delim : UInt8) (maxoutnum : Int) : Nat → Block → Nat → Int → Option (List OutStr)
  | 0, _, _, _ => none
  | fuel + 1, b, sb, i => do
      match ← strchr b sb delim with
      | some p =>
          let b ← put b p 0
          if i < maxoutnum then
            let (out, b) ← dupField b sb
            let outs ← takeFields delim maxoutnum fuel b (p + 1) (i + 1)
            some (out :: outs)
          else
            -- the loop is left, and then there is no room for the last field either
            some []
      | none =>
          if i < maxoutnum then
            let (out, _) ← dupField b sb
            some [out]
          else some []

/-- `cstr_slpit_chr`: what it returns, and what it stores when there is an `outstrs`.  The
lengths are stored if there is an array for them too. -/
def cstrSlpitChr (str : Block) (len : Nat) (delim : UInt8) (outstrs : Bool) (maxoutnum : Int) :
    Option (Int × List OutStr) := do
  let n ← countFields str len delim (len + 1) 0 1
  if ! outstrs then some (n, [])
  else if n > 0 then
    if len ≤ str.length then
      let outs ← takeFields delim maxoutnum (len + 1) (str.take len ++ [0]) 0 0
      some (outs.length, outs)
    else none
  else some (0, [])

/-! ## The two modes -/

/-- A field as it is handed out. -/
def OutStr.ofField (f : List UInt8) : OutStr := ⟨strip (· == 32) f, (strip (· == 32) f).length⟩

section Fields

variable {b str : Block} {delim : UInt8} {text tail : List UInt8}

/-- Counting looks at the string only up to `len`, whatever is behind. -/
theorem countFields_eq (hdelim : delim ≠ 0) {len : Nat} :
    ∀ {fuel s : Nat} {text : List UInt8} (n : Int), StrAt str s (text ++ tail) →
    s + text.length = len → text.length < fuel →
    countFields str len delim fuel s n = some (n + (text.splitOn delim).length - 1)
  | 0, _, _, _, _, _, hfuel => absurd hfuel (Nat.not_lt_zero _)
  | fuel + 1, s, text, n, hstr, hlen, hfuel => by
      rw [countFields]
      by_cases hmem : delim ∈ text
      · obtain ⟨u, v, rfl, hu⟩ := List.eq_append_cons_of_mem hmem
        rw [List.length_append, List.length_cons] at hlen hfuel
        rw [List.append_assoc, List.cons_append] at hstr
        have hbehind : StrAt str (s + u.length + 1) (v ++ tail) := hstr.behind
        have ih : countFields str len delim fuel (s + u.length + 1) (n + 1)
            = some (n + 1 + (v.splitOn delim).length - 1) :=
          countFields_eq hdelim (n + 1) hbehind (by omega) (by omega)
        have hlt : s + u.length < len := by omega
        rw [hstr.strchr_mem hu, List.splitOn_append_cons_self_of_not_mem hu]
        simp only [Option.bind_eq_bind, Option.bind_some, if_pos hlt, ih, List.length_cons]
        congr 1
        omega
      · rw [List.splitOn_eq_singleton hmem]
        have hone : n + ([text].length : Nat) - 1 = n := by simp
        by_cases htail : delim ∈ tail
        · -- found behind the end
          obtain ⟨u, v, rfl, hu⟩ := List.eq_append_cons_of_mem htail
          rw [← List.append_assoc] at hstr
          have hfar : ¬ s + (text ++ u).length < len := by
            rw [List.length_append]
            omega
          rw [hstr.strchr_mem (List.mem_append.not.mpr (not_or.mpr ⟨hmem, hu⟩)), hone]
          simp only [Option.bind_eq_bind, Option.bind_some, if_neg hfar]
        · rw [hstr.strchr_notMem (List.mem_append.not.mpr (not_or.mpr ⟨hmem, htail⟩)) hdelim, hone]
          rfl

/-- A field is trimmed where it stands, and a string behind it stays. -/
theorem dupField_eq {sb : Nat} (h : StrAt b sb text) (hlen : text.length < 2 ^ 31) :
    ∃ b', dupField b sb = some (OutStr.ofField text, b') ∧
      ∀ {p : Nat} {t : List UInt8}, sb + text.length < p → StrAt b p t → StrAt b' p t := by
  obtain ⟨q, b', htrim, hstr, hkeep⟩ := cstrLRtrimChr_eq h (by decide : (32 : UInt8) ≠ 0)
  rw [toInt_of_lt (Nat.lt_of_le_of_lt (List.length_strip_le text) hlen)] at htrim
  refine ⟨b', ?_, hkeep⟩
  rw [dupField, htrim]
  simp only [Option.bind_eq_bind, Option.bind_some, hstr.cstrAt_eq]
  rfl

/-- From a field on, `m` being how many there is room for. -/
theorem takeFields_eq (hdelim : delim ≠ 0) {maxoutnum : Int} :
    ∀ {fuel sb : Nat} {i : Int} {m : Nat} {b : Block} {text : List UInt8}, StrAt b sb text →
    text.length < 2 ^ 31 → text.length < fuel → (maxoutnum - i).toNat = m →
    takeFields delim maxoutnum fuel b sb i
      = some (((text.splitOn delim).map OutStr.ofField).take m)
  | 0, _, _, _, _, _, _, _, hfuel, _ => absurd hfuel (Nat.not_lt_zero _)
  | fuel + 1, sb, i, m, b, text, h, hlen, hfuel, hm => by
      rw [takeFields]
      by_cases hmem : delim ∈ text
      · obtain ⟨u, v, rfl, hu⟩ := List.eq_append_cons_of_mem hmem
        rw [List.length_append, List.length_cons] at hlen hfuel
        have hput := h.put_eq (i := u.length) (by simp) 0
        obtain ⟨b', hdup, hkeep⟩ := dupField_eq h.cut_left (by omega)
        have hv := hkeep (Nat.lt_succ_self _) h.cut_right
        rw [h.strchr_mem hu, List.splitOn_append_cons_self_of_not_mem hu, List.map_cons]
        simp only [Option.bind_eq_bind, Option.bind_some, hput]
        split
        · rename_i hroom
          obtain ⟨k, rfl⟩ : ∃ k, m = k + 1 := ⟨m - 1, by omega⟩
          have ih : takeFields delim maxoutnum fuel b' (sb + u.length + 1) (i + 1)
              = some (((v.splitOn delim).map OutStr.ofField).take k) :=
            takeFields_eq hdelim hv (by omega) (by omega) (by omega)
          simp only [hdup, Option.bind_some, ih, List.take_succ_cons]
        · obtain rfl : m = 0 := by omega
          rfl
      · obtain ⟨b', hdup, -⟩ := dupField_eq h hlen
        rw [h.strchr_notMem hmem hdelim, List.splitOn_eq_singleton hmem]
        simp only [Option.bind_eq_bind, Option.bind_some]
        split
        · obtain ⟨k, rfl⟩ : ∃ k, m = k + 1 := ⟨m - 1, by omega⟩
          simp only [hdup, Option.bind_some, List.map_cons, List.map_nil, List.take_succ_cons,
            List.take_nil]
        · obtain rfl : m = 0 := by omega
          rfl

end Fields

/-- Both modes go by the same fields, and taking them out never leaves the copy.  `len + 1` is
an `int`; a `maxoutnum` below zero is room for none. -/
theorem cstrSlpitChr_splits {str : Block} {text tail : List UInt8}
    (hstr : StrAt str 0 (text ++ tail)) (hlen : text.length + 1 < 2 ^ 31) {delim : UInt8}
    (hdelim : delim ≠ 0) (maxoutnum : Int) :
    cstrSlpitChr str text.length delim false maxoutnum
        = some (((text.splitOn delim).length : Int), []) ∧
      cstrSlpitChr str text.length delim true maxoutnum
        = some (((min (text.splitOn delim).length maxoutnum.toNat : Nat) : Int),
          ((text.splitOn delim).map OutStr.ofField).take maxoutnum.toNat) := by
  have hcopy : StrAt (str.take text.length ++ [0]) 0 text := by
    obtain ⟨hnul, rest, hdrop⟩ := hstr
    refine ⟨fun h => hnul (List.mem_append_left _ h), [], ?_⟩
    rw [List.drop_zero] at hdrop ⊢
    rw [hdrop, List.append_assoc, List.take_left]
  have hfits : text.length ≤ str.length := by
    have hlt := hstr.lt_length
    rw [List.length_append] at hlt
    omega
  have hcount := countFields_eq hdelim 1 hstr (Nat.zero_add _) (Nat.lt_succ_self _)
  have htake : takeFields delim maxoutnum (text.length + 1) (str.take text.length ++ [0]) 0 0
      = some (((text.splitOn delim).map OutStr.ofField).take maxoutnum.toNat) :=
    takeFields_eq hdelim hcopy (by omega) (Nat.lt_succ_self _) (by rw [Int.sub_zero])
  have hpos := List.length_pos_of_ne_nil (List.splitOn_ne_nil delim text)
  have hn : 1 + ((text.splitOn delim).length : Int) - 1 = (text.splitOn delim).length := by omega
  rw [hn] at hcount
  constructor
  · rw [cstrSlpitChr, hcount]
    rfl
  · have hnpos : ((text.splitOn delim).length : Int) > 0 := by omega
    rw [cstrSlpitChr, hcount]
    simp only [Option.bind_eq_bind, Option.bind_some, Bool.not_true, Bool.false_eq_true, if_false,
      if_pos hnpos, if_pos hfits, htake, List.length_take, List.length_map,
      Nat.min_comm]

theorem cstrSlpitChr_splits_pair :
    cstrSlpitChr [97, 32, 44, 98, 0] 4 44 false 2 = some (2, []) ∧
      cstrSlpitChr [97, 32, 44, 98, 0] 4 44 true 2 = some (2, [⟨[97], 1⟩, ⟨[98], 1⟩]) :=
  @cstrSlpitChr_splits _ [97, 32, 44, 98] [] ⟨by decide, [], rfl⟩ (by decide) 44 (by decide) 2

end Convd
