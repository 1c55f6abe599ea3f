/-
# `Convd.SplitSubstr` — splitting at a string

`cstr_split_substr` of `cstrbuf.h` writes a NUL over the beginning of each separator it finds,
stores a pointer to what is in front, and goes on behind the separator:

    a::b:c          the string, and `::`
    a0:b:c          the first piece, `a`; the second one begins at `b`

A NUL is only ever written in front of where the search goes on, so that the search meets the
string as it was, and behind the pieces that are stored already.
-/
import Convd.Def
import Convd.Lib.Block
import Convd.Lib.Occurrences
import Mathlib.Data.List.Forall2

namespace Convd

open CString Block

/-! ## The code -/

/-- `p += n`, which must not lead in front of the object. -/
def advance (p : Nat) (n : Int) : Option Nat := if 0 ≤ p + n then some (p + n).toNat else none

/-- The loop: the pointers it stores from `s` on, with room for so many.  `none` is the null
pointer that a search without a match leaves in `s`. -/
def splitSubs (sepstr : List UInt8) (seplen : Int) :
    Nat → Block → Option Nat → Option (List Nat × Block)
  | 0, b, _ => some ([], b)
  | _ + 1, b, none => some ([], b)
  | n + 1, b, some s => do
      match ← strstrAt b s sepstr with
      | some p =>
          let b ← put b p 0
          let next ← advance p seplen
          let (subs, b) ← splitSubs sepstr seplen n b (some next)
          some (s :: subs, b)
      | none =>
          let (subs, b) ← splitSubs sepstr seplen n b none
          some (s :: subs, b)

/-- `cstr_split_substr`: what it returns, `subs`, and the object. -/
def cstrSplitSubstr (b : Block) (str : Nat) (sepstr : List UInt8) (seplen maxsubs : Int) :
    Option (Int × List Nat × Block) :=
  (splitSubs sepstr seplen maxsubs.toNat b (some str)).map fun (subs, b) =>
    ((subs.length : Int), subs, b)

/-! ## The pieces -/

section Pieces

variable {b : Block} {s : Nat} {sep text : List UInt8} {ps : List (List UInt8)}

theorem advance_length (p : Nat) (t : List UInt8) : advance p t.length = some (p + t.length) := by
  rw [advance, if_pos (by omega)]
  congr 1

theorem strstrAt_of_not (h : StrAt b s text) (hnone : ∀ q, ¬ sep <+: text.drop q) :
    strstrAt b s sep = some none := by
  rw [strstrAt, h.cstrAt_eq, Option.map_some, strstr_of_not hnone, Option.map_none]

theorem strstrAt_of_first {a l : List UInt8} (h : StrAt b s (a ++ (sep ++ l)))
    (hfirst : ∀ q < a.length, ¬ sep <+: (a ++ (sep ++ l)).drop q) :
    strstrAt b s sep = some (some (s + a.length)) := by
  rw [strstrAt, h.cstrAt_eq, Option.map_some, strstr_of_first hfirst, Option.map_some]

/-- The pieces are strings of the object as it is left, and what is in front of the string that
is split stays. -/
theorem splitSubs_eq (hne : sep ≠ []) (hcut : List.CutAt sep text ps) :
    ∀ {n : Nat} {b : Block} {s : Nat}, StrAt b s text →
      ∃ subs b', splitSubs sep sep.length n b (some s) = some (subs, b') ∧
        List.Forall₂ (StrAt b') subs (ps.take n) ∧
        ∀ {q : Nat} {t : List UInt8}, q + t.length < s → StrAt b q t → StrAt b' q t := by
  induction hcut with
  | @rest l hnone =>
      intro n b s h
      cases n with
      | zero => exact ⟨[], b, rfl, .nil, fun _ ht => ht⟩
      | succ n =>
          have hnull : splitSubs sep sep.length n b none = some ([], b) := by cases n <;> rfl
          refine ⟨[s], b, ?_, ?_, fun _ ht => ht⟩
          · rw [splitSubs, strstrAt_of_not h hnone]
            simp only [Option.bind_eq_bind, Option.bind_some, hnull]
          · rw [List.take_succ_cons, List.take_nil]
            exact .cons h .nil
  | @part a l ps hfirst hl ih =>
      intro n b s h
      cases n with
      | zero => exact ⟨[], b, rfl, .nil, fun _ ht => ht⟩
      | succ n =>
          have hpos := List.length_pos_iff.mpr hne
          have hput := h.put_eq (i := a.length) (by simp) 0
          have hbehind := h.tail.tail.set_of_outside (i := s + a.length) (.inl (by omega)) 0
          obtain ⟨subs, b', hsubs, hpieces, hkeep⟩ := @ih n _ _ hbehind
          refine ⟨s :: subs, b', ?_, .cons (hkeep (by omega) h.cut_left) hpieces, ?_⟩
          · rw [splitSubs, strstrAt_of_first h hfirst]
            simp only [Option.bind_eq_bind, Option.bind_some, hput, advance_length, hsubs]
          · intro q t hq ht
            exact hkeep (by omega) (ht.set_of_outside (.inr (by omega)) 0)

end Pieces

/-- The pieces are the first fields, as many as there is room for; if there is room for all of
them, joined by the separator they are the string. -/
theorem cstrSplitSubstr_splits {b : Block} {str : Nat} {text sepstr : List UInt8}
    (h : StrAt b str text) (hne : sepstr ≠ []) (maxsubs : Int) :
    ∃ ps subs b', List.CutAt sepstr text ps ∧
      cstrSplitSubstr b str sepstr sepstr.length maxsubs
        = some (((min ps.length maxsubs.toNat : Nat) : Int), subs, b') ∧
      List.Forall₂ (StrAt b') subs (ps.take maxsubs.toNat) ∧
      ((ps.length : Int) ≤ maxsubs →
        ∀ ts, List.Forall₂ (StrAt b') subs ts → List.intercalate sepstr ts = text) := by
  obtain ⟨ps, hcut⟩ := exists_cutAt hne text
  obtain ⟨subs, b', hsubs, hpieces, -⟩ := @splitSubs_eq _ _ _ hne hcut maxsubs.toNat b str h
  have hlen : subs.length = min ps.length maxsubs.toNat := by
    rw [hpieces.length_eq, List.length_take, Nat.min_comm]
  refine ⟨ps, subs, b', hcut, ?_, hpieces, ?_⟩
  · rw [cstrSplitSubstr, hsubs, ← hlen]
    rfl
  · intro hroom ts hts
    have hsame : ps.take maxsubs.toNat = ts := (StrAt.rightUnique b').forall₂ hpieces hts
    rw [← hsame, List.take_of_length_le (by omega), hcut.join]

/-- Three pieces, the last one empty. -/
theorem cstrSplitSubstr_splits_colons :
    ∃ ps subs b', List.CutAt (ascii "::") (ascii "a::b::") ps ∧
      cstrSplitSubstr (ascii "a::b::" ++ [0]) 0 (ascii "::") (ascii "::").length 3
        = some (((min ps.length (3 : Int).toNat : Nat) : Int), subs, b') ∧
      List.Forall₂ (StrAt b') subs (ps.take (3 : Int).toNat) ∧
      ((ps.length : Int) ≤ 3 → ∀ ts, List.Forall₂ (StrAt b') subs ts →
        List.intercalate (ascii "::") ts = ascii "a::b::") :=
  cstrSplitSubstr_splits ⟨by decide, [], rfl⟩ (by decide) 3

end Convd
