/-
# `Convd.SplitMultiChrs` — splitting at a set of characters

`cstr_split_multi_chrs` of `cstrbuf.h` scans a string for separators and copies out what
lies between them, trimmed of white space.  `start = end` leaves the separator at the
beginning of the next segment, so that the code cuts *before* each separator:

    "a,b"      is taken for    "a" ",b"
    ",a"                       ",a"
    "a b"                      "a" "b"      a blank separator is trimmed away again
-/
import Convd.Def
import Convd.Lib.Strip

namespace Convd

open CString
open List (strip token tokens tokensFrom)

/-! ## The code -/

/-- `for (; s < *end; s++)`, as many turns as there are places. -/
def shrinkStart (str : Mem UInt8) : Nat → Int → Int
  | 0, s => s
  | n + 1, s => if isspace (str s.toNat) then shrinkStart str n (s + 1) else s

/-- `for (; e >= *start; e--)` -/
def shrinkEnd (str : Mem UInt8) : Nat → Int → Int
  | 0, e => e
  | n + 1, e => if isspace (str e.toNat) then shrinkEnd str n (e - 1) else e

/-- `cstr_shrink_whitespace`: the new `*start` and `*end`, and the result. -/
def cstrShrinkWhitespace (str : Mem UInt8) (start stop : Int) : Int × Int × Int :=
  let s := shrinkStart str (stop - start).toNat start
  let e := shrinkEnd str (stop - s + 1).toNat stop
  (s, e, e - s + 1)

/-- An entry of `outsubs` and `outsubslen`: the bytes of the block, the NUL included. -/
structure Sub where
  block : List UInt8
  len : Int
  deriving DecidableEq, Repr

/-- The copy of a segment, when anything is left of it. -/
def copySub (str : Mem UInt8) (start stop : Int) : List Sub :=
  let (substart, _, sublen) := cstrShrinkWhitespace str start (stop - 1)
  if sublen > 0 then [⟨str.load substart.toNat sublen.toNat ++ [0], sublen⟩] else []

/-- The scan, at `i` with `n` characters to come.  What is returned are the entries that are
still to be stored; `len` is how many there are already. -/
def splitScan (str : Mem UInt8) (sepchrs : List UInt8) (maxsubs : Int) :
    Nat → Nat → Nat → Int → List Sub
  | 0, i, start, len =>
      -- end = slen
      if len < maxsubs ∧ i > start then copySub str start i else []
  | n + 1, i, start, len =>
      -- the loop over `sepchrs` was left with `k < count`, and with `end = i`
      if sepchrs.contains (str i) ∧ i > start ∧ len < maxsubs then
        let sub := copySub str start i
        if sub ≠ [] ∧ len + 1 = maxsubs then sub
        else sub ++ splitScan str sepchrs maxsubs n (i + 1) i (len + sub.length)
      else splitScan str sepchrs maxsubs n (i + 1) start len

/-- `cstr_split_multi_chrs`: the entries; their number is what it returns. -/
def cstrSplitMultiChrs (str : Mem UInt8) (slen : Int) (sepchrs : List UInt8) (maxsubs : Int) :
    List Sub :=
  splitScan str sepchrs maxsubs slen.toNat 0 0 0

/-! ## One segment -/

/-- A text as it is copied out. -/
def Sub.ofText (t : List UInt8) : Sub := ⟨t ++ [0], t.length⟩

/-- Where the first loop stops: behind white space, at a character or at the last place. -/
theorem shrinkStart_split (str : Mem UInt8) (n : Nat) : ∀ a : Nat, ∃ k ≤ n,
    shrinkStart str n a = (a + k : Nat) ∧ (∀ c ∈ str.load a k, isspace c) ∧
      (k = n ∨ isspace (str (a + k)) = false) := by
  induction n with
  | zero => exact fun a => ⟨0, Nat.le_refl 0, rfl, List.forall_mem_nil _, .inl rfl⟩
  | succ n ih =>
      intro a
      rw [shrinkStart, Int.toNat_natCast]
      split
      · rename_i hspace
        obtain ⟨k, hk, heq, hall, hstop⟩ := ih (a + 1)
        have hadd : a + 1 + k = a + (k + 1) := by omega
        rw [hadd] at heq hstop
        refine ⟨k + 1, Nat.succ_le_succ hk, heq, List.forall_mem_cons.mpr ⟨hspace, hall⟩, ?_⟩
        exact hstop.imp_left (congrArg Nat.succ)
      · rename_i hchar
        exact ⟨0, Nat.zero_le _, rfl, List.forall_mem_nil _, .inr (by simpa using hchar)⟩

/-- Where the second loop stops. -/
theorem shrinkEnd_eq (str : Mem UInt8) (s : Nat) : ∀ n : Nat,
    shrinkEnd str n (s + n - 1) = s + ((str.load s n).rdropWhile isspace).length - 1
  | 0 => rfl
  | n + 1 => by
      have hlast : ((s : Int) + (n + 1 : Nat) - 1).toNat = s + n := by omega
      have hload : str.load s (n + 1) = str.load s n ++ [str (s + n)] := Mem.load_add str s n 1
      have hnext : (s : Int) + (n + 1 : Nat) - 1 - 1 = s + n - 1 := by omega
      rw [shrinkEnd, hlast, hload, List.rdropWhile_concat, hnext]
      split
      · exact shrinkEnd_eq str s n
      · rw [List.length_append, Mem.length_load, List.length_singleton]

/-- Stripped at the end, what begins with a character or is one place is stripped. -/
theorem strip_load (str : Mem UInt8) {s n : Nat} (h : n = 0 ∨ isspace (str s) = false) :
    strip isspace (str.load s (n + 1)) = (str.load s (n + 1)).rdropWhile isspace := by
  by_cases hs : isspace (str s) = false
  · rw [Mem.load, List.strip_cons_of_not hs]
    exact (List.rdropWhile_append_of_not hs [] _).symm
  · obtain rfl := h.resolve_right hs
    have hspace : ∀ c ∈ str.load s 1, isspace c := by simpa [Mem.load] using hs
    rw [List.strip_of_forall hspace]
    exact (List.rdropWhile_eq_nil_iff.mpr hspace).symm

/-- A segment of one place or more is stripped where it lies. -/
theorem cstrShrinkWhitespace_eq (str : Mem UInt8) (a n : Nat) : ∃ s : Nat, ∃ e : Int,
    cstrShrinkWhitespace str a (a + n : Nat)
        = ((s : Int), e, ((strip isspace (str.load a (n + 1))).length : Int)) ∧
      str.load s (strip isspace (str.load a (n + 1))).length
        = strip isspace (str.load a (n + 1)) := by
  obtain ⟨k, hk, hstart, hall, hstop⟩ := shrinkStart_split str n a
  obtain ⟨m, rfl⟩ := Nat.exists_eq_add_of_le hk
  have hlen : (((a + (k + m) : Nat) : Int) - a).toNat = k + m := by omega
  have hrest : (((a + (k + m) : Nat) : Int) - (a + k : Nat) + 1).toNat = m + 1 := by omega
  have hstop' : ((a + (k + m) : Nat) : Int) = (a + k : Nat) + (m + 1 : Nat) - 1 := by omega
  have hstrip : strip isspace (str.load a (k + m + 1))
      = (str.load (a + k) (m + 1)).rdropWhile isspace := by
    rw [Nat.add_assoc, Mem.load_add, List.strip_append_left hall, strip_load]
    exact hstop.imp_left fun h => by omega
  have hend := shrinkEnd_eq str (a + k) (m + 1)
  rw [← hstop', ← hstrip] at hend
  refine ⟨a + k, shrinkEnd str (m + 1) (a + (k + m) : Nat), ?_, ?_⟩
  · simp only [cstrShrinkWhitespace, hlen, hstart, hrest, Prod.mk.injEq, true_and]
    omega
  · rw [hstrip]
    have hpre := List.rdropWhile_prefix isspace (str.load (a + k) (m + 1))
    conv_rhs => rw [List.prefix_iff_eq_take.mp hpre]
    rw [Mem.take_load _ _ (by simpa using hpre.length_le)]

/-- What a segment contributes to the entries. -/
theorem copySub_eq (str : Mem UInt8) {a b : Nat} (h : a < b) :
    copySub str a b = (token isspace (str.load a (b - a))).map Sub.ofText := by
  obtain ⟨n, rfl⟩ := Nat.exists_eq_add_of_lt h
  have hstop : ((a + n + 1 : Nat) : Int) - 1 = (a + n : Nat) := by omega
  have hlen : a + n + 1 - a = n + 1 := by omega
  obtain ⟨s, e, hshrink, hload⟩ := cstrShrinkWhitespace_eq str a n
  rw [hlen, token]
  simp only [copySub, hstop, hshrink, Int.toNat_natCast, hload]
  cases strip isspace (str.load a (n + 1)) with
  | nil => rfl
  | cons c t => exact if_pos (Int.natCast_pos.mpr (Nat.succ_pos t.length))

/-! ## The scan -/

/-- What the code makes of `cur ++ l`: it cuts before each separator. -/
def cutBefore (sepchrs cur : List UInt8) : List UInt8 → List (List UInt8)
  | [] => token isspace cur
  | b :: l =>
      if sepchrs.contains b then token isspace cur ++ cutBefore sepchrs [b] l
      else cutBefore sepchrs (cur ++ [b]) l

/-- What the function is for: the segments between separators, trimmed, none of them empty. -/
def fieldsBetween (sepchrs text : List UInt8) : List (List UInt8) :=
  List.tokens isspace sepchrs.contains text

theorem length_token_le (cur : List UInt8) : (token isspace cur).length ≤ 1 := by
  rw [token]
  split
  · exact Nat.zero_le 1
  · exact Nat.le_refl 1

/-- The entries stored from a place on, `m` being how many there is room for. -/
theorem splitScan_eq (str : Mem UInt8) (sepchrs : List UInt8) (maxsubs : Int) :
    ∀ (n start len : Nat) {m : Nat} (k : Nat), (maxsubs - len).toNat = m →
      splitScan str sepchrs maxsubs n (start + k) start len
        = ((cutBefore sepchrs (str.load start k) (str.load (start + k) n)).take m).map Sub.ofText
  | 0, start, len, m, k, hm => by
      rw [splitScan, Mem.load_zero, cutBefore]
      by_cases hroom : 0 < m ∧ 0 < k
      · have hle := Nat.le_trans (length_token_le (str.load start k)) hroom.1
        rw [if_pos (by omega), List.take_of_length_le hle, copySub_eq str (by omega),
          Nat.add_sub_cancel_left]
      · rw [if_neg (by omega)]
        rcases Nat.eq_zero_or_pos m with rfl | hpos
        · rfl
        · obtain rfl : k = 0 := by omega
          cases m <;> rfl
  | n + 1, start, len, m, k, hm => by
      have hgrow := splitScan_eq str sepchrs maxsubs n start len (k + 1) hm
      rw [Mem.load_add, ← Nat.add_assoc] at hgrow
      rw [splitScan, Mem.load, cutBefore]
      by_cases hsep : sepchrs.contains (str (start + k))
      · rw [if_pos hsep]
        by_cases hcut : 0 < m ∧ 0 < k
        · have hle := length_token_le (str.load start k)
          have hsub : copySub str start (start + k : Nat)
              = (token isspace (str.load start k)).map Sub.ofText := by
            rw [copySub_eq str (by omega), Nat.add_sub_cancel_left]
          rw [if_pos ⟨hsep, by omega, by omega⟩, hsub, List.take_append, List.map_append,
            List.take_of_length_le (by omega)]
          simp only [List.length_map]
          split
          · rename_i hlast
            have hone : (token isspace (str.load start k)).length = 1 := by
              have hne := List.length_pos_iff.mpr (mt (congrArg (List.map Sub.ofText)) hlast.1)
              omega
            have hm1 : m - (token isspace (str.load start k)).length = 0 := by omega
            rw [hm1, List.take_zero, List.map_nil, List.append_nil]
          · have hnext := splitScan_eq str sepchrs maxsubs n (start + k)
              (len + (token isspace (str.load start k)).length) 1 rfl
            have hm' : (maxsubs - (len + (token isspace (str.load start k)).length : Nat)).toNat
                = m - (token isspace (str.load start k)).length := by omega
            rw [hm'] at hnext
            exact congrArg _ hnext
        · rw [if_neg (by omega), hgrow]
          rcases Nat.eq_zero_or_pos m with rfl | hpos
          · rfl
          · obtain rfl : k = 0 := by omega
            rfl
      · rw [if_neg hsep, if_neg fun h => hsep h.1]
        exact hgrow

/-! ## When the separators are cut away -/

/-- Each separator of `text` is white space or stands behind `m` fields. -/
def SeparatorsBlank (sepchrs : List UInt8) (m : Nat) (text : List UInt8) : Prop :=
  ∀ before c after, text = before ++ c :: after → c ∈ sepchrs →
    isspace c ∨ m ≤ (fieldsBetween sepchrs before).length

/-- What is promised of `cstr_split_multi_chrs`. -/
structure SplitsFields (str : Mem UInt8) (slen : Int) (sepchrs : List UInt8) (maxsubs : Int) :
    Prop where
  fields : cstrSplitMultiChrs str slen sepchrs maxsubs
    = ((fieldsBetween sepchrs (str.load 0 slen.toNat)).take maxsubs.toNat).map Sub.ofText
  no_separator : ∀ t, Sub.ofText t ∈ cstrSplitMultiChrs str slen sepchrs maxsubs →
    ∀ c ∈ t, c ∉ sepchrs

theorem ofText_injective : Function.Injective Sub.ofText := by
  intro t t' h
  exact List.append_cancel_right (Sub.mk.inj h).1

/-- Cut before a separator that is no blank, a text begins with a field that has it in it. -/
theorem cutBefore_head {sepchrs : List UInt8} {c : UInt8} (hc : isspace c = false) :
    ∀ (cur l : List UInt8), ∃ t ts, cutBefore sepchrs (c :: cur) l = (c :: t) :: ts
  | cur, [] => ⟨_, [], by rw [cutBefore, token, List.strip_cons_of_not hc]; rfl⟩
  | cur, b :: l => by
      rw [cutBefore]
      split
      · rw [token, List.strip_cons_of_not hc]
        exact ⟨_, _, rfl⟩
      · exact cutBefore_head hc (cur ++ [b]) l

section Fields

variable {sepchrs : List UInt8}

/-- No field has a separator in it, so the one that begins with it is not among the first. -/
theorem eq_zero_of_cutBefore {b : UInt8} {l : List UInt8} {j : Nat} (hb : sepchrs.contains b)
    (hspace : isspace b = false) (heq : (cutBefore sepchrs [b] l).take j
      = (tokensFrom isspace sepchrs.contains [] l).take j) : j = 0 := by
  obtain ⟨t, ts, hhead⟩ := @cutBefore_head sepchrs b hspace [] l
  by_contra hpos
  obtain ⟨i, rfl⟩ := Nat.exists_eq_succ_of_ne_zero hpos
  rw [hhead] at heq
  have ht : b :: t ∈ tokensFrom isspace sepchrs.contains [] l := by
    apply List.mem_of_mem_take (i := i.succ)
    rw [← heq]
    exact List.mem_cons_self
  have hclean := List.not_sep_of_mem_tokensFrom (List.forall_mem_nil _) _ ht b List.mem_cons_self
  rw [hb] at hclean
  cases hclean

/-- Among the first `m` fields the two ways to cut agree exactly as long as the separators
are blanks.  `w` are the blanks that the code has left in front of the segment `cur`. -/
theorem cutBefore_iff : ∀ {m : Nat} {w cur : List UInt8} (l : List UInt8),
    (∀ c ∈ w, isspace c) → (∀ c ∈ cur, sepchrs.contains c = false) →
    ((cutBefore sepchrs (w ++ cur) l).take m
        = (tokensFrom isspace sepchrs.contains cur l).take m ↔
      ∀ before c after, l = before ++ c :: after → c ∈ sepchrs →
        isspace c ∨ m ≤ (tokensFrom isspace sepchrs.contains cur before).length)
  | m, w, cur, [], hw, hcur => by
      have hsame : token isspace (w ++ cur) = token isspace cur := by
        rw [token, List.strip_append_left hw, token]
      rw [cutBefore, tokensFrom, hsame]
      refine iff_of_true rfl ?_
      rintro (_ | ⟨a, before⟩) c after h
      · cases h
      · cases h
  | m, w, cur, b :: l, hw, hcur => by
      have hsame : token isspace (w ++ cur) = token isspace cur := by
        rw [token, List.strip_append_left hw, token]
      rw [cutBefore, tokensFrom, List.forall_split_cons]
      by_cases hb : sepchrs.contains b
      · have hmem : b ∈ sepchrs := List.contains_iff_mem.mp hb
        have hlen : ∀ before : List UInt8,
            (tokensFrom isspace sepchrs.contains cur (b :: before)).length
              = (token isspace cur).length
                + (tokensFrom isspace sepchrs.contains [] before).length := by
          intro before
          rw [tokensFrom, if_pos hb, List.length_append]
        simp only [if_pos hb, hlen, hsame, List.take_append, List.append_cancel_left_eq]
        by_cases hspace : isspace b
        · have ih := @cutBefore_iff (m - (token isspace cur).length) [b] [] l
            (List.forall_mem_singleton.mpr hspace) (List.forall_mem_nil _)
          rw [List.append_nil] at ih
          rw [ih, and_iff_right fun _ => .inl hspace]
          simp only [Nat.sub_le_iff_le_add']
        · constructor
          · intro heq
            have hroom : m ≤ (token isspace cur).length :=
              Nat.sub_eq_zero_iff_le.mp (eq_zero_of_cutBefore hb (Bool.eq_false_iff.mpr hspace) heq)
            exact ⟨fun _ => .inr hroom, fun _ _ _ _ _ =>
              .inr (Nat.le_trans hroom (Nat.le_add_right _ _))⟩
          · rintro ⟨hroom, -⟩
            have hle : m ≤ (token isspace cur).length := (hroom hmem).resolve_left hspace
            rw [Nat.sub_eq_zero_of_le hle, List.take_zero, List.take_zero]
      · have hcur' : ∀ c ∈ cur ++ [b], sepchrs.contains c = false := by
          intro c hc
          rcases List.mem_append.mp hc with hc | hc
          · exact hcur c hc
          · rw [List.mem_singleton.mp hc]
            exact Bool.eq_false_iff.mpr hb
        have ih := cutBefore_iff (m := m) l hw hcur'
        rw [← List.append_assoc] at ih
        have hnot : b ∉ sepchrs := fun h => hb (List.contains_iff_mem.mpr h)
        rw [if_neg hb, if_neg hb, ih, and_iff_right fun h => absurd h hnot]
        simp only [tokensFrom, if_neg hb]

end Fields

/-! ## The call -/

theorem cstrSplitMultiChrs_eq (str : Mem UInt8) (slen : Int) (sepchrs : List UInt8)
    (maxsubs : Int) : cstrSplitMultiChrs str slen sepchrs maxsubs
      = ((cutBefore sepchrs [] (str.load 0 slen.toNat)).take maxsubs.toNat).map Sub.ofText := by
  have hm : (maxsubs - (0 : Nat)).toNat = maxsubs.toNat := by rw [Int.natCast_zero, Int.sub_zero]
  exact splitScan_eq str sepchrs maxsubs slen.toNat 0 0 0 hm

/-- Whatever the string, its length, the separators and the room. -/
theorem cstrSplitMultiChrs_splits_iff (str : Mem UInt8) (slen : Int) (sepchrs : List UInt8)
    (maxsubs : Int) : SplitsFields str slen sepchrs maxsubs ↔
      SeparatorsBlank sepchrs maxsubs.toNat (str.load 0 slen.toNat) := by
  have hcut := @cutBefore_iff sepchrs maxsubs.toNat [] [] (str.load 0 slen.toNat)
    (List.forall_mem_nil _) (List.forall_mem_nil _)
  simp only [List.nil_append, List.tokensFrom_nil] at hcut
  refine Iff.trans ?_ hcut
  constructor
  · intro h
    have hfields := h.fields
    rw [cstrSplitMultiChrs_eq] at hfields
    exact List.map_injective_iff.mpr ofText_injective hfields
  · intro heq
    have hfields : cstrSplitMultiChrs str slen sepchrs maxsubs
        = ((fieldsBetween sepchrs (str.load 0 slen.toNat)).take maxsubs.toNat).map Sub.ofText := by
      rw [cstrSplitMultiChrs_eq, heq]
      rfl
    refine ⟨hfields, ?_⟩
    intro t ht c hc hmem
    rw [hfields, List.mem_map_of_injective ofText_injective, fieldsBetween,
      ← List.tokensFrom_nil] at ht
    have hclean := List.not_sep_of_mem_tokensFrom (List.forall_mem_nil _) t
      (List.mem_of_mem_take ht) c hc
    rw [List.contains_iff_mem.mpr hmem] at hclean
    cases hclean

theorem cstrSplitMultiChrs_not_splits :
    ¬ SplitsFields (Mem.ofList 0 (ascii "a,b")) 3 (ascii ",") 4 := by
  intro h
  have := h.fields
  revert this
  decide

end Convd
